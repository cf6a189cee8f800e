import DocComment.Proofs.Grammar.Enclosed

/-!
# Where an accepted comment is closed

A comment that is accepted ends with a closing delimiter, behind which there are only blanks. It may
hold another one in front of it. A closing delimiter in a description, a name or a word ends the
comment, but one in an email address, or in what a version-control system writes, is taken as text
of the address or of the version. There is no third place.
-/

namespace DocComment

namespace Grammar

open Screening (Written)

variable {clean : Prop} {tokens taken more rest inner : List Token}

/-! ## One block tag behind the other -/

theorem Holds.append_left (front : List Token) (h : Holds taken inner) :
    Holds (front ++ taken) inner := by
  obtain ⟨before, mark, name, blanks, words, after, rfl, hrest⟩ := h
  exact ⟨front ++ before, mark, name, blanks, words, after, by rw [List.append_assoc], hrest⟩

theorem Holds.append_right (back : List Token) (h : Holds taken inner) :
    Holds (taken ++ back) inner := by
  obtain ⟨before, mark, name, blanks, words, after, rfl, hrest⟩ := h
  exact ⟨before, mark, name, blanks, words, after ++ back, by simp, hrest⟩

/-- Every closing delimiter among the tokens is enclosed. -/
def Guarded (tokens : List Token) : Prop :=
  ∀ t ∈ tokens, t.kind = .outro → ∃ inner, Holds tokens inner ∧ t ∈ inner

theorem Unclosed.guarded (h : Unclosed tokens) : Guarded tokens :=
  fun t ht hkind => absurd hkind (h t ht)

theorem Guarded.append (h : Guarded taken) (hmore : Guarded more) : Guarded (taken ++ more) := by
  intro t ht hkind
  rcases List.mem_append.mp ht with ht | ht
  · obtain ⟨inner, hinner, ht⟩ := h t ht hkind
    exact ⟨inner, hinner.append_right more, ht⟩
  · obtain ⟨inner, hinner, ht⟩ := hmore t ht hkind
    exact ⟨inner, hinner.append_left taken, ht⟩

/-- A closing delimiter that is enclosed does not stand in front of blanks alone. -/
theorem Encloses.inner_mem {name : TagName} {words : List Token} (h : Encloses inner name words) :
    ∃ lead closing, words = lead ++ (inner ++ [closing]) ∧
      (closing.kind = .rightAngle ∨ closing.kind = .dollar) ∧ Unclosed lead := by
  cases h with
  | @email lead opening closing named opens free address closes =>
    refine ⟨lead ++ [opening], closing, by simp, .inl closes, ?_⟩
    refine .append (fun t ht hkind => ?_) (.cons (by simp [opens]) .nil)
    exact (named t ht).2 (by simp [hkind])
  | @identification name head blanks opening closing versioned word system blank opens
    free closes =>
    refine ⟨head ++ (blanks ++ [opening]), closing, by simp, .inr closes, ?_⟩
    refine .append (fun t ht hkind => ?_)
      ((unclosed_of_blanks blank).append (.cons (by simp [opens]) .nil))
    have hword := word t ht
    rw [hkind] at hword
    cases hword

theorem ReadsBlock.guarded {tag : Tag} (h : ReadsBlock clean tag taken rest)
    (hplain : PlainOutro taken) :
    Guarded taken := by
  have hsaid : ∀ {name mark blanks words content rest}, mark.kind = .tag name →
      (∀ t ∈ blanks, isBlankKind t.kind = true) → ReadsContent clean name content words rest →
      PlainOutro words → Guarded (mark :: (blanks ++ words)) := by
    intro name mark blanks words content rest hmark hblanks hsaid hplain
    rcases hsaid.encloses hplain with hfree | ⟨inner, hencloses⟩
    · have hmarkfree : mark.kind ≠ .outro := by simp [hmark]
      exact (Unclosed.cons hmarkfree ((unclosed_of_blanks hblanks).append hfree)).guarded
    · have hholds : Holds (mark :: (blanks ++ words)) inner :=
        ⟨[], mark, name, blanks, words, [], by simp, hmark, hblanks, hencloses⟩
      obtain ⟨lead, closing, rfl, hclosing, hlead⟩ := hencloses.inner_mem
      intro t ht hkind
      refine ⟨inner, hholds, ?_⟩
      simp only [List.mem_cons, List.mem_append, List.not_mem_nil, or_false] at ht
      rcases ht with rfl | ht | ht | ht | rfl
      · rw [hmark] at hkind
        cases hkind
      · exact absurd hkind (unclosed_of_blanks hblanks t ht)
      · exact absurd hkind (hlead t ht)
      · exact ht
      · rw [hkind] at hclosing
        rcases hclosing with hclosing | hclosing
        · cases hclosing
        · cases hclosing
  cases h with
  | @bare _ mark blanks words _ _ named _ inner said =>
    have hwords : PlainOutro ((mark :: blanks) ++ words) := hplain
    exact hsaid named inner.taken said hwords.right
  | @described _ mark blanks words more _ _ cut _ named _ inner said outer _ carries spans =>
    have hwords : PlainOutro ((mark :: blanks) ++ (words ++ (more ++ cut.tokens))) := hplain
    have hall := (hsaid named inner.taken said hwords.right.left).append
      ((unclosed_of_blanks outer.taken).append (carries.unclosed spans)).guarded
    simpa using hall

/-- What stands in front of the ending is guarded. -/
theorem ReadsBlocks.guarded {ending : List Token} {tags : List Tag}
    (h : ReadsBlocks clean ending tags tokens) (hplain : PlainOutro tokens) :
    ∃ front, tokens = front ++ ending ∧ Guarded front := by
  induction h with
  | done => exact ⟨[], rfl, nofun⟩
  | @block taken blanks rest tag tags reads blank more ih =>
    obtain ⟨front, rfl, hfront⟩ := ih hplain.right.right
    refine ⟨taken ++ (blanks ++ front), by simp, ?_⟩
    exact (reads.guarded hplain.left).append ((unclosed_of_blanks blank).guarded.append hfront)

/-- The tokens are such that only blanks and the mark of the end follow a closing delimiter, behind
tokens in which every other one is enclosed. -/
def ClosedBehind (front tokens : List Token) : Prop :=
  ∃ closing blanks last, tokens = front ++ closing :: (blanks ++ [last]) ∧ closing.kind = .outro ∧
    (∀ t ∈ blanks, t.kind = .whitespace) ∧ last.kind = .endOfText

theorem ReadsComment.guarded {doc : Document} {parts : CommentParts}
    (h : ReadsComment clean doc tokens parts) (hplain : PlainOutro tokens) :
    ∃ front, Guarded front ∧ ClosedBehind front tokens := by
  obtain ⟨closing, blanks, last, hending, hclosing, hblanks, hlast⟩ := h.closes
  rw [h.tokens] at hplain
  obtain ⟨said, hsaid, hguarded⟩ := h.blocks.guarded hplain.right.right
  refine ⟨parts.lead ++ (parts.own.tokens ++ said), ?_, closing, blanks, last, ?_,
    hclosing, ?_, hlast⟩
  · exact h.opens.unclosed.guarded.append ((h.carries.unclosed h.spans).guarded.append hguarded)
  · rw [h.tokens, hsaid, hending]
    simp
  · exact fun t ht => of_decide_eq_true (hblanks t ht)

/-- The comment is closed by its only closing delimiter. -/
def ClosedAlone (tokens : List Token) : Prop := ∃ front, Unclosed front ∧ ClosedBehind front tokens

/-- Behind the only closing delimiter there is nothing else. -/
theorem ClosedAlone.behind {front back : List Token} {t : Token} (h : ClosedAlone tokens)
    (hsplit : tokens = front ++ t :: back) (ht : t.kind = .outro) :
    ∀ u ∈ back, u.kind = .whitespace ∨ u.kind = .endOfText := by
  obtain ⟨lead, hlead, closing, blanks, last, heq, hclosing, hblanks, hlast⟩ := h
  have hend : ∀ u ∈ blanks ++ [last], u.kind = .whitespace ∨ u.kind = .endOfText := by
    intro u hu
    rcases List.mem_append.mp hu with hu | hu
    · exact .inl (hblanks u hu)
    · exact .inr (List.mem_singleton.mp hu ▸ hlast)
  have hsame : lead ++ closing :: (blanks ++ [last]) = front ++ t :: back := heq.symm.trans hsplit
  rcases List.append_eq_append_iff.mp hsame with ⟨between, hfront, hbetween⟩
    | ⟨between, hlead', hbetween⟩
  · cases between with
    | nil => exact (List.cons.inj hbetween).2 ▸ hend
    | cons u between =>
      have hmem : t ∈ blanks ++ [last] := (List.cons.inj hbetween).2 ▸ by simp
      rcases hend t hmem with hkind | hkind
      · simp [hkind] at ht
      · simp [hkind] at ht
  · cases between with
    | nil => exact (List.cons.inj hbetween).2.symm ▸ hend
    | cons u between =>
      have hmem : t ∈ lead := by
        rw [hlead', (List.cons.inj hbetween).1]
        simp
      exact absurd ht (hlead t hmem)

theorem ClosedAlone.countP (h : ClosedAlone tokens) : tokens.countP (·.kind = .outro) = 1 := by
  obtain ⟨front, hfront, closing, blanks, last, rfl, hclosing, hblanks, hlast⟩ := h
  have hnone : ∀ {part : List Token}, Unclosed part → part.countP (·.kind = .outro) = 0 := by
    intro part hpart
    rw [List.countP_eq_zero]
    exact fun t ht => by simpa using hpart t ht
  have hblank : Unclosed blanks := fun t ht => by simp [hblanks t ht]
  simp [List.countP_append, hnone hfront, hnone hblank, hclosing, hlast]

/-- What encloses a closing delimiter goes on behind it. -/
theorem ClosedAlone.unclosed (h : ClosedAlone tokens) (hholds : Holds tokens inner) :
    Unclosed inner := by
  intro t ht hkind
  obtain ⟨before, mark, name, blanks, words, after, rfl, -, -, hencloses⟩ := hholds
  obtain ⟨lead, closing, rfl, hclosing, -⟩ := hencloses.inner_mem
  obtain ⟨front, back, rfl⟩ := List.append_of_mem ht
  have hsplit : before ++ mark :: (blanks ++ (lead ++ (front ++ t :: back ++ [closing]) ++ after)) =
      (before ++ mark :: (blanks ++ (lead ++ front))) ++ t :: (back ++ closing :: after) := by simp
  have hbehind := h.behind hsplit hkind closing (by simp)
  rcases hclosing with hclosing | hclosing
  · simp [hclosing] at hbehind
  · simp [hclosing] at hbehind

end Grammar

open Grammar (ClosedAlone ClosedBehind Holds Unclosed)

theorem Screening.Written.text_of_outro {t : Token} {own : Text} (h : Written t own)
    (hkind : t.kind = .outro) : t.text = "*/".toList := by
  cases h with
  | outro => rfl
  | sign kind c _ sign =>
    obtain rfl : kind = .outro := hkind
    cases sign
  | _ => cases hkind

theorem Screening.plainOutro_readable (s : Text) : Grammar.PlainOutro (readable (items s)) := by
  intro t ht hkind
  rcases forall_itemsFrom step_written (Token.partition_tokenize s) t (mem_readable.mp ht) with
    ⟨hend, -⟩ | ⟨own, hwritten⟩
  · rw [hend] at hkind
    cases hkind
  · exact hwritten.text_of_outro hkind

/-- An accepted comment ends with a closing delimiter and blanks. There is no other closing
delimiter in it exactly if none stands in an email address or in what a version-control system
writes. -/
theorem parse_closedAlone_iff {text : Text} {tokens : List Token} {document : Document}
    (hne : Text.strip text ≠ []) (hscreen : screen (Text.strip text) = .ok tokens)
    (hparse : Document.parse text = .ok document) :
    (∃ front, ClosedBehind front tokens) ∧
      (ClosedAlone tokens ↔ ∀ inner, Holds tokens inner → Unclosed inner) := by
  obtain ⟨hnil, -⟩ | ⟨parts, hread⟩ := reads_of_parse hparse
  · exact absurd hnil hne
  have hplain := Screening.plainOutro_readable (Text.strip text)
  rw [Screening.readable_of_screen hscreen] at hread hplain
  obtain ⟨front, hguarded, hclosed⟩ := hread.guarded hplain
  refine ⟨⟨front, hclosed⟩, fun halone inner hholds => halone.unclosed hholds, fun hfree => ?_⟩
  refine ⟨front, fun t ht hkind => ?_, hclosed⟩
  obtain ⟨inner, hholds, hmem⟩ := hguarded t ht hkind
  obtain ⟨closing, blanks, last, rfl, -⟩ := hclosed
  exact hfree inner (hholds.append_right _) t hmem hkind

/-- What a version-control system writes, with no closing delimiter in it. -/
theorem parse_closedAlone_iff_identified :
    let text := "/** @since CVS: $Id$ */".toList
    ∃ tokens document, Text.strip text ≠ [] ∧ screen (Text.strip text) = .ok tokens ∧
      Document.parse text = .ok document ∧ (∃ front, ClosedBehind front tokens) ∧
      (ClosedAlone tokens ↔ ∀ inner, Holds tokens inner → Unclosed inner) := by
  intro text
  have hne : Text.strip text ≠ [] := by decide +kernel
  have hscreened : (screen (Text.strip text)).isOk = true := by decide +kernel
  have hparsed : (Document.parse text).isOk = true := by decide +kernel
  obtain ⟨tokens, htokens⟩ := exists_of_isOk hscreened
  obtain ⟨document, hdocument⟩ := exists_of_isOk hparsed
  exact ⟨tokens, document, hne, htokens, hdocument, parse_closedAlone_iff hne htokens hdocument⟩

/-- An email address takes the delimiter that ends the comment, and a second one ends it. -/
theorem parse_closed_twice :
    let text := "/** @author A <a*/b@c.de> */".toList
    ∃ tokens document, Text.strip text ≠ [] ∧ screen (Text.strip text) = .ok tokens ∧
      Document.parse text = .ok document ∧ tokens.countP (·.kind = .outro) = 2 ∧
      ¬ClosedAlone tokens := by
  intro text
  have hne : Text.strip text ≠ [] := by decide +kernel
  have hscreened : (screen (Text.strip text)).isOk = true := by decide +kernel
  have hparsed : (Document.parse text).isOk = true := by decide +kernel
  have htwice : (screen (Text.strip text)).toOption.map (·.countP (·.kind = .outro)) = some 2 := by
    decide +kernel
  obtain ⟨tokens, htokens⟩ := exists_of_isOk hscreened
  obtain ⟨document, hdocument⟩ := exists_of_isOk hparsed
  rw [htokens] at htwice
  have hcount : tokens.countP (·.kind = .outro) = 2 := Option.some.inj htwice
  refine ⟨tokens, document, hne, htokens, hdocument, hcount, fun halone => ?_⟩
  exact absurd (hcount.symm.trans halone.countP) (by decide)

end DocComment
