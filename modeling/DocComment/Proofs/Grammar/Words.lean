import DocComment.Proofs.Grammar.TypeText
import DocComment.Proofs.Text.Strip

/-!
# Words

Names, variables, versions and types are words: blanks cut them off, and screening takes them as
they are. So the rule that reads a word needs to know no more of what follows than that the word
ends.
-/

namespace DocComment.Grammar

open Screening (Apart Spells spelledKind)
open Token (concat kindOf)

variable {c : Char} {w t e : Text} {u : Token} {tokens rest : List Token} {r : Reading Text}

/-- The kinds of the characters that have no place in a word. -/
def wordless : List Kind := [.whitespace, .newline, .atSign, .star, .slash]

/-- A text that blanks cut off and that screening takes as it is. -/
structure IsWord (w : Text) : Prop where
  nonempty : w ≠ []
  kinds : ∀ c ∈ w, kindOf c ∉ wordless

/-- The first token ends a word. -/
def EndsWord (rest : List Token) : Prop := ∃ u more, rest = u :: more ∧ inWord u.kind = false

/-- The rule reads a word back wherever it ends. -/
def ReadsWord (r : Reading Text) (w : Text) : Prop :=
  ∀ tokens rest, Spells tokens w → EndsWord rest → Reads r (tokens ++ rest) w rest

/-! ## Which texts are words -/

theorem isWord_of_isQualified (h : Form.isQualified w = true) : IsWord w := by
  obtain ⟨hne, hchars⟩ := Form.chars_of_isQualified h
  refine ⟨hne, fun c hc => ?_⟩
  rcases hchars c hc with hkind | hkind <;> rw [hkind] <;> decide

theorem isWord_of_isVariable (h : Form.isVariable w = true) : IsWord w := by
  obtain ⟨name, rfl, -, hchars⟩ := Form.chars_of_isVariable h
  refine ⟨by simp, ?_⟩
  rw [List.forall_mem_cons]
  refine ⟨Token.kindOf_not_mem_of_sign (k := .dollar) rfl (by decide), fun c hc => ?_⟩
  rw [hchars c hc]
  decide

theorem isWord_of_isNumberedVersion (h : Form.isNumberedVersion w = true) : IsWord w := by
  refine ⟨(Form.chars_of_isNumberedVersion h).1, fun c hc => ?_⟩
  have hkind := Form.kindOf_of_isVersionChar ((Form.chars_of_isNumberedVersion h).2 c hc)
  simp only [List.mem_cons, List.not_mem_nil, or_false] at hkind
  rcases hkind with hkind | hkind | hkind <;> rw [hkind] <;> decide

theorem kinds_bracketPairs (pairs : Nat) : ∀ c ∈ bracketPairs pairs, kindOf c ∉ wordless := by
  induction pairs with
  | zero => simp [bracketPairs]
  | succ pairs ih =>
    rw [bracketPairs, List.forall_mem_cons, List.forall_mem_cons]
    exact ⟨Token.kindOf_not_mem_of_sign (k := .leftBracket) rfl (by decide),
      Token.kindOf_not_mem_of_sign (k := .rightBracket) rfl (by decide), ih⟩

theorem isWord_of_isType {part : TypePart} (h : IsType part w) : IsWord w := by
  induction h with
  | name t qualified => exact isWord_of_isQualified qualified
  | self =>
    have hall : "$this".toList.all (kindOf · ∉ wordless) = true := by decide +kernel
    exact ⟨by decide, fun c hc => of_decide_eq_true (List.all_eq_true.mp hall c hc)⟩
  | nested inner ih =>
    refine ⟨by simp, ?_⟩
    rw [List.forall_mem_cons, List.forall_mem_append, List.forall_mem_singleton]
    exact ⟨Token.kindOf_not_mem_of_sign (k := .leftParen) rfl (by decide), ih.kinds,
      Token.kindOf_not_mem_of_sign (k := .rightParen) rfl (by decide)⟩
  | last pairs operand ih =>
    refine ⟨List.append_ne_nil_of_left_ne_nil ih.nonempty _, ?_⟩
    rw [List.forall_mem_append]
    exact ⟨ih.kinds, kinds_bracketPairs pairs⟩
  | join pairs sign known operand more ihs iht =>
    refine ⟨List.append_ne_nil_of_left_ne_nil ihs.nonempty _, ?_⟩
    rw [List.forall_mem_append, List.forall_mem_append, List.forall_mem_cons]
    refine ⟨ihs.kinds, kinds_bracketPairs pairs, ?_, iht.kinds⟩
    rcases known with rfl | rfl
    · exact Token.kindOf_not_mem_of_sign (k := .pipe) rfl (by decide)
    · exact Token.kindOf_not_mem_of_sign (k := .ampersand) rfl (by decide)

theorem quiet_word (hw : ∀ c ∈ w, kindOf c ∉ wordless) (ht : Screening.Quiet t) :
    Screening.Quiet (w ++ t) := by
  have hall : ['\r', '@', '*', '/'].all (kindOf · ∈ wordless) = true := by decide +kernel
  exact Screening.quiet_append
    (fun c hc hmem => hw c hc (of_decide_eq_true (List.all_eq_true.mp hall c hmem))) ht

/-! ## The rules that read words -/

theorem eq_of_inWord {kind : Kind} (h : inWord kind = false) :
    kind = .whitespace ∨ kind = .outro := by
  rw [inWord, decide_eq_false_iff_not, Decidable.not_not] at h
  simpa using h

theorem readsWord_className (h : Form.isQualified w = true) : ReadsWord className w := by
  rintro tokens - hs ⟨u, rest, rfl, hu⟩
  have hform : Form.isQualified (concat tokens) = true := by rwa [hs.concat_eq]
  have hstop : ∀ v ∈ (u :: rest).head?, v.kind ∉ [.string, .backslash] := by
    rw [List.head?_cons]
    rintro v ⟨⟩
    rcases eq_of_inWord hu with hkind | hkind <;> rw [hkind] <;> decide
  have hread := reads_className (kinds_of_isQualified h hs) hform hstop
  rwa [hs.concat_eq] at hread

theorem readsWord_typeName (h : IsType .whole w) : ReadsWord (typeName false) w := by
  rintro tokens - hs ⟨u, rest, rfl, hu⟩
  exact reads_typeName h hs (by simp [endsType, hu])

/-- A variable is read back in front of anything but a string. -/
theorem reads_variableName (h : Form.isVariable w = true) (hs : Spells tokens w)
    (hrest : ∀ u ∈ rest.head?, u.kind ≠ .string) : Reads variableName (tokens ++ rest) w rest := by
  obtain ⟨name, rfl, hne, hchars⟩ := Form.chars_of_isVariable h
  obtain ⟨offset, tail, rfl, hname⟩ := hs.of_punctuation (k := .dollar) rfl (by simp)
  obtain ⟨place, rfl⟩ := hname.of_string hne hchars
  have htaken : ∀ v ∈ [(⟨.string, name, place⟩ : Token)], decide (v.kind = .string) = true := by
    rw [List.forall_mem_singleton]
    rfl
  have hcollect : Reads (collect fun kind => decide (kind = .string))
      ([⟨.string, name, place⟩] ++ rest) (concat [⟨.string, name, place⟩], place) rest :=
    reads_collect (t := ⟨.string, name, place⟩) htaken
      (fun u hu => decide_eq_false (hrest u hu)) rfl
  have hconcat : concat [⟨.string, name, place⟩] = name := List.append_nil name
  rw [hconcat] at hcollect
  refine (reads_expect rfl).bind (hcollect.bind ?_)
  show Reads (if Form.isVariable ('$' :: name) = true then _ else _) _ _ _
  rw [if_pos h]
  exact .pure _

theorem readsWord_variableName (h : Form.isVariable w = true) : ReadsWord variableName w := by
  rintro tokens - hs ⟨u, rest, rfl, hu⟩
  apply reads_variableName h hs
  rw [List.head?_cons]
  rintro v ⟨⟩
  rcases eq_of_inWord hu with hkind | hkind <;> rw [hkind] <;> decide

theorem kindOf_ne_outro (c : Char) : kindOf c ≠ .outro := by
  intro heq
  rcases Token.kindOf_cases c with hmem | hsign
  · simp [heq] at hmem
  · rw [heq] at hsign
    cases hsign

theorem inWord_spelledKind (hc : kindOf c ∉ wordless) : inWord (spelledKind (kindOf c)) = true := by
  have houtro := kindOf_ne_outro c
  generalize kindOf c = kind at hc houtro
  cases kind with
  | whitespace | newline => simp [wordless] at hc
  | outro => exact absurd rfl houtro
  | _ => rfl

/-- What asks a word for its form reads it back. -/
theorem readsWord_collectForm {form : Form} (hw : IsWord w) (hform : form.accepts w = true) :
    ReadsWord (collectForm form inWord) w := by
  rintro tokens - hs ⟨u, rest, rfl, hu⟩
  have hkinds : ∀ v ∈ tokens, inWord v.kind = true := by
    intro v hv
    obtain ⟨c, hc, hkind⟩ := hs.kind_mem v hv
    rw [hkind]
    exact inWord_spelledKind (hw.kinds c hc)
  have hstop : ∀ v ∈ (u :: rest).head?, inWord v.kind = false := by simpa using hu
  rw [← hs.concat_eq] at hform
  have hread : Reads (collectForm form inWord) (tokens ++ u :: rest) (concat tokens) (u :: rest) :=
    reads_collectForm hform hkinds hstop (by simp)
  rwa [hs.concat_eq] at hread

theorem readsWord_version (h : Form.isNumberedVersion w = true) : ReadsWord version w := by
  intro tokens rest hs hends
  have hform : Form.accepts .version w = true := by simp [Form.accepts, Form.isVersion, h]
  have hhead := readsWord_collectForm (isWord_of_isNumberedVersion h) hform tokens rest hs hends
  have hcolon : w.getLast? ≠ some ':' := by
    intro hlast
    have hmem := (Form.chars_of_isNumberedVersion h).2 ':' (List.mem_of_getLast? hlast)
    exact absurd hmem (by decide)
  apply hhead.bind
  rw [if_neg hcolon]
  exact .pure _

/-! ## Blanks between words -/

/-- A text that begins with no blank, and is not empty. -/
def Solid (t : Text) : Prop :=
  ∃ c rest, t = c :: rest ∧ kindOf c ≠ .whitespace ∧ kindOf c ≠ .newline

theorem IsWord.solid (h : IsWord w) (t : Text) : Solid (w ++ t) := by
  obtain ⟨c, rest, rfl⟩ := List.exists_cons_of_ne_nil h.nonempty
  have hkind := h.kinds c (by simp)
  simp only [wordless, List.mem_cons, not_or] at hkind
  exact ⟨c, rest ++ t, rfl, hkind.1, hkind.2.1⟩

theorem solid_of_strip (h : Text.strip e = e) (hne : e ≠ []) : Solid e := by
  obtain ⟨c, rest, rfl⟩ := List.exists_cons_of_ne_nil hne
  have hblank := Text.not_isBlank_of_strip_cons h
  have hkind : ¬ (kindOf c = .whitespace ∨ kindOf c = .newline) := by
    intro hkind
    rw [Token.isBlank_of_kindOf hkind] at hblank
    cases hblank
  rw [not_or] at hkind
  exact ⟨c, rest, rfl, hkind⟩

theorem kindOf_last_of_strip (h : Text.strip e = e) : ∀ c ∈ e.getLast?, kindOf c ≠ .whitespace := by
  intro c hc hkind
  have hblank := Text.not_isBlank_last_of_strip h c hc
  rw [Token.isBlank_of_kindOf (.inl hkind)] at hblank
  cases hblank

theorem kind_head_of_solid (hs : Spells tokens t) (ht : Solid t) :
    ∀ u ∈ tokens.head?, u.kind ≠ .whitespace := by
  obtain ⟨d, rest, rfl, hblank, hfeed⟩ := ht
  intro u hu
  obtain ⟨d', hd', hkind⟩ := hs.kind_head u hu
  obtain rfl : d = d' := Option.mem_some_iff.mp hd'
  rw [hkind]
  intro hspelled
  cases hkindOf : kindOf d <;> simp_all [spelledKind]

/-- No blanks are skipped in front of a text that begins with none. -/
theorem reads_noBlanks_of_solid (hs : Spells tokens t) (ht : Solid t) (rest : List Token) :
    Reads skipBlanks (tokens ++ rest) () (tokens ++ rest) := by
  have hhead := kind_head_of_solid hs ht
  obtain ⟨c, t, rfl, -⟩ := ht
  obtain ⟨u, tokens, rfl⟩ := List.exists_cons_of_ne_nil (hs.ne_nil (by simp))
  exact reads_noBlanks hhead

/-- The blank in front of a text is skipped. -/
theorem reads_gap (h : Spells tokens (c :: t)) (hc : kindOf c = .whitespace ∨ kindOf c = .newline)
    (ht : Solid t) :
    ∃ more, Spells more t ∧ (∀ u ∈ more.head?, u.kind ≠ .whitespace) ∧
      ∀ rest, Reads skipBlanks (tokens ++ rest) () (more ++ rest) := by
  have hapart : Apart [c] t := by
    obtain ⟨d, t, rfl, hd, hfeed⟩ := ht
    intro c' hc' d' hd' hrun
    obtain rfl : c = c' := by simpa using hc'
    obtain rfl : d = d' := by simpa using hd'
    rintro heq
    rcases hc with hc | hc
    · exact hd (heq.symm.trans hc)
    · exact hfeed (heq.symm.trans hc)
  obtain ⟨gap, more, rfl, hgap, hmore⟩ := Spells.split (s := [c]) h hapart
  have hblank : ∀ u ∈ gap, u.kind = .whitespace := by
    intro u hu
    obtain ⟨c', hc', hkind⟩ := hgap.kind_mem u hu
    obtain rfl : c' = c := by simpa using hc'
    rcases hc with hc | hc <;> rw [hkind, hc] <;> rfl
  have hsolid := kind_head_of_solid hmore ht
  have hne : more ≠ [] := hmore.ne_nil (by obtain ⟨d, t, rfl, -⟩ := ht; simp)
  obtain ⟨v, more, rfl⟩ := List.exists_cons_of_ne_nil hne
  refine ⟨v :: more, hmore, hsolid, fun rest => ?_⟩
  rw [List.append_assoc]
  exact reads_skipBlanks hblank hsolid

/-- A word in front of a blank, or at the end of its text, is read by its rule. -/
theorem reads_field (hw : IsWord w) (hr : ReadsWord r w) (h : Spells tokens (w ++ t))
    (ht : ∀ d ∈ t.head?, kindOf d = .whitespace) :
    ∃ more, Spells more t ∧ ∀ rest, EndsWord rest →
      EndsWord (more ++ rest) ∧ Reads r (tokens ++ rest) w (more ++ rest) := by
  have hapart : Apart w t := by
    intro c hc d hd _ heq
    have hkind := hw.kinds c (List.mem_of_getLast? hc)
    rw [heq, ht d hd] at hkind
    simp [wordless] at hkind
  obtain ⟨word, more, rfl, hword, hmore⟩ := h.split hapart
  refine ⟨more, hmore, fun rest hrest => ?_⟩
  have hends : EndsWord (more ++ rest) := by
    cases more with
    | nil => exact hrest
    | cons v more =>
      obtain ⟨d, hd, hkind⟩ := hmore.kind_head v rfl
      refine ⟨v, more ++ rest, rfl, ?_⟩
      rw [hkind, ht d hd]
      rfl
  rw [List.append_assoc]
  exact ⟨hends, hr word (more ++ rest) hword hends⟩

/-- A type in front of a blank, and the blank behind it. -/
theorem reads_typeBefore (hw : IsType .whole w) (h : Spells tokens (w ++ c :: t))
    (hc : kindOf c = .whitespace) (ht : Solid t) :
    ∃ more, Spells more t ∧ ∀ rest, EndsWord rest → ∃ between,
      Reads (typeName false) (tokens ++ rest) w between ∧
      Reads skipBlanks between () (more ++ rest) := by
  obtain ⟨behind, hbehind, hread⟩ :=
    reads_field (isWord_of_isType hw) (readsWord_typeName hw) h (by simpa using hc)
  obtain ⟨more, hmore, -, hgap⟩ := reads_gap hbehind (.inl hc) ht
  exact ⟨more, hmore, fun rest hrest => ⟨behind ++ rest, (hread rest hrest).2, hgap rest⟩⟩

end DocComment.Grammar
