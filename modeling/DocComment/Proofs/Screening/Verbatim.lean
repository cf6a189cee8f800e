import DocComment.Proofs.Screening.Readable
import DocComment.Proofs.Text.Squeeze

/-!
# What tokens keep of their text

Most tokens are written as they stand in the source, and no blank is lost in front of them. The
others are the names of tags, whose letters may be in any case, and the delimiters and the line feed
that stands for the beginning of a line, which lose stars and blanks: `altered` lists their texts.
So tokens side by side are a slice of the source, up to the case of letters, stars and blanks, and
up to nothing where none of these texts occurs in them.
-/

namespace DocComment

namespace Screening

open Text (isBlank squeeze)
open Token (Partition IsRaw concat)

/-- The texts in place of which stars or blanks may stand in the source. -/
def marks : List Text := ["/**".toList, "*/".toList, ['\n']]

/-- The texts in place of which the source may have others. -/
def altered : List Text := tagTexts ++ marks

/-- None of the words occurs in the text. -/
def Lacks (words : List Text) (t : Text) : Prop := ∀ w ∈ words, ¬w <:+: t

variable {offset : Nat} {s : Text} {first t : Token}
  {rest raws tokens run before after : List Token}

theorem Lacks.of_append {words : List Text} {t u : Text} (h : Lacks words (t ++ u)) :
    t ∉ words ∧ Lacks words u :=
  ⟨fun hmem => h t hmem (List.prefix_append t u).isInfix,
    fun w hw hin => h w hw (hin.trans (List.suffix_append t u).isInfix)⟩

/-! ## One step -/

theorem kind_ne_tag_of_isRaw (h : IsRaw t) (name : TagName) : t.kind ≠ .tag name := by
  intro heq
  rcases h.kind_cases with hmem | ⟨c, -, hc⟩
  · simp [heq] at hmem
  · rw [heq] at hc
    cases hc

/-- A token stands where its step begins, or it is a mark. -/
theorem Given.placed (h : Given first t) :
    (t.offset = first.offset ∧ ∀ name, t.kind = .tag name → t.text ∈ tagTexts) ∨
      t.kind = .endOfText ∨ ((∀ name, t.kind ≠ .tag name) ∧ t.text ∈ marks) := by
  cases h with
  | merged kind =>
    refine .inl ⟨rfl, fun name hname => ?_⟩
    rcases kind with hk | hk
    · cases hk.symm.trans hname
    · cases hk.symm.trans hname
  | feed => exact .inr (.inr ⟨by simp [lineFeed], by simp [marks, lineFeed]⟩)
  | intro => exact .inr (.inr ⟨by simp [introAt], by simp [marks, introAt]⟩)
  | outro => exact .inr (.inr ⟨by simp [outroAt], by simp [marks, outroAt]⟩)
  | tag _ known | nearTag known => exact .inl ⟨rfl, fun _ _ => known⟩
  | signs => exact .inl ⟨rfl, fun name hname => by cases hname⟩
  | itself raw => exact .inl ⟨rfl, fun name hname => absurd hname (kind_ne_tag_of_isRaw raw name)⟩
  | last => exact .inr (.inl rfl)

/-- A step gives blanks where it begins with a blank or a line break. -/
theorem step_whitespace (h : Partition offset s (first :: rest))
    (ht : (step first rest).item = .token t) (hkind : t.kind = .whitespace) :
    ∃ c ∈ s.head?, isBlank c = true := by
  have hfirst : first.kind = .whitespace ∨ first.kind = .newline := by
    cases step_given h ht with
    | merged | itself => exact .inl hkind
    | feed _ kind => exact .inr kind
    | _ => cases hkind
  obtain ⟨hraw, after, rfl, -⟩ := h.of_head (by rcases hfirst with hk | hk <;> simp [hk])
  have hblank : ∀ c ∈ first.text, isBlank c = true := by
    rcases hfirst with hk | hk
    · obtain ⟨c, htext, hc, -⟩ := hraw.text_of_blank hk
      simpa [htext] using hc
    · exact Token.isBlank_of_mem_lineBreaks (hraw.text_of_newline hk)
  obtain ⟨c, text, htext⟩ := List.exists_cons_of_ne_nil hraw.text_ne_nil
  rw [htext] at hblank ⊢
  exact ⟨c, rfl, hblank c (by simp)⟩

/-- What a token is made of is its text, or the text is an altered one. -/
theorem Written.verbatim {own : Text} (h : Written t own)
    (htag : ∀ name, t.kind = .tag name → t.text ∈ tagTexts) (htext : t.text ∉ altered) :
    own = t.text := by
  rw [altered, List.mem_append, not_or] at htext
  cases h with
  | sign | blanks | string => rfl
  | tag name => exact absurd (htag name rfl) htext.1
  | nearTag text own offset near =>
    have hall : ∀ w ∈ ["@used".toList, "@used-".toList], w ∈ tagTexts := by decide
    exact absurd (hall text near) htext.1
  | intro | outro | starredLine | bareLine =>
    exact absurd (by simp [marks, introAt, outroAt, lineFeed]) htext.2

/-- A token that loses neither stars nor blanks differs from what it is made of in the case of
letters only. -/
theorem Written.lower_eq {own : Text} (h : Written t own) (htext : t.text ∉ marks) :
    Text.lower own = Text.lower t.text := by
  cases h with
  | sign | blanks | string => rfl
  | tag name text own offset nonempty length lower => rw [← lower, Text.lower_lower]
  | nearTag text own offset near length lower => rw [← lower, Text.lower_lower]
  | intro | outro | starredLine | bareLine =>
    exact absurd (by simp [marks, introAt, outroAt, lineFeed]) htext

/-- A token and what it is made of differ in the case of letters, stars and blanks only. -/
theorem Written.squeeze_eq {own : Text} (h : Written t own) : squeeze own = squeeze t.text := by
  cases h with
  | sign | blanks | string => rfl
  | tag name text own offset nonempty length lower => rw [← lower, Text.squeeze_lower]
  | nearTag text own offset near length lower => rw [← lower, Text.squeeze_lower]
  | intro stars =>
    rw [Text.squeeze_append, Text.squeeze_stars, List.append_nil]
    rfl
  | outro stars =>
    rw [Text.squeeze_append, Text.squeeze_stars]
    rfl
  | starredLine blanks offset short blank =>
    rw [← List.singleton_append, Text.squeeze_append, Text.squeeze_of_blanks blank]
    rfl
  | bareLine newline blanks offset known blank =>
    rw [Text.squeeze_append, Text.squeeze_of_blanks blank,
      Text.squeeze_of_blanks (Token.isBlank_of_mem_lineBreaks known)]
    rfl

/-! ## All steps -/

/-- From an offset on a text is laid out in tokens: what each is made of, with blanks in front of it
that are lost. No blanks are lost but in front of a mark, and a token of blanks is where there are
some. -/
inductive Laid : (offset : Nat) → Text → List Token → Prop where
  | last {offset : Nat} {s : Text} (blank : ∀ c ∈ s, isBlank c = true) :
      Laid offset s [⟨.endOfText, [], offset + s.length⟩]
  | cons {offset : Nat} {lead own after : Text} {token : Token} {tokens : List Token}
      (blank : ∀ c ∈ lead, isBlank c = true) (place : token.offset = offset + lead.length)
      (nearby : token.text ∉ marks → lead = []) (written : Written token own)
      (tag : ∀ name, token.kind = .tag name → token.text ∈ tagTexts)
      (whitespace : token.kind = .whitespace → ∃ c ∈ (lead ++ own ++ after).head?, isBlank c = true)
      (tail : Laid (offset + lead.length + own.length) after tokens) :
      Laid offset (lead ++ own ++ after) (token :: tokens)

theorem laid_itemsFrom (h : Partition offset s raws)
    (hitems : itemsFrom 0 raws = tokens.map .token) :
    Laid offset s tokens := by
  induction raws using step_induction generalizing tokens offset s with
  | nil => exact absurd rfl h.ne_nil
  | cons first rest ih =>
    rw [itemsFrom_cons] at hitems
    cases tokens with
    | nil => simp at hitems
    | cons t tokens =>
      rw [List.map_cons, List.cons.injEq] at hitems
      obtain ⟨hitem, hrest⟩ := hitems
      have hplaced := (step_given h hitem).placed
      rcases step_writes h hitem with ⟨rfl, hblank, hleft⟩ | ⟨lead, own, after, rfl, hlead, hoffset,
        hwritten, hleft⟩
      · rw [hleft, itemsFrom] at hrest
        obtain rfl : tokens = [] := by simpa using hrest.symm
        exact .last hblank
      · have htag : ∀ name, t.kind = .tag name → t.text ∈ tagTexts := by
          intro name hname
          rcases hplaced with ⟨-, htag⟩ | hend | ⟨hnone, -⟩
          · exact htag name hname
          · rw [hname] at hend
            cases hend
          · exact absurd hname (hnone name)
        refine .cons hlead hoffset (fun hplain => ?_) hwritten htag (step_whitespace h hitem)
          (ih hleft hrest)
        rcases hplaced with ⟨hplace, -⟩ | hend | ⟨-, hmem⟩
        · rw [h.head_offset, hoffset] at hplace
          exact List.eq_nil_of_length_eq_zero (by omega)
        · exact absurd hend fun hend => hwritten.kind_not_mem (by simp [hend])
        · exact absurd hmem hplain

/-- The tokens of a text that can be screened lay it out. -/
theorem laid_of_screen (h : screen s = .ok tokens) : Laid 0 s tokens :=
  laid_itemsFrom (Token.partition_tokenize s) (screen_eq_ok_iff.mp h)

theorem Laid.ne_nil (h : Laid offset s tokens) : tokens ≠ [] := by
  cases h with
  | last | cons => exact List.cons_ne_nil _ _

/-- In front of a character that is no blank nothing is lost, and it begins no token of blanks. -/
theorem Laid.solid {c : Char} (h : Laid offset s (t :: after)) (hs : s.head? = some c)
    (hc : isBlank c = false) :
    t.offset = offset ∧ t.kind ≠ .whitespace ∧ ∃ own behind, s = own ++ behind ∧ Written t own := by
  cases h with
  | last blank => exact absurd (blank c (List.mem_of_mem_head? hs)) (by simp [hc])
  | @cons _ lead own behind _ _ blank place _ written _ whitespace _ =>
    have hlead : lead = [] := by
      cases lead with
      | nil => rfl
      | cons d lead =>
        obtain rfl : d = c := Option.some.inj hs
        exact absurd (blank d (by simp)) (by simp [hc])
    subst hlead
    refine ⟨place, fun hkind => ?_, own, behind, rfl, written⟩
    obtain ⟨d, hd, hblank⟩ := whitespace hkind
    obtain rfl : c = d := Option.some.inj (hs.symm.trans hd)
    simp [hc] at hblank

theorem Laid.behind (h : Laid offset s (before ++ t :: after)) :
    ∃ front back, s = front ++ back ∧ Laid (offset + front.length) back (t :: after) := by
  induction before generalizing offset s with
  | nil => exact ⟨[], s, rfl, h⟩
  | cons u before ih =>
    rw [List.cons_append] at h
    generalize htail : before ++ t :: after = tail at h
    cases h with
    | last => simp at htail
    | @cons _ lead own rest _ _ _ _ _ _ _ _ tail =>
      subst htail
      obtain ⟨front, back, rfl, hlaid⟩ := ih tail
      refine ⟨lead ++ own ++ front, back, by simp, ?_⟩
      rw [List.length_append, List.length_append, ← Nat.add_assoc, ← Nat.add_assoc]
      exact hlaid

/-- Tokens side by side in which nothing is altered are as they stand in the text, and so are those
behind them. -/
theorem Laid.passes (h : Laid offset s (run ++ t :: after)) (hlacks : Lacks altered (concat run)) :
    ∃ back, s = concat run ++ back ∧ Laid (offset + (concat run).length) back (t :: after) := by
  induction run generalizing offset s with
  | nil => exact ⟨s, rfl, h⟩
  | cons u run ih =>
    rw [List.cons_append] at h
    rw [Token.concat_cons] at hlacks ⊢
    generalize htail : run ++ t :: after = tail at h
    cases h with
    | last => simp at htail
    | @cons _ lead own rest _ _ blank place nearby written tag _ tail =>
      subst htail
      obtain ⟨hu, hrun⟩ := hlacks.of_append
      obtain rfl := nearby fun hmem => hu (List.mem_append_right _ hmem)
      obtain rfl := written.verbatim tag hu
      obtain ⟨back, rfl, hback⟩ := ih tail hrun
      refine ⟨back, by simp, ?_⟩
      rw [List.length_append, ← Nat.add_assoc]
      exact hback

/-- Tokens side by side are a slice of the text, up to the case of letters, stars and blanks: up to
the case of letters if they hold no mark, and up to nothing, and at their offset, if they hold
nothing that is altered. -/
theorem Laid.covers (h : Laid offset s (run ++ after)) :
    ∃ part back, s = part ++ back ∧ squeeze part = squeeze (concat run) ∧
      (Lacks marks (concat run) → Text.lower part = Text.lower (concat run)) ∧
      (Lacks altered (concat run) → part = concat run ∧ ∀ t ∈ run.head?, t.text ≠ [] →
        t.offset = offset) := by
  induction run generalizing offset s with
  | nil => exact ⟨[], s, rfl, rfl, fun _ => rfl, fun _ => ⟨rfl, nofun⟩⟩
  | cons u run ih =>
    rw [List.cons_append] at h
    generalize htail : run ++ after = tail at h
    cases h with
    | last =>
      obtain ⟨rfl, rfl⟩ := List.append_eq_nil_iff.mp htail
      refine ⟨[], s, rfl, rfl, fun _ => rfl, fun _ => ⟨rfl, fun t ht hne => ?_⟩⟩
      obtain rfl := Option.some.inj ht
      exact absurd rfl hne
    | @cons _ lead own rest _ _ blank place nearby written tag _ tail =>
      subst htail
      obtain ⟨part, back, rfl, hsqueeze, hcased, hverbatim⟩ := ih tail
      rw [Token.concat_cons]
      refine ⟨lead ++ own ++ part, back, by simp, ?_, fun hlacks => ?_, fun hlacks => ?_⟩
      · rw [Text.squeeze_append, Text.squeeze_append, Text.squeeze_append,
          Text.squeeze_of_blanks blank, written.squeeze_eq, hsqueeze, List.nil_append]
      · obtain ⟨hu, hrun⟩ := hlacks.of_append
        rw [nearby hu, List.nil_append, Text.lower_append, Text.lower_append, written.lower_eq hu,
          hcased hrun]
      · obtain ⟨hu, hrun⟩ := hlacks.of_append
        obtain rfl := nearby fun hmem => hu (List.mem_append_right _ hmem)
        obtain rfl := written.verbatim tag hu
        obtain ⟨rfl, -⟩ := hverbatim hrun
        refine ⟨rfl, fun t ht _ => ?_⟩
        obtain rfl := Option.some.inj ht
        exact place

/-- Tokens side by side in which nothing is altered are a slice of the source, at the offset of the
first. -/
theorem slice_of_tokens (hscreen : screen s = .ok (before ++ (t :: run ++ after)))
    (ht : t.text ≠ []) (hlacks : Lacks altered (concat (t :: run))) :
    slice s t.offset (t.offset + (concat (t :: run)).length) = concat (t :: run) := by
  obtain ⟨front, behind, rfl, hbehind⟩ := (laid_of_screen hscreen).behind
  have hlaid : Laid (0 + front.length) behind ((t :: run) ++ after) := hbehind
  obtain ⟨part, back, rfl, -, -, hcover⟩ := hlaid.covers
  obtain ⟨rfl, hoffset⟩ := hcover hlacks
  rw [slice, hoffset t rfl ht, Nat.zero_add, List.drop_left, Nat.add_sub_cancel_left,
    List.take_left]

end Screening

end DocComment
