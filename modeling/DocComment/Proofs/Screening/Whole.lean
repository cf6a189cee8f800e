import DocComment.Proofs.Screening.Readable
import DocComment.Proofs.Text.Strip
import DocComment.Proofs.Token.First

/-!
# Blank tokens and solid ones

A screened token is blank, or has no blank in it. So the blanks at the ends of a text that is put
together from tokens are tokens themselves, and stripping the text drops tokens.
-/

namespace DocComment

open Text (isBlank strip)

/-- The token is blank, or has no blank in it. -/
def Token.Whole (t : Token) : Prop :=
  (∀ c ∈ t.text, isBlank c = true) ∨ ∀ c ∈ t.text, isBlank c = false

namespace Screening

open Token (IsRaw Partition concat)

variable {offset : Nat} {s : Text} {first t : Token} {rest tokens run : List Token}

/-! ## One step -/

theorem not_isBlank_of_isRaw (h : IsRaw t) (hkind : t.kind ∉ [.whitespace, .newline]) :
    ∀ c ∈ t.text, isBlank c = false := by
  cases h with
  | letters text _ _ letters =>
    intro c hc
    rw [← Bool.not_eq_true]
    intro hblank
    exact Bool.false_ne_true ((Text.isLetter_of_isBlank hblank).symm.trans (letters c hc))
  | lineBreak | blank => simp at hkind
  | other c _ _ blank => simpa using blank

theorem whole_of_all (h : t.text.all (!isBlank ·) = true) : t.Whole := .inr (by simpa using h)

/-- The token of a step is blank, or has no blank in it. -/
theorem Given.whole (h : Given first t) : t.Whole := by
  have hknown : ∀ text ∈ tagTexts, text.all (!isBlank ·) = true := by decide
  cases h with
  | @merged run kind raw same =>
    rcases kind with hk | hk
    · exact .inl fun c hc => (isBlank_of_mem_run raw (fun u hu => (same u hu).trans hk) c hc).1
    · right
      intro c hc
      obtain ⟨u, hu, hc⟩ := List.mem_flatMap.mp hc
      exact not_isBlank_of_isRaw (raw u hu) (by simp [same u hu, hk]) c hc
  | feed =>
    left
    intro c hc
    obtain rfl := List.mem_singleton.mp hc
    decide
  | intro =>
    apply whole_of_all
    show List.all "/**".toList _ = true
    decide
  | outro =>
    apply whole_of_all
    show List.all "*/".toList _ = true
    decide
  | tag _ known | nearTag known => exact whole_of_all (hknown _ known)
  | @signs n c sign =>
    have hsigns : ['@', '/', '*'].all (!isBlank ·) = true := by decide
    refine whole_of_all (List.all_eq_true.mpr fun d hd => ?_)
    rw [List.eq_of_mem_replicate hd]
    exact List.all_eq_true.mp hsigns c sign
  | itself raw kind => exact .inr (not_isBlank_of_isRaw raw kind)
  | last => exact .inl nofun

/-- Every token that a reader gets is blank, or has no blank in it. -/
theorem whole_of_mem (h : t ∈ readable (items s)) : t.Whole :=
  forall_itemsFrom (fun h ht => (step_given h ht).whole) (Token.partition_tokenize s) t
    (mem_readable.mp h)

/-! ## Stripping -/

/-- A whole token that is not blank begins and ends with no blank. -/
theorem solid_of_whole (h : t.Whole) (hsolid : t.text.all isBlank = false) :
    t.text ≠ [] ∧ ∀ c ∈ t.text, isBlank c = false := by
  refine ⟨by rintro hnil; simp [hnil] at hsolid, ?_⟩
  rcases h with hblank | hblank
  · rw [List.all_eq_true.mpr hblank] at hsolid
    cases hsolid
  · exact hblank

theorem isBlank_concat (h : ∀ t ∈ run, t.text.all isBlank = true) :
    ∀ c ∈ concat run, isBlank c = true := by
  intro c hc
  obtain ⟨t, ht, hc⟩ := List.mem_flatMap.mp hc
  exact List.all_eq_true.mp (h t ht) c hc

/-- Tokens that neither begin nor end with a blank one are stripped. -/
theorem strip_concat_solid (h : ∀ t ∈ run, t.Whole)
    (hhead : ∀ t ∈ run.head?, t.text.all isBlank = false)
    (hlast : ∀ t ∈ run.getLast?, t.text.all isBlank = false) : strip (concat run) = concat run := by
  apply Text.strip_of_head_last
  · cases run with
    | nil => exact nofun
    | cons t run =>
      obtain ⟨hne, hsolid⟩ := solid_of_whole (h t (by simp)) (hhead t rfl)
      obtain ⟨c, text, htext⟩ := List.exists_cons_of_ne_nil hne
      intro d hd
      rw [Token.concat_cons, htext] at hd
      obtain rfl : c = d := Option.some.inj hd
      exact hsolid c (by simp [htext])
  · rcases List.eq_nil_or_concat run with rfl | ⟨init, t, heq⟩
    · exact nofun
    · rw [List.concat_eq_append] at heq
      subst heq
      obtain ⟨hne, hsolid⟩ := solid_of_whole (h t (by simp)) (hlast t (by simp))
      intro d hd
      rw [Token.concat_append, Token.concat_cons, Token.concat_nil, List.append_nil,
        List.getLast?_append, List.getLast?_eq_some_getLast hne] at hd
      obtain rfl := Option.some.inj hd
      exact hsolid _ (List.getLast_mem hne)

/-- Stripping the text of tokens drops blank tokens at its ends. -/
theorem strip_concat (h : ∀ t ∈ run, t.Whole) :
    ∃ middle, middle <:+: run ∧ strip (concat run) = concat middle := by
  obtain ⟨front, left, rfl, -, hfront, hleft⟩ := split_run (·.text.all isBlank) run
  obtain ⟨back, middle, hreverse, -, hback, hmiddle⟩ := split_run (·.text.all isBlank) left.reverse
  obtain rfl : left = middle.reverse ++ back.reverse := by
    rw [← List.reverse_append, ← hreverse, List.reverse_reverse]
  refine ⟨middle.reverse, ⟨front, back.reverse, by simp⟩, ?_⟩
  have hback : ∀ t ∈ back.reverse, t.text.all isBlank = true :=
    fun t ht => hback t (List.mem_reverse.mp ht)
  rw [Token.concat_append, Token.concat_append, Text.strip_blanks_append (isBlank_concat hfront),
    Text.strip_append_blanks (isBlank_concat hback)]
  refine strip_concat_solid (fun t ht => h t (by simp at ht ⊢; simp [ht])) (fun t ht => hleft t ?_)
    fun t ht => ?_
  · rw [List.head?_append, Option.mem_def.mp ht]
    rfl
  · rw [List.getLast?_reverse] at ht
    exact hmiddle t ht

end Screening

end DocComment
