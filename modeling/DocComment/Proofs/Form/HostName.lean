import DocComment.Form.Address
import DocComment.Proofs.Text.Pieces

/-!
# The grammar of host names

A host name is its labels, joined by points. What is tested of it cuts the text at its points; here
the text is written down from the labels, which says the same because no label has a point in it.
-/

namespace DocComment.Form

/-- A label is ASCII letters, digits and hyphens, with no hyphen at an end. -/
structure Label (t : Text) : Prop where
  nonempty : t ≠ []
  chars : ∀ c ∈ t, c.isAlphanum = true ∨ c = '-'
  head : t.head? ≠ some '-'
  last : t.getLast? ≠ some '-'

/-- The labels with points between them, and maybe one more point at the end. -/
structure JoinsLabels (labels : List Text) (t : Text) : Prop where
  label : ∀ l ∈ labels, Label l
  text : t = ['.'].intercalate labels ∨ t = ['.'].intercalate labels ++ ['.']

variable {t : Text} {labels : List Text}

theorem any_isAlphanum_iff {o : Option Char} (h : ∀ c ∈ o, c.isAlphanum = true ∨ c = '-') :
    o.any Char.isAlphanum = true ↔ o ≠ none ∧ o ≠ some '-' := by
  cases o with
  | none => simp
  | some c =>
    rcases h c rfl with hc | rfl
    · have hne : c ≠ '-' := by
        rintro rfl
        exact absurd hc (by decide)
      simp [hc, hne]
    · simp

theorem isLabel_iff : isLabel t = true ↔ Label t := by
  have hchars : (t.all fun c => c.isAlphanum || c = '-') = true ↔
    ∀ c ∈ t, c.isAlphanum = true ∨ c = '-' := by simp
  rw [isLabel, Bool.and_eq_true, Bool.and_eq_true, hchars]
  constructor
  · rintro ⟨⟨h, hhead⟩, hlast⟩
    rw [any_isAlphanum_iff fun c hc => h c (List.mem_of_mem_head? hc)] at hhead
    rw [any_isAlphanum_iff fun c hc => h c (List.mem_of_getLast? hc)] at hlast
    exact ⟨by simpa using hhead.1, h, hhead.2, hlast.2⟩
  · rintro ⟨hne, h, hhead, hlast⟩
    rw [any_isAlphanum_iff fun c hc => h c (List.mem_of_mem_head? hc),
      any_isAlphanum_iff fun c hc => h c (List.mem_of_getLast? hc)]
    exact ⟨⟨h, by simpa using hne, hhead⟩, by simpa using hne, hlast⟩

theorem Label.no_point (h : Label t) : '.' ∉ t := fun hmem => by
  have hchar := h.chars _ hmem
  revert hchar
  decide

theorem JoinsLabels.chars (h : JoinsLabels labels t) :
    ∀ c ∈ t, c.isAlphanum = true ∨ c = '-' ∨ c = '.' := by
  have hjoined : ∀ c ∈ ['.'].intercalate labels, c.isAlphanum = true ∨ c = '-' ∨ c = '.' := by
    intro c hc
    rcases Text.mem_intercalate hc with rfl | ⟨l, hl, hc⟩
    · exact .inr (.inr rfl)
    · exact ((h.label l hl).chars c hc).imp_right .inl
  rcases h.text with rfl | rfl
  · exact hjoined
  · rw [List.forall_mem_append, List.forall_mem_singleton]
    exact ⟨hjoined, .inr (.inr rfl)⟩

/-- Labels are known from the text that they are joined to: they do not end in a
point themselves. -/
theorem JoinsLabels.hostLabels_eq (h : JoinsLabels labels t) (hne : labels ≠ []) :
    hostLabels t = labels := by
  have hsplit : ∀ {s : Text}, s = ['.'].intercalate labels →
    Text.splitAt '.' s = labels := fun hs =>
    (Text.splitAt_eq_iff hne fun l hl => (h.label l hl).no_point).mpr hs
  rcases h.text with ht | ht
  · have hlast : t.getLast? ≠ some '.' := by
      intro hpoint
      obtain ⟨init, hinit⟩ := List.getLast?_eq_some_iff.mp hpoint
      have hempty : [] ∈ labels := by
        rw [← hsplit ht, hinit, Text.splitAt_eq_splitOn, List.splitOn_append_cons_self]
        simp
      exact (h.label [] hempty).nonempty rfl
    rw [hostLabels, if_neg hlast, hsplit ht]
  · rw [hostLabels, ht, if_pos (by simp), List.dropLast_concat, hsplit rfl]

theorem joinsLabels_hostLabels (h : ∀ l ∈ hostLabels t, Label l) :
    JoinsLabels (hostLabels t) t := by
  refine ⟨h, ?_⟩
  have hjoin : ∀ {s : Text}, hostLabels t = Text.splitAt '.' s →
      s = ['.'].intercalate (hostLabels t) := by
    intro s hs
    rw [hs, Text.splitAt_eq_splitOn, List.intercalate_splitOn]
  by_cases hpoint : t.getLast? = some '.'
  · right
    obtain ⟨init, rfl⟩ := List.getLast?_eq_some_iff.mp hpoint
    rw [← hjoin]
    rw [hostLabels, if_pos hpoint, List.dropLast_concat]
  · left
    exact hjoin (by rw [hostLabels, if_neg hpoint])

theorem hostLabels_ne_nil (t : Text) : hostLabels t ≠ [] := by
  rw [hostLabels]
  exact Text.splitAt_ne_nil _ _

theorem isHostName_iff_label : isHostName t = true ↔ ∀ l ∈ hostLabels t, Label l := by
  rw [isHostName, List.all_eq_true]
  exact forall₂_congr fun l _ => isLabel_iff

/-- A host name is one or more labels. -/
theorem isHostName_iff : isHostName t = true ↔ ∃ labels, labels ≠ [] ∧ JoinsLabels labels t := by
  rw [isHostName_iff_label]
  constructor
  · intro h
    exact ⟨hostLabels t, hostLabels_ne_nil t, joinsLabels_hostLabels h⟩
  · rintro ⟨labels, hne, hjoins⟩
    rw [hjoins.hostLabels_eq hne]
    exact hjoins.label

end DocComment.Form
