import DocComment.Text.Blank

/-! # Stripped texts

What a text without blanks at its ends looks like, and which blanks do not matter to it. -/

namespace DocComment.Text

variable {c d : Char} {s t : Text}

theorem dropWhile_of_blanks (hs : ∀ c ∈ s, isBlank c = true) : s.dropWhile isBlank = [] := by
  have h : (s ++ []).dropWhile isBlank = [].dropWhile isBlank := List.dropWhile_append_of_pos hs
  rwa [List.append_nil, List.dropWhile_nil] at h

theorem strip_blanks_append (hs : ∀ c ∈ s, isBlank c = true) : strip (s ++ t) = strip t := by
  rw [strip, strip, List.dropWhile_append_of_pos hs]

theorem strip_append_blanks (hs : ∀ c ∈ s, isBlank c = true) : strip (t ++ s) = strip t := by
  rw [strip, strip, List.dropWhile_append]
  by_cases ht : (t.dropWhile isBlank).isEmpty = true
  · rw [if_pos ht, dropWhile_of_blanks hs, List.isEmpty_iff.mp ht]
  · have hreverse : ∀ c ∈ s.reverse, isBlank c = true := fun c hc => hs c (List.mem_reverse.mp hc)
    rw [if_neg ht, List.reverse_append, List.dropWhile_append_of_pos hreverse]

theorem not_isBlank_of_strip_cons (h : strip (c :: t) = c :: t) : isBlank c = false := by
  rw [← Bool.not_eq_true]
  intro hc
  have hlength := congrArg List.length h
  rw [strip, List.dropWhile_cons_of_pos hc, List.length_reverse, List.length_cons] at hlength
  have hback := (List.dropWhile_suffix (l := (t.dropWhile isBlank).reverse) isBlank).length_le
  have hfront := (List.dropWhile_suffix (l := t) isBlank).length_le
  rw [List.length_reverse] at hback
  omega

theorem strip_of_ends (hc : isBlank c = false) (hd : isBlank d = false) :
    strip (c :: (t ++ [d])) = c :: (t ++ [d]) := by
  have hfront : ¬ isBlank c = true := by simp [hc]
  have hback : ¬ isBlank d = true := by simp [hd]
  rw [strip, List.dropWhile_cons_of_neg hfront, List.reverse_cons, List.reverse_append,
    List.reverse_singleton, List.singleton_append, List.cons_append,
    List.dropWhile_cons_of_neg hback, List.reverse_cons, List.reverse_append,
    List.reverse_singleton, List.reverse_reverse, List.singleton_append, List.cons_append]

theorem dropWhile_of_head (h : ∀ c ∈ s.head?, isBlank c = false) : s.dropWhile isBlank = s := by
  cases s with
  | nil => rfl
  | cons c s =>
    have hc : ¬ isBlank c = true := by simp [h c rfl]
    rw [List.dropWhile_cons_of_neg hc]

theorem head_dropWhile (s : Text) : ∀ c ∈ (s.dropWhile isBlank).head?, isBlank c = false := by
  intro c hc
  have hhead := List.head?_dropWhile_not isBlank s
  rw [Option.mem_def.mp hc] at hhead
  exact hhead

/-- A text without blanks at its ends is stripped. -/
theorem strip_of_head_last (hhead : ∀ c ∈ s.head?, isBlank c = false)
    (hlast : ∀ c ∈ s.getLast?, isBlank c = false) : strip s = s := by
  rw [← List.head?_reverse] at hlast
  rw [strip, dropWhile_of_head hhead, dropWhile_of_head hlast, List.reverse_reverse]

/-- Stripping takes blanks off both ends, and leaves none there. -/
theorem exists_strip (t : Text) :
    ∃ front back, t = front ++ (strip t ++ back) ∧ (∀ c ∈ front, isBlank c = true) ∧
      (∀ c ∈ back, isBlank c = true) ∧ (∀ c ∈ (strip t).head?, isBlank c = false) ∧
      ∀ c ∈ (strip t).getLast?, isBlank c = false := by
  have hcut : ∀ s : Text, s.takeWhile isBlank ++ s.dropWhile isBlank = s :=
    fun s => List.takeWhile_append_dropWhile
  have hback : t.dropWhile isBlank =
      strip t ++ ((t.dropWhile isBlank).reverse.takeWhile isBlank).reverse := by
    rw [strip, ← List.reverse_append, hcut, List.reverse_reverse]
  refine ⟨t.takeWhile isBlank, _, by rw [← hback, hcut], ?_, ?_, ?_, ?_⟩
  · exact fun c hc => List.all_eq_true.mp List.all_takeWhile c hc
  · exact fun c hc => List.all_eq_true.mp List.all_takeWhile c (List.mem_reverse.mp hc)
  · intro c hc
    have hhead := head_dropWhile t
    rw [hback] at hhead
    exact hhead c (by rw [List.head?_append, Option.mem_def.mp hc]; rfl)
  · intro c hc
    rw [strip, List.getLast?_reverse] at hc
    exact head_dropWhile _ c hc

theorem strip_strip (t : Text) : strip (strip t) = strip t := by
  obtain ⟨-, -, -, -, -, hhead, hlast⟩ := exists_strip t
  exact strip_of_head_last hhead hlast

theorem not_isBlank_last_of_strip (h : strip s = s) : ∀ c ∈ s.getLast?, isBlank c = false := by
  obtain ⟨-, -, -, -, -, -, hlast⟩ := exists_strip s
  rwa [h] at hlast

theorem isBlank_of_strip_nil (h : strip t = []) : ∀ c ∈ t, isBlank c = true := by
  obtain ⟨front, back, hcut, hfront, hback, -⟩ := exists_strip t
  rw [h, List.nil_append] at hcut
  rw [hcut, List.forall_mem_append]
  exact ⟨hfront, hback⟩

/-- Stripping leaves what stands between two texts, unless one of them is blank. -/
theorem strip_between (s t : Text) :
    (∀ w, (∀ c ∈ w, isBlank c = true) → strip (s ++ w ++ t) = strip (s ++ t)) ∨
    ∃ front inner inner' back, s = front ++ inner ∧ t = inner' ++ back ∧
      (∀ c ∈ front, isBlank c = true) ∧ (∃ c ∈ inner.head?, isBlank c = false) ∧ inner' ≠ [] ∧
      ∀ w, strip (s ++ w ++ t) = inner ++ w ++ inner' := by
  by_cases hs : strip s = []
  · left
    intro w hw
    have hblank := isBlank_of_strip_nil hs
    rw [List.append_assoc, strip_blanks_append hblank, strip_blanks_append hw,
      strip_blanks_append hblank]
  by_cases ht : strip t = []
  · left
    intro w hw
    have hblank := isBlank_of_strip_nil ht
    rw [strip_append_blanks hblank, strip_append_blanks hw, strip_append_blanks hblank]
  right
  obtain ⟨front, behind, hcut, hfront, -, hhead, -⟩ := exists_strip s
  obtain ⟨before, back, hcut', -, hback, -, hlast⟩ := exists_strip t
  obtain ⟨c, more, hc⟩ := List.exists_cons_of_ne_nil hs
  obtain ⟨init, d, hd⟩ := (List.eq_nil_or_concat (strip t)).resolve_left ht
  rw [hc] at hcut hhead
  rw [hd, List.concat_eq_append] at hcut' hlast
  have hsolid : isBlank c = false := hhead c rfl
  have hsolid' : isBlank d = false := hlast d (by simp)
  refine ⟨front, c :: more ++ behind, before ++ (init ++ [d]), back, hcut, by simp [hcut'], hfront,
    ⟨c, rfl, hsolid⟩, by simp, fun w => ?_⟩
  have hwhole :
      s ++ w ++ t = front ++ (c :: (more ++ behind ++ w ++ before ++ init ++ [d]) ++ back) := by
    simp [hcut, hcut']
  have hstripped : c :: more ++ behind ++ w ++ (before ++ (init ++ [d])) =
      c :: (more ++ behind ++ w ++ before ++ init ++ [d]) := by simp
  rw [hwhole, strip_blanks_append hfront, strip_append_blanks hback,
    strip_of_ends hsolid hsolid', hstripped]

end DocComment.Text
