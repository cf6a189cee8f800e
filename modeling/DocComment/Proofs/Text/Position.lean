import DocComment.Report
import Mathlib.Data.List.Induction

/-!
# Places in a text that is part of another

Where a text begins in a larger one and where an offset lies in the text give the place in the
larger one: the lines add up, and so do the columns on the first line. A report is shown with a
place that is put together in this way. In one text the places of two offsets come in the order of
the offsets.
-/

namespace DocComment

namespace Position

theorem line_pos (t : Text) : 1 ≤ (t.foldl advance start).line := by
  induction t using List.reverseRecOn with
  | nil => exact Nat.le_refl 1
  | append_singleton t c ih =>
    rw [List.foldl_append, List.foldl_cons, List.foldl_nil, advance]
    split
    · exact Nat.le_succ_of_le ih
    · exact ih

theorem column_pos (t : Text) : 1 ≤ (t.foldl advance start).column := by
  induction t using List.reverseRecOn with
  | nil => exact Nat.le_refl 1
  | append_singleton t c ih =>
    rw [List.foldl_append, List.foldl_cons, List.foldl_nil, advance]
    split
    · exact Nat.le_refl 1
    · exact Nat.le_succ_of_le ih

/-- Going over a text from any place leads to the place that is shown for one that begins there. -/
theorem origin_foldl_advance (p : Position) (t : Text) :
    (t.foldl advance p).origin = Report.shownPlace (t.foldl advance start) (some p.origin) := by
  induction t using List.reverseRecOn with
  | nil =>
    simp only [List.foldl_nil, Report.shownPlace, origin, start, ↓reduceIte, Origin.mk.injEq]
    omega
  | append_singleton t c ih =>
    have hline := line_pos t
    simp only [List.foldl_append, List.foldl_cons, List.foldl_nil]
    generalize t.foldl advance p = there at ih ⊢
    generalize t.foldl advance start = here at ih hline ⊢
    simp only [Report.shownPlace, origin, Origin.mk.injEq] at ih ⊢
    by_cases hfeed : c = '\n'
    · simp only [advance, if_pos hfeed]
      omega
    · simp only [advance, if_neg hfeed]
      omega

/-- Positions are ordered by line, and on one line by column. -/
instance : LT Position where
  lt p q := p.line < q.line ∨ p.line = q.line ∧ p.column < q.column

theorem lt_iff {p q : Position} :
    p < q ↔ p.line < q.line ∨ p.line = q.line ∧ p.column < q.column := Iff.rfl

theorem lt_trans {p q r : Position} (hpq : p < q) (hqr : q < r) : p < r := by
  rw [lt_iff] at hpq hqr ⊢
  omega

theorem lt_advance (p : Position) (c : Char) : p < p.advance c := by
  rw [lt_iff, advance]
  split
  · exact .inl (Nat.lt_succ_self _)
  · exact .inr ⟨rfl, Nat.lt_succ_self _⟩

theorem lt_foldl_advance {t : Text} (h : t ≠ []) (p : Position) : p < t.foldl advance p := by
  induction t using List.reverseRecOn with
  | nil => exact absurd rfl h
  | append_singleton t c ih =>
    rw [List.foldl_append, List.foldl_cons, List.foldl_nil]
    by_cases ht : t = []
    · rw [ht, List.foldl_nil]
      exact lt_advance p c
    · exact lt_trans (ih ht) (lt_advance _ c)

end Position

variable {source before text after : Text} {offset : Nat}

theorem Text.line_position_pos (source : Text) (offset : Int) : 1 ≤ (source.position offset).line :=
  Position.line_pos _

theorem Text.column_position_pos (source : Text) (offset : Int) :
    1 ≤ (source.position offset).column :=
  Position.column_pos _

/-- The place of an offset in a part of a text, and the place of the part, give the place in the
text. -/
theorem Text.origin_position (hsource : source = before ++ (text ++ after))
    (hoffset : offset ≤ text.length) :
    (source.position (before.length + offset : Nat)).origin =
      Report.shownPlace (text.position offset) (some (source.position before.length).origin) := by
  have hthere : source.take (before.length + offset) = before ++ text.take offset := by
    rw [hsource, List.take_length_add_append, List.take_append_of_le_length hoffset]
  have hbefore : source.take before.length = before := by rw [hsource, List.take_left]
  rw [Text.position, Text.position, Text.position, Int.toNat_natCast, Int.toNat_natCast,
    Int.toNat_natCast, hthere, hbefore, List.foldl_append]
  exact Position.origin_foldl_advance _ _

/-- The places of two offsets come in the order of the offsets. -/
theorem Text.position_lt {a b : Nat} (hab : a < b) (hb : b ≤ source.length) :
    source.position a < source.position b := by
  have hb' : source.take b = source.take a ++ (source.drop a).take (b - a) := by
    rw [← List.take_add, Nat.add_sub_cancel' (Nat.le_of_lt hab)]
  have hbetween : (source.drop a).take (b - a) ≠ [] := by
    apply List.ne_nil_of_length_pos
    rw [List.length_take, List.length_drop]
    omega
  rw [Text.position, Text.position, Int.toNat_natCast, Int.toNat_natCast, hb', List.foldl_append]
  exact Position.lt_foldl_advance hbetween _

end DocComment
