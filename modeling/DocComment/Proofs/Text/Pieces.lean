import DocComment.Text.Basic
import Mathlib.Data.List.TakeWhile

/-!
# Texts in pieces

Cutting a text at a separator undoes joining pieces without it, so the pieces of a text are known
from any way to write it as pieces with separators between them. The same holds of the two parts of
a text around its first or its last separator.
-/

namespace DocComment

/-- A run at the head of a list is taken as far as the test holds. -/
theorem takeWhile_eq_iff {α : Type} {p : α → Bool} {run left : List α} :
    (run ++ left).takeWhile p = run ↔ (∀ a ∈ run, p a = true) ∧ ∀ a ∈ left.head?, p a = false := by
  constructor
  · intro h
    have hrun : ∀ a ∈ run, p a = true := fun a ha => by
      rw [← h] at ha
      exact List.all_eq_true.mp List.all_takeWhile a ha
    refine ⟨hrun, fun a ha => ?_⟩
    rw [List.takeWhile_append_of_pos hrun, List.append_right_eq_self] at h
    obtain ⟨rest, rfl⟩ := List.head?_eq_some_iff.mp ha
    rw [← Bool.not_eq_true]
    intro hp
    rw [List.takeWhile_cons_of_pos hp] at h
    cases h
  · rintro ⟨hrun, hleft⟩
    rw [List.takeWhile_append_of_pos hrun, List.append_right_eq_self]
    cases left with
    | nil => rfl
    | cons a left => exact List.takeWhile_cons_of_neg (by simp [hleft a rfl])

namespace Text

variable {separator : Char} {s t piece front back : Text} {pieces : List Text}

/-! ## A leading text -/

@[simp] theorem dropLead_append (lead rest : Text) : dropLead lead (lead ++ rest) = rest := by
  rw [dropLead, if_pos (List.isPrefixOf_iff_prefix.mpr (List.prefix_append lead rest)),
    List.drop_left]

theorem dropLead_of_unmarked {lead : Text} (h : ¬lead <+: t) : dropLead lead t = t :=
  if_neg (mt List.isPrefixOf_iff_prefix.mp h)

/-! ## All separators -/

theorem splitAt_eq_splitOn (separator : Char) (t : Text) :
    splitAt separator t = t.splitOn separator := by
  induction t with
  | nil => rfl
  | cons c t ih =>
    rw [splitAt, ih, List.splitOn_cons_eq_if_modifyHead]
    by_cases hc : c = separator
    · rw [if_pos hc, if_pos (beq_iff_eq.mpr hc)]
    · rw [if_neg hc, if_neg (mt beq_iff_eq.mp hc)]
      obtain ⟨piece, pieces, hpieces⟩ :=
        List.exists_cons_of_ne_nil (List.splitOn_ne_nil separator t)
      rw [hpieces]
      rfl

theorem splitAt_ne_nil (separator : Char) (t : Text) : splitAt separator t ≠ [] := by
  rw [splitAt_eq_splitOn]
  exact List.splitOn_ne_nil separator t

theorem splitAt_of_not_mem (h : separator ∉ t) : splitAt separator t = [t] := by
  rw [splitAt_eq_splitOn, List.splitOn_eq_singleton h]

/-- The first separator ends the first piece. -/
theorem splitAt_append (h : separator ∉ s) (t : Text) :
    splitAt separator (s ++ separator :: t) = s :: splitAt separator t := by
  rw [splitAt_eq_splitOn, splitAt_eq_splitOn, List.splitOn_append_cons_self_of_not_mem h]

theorem splitAt_append_separator (s t : Text) :
    splitAt separator (s ++ separator :: t) = splitAt separator s ++ splitAt separator t := by
  simp only [splitAt_eq_splitOn, List.splitOn_append_cons_self]

theorem splitAt_separator_cons (separator : Char) (t : Text) :
    splitAt separator (separator :: t) = [] :: splitAt separator t := if_pos rfl

/-- Any other character belongs to the first piece. -/
theorem splitAt_cons_of_ne {c : Char} (h : c ≠ separator) (t : Text) :
    ∃ piece pieces, splitAt separator t = piece :: pieces ∧
    splitAt separator (c :: t) = (c :: piece) :: pieces := by
  obtain ⟨piece, pieces, hpieces⟩ := List.exists_cons_of_ne_nil (splitAt_ne_nil separator t)
  refine ⟨piece, pieces, hpieces, ?_⟩
  rw [splitAt, if_neg h, hpieces]

/-- There is a piece in front of each separator, and one behind them all. -/
theorem length_splitAt (separator : Char) (t : Text) :
    (splitAt separator t).length = t.count separator + 1 := by
  induction t with
  | nil => rfl
  | cons c t ih =>
    by_cases hc : c = separator
    · rw [hc, splitAt_separator_cons, List.length_cons, ih, List.count_cons_self]
    · obtain ⟨piece, pieces, ht, hcons⟩ := splitAt_cons_of_ne hc t
      rw [hcons, List.length_cons, List.count_cons_of_ne hc, ← ih, ht, List.length_cons]

/-- With a separator behind each piece, there is one more behind the text. -/
theorem flatten_splitAt (separator : Char) (t : Text) :
    ((splitAt separator t).map (· ++ [separator])).flatten = t ++ [separator] := by
  induction t with
  | nil => rfl
  | cons c t ih =>
    by_cases hc : c = separator
    · rw [hc, splitAt_separator_cons, List.map_cons, List.flatten_cons, ih]
      rfl
    · obtain ⟨piece, pieces, ht, hcons⟩ := splitAt_cons_of_ne hc t
      rw [ht, List.map_cons, List.flatten_cons] at ih
      rw [hcons, List.map_cons, List.flatten_cons, List.cons_append, List.cons_append, ih,
        List.cons_append]

/-- The first piece is the whole text, or a separator is behind it. -/
theorem eq_of_splitAt (h : splitAt separator t = piece :: pieces) :
    (pieces = [] ∧ t = piece) ∨
    ∃ rest, t = piece ++ separator :: rest ∧ splitAt separator rest = pieces := by
  by_cases hmem : separator ∈ t
  · obtain ⟨first, rest, rfl, hfirst⟩ := List.eq_append_cons_of_mem hmem
    rw [splitAt_append hfirst] at h
    obtain ⟨rfl, rfl⟩ := List.cons.inj h
    exact .inr ⟨rest, rfl, rfl⟩
  · rw [splitAt_of_not_mem hmem] at h
    obtain ⟨rfl, rfl⟩ := List.cons.inj h
    exact .inl ⟨rfl, rfl⟩

theorem mem_intercalate {c : Char} (h : c ∈ [separator].intercalate pieces) :
    c = separator ∨ ∃ piece ∈ pieces, c ∈ piece := by
  induction pieces with
  | nil => simp at h
  | cons piece pieces ih =>
    by_cases hnil : pieces = []
    · subst hnil
      exact .inr ⟨piece, List.mem_singleton.mpr rfl, by simpa using h⟩
    · rw [List.intercalate_cons_of_ne_nil hnil, List.mem_append, List.mem_append,
        List.mem_singleton] at h
      rcases h with (h | h) | h
      · exact .inr ⟨piece, List.mem_cons_self, h⟩
      · exact .inl h
      · exact (ih h).imp_right fun ⟨other, hother, hc⟩ => ⟨other, List.mem_cons_of_mem _ hother, hc⟩

/-- Each character but the separators is in a piece. -/
theorem mem_splitAt (separator : Char) {c : Char} (hc : c ∈ t) :
    c = separator ∨ ∃ piece ∈ splitAt separator t, c ∈ piece := by
  have hjoin : [separator].intercalate (t.splitOn separator) = t :=
    List.intercalate_splitOn separator
  rw [← hjoin, ← splitAt_eq_splitOn] at hc
  exact mem_intercalate hc

/-- A text is in pieces as it is written with separators between pieces that have none. -/
theorem splitAt_eq_iff (hne : pieces ≠ []) (h : ∀ piece ∈ pieces, separator ∉ piece) :
    splitAt separator t = pieces ↔ t = [separator].intercalate pieces := by
  rw [splitAt_eq_splitOn]
  constructor
  · rintro rfl
    exact (List.intercalate_splitOn separator).symm
  · rintro rfl
    exact List.splitOn_intercalate separator h hne

/-- The pieces of a text are all under a condition, which no separator meets, exactly where the text
is written with separators between such pieces. -/
theorem forall_splitAt_iff {P : Text → Prop} (hP : ∀ piece, P piece → separator ∉ piece) :
    (∀ piece ∈ splitAt separator t, P piece) ↔
      ∃ pieces, pieces ≠ [] ∧ (∀ piece ∈ pieces, P piece) ∧ t = [separator].intercalate pieces := by
  constructor
  · intro h
    have hne := splitAt_ne_nil separator t
    exact ⟨_, hne, h, (splitAt_eq_iff hne fun piece hmem => hP piece (h piece hmem)).mp rfl⟩
  · rintro ⟨pieces, hne, h, ht⟩
    rwa [(splitAt_eq_iff hne fun piece hmem => hP piece (h piece hmem)).mpr ht]

/-! ## The first separator -/

theorem cutFirst?_append (h : separator ∉ front) (back : Text) :
    cutFirst? separator (front ++ separator :: back) = some (front, back) := by
  have hfront : ∀ c ∈ front, decide (c ≠ separator) = true := by
    rintro c hc
    exact decide_eq_true fun heq => h (heq ▸ hc)
  have htake : (front ++ separator :: back).takeWhile (· ≠ separator) = front := by
    rw [List.takeWhile_append_of_pos hfront, List.takeWhile_cons_of_neg (by simp), List.append_nil]
  simp only [cutFirst?, htake, List.drop_left]

theorem cutFirst?_of_not_mem (h : separator ∉ t) : cutFirst? separator t = none := by
  have hall : ∀ c ∈ t, decide (c ≠ separator) = true := by
    rintro c hc
    exact decide_eq_true fun heq => h (heq ▸ hc)
  have htake : t.takeWhile (· ≠ separator) = t := List.takeWhile_eq_self_iff.mpr hall
  simp only [cutFirst?, htake, List.drop_length]

theorem cutFirst?_eq_some :
    cutFirst? separator t = some (front, back) ↔
    t = front ++ separator :: back ∧ separator ∉ front := by
  constructor
  · intro h
    by_cases hmem : separator ∈ t
    · obtain ⟨first, rest, rfl, hfirst⟩ := List.eq_append_cons_of_mem hmem
      rw [cutFirst?_append hfirst] at h
      obtain ⟨rfl, rfl⟩ := Prod.mk.inj (Option.some.inj h)
      exact ⟨rfl, hfirst⟩
    · rw [cutFirst?_of_not_mem hmem] at h
      cases h
  · rintro ⟨rfl, hfront⟩
    exact cutFirst?_append hfront back

theorem cutFirst?_eq_none : cutFirst? separator t = none ↔ separator ∉ t := by
  refine ⟨fun h hmem => ?_, cutFirst?_of_not_mem⟩
  obtain ⟨first, rest, rfl, hfirst⟩ := List.eq_append_cons_of_mem hmem
  rw [cutFirst?_append hfirst] at h
  cases h

/-! ## The last separator -/

theorem cutLast?_eq_reverse (separator : Char) (t : Text) :
    cutLast? separator t = (cutFirst? separator t.reverse).map fun (tail, init) =>
      (init.reverse, tail.reverse) := by
  simp only [cutLast?, cutFirst?]
  cases t.reverse.drop (t.reverse.takeWhile (· ≠ separator)).length with
  | nil => rfl
  | cons c init => rfl

theorem cutLast?_eq_some :
    cutLast? separator t = some (front, back) ↔
    t = front ++ separator :: back ∧ separator ∉ back := by
  rw [cutLast?_eq_reverse, Option.map_eq_some_iff]
  constructor
  · rintro ⟨⟨tail, init⟩, hcut, heq⟩
    obtain ⟨rfl, rfl⟩ := Prod.mk.inj heq
    obtain ⟨hreverse, htail⟩ := cutFirst?_eq_some.mp hcut
    refine ⟨?_, by rwa [List.mem_reverse]⟩
    rw [← List.reverse_reverse t, hreverse]
    simp
  · rintro ⟨rfl, hback⟩
    refine ⟨(back.reverse, front.reverse),
      cutFirst?_eq_some.mpr ⟨by simp, by rwa [List.mem_reverse]⟩, by simp⟩

theorem cutLast?_eq_none : cutLast? separator t = none ↔ separator ∉ t := by
  rw [cutLast?_eq_reverse, Option.map_eq_none_iff, cutFirst?_eq_none, List.mem_reverse]

end Text

end DocComment
