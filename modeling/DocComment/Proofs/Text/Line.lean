import DocComment.Proofs.Text.Pieces
import DocComment.Proofs.Text.Position
import DocComment.Proofs.Token.Runs
import Mathlib.Data.List.DropRight

/-!
# The line of an offset

Positions count lines by their line feeds, while the shown lines of a text have more ends.
`HoldsLine` cuts a text around the line of an offset as positions count it, and `FeedsOnly` says of
a text that its shown lines end with line feeds alone. In front of a line the text has as many shown
lines as line feeds if it is of this kind, and more if not.
-/

namespace DocComment

/-- The text is cut before and behind the line that holds an offset. The line feed that ends the
line is behind it. -/
structure HoldsLine (source : Text) (offset : Nat) (before line after : Text) : Prop where
  split : source = before ++ (line ++ after)
  closed : ∀ c ∈ before.getLast?, c = '\n'
  unbroken : '\n' ∉ line
  ended : ∀ c ∈ after.head?, c = '\n'
  start_le : before.length ≤ offset
  le_end : offset ≤ before.length + line.length

namespace Position

theorem foldl_advance_unbroken {t : Text} (h : '\n' ∉ t) (p : Position) :
    t.foldl advance p = ⟨p.line, p.column + t.length, p.offset + t.length⟩ := by
  induction t generalizing p with
  | nil => rfl
  | cons c t ih =>
    rw [List.mem_cons, not_or] at h
    rw [List.foldl_cons, advance, if_neg (Ne.symm h.1), ih h.2]
    simp only [List.length_cons, mk.injEq, true_and]
    omega

theorem offset_advance (p : Position) (c : Char) : (p.advance c).offset = p.offset + 1 := by
  rw [advance]
  split <;> rfl

theorem line_foldl_advance (t : Text) (p : Position) :
    (t.foldl advance p).line = p.line + t.count '\n' := by
  induction t generalizing p with
  | nil => rfl
  | cons c t ih =>
    by_cases hfeed : c = '\n'
    · rw [List.foldl_cons, ih, advance, if_pos hfeed, hfeed, List.count_cons_self,
        Nat.add_right_comm, Nat.add_assoc]
    · rw [List.foldl_cons, ih, advance, if_neg hfeed, List.count_cons_of_ne hfeed]

theorem offset_foldl_advance (t : Text) (p : Position) :
    (t.foldl advance p).offset = p.offset + t.length := by
  induction t generalizing p with
  | nil => rfl
  | cons c t ih =>
    rw [List.foldl_cons, ih, offset_advance, List.length_cons, Nat.add_right_comm, Nat.add_assoc]

/-- Behind a line feed, and at the beginning, a new line has its first column. -/
theorem foldl_advance_closed {t : Text} (h : ∀ c ∈ t.getLast?, c = '\n') :
    t.foldl advance start = ⟨t.count '\n' + 1, 1, t.length⟩ := by
  have hline := line_foldl_advance t start
  have hoffset := offset_foldl_advance t start
  have hcolumn : (t.foldl advance start).column = 1 := by
    obtain rfl | ⟨front, c, rfl⟩ := List.eq_nil_or_concat' t
    · rfl
    · obtain rfl : c = '\n' := h c (by simp)
      rw [List.foldl_append, List.foldl_cons, List.foldl_nil, advance, if_pos rfl]
  rw [← Nat.zero_add t.length, Nat.add_comm _ 1]
  generalize t.foldl advance start = p at hline hoffset hcolumn
  cases p with
  | mk line column offset => exact Position.mk.injEq .. ▸ ⟨hline, hcolumn, hoffset⟩

end Position

namespace Text

variable {source before line after s t : Text} {offset : Nat} {c : Char}

theorem exists_holdsLine (h : offset ≤ source.length) :
    ∃ before line after, HoldsLine source offset before line after := by
  obtain ⟨run, after, hdrop, -, hrun, hafter⟩ :=
    split_run (fun c => decide (c ≠ '\n')) (source.drop offset)
  have hunbroken : '\n' ∉ run := fun hmem => absurd (hrun _ hmem) (by decide)
  have hended : ∀ c ∈ after.head?, c = '\n' := by simpa using hafter
  have hsource : source = source.take offset ++ (run ++ after) := by
    rw [← hdrop, List.take_append_drop]
  have hlength : (source.take offset).length = offset := by rw [List.length_take, Nat.min_eq_left h]
  cases hcut : cutLast? '\n' (source.take offset) with
  | none =>
    refine ⟨[], source.take offset ++ run, after, by simpa using hsource, by simp, ?_, hended,
      by simp, by simp; omega⟩
    rw [List.mem_append, not_or]
    exact ⟨cutLast?_eq_none.mp hcut, hunbroken⟩
  | some pieces =>
    obtain ⟨front, back⟩ := pieces
    obtain ⟨htake, hback⟩ := cutLast?_eq_some.mp hcut
    rw [htake] at hsource hlength
    rw [List.length_append, List.length_cons] at hlength
    refine ⟨front ++ ['\n'], back ++ run, after, by simpa using hsource, by simp, ?_,
      hended, ?_, ?_⟩
    · rw [List.mem_append, not_or]
      exact ⟨hback, hunbroken⟩
    · rw [List.length_append, List.length_singleton]
      omega
    · rw [List.length_append, List.length_append, List.length_singleton]
      omega

/-- The place of an offset, from the line that holds it. -/
theorem position_of_holdsLine (h : HoldsLine source offset before line after) :
    source.position offset = ⟨before.count '\n' + 1, offset - before.length + 1, offset⟩ := by
  have hstart := h.start_le
  have hend := h.le_end
  have htake : source.take offset = before ++ line.take (offset - before.length) := by
    rw [h.split, List.take_append, List.take_of_length_le hstart,
      List.take_append_of_le_length (by omega)]
  have hunbroken : '\n' ∉ line.take (offset - before.length) :=
    fun hmem => h.unbroken (List.mem_of_mem_take hmem)
  rw [position, Int.toNat_natCast, htake, List.foldl_append, Position.foldl_advance_closed h.closed,
    Position.foldl_advance_unbroken hunbroken, List.length_take, Nat.min_eq_left (by omega)]
  simp only [Position.mk.injEq, true_and]
  omega

/-! ## Shown lines -/

/-- A carriage return and a line feed end a shown line together. -/
def Joined (c : Char) (rest : Text) : Prop := c = '\r' ∧ rest.head? = some '\n'

instance (c : Char) (rest : Text) : Decidable (Joined c rest) := inferInstanceAs (Decidable (_ ∧ _))

/-- Only line feeds end the shown lines of the text, each of them maybe together with a carriage
return. -/
def FeedsOnly (t : Text) : Prop :=
  ∀ front c back, t = front ++ c :: back → endsLine c = true → c = '\n' ∨ Joined c back

theorem feedsOnly_nil : FeedsOnly [] := fun front c back hnil => by simp at hnil

theorem feedsOnly_cons :
    FeedsOnly (c :: t) ↔ (endsLine c = true → c = '\n' ∨ Joined c t) ∧ FeedsOnly t := by
  constructor
  · intro h
    exact ⟨h [] c t rfl, fun front d back ht => h (c :: front) d back (by rw [ht]; rfl)⟩
  · rintro ⟨hc, ht⟩ front d back heq
    cases front with
    | nil =>
      obtain ⟨rfl, rfl⟩ := List.cons.inj heq
      exact hc
    | cons e front => exact ht front d back (List.cons.inj heq).2

theorem consLine_ne_nil (c : Char) (ls : List Text) : consLine c ls ≠ [] := by
  cases ls <;> exact List.cons_ne_nil _ _

theorem consLine_append {ls : List Text} (h : ls ≠ []) (ms : List Text) :
    consLine c (ls ++ ms) = consLine c ls ++ ms := by
  cases ls with
  | nil => exact absurd rfl h
  | cons line ls => rfl

theorem length_consLine {ls : List Text} (h : ls ≠ []) : (consLine c ls).length = ls.length := by
  cases ls with
  | nil => exact absurd rfl h
  | cons line ls => rfl

theorem lines_ne_nil (h : t ≠ []) : lines t ≠ [] := by
  cases t with
  | nil => exact absurd rfl h
  | cons c t =>
    rw [lines]
    split_ifs
    · exact consLine_ne_nil c _
    · exact List.cons_ne_nil _ _
    · exact consLine_ne_nil c _

/-- A character in front of a text is a shown line of its own, or it belongs to the first one. -/
theorem lines_cons (c : Char) (t : Text) : lines (c :: t) =
    if endsLine c = true ∧ ¬Joined c t then [c] :: lines t else consLine c (lines t) := by
  rw [lines]
  by_cases hjoined : Joined c t
  · rw [if_pos (by simp [hjoined.1, hjoined.2]), if_neg (by simp [hjoined])]
  · rw [if_neg (by simpa [Joined] using hjoined)]
    simp only [hjoined, not_false_eq_true, and_true]

theorem lines_feed (t : Text) : lines ('\n' :: t) = ['\n'] :: lines t := by
  rw [lines_cons, if_pos ⟨by decide, by simp [Joined]⟩]

/-- What closes a text closes all of it but the last character. -/
theorem closed_of_cons (h : ∀ d ∈ (c :: t).getLast?, d = '\n') : (t = [] ∧ c = '\n') ∨
    t ≠ [] ∧ ∀ d ∈ t.getLast?, d = '\n' := by
  cases t with
  | nil => exact .inl ⟨rfl, h c rfl⟩
  | cons e t =>
    exact .inr ⟨List.cons_ne_nil _ _, fun d hd => h d (by rwa [List.getLast?_cons_cons])⟩

/-- Behind a line feed shown lines begin anew. -/
theorem lines_append (h : ∀ d ∈ s.getLast?, d = '\n') (t : Text) :
    lines (s ++ t) = lines s ++ lines t := by
  induction s with
  | nil => rfl
  | cons c s ih =>
    obtain ⟨rfl, rfl⟩ | ⟨hne, hclosed⟩ := closed_of_cons h
    · rw [List.cons_append, List.nil_append, lines_feed, lines_feed]
      rfl
    · have hjoined : Joined c (s ++ t) ↔ Joined c s := by
        rw [Joined, Joined, List.head?_append_of_ne_nil s hne]
      rw [List.cons_append, lines_cons, lines_cons c s, ih hclosed]
      simp only [hjoined]
      split
      · rfl
      · exact consLine_append (lines_ne_nil hne) _

/-- A text that is closed has at least as many shown lines as line feeds, and as many if they end
with line feeds alone. -/
theorem count_le_length_lines (h : ∀ d ∈ t.getLast?, d = '\n') :
    t.count '\n' ≤ (lines t).length ∧ ((lines t).length = t.count '\n' ↔ FeedsOnly t) := by
  induction t with
  | nil => exact ⟨Nat.le_refl 0, iff_of_true rfl feedsOnly_nil⟩
  | cons c t ih =>
    rw [feedsOnly_cons]
    by_cases hfeed : c = '\n'
    · subst hfeed
      rw [lines_feed, List.length_cons, List.count_cons_self]
      obtain ⟨rfl, -⟩ | ⟨-, hclosed⟩ := closed_of_cons h
      · exact ⟨Nat.le_refl 1, iff_of_true rfl ⟨fun _ => .inl rfl, feedsOnly_nil⟩⟩
      · obtain ⟨hle, hiff⟩ := ih hclosed
        exact ⟨Nat.succ_le_succ hle, by simp [← hiff]⟩
    · obtain ⟨-, hc⟩ | ⟨hne, hclosed⟩ := closed_of_cons h
      · exact absurd hc hfeed
      obtain ⟨hle, hiff⟩ := ih hclosed
      rw [lines_cons, List.count_cons_of_ne hfeed]
      split
      case isTrue hends =>
        -- a shown line that ends with neither a line feed nor in front of one is one too many
        rw [List.length_cons]
        exact ⟨Nat.le_succ_of_le hle, iff_of_false (by omega) fun hfeeds =>
          (hfeeds.1 hends.1).elim hfeed hends.2⟩
      case isFalse hends =>
        rw [length_consLine (lines_ne_nil hne), hiff]
        refine ⟨hle, ?_⟩
        simp only [not_and, not_not] at hends
        exact (and_iff_right fun hc => .inr (hends hc)).symm

/-! ## The first shown line -/

/-- What is shown of a line: it goes up to the first character that ends a shown line, and
with it. -/
def shownPart (line : Text) : Text :=
  line.takeWhile (!endsLine ·) ++ (line.dropWhile (!endsLine ·)).take 1

/-- What is not shown of a line. -/
def hiddenPart (line : Text) : Text := (line.dropWhile (!endsLine ·)).drop 1

theorem shownPart_append_hiddenPart (line : Text) : shownPart line ++ hiddenPart line = line := by
  rw [shownPart, hiddenPart, List.append_assoc, List.take_append_drop,
    List.takeWhile_append_dropWhile]

/-- What is behind is dropped as a whole exactly where nothing in it is kept. -/
theorem rdropWhile_append_eq_iff {α : Type} {p : α → Bool} (front back : List α) :
    (front ++ back).rdropWhile p = front.rdropWhile p ↔ ∀ a ∈ back, p a = true := by
  induction back using List.reverseRecOn with
  | nil => simp
  | append_singleton back a ih =>
    rw [← List.append_assoc, List.rdropWhile_concat, List.forall_mem_append,
      List.forall_mem_singleton]
    split
    case isTrue ha => rw [ih, and_iff_left ha]
    case isFalse ha =>
      refine iff_of_false (fun heq => ?_) (fun hall => ha hall.2)
      have hle := (List.rdropWhile_prefix p (l := front)).length_le
      rw [← heq] at hle
      simp only [List.length_append, List.length_singleton] at hle
      omega

theorem trimLine_of_unbroken (h : '\n' ∉ t) : trimLine t = t.rdropWhile (· = '\r') := by
  have hdrop : t.reverse.dropWhile (· = '\n') = t.reverse := by
    rw [List.dropWhile_eq_self_iff]
    intro hlength hhead
    exact h (List.mem_reverse.mp (of_decide_eq_true hhead ▸ List.getElem_mem hlength))
  rw [trimLine, hdrop, List.rdropWhile]

theorem trimLine_feed (h : '\n' ∉ t) : trimLine (t ++ ['\n']) = t.rdropWhile (· = '\r') := by
  rw [← trimLine_of_unbroken h, trimLine, trimLine, List.reverse_append, List.reverse_singleton,
    List.singleton_append, List.dropWhile_cons_of_pos (by decide)]

theorem headD_lines_cons (c : Char) (t : Text) : (lines (c :: t)).headD [] =
    if endsLine c = true ∧ ¬Joined c t then [c] else c :: (lines t).headD [] := by
  rw [lines_cons]
  split
  · rfl
  · cases lines t <;> rfl

theorem headD_lines_append (h : ∀ c ∈ s, endsLine c = false) (t : Text) :
    (lines (s ++ t)).headD [] = s ++ (lines t).headD [] := by
  induction s with
  | nil => rfl
  | cons c s ih =>
    rw [List.forall_mem_cons] at h
    rw [List.cons_append, headD_lines_cons, if_neg (by simp [h.1]), ih h.2, List.cons_append]

/-- The first shown line of a line and what follows it shows that part of the line. -/
theorem trimLine_lines (hline : '\n' ∉ line) (hafter : ∀ c ∈ after.head?, c = '\n') :
    trimLine ((lines (line ++ after)).headD []) = (shownPart line).rdropWhile (· = '\r') := by
  obtain ⟨run, rest, rfl, htake, hrun, hrest⟩ := split_run (!endsLine ·) line
  have hdrop : (run ++ rest).dropWhile (!endsLine ·) = rest := by
    have hsplit := List.takeWhile_append_dropWhile (p := (!endsLine ·)) (l := run ++ rest)
    rw [htake] at hsplit
    exact List.append_cancel_left hsplit
  rw [List.mem_append, not_or] at hline
  rw [shownPart, htake, hdrop, List.append_assoc, headD_lines_append (by simpa using hrun)]
  cases rest with
  | nil =>
    rw [List.nil_append, List.take_nil, List.append_nil]
    cases after with
    | nil => rw [lines, List.headD_nil, List.append_nil, trimLine_of_unbroken hline.1]
    | cons c after =>
      obtain rfl := hafter c rfl
      rw [lines_feed, List.headD_cons, trimLine_feed hline.1]
  | cons e rest =>
    have hends : endsLine e = true := by simpa using hrest e rfl
    rw [List.mem_cons, not_or] at hline
    have hunbroken : '\n' ∉ run ++ [e] := by
      rw [List.mem_append, List.mem_singleton, not_or]
      exact ⟨hline.1, hline.2.1⟩
    rw [List.cons_append, headD_lines_cons, List.take_succ_cons, List.take_zero]
    split
    case isTrue => rw [trimLine_of_unbroken hunbroken]
    case isFalse hjoined =>
      obtain ⟨rfl, hfeed⟩ : Joined e (rest ++ after) := by simpa [hends] using hjoined
      have hnil : rest = [] := by
        cases rest with
        | nil => rfl
        | cons c rest => exact absurd (Option.some.inj hfeed ▸ List.mem_cons_self ..) hline.2.2
      subst hnil
      cases after with
      | nil => cases hfeed
      | cons c after =>
        obtain rfl := hafter c rfl
        rw [List.nil_append, lines_feed, List.headD_cons, ← trimLine_feed hunbroken,
          List.append_assoc]
        rfl

end Text

end DocComment
