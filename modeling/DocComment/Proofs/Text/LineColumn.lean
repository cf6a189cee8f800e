import DocComment.Proofs.Text.Line

/-!
# Offsets by line and column

A line and a column of a text name one offset of it, and each offset is named by one line and
column. Behind the last character of a line stands its line feed or the end of the text, so a line
has one column more than characters. Both ways keep the order, and in a part of a text they follow
from where the part begins.
-/

namespace DocComment

namespace Text

variable {source before line part after : Text} {offset a b m n row column row' column' : Nat}

/-- The first lines of a text, each with the line feed that ends it. -/
def firstLines (source : Text) (count : Nat) : Text :=
  (((splitAt '\n' source).take count).map (· ++ ['\n'])).flatten

/-- The offset of a line and a column: the lines in front are passed over, and then the columns in
front. -/
def offsetAt (source : Text) (row column : Nat) : Nat :=
  (source.firstLines (row - 1)).length + (column - 1)

/-- The text has a line with a column. The last column is the one behind all characters of
the line. -/
structure HasColumn (source : Text) (row column : Nat) : Prop where
  row_pos : 1 ≤ row
  column_pos : 1 ≤ column
  within : ∃ line ∈ (splitAt '\n' source)[row - 1]?, column - 1 ≤ line.length

/-! ## The first lines -/

theorem firstLines_succ (h : (splitAt '\n' source)[n]? = some line) :
    source.firstLines (n + 1) = source.firstLines n ++ (line ++ ['\n']) := by
  rw [firstLines, firstLines, List.take_add_one, h, List.map_append, List.flatten_append,
    Option.toList_some, List.map_singleton, List.flatten_singleton]

theorem firstLines_prefix_of_le (source : Text) (h : m ≤ n) :
    source.firstLines m <+: source.firstLines n := by
  obtain ⟨more, rfl⟩ := Nat.exists_eq_add_of_le h
  rw [firstLines, firstLines, List.take_add, List.map_append, List.flatten_append]
  exact List.prefix_append _ _

/-- All lines together are the text with a line feed behind it. -/
theorem firstLines_prefix_feed (source : Text) (n : Nat) :
    source.firstLines n <+: source ++ ['\n'] := by
  have hall : source.firstLines (max n (splitAt '\n' source).length) = source ++ ['\n'] := by
    rw [firstLines, List.take_of_length_le (Nat.le_max_right ..), flatten_splitAt]
  rw [← hall]
  exact firstLines_prefix_of_le source (Nat.le_max_left ..)

/-- The line of an offset stands behind as many lines as there are line feeds in front of it, and
these lines are what stands in front of it. -/
theorem splitAt_of_holdsLine (h : HoldsLine source offset before line after) :
    (splitAt '\n' source)[before.count '\n']? = some line ∧
    source.firstLines (before.count '\n') = before := by
  obtain ⟨back, hback⟩ : ∃ back, splitAt '\n' (line ++ after) = line :: back := by
    cases after with
    | nil => exact ⟨[], by rw [List.append_nil, splitAt_of_not_mem h.unbroken]⟩
    | cons c rest =>
      obtain rfl := h.ended c rfl
      exact ⟨_, splitAt_append h.unbroken rest⟩
  obtain rfl | ⟨init, c, rfl⟩ := List.eq_nil_or_concat' before
  · rw [h.split, List.nil_append, firstLines, hback]
    exact ⟨rfl, rfl⟩
  · obtain rfl := h.closed c (by simp)
    -- the lines in front are the pieces of what stands in front of the last of their line feeds
    have hcount : (init ++ ['\n']).count '\n' = (splitAt '\n' init).length := by
      rw [length_splitAt, List.count_append, List.count_singleton_self]
    have hsplit : splitAt '\n' source = splitAt '\n' init ++ line :: back := by
      rw [h.split, List.append_assoc, List.singleton_append, splitAt_append_separator, hback]
    rw [firstLines, hcount, hsplit, List.take_left, flatten_splitAt,
      List.getElem?_append_right (Nat.le_refl _), Nat.sub_self]
    exact ⟨rfl, rfl⟩

/-! ## Both ways -/

theorem offset_position (h : offset ≤ source.length) :
    (source.position offset).offset = offset := by
  obtain ⟨before, line, after, hline⟩ := exists_holdsLine h
  rw [position_of_holdsLine hline]

theorem hasColumn_position (h : offset ≤ source.length) :
    source.HasColumn (source.position offset).line (source.position offset).column := by
  obtain ⟨before, line, after, hline⟩ := exists_holdsLine h
  have hend := hline.le_end
  rw [position_of_holdsLine hline]
  refine ⟨Nat.le_add_left .., Nat.le_add_left .., line, (splitAt_of_holdsLine hline).1, ?_⟩
  rw [Nat.add_sub_cancel]
  omega

theorem offsetAt_position (h : offset ≤ source.length) :
    source.offsetAt (source.position offset).line (source.position offset).column = offset := by
  obtain ⟨before, line, after, hline⟩ := exists_holdsLine h
  rw [position_of_holdsLine hline, offsetAt, Nat.add_sub_cancel, Nat.add_sub_cancel,
    (splitAt_of_holdsLine hline).2, Nat.add_sub_cancel' hline.start_le]

/-- A line and a column come in front of the next line. -/
theorem offsetAt_lt_length (h : source.HasColumn row column) :
    source.offsetAt row column < (source.firstLines row).length := by
  obtain ⟨line, hline, hwithin⟩ := h.within
  have hsucc := firstLines_succ hline
  rw [Nat.sub_add_cancel h.row_pos] at hsucc
  rw [hsucc, offsetAt, List.length_append, List.length_append, List.length_singleton]
  omega

theorem offsetAt_le (h : source.HasColumn row column) :
    source.offsetAt row column ≤ source.length := by
  have hlength := (firstLines_prefix_feed source row).length_le
  rw [List.length_append, List.length_singleton] at hlength
  exact Nat.le_of_lt_succ (Nat.lt_of_lt_of_le (offsetAt_lt_length h) hlength)

/-- Lines and columns come in the order of their offsets. -/
theorem offsetAt_lt (h : source.HasColumn row column) (h' : source.HasColumn row' column')
    (hlt : row < row' ∨ row = row' ∧ column < column') :
    source.offsetAt row column < source.offsetAt row' column' := by
  have hcolumn := h.column_pos
  rcases hlt with hrow | ⟨rfl, hlt⟩
  · calc source.offsetAt row column
      _ < (source.firstLines row).length := offsetAt_lt_length h
      _ ≤ (source.firstLines (row' - 1)).length :=
        (firstLines_prefix_of_le source (by omega)).length_le
      _ ≤ source.offsetAt row' column' := Nat.le_add_right ..
  · rw [offsetAt, offsetAt]
    omega

/-- Two lines and columns of one offset are the same, because neither comes in front of
the other. -/
theorem offsetAt_inj (h : source.HasColumn row column) (h' : source.HasColumn row' column')
    (heq : source.offsetAt row column = source.offsetAt row' column') :
    row = row' ∧ column = column' := by
  have hbefore := mt (offsetAt_lt h h') (Nat.not_lt_of_ge heq.ge)
  have hbehind := mt (offsetAt_lt h' h) (Nat.not_lt_of_ge heq.le)
  omega

theorem position_offsetAt (h : source.HasColumn row column) :
    source.position (source.offsetAt row column) = ⟨row, column, source.offsetAt row column⟩ := by
  have hle := offsetAt_le h
  obtain ⟨hrow, hcolumn⟩ := offsetAt_inj (hasColumn_position hle) h (offsetAt_position hle)
  rw [Position.mk.injEq]
  exact ⟨hrow, hcolumn, offset_position hle⟩

theorem position_lt_iff (ha : a ≤ source.length) (hb : b ≤ source.length) :
    source.position a < source.position b ↔ a < b := by
  refine ⟨fun hlt => ?_, fun hab => position_lt hab hb⟩
  have hoffset :=
    offsetAt_lt (hasColumn_position ha) (hasColumn_position hb) (Position.lt_iff.mp hlt)
  rwa [offsetAt_position ha, offsetAt_position hb] at hoffset

/-! ## Parts -/

/-- In a part of a text the lines are those of the text behind the line where the part begins, and
only on that line do the columns have others in front. -/
theorem position_of_part (hsource : source = before ++ (part ++ after))
    (hoffset : offset ≤ part.length) :
    (source.position (before.length + offset : Nat)).line =
        (source.position before.length).line + (part.position offset).line - 1 ∧
      (source.position (before.length + offset : Nat)).column = (part.position offset).column +
        if (part.position offset).line = 1 then
        (source.position before.length).column - 1 else 0 := by
  have hplace := origin_position hsource hoffset
  have hline := line_position_pos part offset
  have hcolumn := column_position_pos source before.length
  simp only [Position.origin, Report.shownPlace, Origin.mk.injEq] at hplace
  obtain ⟨hline', hcolumn'⟩ := hplace
  refine ⟨by omega, ?_⟩
  split
  · rw [if_pos (by omega)] at hcolumn'
    omega
  · rw [if_neg (by omega)] at hcolumn'
    omega

/-- The places of a text are in the order of their offsets. Each offset has a line and a column of
the text and is the length of what stands in front of them, and each line and column of the text are
those of such an offset. Where a text is part of another, its places are those that the other has
there: the lines add up, and so do the columns on the first line. -/
theorem position_isomorphic (source : Text) :
    (∀ a b : Nat, a ≤ source.length → b ≤ source.length →
      (source.position a < source.position b ↔ a < b)) ∧
    (∀ a : Nat, a ≤ source.length →
      source.HasColumn (source.position a).line (source.position a).column ∧
      source.offsetAt (source.position a).line (source.position a).column = a) ∧
    (∀ row column, source.HasColumn row column →
      source.offsetAt row column ≤ source.length ∧
      source.position (source.offsetAt row column) = ⟨row, column, source.offsetAt row column⟩) ∧
    ∀ before part after, source = before ++ (part ++ after) → ∀ offset ≤ part.length,
      (source.position (before.length + offset : Nat)).line =
          (source.position before.length).line + (part.position offset).line - 1 ∧
        (source.position (before.length + offset : Nat)).column = (part.position offset).column +
          if (part.position offset).line = 1 then
          (source.position before.length).column - 1 else 0 :=
  ⟨fun _ _ ha hb => position_lt_iff ha hb,
    fun _ ha => ⟨hasColumn_position ha, offsetAt_position ha⟩,
    fun _ _ h => ⟨offsetAt_le h, position_offsetAt h⟩,
    fun _ _ _ hsource _ hoffset => position_of_part hsource hoffset⟩

/-- A line feed and the one behind it, the end of the text, and a part that begins behind the first
column and goes on to the last line. -/
theorem position_isomorphic_feeds :
    let source : Text := "ab\n\ncd".toList
    let part : Text := "b\n\nc".toList
    (2 ≤ source.length ∧ 3 ≤ source.length ∧
      (source.position (2 : Nat) < source.position (3 : Nat) ↔ 2 < 3)) ∧
    (source.HasColumn 2 1 ∧ source.offsetAt 2 1 = 3) ∧
    (source.HasColumn 3 3 ∧ source.offsetAt 3 3 ≤ source.length ∧
      source.position (source.offsetAt 3 3) = ⟨3, 3, 6⟩) ∧
    source = ['a'] ++ (part ++ ['d']) ∧
    (1 ≤ part.length ∧
      (source.position (1 + 1 : Nat)).line = 1 + (part.position (1 : Nat)).line - 1 ∧
      (source.position (1 + 1 : Nat)).column = (part.position (1 : Nat)).column + 1) ∧
    (3 ≤ part.length ∧
      (source.position (1 + 3 : Nat)).line = 1 + (part.position (3 : Nat)).line - 1 ∧
      (source.position (1 + 3 : Nat)).column = (part.position (3 : Nat)).column + 0) := by
  intro source part
  obtain ⟨horder, hoffset, hcolumn, hpart⟩ := position_isomorphic source
  have hlast : source.HasColumn 3 3 := ⟨by decide, by decide, _, rfl, by decide⟩
  exact ⟨⟨by decide, by decide, horder 2 3 (by decide) (by decide)⟩, hoffset 3 (by decide),
    ⟨hlast, hcolumn 3 3 hlast⟩, rfl, ⟨by decide, hpart ['a'] part ['d'] rfl 1 (by decide)⟩,
    ⟨by decide, hpart ['a'] part ['d'] rfl 3 (by decide)⟩⟩

end Text

end DocComment
