import DocComment.Grammar.Comment
import DocComment.Proofs.Text.Line

/-!
# The line that a report shows

A report finds its line among the shown lines of the comment by the number that positions give to
the line. The two belong together as long as nothing but line feeds has ended a shown line so far;
then the line is the one that holds the offset, up to where it is shown. Otherwise there are too
many shown lines in front of it, and the report shows one of those. What stands under the line
depends on the offset and on what is shown, and not on which line that is.
-/

namespace DocComment

namespace Report

open Text (FeedsOnly hiddenPart shownPart trimLine)

variable {r : Report} {before line after : Text} {offset : Nat}

/-- The text of a report with a place: the message, the place, and a line with carets under it, all
behind a gutter that is as wide as the number of the line. -/
def layout (message filename : Text) (shown : Origin) (excerpt : Text)
    (blanks carets : Nat) : Text :=
  let lineNumber := Text.signedNumeral shown.line
  let gutter := List.replicate (lineNumber.length + 1) ' '
  "error: ".toList ++ message ++ ['\n'] ++
    gutter ++ "--> ".toList ++ filename ++ [':'] ++ lineNumber ++ [':'] ++
      Text.signedNumeral shown.column ++ ['\n'] ++
    gutter ++ "|\n".toList ++
    lineNumber ++ " | ".toList ++ excerpt ++ ['\n'] ++
    gutter ++ "| ".toList ++ List.replicate blanks ' ' ++ List.replicate carets '^'

theorem render_of_position {p : Position} (h : r.position = some p) (filename : Text)
    (origin : Option Origin) :
    r.render filename origin = layout r.message filename (shownPlace p origin) (r.excerpt p)
      (p.column - 1) (r.carets p).length := by
  rw [render, h]
  dsimp only
  obtain ⟨n, hcarets⟩ : ∃ n, r.carets p = List.replicate n '^' := ⟨_, rfl⟩
  rw [hcarets, List.length_replicate]
  unfold layout
  simp only [List.append_assoc]

/-- There is a caret, and there are no more of them than reach to the end of what is shown. -/
theorem length_carets (r : Report) (p : Position) : 1 ≤ (r.carets p).length ∧
    (p.column ≤ (r.excerpt p).length →
      p.column + (r.carets p).length ≤ (r.excerpt p).length + 1) := by
  rw [carets, List.length_replicate]
  omega

/-- Behind line feeds alone a report shows the line that is counted, as far as it is shown. -/
theorem excerpt_of_feedsOnly {p : Position} (h : HoldsLine r.comment offset before line after)
    (hp : p.line = before.count '\n' + 1) (hfeeds : FeedsOnly before) :
    r.excerpt p = (shownPart line).rdropWhile (· = '\r') := by
  have hcount := (Text.count_le_length_lines h.closed).2.mpr hfeeds
  rw [← Text.trimLine_lines h.unbroken h.ended, excerpt, hp, Nat.add_sub_cancel, h.split,
    Text.lines_append h.closed, ← hcount, List.getElem?_append_right (Nat.le_refl _), Nat.sub_self,
    ← List.head?_eq_getElem?, List.headD_eq_head?_getD]

/-- Behind any other end of a shown line a report shows a line that comes before. -/
theorem excerpt_of_not_feedsOnly {p : Position} (h : HoldsLine r.comment offset before line after)
    (hp : p.line = before.count '\n' + 1) (hfeeds : ¬FeedsOnly before) :
    ∃ piece ∈ before.lines, r.excerpt p = trimLine piece := by
  obtain ⟨hle, hiff⟩ := Text.count_le_length_lines h.closed
  have hlt : before.count '\n' < before.lines.length :=
    Nat.lt_of_le_of_ne hle fun heq => hfeeds (hiff.mp heq.symm)
  refine ⟨before.lines[before.count '\n'], List.getElem_mem hlt, ?_⟩
  rw [excerpt, hp, Nat.add_sub_cancel, h.split, Text.lines_append h.closed,
    List.getElem?_append_left hlt, List.getElem?_eq_getElem hlt, Option.getD_some]

/-- A report on an offset of its comment names the place that is counted and shows a line with at
least one caret under the place, and no caret behind the end of the line if the place is not. If
line feeds alone have ended the lines in front, what is shown is the line that holds the offset
without the carriage returns at its end, exactly where the line goes on with nothing but carriage
returns behind the first character that ends a shown line. If not, a line is shown that comes
before. -/
theorem render_excerpt (hoffset : r.offset = some (offset : Int)) (hle : offset ≤ r.comment.length)
    (filename : Text) (origin : Option Origin) :
    ∃ before line after excerpt carets, HoldsLine r.comment offset before line after ∧
      r.position = some ⟨before.count '\n' + 1, offset - before.length + 1, offset⟩ ∧
      r.render filename origin = layout r.message filename
        (shownPlace ⟨before.count '\n' + 1, offset - before.length + 1, offset⟩ origin) excerpt
        (offset - before.length) carets ∧
      1 ≤ carets ∧
      (offset - before.length < excerpt.length → offset - before.length + carets ≤ excerpt.length) ∧
      (FeedsOnly before → excerpt = (shownPart line).rdropWhile (· = '\r') ∧
        (excerpt = line.rdropWhile (· = '\r') ↔ ∀ c ∈ hiddenPart line, c = '\r')) ∧
      (¬FeedsOnly before → ∃ piece ∈ before.lines, excerpt = trimLine piece) := by
  obtain ⟨before, line, after, hline⟩ := Text.exists_holdsLine hle
  have hposition :
      r.position = some ⟨before.count '\n' + 1, offset - before.length + 1, offset⟩ := by
    rw [position, hoffset, Option.map_some, Text.position_of_holdsLine hline]
  obtain ⟨hone, hwithin⟩ :=
    length_carets r ⟨before.count '\n' + 1, offset - before.length + 1, offset⟩
  refine ⟨before, line, after, _, _, hline, hposition,
    render_of_position hposition filename origin, hone,
    fun hlt => ?_, fun hfeeds => ?_, excerpt_of_not_feedsOnly hline rfl⟩
  · have hcarets := hwithin hlt
    rw [Nat.add_right_comm] at hcarets
    exact Nat.le_of_succ_le_succ hcarets
  · have hshown := excerpt_of_feedsOnly hline
      (p := ⟨before.count '\n' + 1, offset - before.length + 1, offset⟩) rfl hfeeds
    refine ⟨hshown, ?_⟩
    have hiff := Text.rdropWhile_append_eq_iff (p := (· = '\r')) (shownPart line) (hiddenPart line)
    rw [Text.shownPart_append_hiddenPart] at hiff
    rw [hshown, eq_comm, hiff]
    simp only [decide_eq_true_eq]

/-- A link that is none, on the second line of its comment. -/
theorem render_excerpt_second :
    let r : Report :=
      ⟨"invalid link \"a\"".toList, "a".toList, "/**\r\n * @link a\r\n */".toList, some 14⟩
    r.offset = some ((14 : Nat) : Int) ∧ 14 ≤ r.comment.length ∧
    ∃ before line after excerpt carets, HoldsLine r.comment 14 before line after ∧
      r.position = some ⟨before.count '\n' + 1, 14 - before.length + 1, 14⟩ ∧
      r.render noFile none = layout r.message noFile
        (shownPlace ⟨before.count '\n' + 1, 14 - before.length + 1, 14⟩ none) excerpt
          (14 - before.length) carets ∧
      1 ≤ carets ∧
      (14 - before.length < excerpt.length → 14 - before.length + carets ≤ excerpt.length) ∧
      (FeedsOnly before → excerpt = (shownPart line).rdropWhile (· = '\r') ∧
        (excerpt = line.rdropWhile (· = '\r') ↔ ∀ c ∈ hiddenPart line, c = '\r')) ∧
      (¬FeedsOnly before → ∃ piece ∈ before.lines, excerpt = trimLine piece) :=
  ⟨rfl, by decide, render_excerpt rfl (by decide) noFile none⟩

/-- A form feed ends a shown line, so the line of the link is not shown; the place is that of the
link. -/
theorem render_other_line :
    let comment : Text := "/** \x0c\n * @link x */".toList
    let before := "/** \x0c\n".toList
    let line := " * @link x */".toList
    ∃ failure, Document.parse comment = .error failure ∧ failure.report.offset = some 15 ∧
      HoldsLine comment 15 before line [] ∧
      failure.report.text =
      "error: invalid link \"x\"\n  --> <comment>:2:10\n  |\n2 | \n  |          ^".toList ∧
      failure.report.excerpt (comment.position 15) ≠ line.rdropWhile (· = '\r') := by
  intro comment before line
  have hread : (match Document.parse comment with
      | .error failure => some failure
      | .ok _ => none) = some (.syntaxError ⟨.malformed .link ['x'] 15, comment⟩) := by
        decide +kernel
  have herror : Document.parse comment =
      .error (.syntaxError ⟨.malformed .link ['x'] 15, comment⟩) := by
    cases h : Document.parse comment with
    | ok document =>
      rw [h] at hread
      cases hread
    | error failure =>
      rw [h] at hread
      rw [Option.some.inj hread]
  have hline : HoldsLine comment 15 before line [] :=
    ⟨rfl, fun c hc => (Option.some.inj hc).symm, by decide, nofun, by decide, by decide⟩
  exact ⟨_, herror, rfl, hline, by decide +kernel, by decide +kernel⟩

end Report

end DocComment
