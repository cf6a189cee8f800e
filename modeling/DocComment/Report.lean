import DocComment.Text.Line
import DocComment.Text.Position

/-!
# Reports

A report says what is wrong with a comment and shows the place: the line that holds the offset, with
carets under the offending text. Where the place of the comment in a larger text is known, line and
column are given for that text; the excerpt is always a line of the comment.

Lines are counted by line feeds, while the excerpt is cut out of the shown lines of the comment,
which more characters end. The two agree in a comment where only line feeds end lines.
-/

namespace DocComment

/-- Where a comment begins in a larger text, by line and column from one. -/
structure Origin where
  line : Int
  column : Int
deriving DecidableEq, Repr

/-- The place at which a position lies, taken as the beginning of a comment. -/
def Position.origin (p : Position) : Origin := ⟨p.line, p.column⟩

/-- What is wrong, the text it is about, the comment, and where in the comment. -/
structure Report where
  message : Text
  value : Text
  comment : Text
  offset : Option Int
deriving DecidableEq, Repr, Inhabited

namespace Report

/-- The place in the comment, where there is one. -/
def position (r : Report) : Option Position := r.offset.map r.comment.position

/-- Line and column to show for a place in a comment that begins at an origin: on the first line the
columns add up, on every line the lines do. -/
def shownPlace (p : Position) : Option Origin → Origin
  | none => p.origin
  | some origin =>
    ⟨p.line + origin.line - 1, if p.line = 1 then p.column + origin.column - 1 else p.column⟩

/-- The line of the comment that is shown for a place. -/
def excerpt (r : Report) (p : Position) : Text :=
  Text.trimLine (r.comment.lines[p.line - 1]?.getD [])

/-- The carets: one for each character of the value that still lies on the line, at least one. -/
def carets (r : Report) (p : Position) : Text :=
  List.replicate (max 1 (min r.value.length ((r.excerpt p).length + 1 - p.column))) '^'

def render (r : Report) (filename : Text) (origin : Option Origin) : Text :=
  let heading := "error: ".toList ++ r.message ++ ['\n']
  match r.position with
  | none => heading ++ "  --> ".toList ++ filename
  | some p =>
    let shown := shownPlace p origin
    let lineNumber := Text.signedNumeral shown.line
    let gutter := List.replicate (lineNumber.length + 1) ' '
    heading ++
      gutter ++ "--> ".toList ++ filename ++ [':'] ++ lineNumber ++ [':'] ++
        Text.signedNumeral shown.column ++ ['\n'] ++
      gutter ++ "|\n".toList ++
      lineNumber ++ " | ".toList ++ r.excerpt p ++ ['\n'] ++
      gutter ++ "| ".toList ++ List.replicate (p.column - 1) ' ' ++ r.carets p

/-- The file name shown for a comment that comes from no file. -/
def noFile : Text := "<comment>".toList

def text (r : Report) : Text := r.render noFile none

end Report

end DocComment
