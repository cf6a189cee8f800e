import DocComment.Text.Basic

/-!
# Lines for display

Where a line of a text is shown, more characters end it than the line feed: the carriage return, the
vertical tab, the form feed, the file, group and record separators, the next-line control, and the
Unicode line and paragraph separators. A carriage return and a line feed together end one line. The
lines keep their ends, so they concatenate to the text.
-/

namespace DocComment.Text

/-- The character ends a shown line. -/
def endsLine (c : Char) : Bool :=
  inRanges [(0xA, 0xD), (0x1C, 0x1E), (0x85, 0x85), (0x2028, 0x2029)] c

/-- Puts a character in front of the first line of a list of lines. -/
def consLine (c : Char) : List Text → List Text
  | [] => [[c]]
  | line :: rest => (c :: line) :: rest

/-- The shown lines of a text, with the characters that end them. -/
def lines : Text → List Text
  | [] => []
  | c :: rest =>
    if c = '\r' && rest.head? = some '\n' then consLine c (lines rest)
    else if endsLine c then [c] :: lines rest
    else consLine c (lines rest)

/-- A shown line without the line feed and the carriage returns at its end. -/
def trimLine (line : Text) : Text :=
  ((line.reverse.dropWhile (· = '\n')).dropWhile (· = '\r')).reverse

end DocComment.Text
