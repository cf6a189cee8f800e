import DocComment.Text.Basic

/-!
# Blanks

The blank characters: the ASCII spaces and separators, the next-line control, and the Unicode
spaces, line and paragraph separators. `strip` takes them off both ends of a text.
-/

namespace DocComment.Text

def blankRanges : List (Nat × Nat) := [
  (0x9, 0xD), (0x1C, 0x20), (0x85, 0x85), (0xA0, 0xA0), (0x1680, 0x1680), (0x2000, 0x200A),
  (0x2028, 0x2029), (0x202F, 0x202F), (0x205F, 0x205F), (0x3000, 0x3000)]

def isBlank (c : Char) : Bool := inRanges blankRanges c

/-- The text without the blanks at its ends. -/
def strip (t : Text) : Text := ((t.dropWhile isBlank).reverse.dropWhile isBlank).reverse

end DocComment.Text
