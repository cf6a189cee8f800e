import DocComment.Text.Basic

/-!
# Positions

A position names a place between the characters of a text by its line, its column in that line and
its offset. Lines and columns count from one, offsets from zero, and only the line feed ends a line.
Offsets outside the text are brought to its nearest end.
-/

namespace DocComment

/-- A place in a text: line and column from one, offset from zero. -/
structure Position where
  line : Nat
  column : Nat
  offset : Nat
deriving DecidableEq, Repr, Inhabited

namespace Position

def start : Position := ⟨1, 1, 0⟩

def advance (p : Position) (c : Char) : Position :=
  if c = '\n' then ⟨p.line + 1, 1, p.offset + 1⟩ else ⟨p.line, p.column + 1, p.offset + 1⟩

end Position

/-- The place at an offset of a text, which is first brought into the text. -/
def Text.position (source : Text) (offset : Int) : Position :=
  (source.take offset.toNat).foldl Position.advance Position.start

end DocComment
