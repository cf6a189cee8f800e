import DocComment.Text.Basic

/-!
# Paths

A path is a root and the names below it. Empty names and single points are dropped when a text is
read as a path, and double points stay. Two slashes in front are a root of their own; any other
number above zero counts as one.
-/

namespace DocComment

/-- A root, which is empty for a relative path, and the names below it. -/
structure Path where
  root : Text := []
  parts : List Text := []
deriving DecidableEq, Repr, Inhabited

namespace Path

def rootOf : Text → Text
  | '/' :: '/' :: '/' :: _ => ['/']
  | '/' :: '/' :: _ => ['/', '/']
  | '/' :: _ => ['/']
  | _ => []

def ofText (t : Text) : Path where
  root := rootOf t
  parts := (Text.splitAt '/' t).filter fun part => part ≠ [] && part ≠ ['.']

/-- The text of a path; the empty relative path is a point. -/
def text (p : Path) : Text :=
  if p.root = [] ∧ p.parts = [] then ['.'] else p.root ++ ['/'].intercalate p.parts

def parent (p : Path) : Path := { p with parts := p.parts.dropLast }

def child (p : Path) (name : Text) : Path := { p with parts := p.parts ++ [name] }

end Path

end DocComment
