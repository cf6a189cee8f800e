import DocComment.Text.Basic

/-!
# Versions

A version is a number, a name between at signs or between dollar signs that some tool fills in, or
the name of a version-control system with a colon, after which an identification in dollar signs is
still to come.
-/

namespace DocComment.Form

def isVersionChar (c : Char) : Bool := c.isAlphanum || c ∈ ['.', '-', '_']

/-- A digit and at least one more character, maybe after the letter `v`. -/
def isNumberedVersion (t : Text) : Bool :=
  let body := match t with
    | c :: rest => if c = 'v' || c = 'V' then rest else t
    | [] => []
  match body with
  | digit :: c :: rest => digit.isDigit && (c :: rest).all isVersionChar
  | _ => false

/-- A name between two equal marks. -/
def isMarkedVersion (mark : Char) (t : Text) : Bool :=
  match t with
  | first :: rest =>
    first = mark && rest.getLast? = some mark &&
      rest.dropLast ≠ [] && rest.dropLast.all isVersionChar
  | [] => false

/-- A name and a colon. -/
def isSystemVersion (t : Text) : Bool :=
  t.getLast? = some ':' && t.dropLast ≠ [] && t.dropLast.all isVersionChar

/-- The text is a version, or the beginning of one that ends in a colon. -/
def isVersion (t : Text) : Bool :=
  isNumberedVersion t || isMarkedVersion '@' t || isMarkedVersion '$' t || isSystemVersion t

end DocComment.Form
