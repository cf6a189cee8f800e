import DocComment.Text.Basic

/-!
# Names

Identifiers, and what is built from them: qualified names, variables, and references to elements of
a program. All are ASCII; a letter outside ASCII makes a text no name.
-/

namespace DocComment.Form

def isIdentStart (c : Char) : Bool := c.isAlpha || c = '_'

def isIdentChar (c : Char) : Bool := c.isAlphanum || c = '_'

/-- An identifier is a letter or an underscore, and then letters, digits and underscores. -/
def isIdentifier : Text → Bool
  | [] => false
  | c :: rest => isIdentStart c && rest.all isIdentChar

/-- A qualified name is one or more identifiers with backslashes between them, and maybe one more
backslash in front. -/
def isQualified (t : Text) : Bool :=
  (Text.splitAt '\\' (Text.dropLead ['\\'] t)).all isIdentifier

/-- A variable is a dollar sign and an identifier. -/
def isVariable : Text → Bool
  | '$' :: name => isIdentifier name
  | _ => false

/-- The text before an empty pair of parentheses at the end. -/
def dropCall? (t : Text) : Option Text :=
  if "()".toList.isSuffixOf t then some (t.take (t.length - 2)) else none

/-- A member is an identifier, a variable, or an identifier that is called. -/
def isMember (t : Text) : Bool :=
  isIdentifier t || isVariable t || (dropCall? t).any isIdentifier

/-- An element is a member, a member of a qualified name, or a qualified name that may be called. -/
def isElement (t : Text) : Bool :=
  isMember t || isQualified t || (dropCall? t).any isQualified ||
    match Text.cutFirst? ':' t with
    | some (owner, ':' :: member) => isQualified owner && isMember member
    | _ => false

def isFileChar (c : Char) : Bool := c.isAlphanum || c ∈ ['.', '/', '_', '-']

/-- The path of a file, which may be empty. -/
def isFile (t : Text) : Bool := t.all isFileChar

end DocComment.Form
