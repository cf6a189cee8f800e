import DocComment.Text.Quoted

/-!
# JSON values and their layout

The values that are written here: numbers without sign or fraction, texts, arrays, and objects that
keep their members in order. In the layout every element of an array and every member of an object
stands on a line of its own, two spaces further in than what it belongs to; an empty array or
object stays on one line. In a text only the quote, the backslash and the characters below the
space are escaped.
-/

namespace DocComment

inductive Json where
  | number (value : Nat)
  | text (value : Text)
  | array (items : List Json)
  | object (members : List (Text × Json))
deriving Repr, Inhabited

namespace Json

/-- One character of a text between its quotes. -/
def escaped (c : Char) : Text :=
  match c with
  | '"' => ['\\', '"']
  | '\\' => ['\\', '\\']
  | '\n' => ['\\', 'n']
  | '\r' => ['\\', 'r']
  | '\t' => ['\\', 't']
  | '\x08' => ['\\', 'b']
  | '\x0c' => ['\\', 'f']
  | c => if c.toNat < 0x20 then '\\' :: 'u' :: Text.hexadecimal 4 c.toNat else [c]

/-- A text between quotes. -/
def literal (t : Text) : Text := '"' :: t.flatMap escaped ++ ['"']

def newLine (depth : Nat) : Text := '\n' :: List.replicate (2 * depth) ' '

mutual

/-- The layout of a value at a depth. -/
def layout (depth : Nat) : Json → Text
  | .number value => Text.numeral value
  | .text value => literal value
  | .array [] => "[]".toList
  | .array (item :: items) =>
    '[' :: newLine (depth + 1) ++ layout (depth + 1) item ++ layoutItems (depth + 1) items ++
      newLine depth ++ [']']
  | .object [] => ['{', '}']
  | .object (member :: members) =>
    '{' :: newLine (depth + 1) ++ layoutMember (depth + 1) member ++
      layoutMembers (depth + 1) members ++ newLine depth ++ ['}']

/-- The layout of the elements of an array after the first. -/
def layoutItems (depth : Nat) : List Json → Text
  | [] => []
  | item :: items => ',' :: newLine depth ++ layout depth item ++ layoutItems depth items

def layoutMember (depth : Nat) : Text × Json → Text
  | (name, value) => literal name ++ ": ".toList ++ layout depth value

/-- The layout of the members of an object after the first. -/
def layoutMembers (depth : Nat) : List (Text × Json) → Text
  | [] => []
  | member :: members =>
    ',' :: newLine depth ++ layoutMember depth member ++ layoutMembers depth members

end

def write (value : Json) : Text := layout 0 value

end Json

end DocComment
