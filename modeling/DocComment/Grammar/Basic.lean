import DocComment.Cursor.Basic
import DocComment.Form.Accept

/-!
# Reading by rules

What the rules of the grammar are made of: expecting a token, passing over blanks, collecting the
text of tokens, asking for a form, and trying one rule before another. A rule that is tried and
refused leaves no trace but the buffer: the position and the peek go back to where it began, while
the tokens it has seen stay buffered and a fault it has met stays met.
-/

namespace DocComment.Grammar

open Cursor (current moveNext isAt loop)
open Reading (refuse)

/-- Takes the token at the position, which must be of a kind. -/
def expect (kind : Kind) : Reading Token := do
  match ← current with
  | none => refuse .unexpectedEnd
  | some token =>
    if token.kind = kind then
      let _ ← moveNext
      return token
    else refuse (.unexpectedToken token)

/-- Takes a token of a kind for its place alone. -/
def pass (kind : Kind) : Reading Unit := do
  let _ ← expect kind

def skipBlanks : Reading Unit := Cursor.skipWhile .whitespace

/-- Where a first rule is refused, goes back and reads by a second. -/
def tryElse {α : Type} (first second : Reading α) : Reading α := fun c =>
  match first c with
  | .error (.syntaxError _) after =>
    second { after with position := c.position, peek := c.position }
  | result => result

theorem tryElse_of_ok {α : Type} {first second : Reading α} {a : α} {c after : Cursor}
    (h : first c = .ok a after) : tryElse first second c = .ok a after := by
  simp [tryElse, h]

/-- A refused rule gives its place back, and nothing else. -/
theorem tryElse_of_refused {α : Type} {first second : Reading α} {e : SyntaxError}
    {c after : Cursor} (h : first c = .error (.syntaxError e) after) :
    tryElse first second c =
      second { after with position := c.position, peek := c.position } := by
  simp [tryElse, h]

/-- Reads by a rule, or takes a default where it is refused. -/
def attempt {α : Type} (rule : Reading α) (default : α) : Reading α := tryElse rule (pure default)

/-- The offset of the token at the position, or the end of the text. -/
def currentOffset : Reading Nat := do
  let c ← get
  return (← current).elim c.source.length (·.offset)

def collectRound (accept : Kind → Bool) (collected : Text) : Reading (Round Text Text) := do
  match ← current with
  | none => return .done collected
  | some token =>
    if accept token.kind then
      let _ ← moveNext
      return .again (collected ++ token.text)
    else return .done collected

/-- The text of the tokens at the position whose kinds are accepted, and where it begins. -/
def collect (accept : Kind → Bool) : Reading (Text × Nat) := do
  let start ← currentOffset
  return (← loop (collectRound accept) [], start)

/-- A text that must have a form. -/
def require (form : Form) (text : Text) (offset : Nat) : Reading Text :=
  if form.accepts text then pure text else refuse (.malformed form text offset)

def collectForm (form : Form) (accept : Kind → Bool) : Reading Text := do
  let (text, offset) ← collect accept
  require form text offset

end DocComment.Grammar
