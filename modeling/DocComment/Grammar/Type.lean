import DocComment.Grammar.Reference

/-!
# Types

A type is one or more operands with bars and ampersands between them. An operand is a class name,
the word `$this`, or a type in parentheses, and any number of bracket pairs may follow it. Outside
parentheses a type ends at a blank, at the closing delimiter, or with the tokens; inside, only
the closing parenthesis ends it.
-/

namespace DocComment.Grammar

open Cursor (current moveNext isAt loop)
open Reading (refuse)

/-- The word `$this`, from its dollar sign on. -/
def selfType : Reading Text := do
  pass .dollar
  match ← current with
  | none => refuse .unexpectedEnd
  | some token =>
    if token.text = "this".toList then
      let _ ← moveNext
      return "$this".toList
    else refuse (.unexpectedToken token)

/-- An operand without its brackets; `inner` reads a type in parentheses. -/
def typeOperand (inner : Reading Text) : Reading Text := do
  match ← current with
  | none => refuse .unexpectedEnd
  | some token =>
    match token.kind with
    | .leftParen => inner
    | .dollar => selfType
    | .backslash | .string => className
    | _ => refuse (.unexpectedToken token)

def bracketsRound (collected : Text) : Reading (Round Text Text) := do
  if ← isAt .leftBracket then
    pass .leftBracket
    pass .rightBracket
    return .again (collected ++ "[]".toList)
  else return .done collected

def endsType (nested : Bool) (kind : Kind) : Bool :=
  !inWord kind || (nested && kind = .rightParen)

/-- One round of reading a type: an operand, its brackets, and the sign behind them. -/
def typeRound (inner : Reading Text) (nested : Bool) (collected : Text) :
    Reading (Round Text Text) := do
  let operand ← typeOperand inner
  let collected ← loop bracketsRound (collected ++ operand)
  match ← current with
  | none => return .done collected
  | some token =>
    if endsType nested token.kind then return .done collected
    else if token.kind = .ampersand ∨ token.kind = .pipe then
      let _ ← moveNext
      return .again (collected ++ token.text)
    else refuse (.unexpectedToken token)

/-- A type whose parentheses are nested less deep than a bound. -/
def typeBelow : (depth : Nat) → (nested : Bool) → Reading Text
  | 0, _ => throw .stalled
  | depth + 1, false => loop (typeRound (typeBelow depth true) false) []
  | depth + 1, true => do
    pass .leftParen
    let body ← loop (typeRound (typeBelow depth true) true) []
    pass .rightParen
    return '(' :: body ++ [')']

/-- A type, in parentheses if it is nested. Every level of parentheses takes a token, so the tokens
ahead bound their depth. -/
def typeName (nested : Bool) : Reading Text := do
  let c ← get
  typeBelow (c.ahead c.position + 1) nested

/-- A type and the blanks behind it. -/
def leadingType : Reading Text := do
  let name ← typeName false
  skipBlanks
  return name

end DocComment.Grammar
