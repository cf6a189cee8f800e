import DocComment.Grammar.Basic

/-!
# Names, versions and references

The rules that collect one text and ask for its form. They differ in the tokens at which the text
ends: a name ends at the first token that cannot belong to it, a word at a blank or at the closing
delimiter, a link also at a closing brace, and a file at a blank only.
-/

namespace DocComment.Grammar

open Cursor (current moveNext isAt loop)
open Reading (refuse)

/-- The kinds that may belong to a word. -/
def inWord (kind : Kind) : Bool := kind ∉ [.whitespace, .outro]

def className : Reading Text := collectForm .type (· ∈ [.string, .backslash])

/-- A variable, which begins with a dollar sign. -/
def variableName : Reading Text := do
  let dollar ← expect .dollar
  let (name, _) ← collect (· = .string)
  require .variable ('$' :: name) dollar.offset

def link : Reading Text := collectForm .link (· ∉ [.whitespace, .outro, .rightBrace])

def element : Reading Text := collectForm .element inWord

def file : Reading Text := collectForm .file (· ≠ .whitespace)

/-- One round of reading what a version-control system writes between dollar signs. -/
def systemRound (collected : Text) : Reading (Round Text Text) := do
  match ← current with
  | none => refuse .unexpectedEnd
  | some token =>
    let collected := collected ++ token.text
    if token.kind = .dollar then
      pass .dollar
      return .done collected
    else
      let _ ← moveNext
      return .again collected

/-- A version. One that ends in a colon goes on up to the second dollar sign after it. -/
def version : Reading Text := do
  let head ← collectForm .version inWord
  if head.getLast? = some ':' then
    skipBlanks
    pass .dollar
    loop systemRound (head ++ " $".toList)
  else return head

/-- What can be looked up: a link, or else an element. -/
def reference : Reading Text := tryElse link element

/-- What can be used: a link, or else an element, or else a file. -/
def usage : Reading Text := tryElse link (tryElse element file)

end DocComment.Grammar
