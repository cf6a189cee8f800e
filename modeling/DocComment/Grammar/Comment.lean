import DocComment.Document.Basic
import DocComment.Grammar.BlockTag

/-!
# Comments

A comment is the opening delimiter, a description, block tags and the closing delimiter, with
nothing behind it. `Document.parse` reads a whole text as a comment; a blank text is the empty
document.
-/

namespace DocComment

namespace Grammar

open Cursor (current loop)

def blockTagsRound (document : Document) : Reading (Round Document Document) := do
  match ← current with
  | some { kind := .tag name, .. } =>
    let tag ← blockTag name
    skipBlanks
    return .again (document.insert tag)
  | _ => return .done document

def comment : Reading Document := do
  skipBlanks
  pass .intro
  skipBlanks
  let (text, inlineTags) ← description
  let document ← loop blockTagsRound { description := Text.strip text, inlineTags }
  pass .outro
  skipBlanks
  pass .endOfText
  return document

/-- The rules for one text that can be read by themselves. -/
inductive Rule where
  | type | nestedType | className | variable | version | link | element
deriving DecidableEq, Repr

def Rule.read : Rule → Reading Text
  | .type => typeName false
  | .nestedType => typeName true
  | .className => Grammar.className
  | .variable => variableName
  | .version => Grammar.version
  | .link => Grammar.link
  | .element => Grammar.element

end Grammar

/-- Runs a reading from the first token of a text. -/
def Reading.onText {α : Type} (reading : Reading α) (source : Text) : Except Failure α :=
  match reading (Cursor.ofText source) with
  | .ok result _ => .ok result
  | .error failure _ => .error failure

/-- The document of a text, blanks at its ends left aside. -/
def Document.parse (text : Text) : Except Failure Document :=
  let comment := Text.strip text
  if comment = [] then .ok {} else Grammar.comment.onText comment

end DocComment
