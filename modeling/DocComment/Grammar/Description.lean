import DocComment.Document.Tag
import DocComment.Grammar.Reference

/-!
# Descriptions

A description runs up to the next tag or the closing delimiter, and within braces up to the closing
brace. A brace that opens an inline tag is read as that tag, and the placeholder of its index takes
its place; any other brace is text.
-/

namespace DocComment.Grammar

open Cursor (current moveNext loop)
open Reading (refuse)

/-- Text, and the inline tags whose placeholders stand in it. -/
abbrev Prose := Text × List Tag

/-- The opening brace and the name of an inline tag. -/
def openInline (name : TagName) : Reading Unit := do
  pass .leftBrace
  skipBlanks
  pass (.tag name)
  skipBlanks

/-- The inline tag that a token after a brace announces, if it does; `inner` reads a description
within braces. -/
def inlineTag (inner : Reading Prose) : Kind → Reading (Option Tag)
  | .tag .inheritDoc => do
    openInline .inheritDoc
    pass .rightBrace
    return some { content := .inheritDoc }
  | .tag .internal => do
    openInline .internal
    let (description, inlineTags) ← inner
    pass .rightBrace
    return some { content := .internal, description := Text.strip description, inlineTags }
  | .tag .link => do
    openInline .link
    let target ← link
    skipBlanks
    let (description, inlineTags) ← inner
    pass .rightBrace
    return some { content := .link target, description := Text.strip description, inlineTags }
  | _ => return none

def endsDescription (braced : Bool) (kind : Kind) : Bool :=
  kind.isTag || kind = .outro || (braced && kind = .rightBrace)

/-- The inline tag that begins at the position, if one does. -/
def inlineTagHere (inner : Reading Prose) (kind : Kind) : Reading (Option Tag) := do
  if kind = .leftBrace then
    Cursor.peekReset
    match ← Cursor.peekPast (· = .whitespace) with
    | none => return none
    | some next => inlineTag inner next.kind
  else return none

def descriptionRound (inner : Reading Prose) (braced : Bool) (prose : Prose) :
    Reading (Round Prose Prose) := do
  match ← current with
  | none => refuse .unexpectedEnd
  | some token =>
    if endsDescription braced token.kind then return .done prose
    else
      match ← inlineTagHere inner token.kind with
      | some tag => return .again (prose.1 ++ placeholder prose.2.length, prose.2 ++ [tag])
      | none =>
        let _ ← moveNext
        return .again (prose.1 ++ token.text, prose.2)

/-- A description whose inline tags are nested less deep than a bound. -/
def descriptionBelow : (depth : Nat) → (braced : Bool) → Reading Prose
  | 0, _ => throw .stalled
  | depth + 1, braced => loop (descriptionRound (descriptionBelow depth true) braced) ([], [])

/-- A description that ends at a tag or at the closing delimiter. Every level of inline tags takes a
token, so the tokens ahead bound their depth. -/
def description : Reading Prose := do
  let c ← get
  descriptionBelow (c.ahead c.position + 1) false

end DocComment.Grammar
