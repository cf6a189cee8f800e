import DocComment.Grammar.Description
import DocComment.Grammar.Type

/-!
# Block tags

A block tag is its name, what that name wants, and for most names a description. Types may be left
out where a tag has a default for them, and so may the version of a deprecation: a text that does
not read as one belongs to what follows.
-/

namespace DocComment.Grammar

open Cursor (current moveNext isAt loop)
open Reading (refuse)

/-- A name, and an email address in angle brackets if there is one. -/
def author : Reading Author := do
  let (name, _) ← collect fun kind => !(kind.isTag || kind ∈ [.leftAngle, .outro])
  if ← isAt .leftAngle then
    pass .leftAngle
    let (text, offset) ← collect (· ≠ .rightAngle)
    if (← current).isNone then refuse .unexpectedEnd
    let email ← require .email (Text.strip text) offset
    pass .rightAngle
    return ⟨Text.strip name, email⟩
  else return ⟨Text.strip name, []⟩

/-- A type that may be left out, and the blanks behind it. -/
def typeOr (default : String) : Reading Text := attempt leadingType default.toList

def optionalVariable : Reading Text := do
  if ← isAt .dollar then variableName else return []

def argument : Reading TypedName := do
  let type ← attempt (typeName false) "mixed".toList
  skipBlanks
  let name ← variableName
  skipBlanks
  return ⟨type, name⟩

/-- One round of reading arguments; a comma goes on, even to none. -/
def argumentsRound (arguments : List TypedName) :
    Reading (Round (List TypedName) (List TypedName)) := do
  match ← current with
  | none => return .done arguments
  | some token =>
    if token.kind = .rightParen then return .done arguments
    else
      let arguments := arguments ++ [← argument]
      if ← isAt .comma then
        pass .comma
        skipBlanks
        return .again arguments
      else return .done arguments

/-- The name of a method and the opening parenthesis, if there is one. The parenthesis is taken
before the name is judged. -/
def methodName : Reading Text := do
  let (name, offset) ← collect (· ≠ .leftParen)
  if ← isAt .leftParen then pass .leftParen
  require .method name offset

def signature : Reading Signature := do
  let returnType ← typeOr "void"
  let name ← methodName
  skipBlanks
  let arguments ← loop argumentsRound []
  pass .rightParen
  return { returnType, name, arguments }

/-- A type that may be left out and a variable. -/
def property (access : Access) : Reading Property := do
  let type ← typeOr "mixed"
  let name ← variableName
  return { type, name, access }

/-- A type and a variable that may both be left out. -/
def typedName : Reading TypedName := do
  let type ← typeOr "mixed"
  let name ← optionalVariable
  return { type, name }

/-- What the name of a tag wants, up to its description. -/
def content : TagName → Reading Content
  | .api => return .api
  | .author => .author <$> author
  | .copyright => return .copyright
  | .deprecated => .deprecated <$> attempt version []
  | .inheritDoc => return .inheritDoc
  | .internal => return .internal
  | .link => .link <$> link
  | .method => .method <$> signature
  | .package => .package <$> className
  | .param => .param <$> typedName
  | .property => .property <$> property ⟨true, true⟩
  | .propertyRead => .property <$> property ⟨true, false⟩
  | .propertyWrite => .property <$> property ⟨false, true⟩
  | .returns => .returns <$> typeName false
  | .see => .see <$> reference
  | .since => .since <$> version
  | .throws => .throws <$> className
  | .todo => return .todo
  | .uses => .uses <$> usage
  | .usedBy => .usedBy <$> usage
  | .var => .var <$> typedName
  | .version => .version <$> version

/-- The tag has no description. -/
def isBare : TagName → Bool
  | .api | .author | .inheritDoc | .package => true
  | _ => false

def blockTag (name : TagName) : Reading Tag := do
  pass (.tag name)
  skipBlanks
  let content ← content name
  if isBare name then return { content }
  else
    skipBlanks
    let (description, inlineTags) ← description
    return { content, description := Text.strip description, inlineTags }

end DocComment.Grammar
