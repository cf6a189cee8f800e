import DocComment.Grammar.Comment

/-!
# How the rules are put together

Every rule of the grammar is put together from a few operations on cursors by sequence, loops, and
trying one reading before another. A `Walk P S` has a clause for each of these, so it leads from the
operations to every rule: `S` holds of the rule, or is made for it. A reading that is tried before
another must be in `P`.

This is the only module that repeats the structure of the rules and nothing else of them. What a
property of the rules says of their structure alone is told by its clauses.
-/

namespace DocComment.Grammar

/-- A clause for each way to put a reading together. -/
structure Walk.{u} (P : {α : Type} → Reading α → Prop) (S : {α : Type} → Reading α → Sort u) where
  pure : ∀ {α : Type} (a : α), S (Pure.pure a : Reading α)
  refuse : ∀ {α : Type} (cause : Cause), S (Reading.refuse cause : Reading α)
  stalled : ∀ {α : Type}, S (throw .stalled : Reading α)
  current : S Cursor.current
  moveNext : S Cursor.moveNext
  peekReset : S Cursor.peekReset
  peekPast : ∀ test, S (Cursor.peekPast test)
  get : ∀ {α : Type} {f : Cursor → Reading α}, (∀ c, S (f c)) → S (MonadState.get >>= f)
  bind : ∀ {α β : Type} {r : Reading α} {f : α → Reading β}, S r → (∀ a, S (f a)) → S (r >>= f)
  tryElse : ∀ {α : Type} {r q : Reading α}, P r → S r → S q → S (tryElse r q)
  iterate : ∀ {α β : Type} {round : β → Reading (Round β α)}, (∀ b, S (round b)) → ∀ n b,
    S (Reading.iterate round n b)

/-- The rules that the content of a tag tries before another. -/
def speculations : TagName → List (Reading Text)
  | .deprecated => [version]
  | .method => [leadingType, typeName false]
  | .param | .property | .propertyRead | .propertyWrite | .var => [leadingType]
  | .see => [link]
  | .uses | .usedBy => [link, element]
  | _ => []

namespace Walk

universe u

variable {P : {α : Type} → Reading α → Prop} {S : {α : Type} → Reading α → Sort u} (w : Walk @P @S)
  {α β : Type}

def map {r : Reading α} (g : α → β) (first : S r) : S (g <$> r) :=
  w.bind first fun a => w.pure (g a)

def isAt (kind : Kind) : S (Cursor.isAt kind) := w.bind w.current fun _ => w.pure _

def loop {round : β → Reading (Round β α)} (rounds : ∀ b, S (round b)) (b : β) :
    S (Cursor.loop round b) :=
  w.get fun _ => w.iterate rounds _ b

omit w in
def ite {p : Prop} [decision : Decidable p] {r q : Reading α} (first : S r) (second : S q) :
    S (if p then r else q) :=
  match decision with
  | .isTrue _ => first
  | .isFalse _ => second

/-! ## What rules are made of -/

def expect (kind : Kind) : S (Grammar.expect kind) :=
  w.bind w.current fun
    | none => w.refuse _
    | some t => ite (w.bind w.moveNext fun _ => w.pure t) (w.refuse _)

def pass (kind : Kind) : S (Grammar.pass kind) := w.bind (w.expect kind) fun _ => w.pure ()

def skipWhileRound (kind : Kind) (b : Unit) : S (Cursor.skipWhileRound kind b) :=
  w.bind (w.isAt kind) fun _ => ite (w.bind w.moveNext fun _ => w.pure _) (w.pure _)

def skipBlanks : S Grammar.skipBlanks := w.loop (w.skipWhileRound .whitespace) ()

def collectRound (accept : Kind → Bool) (collected : Text) :
    S (Grammar.collectRound accept collected) :=
  w.bind w.current fun
    | none => w.pure _
    | some _ => ite (w.bind w.moveNext fun _ => w.pure _) (w.pure _)

def currentOffset : S Grammar.currentOffset := w.get fun _ => w.bind w.current fun _ => w.pure _

def collect (accept : Kind → Bool) : S (Grammar.collect accept) :=
  w.bind w.currentOffset fun _ => w.bind (w.loop (w.collectRound accept) []) fun _ => w.pure _

def require (form : Form) (text : Text) (offset : Nat) : S (Grammar.require form text offset) :=
  ite (w.pure _) (w.refuse _)

def collectForm (form : Form) (accept : Kind → Bool) : S (Grammar.collectForm form accept) :=
  w.bind (w.collect accept) fun _ => w.require _ _ _

/-! ## Names, versions and references -/

def className : S Grammar.className := w.collectForm _ _

def variableName : S Grammar.variableName :=
  w.bind (w.expect .dollar) fun _ => w.bind (w.collect _) fun _ => w.require _ _ _

def link : S Grammar.link := w.collectForm _ _

def element : S Grammar.element := w.collectForm _ _

def file : S Grammar.file := w.collectForm _ _

def systemRound (collected : Text) : S (Grammar.systemRound collected) :=
  w.bind w.current fun
    | none => w.refuse _
    | some _ =>
      ite (w.bind (w.pass .dollar) fun _ => w.pure _) (w.bind w.moveNext fun _ => w.pure _)

def version : S Grammar.version :=
  w.bind (w.collectForm _ _) fun _ =>
    ite (w.bind w.skipBlanks fun _ => w.bind (w.pass .dollar) fun _ => w.loop w.systemRound _)
      (w.pure _)

def reference (hlink : P Grammar.link) : S Grammar.reference := w.tryElse hlink w.link w.element

def usage (hlink : P Grammar.link) (helement : P Grammar.element) : S Grammar.usage :=
  w.tryElse hlink w.link (w.tryElse helement w.element w.file)

/-! ## Types -/

def selfType : S Grammar.selfType :=
  w.bind (w.pass .dollar) fun _ => w.bind w.current fun
    | none => w.refuse _
    | some _ => ite (w.bind w.moveNext fun _ => w.pure _) (w.refuse _)

def typeOperand {inner : Reading Text} (within : S inner) : S (Grammar.typeOperand inner) :=
  w.bind w.current fun
    | none => w.refuse _
    | some ⟨kind, _, _⟩ => by
      cases kind
      case leftParen => exact within
      case dollar => exact w.selfType
      case backslash => exact w.className
      case string => exact w.className
      all_goals exact w.refuse _

def bracketsRound (collected : Text) : S (Grammar.bracketsRound collected) :=
  w.bind (w.isAt .leftBracket) fun _ =>
    ite (w.bind (w.pass .leftBracket) fun _ => w.bind (w.pass .rightBracket) fun _ => w.pure _)
      (w.pure _)

def typeRound {inner : Reading Text} (within : S inner) (nested : Bool) (collected : Text) :
    S (Grammar.typeRound inner nested collected) :=
  w.bind (w.typeOperand within) fun _ => w.bind (w.loop w.bracketsRound _) fun _ =>
    w.bind w.current fun
      | none => w.pure _
      | some _ => ite (w.pure _) (ite (w.bind w.moveNext fun _ => w.pure _) (w.refuse _))

def typeBelow : (depth : Nat) → (nested : Bool) → S (Grammar.typeBelow depth nested)
  | 0, _ => w.stalled
  | depth + 1, false => w.loop (w.typeRound (typeBelow depth true) false) []
  | depth + 1, true =>
    w.bind (w.pass .leftParen) fun _ =>
      w.bind (w.loop (w.typeRound (typeBelow depth true) true) []) fun _ =>
        w.bind (w.pass .rightParen) fun _ => w.pure _

def typeName (nested : Bool) : S (Grammar.typeName nested) := w.get fun _ => w.typeBelow _ nested

def leadingType : S Grammar.leadingType :=
  w.bind (w.typeName false) fun _ => w.bind w.skipBlanks fun _ => w.pure _

/-! ## Descriptions -/

def openInline (name : TagName) : S (Grammar.openInline name) :=
  w.bind (w.pass .leftBrace) fun _ => w.bind w.skipBlanks fun _ =>
    w.bind (w.pass (.tag name)) fun _ => w.skipBlanks

def inlineTag {inner : Reading Prose} (within : S inner) (kind : Kind) :
    S (Grammar.inlineTag inner kind) := by
  cases kind
  case tag name =>
    cases name
    case inheritDoc =>
      exact w.bind (w.openInline _) fun _ => w.bind (w.pass .rightBrace) fun _ => w.pure _
    case internal =>
      exact w.bind (w.openInline _) fun _ => w.bind within fun _ =>
        w.bind (w.pass .rightBrace) fun _ => w.pure _
    case link =>
      exact w.bind (w.openInline _) fun _ => w.bind w.link fun _ => w.bind w.skipBlanks fun _ =>
        w.bind within fun _ => w.bind (w.pass .rightBrace) fun _ => w.pure _
    all_goals exact w.pure none
  all_goals exact w.pure none

def inlineTagHere {inner : Reading Prose} (within : S inner) (kind : Kind) :
    S (Grammar.inlineTagHere inner kind) :=
  ite
    (w.bind w.peekReset fun _ => w.bind (w.peekPast _) fun
      | none => w.pure _
      | some next => w.inlineTag within next.kind)
    (w.pure _)

def descriptionRound {inner : Reading Prose} (within : S inner) (braced : Bool) (prose : Prose) :
    S (Grammar.descriptionRound inner braced prose) :=
  w.bind w.current fun
    | none => w.refuse _
    | some token => ite (w.pure _) (w.bind (w.inlineTagHere within token.kind) fun
      | some _ => w.pure _
      | none => w.bind w.moveNext fun _ => w.pure _)

def descriptionBelow : (depth : Nat) → (braced : Bool) → S (Grammar.descriptionBelow depth braced)
  | 0, _ => w.stalled
  | depth + 1, braced => w.loop (w.descriptionRound (descriptionBelow depth true) braced) _

def description : S Grammar.description := w.get fun _ => w.descriptionBelow _ false

/-! ## Block tags -/

def author : S Grammar.author :=
  w.bind (w.collect _) fun _ => w.bind (w.isAt .leftAngle) fun _ =>
    ite
      (w.bind (w.pass .leftAngle) fun _ => w.bind (w.collect _) fun _ => w.bind w.current fun _ =>
        ite (w.refuse _)
          (w.bind (w.require _ _ _) fun _ => w.bind (w.pass .rightAngle) fun _ => w.pure _))
      (w.pure _)

def typeOr (htype : P Grammar.leadingType) (default : String) : S (Grammar.typeOr default) :=
  w.tryElse htype w.leadingType (w.pure _)

def optionalVariable : S Grammar.optionalVariable :=
  w.bind (w.isAt .dollar) fun _ => ite w.variableName (w.pure _)

def argument (htype : P (Grammar.typeName false)) : S Grammar.argument :=
  w.bind (w.tryElse htype (w.typeName false) (w.pure _)) fun _ => w.bind w.skipBlanks fun _ =>
    w.bind w.variableName fun _ => w.bind w.skipBlanks fun _ => w.pure _

def argumentsRound (htype : P (Grammar.typeName false)) (arguments : List TypedName) :
    S (Grammar.argumentsRound arguments) :=
  w.bind w.current fun
    | none => w.pure _
    | some _ => ite (w.pure _) (w.bind (w.argument htype) fun _ => w.bind (w.isAt .comma) fun _ =>
      ite (w.bind (w.pass .comma) fun _ => w.bind w.skipBlanks fun _ => w.pure _) (w.pure _))

def methodName : S Grammar.methodName :=
  w.bind (w.collect _) fun _ => w.bind (w.isAt .leftParen) fun _ =>
    ite (w.bind (w.pass .leftParen) fun _ => w.require _ _ _) (w.require _ _ _)

def signature (hlead : P Grammar.leadingType) (htype : P (Grammar.typeName false)) :
    S Grammar.signature :=
  w.bind (w.typeOr hlead "void") fun _ => w.bind w.methodName fun _ => w.bind w.skipBlanks fun _ =>
    w.bind (w.loop (w.argumentsRound htype) []) fun _ =>
      w.bind (w.pass .rightParen) fun _ => w.pure _

def property (htype : P Grammar.leadingType) (access : Access) : S (Grammar.property access) :=
  w.bind (w.typeOr htype "mixed") fun _ => w.bind w.variableName fun _ => w.pure _

def typedName (htype : P Grammar.leadingType) : S Grammar.typedName :=
  w.bind (w.typeOr htype "mixed") fun _ => w.bind w.optionalVariable fun _ => w.pure _

def content (name : TagName) (h : ∀ rule ∈ speculations name, P rule) :
    S (Grammar.content name) := by
  cases name
  case author => exact w.map _ w.author
  case deprecated => exact w.map _ (w.tryElse (h _ (.head _)) w.version (w.pure _))
  case link => exact w.map _ w.link
  case method => exact w.map _ (w.signature (h _ (.head _)) (h _ (.tail _ (.head _))))
  case package => exact w.map _ w.className
  case param => exact w.map _ (w.typedName (h _ (.head _)))
  case property => exact w.map _ (w.property (h _ (.head _)) _)
  case propertyRead => exact w.map _ (w.property (h _ (.head _)) _)
  case propertyWrite => exact w.map _ (w.property (h _ (.head _)) _)
  case returns => exact w.map _ (w.typeName false)
  case see => exact w.map _ (w.reference (h _ (.head _)))
  case since => exact w.map _ w.version
  case throws => exact w.map _ w.className
  case uses => exact w.map _ (w.usage (h _ (.head _)) (h _ (.tail _ (.head _))))
  case usedBy => exact w.map _ (w.usage (h _ (.head _)) (h _ (.tail _ (.head _))))
  case var => exact w.map _ (w.typedName (h _ (.head _)))
  case version => exact w.map _ w.version
  all_goals exact w.pure _

def blockTag (name : TagName) (h : ∀ rule ∈ speculations name, P rule) :
    S (Grammar.blockTag name) :=
  w.bind (w.pass (.tag name)) fun _ => w.bind w.skipBlanks fun _ =>
    w.bind (w.content name h) fun _ =>
      ite (w.pure _) (w.bind w.skipBlanks fun _ => w.bind w.description fun _ => w.pure _)

/-! ## Comments -/

section Comment

variable (h : ∀ name, ∀ rule ∈ speculations name, P rule)

def blockTagsRound (document : Document) : S (Grammar.blockTagsRound document) :=
  w.bind w.current fun
    | none => w.pure _
    | some ⟨kind, _, _⟩ => by
      cases kind
      case tag name =>
        exact w.bind (w.blockTag name (h name)) fun _ => w.bind w.skipBlanks fun _ => w.pure _
      all_goals exact w.pure _

def comment : S Grammar.comment :=
  w.bind w.skipBlanks fun _ => w.bind (w.pass .intro) fun _ => w.bind w.skipBlanks fun _ =>
    w.bind w.description fun _ => w.bind (w.loop (w.blockTagsRound h) _) fun _ =>
      w.bind (w.pass .outro) fun _ => w.bind w.skipBlanks fun _ =>
        w.bind (w.pass .endOfText) fun _ => w.pure _

end Comment

end Walk

end DocComment.Grammar
