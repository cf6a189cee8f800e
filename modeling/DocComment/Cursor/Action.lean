import DocComment.Cursor.Basic

/-!
# What can be asked of a cursor

The actions on a cursor as data, so that a sequence of them can be performed one by one. An action
that fails leaves the cursor where the failure arose, and the next one goes on from there.
-/

namespace DocComment.Cursor

/-- What can be asked of a cursor. -/
inductive Action where
  | current
  | moveNext
  | moveTo (place : Int)
  | isAt (kind : Kind)
  | isAtAny (kinds : List Kind)
  | skipWhile (kind : Kind)
  | skipUntil (kind : Kind)
  | peekNext
  | peekReset
  | peekTo (place : Int)
  | peekPast (kinds : List Kind)
  | peekUntil (kinds : List Kind)
  | all
deriving Repr

inductive Answer where
  | nothing
  | token (found : Option Token)
  | flag (value : Bool)
  | tokens (all : List Token)
deriving DecidableEq, Repr

def perform : Action → Reading Answer
  | .current => .token <$> Cursor.current
  | .moveNext => .flag <$> Cursor.moveNext
  | .moveTo place => do Cursor.moveTo place; return .nothing
  | .isAt kind => .flag <$> Cursor.isAt kind
  | .isAtAny kinds => .flag <$> currentIs (· ∈ kinds)
  | .skipWhile kind => do Cursor.skipWhile kind; return .nothing
  | .skipUntil kind => do Cursor.skipUntil kind; return .nothing
  | .peekNext => .token <$> Cursor.peekNext
  | .peekReset => do Cursor.peekReset; return .nothing
  | .peekTo place => do Cursor.peekTo place; return .nothing
  | .peekPast kinds => .token <$> Cursor.peekPast (· ∈ kinds)
  | .peekUntil kinds => .token <$> Cursor.peekPast (· ∉ kinds)
  | .all => .tokens <$> Cursor.all

end DocComment.Cursor
