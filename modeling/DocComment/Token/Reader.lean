import DocComment.Token.Raw

/-!
# A reader over raw tokens

A reader stands at an index of the raw tokens of a text and is moved by hand. A token is taken off
the text when it is asked for and not before, and is kept from then on. The reader may be put at any
index; past the last token there is none to read, and it does not move on from there.
-/

namespace DocComment.Token

/-- The raw token at the head of a text, and what is left of the text behind it with its offset.
Nothing is left behind the mark of the end. -/
def take (offset : Nat) : Text → Token × Option (Nat × Text)
  | [] => (⟨.endOfText, [], offset⟩, none)
  | c :: rest =>
    let token := first offset c rest
    (token, some (offset + token.text.length, (c :: rest).drop token.text.length))

/-- The tokens taken so far, what is left of the text with its offset, and the index that
is read. -/
structure Reader where
  buffer : Array Token := #[]
  pending : Option (Nat × Text)
  index : Nat := 0

namespace Reader

inductive Action where
  | current
  | moveNext
  | moveTo (index : Int)
  | restart
  | all
deriving DecidableEq, Repr

inductive Answer where
  | nothing
  | token (found : Option Token)
  | flag (value : Bool)
  | tokens (all : List Token)
deriving DecidableEq, Repr

def ofText (source : Text) : Reader := { pending := some (0, source) }

/-- Takes as many tokens off the text as are given, or all that are left. -/
def fill : Nat → Reader → Reader
  | 0, r => r
  | n + 1, r =>
    match r.pending with
    | none => r
    | some (offset, s) =>
      let (token, pending) := take offset s
      fill n { r with buffer := r.buffer.push token, pending }

/-- The token at the index, if there is one. -/
def current (r : Reader) : Option Token × Reader :=
  let r := r.fill (r.index + 1 - r.buffer.size)
  (r.buffer[r.index]?, r)

/-- Passes the token at the index, if there is one, and says whether there is one behind it. -/
def moveNext (r : Reader) : Bool × Reader :=
  let (found, r) := r.current
  let (found, r) := current (if found.isSome then { r with index := r.index + 1 } else r)
  (found.isSome, r)

/-- All tokens. There are at most as many to come as characters, and the mark of the end. -/
def all (r : Reader) : List Token × Reader :=
  let r := r.fill (r.pending.elim 0 (·.2.length + 1))
  (r.buffer.toList, r)

def perform (r : Reader) : Action → Answer × Reader
  | .current => (.token r.current.1, r.current.2)
  | .moveNext => (.flag r.moveNext.1, r.moveNext.2)
  | .moveTo index => (.nothing, { r with index := index.toNat })
  | .restart => (.nothing, { r with index := 0 })
  | .all => (.tokens r.all.1, r.all.2)

end Reader

end DocComment.Token
