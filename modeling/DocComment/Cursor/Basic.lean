import DocComment.Screening

/-!
# Cursors over screened tokens

A cursor holds the screened tokens that were asked for so far and the items still to come, and two
places: the position, which reading moves, and the peek, which looks ahead. Asking for a token
beyond the buffer fills it. A fault that is met on the way is reported once and is then gone, with
the buffer and both places as they were: who reads on meets the token behind it.

A negative place counts from the end of the buffer as it is at that moment, and fills nothing. This
makes the buffer visible to whoever sets such a place, and to nobody else.
-/

namespace DocComment

/-- A reader's state: buffered tokens, items to come, the position and the peek. -/
structure Cursor where
  source : Text
  buffer : Array Token := #[]
  pending : List Screening.Item
  position : Int := 0
  peek : Int := 0
deriving Repr

/-- A computation that reads from a cursor. A failure keeps the cursor where it arose. -/
abbrev Reading := EStateM Failure Cursor

/-- The outcome of one round of a loop: go on, or finish with a result. -/
inductive Round (β α : Type) where
  | again (next : β)
  | done (result : α)

namespace Reading

/-- Ends a reading with a syntax error in the comment that is read. -/
def refuse {α : Type} (cause : Cause) : Reading α := fun c =>
  .error (.syntaxError ⟨cause, c.source⟩) c

/-- Runs the rounds of a loop, at most as many as given. -/
def iterate {β α : Type} (round : β → Reading (Round β α)) : Nat → β → Reading α
  | 0, _ => throw .stalled
  | n + 1, b => do
    match ← round b with
    | .again next => iterate round n next
    | .done result => pure result

variable {α β : Type} {round : β → Reading (Round β α)} {b : β} {c after : Cursor}

theorem iterate_done {result : α} (h : round b c = .ok (.done result) after) (n : Nat) :
    iterate round (n + 1) b c = .ok result after := by
  simp [iterate, bind, EStateM.bind, h, pure, EStateM.pure]

theorem iterate_again {next : β} (h : round b c = .ok (.again next) after) (n : Nat) :
    iterate round (n + 1) b c = iterate round n next after := by
  simp [iterate, bind, EStateM.bind, h]

theorem iterate_error {failure : Failure} (h : round b c = .error failure after) (n : Nat) :
    iterate round (n + 1) b c = .error failure after := by
  simp [iterate, bind, EStateM.bind, h]

end Reading

namespace Cursor

def ofText (source : Text) : Cursor := { source, pending := Screening.items source }

/-- The number of items from a place to the end, buffered or not. Each round of a loop that passes a
token makes it smaller, so it bounds the rounds that follow. -/
def ahead (c : Cursor) (place : Int) : Nat :=
  ((c.buffer.size + c.pending.length : Nat) - place).toNat

/-- Fills a buffer until an index lies in it, nothing is left to come, or a fault is met. -/
def fill (index : Nat) (buffer : Array Token) :
    List Screening.Item → Array Token × List Screening.Item × Option Cause
  | [] => (buffer, [], none)
  | item :: pending =>
    if index < buffer.size then (buffer, item :: pending, none)
    else match item with
      | .token token => fill index (buffer.push token) pending
      | .fault cause => (buffer, pending, some cause)

/-- The token at a place, if there is one. -/
def fetch : Int → Reading (Option Token)
  | .ofNat index => fun c =>
    match fill index c.buffer c.pending with
    | (buffer, pending, fault) =>
      let filled := { c with buffer, pending }
      match fault with
      | some cause => Reading.refuse cause filled
      | none => .ok buffer[index]? filled
  | .negSucc back => fun c =>
    if back < c.buffer.size then .ok c.buffer[c.buffer.size - 1 - back]? c
    else .error .outOfRange c

def current : Reading (Option Token) := do fetch (← get).position

/-- Passes the token at the position, if there is one, and says whether there is one behind it. The
peek follows. -/
def moveNext : Reading Bool := do
  if (← current).isSome then modify fun c => { c with position := c.position + 1 }
  modify fun c => { c with peek := c.position }
  return (← current).isSome

def moveTo (place : Int) : Reading Unit :=
  modify fun c => { c with position := place, peek := place }

def currentIs (test : Kind → Bool) : Reading Bool := do
  return (← current).any (test ·.kind)

def isAt (kind : Kind) : Reading Bool := currentIs (· = kind)

/-- Runs a loop that moves the position. -/
def loop {β α : Type} (round : β → Reading (Round β α)) (b : β) : Reading α := do
  let c ← get
  Reading.iterate round (c.ahead c.position + 1) b

def skipWhileRound (kind : Kind) (_ : Unit) : Reading (Round Unit Unit) := do
  if ← isAt kind then
    let _ ← moveNext
    return .again ()
  else return .done ()

def skipWhile (kind : Kind) : Reading Unit := loop (skipWhileRound kind) ()

def skipUntilRound (kind : Kind) (_ : Unit) : Reading (Round Unit Unit) := do
  match ← current with
  | none => return .done ()
  | some token =>
    if token.kind = kind then return .done ()
    else
      let _ ← moveNext
      return .again ()

/-- Passes over tokens up to one of a kind, or to the end. -/
def skipUntil (kind : Kind) : Reading Unit := loop (skipUntilRound kind) ()

/-- Moves the peek on by one token, if there is one to pass, and gives the token there. -/
def peekNext : Reading (Option Token) := do
  if (← fetch (← get).peek).isSome then modify fun c => { c with peek := c.peek + 1 }
  fetch (← get).peek

def peekTo (place : Int) : Reading Unit := modify fun c => { c with peek := place }

def peekReset : Reading Unit := do peekTo (← get).position

def peekPastRound (test : Kind → Bool) (_ : Unit) : Reading (Round Unit (Option Token)) := do
  match ← peekNext with
  | none => return .done none
  | some token => return if test token.kind then .again () else .done (some token)

/-- Moves the peek on, at least once, and past tokens whose kind passes a test, and gives the token
it stops at. -/
def peekPast (test : Kind → Bool) : Reading (Option Token) := do
  let c ← get
  Reading.iterate (peekPastRound test) (c.ahead c.peek + 1) ()

def all : Reading (List Token) := do
  let c ← get
  let _ ← fetch (c.buffer.size + c.pending.length : Nat)
  return (← get).buffer.toList

end Cursor

end DocComment
