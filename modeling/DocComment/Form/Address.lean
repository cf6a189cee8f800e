import DocComment.Text.Basic

/-!
# Addresses of hosts

Network addresses in both versions, and names of hosts. Everything is ASCII.
-/

namespace DocComment.Form

def decimalValue (digits : Text) : Nat :=
  digits.foldl (fun n c => 10 * n + (c.toNat - '0'.toNat)) 0

/-- One number of an address of version 4: up to three digits, no needless zero in front. -/
def isOctet (t : Text) : Bool :=
  t ≠ [] && t.length ≤ 3 && t.all Char.isDigit && (t = ['0'] || t.head? ≠ some '0') &&
    decimalValue t ≤ 255

/-- An address of version 4 is four numbers with points between them. -/
def isAddress4 (t : Text) : Bool :=
  let octets := Text.splitAt '.' t
  octets.length = 4 && octets.all isOctet

def isHexDigit (c : Char) : Bool :=
  c.isDigit || ('a' ≤ c && c ≤ 'f') || ('A' ≤ c && c ≤ 'F')

def isGroup (t : Text) : Bool := t ≠ [] && t.length ≤ 4 && t.all isHexDigit

/-- The number of groups that a text stands for, if it is groups with colons between them. Where it
is the end of the address, an address of version 4 may stand for the last two. -/
def groupCount? (atEnd : Bool) (t : Text) : Option Nat :=
  let parts := Text.splitAt ':' t
  let last := parts.getLast?.getD []
  if atEnd && last.contains '.' then
    if parts.dropLast.all isGroup && isAddress4 last then some (parts.length + 1) else none
  else if parts.all isGroup then some parts.length else none

/-- The number of groups on one side of a double colon, where there may be none. -/
def sideCount? (atEnd : Bool) (t : Text) : Option Nat :=
  if t = [] then some 0 else groupCount? atEnd t

/-- The parts before and after the first double colon. -/
def cutGap? : Text → Option (Text × Text)
  | ':' :: ':' :: rest => some ([], rest)
  | c :: rest => (cutGap? rest).map fun (head, tail) => (c :: head, tail)
  | [] => none

/-- Eight groups, or fewer with one double colon for those that are missing. -/
def isGroups (t : Text) : Bool :=
  match cutGap? t with
  | none => groupCount? true t = some 8
  | some (head, tail) =>
    match sideCount? false head, sideCount? true tail with
    | some before, some after => before + after ≤ 7
    | _, _ => false

/-- An address of version 6, maybe with a zone after a percent sign. -/
def isAddress6 (t : Text) : Bool :=
  !t.contains '/' &&
    match Text.cutFirst? '%' t with
    | none => isGroups t
    | some (groups, zone) => zone ≠ [] && !zone.contains '%' && isGroups groups

def isAddress (t : Text) : Bool := isAddress4 t || isAddress6 t

/-- One label of a host name: letters, digits and inner hyphens. -/
def isLabel (t : Text) : Bool :=
  t.all (fun c => c.isAlphanum || c = '-') && t.head?.any Char.isAlphanum &&
    t.getLast?.any Char.isAlphanum

/-- The labels of a host name, which may end in one more point. -/
def hostLabels (t : Text) : List Text :=
  Text.splitAt '.' (if t.getLast? = some '.' then t.dropLast else t)

/-- A host name is one or more labels with points between them, and maybe a point at the end. -/
def isHostName (t : Text) : Bool := (hostLabels t).all isLabel

end DocComment.Form
