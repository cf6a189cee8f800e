import DocComment.Form.Address

/-!
# Email addresses

The part before the last at sign has at most 64 characters and is made of atoms with points between
them. The part after it is a host name of at least two labels, or a network address in brackets.
-/

namespace DocComment.Form

def isAtomChar (c : Char) : Bool :=
  c.isAlphanum || c ∈ "!#$%&'*+/=?^_\x60\x7b|\x7d~-".toList

/-- One or more atoms with points between them. -/
def isLocalPart (t : Text) : Bool :=
  t.length ≤ 64 && (Text.splitAt '.' t).all fun atom => atom ≠ [] && atom.all isAtomChar

/-- A network address in brackets, maybe marked as one of version 6. -/
def isAddressLiteral : Text → Bool
  | '[' :: rest =>
    rest.getLast? = some ']' && isAddress (Text.dropLead "IPv6:".toList rest.dropLast)
  | _ => false

/-- A host name of at least two labels. -/
def isQualifiedHost (t : Text) : Bool := isHostName t && 2 ≤ (hostLabels t).length

def isEmail (t : Text) : Bool :=
  match Text.cutLast? '@' t with
  | none => false
  | some (localPart, domain) =>
    isLocalPart localPart && (isAddressLiteral domain || isQualifiedHost domain)

end DocComment.Form
