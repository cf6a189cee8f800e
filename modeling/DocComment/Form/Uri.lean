import DocComment.Form.Address

/-!
# Absolute URIs

A URI is cut into its scheme, its authority and its path; the query and the fragment are not looked
at. The authority may begin with user data up to its last at sign, and a colon and a number may
follow the host in it. A host between brackets is a network address. Schemes that name no host want
only some path or authority, and a file may leave the authority out.
-/

namespace DocComment.Form

/-- The parts of a URI that matter here. -/
structure UriParts where
  scheme : Text
  authority : Text
  path : Text
deriving DecidableEq, Repr

def isUriChar (c : Char) : Bool :=
  c.isAlphanum || c ∈ "-._~:/?#[]@!$&'()*+,;=%".toList

/-- A scheme is a letter, and then letters, digits, plus signs, hyphens and points. -/
def isScheme : Text → Bool
  | [] => false
  | c :: rest => c.isAlpha && rest.all fun d => d.isAlphanum || d ∈ ['+', '-', '.']

/-- The authority and what is left of a URI after its scheme. -/
def cutAuthority : Text → Text × Text
  | '/' :: '/' :: rest =>
    let authority := rest.takeWhile (· ∉ ['/', '?', '#'])
    (authority, rest.drop authority.length)
  | rest => ([], rest)

/-- The parts of a URI, or nothing where it has no scheme. -/
def uriParts? (t : Text) : Option UriParts :=
  match Text.cutFirst? ':' t with
  | none => none
  | some (scheme, rest) =>
    if isScheme scheme then
      let (authority, tail) := cutAuthority rest
      some ⟨scheme.lower, authority, tail.takeWhile (· ∉ ['?', '#'])⟩
    else none

/-- The authority without the user data in front. -/
def hostAndPort (authority : Text) : Text :=
  match Text.cutLast? '@' authority with
  | some (_, rest) => rest
  | none => authority

/-- The parts before and after the first occurrence of a character, the second empty if there is
none. -/
def cutOrAll (separator : Char) (t : Text) : Text × Text :=
  (Text.cutFirst? separator t).getD (t, [])

def host (authority : Text) : Text :=
  let t := hostAndPort authority
  match Text.cutFirst? '[' t with
  | some (_, inner) => (cutOrAll ']' inner).1
  | none => (cutOrAll ':' t).1

/-- What follows the host of an authority and a colon. -/
def portDigits (authority : Text) : Text :=
  let t := hostAndPort authority
  match Text.cutFirst? '[' t with
  | some (_, inner) => (cutOrAll ':' (cutOrAll ']' inner).2).2
  | none => (cutOrAll ':' t).2

/-- What follows the host is nothing or a number below 65536. -/
def hasPort (authority : Text) : Bool :=
  let digits := portDigits authority
  digits = [] || (digits.all Char.isDigit && decimalValue digits ≤ 65535)

/-- What may stand between brackets: an address of version 6, or one of a later version. -/
def isBracketHost : Text → Bool
  | 'v' :: rest =>
    let (version, address) := cutOrAll '.' rest
    version ≠ [] && version.all isHexDigit && address ≠ []
  | t => isAddress6 t

/-- Brackets come in pairs, around the whole host and nothing else. -/
def hasBrackets (authority : Text) : Bool :=
  if authority.contains '[' && authority.contains ']' then
    let t := hostAndPort authority
    match Text.cutFirst? '[' t with
    | some (before, inner) =>
      let (name, after) := cutOrAll ']' inner
      before = [] && (after = [] || after.head? = some ':') && isBracketHost name
    | none => isBracketHost (cutOrAll ':' t).1
  else !(authority.contains '[' || authority.contains ']')

/-- The schemes that name no host. -/
def opaqueSchemes : List Text := ["mailto".toList, "news".toList, "tel".toList, "urn".toList]

def isUri (t : Text) : Bool :=
  t ≠ [] && t.all isUriChar &&
    match uriParts? t with
    | none => false
    | some uri =>
      hasBrackets uri.authority && hasPort uri.authority &&
        if uri.scheme ∈ opaqueSchemes then uri.path ≠ [] || uri.authority ≠ []
        else if uri.scheme = "file".toList ∧ uri.authority = [] then uri.path.head? = some '/'
        else
          let name := host uri.authority
          name ≠ [] && !(portDigits uri.authority = [] && uri.authority.getLast? = some ':') &&
            if name.contains ':' then isAddress name else isHostName name

end DocComment.Form
