import DocComment.Text.Quoted

/-!
# Configuration files

The part of TOML that settings are written in: one key and value to a line, headers of tables, and
comments. Keys are bare or quoted and may have points between them. Values are quoted texts without
escapes, whole numbers in four bases, and the two truth values. A table keeps its entries in the
order of the file, and no key is given twice. No table has two headers, nor has one that keys with
points made.

A file that is written in the rest of TOML is refused like one that is malformed.
-/

namespace DocComment.Toml

inductive Value where
  | text (value : Text)
  | integer (value : Int)
  | boolean (value : Bool)
  | table (entries : List (Text × Value))
deriving Repr, Inhabited

/-- The entries of a table in order. -/
abbrev Table := List (Text × Value)

def truthWord (b : Bool) : Text := if b then "True".toList else "False".toList

mutual

def Value.inner : Value → Text
  | .text value => Text.quoted value
  | .integer value => Text.signedNumeral value
  | .boolean value => truthWord value
  | .table [] => ['{', '}']
  | .table (entry :: entries) => '{' :: innerEntry entry ++ innerEntries entries ++ ['}']

def innerEntry : Text × Value → Text
  | (key, value) => Text.quoted key ++ ": ".toList ++ value.inner

def innerEntries : List (Text × Value) → Text
  | [] => []
  | entry :: entries => ", ".toList ++ innerEntry entry ++ innerEntries entries

end

/-- A value as it is shown by itself: a text without quotes. -/
def Value.shown : Value → Text
  | .text value => value
  | value => value.inner

/-! ## Lines -/

/-- The character may stand between the parts of a line. -/
def isSpace (c : Char) : Bool := c = ' ' || c = '\t'

/-- The character may stand in a comment or a quoted text. -/
def isPlain (c : Char) : Bool := c = '\t' || (0x20 ≤ c.toNat && c.toNat ≠ 0x7F)

/-- The character may stand in a bare key. -/
def isBare (c : Char) : Bool := c.isAlphanum || c = '-' || c = '_'

/-- Nothing is left of a line but a comment. -/
def isLineEnd (t : Text) : Bool :=
  match t.dropWhile isSpace with
  | [] => true
  | c :: rest => c = '#' && rest.all isPlain

/-- A quoted text, from behind its first quote, and what follows it. -/
def quotedText? (quote : Char) (t : Text) : Option (Text × Text) :=
  let body := t.takeWhile (· ≠ quote)
  match t.drop body.length with
  | [] => none
  | _ :: rest =>
    if body.all isPlain && !(quote = '"' && body.contains '\\') then some (body, rest) else none

def key? : Text → Option (Text × Text)
  | '"' :: rest => quotedText? '"' rest
  | '\'' :: rest => quotedText? '\'' rest
  | t =>
    let key := t.takeWhile isBare
    if key = [] then none else some (key, t.drop key.length)

/-- Keys with points between them, and what follows them and the spaces behind. There are at most as
many as `bound`, which the length of the line is. -/
def keys? : (bound : Nat) → Text → Option (List Text × Text)
  | 0, _ => none
  | bound + 1, t => do
    let (key, rest) ← key? t
    match rest.dropWhile isSpace with
    | '.' :: more =>
      let (keys, rest) ← keys? bound (more.dropWhile isSpace)
      return (key :: keys, rest)
    | rest => return ([key], rest)

/-- The value of a digit in a base. Letters of either case go on behind nine. -/
def digit? (base : Nat) (c : Char) : Option Nat :=
  let value :=
    if c.isDigit then c.toNat - '0'.toNat
    else if c.isAlpha then c.toLower.toNat - 'a'.toNat + 10
    else base
  if value < base then some value else none

/-- The number that digits write in a base. Single underscores may part the digits. -/
def natural? (base : Nat) (t : Text) : Option Nat := do
  let groups ← (Text.splitAt '_' t).mapM fun group => group.mapM (digit? base)
  if [] ∈ groups then none
  else return groups.flatten.foldl (fun number digit => base * number + digit) 0

/-- The number of decimal digits, of which the first is zero only if it is the only one. -/
def decimal? (t : Text) : Option Nat :=
  if t.head? = some '0' ∧ t ≠ ['0'] then none else natural? 10 t

/-- The letters that name a base behind a zero. -/
def bases : List (Char × Nat) := [('x', 16), ('o', 8), ('b', 2)]

/-- A whole number. Only a decimal one may have a sign. -/
def integer? : Text → Option Int
  | '-' :: digits => (decimal? digits).map fun n => -(n : Int)
  | '+' :: digits => (decimal? digits).map fun n => (n : Int)
  | '0' :: mark :: digits => do
    let base ← bases.lookup mark
    return (← natural? base digits)
  | digits => (decimal? digits).map fun n => (n : Int)

def value? : Text → Option (Value × Text)
  | '"' :: rest => (quotedText? '"' rest).map fun (body, rest) => (.text body, rest)
  | '\'' :: rest => (quotedText? '\'' rest).map fun (body, rest) => (.text body, rest)
  | t =>
    let word := t.takeWhile fun c => !isSpace c && c ≠ '#'
    let rest := t.drop word.length
    if word = "true".toList then some (.boolean true, rest)
    else if word = "false".toList then some (.boolean false, rest)
    else (integer? word).map fun n => (.integer n, rest)

inductive Line where
  | empty
  | header (keys : List Text)
  | entry (keys : List Text) (value : Value)
deriving Repr

def line? (t : Text) : Option Line :=
  if isLineEnd t then some .empty
  else
    match t.dropWhile isSpace with
    | '[' :: rest => do
      let (keys, rest) ← keys? rest.length (rest.dropWhile isSpace)
      match rest with
      | ']' :: rest => if isLineEnd rest then return .header keys else none
      | _ => none
    | rest => do
      let (keys, rest) ← keys? rest.length rest
      match rest with
      | '=' :: rest => do
        let (value, rest) ← value? (rest.dropWhile isSpace)
        if isLineEnd rest then return .entry keys value else none
      | _ => none

/-! ## Tables -/

def replace (key : Text) (value : Value) (t : Table) : Table :=
  t.map fun entry => if entry.1 = key then (key, value) else entry

/-- A table with one more value under keys, where there is none yet. -/
def insert? (value : Value) : (keys : List Text) → Table → Option Table
  | [], _ => none
  | [key], t => if (t.lookup key).isSome then none else some (t ++ [(key, value)])
  | key :: keys, t =>
    match t.lookup key with
    | none => (insert? value keys []).map fun inner => t ++ [(key, .table inner)]
    | some (.table inner) =>
      (insert? value keys inner).map fun inner => replace key (.table inner) t
    | some _ => none

/-- A table with a table under keys, which may be there already. -/
def open? : (keys : List Text) → Table → Option Table
  | [], t => some t
  | key :: keys, t =>
    match t.lookup key with
    | none => (open? keys []).map fun inner => t ++ [(key, .table inner)]
    | some (.table inner) => (open? keys inner).map fun inner => replace key (.table inner) t
    | some _ => none

/-- What was read of a file: the table, the header that holds, the tables that no header or key with
points may open again, and those that keys with points opened under this header. -/
structure Draft where
  table : Table := []
  header : List Text := []
  closed : List (List Text) := []
  pending : List (List Text) := []

/-- The tables that keys with points between them pass through, below a table. -/
def passed (path : List Text) : (keys : List Text) → List (List Text)
  | key :: next :: more => (path ++ [key]) :: passed (path ++ [key]) (next :: more)
  | _ => []

/-- What was read after one more line. Keys with points may go through the tables of their own
section again, which are closed only by the next header. -/
def Draft.add? (d : Draft) : Line → Option Draft
  | .empty => some d
  | .header keys =>
    let closed := d.pending ++ d.closed
    if keys ∈ closed then none
    else (open? keys d.table).map fun table =>
      { table, header := keys, closed := keys :: closed }
  | .entry keys value =>
    let path := passed d.header keys
    if path.any (· ∈ d.closed) then none
    else (insert? value (d.header ++ keys) d.table).map fun table =>
      { d with table, pending := path ++ d.pending }

/-- The lines of a file, which a line feed ends, with a carriage return before it or not. -/
def linesOf (t : Text) : List Text :=
  let pieces := Text.splitAt '\n' t
  pieces.dropLast.map (fun line => if line.getLast? = some '\r' then line.dropLast else line) ++
    pieces.getLast?.toList

/-- The table of lines that begin with the line of a number, or the number of the first line that is
refused. -/
def parseFrom (d : Draft) (number : Nat) : List Text → Except Nat Table
  | [] => .ok d.table
  | t :: rest =>
    match (line? t).bind d.add? with
    | none => .error number
    | some d => parseFrom d (number + 1) rest

/-- The table of a file, or the number of the first line that is refused. -/
def parse (t : Text) : Except Nat Table := parseFrom {} 1 (linesOf t)

end DocComment.Toml
