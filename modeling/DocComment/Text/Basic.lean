/-!
# Texts as lists of characters

A text is the list of its characters, one entry for each code point. Offsets, columns and lengths
count characters everywhere in this library, so a slice of a text is a `take` of a `drop` and no
byte or unit of an encoding is ever seen.

The functions here are the ones that every layer shares: membership in a table of ranges, decimal
numerals, padding, and joining. They say nothing about which characters are letters or blanks; the
tables beside this module do.
-/

namespace DocComment

/-- A text is the list of its characters. -/
abbrev Text := List Char

namespace Text

/-- The character lies in one of the closed ranges of a table. -/
def inRanges (ranges : List (Nat × Nat)) (c : Char) : Bool :=
  ranges.any fun range => range.1 ≤ c.toNat && c.toNat ≤ range.2

def numeral (n : Nat) : Text := Nat.toDigits 10 n

/-- The decimal numeral of an integer, with a leading minus where it is negative. -/
def signedNumeral : Int → Text
  | .ofNat n => numeral n
  | .negSucc n => '-' :: numeral (n + 1)

def padLeft (width : Nat) (t : Text) : Text :=
  List.replicate (width - t.length) ' ' ++ t

def padRight (width : Nat) (t : Text) : Text :=
  t ++ List.replicate (width - t.length) ' '

/-- Removes one leading occurrence of `lead`, if there is one. -/
def dropLead (lead t : Text) : Text :=
  if lead.isPrefixOf t then t.drop lead.length else t

/-- The pieces of a text between the separators; there is one more piece than separators. -/
def splitAt (separator : Char) : Text → List Text
  | [] => [[]]
  | c :: rest =>
    if c = separator then [] :: splitAt separator rest
    else match splitAt separator rest with
      | [] => [[c]]
      | piece :: pieces => (c :: piece) :: pieces

/-- The part before the last separator and the part after it. -/
def cutLast? (separator : Char) (t : Text) : Option (Text × Text) :=
  let tail := t.reverse.takeWhile (· ≠ separator)
  match t.reverse.drop tail.length with
  | [] => none
  | _ :: init => some (init.reverse, tail.reverse)

/-- The part before the first separator and the part after it. -/
def cutFirst? (separator : Char) (t : Text) : Option (Text × Text) :=
  let head := t.takeWhile (· ≠ separator)
  match t.drop head.length with
  | [] => none
  | _ :: rest => some (head, rest)

/-- The lower-case form of a character as far as ASCII words can tell: the ASCII capitals and the
Kelvin sign, which is the only other character whose lower-case form is an ASCII letter. -/
def lowerChar (c : Char) : Char := if c = '\u212A' then 'k' else c.toLower

/-- The lower-case form of a text, for comparison with ASCII words. -/
def lower (t : Text) : Text := t.map lowerChar

@[simp] theorem length_lower (t : Text) : (lower t).length = t.length := by simp [lower]

theorem lower_append (t u : Text) : lower (t ++ u) = lower t ++ lower u := by simp [lower]

end Text

end DocComment
