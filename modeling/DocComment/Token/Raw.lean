import DocComment.Text.Blank
import DocComment.Text.Letter
import DocComment.Token.Basic

/-!
# Raw tokens of a text

A run of letters is one token, and so is a line break, which is a line feed that may have one
carriage return before or after it. Every other character is a token of its own: a blank,
a punctuation sign, or a string of one character. One empty token marks the end of the text.

`tokenize` walks over the text once. At each character it either starts a token or passes over a
character that the token before it took. `tokenizeFrom_skip` turns the second case into the first.
-/

namespace DocComment.Token

open Text (isLetter isBlank)

/-- The line break at the head of a text, or nothing. -/
def lineBreak : Text → Text
  | '\r' :: '\n' :: _ => ['\r', '\n']
  | '\n' :: '\r' :: _ => ['\n', '\r']
  | '\n' :: _ => ['\n']
  | _ => []

/-- The raw token at the head of a text that starts with `c` and goes on with `rest`. -/
def first (offset : Nat) (c : Char) (rest : Text) : Token :=
  if isLetter c then ⟨.string, c :: rest.takeWhile isLetter, offset⟩
  else if lineBreak (c :: rest) ≠ [] then ⟨.newline, lineBreak (c :: rest), offset⟩
  else if isBlank c then ⟨.whitespace, [c], offset⟩
  else ⟨(Kind.ofPunctuation? c).getD .string, [c], offset⟩

/-- The raw tokens of a text from an offset on, after passing over `skip` characters. -/
def tokenizeFrom : (skip offset : Nat) → Text → List Token
  | _, offset, [] => [⟨.endOfText, [], offset⟩]
  | skip + 1, offset, _ :: rest => tokenizeFrom skip (offset + 1) rest
  | 0, offset, c :: rest =>
    let token := first offset c rest
    token :: tokenizeFrom (token.text.length - 1) (offset + 1) rest

def tokenize (source : Text) : List Token := tokenizeFrom 0 0 source

theorem tokenizeFrom_skip (skip offset : Nat) (s : Text) (h : skip ≤ s.length) :
    tokenizeFrom skip offset s = tokenizeFrom 0 (offset + skip) (s.drop skip) := by
  induction s generalizing skip offset with
  | nil =>
    obtain rfl : skip = 0 := by simpa using h
    rfl
  | cons c rest ih =>
    cases skip with
    | zero => rfl
    | succ skip =>
      have step := ih skip (offset + 1) (by simpa using h)
      rw [Nat.add_assoc, Nat.add_comm 1 skip] at step
      simpa [tokenizeFrom] using step

end DocComment.Token
