import DocComment.Text.Position

/-!
# Doc-comments in a source text

A doc-comment begins with a slash and two stars that neither a slash nor a star and a slash follow,
and ends with the first star and slash behind them. The comments of a text are found from left to
right and do not overlap. A beginning without an end is passed over.
-/

namespace DocComment

/-- A doc-comment and the offset of its first character. -/
structure Comment where
  text : Text
  offset : Nat
deriving DecidableEq, Repr, Inhabited

namespace Comment

/-- The number of characters up to and with the first star and slash. -/
def closeLength? : Text → Option Nat
  | [] => none
  | '*' :: '/' :: _ => some 2
  | _ :: rest => (closeLength? rest).map (· + 1)

/-- The number of characters of the doc-comment at the head of a text. -/
def length? : Text → Option Nat
  | '/' :: '*' :: '*' :: rest =>
    if rest.head? = some '/' ∨ "*/".toList.isPrefixOf rest then none
    else (closeLength? rest).map (· + 3)
  | _ => none

/-- The doc-comments of a text from an offset on, after passing over `skip` characters. -/
def findFrom : (skip offset : Nat) → Text → List Comment
  | _, _, [] => []
  | skip + 1, offset, _ :: rest => findFrom skip (offset + 1) rest
  | 0, offset, c :: rest =>
    match length? (c :: rest) with
    | none => findFrom 0 (offset + 1) rest
    | some length => ⟨(c :: rest).take length, offset⟩ :: findFrom (length - 1) (offset + 1) rest

def find (source : Text) : List Comment := findFrom 0 0 source

def position (c : Comment) (source : Text) : Position := source.position c.offset

end Comment

end DocComment
