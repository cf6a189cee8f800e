import DocComment.Comment
import DocComment.Grammar.Comment

/-!
# Diagnostics for editors

For each doc-comment of a source text that cannot be read there is one diagnostic. Its range begins
at the offending text, is at least one character long where the comment has one there, and does not
go on behind the comment. Lines and characters count from zero.
-/

namespace DocComment

/-- A place in a source text, by line and character from zero. -/
structure Place where
  line : Nat
  character : Nat
deriving DecidableEq, Repr, Inhabited

def Position.place (p : Position) : Place := ⟨p.line - 1, p.column - 1⟩

/-- A message about a range of a source text. -/
structure Diagnostic where
  first : Place
  last : Place
  message : Text
deriving DecidableEq, Repr, Inhabited

namespace Diagnostic

/-- The number by which editors know errors. -/
def severity : Nat := 1

def issuer : Text := "docblock".toList

/-- The offsets at which the range of a report about a comment begins and ends. -/
def range (comment : Comment) (r : Report) : Int × Int :=
  let first : Int := comment.offset + min (r.offset.getD 0) comment.text.length
  let last : Int := min (first + max 1 r.value.length) (comment.offset + comment.text.length)
  (first, max last first)

def ofReport (source : Text) (comment : Comment) (r : Report) : Diagnostic :=
  let (first, last) := range comment r
  ⟨(source.position first).place, (source.position last).place, r.message⟩

end Diagnostic

def diagnose (source : Text) : List Diagnostic :=
  (Comment.find source).filterMap fun comment =>
    match Document.parse comment.text with
    | .ok _ => none
    | .error failure => some (Diagnostic.ofReport source comment failure.report)

end DocComment
