import DocComment.Report
import DocComment.Token.Basic

/-!
# Syntax errors

A comment is refused at the first thing that its grammar does not allow. The cause says what that
is: a token of a wrong kind, the end of the comment, or a text that is not what its place wants. The
reading of a comment may end in two more ways, which are no fault of the comment: a cursor was set
before the beginning of its buffer, or a loop made no progress. Neither can be repaired by reading
something else in its place, so they are kept apart from the syntax errors.
-/

namespace DocComment

/-- The things with a written form of their own, which a text may fail to have. -/
inductive Form where
  | email | link | type | variable | version | method | element | file
deriving DecidableEq, Repr, Inhabited

def Form.words : Form → Text
  | .email => "email".toList
  | .link => "link".toList
  | .type => "type".toList
  | .variable => "variable".toList
  | .version => "version".toList
  | .method => "method name".toList
  | .element => "element name".toList
  | .file => "file name".toList

/-- Why a comment is refused. -/
inductive Cause where
  | unexpectedToken (token : Token)
  | unexpectedEnd
  | malformed (form : Form) (text : Text) (offset : Nat)
deriving DecidableEq, Repr, Inhabited

/-- A cause and the comment it was found in. -/
structure SyntaxError where
  cause : Cause
  comment : Text
deriving DecidableEq, Repr, Inhabited

namespace Report

/-- The report of a token where the grammar wants another one. -/
def unexpectedToken (value comment : Text) (offset : Option Int) : Report where
  message := "unexpected token \"".toList ++ value ++ ['"']
  value := value
  comment := comment
  offset := offset

/-- The report of a comment that ends too early. -/
def unexpectedEnd (comment : Text) : Report where
  message := "unexpected end of comment".toList
  value := []
  comment := comment
  offset := some comment.length

/-- The report of a text that does not have the form its place wants. -/
def malformed (form : Form) (value comment : Text) (offset : Option Int) : Report where
  message := "invalid ".toList ++ form.words ++ " \"".toList ++ value ++ ['"']
  value := value
  comment := comment
  offset := offset

end Report

def SyntaxError.report (e : SyntaxError) : Report :=
  match e.cause with
  | .unexpectedToken token => .unexpectedToken token.text e.comment (some token.offset)
  | .unexpectedEnd => .unexpectedEnd e.comment
  | .malformed form value offset => .malformed form value e.comment (some offset)

/-- How the reading of a comment ends without a result. -/
inductive Failure where
  | syntaxError (error : SyntaxError)
  | outOfRange
  | stalled
deriving DecidableEq, Repr, Inhabited

/-- The report of a failure. The last two have no place in the comment. -/
def Failure.report : Failure → Report
  | .syntaxError error => error.report
  | .outOfRange => ⟨"cursor out of range".toList, [], [], none⟩
  | .stalled => ⟨"no progress".toList, [], [], none⟩

end DocComment
