import DocComment.Text.Quoted
import DocComment.Token.Basic

/-!
# Tables of tokens

Tokens are shown one to a line: the offset in a column of five, the kind in one of fifteen, and the
quoted text.
-/

namespace DocComment.Token

def tableLine (t : Token) : Text :=
  Text.padLeft 5 (Text.numeral t.offset) ++ ' ' :: Text.padRight 15 t.kind.label.toList ++
    ' ' :: Text.quoted t.text ++ ['\n']

def table (tokens : List Token) : Text := tokens.flatMap tableLine

end DocComment.Token
