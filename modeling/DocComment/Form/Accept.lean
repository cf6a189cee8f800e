import DocComment.Form.Email
import DocComment.Form.Name
import DocComment.Form.Uri
import DocComment.Form.Version
import DocComment.SyntaxError

/-!
# The forms and their texts

`Form.accepts` says which texts have a form. It is the one place where the forms that error messages
name meet the definitions of what they want.
-/

namespace DocComment

def Form.accepts : Form → Text → Bool
  | .email => isEmail
  | .link => isUri
  | .type => isQualified
  | .variable => isVariable
  | .version => isVersion
  | .method => isIdentifier
  | .element => isElement
  | .file => isFile

end DocComment
