import DocComment.Text.Basic

/-!
# Tokens

A token is a kind, the text it stands for and the offset of its first character. The same type
serves the raw tokens of a text and the screened tokens of a doc-comment: tag names and the two
delimiters of a comment occur among the screened tokens only, and line feeds, stars, slashes and at
signs among the raw ones only.
-/

namespace DocComment

/-- The tags that a doc-comment may hold. -/
inductive TagName where
  | api | author | copyright | deprecated | inheritDoc | internal | link | method | package | param
  | property | propertyRead | propertyWrite | returns | see | since | throws | todo | uses
  | usedBy | var | version
deriving DecidableEq, Repr, Inhabited

namespace TagName

def all : List TagName :=
  [.api, .author, .copyright, .deprecated, .inheritDoc, .internal, .link, .method, .package, .param,
    .property, .propertyRead, .propertyWrite, .returns, .see, .since, .throws, .todo, .uses,
    .usedBy, .var, .version]

def label : TagName → String
  | .api => "API" | .author => "AUTHOR" | .copyright => "COPYRIGHT" | .deprecated => "DEPRECATED"
  | .inheritDoc => "INHERITDOC" | .internal => "INTERNAL" | .link => "LINK" | .method => "METHOD"
  | .package => "PACKAGE" | .param => "PARAM" | .property => "PROPERTY"
  | .propertyRead => "PROPERTY_READ" | .propertyWrite => "PROPERTY_WRITE" | .returns => "RETURN"
  | .see => "SEE" | .since => "SINCE" | .throws => "THROWS" | .todo => "TODO" | .uses => "USES"
  | .usedBy => "USED_BY" | .var => "VAR" | .version => "VERSION"

end TagName

inductive Kind where
  | star | slash | atSign | dollar | leftBrace | rightBrace | leftAngle | rightAngle | leftParen
  | rightParen | leftBracket | rightBracket | dot | minus | pipe | backslash | colon | ampersand
  | comma
  | string | whitespace | newline
  | intro | outro
  | tag (name : TagName)
  | endOfText
deriving DecidableEq, Repr, Inhabited

namespace Kind

def all : List Kind :=
  [.star, .slash, .atSign, .dollar, .leftBrace, .rightBrace, .leftAngle, .rightAngle, .leftParen,
    .rightParen, .leftBracket, .rightBracket, .dot, .minus, .pipe, .backslash, .colon, .ampersand,
    .comma, .string, .whitespace, .newline, .intro, .outro] ++
    TagName.all.map .tag ++ [.endOfText]

/-- The name of the kind where tokens are shown. -/
def label : Kind → String
  | .star => "STAR" | .slash => "SLASH" | .atSign => "AT" | .dollar => "DOLLAR"
  | .leftBrace => "LBRACE" | .rightBrace => "RBRACE" | .leftAngle => "LANGLE"
  | .rightAngle => "RANGLE" | .leftParen => "LPAREN" | .rightParen => "RPAREN"
  | .leftBracket => "LBRACKET" | .rightBracket => "RBRACKET" | .dot => "DOT" | .minus => "MINUS"
  | .pipe => "PIPE" | .backslash => "BACKSLASH" | .colon => "COLON" | .ampersand => "AMP"
  | .comma => "COMMA" | .string => "STRING" | .whitespace => "WHITESPACE" | .newline => "NEWLINE"
  | .intro => "INTRO" | .outro => "OUTRO" | .tag name => name.label | .endOfText => "END"

/-- The kind of a given name. -/
def ofLabel? (label : String) : Option Kind := all.find? (·.label = label)

def isTag : Kind → Bool
  | .tag _ => true
  | _ => false

def ofPunctuation? : Char → Option Kind
  | '*' => some .star | '/' => some .slash | '@' => some .atSign | '$' => some .dollar
  | '{' => some .leftBrace | '}' => some .rightBrace | '<' => some .leftAngle
  | '>' => some .rightAngle | '(' => some .leftParen | ')' => some .rightParen
  | '[' => some .leftBracket | ']' => some .rightBracket | '.' => some .dot | '-' => some .minus
  | '|' => some .pipe | '\\' => some .backslash | ':' => some .colon | '&' => some .ampersand
  | ',' => some .comma
  | _ => none

end Kind

/-- A kind, the text it stands for, and the offset of its first character. -/
structure Token where
  kind : Kind
  text : Text
  offset : Nat
deriving DecidableEq, Repr, Inhabited

def Token.concat (tokens : List Token) : Text := tokens.flatMap (·.text)

end DocComment
