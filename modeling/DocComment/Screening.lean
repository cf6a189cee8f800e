import DocComment.SyntaxError
import DocComment.Token.Raw

/-!
# Screening

Screening turns the raw tokens of a text into the tokens that the grammar of doc-comments is about.
Runs of blanks and runs of strings become one token each; the star that leads a line is dropped
together with one blank after it, so that only the line break remains; the delimiters of a comment
and the names of tags are recognised.

One step takes the next raw token and as many of those that follow as it needs, and gives either a
screened token or a fault, which is a line that begins like a delimiter and is none. Screening goes
on behind a fault, at the first raw token that the faulty step did not take. What a fault means for
a reader is not decided here: `screen` refuses a text that has one, and a cursor meets it only when
it reads as far.
-/

namespace DocComment.Screening

/-- What one step of screening gives. -/
inductive Item where
  | token (token : Token)
  | fault (cause : Cause)
deriving DecidableEq, Repr, Inhabited

/-- An item, and how many raw tokens its step took after the first. -/
structure Step where
  item : Item
  taken : Nat
deriving DecidableEq, Repr

/-- The number of tokens of a kind at the head of a list. -/
def runLength (kind : Kind) (tokens : List Token) : Nat :=
  (tokens.takeWhile (·.kind = kind)).length

/-- A run of tokens of one kind becomes one token. -/
def mergeRun (first : Token) (rest : List Token) : Step :=
  let run := rest.takeWhile (·.kind = first.kind)
  ⟨.token ⟨first.kind, first.text ++ Token.concat run, first.offset⟩, run.length⟩

/-- The token that stands for a line break. -/
def lineFeed (offset : Nat) : Token := ⟨.whitespace, ['\n'], offset⟩

/-- The opening delimiter; all stars that follow the second belong to it. -/
def introAt (offset : Nat) : Token := ⟨.intro, "/**".toList, offset⟩

def outroAt (offset : Nat) : Token := ⟨.outro, "*/".toList, offset⟩

/-- Two stars must follow a slash that begins a line. -/
def lineSlash (slash : Token) (after : List Token) : Step :=
  match after with
  | first :: second :: more =>
    if first.kind ≠ .star then ⟨.fault (.unexpectedToken first), 1⟩
    else if second.kind ≠ .star then ⟨.fault (.unexpectedToken second), 2⟩
    else ⟨.token (introAt slash.offset), 2 + runLength .star more⟩
  | [first] =>
    if first.kind ≠ .star then ⟨.fault (.unexpectedToken first), 1⟩ else ⟨.fault .unexpectedEnd, 1⟩
  | [] => ⟨.fault .unexpectedEnd, 0⟩

/-- A star that begins a line stands for the line break, and takes one blank with it. More stars, or
a slash, must make a closing delimiter of it. -/
def lineStar (star : Token) (after : List Token) : Step :=
  match after with
  | [] => ⟨.fault .unexpectedEnd, 0⟩
  | next :: _ =>
    if next.kind = .whitespace then ⟨.token (lineFeed star.offset), 1⟩
    else if next.kind = .slash ∨ next.kind = .star then
      let stars := runLength .star after
      match after.drop stars with
      | [] => ⟨.fault .unexpectedEnd, stars⟩
      | closing :: _ =>
        if closing.kind = .slash then ⟨.token (outroAt star.offset), stars + 1⟩
        else ⟨.fault (.unexpectedToken closing), stars + 1⟩
    else ⟨.token (lineFeed star.offset), 0⟩

/-- A line break and the beginning of the line after it. -/
def lineStart (newline : Token) (rest : List Token) : Step :=
  let blanks := runLength .whitespace rest
  match rest.drop blanks with
  | [] => ⟨.token (lineFeed newline.offset), blanks⟩
  | next :: after =>
    match next.kind with
    | .slash => let step := lineSlash next after; ⟨step.item, blanks + 1 + step.taken⟩
    | .star => let step := lineStar next after; ⟨step.item, blanks + 1 + step.taken⟩
    | .endOfText => ⟨.token next, blanks + 1⟩
    | _ => ⟨.token (lineFeed newline.offset), blanks⟩

/-- A slash and two stars open a comment; any other slash is a string. -/
def slash (first : Token) (rest : List Token) : Step :=
  match rest with
  | second :: third :: more =>
    if second.kind = .star ∧ third.kind = .star then
      ⟨.token (introAt first.offset), 2 + runLength .star more⟩
    else ⟨.token { first with kind := .string }, 0⟩
  | _ => ⟨.token { first with kind := .string }, 0⟩

/-- Stars and a slash close a comment; any other run of stars is a string. -/
def stars (first : Token) (rest : List Token) : Step :=
  let more := runLength .star rest
  let asString : Step := ⟨.token ⟨.string, List.replicate (more + 1) '*', first.offset⟩, more⟩
  match rest.drop more with
  | [] => asString
  | next :: _ =>
    if next.kind = .slash then ⟨.token (outroAt first.offset), more + 1⟩ else asString

/-- The words that make a tag after an at sign, in lower case. The word `used` makes one only
together with `-by`, and `property` may go on with `-read` or `-write`. -/
def tagWords : List (Text × TagName) := [
  ("api".toList, .api), ("author".toList, .author), ("copyright".toList, .copyright),
  ("deprecated".toList, .deprecated), ("inheritdoc".toList, .inheritDoc),
  ("internal".toList, .internal), ("link".toList, .link), ("method".toList, .method),
  ("package".toList, .package), ("param".toList, .param), ("property".toList, .property),
  ("return".toList, .returns), ("see".toList, .see), ("since".toList, .since),
  ("throws".toList, .throws), ("todo".toList, .todo), ("uses".toList, .uses),
  ("used".toList, .usedBy), ("var".toList, .var), ("version".toList, .version)]

/-- The two tokens after a tag word are a minus and a given word, in any case. -/
def hasSuffix (word : Text) (rest : List Token) : Bool :=
  match rest with
  | minus :: suffix :: _ => minus.kind = .minus && suffix.text.lower = word
  | _ => false

/-- A property tag, from the tokens after its word: it goes on with a minus only if the word after
that is known. -/
def propertyTag (offset : Nat) (rest : List Token) : Step :=
  if hasSuffix "read".toList rest then
    ⟨.token ⟨.tag .propertyRead, "@property-read".toList, offset⟩, 3⟩
  else if hasSuffix "write".toList rest then
    ⟨.token ⟨.tag .propertyWrite, "@property-write".toList, offset⟩, 3⟩
  else ⟨.token ⟨.tag .property, "@property".toList, offset⟩, 1⟩

/-- The tag of usage, from the tokens after its first word: without the second it is a string, to
which the minus still belongs. -/
def usedByTag (offset : Nat) (rest : List Token) : Step :=
  if hasSuffix "by".toList rest then ⟨.token ⟨.tag .usedBy, "@used-by".toList, offset⟩, 3⟩
  else if rest.head?.any (·.kind = .minus) then ⟨.token ⟨.string, "@used-".toList, offset⟩, 2⟩
  else ⟨.token ⟨.string, "@used".toList, offset⟩, 1⟩

/-- An at sign makes a tag of the word after it; before anything else it is a string. -/
def atSign (first : Token) (rest : List Token) : Step :=
  let asString : Step := ⟨.token { first with kind := .string }, 0⟩
  match rest with
  | [] => asString
  | word :: after =>
    let name := word.text.lower
    match if word.kind = .string then tagWords.lookup name else none with
    | none => asString
    | some .property => propertyTag first.offset after
    | some .usedBy => usedByTag first.offset after
    | some tag => ⟨.token ⟨.tag tag, '@' :: name, first.offset⟩, 1⟩

/-- One step of screening, at a raw token and those that follow it. -/
def step (first : Token) (rest : List Token) : Step :=
  match first.kind with
  | .whitespace | .string => mergeRun first rest
  | .newline => lineStart first rest
  | .atSign => atSign first rest
  | .slash => slash first rest
  | .star => stars first rest
  | _ => ⟨.token first, 0⟩

/-- The items of a list of raw tokens, after passing over `skip` of them. -/
def itemsFrom : (skip : Nat) → List Token → List Item
  | _, [] => []
  | skip + 1, _ :: rest => itemsFrom skip rest
  | 0, first :: rest =>
    let next := step first rest
    next.item :: itemsFrom next.taken rest

def items (source : Text) : List Item := itemsFrom 0 (Token.tokenize source)

theorem itemsFrom_skip (skip : Nat) (tokens : List Token) :
    itemsFrom skip tokens = itemsFrom 0 (tokens.drop skip) := by
  induction tokens generalizing skip with
  | nil => simp [itemsFrom]
  | cons first rest ih =>
    cases skip with
    | zero => rfl
    | succ skip => simpa [itemsFrom] using ih skip

/-- The token of an item, or the error that its fault is in a given comment. -/
def Item.token? (comment : Text) : Item → Except SyntaxError Token
  | .token screened => .ok screened
  | .fault cause => .error ⟨cause, comment⟩

end DocComment.Screening

namespace DocComment

/-- The screened tokens of a text, or the error of its first fault. -/
def screen (source : Text) : Except SyntaxError (List Token) :=
  (Screening.items source).mapM (Screening.Item.token? source)

end DocComment
