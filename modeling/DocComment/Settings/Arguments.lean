import DocComment.Check
import DocComment.Text.Digit

/-!
# Command lines

A command line names one input file and may hold options anywhere. A long option may be cut short as
long as only one option begins like it, and its value may follow an equals sign; the value of the
short option may follow it at once. A double hyphen ends the options; as a value in the word of an
option it stands for no value. A later value replaces an earlier one.

What a word is does not depend on the other words, except that all words behind a double hyphen are
values. Words that look like an option but are none, or are negative numbers, or hold a space, are
values too.
-/

namespace DocComment

/-- The words for the ways to show documents, in the order in which they are offered. -/
def Format.words : List (Text × Format) := [("tree".toList, .tree), ("json".toList, .json)]

def Format.word? (format : Format) : Option Text :=
  (words.find? (·.2 = format)).map (·.1)

inductive OptionName where
  | help | output | format | tokens | failFast | config
deriving DecidableEq, Repr, Inhabited

namespace OptionName

/-- The spellings of the options in the order in which they are offered. -/
def spellings : List (Text × OptionName) := [
  ("-h".toList, .help), ("--help".toList, .help), ("-o".toList, .output),
  ("--output".toList, .output), ("--format".toList, .format), ("--tokens".toList, .tokens),
  ("--fail-fast".toList, .failFast), ("--config".toList, .config)]

/-- The name of an option in messages: its spellings with slashes between them. -/
def label (name : OptionName) : Text :=
  ['/'].intercalate ((spellings.filter (·.2 = name)).map (·.1))

/-- The option wants a value. -/
def takesValue : OptionName → Bool
  | .output | .format | .config => true
  | .help | .tokens | .failFast => false

end OptionName

inductive UsageError where
  | missingInput
  | unrecognized (words : List Text)
  | ambiguous (word : Text) (candidates : List Text)
  | valueExpected (option : OptionName)
  | valueIgnored (option : OptionName) (value : Text)
  | unknownChoice (option : OptionName) (value : Text)
deriving DecidableEq, Repr, Inhabited

def UsageError.message : UsageError → Text
  | .missingInput => "the following arguments are required: input".toList
  | .unrecognized words => "unrecognized arguments: ".toList ++ [' '].intercalate words
  | .ambiguous word candidates =>
    "ambiguous option: ".toList ++ word ++ " could match ".toList ++
      ", ".toList.intercalate candidates
  | .valueExpected option => "argument ".toList ++ option.label ++ ": expected one argument".toList
  | .valueIgnored option value =>
    "argument ".toList ++ option.label ++ ": ignored explicit argument ".toList ++ Text.quoted value
  | .unknownChoice option value =>
    "argument ".toList ++ option.label ++ ": invalid choice: ".toList ++ Text.quoted value ++
      " (choose from ".toList ++
      ", ".toList.intercalate (Format.words.map fun word => Text.quoted word.1) ++ [')']

structure Arguments where
  input : Text
  output : Option Text := none
  format : Option Format := none
  tokens : Bool := false
  failFast : Bool := false
  config : Option Text := none
deriving DecidableEq, Repr, Inhabited

namespace Arguments

inductive Word where
  | value (text : Text)
  | separator
  | option (name : OptionName) (attached : Option Text)
  | shortHelp (tail : Text)
  | unknown (text : Text)
deriving DecidableEq, Repr

/-- The word is a negative number, with or without a fraction; a line feed may end it. -/
def isNegativeNumber : Text → Bool
  | '-' :: t =>
    let body := if t.getLast? = some '\n' then t.dropLast else t
    match Text.cutFirst? '.' body with
    | none => body ≠ [] && body.all Text.isDecimalDigit
    | some (whole, fraction) =>
      whole.all Text.isDecimalDigit && fraction ≠ [] && fraction.all Text.isDecimalDigit
  | _ => false

/-- An option that a word may mean, with the spelling it stands for and the value in it. -/
abbrev Candidate := Text × OptionName × Option Text

/-- The options that a word may mean when it is no full spelling. -/
def candidates (word : Text) : List Candidate :=
  if "--".toList.isPrefixOf word then
    let (stem, attached) := match Text.cutFirst? '=' word with
      | some (stem, value) => (stem, some value)
      | none => (word, none)
    (OptionName.spellings.filter fun spelling => stem.isPrefixOf spelling.1).map
      fun (spelling, name) => (spelling, name, attached)
  else
    OptionName.spellings.filterMap fun (spelling, name) =>
      if spelling = word.take 2 then some (spelling, name, some (word.drop 2))
      else if word.isPrefixOf spelling then some (spelling, name, none)
      else none

/-- The option of a full spelling before an equals sign, and what stands behind it. -/
def assigned? (word : Text) : Option Candidate := do
  let (spelling, value) ← Text.cutFirst? '=' word
  let name ← OptionName.spellings.lookup spelling
  return (spelling, name, some value)

def classify (word : Text) : Except UsageError Word :=
  match word with
  | '-' :: 'h' :: tail => .ok (.shortHelp tail)
  | '-' :: _ :: _ =>
    match OptionName.spellings.lookup word with
    | some name => .ok (.option name none)
    | none =>
      match (assigned? word).elim (candidates word) ([·]) with
      | [(_, name, attached)] => .ok (.option name attached)
      | [] =>
        if isNegativeNumber word || word.contains ' ' then .ok (.value word)
        else .ok (.unknown word)
      | several => .error (.ambiguous word (several.map (·.1)))
  | _ => .ok (.value word)

def classifyAll : List Text → Except UsageError (List Word)
  | [] => .ok []
  | word :: rest =>
    if word = "--".toList then .ok (.separator :: rest.map .value)
    else do
      let first ← classify word
      return first :: (← classifyAll rest)

/-- Why a command line is not carried out. -/
inductive Stop where
  | help
  | usage (error : UsageError)
deriving DecidableEq, Repr

/-- What was read of a command line, and the words that are not wanted. -/
structure Partway where
  input : Option Text := none
  rest : Arguments := { input := [] }
  extras : List Text := []

/-- The format that a value names, which must be one of those that are offered. -/
def formatOf : Option Text → Except Stop Format
  | none => .ok .unnamed
  | some word =>
    match Format.words.lookup word with
    | some format => .ok format
    | none => .error (.usage (.unknownChoice .format word))

/-- The value of an option is put in, or what an option without its value means. -/
def Partway.assign (g : Partway) (value : Option Text) : OptionName → Except Stop Partway
  | .output => .ok { g with rest.output := value }
  | .config => .ok { g with rest.config := value }
  | .format => (formatOf value).map fun format => { g with rest.format := some format }
  | _ => .ok g

/-- The value in the word of an option, where a double hyphen stands for none. -/
def attachedValue (value : Text) : Option Text := if value = "--".toList then none else some value

/-- An option without value is put in. -/
def Partway.raise (g : Partway) : OptionName → Except Stop Partway
  | .help => .error .help
  | .tokens => .ok { g with rest.tokens := true }
  | .failFast => .ok { g with rest.failFast := true }
  | _ => .ok g

/-- What comes of the letters behind the short option for help. Each must be a short option, and the
one that takes a value takes the rest of the word, or else the next word. Help comes first wherever
nothing is wrong. -/
def helpAnd (rest : List Word) : Text → Stop
  | [] => .help
  | 'h' :: tail => helpAnd rest tail
  | ['o'] =>
    match rest with
    | .value _ :: _ => .help
    | _ => .usage (.valueExpected .output)
  | 'o' :: _ => .help
  | tail => .usage (.valueIgnored .help tail)

/-- What comes of the short option for help with more in its word. One equals sign behind it parts
off the letters, of which there must then be one. -/
def helpWith (rest : List Word) : Text → Stop
  | ['='] => .usage (.valueIgnored .help [])
  | '=' :: letters => helpAnd rest letters
  | letters => helpAnd rest letters

def Partway.refuse (g : Partway) (word : Text) : Partway := { g with extras := g.extras ++ [word] }

/-- A value that no option takes: the first is the input, and every other is not wanted. -/
def Partway.take (g : Partway) (value : Text) : Partway :=
  if g.input.isNone then { g with input := some value } else g.refuse value

/-- Goes through the words. A double hyphen before or behind the input is dropped. -/
def consume (g : Partway) : List Word → Except Stop Partway
  | [] => .ok g
  | .unknown text :: rest => consume (g.refuse text) rest
  | .shortHelp tail :: rest => .error (helpWith rest tail)
  | .value text :: .separator :: rest =>
    if g.input.isNone then consume (g.take text) rest
    else consume ((g.refuse text).refuse "--".toList) rest
  | .value text :: rest => consume (g.take text) rest
  | .separator :: .value text :: rest =>
    if g.input.isNone then consume (g.take text) rest
    else consume ((g.refuse "--".toList).refuse text) rest
  | .separator :: rest => consume (g.refuse "--".toList) rest
  | .option name (some value) :: rest =>
    if name.takesValue then (g.assign (attachedValue value) name).bind (consume · rest)
    else .error (.usage (.valueIgnored name value))
  | .option name none :: .value value :: rest =>
    if name.takesValue then (g.assign (some value) name).bind (consume · rest)
    else (g.raise name).bind (consume · (.value value :: rest))
  | .option name none :: rest =>
    if name.takesValue then .error (.usage (.valueExpected name))
    else (g.raise name).bind (consume · rest)

/-- What was read is a request: there is an input and nothing besides. -/
def Partway.finish (g : Partway) : Except Stop Arguments :=
  match g.input, g.extras with
  | none, _ => .error (.usage .missingInput)
  | some input, [] => .ok { g.rest with input }
  | some _, extras => .error (.usage (.unrecognized extras))

/-- What the words of a command line ask for. -/
def parse (words : List Text) : Except Stop Arguments := do
  let words ← (classifyAll words).mapError .usage
  (← consume {} words).finish

end Arguments

end DocComment
