import DocComment.Settings.Basic
import DocComment.Storage.Basic

/-!
# The program

One run reads its command line, its configuration file and its input, checks the input, and writes
what is shown to the output file or to the standard output. It is written for any storage, so that
it can be run on real files and on a tree of files alike.

The output file is opened only when the input could be read, and then it is written whole. A
configuration file that is not there counts as empty.
-/

namespace DocComment

/-- What a run that came to its end leaves: the exit code and the two standard outputs. -/
structure Execution where
  code : Nat
  output : Text := []
  errors : Text := []
deriving DecidableEq, Repr

/-- How a run ends. -/
inductive Ending where
  | finished (execution : Execution)
  | help
  | misused (error : UsageError)
  | undecodable (path : Path)
  | unwritable (path : Path) (error : FileError)
deriving DecidableEq, Repr

inductive SetupError where
  | settings (error : SettingsError)
  | undecodable (path : Path)
deriving Repr

namespace Program

variable {m : Type → Type} [Monad m]

/-- The name under which the program speaks. -/
def name : Text := "docblock".toList

def usageLine (e : UsageError) : Text := name ++ ": error: ".toList ++ e.message

def errorLine (message : Text) : Text := "error: ".toList ++ message ++ ['\n']

def config (storage : Storage m) (path : Path) : m (Except SetupError Toml.Table) := do
  match ← storage.read path with
  | .error _ => return .ok []
  | .ok bytes =>
    match decodeText? bytes with
    | none => return .error (.undecodable path)
    | some text => return (Toml.parse text).mapError (.settings ∘ .malformed)

def settings (storage : Storage m) (arguments : Arguments) : m (Except SetupError Settings) := do
  match ← config storage (Settings.configPath arguments) with
  | .error e => return .error e
  | .ok table => return (Settings.resolve arguments table).mapError .settings

/-- Checks the input and writes what is shown. -/
def checkFile (storage : Storage m) (settings : Settings) : m Ending := do
  match ← storage.read settings.input with
  | .error e =>
    let message := "cannot read ".toList ++ settings.input.text ++ ": ".toList ++ e.reason
    return .finished { code := 2, errors := errorLine message }
  | .ok bytes =>
    match decodeText? bytes with
    | none => return .undecodable settings.input
    | some text =>
      let outcome := check settings.check settings.input.text (unifyBreaks text)
      let code := if outcome.failures.isEmpty then 0 else 1
      match settings.output with
      | none => return .finished { code, output := outcome.output, errors := outcome.reports }
      | some path =>
        match ← storage.write path outcome.output with
        | .error e => return .unwritable path e
        | .ok () => return .finished { code, errors := outcome.reports }

/-- Runs the program on the words of a command line. -/
def run (storage : Storage m) (words : List Text) : m Ending := do
  match Arguments.parse words with
  | .error .help => return .help
  | .error (.usage e) => return .misused e
  | .ok arguments =>
    match ← settings storage arguments with
    | .error (.undecodable path) => return .undecodable path
    | .error (.settings e) => return .finished { code := 2, errors := errorLine e.message }
    | .ok settings => checkFile storage settings

end Program

end DocComment
