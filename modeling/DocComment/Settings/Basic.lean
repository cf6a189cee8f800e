import DocComment.Settings.Arguments
import DocComment.Settings.Toml
import DocComment.Storage.Path

/-!
# Settings

The settings of a run are those of its command line, and where that is silent those of a
configuration file. The file is the one that the command line names, or else the one beside the
input. A format in the file must be one that is offered even where the command line overrides it;
any other entry of a wrong type is left aside.
-/

namespace DocComment

structure Settings where
  input : Path
  output : Option Path
  check : CheckOptions
deriving DecidableEq, Repr

inductive SettingsError where
  | malformed (line : Nat)
  | unknownFormat (value : Toml.Value)
deriving Repr, Inhabited

def SettingsError.message : SettingsError → Text
  | .malformed line => "invalid config file: line ".toList ++ Text.numeral line
  | .unknownFormat value =>
    "invalid format in config (expected one of ".toList ++
      ", ".toList.intercalate (Format.words.map (·.1)) ++ "): ".toList ++ value.shown

namespace Settings

def nonEmpty (t : Option Text) : Option Text := t.filter (· ≠ [])

def configPath (arguments : Arguments) : Path :=
  match nonEmpty arguments.config with
  | some name => Path.ofText name
  | none => (Path.ofText arguments.input).parent.child "docblock.toml".toList

def format? (config : Toml.Table) : Except SettingsError (Option Format) :=
  match config.lookup "format".toList with
  | none => .ok none
  | some (.text word) =>
    match Format.words.lookup word with
    | some format => .ok (some format)
    | none => .error (.unknownFormat (.text word))
  | some value => .error (.unknownFormat value)

/-- Whether a configuration file makes the first failure the last, where it says so by a truth
value. -/
def failFast? (config : Toml.Table) : Option Bool :=
  match config.lookup "fail_fast".toList with
  | some (.boolean value) => some value
  | _ => none

/-- The settings of a command line over those of a configuration file. -/
def resolve (arguments : Arguments) (config : Toml.Table) : Except SettingsError Settings := do
  let format ← format? config
  return {
    input := Path.ofText arguments.input
    output := (nonEmpty arguments.output).map Path.ofText
    check := {
      format := arguments.format.getD (format.getD .tree)
      tokens := arguments.tokens
      failFast := arguments.failFast || (failFast? config).getD false } }

end Settings

end DocComment
