import DocComment.Program

/-!
# The command line

The program on the files of the machine. Everything that is decided is decided in `Program`; here
the files are read and written and the outputs printed.
-/

namespace DocComment.CommandLine

/-- What is printed when help is asked for, and before an error on the command line. -/
def usage : String :=
  "usage: docblock [-h] [-o OUTPUT] [--format \x7btree,json\x7d] [--tokens]\n" ++
  "                [--fail-fast] [--config FILE]\n" ++
  "                input\n"

/-- The error of a file operation. The code of a wrong type of file may come with either sign. -/
def fileError : IO.Error → FileError
  | .noFileOrDirectory _ _ _ => .notFound
  | .inappropriateType _ code _ =>
    if code.toInt32.toInt.natAbs = 21 then .isDirectory else .notDirectory
  | e => .other (toString e).toList

/-- An operation with its error as a value. -/
def attempt {α : Type} (action : IO α) : IO (Except FileError α) := do
  match ← action.toBaseIO with
  | .ok a => return .ok a
  | .error e => return .error (fileError e)

def files : Storage IO where
  read path := attempt (IO.FS.readBinFile (String.ofList path.text))
  write path text := attempt (IO.FS.writeFile (String.ofList path.text) (String.ofList text))

def complain (text : Text) : IO Unit := IO.eprint (String.ofList text)

/-- Prints what a run leaves and gives its exit code. -/
def report : Ending → IO UInt32
  | .finished e => do
    IO.print (String.ofList e.output)
    complain e.errors
    return e.code.toUInt32
  | .help => do
    IO.print usage
    return 0
  | .misused e => do
    IO.eprint usage
    complain (Program.usageLine e ++ ['\n'])
    return 2
  | .undecodable path => do
    complain (Program.errorLine ("cannot decode ".toList ++ path.text))
    return 1
  | .unwritable path e => do
    complain (Program.errorLine ("cannot write ".toList ++ path.text ++ ": ".toList ++ e.reason))
    return 1

end DocComment.CommandLine

def main (words : List String) : IO UInt32 := do
  DocComment.CommandLine.report
    (← DocComment.Program.run DocComment.CommandLine.files (words.map String.toList))
