import DocComment.Storage.Path

/-!
# Storage

Where files are read and written. The program is written for any storage; it meets only the two
operations and the errors that are given here.
-/

namespace DocComment

inductive FileError where
  | notFound
  | isDirectory
  | notDirectory
  | other (reason : Text)
deriving DecidableEq, Repr, Inhabited

def FileError.reason : FileError → Text
  | .notFound => "No such file or directory".toList
  | .isDirectory => "Is a directory".toList
  | .notDirectory => "Not a directory".toList
  | .other reason => reason

/-- Reading a file as bytes, and writing a text as a whole file. -/
structure Storage (m : Type → Type) where
  read : Path → m (Except FileError ByteArray)
  write : Path → Text → m (Except FileError Unit)

/-- The text of bytes, where they are the encoding of one. -/
def decodeText? (bytes : ByteArray) : Option Text := (String.fromUTF8? bytes).map String.toList

/-- A text with every carriage return, and every pair of it and a line feed, made one line feed. -/
def unifyBreaks : Text → Text
  | [] => []
  | '\r' :: '\n' :: rest => '\n' :: unifyBreaks rest
  | c :: rest => (if c = '\r' then '\n' else c) :: unifyBreaks rest

end DocComment
