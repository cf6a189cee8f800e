import DocComment.Storage.Basic

/-!
# Trees of files

A storage that is a value: the files of a tree by the names on the way to them from its root, and
the place of the working directory. A directory is there where a file below it is, or where it lies
on the way to the working directory. A path is followed name by name, and double points lead back.
-/

namespace DocComment

/-- The files of a tree by their locations, and the working directory. -/
structure FileTree where
  files : List (List Text × ByteArray)
  workDirectory : List Text

namespace FileTree

def isDirectory (t : FileTree) (location : List Text) : Bool :=
  location.isPrefixOf t.workDirectory ||
    t.files.any fun file => location.isPrefixOf file.1 && location ≠ file.1

def file? (t : FileTree) (location : List Text) : Option ByteArray := t.files.lookup location

/-- The location that names lead to from another one. -/
def follow (t : FileTree) (location : List Text) : List Text → Except FileError (List Text)
  | [] => .ok location
  | name :: rest =>
    if t.isDirectory location then
      t.follow (if name = "..".toList then location.dropLast else location ++ [name]) rest
    else if (t.file? location).isSome then .error .notDirectory
    else .error .notFound

def locate (t : FileTree) (p : Path) : Except FileError (List Text) :=
  t.follow (if p.root = [] then t.workDirectory else []) p.parts

def read (t : FileTree) (p : Path) : Except FileError ByteArray := do
  let location ← t.locate p
  if t.isDirectory location then throw .isDirectory
  match t.file? location with
  | some bytes => return bytes
  | none => throw .notFound

def put (t : FileTree) (location : List Text) (bytes : ByteArray) : FileTree :=
  { t with files := t.files.filter (·.1 ≠ location) ++ [(location, bytes)] }

def write (t : FileTree) (p : Path) (text : Text) : Except FileError FileTree := do
  let location ← t.locate p
  if t.isDirectory location then throw .isDirectory
  return t.put location (String.ofList text).toUTF8

/-- The storage of a tree that is carried along. -/
def storage : Storage (StateM FileTree) where
  read p := return (← get).read p
  write p text := do
    match (← get).write p text with
    | .ok tree => set tree; return .ok ()
    | .error e => return .error e

end FileTree

end DocComment
