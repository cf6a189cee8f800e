import DocComment.Grammar.Comment

/-!
# Declarations and their documents

A declaration is an element of a program with the comment that stands before it. A filter selects
class members by kind and visibility and leaves everything else in. Internal declarations have no
documents: asking for the one of such a declaration is an error, and a list of documents leaves them
out.
-/

namespace DocComment

inductive ElementKind where
  | classType | interfaceType | function | method | property | constant
deriving DecidableEq, Repr, Inhabited

/-- Who may see a class member. -/
inductive Visibility where
  | publicly | protectedly | privately
deriving DecidableEq, Repr, Inhabited

/-- A program element with its doc-comment. -/
structure Declaration where
  kind : ElementKind
  name : Text
  comment : Text := []
  visibility : Visibility := .publicly
  isInternal : Bool := false
deriving DecidableEq, Repr, Inhabited

/-- A selection of class members: three bits each for methods, properties and constants. -/
abbrev Filter := BitVec 9

namespace Filter

/-- The first bit of a kind of class member. -/
def base? : ElementKind → Option Nat
  | .method => some 0
  | .property => some 3
  | .constant => some 6
  | _ => none

def place : Visibility → Nat
  | .publicly => 0
  | .protectedly => 1
  | .privately => 2

def all : Filter := BitVec.allOnes 9

/-- The filter admits a declaration: it is no class member, or its bit is set. -/
def admits (f : Filter) (d : Declaration) : Bool :=
  match base? d.kind with
  | none => true
  | some base => f.getLsbD (base + place d.visibility)

end Filter

/-- Why a declaration has no document. -/
inductive DeclarationError where
  | internal (name : Text)
  | unreadable (failure : Failure)
deriving DecidableEq, Repr

def DeclarationError.internalMessage (name : Text) : Text :=
  "cannot parse internal element \"".toList ++ name ++ ['"']

namespace Declaration

def document (d : Declaration) : Except DeclarationError Document :=
  if d.isInternal then .error (.internal d.name)
  else (Document.parse d.comment).mapError .unreadable

/-- The declarations that get a document, in order. -/
def selected (f : Filter) (declarations : List Declaration) : List Declaration :=
  declarations.filter fun d => !d.isInternal && f.admits d

/-- The selected declarations with their documents, or the first error. -/
def documents (f : Filter) (declarations : List Declaration) :
    Except DeclarationError (List (Declaration × Document)) :=
  (selected f declarations).mapM fun d => return (d, ← d.document)

end Declaration

end DocComment
