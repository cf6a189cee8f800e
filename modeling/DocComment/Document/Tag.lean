import DocComment.Text.Basic

/-!
# Tags

A tag is what it says, a description, and the inline tags that the description refers to: the inline
tag of index `i` stands in the text as the placeholder of `i`. What a tag says depends on its
keyword alone, so `Content` has one constructor for each keyword and holds nothing recursive.

`Content.fields` lists what a tag says by name and in a fixed order; whatever shows tags goes by it.
-/

namespace DocComment

/-- An author by name, and by email address if there is one. -/
structure Author where
  name : Text
  email : Text
deriving DecidableEq, Repr, Inhabited

structure TypedName where
  type : Text
  name : Text
deriving DecidableEq, Repr, Inhabited

structure Access where
  readable : Bool
  writable : Bool
deriving DecidableEq, Repr, Inhabited

/-- A property, its type, and what may be done with it. -/
structure Property extends TypedName where
  access : Access
deriving DecidableEq, Repr, Inhabited

structure Signature where
  returnType : Text
  name : Text
  arguments : List TypedName
deriving DecidableEq, Repr, Inhabited

/-- What a tag says, apart from its description. -/
inductive Content where
  | api
  | author (author : Author)
  | copyright
  | deprecated (version : Text)
  | inheritDoc
  | internal
  | link (target : Text)
  | method (signature : Signature)
  | package (name : Text)
  | param (typed : TypedName)
  | property (property : Property)
  | returns (type : Text)
  | see (reference : Text)
  | since (version : Text)
  | throws (type : Text)
  | todo
  | usedBy (reference : Text)
  | uses (reference : Text)
  | var (typed : TypedName)
  | version (version : Text)
deriving DecidableEq, Repr, Inhabited

/-- A tag: its content, its description, and the inline tags of the description. -/
structure Tag where
  content : Content
  description : Text := []
  inlineTags : List Tag := []
deriving Repr, Inhabited

/-- The text that stands in a description for the inline tag of an index. -/
def placeholder (index : Nat) : Text :=
  List.replicate 4 '{' ++ Text.numeral index ++ List.replicate 4 '}'

namespace Content

def keyword : Content → Text
  | .api => "api".toList
  | .author _ => "author".toList
  | .copyright => "copyright".toList
  | .deprecated _ => "deprecated".toList
  | .inheritDoc => "inheritdoc".toList
  | .internal => "internal".toList
  | .link _ => "link".toList
  | .method _ => "method".toList
  | .package _ => "package".toList
  | .param _ => "param".toList
  | .property _ => "property".toList
  | .returns _ => "return".toList
  | .see _ => "see".toList
  | .since _ => "since".toList
  | .throws _ => "throws".toList
  | .todo => "todo".toList
  | .usedBy _ => "used-by".toList
  | .uses _ => "uses".toList
  | .var _ => "var".toList
  | .version _ => "version".toList

def title : Content → Text
  | .api => "ApiTag".toList
  | .author _ => "AuthorTag".toList
  | .copyright => "CopyrightTag".toList
  | .deprecated _ => "DeprecatedTag".toList
  | .inheritDoc => "InheritDocTag".toList
  | .internal => "InternalTag".toList
  | .link _ => "LinkTag".toList
  | .method _ => "MethodTag".toList
  | .package _ => "PackageTag".toList
  | .param _ => "ParamTag".toList
  | .property _ => "PropertyTag".toList
  | .returns _ => "ReturnTag".toList
  | .see _ => "SeeTag".toList
  | .since _ => "SinceTag".toList
  | .throws _ => "ThrowsTag".toList
  | .todo => "TodoTag".toList
  | .usedBy _ => "UsedByTag".toList
  | .uses _ => "UsesTag".toList
  | .var _ => "VarTag".toList
  | .version _ => "VersionTag".toList

end Content

def Access.words (a : Access) : List Text :=
  (if a.readable then ["read".toList] else []) ++ (if a.writable then ["write".toList] else [])

inductive Field where
  | text (value : Text)
  | words (values : List Text)
  | arguments (values : List TypedName)
deriving DecidableEq, Repr

/-- What a tag says, by name. -/
def Content.fields : Content → List (Text × Field)
  | .api | .copyright | .inheritDoc | .internal | .todo => []
  | .author a => [("name".toList, .text a.name), ("email".toList, .text a.email)]
  | .link target => [("link".toList, .text target)]
  | .method m =>
    [("return_type".toList, .text m.returnType), ("name".toList, .text m.name),
      ("arguments".toList, .arguments m.arguments)]
  | .package name => [("name".toList, .text name)]
  | .param typed | .var typed =>
    [("type".toList, .text typed.type), ("name".toList, .text typed.name)]
  | .property p =>
    [("direction".toList, .words p.access.words), ("type".toList, .text p.type),
      ("name".toList, .text p.name)]
  | .returns type | .throws type => [("type".toList, .text type)]
  | .see reference | .usedBy reference | .uses reference =>
    [("reference".toList, .text reference)]
  | .deprecated v | .since v | .version v => [("version".toList, .text v)]

end DocComment
