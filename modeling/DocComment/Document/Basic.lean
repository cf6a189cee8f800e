import DocComment.Document.Tag

/-!
# Documents

A document is the description of a comment with its inline tags, and its block tags by kind. Of some
kinds a document keeps one tag, the last that was put in; of the others it keeps all in the order in
which they were put in. `Document.slots` lists both by name and in a fixed order.
-/

namespace DocComment

/-- A value with a description of its own. -/
structure Described (α : Type) where
  value : α
  description : Text := []
  inlineTags : List Tag := []
deriving Repr, Inhabited

def Described.tag {α : Type} (content : α → Content) (d : Described α) : Tag :=
  ⟨content d.value, d.description, d.inlineTags⟩

/-- The description of a comment, and its tags by kind. -/
structure Document where
  description : Text := []
  inlineTags : List Tag := []
  api : Option (Described Unit) := none
  deprecated : Option (Described Text) := none
  inheritDoc : Option (Described Unit) := none
  package : Option (Described Text) := none
  returns : Option (Described Text) := none
  var : Option (Described TypedName) := none
  authors : List (Described Author) := []
  copyrights : List (Described Unit) := []
  internals : List (Described Unit) := []
  links : List (Described Text) := []
  methods : List (Described Signature) := []
  params : List (Described TypedName) := []
  properties : List (Described Property) := []
  see : List (Described Text) := []
  since : List (Described Text) := []
  throws : List (Described Text) := []
  todos : List (Described Unit) := []
  usedBy : List (Described Text) := []
  uses : List (Described Text) := []
  versions : List (Described Text) := []
deriving Repr, Inhabited

namespace Document

/-- Puts a block tag into the slot of its kind. -/
def insert (d : Document) (tag : Tag) : Document :=
  let put {α : Type} (value : α) : Described α := ⟨value, tag.description, tag.inlineTags⟩
  match tag.content with
  | .api => { d with api := some (put ()) }
  | .author author => { d with authors := d.authors ++ [put author] }
  | .copyright => { d with copyrights := d.copyrights ++ [put ()] }
  | .deprecated version => { d with deprecated := some (put version) }
  | .inheritDoc => { d with inheritDoc := some (put ()) }
  | .internal => { d with internals := d.internals ++ [put ()] }
  | .link target => { d with links := d.links ++ [put target] }
  | .method signature => { d with methods := d.methods ++ [put signature] }
  | .package name => { d with package := some (put name) }
  | .param typed => { d with params := d.params ++ [put typed] }
  | .property property => { d with properties := d.properties ++ [put property] }
  | .returns type => { d with returns := some (put type) }
  | .see reference => { d with see := d.see ++ [put reference] }
  | .since version => { d with since := d.since ++ [put version] }
  | .throws type => { d with throws := d.throws ++ [put type] }
  | .todo => { d with todos := d.todos ++ [put ()] }
  | .usedBy reference => { d with usedBy := d.usedBy ++ [put reference] }
  | .uses reference => { d with uses := d.uses ++ [put reference] }
  | .var typed => { d with var := some (put typed) }
  | .version version => { d with versions := d.versions ++ [put version] }

/-- The tags of one kind in a document: at most one, or a list. -/
inductive Slot where
  | single (tag : Option Tag)
  | many (tags : List Tag)

def Slot.tags : Slot → List Tag
  | .single tag => tag.toList
  | .many tags => tags

/-- The tags of a document by the names of their slots. -/
def slots (d : Document) : List (Text × Slot) :=
  let one {α : Type} (content : α → Content) (tag : Option (Described α)) : Slot :=
    .single (tag.map (·.tag content))
  let all {α : Type} (content : α → Content) (tags : List (Described α)) : Slot :=
    .many (tags.map (·.tag content))
  [("api".toList, one (fun _ => .api) d.api),
    ("deprecated".toList, one .deprecated d.deprecated),
    ("inherit_doc".toList, one (fun _ => .inheritDoc) d.inheritDoc),
    ("package".toList, one .package d.package),
    ("returns".toList, one .returns d.returns),
    ("var".toList, one .var d.var),
    ("authors".toList, all .author d.authors),
    ("copyrights".toList, all (fun _ => .copyright) d.copyrights),
    ("internals".toList, all (fun _ => .internal) d.internals),
    ("links".toList, all .link d.links),
    ("methods".toList, all .method d.methods),
    ("params".toList, all .param d.params),
    ("properties".toList, all .property d.properties),
    ("see".toList, all .see d.see),
    ("since".toList, all .since d.since),
    ("throws".toList, all .throws d.throws),
    ("todos".toList, all (fun _ => .todo) d.todos),
    ("used_by".toList, all .usedBy d.usedBy),
    ("uses".toList, all .uses d.uses),
    ("versions".toList, all .version d.versions)]

def blockTags (d : Document) : List Tag := d.slots.flatMap (·.2.tags)

end Document

end DocComment
