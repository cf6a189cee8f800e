import DocComment.Document.Basic
import DocComment.Text.Quoted

/-!
# Documents as trees

A document is shown line by line: a title, and below it, two spaces further in, its description and
its tags, each tag again with its fields below it. Texts are quoted. Fields that are empty are left
out, except the description of the document itself.
-/

namespace DocComment

namespace Tree

def line (depth : Nat) (t : Text) : Text := List.replicate (2 * depth) ' ' ++ t ++ ['\n']

/-- The line of a named value that is shown already. -/
def fieldLine (depth : Nat) (name shown : Text) : Text := line depth (name ++ ": ".toList ++ shown)

/-- The line of a named text, or none where it is empty. -/
def textLine (depth : Nat) (name value : Text) : Text :=
  if value = [] then [] else fieldLine depth name (Text.quoted value)

def fieldLines (depth : Nat) (name : Text) : Field → Text
  | .text value => textLine depth name value
  | .words values => fieldLine depth name (Text.quotedList values)
  | .arguments values => values.flatMap fun argument =>
    line depth ("argument ".toList ++ argument.type ++ [' '] ++ argument.name)

def inlineLabel (index : Nat) : Text := "inline[".toList ++ Text.numeral index ++ [']']

mutual

def tagLines (depth : Nat) (label : Text) : Tag → Text
  | ⟨content, description, inlineTags⟩ =>
    line depth (label ++ ' ' :: content.title) ++
      content.fields.flatMap (fun (name, field) => fieldLines (depth + 1) name field) ++
      textLine (depth + 1) "description".toList description ++
      inlineLines (depth + 1) 0 inlineTags

/-- The lines of inline tags, numbered from an index on. -/
def inlineLines (depth index : Nat) : List Tag → Text
  | [] => []
  | tag :: tags => tagLines depth (inlineLabel index) tag ++ inlineLines depth (index + 1) tags

end

end Tree

def Document.tree (d : Document) : Text :=
  "Document\n".toList ++
    Tree.fieldLine 1 "description".toList (Text.quoted d.description) ++
    Tree.inlineLines 1 0 d.inlineTags ++
    d.slots.flatMap fun (name, slot) => slot.tags.flatMap (Tree.tagLines 1 name)

end DocComment
