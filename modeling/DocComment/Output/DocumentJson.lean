import DocComment.Document.Basic
import DocComment.Output.Json

/-!
# Documents as JSON

A document is an object of its description and of the slots that hold a tag; a tag is an object of
its keyword, its fields and its description. Inline tags are shown only where there are any, while
the fields of a tag are all shown, empty or not.
-/

namespace DocComment

def Field.json : Field → Json
  | .text value => .text value
  | .words values => .array (values.map .text)
  | .arguments values =>
    .array (values.map fun argument =>
      .object [("type".toList, .text argument.type), ("name".toList, .text argument.name)])

/-- The member for inline tags, if there are any. -/
def inlineMember (inlineTags : List Json) : List (Text × Json) :=
  if inlineTags.isEmpty then [] else [("inline_tags".toList, .array inlineTags)]

mutual

def Tag.json : Tag → Json
  | ⟨content, description, inlineTags⟩ =>
    .object (("tag".toList, .text content.keyword) ::
      content.fields.map (fun (name, field) => (name, field.json)) ++
      ("description".toList, .text description) :: inlineMember (Tag.jsonAll inlineTags))

def Tag.jsonAll : List Tag → List Json
  | [] => []
  | tag :: tags => tag.json :: Tag.jsonAll tags

end

/-- The member for a slot, if it holds a tag. -/
def Document.Slot.member (name : Text) : Document.Slot → List (Text × Json)
  | .single none => []
  | .single (some tag) => [(name, tag.json)]
  | .many [] => []
  | .many tags => [(name, .array (Tag.jsonAll tags))]

def Document.json (d : Document) : Json :=
  .object (("description".toList, .text d.description) :: inlineMember (Tag.jsonAll d.inlineTags) ++
    d.slots.flatMap fun (name, slot) => slot.member name)

end DocComment
