import DocComment.Document.Basic
import DocComment.Proofs.Grammar.TypeText

/-!
# Well-formed documents

What holds of everything a document holds. Each text that a tag says something with has the form
that its field wants, or is empty where the field may be left out, and every description is
stripped. The same holds of the inline tags of a description, however deep they are.
-/

namespace DocComment

open Grammar (IsType)

/-- A version that is complete by itself, or the name of a version-control system and what that
system writes between dollar signs. -/
def IsVersionText (v : Text) : Prop :=
  (Form.isVersion v = true ∧ v.getLast? ≠ some ':') ∨
    ∃ system text, v = system ++ ": $".toList ++ text ++ ['$'] ∧ system ≠ [] ∧
      system.all Form.isVersionChar = true ∧ '$' ∉ text

/-- What a tag says has the form that its fields want. -/
def Content.WellFormed : Content → Prop
  | .api | .copyright | .inheritDoc | .internal | .todo => True
  | .author a => Text.strip a.name = a.name ∧ (a.email = [] ∨ Form.isEmail a.email = true)
  | .deprecated v => v = [] ∨ IsVersionText v
  | .since v | .version v => IsVersionText v
  | .link target => Form.isUri target = true
  | .method m =>
    IsType .whole m.returnType ∧ Form.isIdentifier m.name = true ∧
      ∀ a ∈ m.arguments, IsType .whole a.type ∧ Form.isVariable a.name = true
  | .package name | .throws name => Form.isQualified name = true
  | .param typed | .var typed =>
    IsType .whole typed.type ∧ (typed.name = [] ∨ Form.isVariable typed.name = true)
  | .property p => IsType .whole p.type ∧ Form.isVariable p.name = true
  | .returns type => IsType .whole type
  | .see reference => Form.isUri reference = true ∨ Form.isElement reference = true
  | .uses reference | .usedBy reference =>
    reference ≠ [] ∧ (Form.isUri reference = true ∨ Form.isElement reference = true ∨
      Form.isFile reference = true)

/-- A tag that says something well-formed, with a stripped description whose inline tags are
well-formed as well. -/
inductive Tag.WellFormed : Tag → Prop
  | intro {tag : Tag} (content : tag.content.WellFormed)
      (stripped : Text.strip tag.description = tag.description)
      (inline : ∀ inner ∈ tag.inlineTags, inner.WellFormed) : tag.WellFormed

structure Document.WellFormed (d : Document) : Prop where
  stripped : Text.strip d.description = d.description
  inline : ∀ tag ∈ d.inlineTags, tag.WellFormed
  block : ∀ tag ∈ d.blockTags, tag.WellFormed

namespace Document

/-- A tag of a document is one that was put in. -/
theorem mem_blockTags_insert {d : Document} {new tag : Tag} (h : tag ∈ (d.insert new).blockTags) :
    tag = new ∨ tag ∈ d.blockTags := by
  obtain ⟨content, description, inlineTags⟩ := new
  cases content <;>
    simp only [blockTags, insert, slots, List.flatMap_cons, List.flatMap_nil, List.append_nil,
      List.mem_append, Slot.tags, List.map_append, List.map_cons, List.map_nil, List.mem_singleton,
      Option.map_some, Option.toList_some, Described.tag] at h ⊢ <;>
    grind

theorem insert_own (d : Document) (tag : Tag) :
    (d.insert tag).description = d.description ∧ (d.insert tag).inlineTags = d.inlineTags := by
  unfold insert
  split <;> exact ⟨rfl, rfl⟩

/-- Block tags change nothing of what a document says itself. -/
theorem foldl_insert_own (tags : List Tag) (d : Document) :
    (tags.foldl insert d).description = d.description ∧
      (tags.foldl insert d).inlineTags = d.inlineTags := by
  induction tags generalizing d with
  | nil => exact ⟨rfl, rfl⟩
  | cons tag tags ih =>
    obtain ⟨hdescription, hinline⟩ := insert_own d tag
    exact ⟨(ih _).1.trans hdescription, (ih _).2.trans hinline⟩

theorem mem_blockTags_foldl_insert {tags : List Tag} {d : Document} {tag : Tag}
    (h : tag ∈ (tags.foldl insert d).blockTags) : tag ∈ tags ∨ tag ∈ d.blockTags := by
  induction tags generalizing d with
  | nil => exact .inr h
  | cons new tags ih =>
    rcases ih h with hmem | hmem
    · exact .inl (List.mem_cons_of_mem _ hmem)
    · rcases mem_blockTags_insert hmem with rfl | hmem
      · exact .inl (List.mem_cons_self ..)
      · exact .inr hmem

end Document

end DocComment
