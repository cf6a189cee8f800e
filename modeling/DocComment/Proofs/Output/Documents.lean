import DocComment.Check
import DocComment.Proofs.Output.Layout

/-!
# What is shown as JSON determines the documents

The keyword of a tag tells which fields it has, and so what the values of the fields are values of.
What is left out of an object is an empty list or a missing tag, and nothing else stands under its
name.
-/

namespace DocComment

attribute [ext] Author TypedName Property Signature Described Document

/-! ## Contents -/

namespace Field

theorem json_text {s t : Text} : (Field.text s).json = (Field.text t).json ↔ s = t := by
  simp only [json, Json.text.injEq]

theorem json_words {ts us : List Text} :
    (Field.words ts).json = (Field.words us).json ↔ ts = us := by
  rw [json, json, Json.array.injEq]
  exact List.map_inj_right fun _ _ => Json.text.inj

theorem json_arguments {as bs : List TypedName} :
    (Field.arguments as).json = (Field.arguments bs).json ↔ as = bs := by
  rw [json, json, Json.array.injEq]
  apply List.map_inj_right
  intro a b h
  simpa [TypedName.ext_iff] using h

end Field

theorem Access.words_inj {a b : Access} : a.words = b.words ↔ a = b := by
  obtain ⟨readable, writable⟩ := a
  obtain ⟨otherReadable, otherWritable⟩ := b
  cases readable <;> cases writable <;> cases otherReadable <;> cases otherWritable <;> decide

namespace Content

variable {c d : Content} {x y : List (Text × Json)}

/-- The keywords in the order of the contents they belong to. -/
def keywords : List Text :=
  ["api".toList, "author".toList, "copyright".toList, "deprecated".toList, "inheritdoc".toList,
    "internal".toList, "link".toList, "method".toList, "package".toList, "param".toList,
    "property".toList, "return".toList, "see".toList, "since".toList, "throws".toList,
    "todo".toList, "used-by".toList, "uses".toList, "var".toList, "version".toList]

theorem nodup_keywords : keywords.Nodup := by decide +kernel

theorem keywords_ctorIdx (c : Content) : keywords[c.ctorIdx]? = some c.keyword := by
  cases c <;> rfl

theorem ctorIdx_eq (h : c.keyword = d.keyword) : c.ctorIdx = d.ctorIdx := by
  have hget : keywords[c.ctorIdx]? = keywords[d.ctorIdx]? := by
    rw [keywords_ctorIdx, keywords_ctorIdx, h]
  obtain ⟨hlt, -⟩ := List.getElem?_eq_some_iff.mp c.keywords_ctorIdx
  exact (List.getElem?_inj hlt nodup_keywords).mp hget

/-- The members for the fields of a tag. -/
def members (c : Content) : List (Text × Json) :=
  c.fields.map fun (name, field) => (name, field.json)

/-- Contents with one keyword are told apart by the values of their fields, whatever members
follow. -/
theorem members_inj (hkeyword : c.keyword = d.keyword) (h : c.members ++ x = d.members ++ y) :
    c = d ∧ x = y := by
  have hindex := ctorIdx_eq hkeyword
  cases c <;> cases d <;> cases hindex <;>
    simp only [members, fields, List.map_cons, List.map_nil, List.cons_append, List.nil_append,
      List.cons.injEq, Prod.mk.injEq, true_and, Field.json_text, Field.json_words,
      Field.json_arguments, Access.words_inj] at h <;>
    grind [Author.ext, TypedName.ext, Property.ext, Signature.ext]

end Content

/-! ## Tags -/

theorem inlineMember_inj {ts us : List Json} (h : inlineMember ts = inlineMember us) : ts = us := by
  cases ts <;> cases us <;> simp_all [inlineMember]

theorem Tag.json_eq (content : Content) (description : Text) (inlineTags : List Tag) :
    Tag.json ⟨content, description, inlineTags⟩ =
      .object (("tag".toList, .text content.keyword) :: content.members ++
        ("description".toList, .text description) :: inlineMember (Tag.jsonAll inlineTags)) := by
  rw [Tag.json]
  rfl

theorem Tag.json_ne_array (t : Tag) {items : List Json} : t.json ≠ .array items := by
  obtain ⟨content, description, inlineTags⟩ := t
  rw [Tag.json_eq]
  exact nofun

mutual

theorem Tag.json_inj {t u : Tag} (h : t.json = u.json) : t = u := by
  match t, u with
  | ⟨content, description, inlineTags⟩, ⟨other, otherDescription, otherTags⟩ =>
    rw [Tag.json_eq, Tag.json_eq, Json.object.injEq, List.cons_append, List.cons_append,
      List.cons.injEq] at h
    obtain ⟨hkeyword, hmembers⟩ := h
    have hsame : content.keyword = other.keyword := by simpa using hkeyword
    obtain ⟨rfl, hrest⟩ := Content.members_inj hsame hmembers
    obtain ⟨hdescription, hinline⟩ := List.cons.inj hrest
    have htags := Tag.jsonAll_inj (inlineMember_inj hinline)
    have htext : description = otherDescription := by simpa using hdescription
    rw [htags, htext]

theorem Tag.jsonAll_inj {ts us : List Tag} (h : Tag.jsonAll ts = Tag.jsonAll us) : ts = us := by
  match ts, us with
  | [], [] => rfl
  | [], _ :: _ => rw [Tag.jsonAll, Tag.jsonAll] at h; cases h
  | _ :: _, [] => rw [Tag.jsonAll, Tag.jsonAll] at h; cases h
  | t :: ts, u :: us =>
    rw [Tag.jsonAll, Tag.jsonAll] at h
    rw [Tag.json_inj (List.cons.inj h).1, Tag.jsonAll_inj (List.cons.inj h).2]

end

/-! ## Documents -/

namespace Document

variable {name : Text} {d e : Document}

namespace Slot

variable {a b : Slot} {x y : List (Text × Json)}

theorem name_of_mem_member {m : Text × Json} (h : m ∈ a.member name) : m.1 = name := by
  rcases a with (_ | tag) | (_ | ⟨tag, tags⟩) <;> simp_all [member]

/-- What is shown of a slot determines its tags: a missing tag and an empty list are both
no tags. -/
theorem tags_eq_of_member (h : a.member name = b.member name) : a.tags = b.tags := by
  rcases a with (_ | tag) | (_ | ⟨tag, tags⟩) <;>
    rcases b with (_ | other) | (_ | ⟨other, others⟩) <;>
    simp only [member, List.cons.injEq, Prod.mk.injEq, true_and, and_true, Json.array.injEq,
      reduceCtorEq] at h
  case single.none.single.none => rfl
  case single.none.many.nil => rfl
  case many.nil.single.none => rfl
  case many.nil.many.nil => rfl
  case single.some.single.some => rw [Tag.json_inj h]
  case single.some.many.cons => exact absurd h tag.json_ne_array
  case many.cons.single.some => exact absurd h.symm other.json_ne_array
  case many.cons.many.cons => exact Tag.jsonAll_inj h

/-- The members under one name are those of one slot. -/
theorem member_append_inj (hx : ∀ m ∈ x, m.1 ≠ name) (hy : ∀ m ∈ y, m.1 ≠ name)
    (h : a.member name ++ x = b.member name ++ y) : a.member name = b.member name ∧ x = y := by
  have hown : ∀ (slot : Slot) (rest : List (Text × Json)), (∀ m ∈ rest, m.1 ≠ name) →
      (slot.member name ++ rest).filter (·.1 = name) = slot.member name := by
    intro slot rest hrest
    rw [List.filter_append, List.filter_eq_self.mpr, List.filter_eq_nil_iff.mpr, List.append_nil]
    · intro m hm
      simpa using hrest m hm
    · intro m hm
      simpa using name_of_mem_member hm
  have hmember : a.member name = b.member name := by rw [← hown a x hx, h, hown b y hy]
  rw [hmember] at h
  exact ⟨hmember, List.append_cancel_left h⟩

end Slot

def membersOf (slots : List (Text × Slot)) : List (Text × Json) :=
  slots.flatMap fun (name, slot) => slot.member name

theorem name_mem_of_mem_membersOf {slots : List (Text × Slot)} {m : Text × Json}
    (h : m ∈ membersOf slots) :
    m.1 ∈ slots.map (·.1) := by
  obtain ⟨⟨name, slot⟩, hslot, hm⟩ := List.mem_flatMap.mp h
  rw [Slot.name_of_mem_member hm]
  exact List.mem_map_of_mem hslot

/-- Slots under names that occur once are told apart by their members, although the empty ones have
none. -/
theorem tags_eq_of_membersOf {l m : List (Text × Slot)} (hnames : l.map (·.1) = m.map (·.1))
    (hnodup : (l.map (·.1)).Nodup) (h : membersOf l = membersOf m) :
    l.map (·.2.tags) = m.map (·.2.tags) := by
  induction l generalizing m with
  | nil =>
    obtain rfl := List.map_eq_nil_iff.mp hnames.symm
    rfl
  | cons first l ih =>
    obtain ⟨name, slot⟩ := first
    obtain ⟨⟨other, otherSlot⟩, m, rfl, hother, hrest⟩ := List.map_eq_cons_iff.mp hnames.symm
    obtain rfl : other = name := hother
    obtain ⟨hfresh, hnodup⟩ := List.nodup_cons.mp hnodup
    have hl : ∀ member ∈ membersOf l, member.1 ≠ other := by
      intro member hm heq
      exact hfresh (heq ▸ name_mem_of_mem_membersOf hm)
    have hm : ∀ member ∈ membersOf m, member.1 ≠ other := by
      intro member hm heq
      have hmem := name_mem_of_mem_membersOf hm
      rw [hrest, heq] at hmem
      exact hfresh hmem
    obtain ⟨hslot, hmembers⟩ := Slot.member_append_inj hl hm h
    rw [List.map_cons, List.map_cons, Slot.tags_eq_of_member hslot, ih hrest.symm hnodup hmembers]

/-- The lists and tags that a document is shown by: its inline tags, and its slots. -/
def parts (d : Document) : List (Text × Slot) :=
  ("inline_tags".toList, .many d.inlineTags) :: d.slots

theorem map_names_parts (d e : Document) : d.parts.map (·.1) = e.parts.map (·.1) := rfl

theorem nodup_names (d : Document) : (d.parts.map (·.1)).Nodup := by
  rw [map_names_parts d {}]
  decide +kernel

theorem json_eq (d : Document) :
    d.json = .object (("description".toList, .text d.description) :: membersOf d.parts) := by
  have hinline : inlineMember (Tag.jsonAll d.inlineTags) = Slot.member "inline_tags".toList
      (.many d.inlineTags) := by
    cases hcases : d.inlineTags <;> simp [Tag.jsonAll, inlineMember, Slot.member]
  rw [json, hinline]
  rfl

section Kinds

variable {α : Type} {content : α → Content}

theorem tag_inj (hcontent : Function.Injective content) {a b : Described α}
    (h : a.tag content = b.tag content) :
    a = b := by
  obtain ⟨hvalue, hdescription, hinline⟩ := Tag.mk.inj h
  exact Described.ext (hcontent hvalue) hdescription hinline

theorem one_inj (hcontent : Function.Injective content) {a b : Option (Described α)}
    (h : (Slot.single (a.map (·.tag content))).tags = (Slot.single (b.map (·.tag content))).tags) :
    a = b := by
  cases a with
  | none => cases b with
    | none => rfl
    | some b => cases h
  | some a => cases b with
    | none => cases h
    | some b => rw [tag_inj hcontent (List.cons.inj h).1]

theorem all_inj (hcontent : Function.Injective content) {as bs : List (Described α)}
    (h : (Slot.many (as.map (·.tag content))).tags = (Slot.many (bs.map (·.tag content))).tags) :
    as = bs :=
  (List.map_inj_right fun _ _ => tag_inj hcontent).mp h

theorem unit_inj {content : Content} : Function.Injective fun _ : Unit => content :=
  fun _ _ _ => rfl

end Kinds

theorem json_inj (h : d.json = e.json) : d = e := by
  rw [json_eq, json_eq, Json.object.injEq, List.cons.injEq] at h
  obtain ⟨hdescription, hmembers⟩ := h
  have htags := tags_eq_of_membersOf (map_names_parts d e) (nodup_names d) hmembers
  simp only [parts, slots, List.map_cons, List.map_nil, List.cons.injEq, and_true] at htags
  obtain ⟨hinline, hapi, hdeprecated, hinheritDoc, hpackage, hreturns, hvar, hauthors, hcopyrights,
    hinternals, hlinks, hmethods, hparams, hproperties, hsee, hsince, hthrows, htodos, husedBy,
    huses, hversions⟩ := htags
  apply Document.ext
  · simpa using hdescription
  · exact hinline
  · exact one_inj unit_inj hapi
  · exact one_inj (fun _ _ => Content.deprecated.inj) hdeprecated
  · exact one_inj unit_inj hinheritDoc
  · exact one_inj (fun _ _ => Content.package.inj) hpackage
  · exact one_inj (fun _ _ => Content.returns.inj) hreturns
  · exact one_inj (fun _ _ => Content.var.inj) hvar
  · exact all_inj (fun _ _ => Content.author.inj) hauthors
  · exact all_inj unit_inj hcopyrights
  · exact all_inj unit_inj hinternals
  · exact all_inj (fun _ _ => Content.link.inj) hlinks
  · exact all_inj (fun _ _ => Content.method.inj) hmethods
  · exact all_inj (fun _ _ => Content.param.inj) hparams
  · exact all_inj (fun _ _ => Content.property.inj) hproperties
  · exact all_inj (fun _ _ => Content.see.inj) hsee
  · exact all_inj (fun _ _ => Content.since.inj) hsince
  · exact all_inj (fun _ _ => Content.throws.inj) hthrows
  · exact all_inj unit_inj htodos
  · exact all_inj (fun _ _ => Content.usedBy.inj) husedBy
  · exact all_inj (fun _ _ => Content.uses.inj) huses
  · exact all_inj (fun _ _ => Content.version.inj) hversions

end Document

/-! ## The output -/

/-- What the array holds for a document that was found. -/
def listed (found : Position × Document) : Json :=
  .object [("line".toList, .number found.1.line), ("document".toList, found.2.json)]

theorem listed_inj {a b : Position × Document} :
    listed a = listed b ↔ (a.1.line, a.2) = (b.1.line, b.2) := by
  constructor
  · intro h
    simp only [listed, Json.object.injEq, List.cons.injEq, Prod.mk.injEq, true_and, and_true,
      Json.number.injEq] at h
    rw [h.1, Document.json_inj h.2]
  · intro h
    obtain ⟨hline, hdocument⟩ := Prod.mk.inj h
    rw [listed, listed, hline, hdocument]

theorem map_listed_inj {found others : List (Position × Document)} :
    found.map listed = others.map listed ↔
      found.map (fun (p, d) => (p.line, d)) = others.map (fun (p, d) => (p.line, d)) := by
  induction found generalizing others with
  | nil => cases others <;> simp
  | cons first found ih =>
    cases others with
    | nil => simp
    | cons other others =>
      rw [List.map_cons, List.map_cons, List.map_cons, List.map_cons, List.cons.injEq,
        List.cons.injEq, ih, listed_inj]

/-- What is written for the values determines them. -/
theorem Json.write_inj {v w : Json} (h : v.write ++ ['\n'] = w.write ++ ['\n']) : v = w := by
  have hends : Json.Ends ['\n'] := by
    intro c hc
    obtain rfl := Option.some.inj hc
    decide
  exact (Json.layout_inj hends hends h).1

theorem Check.output_documents (failFast : Bool) (found : List (Position × Document)) :
    output ⟨.json, false, failFast⟩ (found.map fun (p, d) => (p, .document d)) =
      Json.write (.array (found.map listed)) ++ ['\n'] := by
  rw [output, if_pos ⟨rfl, rfl⟩, List.filterMap_map]
  have heach : (fun entry : Position × Entry => entry.2.json? entry.1) ∘
      (fun entry : Position × Document => (entry.1, Entry.document entry.2)) = some ∘ listed := rfl
  rw [heach, List.filterMap_eq_map]

/-- The JSON output determines the documents that it shows and their lines; the object for a tag
determines the tag, and the object for a document the document, although empty slots and lists
without inline tags are left out. -/
theorem Check.output_json_iff :
    Function.Injective Tag.json ∧ Function.Injective Document.json ∧
      ∀ (failFast otherFast : Bool) (found others : List (Position × Document)),
        output ⟨.json, false, failFast⟩ (found.map fun (p, d) => (p, .document d)) =
            output ⟨.json, false, otherFast⟩ (others.map fun (p, d) => (p, .document d)) ↔
          found.map (fun (p, d) => (p.line, d)) = others.map (fun (p, d) => (p.line, d)) := by
  refine ⟨fun _ _ => Tag.json_inj, fun _ _ => Document.json_inj, ?_⟩
  intro failFast otherFast found others
  rw [output_documents, output_documents, ← map_listed_inj]
  constructor
  · intro h
    exact Json.array.inj (Json.write_inj h)
  · intro h
    rw [h]

end DocComment
