import DocComment.Proofs.Grammar.TypeGrammar
import DocComment.Proofs.Grammar.Words

/-!
# The grammar of elements by its productions

The productions overlap: an identifier is a member, a qualified name, and the beginning of both
kinds of call, so a text may be derived in several ways. The test on its characters tries one way
after another, and it misses none of them: the first colon of a text can only be that behind the
owner, as no name has a colon in it.
-/

namespace DocComment

namespace Grammar

open Form (dropCall? isElement isMember)
open Token (kindOf)

/-- A member is a name, a name behind a dollar sign, or a name that is called. -/
inductive Member : Text → Prop where
  | name {t : Text} (name : Derives .identifier t) : Member t
  | dollar {t : Text} (name : Derives .identifier t) : Member ('$' :: t)
  | call {t : Text} (name : Derives .identifier t) : Member (t ++ "()".toList)

/-- An element is a member, a member behind the qualified name of its owner and two colons, or a
qualified name that may be called. -/
inductive Element : Text → Prop where
  | member {t : Text} (member : Member t) : Element t
  | owned {s t : Text} (owner : Derives .qualified s) (member : Member t) :
      Element (s ++ "::".toList ++ t)
  | qualified {t : Text} (name : Derives .qualified t) : Element t
  | call {t : Text} (name : Derives .qualified t) : Element (t ++ "()".toList)

variable {s t : Text}

/-! ## The test on the characters -/

theorem dropCall?_eq_some : dropCall? t = some s ↔ t = s ++ "()".toList := by
  rw [dropCall?]
  constructor
  · intro h
    split at h
    case isTrue hsuffix =>
      obtain ⟨front, rfl⟩ := List.isSuffixOf_iff_suffix.mp hsuffix
      rw [← Option.some.inj h]
      simp
    case isFalse => cases h
  · rintro rfl
    rw [if_pos (List.isSuffixOf_iff_suffix.mpr (List.suffix_append s _))]
    simp

theorem any_dropCall? {test : Text → Bool} :
    (dropCall? t).any test = true ↔ ∃ s, test s = true ∧ t = s ++ "()".toList := by
  simp only [Option.any_eq_true, dropCall?_eq_some]
  exact exists_congr fun s => and_comm

theorem isVariable_iff : Form.isVariable t = true ↔ ∃ s, Derives .identifier s ∧ t = '$' :: s := by
  constructor
  · intro h
    unfold Form.isVariable at h
    split at h
    case h_1 name => exact ⟨name, derives_identifier.mpr h, rfl⟩
    case h_2 => cases h
  · rintro ⟨s, hs, rfl⟩
    exact derives_identifier.mp hs

theorem member_iff : Member t ↔ isMember t = true := by
  rw [isMember, Bool.or_eq_true, Bool.or_eq_true, ← derives_identifier, isVariable_iff,
    any_dropCall?]
  constructor
  · rintro (hname | hname | hname)
    · exact .inl (.inl hname)
    · exact .inl (.inr ⟨_, hname, rfl⟩)
    · exact .inr ⟨_, derives_identifier.mp hname, rfl⟩
  · rintro ((hname | ⟨s, hname, rfl⟩) | ⟨s, hname, rfl⟩)
    · exact .name hname
    · exact .dollar hname
    · exact .call (derives_identifier.mpr hname)

theorem colon_not_mem (h : Derives .qualified t) : ':' ∉ t := by
  intro hmem
  have hcolon : kindOf ':' = .colon := Token.kindOf_of_sign rfl
  rcases (Form.chars_of_isQualified (derives_qualified.mp h)).2 _ hmem with hkind | hkind <;>
    simp [hcolon] at hkind

/-- The first colon is behind the owner. -/
theorem cutFirst?_owned {owner : Text} (h : Derives .qualified owner) (member : Text) :
    Text.cutFirst? ':' (owner ++ "::".toList ++ member) = some (owner, ':' :: member) :=
  Text.cutFirst?_eq_some.mpr ⟨by simp, colon_not_mem h⟩

/-- The productions give the elements, and nothing else. -/
theorem element_iff : Element t ↔ isElement t = true := by
  constructor
  · intro h
    cases h with
    | member member => simp [isElement, member_iff.mp member]
    | owned owner member =>
      simp only [isElement, cutFirst?_owned owner, derives_qualified.mp owner, member_iff.mp member]
      simp
    | qualified name => simp [isElement, derives_qualified.mp name]
    | call name =>
      have hcall := any_dropCall?.mpr ⟨_, derives_qualified.mp name, rfl⟩
      simp only [isElement, hcall, Bool.or_true, Bool.true_or]
  · intro h
    simp only [isElement, Bool.or_eq_true] at h
    rcases h with ((hmember | hname) | hcall) | howned
    · exact .member (member_iff.mpr hmember)
    · exact .qualified (derives_qualified.mpr hname)
    · obtain ⟨s, hname, rfl⟩ := any_dropCall?.mp hcall
      exact .call (derives_qualified.mpr hname)
    · split at howned
      case h_1 owner member hcut =>
        rw [Bool.and_eq_true, ← derives_qualified, ← member_iff] at howned
        rw [(Text.cutFirst?_eq_some.mp hcut).1, List.append_cons, List.append_cons,
          List.append_assoc owner]
        exact .owned howned.1 howned.2
      case h_2 => cases howned

/-! ## The characters of elements -/

theorem isWord_of_derives_identifier (h : Derives .identifier t) : IsWord t :=
  isWord_of_isQualified (isQualified_of_isIdentifier (derives_identifier.mp h))

theorem IsWord.append (hs : IsWord s) (ht : ∀ c ∈ t, kindOf c ∉ wordless) : IsWord (s ++ t) :=
  ⟨List.append_ne_nil_of_left_ne_nil hs.nonempty _, List.forall_mem_append.mpr ⟨hs.kinds, ht⟩⟩

theorem kinds_call : ∀ c ∈ "()".toList, kindOf c ∉ wordless := by
  intro c hc
  obtain rfl | rfl : c = '(' ∨ c = ')' := by simpa using hc
  · exact Token.kindOf_not_mem_of_sign (k := .leftParen) rfl (by decide)
  · exact Token.kindOf_not_mem_of_sign (k := .rightParen) rfl (by decide)

theorem kinds_colons : ∀ c ∈ "::".toList, kindOf c ∉ wordless := by
  intro c hc
  obtain rfl : c = ':' := by simpa using hc
  exact Token.kindOf_not_mem_of_sign (k := .colon) rfl (by decide)

theorem Member.isWord (h : Member t) : IsWord t := by
  cases h with
  | name name => exact isWord_of_derives_identifier name
  | dollar name => exact isWord_of_isVariable (isVariable_iff.mpr ⟨_, name, rfl⟩)
  | call name => exact (isWord_of_derives_identifier name).append kinds_call

theorem Element.isWord (h : Element t) : IsWord t := by
  cases h with
  | member member => exact member.isWord
  | owned owner member =>
    exact ((isWord_of_isQualified (derives_qualified.mp owner)).append kinds_colons).append
      member.isWord.kinds
  | qualified name => exact isWord_of_isQualified (derives_qualified.mp name)
  | call name => exact (isWord_of_isQualified (derives_qualified.mp name)).append kinds_call

end Grammar

end DocComment
