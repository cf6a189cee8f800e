import DocComment.Form.Email
import DocComment.Proofs.Form.HostName

/-!
# The grammar of email addresses

`Email` writes the grammar down as one would on paper: atoms joined by points, an at sign, and a
host name of at least two labels or a network address in brackets. An address is cut at its last at
sign; a domain has none in it, so there is no other way to read one.
-/

namespace DocComment.Form

/-- The characters of atoms are ASCII letters, digits and these signs. -/
def AtomChar (c : Char) : Prop :=
  c.isAlphanum = true ∨
    c ∈ ['!', '#', '$', '%', '&', '\x27', '*', '+', '/', '=', '?', '^', '_', '\x60', '\x7b', '|',
    '\x7d', '~', '-']

structure Atom (t : Text) : Prop where
  nonempty : t ≠ []
  chars : ∀ c ∈ t, AtomChar c

/-- Atoms with points between them, of 64 characters at most. -/
structure LocalPart (t : Text) : Prop where
  nonempty : 1 ≤ t.length
  short : t.length ≤ 64
  atoms : ∃ atoms, atoms ≠ [] ∧ (∀ atom ∈ atoms, Atom atom) ∧ t = ['.'].intercalate atoms

/-- A host name of two labels or more, or a network address in brackets, which may be marked. -/
inductive Domain : Text → Prop where
  | name {labels : List Text} {t : Text} (two : 2 ≤ labels.length)
      (joins : JoinsLabels labels t) : Domain t
  | address {a : Text} (single : '@' ∉ a) (unmarked : ¬"IPv6:".toList <+: a)
      (known : isAddress a = true) : Domain ('[' :: (a ++ [']']))
  | markedAddress {a : Text} (single : '@' ∉ a) (known : isAddress a = true) :
      Domain ('[' :: ("IPv6:".toList ++ a ++ [']']))

inductive Email : Text → Prop where
  | join {front domain : Text} (front_ok : LocalPart front) (domain_ok : Domain domain) :
      Email (front ++ '@' :: domain)

variable {t : Text}

/-! ## The part in front of the at sign -/

theorem isAtomChar_iff {c : Char} : isAtomChar c = true ↔ AtomChar c := by
  rw [isAtomChar, AtomChar, Bool.or_eq_true, decide_eq_true_eq]
  have hsigns : "!#$%&'*+/=?^_\x60\x7b|\x7d~-".toList =
    ['!', '#', '$', '%', '&', '\x27', '*', '+', '/', '=', '?', '^',
    '_', '\x60', '\x7b', '|', '\x7d', '~', '-'] := by decide
  rw [hsigns]

theorem isAtom_iff : (t ≠ [] && t.all isAtomChar) = true ↔ Atom t := by
  rw [Bool.and_eq_true, decide_eq_true_eq, List.all_eq_true]
  constructor
  · rintro ⟨hne, h⟩
    exact ⟨hne, fun c hc => isAtomChar_iff.mp (h c hc)⟩
  · rintro ⟨hne, h⟩
    exact ⟨hne, fun c hc => isAtomChar_iff.mpr (h c hc)⟩

theorem Atom.no_point (h : Atom t) : '.' ∉ t := fun hmem => by
  have hchar := h.chars _ hmem
  revert hchar
  unfold AtomChar
  decide

theorem isLocalPart_iff : isLocalPart t = true ↔ LocalPart t := by
  have hatoms : ((Text.splitAt '.' t).all fun atom => atom ≠ [] && atom.all isAtomChar) = true ↔
      ∃ atoms, atoms ≠ [] ∧ (∀ atom ∈ atoms, Atom atom) ∧ t = ['.'].intercalate atoms := by
    rw [List.all_eq_true, ← Text.forall_splitAt_iff fun _ => Atom.no_point]
    exact forall₂_congr fun atom _ => isAtom_iff
  rw [isLocalPart, Bool.and_eq_true, decide_eq_true_eq, hatoms]
  constructor
  · rintro ⟨hshort, hatoms⟩
    refine ⟨List.length_pos_iff.mpr ?_, hshort, hatoms⟩
    rintro rfl
    obtain ⟨atoms, hne, h, hempty⟩ := hatoms
    rw [← Text.splitAt_eq_iff hne fun atom hmem => (h atom hmem).no_point] at hempty
    exact (h [] (hempty ▸ List.mem_singleton.mpr rfl)).nonempty rfl
  · rintro ⟨-, hshort, hatoms⟩
    exact ⟨hshort, hatoms⟩

/-! ## The part behind it -/

theorem isQualifiedHost_iff :
    isQualifiedHost t = true ↔ ∃ labels, 2 ≤ labels.length ∧ JoinsLabels labels t := by
  rw [isQualifiedHost, Bool.and_eq_true, decide_eq_true_eq, isHostName_iff_label]
  constructor
  · rintro ⟨h, htwo⟩
    exact ⟨hostLabels t, htwo, joinsLabels_hostLabels h⟩
  · rintro ⟨labels, htwo, hjoins⟩
    have hne : labels ≠ [] := by
      rintro rfl
      simp at htwo
    rw [hjoins.hostLabels_eq hne]
    exact ⟨hjoins.label, htwo⟩

theorem isAddressLiteral_iff :
    isAddressLiteral t = true ↔
    ∃ a, t = '[' :: (a ++ [']']) ∧ isAddress (Text.dropLead "IPv6:".toList a) = true := by
  constructor
  · intro h
    unfold isAddressLiteral at h
    split at h
    case h_1 rest =>
      rw [Bool.and_eq_true, decide_eq_true_eq] at h
      obtain ⟨a, rfl⟩ := List.getLast?_eq_some_iff.mp h.1
      rw [List.dropLast_concat] at h
      exact ⟨a, rfl, h.2⟩
    case h_2 => cases h
  · rintro ⟨a, rfl, haddress⟩
    simpa [isAddressLiteral] using haddress

/-- A text without an at sign is a domain if it is one in either of two ways. -/
theorem domain_iff (hsingle : '@' ∉ t) :
    (isAddressLiteral t || isQualifiedHost t) = true ↔ Domain t := by
  rw [Bool.or_eq_true, isAddressLiteral_iff, isQualifiedHost_iff]
  constructor
  · rintro (⟨a, rfl, haddress⟩ | ⟨labels, htwo, hjoins⟩)
    · have ha : '@' ∉ a := fun hmem => hsingle (by simp [hmem])
      by_cases hmark : "IPv6:".toList <+: a
      · obtain ⟨b, rfl⟩ := hmark
        rw [Text.dropLead_append] at haddress
        exact .markedAddress (fun hmem => ha (List.mem_append_right _ hmem)) haddress
      · rw [Text.dropLead_of_unmarked hmark] at haddress
        exact .address ha hmark haddress
    · exact .name htwo hjoins
  · intro h
    cases h with
    | name two joins => exact .inr ⟨_, two, joins⟩
    | @address a _ unmarked known =>
      exact .inl ⟨a, rfl, by rwa [Text.dropLead_of_unmarked unmarked]⟩
    | @markedAddress a _ known => exact .inl ⟨_, rfl, by rwa [Text.dropLead_append]⟩

theorem Domain.no_at (h : Domain t) : '@' ∉ t := by
  cases h with
  | name two joins => exact fun hmem => absurd (joins.chars _ hmem) (by decide)
  | address single => simpa using single
  | markedAddress single => simpa using single

/-- The texts that are taken for email addresses are those of the grammar. -/
theorem isEmail_iff (t : Text) : isEmail t = true ↔ Email t := by
  rw [isEmail]
  constructor
  · intro h
    split at h
    case h_1 => cases h
    case h_2 front domain hcut =>
      obtain ⟨rfl, hsingle⟩ := Text.cutLast?_eq_some.mp hcut
      rw [Bool.and_eq_true, isLocalPart_iff, domain_iff hsingle] at h
      exact .join h.1 h.2
  · rintro ⟨hfront, hdomain⟩
    rw [Text.cutLast?_eq_some.mpr ⟨rfl, hdomain.no_at⟩]
    show (isLocalPart _ && _) = true
    rw [Bool.and_eq_true, isLocalPart_iff, domain_iff hdomain.no_at]
    exact ⟨hfront, hdomain⟩

end DocComment.Form
