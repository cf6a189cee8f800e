import DocComment.Document.Tag
import DocComment.Form.Address
import DocComment.Proofs.Form.Characters
import DocComment.Proofs.Text.Strip

/-!
# Marks in texts

A mark is a decimal numeral between four opening and four closing braces, as placeholders are
written. A text that goes on with a placeholder and ends behind it has the marks of both its parts,
and the placeholder: the braces of a mark can be no part of another's, for each mark has all its
opening braces in front of its digits and all its closing braces behind them.
-/

namespace DocComment

def mark (digits : Text) : Text := List.replicate 4 '{' ++ (digits ++ List.replicate 4 '}')

/-- A text that is a decimal numeral. -/
structure IsDigits (digits : Text) : Prop where
  nonempty : digits ≠ []
  digit : ∀ c ∈ digits, c.isDigit = true

/-- A mark stands in the text for which a list is too short. -/
def Dangles (text : Text) (tags : List Tag) : Prop :=
  ∃ digits, IsDigits digits ∧ mark digits <:+: text ∧ tags.length ≤ Form.decimalValue digits

theorem placeholder_eq_mark (index : Nat) : placeholder index = mark (Text.numeral index) := by
  rw [placeholder, mark, List.append_assoc]

theorem isDigits_numeral (index : Nat) : IsDigits (Text.numeral index) where
  nonempty := Nat.toDigits_ne_nil
  digit _ := Nat.isDigit_of_mem_toDigits (by omega) (by omega)

theorem decimalValue_numeral (index : Nat) : Form.decimalValue (Text.numeral index) = index :=
  Nat.ofDigitChars_toDigits (by omega) (by omega)

variable {digits others a b v x y : Text} {n : Nat} {c : Char}

theorem IsDigits.ne_brace (h : IsDigits digits) (hc : c ∈ digits) : c ≠ '{' ∧ c ≠ '}' := by
  have hdigit := h.digit c hc
  constructor <;> rintro rfl <;> cases hdigit

/-- Behind the opening braces a mark has none. -/
theorem IsDigits.opens (h : IsDigits digits) (v : Text) :
    ((digits ++ List.replicate 4 '}') ++ v).takeWhile (· = '{') = [] := by
  obtain ⟨d, more, rfl⟩ := List.exists_cons_of_ne_nil h.nonempty
  have hd := (h.ne_brace (List.mem_cons_self ..)).1
  simp [hd]

/-- The digits of a mark end at its closing braces. -/
theorem IsDigits.takeWhile_digits (h : IsDigits digits) (v : Text) :
    (digits ++ (List.replicate 4 '}' ++ v)).takeWhile (·.isDigit) = digits := by
  have hstop : (List.replicate 4 '}' ++ v).takeWhile (·.isDigit) = [] := rfl
  rw [List.takeWhile_append_of_pos h.digit, hstop, List.append_nil]

/-- Where the numeral of a mark begins and ends can be read in one way only. -/
theorem digits_eq (h : IsDigits digits) (hn : IsDigits others)
    (heq : mark digits ++ v = List.replicate n '{' ++ ((others ++ List.replicate 4 '}') ++ y)) :
    digits = others := by
  have hbraces : ∀ n, ∀ c ∈ List.replicate n '{', decide (c = '{') = true :=
    fun n c hc => decide_eq_true (List.eq_of_mem_replicate hc)
  rw [mark, List.append_assoc] at heq
  obtain rfl : 4 = n := by
    have hopen := congrArg (List.takeWhile (· = '{')) heq
    rw [List.takeWhile_append_of_pos (hbraces 4), List.takeWhile_append_of_pos (hbraces n),
      h.opens, hn.opens] at hopen
    simpa using congrArg List.length hopen
  have hrest := List.append_cancel_left heq
  rw [List.append_assoc, List.append_assoc] at hrest
  have hdigits := congrArg (List.takeWhile (·.isDigit)) hrest
  rwa [h.takeWhile_digits, hn.takeWhile_digits] at hdigits

/-- A mark that begins within another and is read on behind it is that other. -/
theorem eq_of_overlap (h : IsDigits digits) (hn : IsDigits others) (hmark : mark others = a ++ b)
    (hb : b ≠ []) (heq : mark digits ++ v = b ++ y) : digits = others := by
  obtain ⟨c, more, rfl⟩ := List.exists_cons_of_ne_nil hb
  obtain rfl : '{' = c := (List.cons.inj heq).1
  rcases List.append_eq_append_iff.mp hmark with ⟨as, -, htail⟩ | ⟨bs, hopen, hmore⟩
  · have hmem : '{' ∈ others ++ List.replicate 4 '}' := by
      rw [htail]
      simp
    rcases List.mem_append.mp hmem with hmem | hmem
    · exact absurd rfl (hn.ne_brace hmem).1
    · cases List.eq_of_mem_replicate hmem
  · obtain ⟨-, -, hbraces⟩ := List.append_eq_replicate_iff.mp hopen.symm
    rw [hmore, hbraces, List.append_assoc] at heq
    exact digits_eq h hn heq

/-- A mark in a text with another mark in it is on one side of that other, or it is the same. -/
theorem infix_cases (h : IsDigits digits) (hn : IsDigits others)
    (hinside : mark digits <:+: x ++ (mark others ++ y)) :
    mark digits <:+: x ∨ digits = others ∨ mark digits <:+: y := by
  obtain ⟨u, w, heq⟩ := hinside
  rw [List.append_assoc] at heq
  rcases List.append_eq_append_iff.mp heq with ⟨as, rfl, hrest⟩ | ⟨bs, rfl, hrest⟩
  · rcases List.append_eq_append_iff.mp hrest with ⟨cs, rfl, -⟩ | ⟨cs, hcs, hw⟩
    · left
      exact ⟨u, cs, by rw [List.append_assoc]⟩
    · by_cases hnil : cs = []
      · left
        rw [hnil, List.append_nil] at hcs
        exact ⟨u, [], by rw [hcs, List.append_nil]⟩
      · right; left
        exact (eq_of_overlap hn h hcs hnil hw).symm
  · rcases List.append_eq_append_iff.mp hrest with ⟨cs, -, hy⟩ | ⟨cs, hcs, hy⟩
    · right; right
      exact ⟨cs, w, by rw [hy, List.append_assoc]⟩
    · by_cases hnil : cs = []
      · right; right
        rw [hnil, List.nil_append] at hy
        exact ⟨[], w, hy⟩
      · right; left
        exact eq_of_overlap h hn hcs hnil hy

/-! ## Marks in stripped texts -/

variable {s t : Text} {tags : List Tag}

/-- What stands in a text behind characters that it does not hold stands behind them. -/
theorem infix_of_append {front : Text} (ht : t ≠ []) (hfront : ∀ c ∈ front, c ∉ t)
    (h : t <:+: front ++ s) : t <:+: s := by
  induction front with
  | nil => exact h
  | cons c front ih =>
    rw [List.forall_mem_cons] at hfront
    rcases List.infix_cons_iff.mp h with hprefix | hinside
    · obtain ⟨d, more, rfl⟩ := List.exists_cons_of_ne_nil ht
      obtain ⟨rest, hrest⟩ := hprefix
      obtain rfl : d = c := (List.cons.inj hrest).1
      exact absurd (List.mem_cons_self ..) hfront.1
    · exact ih hfront.2 hinside

/-- A text without blanks that stands in another stands there between the blanks at its ends. -/
theorem infix_strip_iff (ht : t ≠ []) (hsolid : ∀ c ∈ t, Text.isBlank c = false) :
    t <:+: Text.strip s ↔ t <:+: s := by
  obtain ⟨front, back, heq, hfront, hback, -, -⟩ := Text.exists_strip s
  have hnot : ∀ blanks : Text, (∀ c ∈ blanks, Text.isBlank c = true) → ∀ c ∈ blanks, c ∉ t := by
    intro blanks hblanks c hc hct
    exact absurd ((hsolid c hct).symm.trans (hblanks c hc)) (by simp)
  constructor
  · intro h
    rw [heq]
    exact h.trans ⟨front, back, by rw [List.append_assoc]⟩
  · intro h
    rw [heq] at h
    have hmiddle := infix_of_append ht (hnot front hfront) h
    rw [← List.reverse_infix, List.reverse_append] at hmiddle
    rw [← List.reverse_infix]
    refine infix_of_append (by simpa using ht) ?_ hmiddle
    simpa using hnot back hback

theorem IsDigits.mark_solid (h : IsDigits digits) : ∀ c ∈ mark digits, Text.isBlank c = false := by
  have hdigit : ∀ n < 128, (Char.ofNat n).isDigit = true → Text.isBlank (Char.ofNat n) = false := by
    decide
  intro c hc
  rcases List.mem_append.mp hc with hc | hc
  · obtain rfl := List.eq_of_mem_replicate hc
    decide
  rcases List.mem_append.mp hc with hc | hc
  · have hlt : c.toNat < 128 :=
      Form.toNat_lt_of_isAlphanum (by simp [Char.isAlphanum, h.digit c hc])
    have hsolid := hdigit c.toNat hlt
    rw [Char.ofNat_toNat] at hsolid
    exact hsolid (h.digit c hc)
  · obtain rfl := List.eq_of_mem_replicate hc
    decide

theorem dangles_strip_iff : Dangles (Text.strip s) tags ↔ Dangles s tags := by
  have hmark : ∀ digits, IsDigits digits → (mark digits <:+: Text.strip s ↔ mark digits <:+: s) :=
    fun digits hdigits => infix_strip_iff (List.cons_ne_nil _ _) hdigits.mark_solid
  constructor
  · rintro ⟨digits, hdigits, hinside, hlength⟩
    exact ⟨digits, hdigits, (hmark digits hdigits).mp hinside, hlength⟩
  · rintro ⟨digits, hdigits, hinside, hlength⟩
    exact ⟨digits, hdigits, (hmark digits hdigits).mpr hinside, hlength⟩

end DocComment
