import DocComment.Output.Json
import DocComment.Proofs.Document.Mark

/-!
# The layout of a JSON value determines the value

Two values with the same layout are the same. The layouts of two values at one depth are compared
with a text behind each: where the values end can then be read off, because a numeral ends in front
of the first character that is no digit, a literal at the first quote that is not escaped, and an
array or object at the line that no comma leads to.
-/

namespace DocComment.Json

variable {depth m n : Nat} {c d : Char} {s t r q : Text}

/-- The text goes on with something that is no digit, or not at all. -/
def Ends (r : Text) : Prop := ∀ c ∈ r.head?, c.isDigit = false

/-! ## Numbers -/

theorem takeWhile_numeral (hr : Ends r) :
    (Text.numeral n ++ r).takeWhile (·.isDigit) = Text.numeral n := by
  have hstop : r.takeWhile (·.isDigit) = [] := by
    cases r with
    | nil => rfl
    | cons c r => exact List.takeWhile_cons_of_neg (by simp [hr c rfl])
  rw [List.takeWhile_append_of_pos (isDigits_numeral n).digit, hstop, List.append_nil]

theorem numeral_inj (hr : Ends r) (hq : Ends q) (h : Text.numeral m ++ r = Text.numeral n ++ q) :
    m = n ∧ r = q := by
  have hdigits := congrArg (List.takeWhile (·.isDigit)) h
  rw [takeWhile_numeral hr, takeWhile_numeral hq] at hdigits
  have hvalue := congrArg Form.decimalValue hdigits
  rw [decimalValue_numeral, decimalValue_numeral] at hvalue
  rw [hdigits] at h
  exact ⟨hvalue, List.append_cancel_left h⟩

/-! ## Literals -/

/-- The characters that are escaped. -/
def special : List Char := '"' :: '\\' :: (List.range 32).map Char.ofNat

theorem escaped_of_not_mem (h : c ∉ special) : escaped c = [c] := by
  have hlow : ∀ d ∈ special, c ≠ d := fun d hd heq => h (heq ▸ hd)
  have hcontrol : ¬c.toNat < 0x20 := by
    intro hlt
    apply h
    rw [special, List.mem_cons, List.mem_cons, List.mem_map]
    exact .inr (.inr ⟨c.toNat, List.mem_range.mpr hlt, Char.ofNat_toNat c⟩)
  rw [escaped.eq_def]
  split
  case h_8 => rw [if_neg hcontrol]
  all_goals exact absurd rfl (hlow _ (by decide))

theorem escaped_of_mem (h : c ∈ special) : ∃ e, escaped c = '\\' :: e := by
  have hall : (special.all fun c => (escaped c).head? == some '\\') = true := by decide
  obtain ⟨e, he⟩ := List.head?_eq_some_iff.mp (eq_of_beq (List.all_eq_true.mp hall c h))
  exact ⟨e, he⟩

/-- No escape is the beginning of another. -/
theorem eq_of_escaped_begins (hc : c ∈ special) (hd : d ∈ special)
    (h : escaped c <+: escaped d) : c = d := by
  have hall : (special.all fun c => special.all fun d =>
      !(escaped c).isPrefixOf (escaped d) || c == d) = true := by
    decide +kernel
  have hpair := List.all_eq_true.mp (List.all_eq_true.mp hall c hc) d hd
  rw [List.isPrefixOf_iff_prefix.mpr h] at hpair
  exact eq_of_beq hpair

/-- Which character is written first can be read off. -/
theorem escaped_inj (h : escaped c ++ r = escaped d ++ q) : c = d ∧ r = q := by
  have hplain : ∀ {c d : Char} {r q : Text}, c ∉ special → d ∈ special →
      escaped c ++ r ≠ escaped d ++ q := by
    intro c d r q hc hd heq
    obtain ⟨e, he⟩ := escaped_of_mem hd
    rw [escaped_of_not_mem hc, he] at heq
    obtain rfl := (List.cons.inj heq).1
    exact hc (by decide)
  by_cases hc : c ∈ special
  · by_cases hd : d ∈ special
    · obtain rfl : c = d := by
        rcases List.prefix_or_prefix_of_prefix ⟨r, h⟩
          (List.prefix_append _ _) with hbegins | hbegins
        · exact eq_of_escaped_begins hc hd hbegins
        · exact (eq_of_escaped_begins hd hc hbegins).symm
      exact ⟨rfl, List.append_cancel_left h⟩
    · exact absurd h.symm (hplain hd hc)
  · by_cases hd : d ∈ special
    · exact absurd h (hplain hc hd)
    · rw [escaped_of_not_mem hc, escaped_of_not_mem hd] at h
      exact List.cons.inj h

/-- No character is written with a quote in front. -/
theorem escaped_ne_quote : escaped c ++ r ≠ '"' :: q := by
  intro h
  by_cases hc : c ∈ special
  · obtain ⟨e, he⟩ := escaped_of_mem hc
    rw [he] at h
    exact absurd (List.cons.inj h).1 (by decide)
  · rw [escaped_of_not_mem hc] at h
    obtain rfl := (List.cons.inj h).1
    exact hc (by decide)

theorem escapes_inj (h : s.flatMap escaped ++ '"' :: r = t.flatMap escaped ++ '"' :: q) :
    s = t ∧ r = q := by
  induction s generalizing t with
  | nil =>
    cases t with
    | nil => exact ⟨rfl, (List.cons.inj h).2⟩
    | cons d t =>
      rw [List.flatMap_cons, List.append_assoc] at h
      exact absurd h.symm escaped_ne_quote
  | cons c s ih =>
    cases t with
    | nil =>
      rw [List.flatMap_cons, List.append_assoc] at h
      exact absurd h escaped_ne_quote
    | cons d t =>
      rw [List.flatMap_cons, List.flatMap_cons, List.append_assoc, List.append_assoc] at h
      obtain ⟨rfl, hrest⟩ := escaped_inj h
      obtain ⟨rfl, hbehind⟩ := ih hrest
      exact ⟨rfl, hbehind⟩

theorem literal_inj (h : literal s ++ r = literal t ++ q) : s = t ∧ r = q := by
  simp only [literal, List.cons_append, List.append_assoc, List.nil_append] at h
  exact escapes_inj (List.cons.inj h).2

/-! ## Values -/

/-- Behind the elements of an array, or the members of an object, a new line begins. -/
def Breaks (r : Text) : Prop := r.head? = some '\n'

theorem breaks_newLine : Breaks (newLine depth ++ r) := rfl

theorem Breaks.ends (h : Breaks r) : Ends r := by
  intro c hc
  rw [h] at hc
  obtain rfl := Option.some.inj hc
  decide

theorem Breaks.ne_comma (h : Breaks r) : r ≠ ',' :: t := by
  rintro rfl
  cases h

theorem ends_layoutItems (items : List Json) (h : Breaks r) :
    Ends (layoutItems depth items ++ r) := by
  cases items with
  | nil => exact h.ends
  | cons item items =>
    intro c hc
    obtain rfl := Option.some.inj hc
    decide

theorem ends_layoutMembers (members : List (Text × Json)) (h : Breaks r) :
    Ends (layoutMembers depth members ++ r) := by
  cases members with
  | nil => exact h.ends
  | cons member members =>
    intro c hc
    obtain rfl := Option.some.inj hc
    decide

/-- Two values that are written in one way as far as their first signs tell. -/
inductive Alike : Json → Json → Prop
  | numbers (m n : Nat) : Alike (.number m) (.number n)
  | texts (s t : Text) : Alike (.text s) (.text t)
  | emptyArrays : Alike (.array []) (.array [])
  | arrays (item other : Json) (items others : List Json) :
      Alike (.array (item :: items)) (.array (other :: others))
  | emptyObjects : Alike (.object []) (.object [])
  | objects (member other : Text × Json) (members others : List (Text × Json)) :
      Alike (.object (member :: members)) (.object (other :: others))

/-- The signs by which the values differ, for all but the digits of numbers. -/
def opening : Json → Text
  | .number _ => []
  | .text _ => ['"']
  | .array [] => ['[', ']']
  | .array (_ :: _) => ['[', '\n']
  | .object [] => ['{', '}']
  | .object (_ :: _) => ['{', '\n']

def firstSigns (t : Text) : Text :=
  match t with
  | '"' :: _ => ['"']
  | c :: d :: _ => if c = '[' ∨ c = '{' then [c, d] else []
  | _ => []

theorem firstSigns_numeral : firstSigns (Text.numeral n ++ r) = [] := by
  obtain ⟨d, digits, hnumeral⟩ := List.exists_cons_of_ne_nil (isDigits_numeral n).nonempty
  have hdigit := (isDigits_numeral n).digit d (by simp [hnumeral])
  have hne : ∀ e : Char, e.isDigit = false → d ≠ e := by
    intro e he heq
    rw [heq, he] at hdigit
    cases hdigit
  rw [hnumeral, List.cons_append, firstSigns.eq_def]
  split
  · next heq => exact absurd (List.cons.inj heq).1 (hne '"' (by decide))
  · next heq =>
    obtain rfl := (List.cons.inj heq).1
    exact if_neg (not_or.mpr ⟨hne '[' (by decide), hne '\x7b' (by decide)⟩)
  · rfl

theorem firstSigns_layout (depth : Nat) (v : Json) (r : Text) :
    firstSigns (layout depth v ++ r) = opening v := by
  cases v with
  | number n => exact firstSigns_numeral
  | text s => rfl
  | array items => cases items <;> rfl
  | object members => cases members <;> rfl

theorem alike {v w : Json} (h : layout depth v ++ r = layout depth w ++ q) : Alike v w := by
  have hopening : opening v = opening w := by
    rw [← firstSigns_layout depth v r, h, firstSigns_layout]
  rcases v with m | s | (_ | ⟨item, items⟩) | (_ | ⟨member, members⟩) <;>
    rcases w with n | t | (_ | ⟨other, others⟩) | (_ | ⟨other, others⟩) <;>
    first
    | constructor
    | cases hopening

mutual

theorem layout_inj {depth : Nat} {v w : Json} {r q : Text} (hr : Ends r) (hq : Ends q)
    (h : layout depth v ++ r = layout depth w ++ q) : v = w ∧ r = q := by
  match v, w, alike h with
  | _, _, .numbers m n =>
    obtain ⟨rfl, hrest⟩ := numeral_inj hr hq h
    exact ⟨rfl, hrest⟩
  | _, _, .texts s t =>
    obtain ⟨rfl, hrest⟩ := literal_inj h
    exact ⟨rfl, hrest⟩
  | _, _, .emptyArrays => exact ⟨rfl, List.append_cancel_left h⟩
  | _, _, .emptyObjects => exact ⟨rfl, List.append_cancel_left h⟩
  | _, _, .arrays item other items others =>
    simp only [layout, List.cons_append, List.append_assoc] at h
    have hitem := List.append_cancel_left (List.cons.inj h).2
    obtain ⟨rfl, hitems⟩ := layout_inj (ends_layoutItems items breaks_newLine)
      (ends_layoutItems others breaks_newLine) hitem
    obtain ⟨rfl, hclose⟩ := layoutItems_inj breaks_newLine breaks_newLine hitems
    exact ⟨rfl, (List.cons.inj (List.append_cancel_left hclose)).2⟩
  | _, _, .objects (name, value) (other, otherValue) members others =>
    simp only [layout, layoutMember, List.cons_append, List.append_assoc] at h
    obtain ⟨rfl, hvalue⟩ := literal_inj (List.append_cancel_left (List.cons.inj h).2)
    obtain ⟨rfl, hmembers⟩ := layout_inj (ends_layoutMembers members breaks_newLine)
      (ends_layoutMembers others breaks_newLine) (List.append_cancel_left hvalue)
    obtain ⟨rfl, hclose⟩ := layoutMembers_inj breaks_newLine breaks_newLine hmembers
    exact ⟨rfl, (List.cons.inj (List.append_cancel_left hclose)).2⟩

theorem layoutItems_inj {depth : Nat} {items others : List Json} {r q : Text} (hr : Breaks r)
    (hq : Breaks q) (h : layoutItems depth items ++ r = layoutItems depth others ++ q) :
    items = others ∧ r = q := by
  match items, others with
  | [], [] => exact ⟨rfl, h⟩
  | [], _ :: _ => exact absurd h hr.ne_comma
  | _ :: _, [] => exact absurd h.symm hq.ne_comma
  | item :: items, other :: others =>
    simp only [layoutItems, List.cons_append, List.append_assoc] at h
    obtain ⟨rfl, hitems⟩ := layout_inj (ends_layoutItems items hr) (ends_layoutItems others hq)
      (List.append_cancel_left (List.cons.inj h).2)
    obtain ⟨rfl, hrest⟩ := layoutItems_inj hr hq hitems
    exact ⟨rfl, hrest⟩

theorem layoutMembers_inj {depth : Nat} {members others : List (Text × Json)} {r q : Text}
    (hr : Breaks r) (hq : Breaks q)
    (h : layoutMembers depth members ++ r = layoutMembers depth others ++ q) :
    members = others ∧ r = q := by
  match members, others with
  | [], [] => exact ⟨rfl, h⟩
  | [], _ :: _ => exact absurd h hr.ne_comma
  | _ :: _, [] => exact absurd h.symm hq.ne_comma
  | (name, value) :: members, (other, otherValue) :: others =>
    simp only [layoutMembers, layoutMember, List.cons_append, List.append_assoc] at h
    obtain ⟨rfl, hvalue⟩ := literal_inj (List.append_cancel_left (List.cons.inj h).2)
    obtain ⟨rfl, hmembers⟩ :=
      layout_inj (ends_layoutMembers members hr) (ends_layoutMembers others hq)
      (List.append_cancel_left hvalue)
    obtain ⟨rfl, hrest⟩ := layoutMembers_inj hr hq hmembers
    exact ⟨rfl, hrest⟩

end

end DocComment.Json
