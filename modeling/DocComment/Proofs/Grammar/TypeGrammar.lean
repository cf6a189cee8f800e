import DocComment.Proofs.Grammar.TypeText

/-!
# The grammar of types by its productions

`Derives` writes the grammar of types down as one would on paper, with a nonterminal for each thing
that has a name and one constructor for each production. It is the same language as `IsType`, which
is cut to the loop that reads a type and leaves the names to a test on their characters.
-/

namespace DocComment

namespace Grammar

open Form (isIdentifier isQualified)

/-- What the productions of the grammar of types are about. -/
inductive TypeSymbol where
  | identifier
  | path
  | qualified
  | primary
  | suffixed
  | whole

/-- The productions of the grammar of types. -/
inductive Derives : TypeSymbol → Text → Prop where
  | identifier {c : Char} {t : Text} (first : c.isAlpha = true ∨ c = '_')
      (others : ∀ d ∈ t, d.isAlphanum = true ∨ d = '_') : Derives .identifier (c :: t)
  | name {t : Text} (only : Derives .identifier t) : Derives .path t
  | member {s t : Text} (first : Derives .identifier s) (others : Derives .path t) :
      Derives .path (s ++ '\\' :: t)
  | relative {t : Text} (path : Derives .path t) : Derives .qualified t
  | absolute {t : Text} (path : Derives .path t) : Derives .qualified ('\\' :: t)
  | nested {t : Text} (inner : Derives .whole t) : Derives .primary ('(' :: (t ++ [')']))
  | self : Derives .primary "$this".toList
  | className {t : Text} (qualified : Derives .qualified t) : Derives .primary t
  | plain {t : Text} (primary : Derives .primary t) : Derives .suffixed t
  | brackets {t : Text} (element : Derives .suffixed t) : Derives .suffixed (t ++ "[]".toList)
  | single {t : Text} (only : Derives .suffixed t) : Derives .whole t
  | join {s t : Text} (sign : Char) (known : sign = '|' ∨ sign = '&') (first : Derives .suffixed s)
      (others : Derives .whole t) : Derives .whole (s ++ sign :: t)

variable {s t : Text}

/-! ## Names -/

theorem derives_identifier : Derives .identifier t ↔ isIdentifier t = true := by
  constructor
  · rintro ⟨first, others⟩
    simpa [isIdentifier, Form.isIdentStart, Form.isIdentChar] using And.intro first others
  · intro h
    cases t with
    | nil => cases h
    | cons c t =>
      have hchars : (c.isAlpha = true ∨ c = '_') ∧ ∀ d ∈ t, d.isAlphanum = true ∨ d = '_' := by
        simpa [isIdentifier, Form.isIdentStart, Form.isIdentChar] using h
      exact .identifier hchars.1 hchars.2

theorem backslash_not_mem (h : isIdentifier t = true) : '\\' ∉ t :=
  fun hmem => absurd ((Form.isIdentChar_of_isIdentifier h).2 _ hmem) (by decide)

theorem head_ne_backslash (h : Derives .path t) : ∀ c ∈ t.head?, c ≠ '\\' := by
  have hidentifier : ∀ {s : Text}, Derives .identifier s → s ≠ [] ∧ ∀ c ∈ s.head?, c ≠ '\\' := by
    intro s hs
    rw [derives_identifier] at hs
    refine ⟨(Form.isIdentChar_of_isIdentifier hs).1, ?_⟩
    rintro c hc rfl
    exact backslash_not_mem hs (List.mem_of_mem_head? hc)
  cases h with
  | name only => exact (hidentifier only).2
  | @member s t first others =>
    obtain ⟨hne, hhead⟩ := hidentifier first
    obtain ⟨c, s, rfl⟩ := List.exists_cons_of_ne_nil hne
    exact hhead

theorem derives_path : Derives .path t ↔ (Text.splitAt '\\' t).all isIdentifier = true := by
  constructor
  · intro h
    generalize hsymbol : TypeSymbol.path = symbol at h
    induction h with
    | name only =>
      have hname := derives_identifier.mp only
      rw [Text.splitAt_of_not_mem (backslash_not_mem hname)]
      simpa using hname
    | member first others _ ih =>
      have hname := derives_identifier.mp first
      rw [Text.splitAt_append (backslash_not_mem hname), List.all_cons, hname, ih rfl]
      rfl
    | _ => cases hsymbol
  · intro h
    generalize hpieces : Text.splitAt '\\' t = pieces at h
    induction pieces generalizing t with
    | nil => exact absurd hpieces (Text.splitAt_ne_nil _ _)
    | cons piece pieces ih =>
      rw [List.all_cons, Bool.and_eq_true] at h
      have hfirst := derives_identifier.mpr h.1
      obtain ⟨-, rfl⟩ | ⟨rest, rfl, hrest⟩ := Text.eq_of_splitAt hpieces
      · exact .name hfirst
      · exact .member hfirst (ih hrest h.2)

theorem dropLead_of_head (h : ∀ c ∈ t.head?, c ≠ '\\') : Text.dropLead ['\\'] t = t := by
  cases t with
  | nil => rfl
  | cons c t => simp [Text.dropLead, List.isPrefixOf, (h c rfl).symm]

theorem derives_qualified : Derives .qualified t ↔ isQualified t = true := by
  have habsolute : ∀ rest, Text.dropLead ['\\'] ('\\' :: rest) = rest :=
    fun rest => by simp [Text.dropLead]
  rw [isQualified]
  constructor
  · intro h
    cases h with
    | relative path =>
      rw [dropLead_of_head (head_ne_backslash path)]
      exact derives_path.mp path
    | absolute path =>
      rw [habsolute]
      exact derives_path.mp path
  · intro h
    by_cases hhead : ∀ c ∈ t.head?, c ≠ '\\'
    · rw [dropLead_of_head hhead] at h
      exact .relative (derives_path.mpr h)
    · cases t with
      | nil => exact absurd (by simp) hhead
      | cons c rest =>
        obtain rfl : c = '\\' := by simpa using hhead
        rw [habsolute] at h
        exact .absolute (derives_path.mpr h)

theorem isQualified_of_isIdentifier (h : isIdentifier t = true) : isQualified t = true :=
  derives_qualified.mp (.relative (.name (derives_identifier.mpr h)))

/-! ## Types -/

theorem derives_suffixed (h : Derives .primary s) (pairs : Nat) :
    Derives .suffixed (s ++ bracketPairs pairs) := by
  induction pairs with
  | zero =>
    rw [bracketPairs, List.append_nil]
    exact .plain h
  | succ pairs ih =>
    rw [← bracketPairs_concat, ← List.append_assoc]
    exact .brackets ih

/-- The two grammars, part by part. -/
def DerivesPart : TypePart → Text → Prop
  | .operand, t => Derives .primary t
  | .whole, t => Derives .whole t

theorem derives_of_isType {part : TypePart} (h : IsType part t) : DerivesPart part t := by
  induction h with
  | name t qualified => exact .className (derives_qualified.mpr qualified)
  | self => exact .self
  | nested inner ih => exact .nested ih
  | last pairs operand ih => exact .single (derives_suffixed ih pairs)
  | join pairs sign known operand more ihs iht =>
    rw [DerivesPart, ← List.append_assoc]
    exact .join sign known (derives_suffixed ihs pairs) iht

/-- What a part of the grammar is to the loop that reads a type. -/
def ReadAs : TypeSymbol → Text → Prop
  | .identifier, _ | .path, _ => True
  | .qualified, t => isQualified t = true
  | .primary, t => IsType .operand t
  | .suffixed, t => ∃ s pairs, t = s ++ bracketPairs pairs ∧ IsType .operand s
  | .whole, t => IsType .whole t

theorem readAs_of_derives {symbol : TypeSymbol} (h : Derives symbol t) : ReadAs symbol t := by
  induction h with
  | identifier | name | member => trivial
  | relative path => exact derives_qualified.mp (.relative path)
  | absolute path => exact derives_qualified.mp (.absolute path)
  | nested _ ih => exact .nested ih
  | self => exact .self
  | className _ ih => exact .name _ ih
  | @plain t _ ih => exact ⟨t, 0, (List.append_nil t).symm, ih⟩
  | brackets _ ih =>
    obtain ⟨s, pairs, rfl, hs⟩ := ih
    exact ⟨s, pairs + 1, by rw [List.append_assoc, bracketPairs_concat], hs⟩
  | single _ ih =>
    obtain ⟨s, pairs, rfl, hs⟩ := ih
    exact .last pairs hs
  | join sign known _ _ ihs iht =>
    obtain ⟨s, pairs, rfl, hs⟩ := ihs
    rw [ReadAs, List.append_assoc]
    exact .join pairs sign known hs iht

/-- The productions give the types, and nothing else. -/
theorem derives_whole_iff : Derives .whole t ↔ IsType .whole t :=
  ⟨readAs_of_derives, derives_of_isType⟩

theorem derives_primary_iff : Derives .primary t ↔ IsType .operand t :=
  ⟨readAs_of_derives, derives_of_isType⟩

end Grammar

end DocComment
