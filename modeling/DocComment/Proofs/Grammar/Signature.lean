import DocComment.Grammar.BlockTag
import DocComment.Proofs.Grammar.Prose
import DocComment.Proofs.Grammar.Refuses

/-!
# The signatures of methods

A signature is written as a type, a name and arguments in parentheses, and an argument as a type and
a variable. Every type may be left out. That a signature is read back as it was written is proved
along its text: at each type the rule is tried, and where there is none it is refused at the sign
behind the name or the variable. The loop over the arguments is left at the closing parenthesis,
behind an argument, behind the last comma or at once.
-/

namespace DocComment.Grammar

open Reading (iterate)
open Screening (Apart Spells)
open Token (kindOf)

/-- A type that may be left out, with a space behind it. -/
def typeText : Option Text → Text
  | none => []
  | some type => type ++ [' ']

/-- An argument that can be written. -/
structure WrittenArgument where
  type : Option Text
  name : Text
  typed : ∀ t ∈ type, Derives .whole t
  named : Form.isVariable name = true

def WrittenArgument.text (a : WrittenArgument) : Text := typeText a.type ++ a.name

/-- What the argument stands for. -/
def WrittenArgument.typedName (a : WrittenArgument) : TypedName :=
  ⟨a.type.getD "mixed".toList, a.name⟩

/-- The arguments between the parentheses, and maybe a comma behind the last. -/
def argumentsText (arguments : List WrittenArgument) (comma : Bool) : Text :=
  ", ".toList.intercalate (arguments.map (·.text)) ++ if comma then [','] else []

/-- A signature that can be written. -/
structure WrittenSignature where
  returnType : Option Text
  name : Text
  arguments : List WrittenArgument
  comma : Bool
  typed : ∀ t ∈ returnType, Derives .whole t
  named : Form.isIdentifier name = true
  listed : comma = true → arguments ≠ []

def WrittenSignature.text (s : WrittenSignature) : Text :=
  typeText s.returnType ++ s.name ++ ['('] ++ argumentsText s.arguments s.comma ++ [')']

/-- What the signature stands for. -/
def WrittenSignature.signature (s : WrittenSignature) : Signature where
  returnType := s.returnType.getD "void".toList
  name := s.name
  arguments := s.arguments.map (·.typedName)

variable {c d : Char} {w t name : Text} {u : Token} {tokens rest : List Token} {comma : Bool}
  {type : Option Text}
variable {a b : WrittenArgument} {arguments : List WrittenArgument}

/-! ## What a signature is written with -/

theorem solid_typeText (htyped : ∀ t ∈ type, Derives .whole t) (h : Solid t) :
    Solid (typeText type ++ t) := by
  cases type with
  | none => exact h
  | some w =>
    rw [typeText, List.append_assoc]
    exact (isWord_of_isType (derives_whole_iff.mp (htyped w rfl))).solid _

theorem WrittenArgument.solid (a : WrittenArgument) (t : Text) : Solid (a.text ++ t) := by
  rw [WrittenArgument.text, List.append_assoc]
  exact solid_typeText a.typed ((isWord_of_isVariable a.named).solid t)

/-- A type does not begin with a closing parenthesis. -/
theorem exists_head_type {part : TypePart} (h : IsType part t) :
    ∃ c rest, t = c :: rest ∧ kindOf c ≠ .rightParen := by
  induction h with
  | name t qualified =>
    obtain ⟨hne, hchars⟩ := Form.chars_of_isQualified qualified
    obtain ⟨c, rest, rfl⟩ := List.exists_cons_of_ne_nil hne
    refine ⟨c, rest, rfl, ?_⟩
    rcases hchars c (by simp) with h | h <;> rw [h] <;> decide
  | self => exact ⟨'$', "this".toList, rfl, by simp [Token.kindOf_of_sign (k := .dollar) rfl]⟩
  | nested inner => exact ⟨'(', _, rfl, by simp [Token.kindOf_of_sign (k := .leftParen) rfl]⟩
  | last pairs operand ih | join pairs sign known operand more ih =>
    obtain ⟨c, rest, rfl, hc⟩ := ih
    exact ⟨c, _, rfl, hc⟩

theorem WrittenArgument.exists_head (a : WrittenArgument) (t : Text) :
    ∃ c rest, a.text ++ t = c :: rest ∧ kindOf c ≠ .rightParen := by
  obtain ⟨type, name, typed, named⟩ := a
  cases type with
  | none =>
    obtain ⟨word, rfl, -, -⟩ := Form.chars_of_isVariable named
    exact ⟨'$', word ++ t, rfl, by simp [Token.kindOf_of_sign (k := .dollar) rfl]⟩
  | some w =>
    obtain ⟨c, rest, rfl, hc⟩ := exists_head_type (derives_whole_iff.mp (typed w rfl))
    exact ⟨c, _, rfl, hc⟩

theorem argumentsText_cons (a b : WrittenArgument) (arguments : List WrittenArgument)
    (comma : Bool) :
    argumentsText (a :: b :: arguments) comma =
      a.text ++ ',' :: ' ' :: argumentsText (b :: arguments) comma := by
  simp [argumentsText, List.intercalate_cons_cons]

theorem argumentsText_singleton (a : WrittenArgument) (comma : Bool) :
    argumentsText [a] comma = a.text ++ if comma then [','] else [] := by
  rw [argumentsText, List.map_singleton, List.intercalate_singleton]

/-- Between the parentheses are no blanks in front. -/
theorem solid_argumentsText (hlisted : comma = true → arguments ≠ []) (t : Text) :
    Solid (argumentsText arguments comma ++ ')' :: t) := by
  cases arguments with
  | nil =>
    obtain rfl : comma = false := by simpa using hlisted
    exact ⟨')', t, rfl, by simp [Token.kindOf_of_sign (k := .rightParen) rfl]⟩
  | cons a arguments =>
    cases arguments with
    | nil =>
      rw [argumentsText_singleton, List.append_assoc]
      exact a.solid _
    | cons b arguments =>
      rw [argumentsText_cons, List.append_assoc]
      exact a.solid _

/-- The signs that have a meaning of their own in a comment, or end its line. -/
def lineSigns : List Char := ['\r', '\n', '@', '*', '/']

theorem not_mem_lineSigns (h : kindOf c ∉ wordless) : c ∉ lineSigns := by
  have hall : lineSigns.all (kindOf · ∈ wordless) = true := by decide +kernel
  exact fun hmem => h (of_decide_eq_true (List.all_eq_true.mp hall c hmem))

theorem lineSigns_typeText (htyped : ∀ t ∈ type, Derives .whole t) :
    ∀ c ∈ typeText type, c ∉ lineSigns := by
  cases type with
  | none => exact List.forall_mem_nil _
  | some w =>
    rw [typeText, List.forall_mem_append, List.forall_mem_singleton]
    exact ⟨fun c hc => not_mem_lineSigns
      ((isWord_of_isType (derives_whole_iff.mp (htyped w rfl))).kinds c hc), by decide⟩

theorem WrittenArgument.lineSigns (a : WrittenArgument) : ∀ c ∈ a.text, c ∉ Grammar.lineSigns := by
  rw [WrittenArgument.text, List.forall_mem_append]
  exact ⟨lineSigns_typeText a.typed, fun c hc =>
    not_mem_lineSigns ((isWord_of_isVariable a.named).kinds c hc)⟩

theorem lineSigns_argumentsText (arguments : List WrittenArgument) (comma : Bool) :
    ∀ c ∈ argumentsText arguments comma, c ∉ lineSigns := by
  have hcomma : ∀ c ∈ (if comma then [','] else [] : Text), c ∉ lineSigns := by
    cases comma with
    | false => exact List.forall_mem_nil _
    | true => exact List.forall_mem_singleton.mpr (by decide)
  induction arguments with
  | nil => exact hcomma
  | cons a arguments ih =>
    cases arguments with
    | nil =>
      rw [argumentsText_singleton, List.forall_mem_append]
      exact ⟨a.lineSigns, hcomma⟩
    | cons b arguments =>
      rw [argumentsText_cons, List.forall_mem_append, List.forall_mem_cons, List.forall_mem_cons]
      exact ⟨a.lineSigns, by decide, by decide, ih⟩

/-- A signature is written on its line. -/
theorem WrittenSignature.lineSigns (s : WrittenSignature) :
    ∀ c ∈ s.text, c ∉ Grammar.lineSigns := by
  simp only [WrittenSignature.text, List.forall_mem_append, List.forall_mem_singleton]
  have hname := isWord_of_isQualified (isQualified_of_isIdentifier s.named)
  exact ⟨⟨⟨⟨lineSigns_typeText s.typed, fun c hc => not_mem_lineSigns (hname.kinds c hc)⟩,
    by decide⟩, lineSigns_argumentsText _ _⟩, by decide⟩

theorem WrittenSignature.solid (s : WrittenSignature) (t : Text) : Solid (s.text ++ t) := by
  simp only [WrittenSignature.text, List.append_assoc]
  exact solid_typeText s.typed
    ((isWord_of_isQualified (isQualified_of_isIdentifier s.named)).solid _)

theorem WrittenSignature.getLast?_text (s : WrittenSignature) :
    (' ' :: s.text).getLast? = some ')' := by
  rw [WrittenSignature.text, ← List.cons_append, List.getLast?_concat]

/-! ## Types that may be left out -/

/-- A sign as the first token. -/
theorem exists_sign {k : Kind} (hs : Spells tokens (w ++ c :: t)) (hc : k.sign? = some c)
    (hk : k ∉ [.atSign, .slash, .star]) :
    ∃ front offset more, tokens = front ++ ⟨k, [c], offset⟩ :: more ∧ Spells front w ∧
    Spells more t := by
  simp only [List.mem_cons, List.not_mem_nil, or_false, not_or] at hk
  obtain ⟨front, behind, rfl, hfront, hbehind⟩ := hs.split (apart_of_sign hc hk.2.2)
  obtain ⟨offset, more, rfl, hmore⟩ := hbehind.of_punctuation hc (by simp [hk])
  exact ⟨front, offset, more, rfl, hfront, hmore⟩

theorem reads_returnType (htyped : ∀ t ∈ type, Derives .whole t)
    (hname : Form.isIdentifier name = true)
    (hs : Spells tokens (typeText type ++ (name ++ '(' :: t))) :
    ∃ named, Spells named (name ++ '(' :: t) ∧ ∀ rest, EndsWord rest →
      Reads (typeOr "void") (tokens ++ rest) (type.getD "void".toList) (named ++ rest) := by
  cases type with
  | none =>
    refine ⟨tokens, hs, fun rest _ => reads_attempt_default (.bind ?_) _⟩
    obtain ⟨front, offset, more, rfl, hfront, -⟩ :=
      exists_sign (w := name) hs (k := .leftParen) rfl (by simp)
    rw [List.append_assoc]
    exact refuses_typeName_name hname hfront rfl
  | some w =>
    have hsolid := (isWord_of_isQualified (isQualified_of_isIdentifier hname)).solid ('(' :: t)
    rw [typeText, List.append_assoc] at hs
    obtain ⟨named, hnamed, hread⟩ :=
      reads_typeBefore (derives_whole_iff.mp (htyped w rfl)) hs Screening.kindOf_space hsolid
    refine ⟨named, hnamed, fun rest hrest => ?_⟩
    obtain ⟨between, htype, hgap⟩ := hread rest hrest
    exact reads_attempt (htype.bind (hgap.bind (.pure _)))

/-- The type of an argument, up to its variable. -/
theorem reads_argumentType {k : Kind} (a : WrittenArgument) (hd : k.sign? = some d)
    (hk : k = .comma ∨ k = .rightParen) (hs : Spells tokens (a.text ++ d :: t)) :
    ∃ named, Spells named (a.name ++ d :: t) ∧ ∀ rest, EndsWord rest → ∃ between,
      Reads (attempt (typeName false) "mixed".toList) (tokens ++ rest)
        (a.type.getD "mixed".toList) between ∧
      Reads skipBlanks between () (named ++ rest) := by
  obtain ⟨type, name, typed, named⟩ := a
  have hsolid := (isWord_of_isVariable named).solid (d :: t)
  rw [WrittenArgument.text, List.append_assoc] at hs
  cases type with
  | none =>
    refine ⟨tokens, hs, fun rest _ =>
      ⟨tokens ++ rest, reads_attempt_default ?_ _, reads_noBlanks_of_solid hs hsolid rest⟩⟩
    obtain ⟨front, offset, more, rfl, hfront, -⟩ :=
      exists_sign (w := name) hs hd (by rcases hk with rfl | rfl <;> simp)
    rw [List.append_assoc]
    exact refuses_typeName_variable named hfront hk
  | some w =>
    rw [typeText, List.append_assoc] at hs
    obtain ⟨more, hmore, hread⟩ :=
      reads_typeBefore (derives_whole_iff.mp (typed w rfl)) hs Screening.kindOf_space hsolid
    refine ⟨more, hmore, fun rest hrest => ?_⟩
    obtain ⟨between, htype, hgap⟩ := hread rest hrest
    exact ⟨between, reads_attempt htype, hgap⟩

/-! ## Arguments -/

/-- An argument is read back up to the sign behind it. -/
theorem reads_argument {k : Kind} (a : WrittenArgument) (hd : k.sign? = some d)
    (hk : k = .comma ∨ k = .rightParen) (hs : Spells tokens (a.text ++ d :: t)) :
    ∃ offset more, Spells more t ∧ ∀ rest, EndsWord rest →
      Reads argument (tokens ++ rest) a.typedName (⟨k, [d], offset⟩ :: (more ++ rest)) := by
  obtain ⟨named, hnamed, hread⟩ := reads_argumentType a hd hk hs
  obtain ⟨front, offset, more, rfl, hfront, hmore⟩ :=
    exists_sign (w := a.name) hnamed hd (by rcases hk with rfl | rfl <;> simp)
  refine ⟨offset, more, hmore, fun rest hrest => ?_⟩
  obtain ⟨between, htype, hgap⟩ := hread rest hrest
  rw [List.append_assoc] at hgap
  have hstring : ∀ v ∈ (⟨k, [d], offset⟩ :: (more ++ rest) : List Token).head?,
      v.kind ≠ .string := by
    rintro v ⟨⟩
    rcases hk with rfl | rfl <;> simp
  have hblank : ∀ v ∈ (⟨k, [d], offset⟩ :: (more ++ rest) : List Token).head?,
      v.kind ≠ .whitespace := by
    rintro v ⟨⟩
    rcases hk with rfl | rfl <;> simp
  refine htype.bind (hgap.bind ((reads_variableName a.named hfront hstring).bind ?_))
  exact (reads_noBlanks hblank).bind (.pure _)

/-- The head of an argument begins a round of the loop. -/
theorem reads_round (a : WrittenArgument) (hs : Spells tokens (a.text ++ t))
    {before : List TypedName} {round : Round (List TypedName) (List TypedName)}
    {behind : List Token} (h : Reads (do
      let arguments := before ++ [← argument]
      if ← Cursor.isAt .comma then
        pass .comma
        skipBlanks
        return .again arguments
      else return .done arguments) (tokens ++ rest) round behind) :
    Reads (argumentsRound before) (tokens ++ rest) round behind := by
  obtain ⟨c, more, htext, hc⟩ := a.exists_head t
  rw [htext] at hs
  obtain ⟨v, tokens, rfl⟩ := List.exists_cons_of_ne_nil (hs.ne_nil (by simp))
  have hkind : v.kind ≠ .rightParen := by
    obtain ⟨d, hd, hkind⟩ := hs.kind_head v rfl
    obtain rfl := Option.mem_some_iff.mp hd
    rw [hkind]
    intro hspelled
    cases hkindOf : kindOf c <;> simp_all [Screening.spelledKind]
  refine reads_current.bind ?_
  show Reads (if v.kind = .rightParen then _ else _) _ _ _
  rw [if_neg hkind]
  exact h

theorem reads_round_last (a : WrittenArgument) (hs : Spells tokens (a.text ++ ')' :: t)) :
    ∃ offset more, Spells more t ∧ ∀ rest before, EndsWord rest →
      Reads (argumentsRound before) (tokens ++ rest) (.done (before ++ [a.typedName]))
        (⟨.rightParen, [')'], offset⟩ :: (more ++ rest)) := by
  obtain ⟨offset, more, hmore, hread⟩ := reads_argument a (k := .rightParen) rfl (.inr rfl) hs
  refine ⟨offset, more, hmore, fun rest before hrest =>
    reads_round a hs ((hread rest hrest).bind ?_)⟩
  exact (reads_isAt_of_ne (by simp)).bind (.pure _)

/-- Behind a comma the loop goes on, and the blanks behind the comma are skipped. -/
theorem reads_round_again (a : WrittenArgument) {blanks : Text}
    (hblanks : blanks = [] ∨ blanks = [' ']) (ht : Solid t)
    (hs : Spells tokens (a.text ++ ',' :: (blanks ++ t))) :
    ∃ more, Spells more t ∧ ∀ rest before, EndsWord rest →
      (more ++ rest).length < (tokens ++ rest).length ∧
      Reads (argumentsRound before) (tokens ++ rest) (.again (before ++ [a.typedName]))
        (more ++ rest) := by
  obtain ⟨offset, behind, hbehind, hread⟩ := reads_argument a (k := .comma) rfl (.inl rfl) hs
  obtain ⟨more, hmore, hgap⟩ : ∃ more, Spells more t ∧
    ∀ rest, Reads skipBlanks (behind ++ rest) () (more ++ rest) := by
    rcases hblanks with rfl | rfl
    · exact ⟨behind, hbehind, reads_noBlanks_of_solid hbehind ht⟩
    · obtain ⟨more, hmore, -, hgap⟩ := reads_gap hbehind (.inl Screening.kindOf_space) ht
      exact ⟨more, hmore, hgap⟩
  refine ⟨more, hmore, fun rest before hrest => ⟨?_, reads_round a hs ((hread rest hrest).bind ?_)⟩⟩
  · obtain ⟨taken, htaken, -⟩ := hread rest hrest
    obtain ⟨skipped, hskipped, -⟩ := hgap rest
    have hlengths := congrArg List.length htaken
    have hbehindLength := congrArg List.length hskipped
    simp only [List.length_append, List.length_cons] at hlengths hbehindLength ⊢
    omega
  · exact (reads_isAt_of_eq rfl).bind ((reads_pass rfl).bind ((hgap rest).bind (.pure _)))

theorem reads_round_none (hs : Spells tokens (')' :: t)) :
    ∃ offset more, Spells more t ∧ ∀ rest before,
      Reads (argumentsRound before) (tokens ++ rest) (.done before)
        (⟨.rightParen, [')'], offset⟩ :: (more ++ rest)) := by
  obtain ⟨offset, more, rfl, hmore⟩ := hs.of_punctuation (k := .rightParen) rfl (by simp)
  exact ⟨offset, more, hmore, fun rest before => reads_current.bind (.pure _)⟩

/-- The loop over the arguments. -/
theorem reads_arguments (hlisted : comma = true → arguments ≠ [])
    (hs : Spells tokens (argumentsText arguments comma ++ ')' :: t)) :
    ∃ offset more, Spells more t ∧ ∀ rest before n, EndsWord rest → (tokens ++ rest).length ≤ n →
      Reads (iterate argumentsRound (n + 1) before) (tokens ++ rest)
        (before ++ arguments.map (·.typedName))
        (⟨.rightParen, [')'], offset⟩ :: (more ++ rest)) := by
  have hclosing : Solid (')' :: t) :=
    ⟨')', t, rfl, by simp [Token.kindOf_of_sign (k := .rightParen) rfl]⟩
  induction arguments generalizing tokens with
  | nil =>
    obtain rfl : comma = false := by simpa using hlisted
    obtain ⟨offset, more, hmore, hread⟩ := reads_round_none hs
    refine ⟨offset, more, hmore, fun rest before n _ _ => ?_⟩
    rw [List.map_nil, List.append_nil]
    exact .iterate_done (hread rest before)
  | cons a arguments ih =>
    cases arguments with
    | nil =>
      rw [argumentsText_singleton, List.append_assoc] at hs
      cases comma with
      | false =>
        obtain ⟨offset, more, hmore, hread⟩ := reads_round_last a hs
        exact ⟨offset, more, hmore, fun rest before n hrest _ =>
          .iterate_done (hread rest before hrest)⟩
      | true =>
        obtain ⟨left, hleft, hagain⟩ := reads_round_again a (.inl rfl) hclosing hs
        obtain ⟨offset, more, hmore, hdone⟩ := reads_round_none hleft
        refine ⟨offset, more, hmore, fun rest before n hrest hn => ?_⟩
        obtain ⟨hless, hround⟩ := hagain rest before hrest
        obtain ⟨n, rfl⟩ : ∃ m, n = m + 1 := ⟨n - 1, by omega⟩
        exact .iterate_again hround (.iterate_done (hdone rest _))
    | cons b arguments =>
      have hsolid : Solid (argumentsText (b :: arguments) comma ++ ')' :: t) :=
        solid_argumentsText (by simp) t
      rw [argumentsText_cons, List.append_assoc] at hs
      obtain ⟨left, hleft, hagain⟩ := reads_round_again a (.inr rfl) hsolid hs
      obtain ⟨offset, more, hmore, hdone⟩ := ih (by simp) hleft
      refine ⟨offset, more, hmore, fun rest before n hrest hn => ?_⟩
      obtain ⟨hless, hround⟩ := hagain rest before hrest
      obtain ⟨n, rfl⟩ : ∃ m, n = m + 1 := ⟨n - 1, by omega⟩
      have hmoreRounds := hdone rest (before ++ [a.typedName]) n hrest (by omega)
      rw [List.append_assoc] at hmoreRounds
      exact .iterate_again hround hmoreRounds

/-! ## The signature -/

theorem reads_methodName (hname : Form.isIdentifier name = true)
    (hs : Spells tokens (name ++ '(' :: t)) :
    ∃ more, Spells more t ∧ ∀ rest, Reads methodName (tokens ++ rest) name (more ++ rest) := by
  obtain ⟨hne, hchars⟩ := Form.isIdentChar_of_isIdentifier hname
  obtain ⟨front, offset, more, rfl, hfront, hmore⟩ :=
    exists_sign (w := name) hs (k := .leftParen) rfl (by simp)
  obtain ⟨place, rfl⟩ := hfront.of_string hne fun c hc => Form.kindOf_of_isIdentChar (hchars c hc)
  refine ⟨more, hmore, fun rest => ?_⟩
  have hcollect : Reads (collect (· ≠ .leftParen))
      ([⟨.string, name, place⟩] ++ ⟨.leftParen, ['('], offset⟩ :: (more ++ rest))
      (Token.concat [⟨.string, name, place⟩], place)
        (⟨.leftParen, ['('], offset⟩ :: (more ++ rest)) :=
    reads_collect (t := ⟨.string, name, place⟩) (by simp) (by simp) rfl
  have hconcat : Token.concat [⟨.string, name, place⟩] = name := List.append_nil name
  rw [hconcat] at hcollect
  rw [List.append_assoc]
  refine hcollect.bind ((reads_isAt_of_eq rfl).bind ((reads_pass rfl).bind ?_))
  show Reads (if Form.isIdentifier name = true then _ else _) _ _ _
  rw [if_pos hname]
  exact .pure _

/-- A signature is read back from its tokens. -/
theorem reads_signature (s : WrittenSignature) (hs : Spells tokens (s.text ++ t)) :
    ∃ more, Spells more t ∧ ∀ rest, EndsWord rest →
    Reads signature (tokens ++ rest) s.signature (more ++ rest) := by
  have htext : s.text ++ t = typeText s.returnType ++
      (s.name ++ '(' :: (argumentsText s.arguments s.comma ++ ')' :: t)) := by
    simp [WrittenSignature.text]
  rw [htext] at hs
  obtain ⟨named, hnamed, htype⟩ := reads_returnType s.typed s.named hs
  obtain ⟨listed, hlisted, hname⟩ := reads_methodName s.named hnamed
  obtain ⟨offset, more, hmore, harguments⟩ := reads_arguments s.listed hlisted
  refine ⟨more, hmore, fun rest hrest => ?_⟩
  have hgap := reads_noBlanks_of_solid hlisted (solid_argumentsText s.listed t) rest
  refine (htype rest hrest).bind ((hname rest).bind (hgap.bind ?_))
  have hloop : Reads (Cursor.loop argumentsRound []) (listed ++ rest) _ _ :=
    .loop (harguments rest [] _ hrest (Nat.le_refl _))
  exact hloop.bind ((reads_pass rfl).bind (.pure _))

end DocComment.Grammar
