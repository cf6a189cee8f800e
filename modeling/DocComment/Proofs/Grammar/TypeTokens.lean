import DocComment.Grammar.Type
import DocComment.Form.Accept
import DocComment.Proofs.Grammar.Reads

/-!
# The tokens of types

`TypeTokens` is the grammar of types on tokens: operands with bars and ampersands between them,
where an operand is the name of a class, the word `$this`, or a type in parentheses, and bracket
pairs may follow it. `TypeTokens.reads` is its completeness: from the tokens of a type the rule for
types answers with its text, whatever ends it, however deep its parentheses are.
-/

namespace DocComment.Grammar

open Reading (iterate)
open Token (concat)

/-- What a text may be in the grammar of types. -/
inductive TypePart where
  | operand
  | whole

/-- So many bracket pairs. -/
def bracketPairs : Nat → Text
  | 0 => []
  | n + 1 => '[' :: ']' :: bracketPairs n

/-- The tokens of so many bracket pairs. -/
inductive BracketTokens : Nat → List Token → Prop
  | none : BracketTokens 0 []
  | more {pairs : Nat} {left right : Token} {signs : List Token} (opens : left.kind = .leftBracket)
      (closes : right.kind = .rightBracket) (more : BracketTokens pairs signs) :
      BracketTokens (pairs + 1) (left :: right :: signs)

/-- The grammar of types on tokens, with the texts that they stand for. -/
inductive TypeTokens : TypePart → Text → List Token → Prop
  | name {word : List Token} (kinds : ∀ t ∈ word, t.kind ∈ [.string, .backslash])
      (form : Form.isQualified (concat word) = true) : TypeTokens .operand (concat word) word
  | self {dollar word : Token} (opens : dollar.kind = .dollar) (said : word.text = "this".toList) :
      TypeTokens .operand "$this".toList [dollar, word]
  | nested {text : Text} {words : List Token} {left right : Token} (opens : left.kind = .leftParen)
      (inner : TypeTokens .whole text words) (closes : right.kind = .rightParen) :
      TypeTokens .operand ('(' :: (text ++ [')'])) (left :: (words ++ [right]))
  | last {text : Text} {words signs : List Token} {pairs : Nat}
      (operand : TypeTokens .operand text words) (brackets : BracketTokens pairs signs) :
      TypeTokens .whole (text ++ bracketPairs pairs) (words ++ signs)
  | join {text more : Text} {words signs others : List Token} {pairs : Nat} {sign : Token}
      (operand : TypeTokens .operand text words) (brackets : BracketTokens pairs signs)
      (known : sign.kind = .ampersand ∨ sign.kind = .pipe) (rest : TypeTokens .whole more others) :
      TypeTokens .whole (text ++ (bracketPairs pairs ++ (sign.text ++ more)))
        (words ++ (signs ++ sign :: others))

variable {text : Text} {part : TypePart} {pairs : Nat} {words signs rest : List Token} {depth : Nat}

/-- What ends a type does not go on with one of its names or brackets. -/
theorem not_mem_of_endsType {nested : Bool} {kind : Kind} (h : endsType nested kind = true) :
    kind ∉ [.string, .backslash, .leftBracket, .ampersand, .pipe] := by
  simp only [List.mem_cons, List.not_mem_nil, or_false, not_or]
  refine ⟨?_, ?_, ?_, ?_, ?_⟩ <;> rintro rfl <;> cases nested <;> cases h

theorem BracketTokens.head (h : BracketTokens pairs signs) :
    ∀ u ∈ signs.head?, u.kind = .leftBracket := by
  cases h with
  | none => exact fun u hu => absurd hu (Option.not_mem_none u)
  | more opens => exact fun u hu => Option.mem_some_iff.mp hu ▸ opens

theorem BracketTokens.reads (h : BracketTokens pairs signs)
    (hrest : ∀ u ∈ rest.head?, u.kind ≠ .leftBracket) {n : Nat} (hn : signs.length ≤ n)
    (collected : Text) :
    Reads (iterate bracketsRound (n + 1) collected) (signs ++ rest)
      (collected ++ bracketPairs pairs) rest := by
  induction h generalizing n collected with
  | none =>
    rw [bracketPairs, List.append_nil]
    exact .iterate_done ((reads_isAt_of_ne hrest).bind (.pure _))
  | more opens closes more ih =>
    rw [List.length_cons, List.length_cons] at hn
    obtain ⟨n, rfl⟩ : ∃ m, n = m + 1 := ⟨n - 1, by omega⟩
    have hmore := ih (n := n) (by omega) (collected ++ "[]".toList)
    rw [List.append_assoc] at hmore
    refine .iterate_again ((reads_isAt_of_eq opens).bind ?_) hmore
    exact (reads_pass opens).bind ((reads_pass closes).bind (.pure _))

theorem reads_className (hkinds : ∀ t ∈ words, t.kind ∈ [.string, .backslash])
    (hform : Form.isQualified (concat words) = true)
    (hrest : ∀ u ∈ rest.head?, u.kind ∉ [.string, .backslash]) :
    Reads className (words ++ rest) (concat words) rest := by
  have hne : words ≠ [] := by
    rintro rfl
    cases hform
  have haccepts : Form.type.accepts (concat words) = true := hform
  exact reads_collectForm haccepts (fun t ht => decide_eq_true (hkinds t ht))
    (fun u hu => decide_eq_false (hrest u hu)) (List.append_ne_nil_of_left_ne_nil hne rest)

/-- That a rule answers with the text of a part of a type. An operand must not be followed by more
of a name, and a whole type by what does not end it. -/
def PartReads : TypePart → Text → List Token → Prop
  | .operand, text, words => ∀ rest depth, words.length ≤ depth →
    (∀ u ∈ rest.head?, u.kind ∉ [.string, .backslash]) →
    Reads (typeOperand (typeBelow depth true)) (words ++ rest) text rest
  | .whole, text, words => ∀ rest depth n nested collected, words.length ≤ depth →
    words.length ≤ n → (∀ u ∈ rest.head?, endsType nested u.kind = true) →
    Reads (iterate (typeRound (typeBelow depth true) nested) (n + 1) collected)
      (words ++ rest) (collected ++ text) rest

theorem partReads_name (hkinds : ∀ t ∈ words, t.kind ∈ [.string, .backslash])
    (hform : Form.isQualified (concat words) = true) : PartReads .operand (concat words) words := by
  intro rest depth _ hrest
  have hclass := reads_className hkinds hform hrest
  cases words with
  | nil => cases hform
  | cons u more =>
    apply reads_current.bind
    obtain ⟨kind, text, offset⟩ := u
    have hkind : kind = .string ∨ kind = .backslash := by
      simpa using hkinds _ (List.mem_cons_self ..)
    rcases hkind with rfl | rfl <;> exact hclass

theorem partReads_self {dollar word : Token} (hopens : dollar.kind = .dollar)
    (hsaid : word.text = "this".toList) : PartReads .operand "$this".toList [dollar, word] := by
  intro rest depth _ _
  obtain ⟨kind, text, offset⟩ := dollar
  obtain rfl : kind = .dollar := hopens
  apply reads_current.bind
  show Reads selfType _ _ _
  refine (reads_pass rfl).bind (reads_current.bind ?_)
  show Reads (if word.text = "this".toList then _ else _) _ _ _
  rw [if_pos hsaid]
  exact reads_moveNext.bind (.pure _)

theorem partReads_nested {left right : Token} (hopens : left.kind = .leftParen)
    (ih : PartReads .whole text words) (hcloses : right.kind = .rightParen) :
    PartReads .operand ('(' :: (text ++ [')'])) (left :: (words ++ [right])) := by
  intro rest depth hdepth _
  simp only [List.length_cons, List.length_append, List.length_nil] at hdepth
  obtain ⟨depth, rfl⟩ : ∃ m, depth = m + 1 := ⟨depth - 1, by omega⟩
  rw [List.cons_append, List.append_assoc, List.singleton_append]
  obtain ⟨kind, sign, offset⟩ := left
  obtain rfl : kind = .leftParen := hopens
  apply reads_current.bind
  show Reads (typeBelow (depth + 1) true) _ _ _
  refine (reads_pass rfl).bind ?_
  have hends : ∀ u ∈ (right :: rest).head?, endsType true u.kind = true := by
    intro u hu
    rw [← Option.mem_some_iff.mp hu, hcloses]
    rfl
  have hbody :=
    ih (right :: rest) depth (words ++ right :: rest).length true [] (by omega) (by simp) hends
  exact (Reads.loop hbody).bind ((reads_pass hcloses).bind (.pure _))

/-- An operand and the brackets behind it. -/
theorem reads_operand (rest : List Token) (depth : Nat) (ih : PartReads .operand text words)
    (hbrackets : BracketTokens pairs signs) (hdepth : words.length ≤ depth)
    (hrest : ∀ u ∈ rest.head?, u.kind ∉ [.string, .backslash, .leftBracket]) (collected : Text) :
    Reads (typeOperand (typeBelow depth true)) (words ++ (signs ++ rest)) text (signs ++ rest) ∧
      Reads (Cursor.loop bracketsRound (collected ++ text)) (signs ++ rest)
        (collected ++ (text ++ bracketPairs pairs)) rest := by
  constructor
  · refine ih (signs ++ rest) depth hdepth fun u hu => ?_
    cases signs with
    | nil =>
      have hnot := hrest u hu
      simp only [List.mem_cons, List.not_mem_nil, or_false, not_or] at hnot ⊢
      exact ⟨hnot.1, hnot.2.1⟩
    | cons v signs => simp [hbrackets.head u hu]
  · have hstop : ∀ u ∈ rest.head?, u.kind ≠ .leftBracket := by
      intro u hu hkind
      exact hrest u hu (by simp [hkind])
    rw [← List.append_assoc collected]
    exact .loop (hbrackets.reads hstop (by simp) (collected ++ text))

theorem partReads_last (ih : PartReads .operand text words)
    (hbrackets : BracketTokens pairs signs) :
    PartReads .whole (text ++ bracketPairs pairs) (words ++ signs) := by
  intro rest depth n nested collected hdepth _ hends
  rw [List.length_append] at hdepth
  obtain ⟨hoperand, hpairs⟩ := reads_operand rest depth ih hbrackets (by omega)
    (fun u hu => by
      have hnot := not_mem_of_endsType (hends u hu)
      simp only [List.mem_cons, List.not_mem_nil, or_false, not_or] at hnot ⊢
      exact ⟨hnot.1, hnot.2.1, hnot.2.2.1⟩) collected
  rw [List.append_assoc]
  refine .iterate_done (hoperand.bind (hpairs.bind (reads_current.bind ?_)))
  cases hhead : rest.head? with
  | none => exact .pure _
  | some u =>
    show Reads (if endsType nested u.kind then _ else _) _ _ _
    rw [if_pos (hends u hhead)]
    exact .pure _

theorem partReads_join {more : Text} {others : List Token} {sign : Token}
    (ih : PartReads .operand text words) (hbrackets : BracketTokens pairs signs)
    (hknown : sign.kind = .ampersand ∨ sign.kind = .pipe) (ihrest : PartReads .whole more others) :
    PartReads .whole (text ++ (bracketPairs pairs ++ (sign.text ++ more)))
      (words ++ (signs ++ sign :: others)) := by
  intro rest depth n nested collected hdepth hn hends
  simp only [List.length_append, List.length_cons] at hdepth hn
  obtain ⟨n, rfl⟩ : ∃ m, n = m + 1 := ⟨n - 1, by omega⟩
  obtain ⟨hoperand, hpairs⟩ :=
    reads_operand (sign :: (others ++ rest)) depth ih hbrackets (by omega) (fun u hu => by
      rw [← Option.mem_some_iff.mp hu]
      rcases hknown with hkind | hkind <;> simp [hkind]) collected
  have hrest := ihrest rest depth n nested (collected ++ (text ++ bracketPairs pairs) ++ sign.text)
    (by omega) (by omega) hends
  have htext : collected ++ (text ++ bracketPairs pairs) ++ sign.text ++ more =
      collected ++ (text ++ (bracketPairs pairs ++ (sign.text ++ more))) := by simp
  rw [htext] at hrest
  have hgoes : endsType nested sign.kind = false := by
    rcases hknown with hkind | hkind <;> rw [hkind] <;> cases nested <;> rfl
  simp only [List.append_assoc, List.cons_append]
  refine .iterate_again (hoperand.bind (hpairs.bind (reads_current.bind ?_))) hrest
  show Reads (if endsType nested sign.kind then _ else
    if sign.kind = .ampersand ∨ sign.kind = .pipe then _ else _) _ _ _
  rw [if_neg (by simp [hgoes]), if_pos hknown]
  exact reads_moveNext.bind (.pure _)

theorem TypeTokens.partReads (h : TypeTokens part text words) : PartReads part text words := by
  induction h with
  | name kinds form => exact partReads_name kinds form
  | self opens said => exact partReads_self opens said
  | nested opens _ closes ih => exact partReads_nested opens ih closes
  | last _ brackets ih => exact partReads_last ih brackets
  | join _ brackets known _ ih ihrest => exact partReads_join ih brackets known ihrest

/-- The rule for types answers with the text of the tokens of a type, where one ends. -/
theorem TypeTokens.reads (h : TypeTokens .whole text words)
    (hends : ∀ u ∈ rest.head?, endsType false u.kind = true) :
    Reads (typeName false) (words ++ rest) text rest := by
  refine .ahead (f := fun n => typeBelow (n + 1) false) (.loop ?_)
  exact h.partReads rest _ _ false [] (by simp) (by simp) hends

end DocComment.Grammar
