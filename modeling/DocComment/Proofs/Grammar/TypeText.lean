import DocComment.Proofs.Form.Characters
import DocComment.Proofs.Grammar.TypeTokens
import DocComment.Proofs.Screening.Spelling

/-!
# The texts of types

`IsType` is the grammar of types on texts: operands with bars and ampersands between them, where an
operand is a qualified name, the word `$this`, or a type in parentheses, and bracket pairs may
follow it. The tokens of a text of this grammar are those of a type, so `reads_typeName` reads each
of them back as it stands. The other way round, what the tokens of a type stand for is a text of
this grammar.
-/

namespace DocComment.Grammar

open Screening (Apart Spells)
open Token (concat kindOf)

/-- The grammar of types. -/
inductive IsType : TypePart → Text → Prop
  | name (t : Text) (qualified : Form.isQualified t = true) : IsType .operand t
  | self : IsType .operand "$this".toList
  | nested {t : Text} (inner : IsType .whole t) : IsType .operand ('(' :: (t ++ [')']))
  | last {s : Text} (pairs : Nat) (operand : IsType .operand s) :
      IsType .whole (s ++ bracketPairs pairs)
  | join {s t : Text} (pairs : Nat) (sign : Char) (known : sign = '|' ∨ sign = '&')
      (operand : IsType .operand s) (more : IsType .whole t) :
      IsType .whole (s ++ (bracketPairs pairs ++ sign :: t))

variable {s t : Text} {u : Token} {tokens words rest : List Token} {part : TypePart} {pairs : Nat}

/-! ## From tokens to texts -/

theorem bracketPairs_concat (pairs : Nat) :
    bracketPairs pairs ++ "[]".toList = bracketPairs (pairs + 1) := by
  induction pairs with
  | zero => rfl
  | succ pairs ih => exact congrArg (fun t => '[' :: ']' :: t) ih

/-- Signs are written as themselves. -/
def SignsPlain (tokens : List Token) : Prop :=
  ∀ t ∈ tokens, ∀ c, t.kind.sign? = some c → t.text = [c]

theorem SignsPlain.left (h : SignsPlain (words ++ rest)) : SignsPlain words :=
  fun t ht => h t (List.mem_append_left _ ht)

theorem SignsPlain.right (h : SignsPlain (words ++ rest)) : SignsPlain rest :=
  fun t ht => h t (List.mem_append_right _ ht)

theorem SignsPlain.tail {t : Token} (h : SignsPlain (t :: rest)) : SignsPlain rest :=
  fun u hu => h u (List.mem_cons_of_mem t hu)

theorem BracketTokens.concat_eq (h : BracketTokens pairs tokens) (hsigns : SignsPlain tokens) :
    concat tokens = bracketPairs pairs := by
  induction h with
  | none => rfl
  | @more pairs left right signs opens closes _ ih =>
    have hopen := hsigns left (by simp) '[' (by rw [opens]; rfl)
    have hclose := hsigns right (by simp) ']' (by rw [closes]; rfl)
    have hrest := ih hsigns.tail.tail
    simp [bracketPairs, hopen, hclose, hrest]

/-- The text of a type is that of its tokens. -/
theorem TypeTokens.concat_eq (h : TypeTokens part t tokens) (hsigns : SignsPlain tokens) :
    concat tokens = t := by
  induction h with
  | name => rfl
  | @self dollar word opens said =>
    have hsign := hsigns dollar (by simp) '$' (by rw [opens]; rfl)
    simp [hsign, said]
  | @nested text words left right opens _ closes ih =>
    have hopen := hsigns left (by simp) '(' (by rw [opens]; rfl)
    have hclose := hsigns right (by simp) ')' (by rw [closes]; rfl)
    have hinner := ih hsigns.tail.left
    simp [hopen, hclose, hinner]
  | last _ brackets ih => rw [Token.concat_append, ih hsigns.left, brackets.concat_eq hsigns.right]
  | @join _ _ _ signs _ _ sign _ brackets _ _ ih ihrest =>
    have hothers := hsigns.right.right.tail
    simp [ih hsigns.left, brackets.concat_eq hsigns.right.left, ihrest hothers]

theorem TypeTokens.isType (h : TypeTokens part t tokens) (hsigns : SignsPlain tokens) :
    IsType part t := by
  induction h with
  | name _ form => exact .name _ form
  | self => exact .self
  | @nested _ _ left _ _ _ _ ih => exact .nested (ih hsigns.tail.left)
  | last _ _ ih => exact .last _ (ih hsigns.left)
  | @join _ _ _ signs _ _ sign _ _ known _ ih ihrest =>
    have hothers := hsigns.right.right.tail
    obtain ⟨c, htext, hc⟩ : ∃ c, sign.text = [c] ∧ (c = '|' ∨ c = '&') := by
      rcases known with hkind | hkind
      · exact ⟨'&', hsigns sign (by simp) '&' (by rw [hkind]; rfl), .inr rfl⟩
      · exact ⟨'|', hsigns sign (by simp) '|' (by rw [hkind]; rfl), .inl rfl⟩
    rw [htext]
    exact .join _ c hc (ih hsigns.left) (ihrest hothers)

/-! ## From texts to tokens -/

/-- Before a sign any text may be cut. -/
theorem apart_of_sign {c : Char} {k : Kind} (hc : k.sign? = some c) (hk : k ≠ .star) :
    Apart s (c :: t) := by
  intro d hd e he hrun
  obtain rfl := Option.mem_some_iff.mp he
  rw [Token.kindOf_of_sign hc] at hrun
  simp only [Screening.runKinds, List.mem_cons, List.not_mem_nil, or_false] at hrun
  rcases hrun with rfl | rfl | rfl
  · cases hc
  · cases hc
  · exact absurd rfl hk

theorem apart_brackets (ht : ∀ s, Apart s t) (pairs : Nat) (s : Text) :
    Apart s (bracketPairs pairs ++ t) := by
  cases pairs with
  | zero => exact ht s
  | succ pairs => exact apart_of_sign (k := .leftBracket) rfl (by simp)

theorem apart_nil (s : Text) : Apart s [] := fun c hc d hd => by simp at hd

/-- The tokens of brackets, and those of the text behind them. -/
theorem exists_brackets (hs : Spells tokens (bracketPairs pairs ++ t)) :
    ∃ signs behind, tokens = signs ++ behind ∧ BracketTokens pairs signs ∧ Spells behind t := by
  induction pairs generalizing tokens with
  | zero => exact ⟨[], tokens, rfl, .none, hs⟩
  | succ pairs ih =>
    obtain ⟨left, middle, rfl, hmiddle⟩ :=
      Spells.of_punctuation (k := .leftBracket) hs rfl (by simp)
    obtain ⟨right, more, rfl, hmore⟩ := hmiddle.of_punctuation (k := .rightBracket) rfl (by simp)
    obtain ⟨signs, behind, rfl, hsigns, hbehind⟩ := ih hmore
    exact ⟨_ :: _ :: signs, behind, rfl, .more rfl rfl hsigns, hbehind⟩

/-- The tokens of a name are strings and backslashes. -/
theorem kinds_of_isQualified (ht : Form.isQualified t = true) (hs : Spells tokens t) :
    ∀ u ∈ tokens, u.kind ∈ [.string, .backslash] := by
  intro u hu
  obtain ⟨c, hc, hkind⟩ := hs.kind_mem u hu
  rcases (Form.chars_of_isQualified ht).2 c hc with h | h <;> rw [hkind, h] <;> decide

theorem typeTokens_name (ht : Form.isQualified t = true) (hs : Spells tokens t) :
    TypeTokens .operand t tokens := by
  have hname : TypeTokens .operand (concat tokens) tokens :=
    .name (kinds_of_isQualified ht hs) (by rwa [hs.concat_eq])
  rwa [hs.concat_eq] at hname

theorem typeTokens_self (hs : Spells tokens "$this".toList) :
    TypeTokens .operand "$this".toList tokens := by
  have hletters : ∀ c ∈ "this".toList, kindOf c = .string := by
    have hall : "this".toList.all Char.isAlphanum = true := by decide
    exact fun c hc => Form.kindOf_of_isAlphanum (List.all_eq_true.mp hall c hc)
  obtain ⟨offset, tail, rfl, hword⟩ :=
    Spells.of_punctuation (c := '$') (t := "this".toList) hs (k := .dollar) rfl (by simp)
  obtain ⟨place, rfl⟩ := hword.of_string (by decide) hletters
  exact .self rfl rfl

/-- The tokens of the text of a type are those of a type. -/
theorem typeTokens_of_isType (h : IsType part t) (hs : Spells tokens t) :
    TypeTokens part t tokens := by
  induction h generalizing tokens with
  | name t qualified => exact typeTokens_name qualified hs
  | self => exact typeTokens_self hs
  | nested inner ih =>
    obtain ⟨offset, tail, rfl, htail⟩ := hs.of_punctuation (k := .leftParen) rfl (by simp)
    obtain ⟨words, closing, rfl, hwords, hclosing⟩ :=
      htail.split (apart_of_sign (k := .rightParen) rfl (by simp))
    obtain ⟨place, after, rfl, hafter⟩ := hclosing.of_punctuation (k := .rightParen) rfl (by simp)
    obtain rfl := hafter.eq_nil
    exact .nested rfl (ih hwords) rfl
  | last pairs operand ih =>
    rw [← List.append_nil (bracketPairs pairs)] at hs
    obtain ⟨words, more, rfl, hwords, hmore⟩ := hs.split (apart_brackets apart_nil pairs _)
    obtain ⟨signs, behind, rfl, hsigns, hbehind⟩ := exists_brackets hmore
    obtain rfl := hbehind.eq_nil
    rw [List.append_nil]
    exact .last (ih hwords) hsigns
  | join pairs sign known operand more ih ihrest =>
    obtain ⟨kind, hkind, hknown⟩ : ∃ kind : Kind, kind.sign? = some sign ∧
        (kind = .ampersand ∨ kind = .pipe) := by
      rcases known with rfl | rfl
      · exact ⟨.pipe, rfl, .inr rfl⟩
      · exact ⟨.ampersand, rfl, .inl rfl⟩
    have hstar : kind ≠ .star := by rcases hknown with rfl | rfl <;> simp
    obtain ⟨words, left, rfl, hwords, hleft⟩ :=
      hs.split (apart_brackets (fun s => apart_of_sign hkind hstar) pairs _)
    obtain ⟨signs, behind, rfl, hsigns, hbehind⟩ := exists_brackets hleft
    obtain ⟨place, others, rfl, hothers⟩ := hbehind.of_punctuation hkind
      (by rcases hknown with rfl | rfl <;> simp)
    have hsign : Token.kind ⟨kind, [sign], place⟩ = .ampersand ∨
      Token.kind ⟨kind, [sign], place⟩ = .pipe := hknown
    exact .join (ih hwords) hsigns hsign (ihrest hothers)

/-- A type is read back from the tokens of its text. -/
theorem reads_typeName (ht : IsType .whole t) (hs : Spells tokens t)
    (hend : endsType false u.kind = true) :
    Reads (typeName false) (tokens ++ u :: rest) t (u :: rest) := by
  refine (typeTokens_of_isType ht hs).reads fun v hv => ?_
  rwa [← Option.mem_some_iff.mp hv]

end DocComment.Grammar
