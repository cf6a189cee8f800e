import DocComment.Proofs.Screening.Run
import Mathlib.Data.List.Forall2

/-!
# Tokens that are the same up to the end of a line

Screening looks at the kinds of raw tokens, and at the texts of words. It does not look at offsets,
nor at how a line is broken, and mostly it does not look behind the next line break. `Twin` relates
raw tokens that are the same in this sense, and `SameLine` relates lists of raw tokens up to the
next line break. Whatever is made of such tokens is the same but for where it is, which `Alike` says
of tokens and `Pair` of causes and items.
-/

namespace DocComment

/-- The same token but for where it is. -/
structure Token.Alike (t u : Token) : Prop where
  kind : t.kind = u.kind
  text : t.text = u.text

/-- The same raw token but for where it is and how it breaks a line. -/
structure Token.Twin (t u : Token) : Prop where
  kind : t.kind = u.kind
  text : t.kind ≠ .newline → t.text = u.text
  newline : t.kind = .newline → t.text ∈ Token.lineBreaks ∧ u.text ∈ Token.lineBreaks

/-- The same cause but for where it is, about tokens of a relation. -/
inductive Cause.Pair (T : Token → Token → Prop) : Cause → Cause → Prop
  | unexpectedToken {t u : Token} (h : T t u) : Pair T (.unexpectedToken t) (.unexpectedToken u)
  | unexpectedEnd : Pair T .unexpectedEnd .unexpectedEnd
  | malformed (form : Form) (text : Text) (offset offset' : Nat) :
      Pair T (.malformed form text offset) (.malformed form text offset')

theorem Cause.Pair.imp {T T' : Token → Token → Prop} {cause cause' : Cause}
    (h : cause.Pair T cause') (hT : ∀ t u, T t u → T' t u) : cause.Pair T' cause' := by
  cases h with
  | unexpectedToken h => exact .unexpectedToken (hT _ _ h)
  | unexpectedEnd => exact .unexpectedEnd
  | malformed => exact .malformed _ _ _ _

namespace Screening

/-- The same item but for where it is. -/
inductive Item.Pair (T : Token → Token → Prop) : Item → Item → Prop
  | token {t u : Token} (h : t.Alike u) : Pair T (.token t) (.token u)
  | fault {cause cause' : Cause} (h : cause.Pair T cause') : Pair T (.fault cause) (.fault cause')

theorem Item.Pair.refl (item : Item) : item.Pair Token.Alike item := by
  cases item with
  | token t => exact .token ⟨rfl, rfl⟩
  | fault cause =>
    cases cause with
    | unexpectedToken t => exact .fault (.unexpectedToken ⟨rfl, rfl⟩)
    | unexpectedEnd => exact .fault .unexpectedEnd
    | malformed form text offset => exact .fault (.malformed form text offset offset)

theorem Item.Pair.imp {T T' : Token → Token → Prop} {item item' : Item} (h : item.Pair T item')
    (hT : ∀ t u, T t u → T' t u) : item.Pair T' item' := by
  cases h with
  | token h => exact .token h
  | fault h => exact .fault (h.imp hT)

/-- The number of tokens in front of the next line break. -/
def lineLength (tokens : List Token) : Nat := (tokens.takeWhile (·.kind ≠ .newline)).length

/-- Two lists of raw tokens that are related up to the next line break. -/
inductive SameLine (T : Token → Token → Prop) : List Token → List Token → Prop
  | nil : SameLine T [] []
  | cons {t u : Token} {ts us : List Token} (first : T t u)
      (rest : t.kind ≠ .newline → SameLine T ts us) : SameLine T (t :: ts) (u :: us)

section Lines

variable {t : Token} {ts : List Token} {kind : Kind}

theorem lineLength_cons (h : t.kind ≠ .newline) : lineLength (t :: ts) = lineLength ts + 1 := by
  simp [lineLength, h]

theorem runLength_cons (kind : Kind) (t : Token) (ts : List Token) :
    runLength kind (t :: ts) = if t.kind = kind then runLength kind ts + 1 else 0 := by
  by_cases h : t.kind = kind
  · simp [runLength, h]
  · simp [runLength, h]

/-- A run of another kind than line breaks ends with its line. -/
theorem lineLength_run (hkind : kind ≠ .newline) (ts : List Token) :
    lineLength ts = runLength kind ts + lineLength (ts.drop (runLength kind ts)) := by
  induction ts with
  | nil => rfl
  | cons t ts ih =>
    rw [runLength_cons]
    split
    case isTrue h =>
      rw [lineLength_cons (h ▸ hkind), List.drop_succ_cons]
      omega
    case isFalse => rw [List.drop_zero, Nat.zero_add]

end Lines

section Pairs

variable {T : Token → Token → Prop} {ts us : List Token} {kind : Kind}

theorem SameLine.of_forall₂ (h : List.Forall₂ T ts us) : SameLine T ts us := by
  induction h with
  | nil => exact .nil
  | cons first _ ih => exact .cons first fun _ => ih

/-- A run of another kind than line breaks is as long in both lists, has the same text, and leaves
lists that are related again. -/
theorem SameLine.run (hT : ∀ {t u}, T t u → t.Twin u) (h : SameLine T ts us)
    (hkind : kind ≠ .newline) :
    runLength kind ts = runLength kind us ∧
      Token.concat (ts.takeWhile (·.kind = kind)) = Token.concat (us.takeWhile (·.kind = kind)) ∧
      SameLine T (ts.drop (runLength kind ts)) (us.drop (runLength kind us)) := by
  induction h with
  | nil => exact ⟨rfl, rfl, .nil⟩
  | @cons t u ts us first rest ih =>
    have hsame := (hT first).kind
    by_cases ht : t.kind = kind
    · have hu : u.kind = kind := hsame ▸ ht
      have hline : t.kind ≠ .newline := ht ▸ hkind
      obtain ⟨hlength, htext, hdrop⟩ := ih hline
      refine ⟨?_, ?_, ?_⟩
      · rw [runLength_cons, runLength_cons, if_pos ht, if_pos hu, hlength]
      · rw [List.takeWhile_cons_of_pos (by simpa using ht),
          List.takeWhile_cons_of_pos (by simpa using hu),
          Token.concat_cons, Token.concat_cons, htext, (hT first).text hline]
      · rw [runLength_cons, runLength_cons, if_pos ht, if_pos hu, List.drop_succ_cons,
          List.drop_succ_cons]
        exact hdrop
    · have hu : u.kind ≠ kind := hsame ▸ ht
      refine ⟨?_, ?_, ?_⟩
      · rw [runLength_cons, runLength_cons, if_neg ht, if_neg hu]
      · rw [List.takeWhile_cons_of_neg (by simpa using ht),
          List.takeWhile_cons_of_neg (by simpa using hu)]
      · rw [runLength_cons, runLength_cons, if_neg ht, if_neg hu]
        exact .cons first rest

end Pairs

end Screening

end DocComment
