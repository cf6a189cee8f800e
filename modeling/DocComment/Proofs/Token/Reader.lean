import DocComment.Proofs.Token.Unique
import DocComment.Token.Reader

/-!
# A reader gives the raw tokens of its text

Whatever a reader was asked for before, the tokens that it keeps and those of the text that it has
left are together the raw tokens of the whole text. So it answers as if all of them had been there
from the start, and of all that was asked for only the index is remembered.
-/

namespace DocComment.Token.Reader

variable {source s : Text} {r : Reader} {tokens : List Token} {index n offset : Nat}

/-- What the raw tokens at an index answer to an action, and the index behind it. -/
def answer (tokens : List Token) (index : Nat) : Action → Answer × Nat
  | .current => (.token tokens[index]?, index)
  | .moveNext =>
    let after := if index < tokens.length then index + 1 else index
    (.flag (after < tokens.length), after)
  | .moveTo place => (.nothing, place.toNat)
  | .restart => (.nothing, 0)
  | .all => (.tokens tokens, index)

/-- The answers to actions in turn, each with the index behind it. -/
def answers (tokens : List Token) : List Action → Nat → List (Answer × Nat)
  | [], _ => []
  | action :: actions, index =>
    answer tokens index action :: answers tokens actions (answer tokens index action).2

/-- The answers of a reader to actions in turn, each with its index behind it. -/
def trace : List Action → Reader → List (Answer × Nat)
  | [], _ => []
  | action :: actions, r =>
    ((r.perform action).1, (r.perform action).2.index) :: trace actions (r.perform action).2

/-- The tokens that are still to come. -/
def ahead (r : Reader) : List Token := r.pending.elim [] fun left => tokenizeFrom 0 left.1 left.2

/-- The reader stands at the index of the tokens, of which it may have taken any number. -/
structure StandsAt (tokens : List Token) (index : Nat) (r : Reader) : Prop where
  tokens : r.buffer.toList ++ r.ahead = tokens
  index : r.index = index

/-! ## Taking tokens -/

theorem tokenizeFrom_take (offset : Nat) (s : Text) :
    tokenizeFrom 0 offset s = (take offset s).1 :: (take offset s).2.elim [] fun left =>
      tokenizeFrom 0 left.1 left.2 := by
  cases s with
  | nil => rfl
  | cons c rest => exact tokenizeFrom_cons offset c rest

/-- A token takes a character at least, if it is not the mark of the end. -/
theorem length_take (offset : Nat) (s : Text) :
    ∀ left ∈ (take offset s).2, left.2.length < s.length := by
  cases s with
  | nil => nofun
  | cons c rest =>
    intro left hleft
    obtain rfl := Option.mem_some.mp hleft
    obtain ⟨more, after, htext, hrest⟩ := text_first offset c rest
    dsimp only
    rw [htext, List.length_drop, List.length_cons, List.length_cons]
    omega

theorem fill_of_none (h : r.pending = none) (n : Nat) : r.fill n = r := by
  cases n with
  | zero => rfl
  | succ n => rw [fill, h]

theorem fill_of_some (h : r.pending = some (offset, s)) (n : Nat) :
    r.fill (n + 1) =
    fill n { r with buffer := r.buffer.push (take offset s).1, pending := (take offset s).2 } := by
  rw [fill, h]

theorem StandsAt.fill (h : StandsAt tokens index r) (n : Nat) :
    StandsAt tokens index (r.fill n) := by
  induction n generalizing r with
  | zero => exact h
  | succ n ih =>
    cases hpending : r.pending with
    | none => exact (fill_of_none hpending _).symm ▸ h
    | some left =>
      rw [fill_of_some hpending]
      refine ih ⟨?_, h.index⟩
      rw [← h.tokens, ahead, ahead, hpending, Option.elim_some, tokenizeFrom_take,
        Array.toList_push, List.append_assoc]
      rfl

/-- As many tokens are there as were to be taken, or all of them. -/
theorem size_fill (r : Reader) (n : Nat) :
    r.buffer.size + n ≤ (r.fill n).buffer.size ∨ (r.fill n).pending = none := by
  induction n generalizing r with
  | zero => exact .inl (Nat.le_refl _)
  | succ n ih =>
    cases hpending : r.pending with
    | none => exact .inr ((fill_of_none hpending _).symm ▸ hpending)
    | some left =>
      rw [fill_of_some hpending]
      refine (ih _).imp_left fun hle => ?_
      rw [Array.size_push] at hle
      omega

theorem pending_fill (h : ∀ left ∈ r.pending, left.2.length < n) : (r.fill n).pending = none := by
  induction n generalizing r with
  | zero =>
    cases hpending : r.pending with
    | none => exact hpending
    | some left => exact absurd (h left hpending) (Nat.not_lt_zero _)
  | succ n ih =>
    cases hpending : r.pending with
    | none => exact (fill_of_none hpending _).symm ▸ hpending
    | some left =>
      rw [fill_of_some hpending]
      refine ih fun behind hbehind => ?_
      have hbound := h left hpending
      have hless := length_take left.1 left.2 behind hbehind
      omega

theorem StandsAt.tokens_of_none (h : StandsAt tokens index r) (hnone : r.pending = none) :
    r.buffer.toList = tokens := by
  rw [← h.tokens, ahead, hnone, Option.elim_none, List.append_nil]

/-! ## Actions -/

theorem StandsAt.current (h : StandsAt tokens index r) :
    r.current.1 = tokens[index]? ∧ StandsAt tokens index r.current.2 := by
  have hfill := h.fill (index + 1 - r.buffer.size)
  have hcurrent : r.current = ((r.fill (index + 1 - r.buffer.size)).buffer[index]?,
      r.fill (index + 1 - r.buffer.size)) := by
    simp only [Reader.current, h.index, hfill.index]
  rw [hcurrent]
  refine ⟨?_, hfill⟩
  rw [← Array.getElem?_toList]
  rcases size_fill r (index + 1 - r.buffer.size) with hsize | hnone
  · rw [← hfill.tokens, List.getElem?_append_left]
    rw [Array.length_toList]
    omega
  · rw [hfill.tokens_of_none hnone]

theorem isSome_at (tokens : List Token) (index : Nat) :
    tokens[index]?.isSome = decide (index < tokens.length) := by
  rw [Bool.eq_iff_iff, isSome_getElem?, decide_eq_true_iff]

theorem StandsAt.moveNext (h : StandsAt tokens index r) :
    let after := if index < tokens.length then index + 1 else index
    r.moveNext.1 = decide (after < tokens.length) ∧ StandsAt tokens after r.moveNext.2 := by
  obtain ⟨hfound, hstands⟩ := h.current
  have hmoved : StandsAt tokens (if index < tokens.length then index + 1 else index)
      (if r.current.1.isSome then { r.current.2 with index := r.current.2.index + 1 } else
        r.current.2) := by
    rw [hfound, isSome_at]
    by_cases hless : index < tokens.length
    · rw [if_pos hless, if_pos (decide_eq_true hless)]
      exact ⟨hstands.tokens, congrArg (· + 1) hstands.index⟩
    · rw [if_neg hless, if_neg (by simpa using hless)]
      exact hstands
  obtain ⟨hnext, hafter⟩ := hmoved.current
  refine ⟨?_, hafter⟩
  rw [← isSome_at, ← hnext]
  rfl

theorem StandsAt.all (h : StandsAt tokens index r) :
    r.all.1 = tokens ∧ StandsAt tokens index r.all.2 := by
  have hfill := h.fill (r.pending.elim 0 (·.2.length + 1))
  refine ⟨hfill.tokens_of_none (pending_fill fun left hleft => ?_), hfill⟩
  rw [Option.mem_def.mp hleft]
  exact Nat.lt_succ_self _

theorem StandsAt.perform (h : StandsAt tokens index r) (action : Action) :
    (r.perform action).1 = (answer tokens index action).1 ∧
      StandsAt tokens (answer tokens index action).2 (r.perform action).2 := by
  cases action with
  | current =>
    obtain ⟨hfound, hafter⟩ := h.current
    exact ⟨congrArg Answer.token hfound, hafter⟩
  | moveNext =>
    obtain ⟨hfound, hafter⟩ := h.moveNext
    exact ⟨congrArg Answer.flag hfound, hafter⟩
  | moveTo place => exact ⟨rfl, h.tokens, rfl⟩
  | restart => exact ⟨rfl, h.tokens, rfl⟩
  | all =>
    obtain ⟨hfound, hafter⟩ := h.all
    exact ⟨congrArg Answer.tokens hfound, hafter⟩

theorem StandsAt.trace (h : StandsAt tokens index r) (actions : List Action) :
    r.trace actions = answers tokens actions index := by
  induction actions generalizing r index with
  | nil => rfl
  | cons action actions ih =>
    obtain ⟨hanswer, hafter⟩ := h.perform action
    rw [Reader.trace, answers, hanswer, hafter.index, ih hafter]

theorem standsAt_ofText (source : Text) : StandsAt (tokenize source) 0 (ofText source) := ⟨rfl, rfl⟩

/-- The raw tokens of a text are the only tokenization of it, and a reader gives the one at its
index, whatever it was asked before. -/
theorem tokenize_unique_and_trace (source : Text) :
    (∀ tokens, IsTokenization source tokens ↔ tokens = tokenize source) ∧
      ∀ actions, (ofText source).trace actions = answers (tokenize source) actions 0 :=
  ⟨isTokenization_iff source, (standsAt_ofText source).trace⟩

/-- The reader is put behind the end and back again, and moves on over the line break. -/
example : (ofText "a\r\n".toList).trace [.moveTo 7, .moveNext, .moveTo (-1), .moveNext, .current,
      .moveNext, .moveNext] =
    [(.nothing, 7), (.flag false, 7), (.nothing, 0), (.flag true, 1),
      (.token (some ⟨.newline, ['\r', '\n'], 1⟩), 1), (.flag true, 2), (.flag false, 3)] := by
      decide +kernel

end DocComment.Token.Reader
