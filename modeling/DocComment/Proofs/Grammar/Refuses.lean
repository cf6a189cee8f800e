import DocComment.Proofs.Grammar.TypeGrammar
import DocComment.Proofs.Grammar.Words

/-!
# What rules refuse

`Refuses r tokens` says that from a cursor in front of `tokens` the rule `r` ends in a syntax error
and takes no token away, whatever is behind the cursor. A rule that is tried and refused reads
nothing, so what may be left out is taken for its default. In front of an argument list or of a
comma a name and a variable are no types, not even `$this`.
-/

namespace DocComment.Grammar

open Cursor (current loop)
open Reading (Gives iterate)
open Screening (Spells)
open Token (kindOf)

variable {α β : Type} {a : α} {b : β} {w : Text} {u : Token} {tokens rest : List Token}
  {r : Reading α}

/-- In front of the tokens the rule ends in a syntax error, with all tokens still to be seen. -/
def Refuses (r : Reading α) (tokens : List Token) : Prop :=
  ∀ (passed : List Token) (peek : Nat) (c : Cursor),
    Stands (passed ++ tokens) ⟨passed.length, peek⟩ c →
    ∃ e d, r c = .error (.syntaxError e) d ∧ d.view = (passed ++ tokens).map .token

namespace Refuses

theorem refuse (cause : Cause) : Refuses (Reading.refuse cause : Reading α) tokens :=
  fun _ _ c hc => ⟨_, c, rfl, hc.view⟩

theorem bind {f : α → Reading β} (h : Refuses r tokens) : Refuses (r >>= f) tokens := by
  intro passed peek c hc
  obtain ⟨e, d, hr, hview⟩ := h passed peek c hc
  exact ⟨e, d, Reading.bind_of_error hr, hview⟩

/-- A rule may read something before it is refused. -/
theorem after {f : α → Reading β} (hr : Reads r tokens a rest) (hf : Refuses (f a) rest) :
    Refuses (r >>= f) tokens := by
  obtain ⟨taken, rfl, hr⟩ := hr
  intro passed peek c hc
  obtain ⟨between, hgives⟩ := hr passed peek
  obtain ⟨d, hrd, hd⟩ := hgives c hc
  rw [← List.append_assoc] at hd ⊢
  obtain ⟨e, d', hfd, hview⟩ := hf (passed ++ taken) between d hd
  exact ⟨e, d', (Reading.bind_of_ok hrd).trans hfd, hview⟩

/-- A rule may count the tokens that are ahead of it. -/
theorem ahead {f : Nat → Reading α} (h : Refuses (f tokens.length) tokens) :
    Refuses (do let c ← get; f (c.ahead c.position)) tokens := by
  intro passed peek c hc
  have hahead : c.ahead c.position = tokens.length := by
    rw [hc.position, hc.ahead, List.length_append, Nat.add_sub_cancel_left]
  show ∃ e d, f (c.ahead c.position) c = _ ∧ _
  rw [hahead]
  exact h passed peek c hc

theorem loop {round : β → Reading (Round β α)} (h : Refuses (round b) tokens) :
    Refuses (Cursor.loop round b) tokens :=
  ahead (f := fun n => iterate round (n + 1) b) h.bind

end Refuses

/-- Where a rule is refused, its default is taken, and nothing is read. -/
theorem reads_attempt_default {rule : Reading α} (h : Refuses rule tokens) (default : α) :
    Reads (attempt rule default) tokens default tokens := by
  refine ⟨[], rfl, fun passed peek => ⟨passed.length, fun c hc => ?_⟩⟩
  obtain ⟨e, d, hrule, hview⟩ := h passed peek c hc
  rw [List.append_nil]
  exact ⟨_, tryElse_of_refused hrule, hview, hc.position, hc.position⟩

/-! ## What is no type -/

theorem refuses_typeName_of_operand
    (h : ∀ depth, Refuses (typeOperand (typeBelow depth true)) tokens) :
    Refuses (typeName false) tokens :=
  .ahead (f := fun n => typeBelow (n + 1) false) (.loop (h tokens.length).bind)

/-- An operand is no type in front of a token that neither ends a type nor goes on with one. -/
theorem refuses_typeName_of_next (h : ∀ depth, tokens.length < depth →
      Reads (typeOperand (typeBelow depth true)) (tokens ++ u :: rest) w (u :: rest))
    (hends : endsType false u.kind = false) (hu : u.kind ∉ [.leftBracket, .ampersand, .pipe]) :
    Refuses (typeName false) (tokens ++ u :: rest) := by
  simp only [List.mem_cons, List.not_mem_nil, or_false, not_or] at hu
  have hbracket : ∀ v ∈ (u :: rest).head?, v.kind ≠ .leftBracket := by simpa using hu.1
  have hbrackets : ∀ collected, Reads (Cursor.loop bracketsRound collected) (u :: rest) collected
      (u :: rest) :=
    fun collected => .loop (.iterate_done ((reads_isAt_of_ne hbracket).bind (.pure _)))
  refine .ahead (f := fun n => typeBelow (n + 1) false) (.loop ?_)
  refine .after (h _ (by simp)) (.after (hbrackets _) (.after reads_current ?_))
  show Refuses (if endsType false u.kind then _ else if u.kind = .ampersand ∨
    u.kind = .pipe then _ else _) _
  rw [if_neg (by simp [hends]), if_neg (by simp [hu.2])]
  exact .refuse _

/-- A name is no type in front of an opening parenthesis. -/
theorem refuses_typeName_name (hw : Form.isIdentifier w = true) (hs : Spells tokens w)
    (hu : u.kind = .leftParen) :
    Refuses (typeName false) (tokens ++ u :: rest) := by
  have hstop : ∀ v ∈ (u :: rest).head?, v.kind ∉ [.string, .backslash] := by simp [hu]
  have hread : ∀ depth, tokens.length < depth →
      Reads (typeOperand (typeBelow depth true)) (tokens ++ u :: rest) w (u :: rest) :=
    fun depth hdepth =>
      (typeTokens_name (isQualified_of_isIdentifier hw) hs).partReads (u :: rest) depth
        hdepth.le hstop
  exact refuses_typeName_of_next hread (by rw [hu]; rfl) (by simp [hu])

/-- A variable is no type in front of a comma or a closing parenthesis. -/
theorem refuses_typeName_variable (hw : Form.isVariable w = true) (hs : Spells tokens w)
    (hu : u.kind = .comma ∨ u.kind = .rightParen) :
    Refuses (typeName false) (tokens ++ u :: rest) := by
  obtain ⟨name, rfl, hne, hchars⟩ := Form.chars_of_isVariable hw
  by_cases hthis : name = "this".toList
  · subst hthis
    have hread : ∀ depth, tokens.length < depth →
        Reads (typeOperand (typeBelow depth true)) (tokens ++ u :: rest) "$this".toList
          (u :: rest) :=
      fun depth hdepth => (typeTokens_self hs).partReads (u :: rest) depth hdepth.le (by
        rcases hu with h | h <;> simp [h])
    refine refuses_typeName_of_next hread ?_ ?_
    · rcases hu with h | h <;> rw [h] <;> rfl
    · rcases hu with h | h <;> simp [h]
  · obtain ⟨offset, tail, rfl, hname⟩ := hs.of_punctuation (k := .dollar) rfl (by simp)
    obtain ⟨place, rfl⟩ := hname.of_string hne hchars
    refine refuses_typeName_of_operand fun depth => .after reads_current ?_
    show Refuses selfType _
    refine .after (reads_pass rfl) (.after reads_current ?_)
    show Refuses (if name = "this".toList then _ else _) _
    rw [if_neg hthis]
    exact .refuse _

end DocComment.Grammar
