import DocComment.Proofs.Document.Blocks
import DocComment.Proofs.Grammar.Spends

/-!
# Reading a comment makes progress

In spite of all that is tried and taken back, a round of a loop that goes on has moved the position
on, and a rule that answers ends where it began or further on. What a caught refusal leaves behind
are the same tokens and the position that the rule began at, also when the refusal was for a fault
in the text, which is then gone from what is still to come. So the position is always among the
tokens of the text, and there are fewer rounds than the square of their number gives.
-/

namespace DocComment

/-- The cursor is over a text: its tokens are those of the text, and its position is among them. -/
structure Cursor.Over (source : Text) (c : Cursor) : Prop where
  tokens : c.tokens = Screening.readable (Screening.items source)
  stands : c.Stands

namespace Screening

theorem length_itemsFrom (skip : Nat) (tokens : List Token) :
    (itemsFrom skip tokens).length ≤ tokens.length := by
  induction tokens generalizing skip with
  | nil => exact Nat.le_of_eq (by simp [itemsFrom])
  | cons first rest ih =>
    cases skip with
    | zero => exact Nat.succ_le_succ (ih _)
    | succ skip => exact Nat.le_succ_of_le (ih skip)

/-- Screening never makes more tokens than there are raw ones. -/
theorem length_readable (source : Text) :
    (readable (items source)).length ≤ (Token.tokenize source).length :=
  Nat.le_trans (List.length_filterMap_le _ _) (length_itemsFrom 0 _)

end Screening

namespace Cursor

variable {source : Text} {c d : Cursor}

theorem over_ofText (source : Text) : (ofText source).Over source where
  tokens := rfl
  stands := ⟨Int.le_refl _, Int.natCast_nonneg _⟩

namespace Over

theorem onward (h : c.Over source) (hd : Onward c d) : d.Over source :=
  ⟨hd.tokens.trans h.tokens, hd.stands h.stands⟩

theorem length_tokens (h : c.Over source) : c.tokens.length ≤ (Token.tokenize source).length := by
  rw [h.tokens]
  exact Screening.length_readable source

theorem position_le (h : c.Over source) : c.position ≤ (Token.tokenize source).length := by
  have hlength := h.length_tokens
  have hwithin := h.stands.within
  omega

end Over

end Cursor

namespace Grammar

/-- The loops that a comment is read by. -/
inductive IsLoop : {β : Type} → (β → Reading (Round β β)) → Prop
  | skip (kind : Kind) : IsLoop (Cursor.skipWhileRound kind)
  | collect (accept : Kind → Bool) : IsLoop (collectRound accept)
  | system : IsLoop systemRound
  | type (depth : Nat) (nested : Bool) : IsLoop (typeRound (typeBelow depth true) nested)
  | brackets : IsLoop bracketsRound
  | description (depth : Nat) (braced : Bool) :
      IsLoop (descriptionRound (descriptionBelow depth true) braced)
  | arguments : IsLoop argumentsRound
  | blockTags : IsLoop blockTagsRound

variable {β : Type} {round : β → Reading (Round β β)}

theorem IsLoop.settles (h : IsLoop round) (n : Nat) :
    ∃ (rounds : ∀ b, Shape (round b)) (w e : Nat), Settles n w e rounds := by
  cases h with
  | skip kind => exact ⟨_, _, _, settles_skipWhile kind⟩
  | collect accept => exact ⟨_, _, _, settles_collect accept⟩
  | system => exact ⟨_, _, _, settles_system⟩
  | type depth nested => exact ⟨_, _, _, settles_type (costs_typeBelow depth) nested⟩
  | brackets => exact ⟨_, _, _, settles_brackets⟩
  | description depth braced =>
    exact ⟨_, _, _, settles_description (costs_descriptionBelow depth true) braced⟩
  | arguments => exact ⟨_, _, _, settles_arguments (Nat.le_refl _)⟩
  | blockTags => exact ⟨_, _, _, settles_blockTags (Nat.le_refl _)⟩

theorem rounds_comment_le (source : Text) :
    Shape.comment.rounds (Cursor.ofText source) ≤
      24 * (((Token.tokenize source).length + 1) * ((Token.tokenize source).length + 1)) := by
  have hover := Cursor.over_ofText source
  generalize hn : (Token.tokenize source).length = n
  have htokens : (Cursor.ofText source).left.length ≤ n := hn ▸ hover.length_tokens
  obtain ⟨hspent, -⟩ := costs_comment htokens (Nat.le_refl _) _ hover.stands rfl
  have hall := Nat.mul_le_mul_left (12 * n + 31) htokens
  have hsquare : (n + 1) * (n + 1) = n * n + n + (n + 1) := by rw [Nat.succ_mul, Nat.mul_succ]
  calc Shape.comment.rounds (Cursor.ofText source)
    _ ≤ (12 * n + 31) * n + (8 * n + 23) := by omega
    _ = 12 * (n * n) + 31 * n + (8 * n + 23) := by rw [Nat.add_mul, Nat.mul_assoc]
    _ ≤ 24 * (n * n + n + (n + 1)) := by omega
    _ = 24 * ((n + 1) * (n + 1)) := by rw [hsquare]

/-- A comment is read with progress. Every round of a loop that begins over a text and answers has
moved the position on, or ends the loop with what it had. Every rule that is put together from the
operations on cursors stays over the text, and ends where it began or further on. Every rule that is
tried and refused gives the position back that it began at. Hence the position never exceeds the
number of raw tokens, no loop is cut short, and all loops together begin at most as many rounds as
the number of raw tokens allows. -/
theorem comment_progress (source : Text) :
    (∀ {β : Type} {round : β → Reading (Round β β)}, IsLoop round →
      ∀ (b : β) (c d : Cursor) (outcome : Round β β), c.Over source → round b c = .ok outcome d →
        c.position < d.position ∨ outcome = .done b) ∧
    (∀ {α : Type} {rule : Reading α}, Shape rule → ∀ c : Cursor, c.Over source →
      (∀ a d, rule c = .ok a d → d.Over source ∧ c.position ≤ d.position) ∧
      ∀ failure d, rule c = .error failure d → d.Over source) ∧
    (∀ {α : Type} {first second : Reading α}, Shape first →
      ∀ (c d : Cursor) (e : SyntaxError), c.Over source → first c = .error (.syntaxError e) d →
        ∃ restored : Cursor, restored.Over source ∧ restored.position = c.position ∧
        tryElse first second c = second restored) ∧
    (Cursor.ofText source).Over source ∧
    (∀ c : Cursor, c.Over source → c.position ≤ (Token.tokenize source).length) ∧
    (∀ failure, comment.onText source = .error failure → ∃ e, failure = .syntaxError e) ∧
    Shape.comment.rounds (Cursor.ofText source) ≤
      24 * (((Token.tokenize source).length + 1) * ((Token.tokenize source).length + 1)) := by
  refine ⟨?_, ?_, ?_, Cursor.over_ofText source, fun c hc => hc.position_le, ?_,
    rounds_comment_le source⟩
  · intro β round hloop b c d outcome hc hr
    obtain ⟨rounds, w, e, hsettles⟩ := hloop.settles c.tokens.length
    exact hsettles.moves (Nat.le_refl _) hc.stands hr
  · intro α rule shape c hc
    have honward := shape.onward hc.stands
    constructor
    · intro a d hr
      rw [hr] at honward
      exact ⟨hc.onward honward, honward.forward⟩
    · intro failure d hr
      rw [hr] at honward
      exact hc.onward honward
  · intro α first second shape c d e hc hr
    have honward := shape.onward hc.stands
    rw [hr] at honward
    have hback : Cursor.Onward c { d with position := c.position, peek := c.position } :=
      ⟨honward.tokens, Int.le_refl _, hc.stands.within⟩
    exact ⟨_, hc.onward hback, rfl, tryElse_of_refused hr⟩
  · intro failure hr
    obtain ⟨cause, rfl, -⟩ := comment_error hr
    exact ⟨_, rfl⟩

example : Shape.comment.rounds (Cursor.ofText "/** @param $x */".toList) = 16 := by decide +kernel

end Grammar

end DocComment
