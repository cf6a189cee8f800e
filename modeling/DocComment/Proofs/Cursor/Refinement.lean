import DocComment.Cursor.Action
import DocComment.Proofs.Cursor.Keeps
import DocComment.Proofs.Cursor.Places
import DocComment.Proofs.Screening.Run

/-!
# A cursor refines two places in the screened tokens

Over a text that is screened without an error, a cursor answers as if all tokens had been there from
the start and it were nothing but two places in the list of them. `Places.perform` is that machine.
It says nothing of the buffer, so the order in which tokens are asked for has no part in what is
found. Places below zero are left aside: they count from the end of the buffer.
-/

namespace DocComment

open Cursor (Action Answer)

namespace Places

/-- What the two places answer to an action, and where they are after it. -/
def perform (tokens : List Token) (p : Places) : Action → Answer × Places
  | .current => (.token tokens[p.position]?, p)
  | .moveNext =>
    let after := p.advance tokens
    (.flag tokens[after.position]?.isSome, after)
  | .moveTo place => (.nothing, ⟨place.toNat, place.toNat⟩)
  | .isAt kind => (.flag (tokens[p.position]?.any (·.kind = kind)), p)
  | .isAtAny kinds => (.flag (tokens[p.position]?.any (·.kind ∈ kinds)), p)
  | .skipWhile kind => (.nothing, p.skip tokens (· = kind))
  | .skipUntil kind => (.nothing, p.skip tokens (· ≠ kind))
  | .peekNext =>
    let after := { p with peek := next tokens p.peek }
    (.token tokens[after.peek]?, after)
  | .peekReset => (.nothing, { p with peek := p.position })
  | .peekTo place => (.nothing, { p with peek := place.toNat })
  | .peekPast kinds =>
    let after := p.lookPast tokens (· ∈ kinds)
    (.token tokens[after.peek]?, after)
  | .peekUntil kinds =>
    let after := p.lookPast tokens (· ∉ kinds)
    (.token tokens[after.peek]?, after)
  | .all => (.tokens tokens, p)

/-- The answers to actions in turn, each with the places after it. -/
def trace (tokens : List Token) : List Action → Places → List (Answer × Places)
  | [], _ => []
  | action :: actions, p =>
    p.perform tokens action :: trace tokens actions (p.perform tokens action).2

end Places

namespace Cursor

open Reading (Gives Invariant Keeps)

/-- The place that an action names. -/
def Action.place? : Action → Option Int
  | .moveTo place | .peekTo place => some place
  | _ => none

/-- The action looks ahead and is not to move the position. -/
def Action.isPeek : Action → Bool
  | .peekNext | .peekReset | .peekTo _ | .peekPast _ | .peekUntil _ => true
  | _ => false

/-- The outcome of an action, and the cursor that it leaves. -/
def act (action : Action) (c : Cursor) : Except Failure Answer × Cursor :=
  match perform action c with
  | .ok answer after => (.ok answer, after)
  | .error failure after => (.error failure, after)

/-- The outcomes of actions in turn, each with the cursor after it. -/
def trace : List Action → Cursor → List (Except Failure Answer × Cursor)
  | [], _ => []
  | action :: actions, c => act action c :: trace actions (act action c).2

/-- What is seen of a cursor from without: an outcome and two places. -/
def seen (step : Except Failure Answer × Cursor) : Except Failure Answer × Int × Int :=
  (step.1, step.2.position, step.2.peek)

variable {tokens : List Token} {p : Places}

theorem gives_perform (action : Action) (hplace : ∀ place ∈ action.place?, 0 ≤ place) :
    Gives (perform action) tokens p (p.perform tokens action).1 (p.perform tokens action).2 := by
  cases action with
  | current => exact gives_current.map _
  | moveNext => exact gives_moveNext.map _
  | moveTo place =>
    obtain ⟨index, rfl⟩ := Int.eq_ofNat_of_zero_le (hplace place rfl)
    exact (gives_moveTo index).bind (.pure _)
  | isAt kind => exact (gives_isAt kind).map _
  | isAtAny kinds => exact (gives_currentIs _).map _
  | skipWhile kind => exact (gives_skipWhile kind).bind (.pure _)
  | skipUntil kind => exact (gives_skipUntil kind).bind (.pure _)
  | peekNext => exact gives_peekNext.map _
  | peekReset => exact gives_peekReset.bind (.pure _)
  | peekTo place =>
    obtain ⟨index, rfl⟩ := Int.eq_ofNat_of_zero_le (hplace place rfl)
    exact (gives_peekTo index).bind (.pure _)
  | peekPast kinds => exact (gives_peekPast _).map _
  | peekUntil kinds => exact (gives_peekPast _).map _
  | all => exact gives_all.map _

theorem act_of_stands {c : Cursor} {action : Action} (hplace : ∀ place ∈ action.place?, 0 ≤ place)
    (h : Stands tokens p c) :
    (act action c).1 = .ok (p.perform tokens action).1 ∧
      Stands tokens (p.perform tokens action).2 (act action c).2 := by
  obtain ⟨d, hd, hstands⟩ := gives_perform action hplace c h
  rw [act, hd]
  exact ⟨rfl, hstands⟩

/-- Whatever is buffered, a cursor answers to actions as its places do. -/
theorem trace_of_stands {c : Cursor} {actions : List Action}
    (hplaces : ∀ action ∈ actions, ∀ place ∈ action.place?, 0 ≤ place) (h : Stands tokens p c) :
    (trace actions c).map seen = (p.trace tokens actions).map (fun step =>
        (.ok step.1, (step.2.position : Int), (step.2.peek : Int))) ∧
      ∀ step ∈ trace actions c, step.2.buffer.toList <+: tokens := by
  induction actions generalizing c p with
  | nil => exact ⟨rfl, by simp [trace]⟩
  | cons action actions ih =>
    rw [List.forall_mem_cons] at hplaces
    obtain ⟨houtcome, hstands⟩ := act_of_stands hplaces.1 h
    obtain ⟨htrace, hbuffer⟩ := ih hplaces.2 hstands
    constructor
    · rw [trace, Places.trace, List.map_cons, List.map_cons, htrace, seen, houtcome,
        hstands.position, hstands.peek]
    · rw [trace, List.forall_mem_cons]
      exact ⟨buffer_prefix_of_view hstands.view, hbuffer⟩

theorem invariant_position (place : Int) :
    Invariant (fun c => c.position = place) (fun _ c => c.position = place) where
  fetch := .fetch (fun _ _ hc hstill _ => hstill.position.trans hc)
    (fun _ _ _ _ _ hc hstill _ _ => hstill.position.trans hc) fun _ hc => hc
  look _ _ hc := hc
  fail _ _ hc := hc

/-- Looking ahead leaves the position where it is, whether it succeeds or fails. -/
theorem act_position {action : Action} (h : action.isPeek = true) (c : Cursor) :
    (act action c).2.position = c.position := by
  have hinv := invariant_position c.position
  have hkeeps : Keeps (fun d => d.position = c.position) (fun _ d => d.position = c.position)
      (perform action) := by
    cases action with
    | peekNext => exact hinv.peekNext.map _
    | peekReset => exact hinv.peekReset.bind fun _ => .pure _
    | peekTo place => exact (hinv.peekTo place).bind fun _ => .pure _
    | peekPast kinds => exact (hinv.peekPast _).map _
    | peekUntil kinds => exact (hinv.peekPast _).map _
    | _ => simp [Action.isPeek] at h
  have hafter := hkeeps c rfl
  rw [act]
  cases hperform : perform action c with
  | ok answer d =>
    rw [hperform] at hafter
    exact hafter
  | error failure d =>
    rw [hperform] at hafter
    exact hafter

theorem stands_ofText {source : Text} (h : screen source = .ok tokens) :
    Stands tokens ⟨0, 0⟩ (ofText source) :=
  ⟨by simpa [view, ofText] using screen_eq_ok_iff.mp h, rfl, rfl⟩

/-- Over a text that is screened without an error, a cursor is two places in the screened tokens:
from the start and from any other cursor at the same places it answers as they do, its buffer is a
beginning of the tokens, and looking ahead does not move the position. -/
theorem trace_refines {source : Text} {tokens : List Token} {actions : List Action}
    (hscreen : screen source = .ok tokens)
    (hplaces : ∀ action ∈ actions, ∀ place ∈ action.place?, 0 ≤ place) :
    (trace actions (ofText source)).map seen = (Places.trace tokens actions ⟨0, 0⟩).map
      (fun step => (.ok step.1, (step.2.position : Int), (step.2.peek : Int))) ∧
    (∀ step ∈ trace actions (ofText source), step.2.buffer.toList <+: tokens) ∧
    (∀ p c d, Stands tokens p c → Stands tokens p d →
      (trace actions c).map seen = (trace actions d).map seen) ∧
    ∀ action c, action.isPeek = true → (act action c).2.position = c.position := by
  obtain ⟨htrace, hbuffer⟩ := trace_of_stands hplaces (stands_ofText hscreen)
  refine ⟨htrace, hbuffer, fun p c d hc hd => ?_, fun action c h => act_position h c⟩
  rw [(trace_of_stands hplaces hc).1, (trace_of_stands hplaces hd).1]

/-- Far past the end there is no token, and back at the start there is one again. -/
theorem trace_refines_far :
    screen "/** @api */".toList = .ok [⟨.intro, "/**".toList, 0⟩, ⟨.whitespace, [' '], 3⟩,
      ⟨.tag .api, "@api".toList, 4⟩, ⟨.whitespace, [' '], 8⟩, ⟨.outro, "*/".toList, 9⟩,
      ⟨.endOfText, [], 11⟩] ∧
    (trace [.peekNext, .moveTo 70, .current, .moveTo 0, .skipUntil .outro, .isAt .outro]
        (ofText "/** @api */".toList)).map seen =
      [(.ok (.token (some ⟨.whitespace, [' '], 3⟩)), 0, 1), (.ok .nothing, 70, 70),
        (.ok (.token none), 70, 70), (.ok .nothing, 0, 0), (.ok .nothing, 4, 4),
        (.ok (.flag true), 4, 4)] := by
  have hscreen : screen "/** @api */".toList = .ok [⟨.intro, "/**".toList, 0⟩,
      ⟨.whitespace, [' '], 3⟩, ⟨.tag .api, "@api".toList, 4⟩, ⟨.whitespace, [' '], 8⟩,
      ⟨.outro, "*/".toList, 9⟩, ⟨.endOfText, [], 11⟩] := by
    rw [screen_eq_ok_iff]
    decide +kernel
  refine ⟨hscreen, (trace_refines hscreen ?_).1.trans rfl⟩
  simp [Action.place?]

end Cursor

end DocComment
