import DocComment.Proofs.Cursor.Takes
import DocComment.Proofs.Grammar.Keeps

/-!
# How readings are put together

A shape says how a reading is put together from the operations on cursors, by sequence, loops, and
trying one reading before another. Whatever holds of all operations and is kept by these holds of
every reading with a shape: it loses no token, and its position stays among the tokens and never
falls behind where the reading began, whether it answers or fails. A shape also tells how often a
run of the reading begins a round of a loop.
-/

namespace DocComment

open Grammar (tryElse)

/-- How a reading is put together. -/
inductive Shape : {α : Type} → Reading α → Type 1
  | pure {α : Type} (a : α) : Shape (Pure.pure a : Reading α)
  | refuse {α : Type} (cause : Cause) : Shape (Reading.refuse cause : Reading α)
  | stalled {α : Type} : Shape (throw .stalled : Reading α)
  | current : Shape Cursor.current
  | moveNext : Shape Cursor.moveNext
  | peekReset : Shape Cursor.peekReset
  | peekPast (test : Kind → Bool) : Shape (Cursor.peekPast test)
  | get {α : Type} {f : Cursor → Reading α} (next : ∀ c, Shape (f c)) : Shape (MonadState.get >>= f)
  | bind {α β : Type} {r : Reading α} {f : α → Reading β} (first : Shape r)
      (next : ∀ a, Shape (f a)) : Shape (r >>= f)
  | tryElse {α : Type} {r q : Reading α} (first : Shape r) (second : Shape q) : Shape (tryElse r q)
  | iterate {α β : Type} {round : β → Reading (Round β α)} (rounds : ∀ b, Shape (round b))
      (n : Nat) (b : β) : Shape (Reading.iterate round n b)

namespace Shape

variable {α β : Type}

/-- The shape of a rule is found by following how it is put together. -/
def walk : Grammar.Walk (fun _ => True) @Shape where
  pure := pure
  refuse := refuse
  stalled := stalled
  current := current
  moveNext := moveNext
  peekReset := peekReset
  peekPast := peekPast
  get := get
  bind := bind
  tryElse _ := tryElse
  iterate := iterate

def comment : Shape Grammar.comment := walk.comment fun _ _ _ => trivial

/-- The rounds that a loop begins, with those of the loops within its rounds. -/
def roundsOf (round : β → Reading (Round β α)) (within : β → Cursor → Nat) : Nat → β → Cursor → Nat
  | 0, _, _ => 0
  | n + 1, b, c => 1 + within b c +
    match round b c with
    | .ok (.again next) d => roundsOf round within n next d
    | _ => 0

/-- The rounds that a run from a cursor begins, in all loops that move the position. -/
def rounds : {α : Type} → {r : Reading α} → Shape r → Cursor → Nat
  | _, _, .get next, c => (next c).rounds c
  | _, _, .bind (r := r) first next, c => first.rounds c +
    match r c with
    | .ok a d => (next a).rounds d
    | .error _ _ => 0
  | _, _, .tryElse (r := r) first second, c => first.rounds c +
    match r c with
    | .error (.syntaxError _) d =>
      second.rounds { d with position := c.position, peek := c.position }
    | _ => 0
  | _, _, @Shape.iterate _ _ round inner n b, c =>
    roundsOf round (fun b c => (inner b).rounds c) n b c
  | _, _, _, _ => 0

end Shape

namespace Cursor

variable {c d : Cursor}

/-- The position is at a token or behind the last. -/
structure Stands (c : Cursor) : Prop where
  nonneg : 0 ≤ c.position
  within : c.position ≤ c.tokens.length

/-- No token is lost, and the position has not fallen back and is still among them. -/
structure Onward (c d : Cursor) : Prop where
  tokens : d.tokens = c.tokens
  forward : c.position ≤ d.position
  within : d.position ≤ c.tokens.length

namespace Onward

theorem refl (h : c.Stands) : Onward c c := ⟨rfl, Int.le_refl _, h.within⟩

theorem stands (h : c.Stands) (hd : Onward c d) : d.Stands where
  nonneg := Int.le_trans h.nonneg hd.forward
  within := hd.tokens.symm ▸ hd.within

end Onward

end Cursor

namespace Shape

open Cursor (Onward)
open Reading (Ends Keeps Leads)

variable {α : Type} {r : Reading α} {origin c : Cursor}

/-- Looking at tokens, at the position or ahead of it, loses none and moves nothing. -/
theorem invariant_of_place {I : Cursor → Prop}
    (h : ∀ c d, I c → d.tokens = c.tokens → d.position = c.position → I d) :
    Reading.Invariant I fun _ => I where
  fetch place := by
    apply Leads.fetch
    · intro c d hc hstill hview
      exact h c d hc (congrArg Screening.readable hview) hstill.position
    · intro c d cause passed behind hc hstill hview hleft
      refine h c d hc ?_ hstill.position
      rw [Cursor.tokens, Cursor.tokens, hview, hleft, Screening.readable_append,
        Screening.readable_append, Screening.readable_fault]
    · exact fun _ hc => hc
  look c place hc := h c _ hc rfl rfl
  fail _ _ hc := hc

theorem invariant_onward (origin : Cursor) :
    Reading.Invariant (Onward origin) fun _ => Onward origin :=
  invariant_of_place fun _ _ hc htokens hposition =>
    ⟨htokens.trans hc.tokens, hposition ▸ hc.forward, hposition ▸ hc.within⟩

/-- The position moves on only if it is at a token. -/
theorem keeps_moveNext (h : origin.Stands) :
    Keeps (Onward origin) (fun _ => Onward origin) Cursor.moveNext := by
  intro c hc
  obtain ⟨index, hindex⟩ := Int.eq_ofNat_of_zero_le (hc.stands h).nonneg
  have hlast : Leads (Onward origin) (Onward origin) (fun _ => Onward origin) (do
      modify fun c => { c with peek := c.position }
      return (← Cursor.current).isSome) :=
    Leads.bind (.modify fun _ hd => ⟨hd.tokens, hd.forward, hd.within⟩) fun _ =>
      (invariant_onward origin).current.bind fun _ => .pure _
  have hmove : Cursor.moveNext c = (Cursor.fetch index >>= fun found => do
      if found.isSome then modify fun c => { c with position := c.position + 1 }
      modify fun c => { c with peek := c.position }
      return (← Cursor.current).isSome) c := by
    rw [← hindex]
    rfl
  rw [hmove]
  have hends := (invariant_onward origin).fetch index c hc
  rcases Cursor.fetch_tokens index c with ⟨d, hfetch, hstill, -⟩ | ⟨failure, d, hfetch, -⟩
  · rw [hfetch] at hends
    rw [Reading.bind_of_ok hfetch]
    cases hfound : c.tokens[index]? with
    | none => exact hlast d hends
    | some t =>
      refine hlast { d with position := d.position + 1 } ⟨hends.tokens, ?_, ?_⟩
      · exact Int.le_trans hends.forward (Int.le_add_one (Int.le_refl _))
      · obtain ⟨hlt, -⟩ := List.getElem?_eq_some_iff.mp hfound
        have hlength := congrArg List.length hc.tokens
        have hplace := hstill.position
        show d.position + 1 ≤ _
        omega
  · rw [hfetch] at hends
    rw [Reading.bind_of_error hfetch]
    exact hends

/-- A reading that is tried in vain loses no token, and the way back ends where it began. -/
theorem retreats_onward (h : Keeps (Onward origin) (fun _ => Onward origin) r) :
    Grammar.Retreats (Onward origin) r := by
  intro c e d hc hrefused
  have hends := h c hc
  rw [hrefused] at hends
  exact ⟨hends.tokens, hc.forward, hc.within⟩

theorem keeps (shape : Shape r) (h : origin.Stands) :
    Keeps (Onward origin) (fun _ => Onward origin) r := by
  have hplace := invariant_onward origin
  induction shape with
  | pure a => exact .pure a
  | refuse cause => exact hplace.refuse cause
  | stalled => exact fun _ hc => hc
  | current => exact hplace.current
  | moveNext => exact keeps_moveNext h
  | peekReset => exact hplace.peekReset
  | peekPast test => exact hplace.peekPast test
  | get next ih => exact .get ih
  | bind first next ihfirst ihnext => exact ihfirst.bind ihnext
  | tryElse first second ihfirst ihsecond =>
    exact Grammar.keeps_tryElse ihfirst (retreats_onward ihfirst) ihsecond
  | iterate rounds n b ih =>
    exact Leads.iterate (E := fun _ => Onward origin) (fun _ hc => hc) ih n b

theorem onward (shape : Shape r) (h : c.Stands) : Ends (Onward c) (fun _ => Onward c) (r c) :=
  shape.keeps h c (.refl h)

end Shape

end DocComment
