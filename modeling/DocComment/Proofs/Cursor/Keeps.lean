import DocComment.Proofs.Cursor.View

/-!
# Invariants of readings

A reading leads from one condition on cursors to another if it ends under the second wherever it
succeeds; where it fails, the failure and the cursor it leaves are under a condition of their own.
It keeps a condition if it leads from it to itself. The rules follow the way readings are put
together. What holds of the operations on cursors follows from a few facts about fetching, looking
ahead, moving on and failing, which `Reading.Invariant` and `Reading.Steady` bundle.
-/

namespace DocComment

namespace Reading

open Screening (Item)

variable {α β : Type} {I J K : Cursor → Prop} {E : Failure → Cursor → Prop}

/-- A reading that succeeded ended in a cursor of `J`, and one that failed did so under `E`. -/
def Ends (J : Cursor → Prop) (E : Failure → Cursor → Prop) : EStateM.Result Failure Cursor α → Prop
  | .ok _ d => J d
  | .error failure d => E failure d

/-- From a cursor of `I` the reading ends in one of `J`, or fails under `E`. -/
def Leads (I J : Cursor → Prop) (E : Failure → Cursor → Prop) (r : Reading α) : Prop :=
  ∀ c, I c → Ends J E (r c)

/-- From a cursor of `I` the reading ends in one of `I`, or fails under `E`. -/
abbrev Keeps (I : Cursor → Prop) (E : Failure → Cursor → Prop) (r : Reading α) : Prop :=
  Leads I I E r

theorem Ends.imp {result : EStateM.Result Failure Cursor α} (h : Ends J E result)
    (hJ : ∀ c, J c → K c) : Ends K E result := by
  cases result with
  | ok a d => exact hJ d h
  | error failure d => exact h

theorem Ends.bind {r : Reading α} {f : α → Reading β} {c : Cursor} (hr : Ends J E (r c))
    (hf : ∀ a, Leads J K E (f a)) : Ends K E ((r >>= f) c) := by
  cases h : r c with
  | ok a d =>
    rw [h] at hr
    rw [bind_of_ok h]
    exact hf a d hr
  | error failure d =>
    rw [h] at hr
    rw [bind_of_error h]
    exact hr

theorem Leads.imp {r : Reading α} (h : Leads I J E r) (hJ : ∀ c, J c → K c) : Leads I K E r :=
  fun c hc => (h c hc).imp hJ

theorem Leads.bind {r : Reading α} {f : α → Reading β} (hr : Leads I J E r)
    (hf : ∀ a, Leads J K E (f a)) : Leads I K E (r >>= f) :=
  fun c hc => (hr c hc).bind hf

theorem Leads.pure (a : α) : Keeps I E (Pure.pure a : Reading α) := fun _ h => h

theorem Leads.map {r : Reading α} (f : α → β) (hr : Leads I J E r) : Leads I J E (f <$> r) :=
  hr.bind fun a => Leads.pure (f a)

/-- What a reading does with the cursor itself is shown for every cursor. -/
theorem Leads.get {f : Cursor → Reading α} (h : ∀ c, Leads I J E (f c)) :
    Leads I J E (MonadState.get >>= f) :=
  fun c hc => h c c hc

theorem Leads.modify {f : Cursor → Cursor} (h : ∀ c, I c → J (f c)) : Leads I J E (modify f) := h

/-- What keeps an invariant in each round keeps it in all rounds. -/
theorem Leads.iterate {round : β → Reading (Round β α)} (hstalled : ∀ c, I c → E .stalled c)
    (hround : ∀ b, Keeps I E (round b)) (n : Nat) (b : β) : Keeps I E (iterate round n b) := by
  induction n generalizing b with
  | zero => exact hstalled
  | succ n ih =>
    refine (hround b).bind fun outcome => ?_
    cases outcome with
    | again next => exact ih next
    | done result => exact Leads.pure result

/-- A fetch keeps what holds however far the buffer is filled. -/
theorem Leads.fetch (hfilled : ∀ c d, I c → Cursor.Still c d → d.view = c.view → I d)
    (hfault : ∀ (c d : Cursor) (cause : Cause) (passed : List Token) (behind : List Item), I c →
      Cursor.Still c d → c.view = passed.map .token ++ .fault cause :: behind →
      d.view = passed.map .token ++ behind → E (.syntaxError ⟨cause, c.source⟩) d)
    (hrange : ∀ c, I c → E .outOfRange c) (place : Int) : Keeps I E (Cursor.fetch place) := by
  intro c hc
  cases place with
  | ofNat index =>
    rcases Cursor.fetch_cases index c with ⟨d, hfetch, hstill, hview, -⟩ |
      ⟨d, cause, passed, behind, hfetch, hstill, hview, hleft, -⟩
    · rw [Int.ofNat_eq_natCast, hfetch]
      exact hfilled c d hc hstill hview
    · rw [Int.ofNat_eq_natCast, hfetch]
      exact hfault c d cause passed behind hc hstill hview hleft
  | negSucc back =>
    rcases Cursor.fetch_negSucc back c with ⟨found, hfetch⟩ | hfetch
    · rw [hfetch]
      exact hc
    · rw [hfetch]
      exact hrange c hc

/-- An invariant that neither fetching nor looking ahead breaks, and under which a reading may
fail. -/
structure Invariant (I : Cursor → Prop) (E : Failure → Cursor → Prop) : Prop where
  fetch : ∀ place, Keeps I E (Cursor.fetch place)
  look : ∀ c place, I c → I { c with peek := place }
  fail : ∀ failure c, I c → E failure c

/-- An invariant that moving on does not break either. -/
structure Steady (I : Cursor → Prop) (E : Failure → Cursor → Prop) : Prop extends
    Invariant I E where
  move : ∀ c, I c → I { c with position := c.position + 1 }

namespace Invariant

theorem current (h : Invariant I E) : Keeps I E Cursor.current :=
  .get fun c => h.fetch c.position

theorem refuse (h : Invariant I E) (cause : Cause) :
    Keeps I E (Reading.refuse cause : Reading α) :=
  fun c hc => h.fail _ c hc

theorem peekTo (h : Invariant I E) (place : Int) : Keeps I E (Cursor.peekTo place) :=
  .modify fun c hc => h.look c place hc

theorem peekReset (h : Invariant I E) : Keeps I E Cursor.peekReset :=
  .get fun c => h.peekTo c.position

theorem peekNext (h : Invariant I E) : Keeps I E Cursor.peekNext := by
  refine .get fun c => (h.fetch c.peek).bind fun found => ?_
  have hthere : Keeps I E (do Cursor.fetch (← get).peek) := .get fun c => h.fetch c.peek
  split
  · exact Leads.bind (.modify fun c hc => h.look c _ hc) fun _ => hthere
  · exact hthere

theorem peekPast (h : Invariant I E) (test : Kind → Bool) : Keeps I E (Cursor.peekPast test) := by
  refine .get fun c => .iterate (h.fail .stalled) (fun _ => ?_) _ ()
  refine h.peekNext.bind fun found => ?_
  cases found with
  | none => exact .pure _
  | some t => exact .pure _

end Invariant

namespace Steady

theorem moveNext (h : Steady I E) : Keeps I E Cursor.moveNext := by
  refine h.current.bind fun found => ?_
  have hfollow : Keeps I E (do
      modify fun c => { c with peek := c.position }
      return (← Cursor.current).isSome) :=
    Leads.bind (.modify fun c hc => h.look c _ hc) fun _ => h.current.bind fun _ => .pure _
  split
  · exact Leads.bind (.modify h.move) fun _ => hfollow
  · exact hfollow

end Steady

end Reading

end DocComment
