import DocComment.Proofs.Cursor.View
import DocComment.Proofs.Screening.SameLine

/-!
# Two readings side by side

Two cursors show the same if their items are the same but for where they are, and if they stand at
the same places. `Pairs T R r r'` says of two readings that from such cursors they end in such
cursors, both with an answer or both with a failure of one kind: the answers are under `R`, and the
causes of the failures are the same for tokens under `T`. The rules follow the way readings are put
together. Both readings of a loop have as many rounds, because there are as many items ahead.
-/

namespace DocComment

open Screening (Item)
open Token (Alike)

/-- Two failures of one kind; the causes of syntax errors are the same for tokens of a relation. -/
inductive Failure.Pair (T : Token → Token → Prop) : Failure → Failure → Prop
  | syntaxError {e e' : SyntaxError} (h : e.cause.Pair T e'.cause) :
      Pair T (.syntaxError e) (.syntaxError e')
  | outOfRange : Pair T .outOfRange .outOfRange
  | stalled : Pair T .stalled .stalled

/-- Two cursors that show the same, at the same places. -/
structure Cursor.Pair (T : Token → Token → Prop) (c c' : Cursor) : Prop where
  buffer : List.Forall₂ Alike c.buffer.toList c'.buffer.toList
  pending : List.Forall₂ (Item.Pair T) c.pending c'.pending
  position : c.position = c'.position
  peek : c.peek = c'.peek

variable {T : Token → Token → Prop}

theorem Cursor.Pair.ahead {c c' : Cursor} (h : c.Pair T c') (place : Int) :
    c.ahead place = c'.ahead place := by
  have hbuffer := h.buffer.length_eq
  rw [Array.length_toList, Array.length_toList] at hbuffer
  rw [Cursor.ahead, Cursor.ahead, hbuffer, h.pending.length_eq]

theorem forall₂_getElem? {α β : Type} {R : α → β → Prop} {as : List α} {bs : List β}
    (h : List.Forall₂ R as bs) (i : Nat) : Option.Rel R as[i]? bs[i]? := by
  induction h generalizing i with
  | nil => exact .none
  | cons hab _ ih =>
    cases i with
    | zero => exact .some hab
    | succ i => exact ih i

namespace Reading

variable {α β γ δ : Type}

/-- Two readings ended alike. -/
inductive ResultPair (T : Token → Token → Prop) (R : α → β → Prop) :
    EStateM.Result Failure Cursor α → EStateM.Result Failure Cursor β → Prop
  | ok {a : α} {b : β} {d d' : Cursor} (answer : R a b) (cursor : d.Pair T d') :
      ResultPair T R (.ok a d) (.ok b d')
  | error {failure failure' : Failure} {d d' : Cursor} (pair : failure.Pair T failure')
      (cursor : d.Pair T d') : ResultPair T R (.error failure d) (.error failure' d')

/-- From cursors that show the same the two readings end alike. -/
def Pairs (T : Token → Token → Prop) (R : α → β → Prop) (r : Reading α) (r' : Reading β) : Prop :=
  ∀ c c', c.Pair T c' → ResultPair T R (r c) (r' c')

/-- Two rounds of a loop that both go on in the same state, or both finish. -/
inductive RoundPair (R : α → β → Prop) : Round γ α → Round γ β → Prop
  | again (next : γ) : RoundPair R (.again next) (.again next)
  | done {a : α} {b : β} (h : R a b) : RoundPair R (.done a) (.done b)

namespace Pairs

variable {R : α → β → Prop} {S : γ → δ → Prop} {r : Reading α} {r' : Reading β}
  {f : α → Reading γ} {f' : β → Reading δ}

theorem pure {a : α} {b : β} (h : R a b) : Pairs T R (Pure.pure a) (Pure.pure b) :=
  fun _ _ hc => .ok h hc

theorem bind (hr : Pairs T R r r') (hf : ∀ a b, R a b → Pairs T S (f a) (f' b)) :
    Pairs T S (r >>= f) (r' >>= f') := by
  intro c c' hc
  have hpair := hr c c' hc
  cases h : r c with
  | ok a d =>
    cases h' : r' c' with
    | ok b d' =>
      rw [h, h'] at hpair
      rw [bind_of_ok h, bind_of_ok h']
      cases hpair with
      | ok answer cursor => exact hf a b answer d d' cursor
    | error failure' d' =>
      rw [h, h'] at hpair
      cases hpair
  | error failure d =>
    cases h' : r' c' with
    | ok b d' =>
      rw [h, h'] at hpair
      cases hpair
    | error failure' d' =>
      rw [h, h'] at hpair
      rw [bind_of_error h, bind_of_error h']
      cases hpair with
      | error pair cursor => exact .error pair cursor

theorem map (g : α → γ) (h : Pairs T Eq r r) : Pairs T Eq (g <$> r) (g <$> r) := by
  refine h.bind fun a b hab => ?_
  rw [hab]
  exact pure rfl

theorem refuse {cause cause' : Cause} (h : cause.Pair T cause') :
    Pairs T R (Reading.refuse cause) (Reading.refuse cause') :=
  fun _ _ hc => .error (.syntaxError h) hc

theorem stalled : Pairs T R (throw .stalled) (throw .stalled) := fun _ _ hc => .error .stalled hc

/-- What readings do with the cursors themselves is shown for all cursors that show the same. -/
theorem get {f : Cursor → Reading γ} {f' : Cursor → Reading δ}
    (h : ∀ c c', c.Pair T c' → Pairs T S (f c) (f' c')) :
    Pairs T S (MonadState.get >>= f) (MonadState.get >>= f') :=
  fun c c' hc => h c c' hc c c' hc

theorem change {g g' : Cursor → Cursor} (h : ∀ c c', c.Pair T c' → (g c).Pair T (g' c')) :
    Pairs T Eq (modify g) (modify g') :=
  fun c c' hc => .ok rfl (h c c' hc)

theorem iterate {round round' : γ → Reading (Round γ α)} {R : α → α → Prop}
    (hround : ∀ b, Pairs T (RoundPair R) (round b) (round' b)) (n : Nat) (b : γ) :
    Pairs T R (iterate round n b) (iterate round' n b) := by
  induction n generalizing b with
  | zero => exact stalled
  | succ n ih =>
    refine (hround b).bind fun outcome outcome' houtcome => ?_
    cases houtcome with
    | again next => exact ih next
    | done h => exact pure h

theorem loop {round round' : γ → Reading (Round γ α)} {R : α → α → Prop}
    (hround : ∀ b, Pairs T (RoundPair R) (round b) (round' b)) (b : γ) :
    Pairs T R (Cursor.loop round b) (Cursor.loop round' b) := by
  refine get fun c c' hc => ?_
  rw [hc.position, hc.ahead]
  exact iterate hround _ b

/-! ## Operations on cursors -/

/-- Filling goes on in both buffers, or ends in both. -/
theorem fill {buffer buffer' : Array Token} {pending pending' : List Item}
    (hbuffer : List.Forall₂ Alike buffer.toList buffer'.toList)
    (hpending : List.Forall₂ (Item.Pair T) pending pending') (index : Nat) :
    List.Forall₂ Alike (Cursor.fill index buffer pending).1.toList
        (Cursor.fill index buffer' pending').1.toList ∧
      List.Forall₂ (Item.Pair T) (Cursor.fill index buffer pending).2.1
        (Cursor.fill index buffer' pending').2.1 ∧
      Option.Rel (Cause.Pair T) (Cursor.fill index buffer pending).2.2
        (Cursor.fill index buffer' pending').2.2 := by
  induction hpending generalizing buffer buffer' with
  | nil => exact ⟨hbuffer, .nil, .none⟩
  | cons hitem hrest ih =>
    -- both buffers are as long, so filling ends at the same item
    have hsize := hbuffer.length_eq
    rw [Array.length_toList, Array.length_toList] at hsize
    unfold Cursor.fill
    rw [← hsize]
    split
    case isTrue => exact ⟨hbuffer, .cons hitem hrest, .none⟩
    case isFalse =>
      cases hitem with
      | fault hcause => exact ⟨hbuffer, hrest, .some hcause⟩
      | token htoken =>
        apply ih
        rw [Array.toList_push, Array.toList_push]
        exact List.rel_append hbuffer (.cons htoken .nil)

theorem fetch (place : Int) :
    Pairs T (Option.Rel Alike) (Cursor.fetch place) (Cursor.fetch place) := by
  intro c c' hc
  cases place with
  | ofNat index =>
    obtain ⟨hbuffer, hpending, hfault⟩ := fill hc.buffer hc.pending index
    unfold Cursor.fetch
    dsimp only
    generalize Cursor.fill index c.buffer c.pending = filled at hbuffer hpending hfault ⊢
    generalize Cursor.fill index c'.buffer c'.pending = filled' at hbuffer hpending hfault ⊢
    obtain ⟨buffer, pending, fault⟩ := filled
    obtain ⟨buffer', pending', fault'⟩ := filled'
    have hcursor :
        Cursor.Pair T { c with buffer, pending }
          { c' with buffer := buffer', pending := pending' } :=
      ⟨hbuffer, hpending, hc.position, hc.peek⟩
    cases hfault with
    | some hcause => exact .error (.syntaxError hcause) hcursor
    | none =>
      refine .ok ?_ hcursor
      rw [← Array.getElem?_toList, ← Array.getElem?_toList]
      exact forall₂_getElem? hbuffer index
  | negSucc back =>
    have hsize := hc.buffer.length_eq
    rw [Array.length_toList, Array.length_toList] at hsize
    unfold Cursor.fetch
    dsimp only
    rw [← hsize]
    split
    · refine .ok ?_ hc
      rw [← Array.getElem?_toList, ← Array.getElem?_toList]
      exact forall₂_getElem? hc.buffer _
    · exact .error .outOfRange hc

theorem current : Pairs T (Option.Rel Alike) Cursor.current Cursor.current := by
  refine get fun c c' hc => ?_
  rw [hc.position]
  exact fetch _

/-- Two readings that go by the token at the position. -/
theorem current_bind {f : Option Token → Reading γ} {f' : Option Token → Reading δ}
    (hnone : Pairs T S (f none) (f' none))
    (hsome : ∀ t t', t.Alike t' → Pairs T S (f (some t)) (f' (some t'))) :
    Pairs T S (Cursor.current >>= f) (Cursor.current >>= f') := by
  refine current.bind fun found found' hfound => ?_
  cases hfound with
  | none => exact hnone
  | some h => exact hsome _ _ h

theorem isAt (kind : Kind) : Pairs T Eq (Cursor.isAt kind) (Cursor.isAt kind) := by
  refine current_bind (pure rfl) fun t t' h => pure ?_
  rw [Option.any_some, Option.any_some, h.kind]

/-- Two readings that go by whether the token at the position is of a kind. -/
theorem isAt_bind {kind : Kind} {f : Bool → Reading γ} {f' : Bool → Reading δ}
    (h : ∀ found, Pairs T S (f found) (f' found)) :
    Pairs T S (Cursor.isAt kind >>= f) (Cursor.isAt kind >>= f') := by
  refine (isAt kind).bind fun found found' hfound => ?_
  rw [hfound]
  exact h found'

theorem peekTo {place place' : Int} (h : place = place') :
    Pairs T Eq (Cursor.peekTo place) (Cursor.peekTo place') :=
  change fun _ _ hc => ⟨hc.buffer, hc.pending, hc.position, h⟩

theorem peekReset : Pairs T Eq Cursor.peekReset Cursor.peekReset :=
  get fun _ _ hc => peekTo hc.position

/-- A step to the next place, of the position or of the peek, is the same step for both. -/
theorem advance : Pairs T Eq (modify fun c : Cursor => { c with position := c.position + 1 })
    (modify fun c : Cursor => { c with position := c.position + 1 }) :=
  change fun _ _ hc => ⟨hc.buffer, hc.pending, congrArg (· + 1) hc.position, hc.peek⟩

theorem look : Pairs T Eq (modify fun c : Cursor => { c with peek := c.peek + 1 })
    (modify fun c : Cursor => { c with peek := c.peek + 1 }) :=
  change fun _ _ hc => ⟨hc.buffer, hc.pending, hc.position, congrArg (· + 1) hc.peek⟩

theorem follow : Pairs T Eq (modify fun c : Cursor => { c with peek := c.position })
    (modify fun c : Cursor => { c with peek := c.position }) :=
  change fun _ _ hc => ⟨hc.buffer, hc.pending, hc.position, hc.position⟩

theorem moveNext : Pairs T Eq Cursor.moveNext Cursor.moveNext := by
  refine current.bind fun found found' hfound => ?_
  have hsome : found.isSome = found'.isSome := by cases hfound <;> rfl
  have hrest : Pairs T Eq (do
      modify fun c => { c with peek := c.position }
      return (← Cursor.current).isSome) (do
      modify fun c => { c with peek := c.position }
      return (← Cursor.current).isSome) :=
    follow.bind fun _ _ _ => current_bind (pure rfl) fun _ _ _ => pure rfl
  rw [hsome]
  split
  · exact advance.bind fun _ _ _ => hrest
  · exact hrest

/-- Two readings that go on behind the token at the position. -/
theorem moveNext_bind {f : Bool → Reading γ} {f' : Bool → Reading δ}
    (h : ∀ more, Pairs T S (f more) (f' more)) :
    Pairs T S (Cursor.moveNext >>= f) (Cursor.moveNext >>= f') := by
  refine moveNext.bind fun more more' hmore => ?_
  rw [hmore]
  exact h more'

theorem peekNext : Pairs T (Option.Rel Alike) Cursor.peekNext Cursor.peekNext := by
  have hthere : Pairs T (Option.Rel Alike) (do Cursor.fetch (← MonadState.get).peek)
      (do Cursor.fetch (← MonadState.get).peek) := by
    refine get fun c c' hc => ?_
    rw [hc.peek]
    exact fetch _
  refine get fun c c' hc => ?_
  rw [hc.peek]
  refine (fetch c'.peek).bind fun found found' hfound => ?_
  have hsome : found.isSome = found'.isSome := by cases hfound <;> rfl
  rw [hsome]
  split
  · exact look.bind fun _ _ _ => hthere
  · exact hthere

theorem peekPast (test : Kind → Bool) :
    Pairs T (Option.Rel Alike) (Cursor.peekPast test) (Cursor.peekPast test) := by
  refine get fun c c' hc => ?_
  rw [hc.peek, hc.ahead]
  refine iterate (fun _ => peekNext.bind fun found found' hfound => ?_) _ ()
  cases hfound with
  | none => exact pure (.done .none)
  | @some t t' h =>
    refine pure ?_
    rw [h.kind]
    split
    · exact .again ()
    · exact .done (.some h)

theorem skipWhile (kind : Kind) : Pairs T Eq (Cursor.skipWhile kind) (Cursor.skipWhile kind) := by
  refine loop (fun _ => isAt_bind fun found => ?_) ()
  split
  · exact moveNext_bind fun _ => pure (.again ())
  · exact pure (.done rfl)

end Pairs

end Reading

end DocComment
