import DocComment.Grammar.Basic
import DocComment.Proofs.Cursor.CommentEnd

/-!
# Two readings of comments that end differently

`Lockstep P Q r r'` says of two readings that from cursors under `P` they answer under `Q`, or are
refused for causes of one class. As long as the cursors stand in front of shared items, a reading
does the same with both. Beyond the shared items it is known of each of the readings alone what it
does; `of_reads`, which stands with the operations on cursors, puts this together.

Nothing is said where a loop runs out of rounds: the endings may be of different lengths, and so
there may be rounds enough for one of the readings only. That this does not happen is known of each
reading by itself.
-/

namespace DocComment

open Screening (Item Sheds)

/-- Two causes of one class. -/
inductive Cause.SameClass : Cause → Cause → Prop
  | unexpectedToken (t t' : Token) : SameClass (.unexpectedToken t) (.unexpectedToken t')
  | unexpectedEnd : SameClass .unexpectedEnd .unexpectedEnd
  | malformed (form : Form) (text text' : Text) (offset offset' : Nat) :
      SameClass (.malformed form text offset) (.malformed form text' offset')

theorem Cause.SameClass.refl (cause : Cause) : cause.SameClass cause := by
  cases cause with
  | unexpectedToken t => exact .unexpectedToken t t
  | unexpectedEnd => exact .unexpectedEnd
  | malformed form text offset => exact .malformed form text text offset offset

namespace Reading

open Cursor (Forked Restores)

variable {α β γ δ : Type} {e e' : CommentEnd}

/-- Two readings ended with answers and cursors under a condition, or they were refused for causes
of one class, or there were too few rounds for one of them. -/
inductive Ended (e e' : CommentEnd) (items : List Item)
    (Q : α → β → List Item → Cursor → Cursor → Prop) :
    EStateM.Result Failure Cursor α → EStateM.Result Failure Cursor β → Prop
  | answered {left : List Item} {a : α} {b : β} {d d' : Cursor} (sheds : Sheds items left)
      (answer : Q a b left d d') : Ended e e' items Q (.ok a d) (.ok b d')
  | refused {left : List Item} {x x' : SyntaxError} {d d' : Cursor} (sheds : Sheds items left)
      (forked : Forked e e' left d d') (same : x.cause.SameClass x'.cause) :
      Ended e e' items Q (.error (.syntaxError x) d) (.error (.syntaxError x') d')
  | stalled {d : Cursor} {result : EStateM.Result Failure Cursor β} :
      Ended e e' items Q (.error .stalled d) result
  | stalled' {d : Cursor} {result : EStateM.Result Failure Cursor α} :
      Ended e e' items Q result (.error .stalled d)

/-- From cursors under `P` the two readings end alike, with answers and cursors under `Q`. -/
def Lockstep (e e' : CommentEnd) (P : List Item → Cursor → Cursor → Prop)
    (Q : α → β → List Item → Cursor → Cursor → Prop) (r : Reading α) (r' : Reading β) : Prop :=
  ∀ items c c', P items c c' → Ended e e' items Q (r c) (r' c')

/-- Two answers that are the same, and cursors under a condition. -/
def Agree (P : List Item → Cursor → Cursor → Prop) (a b : α) (items : List Item)
    (c c' : Cursor) : Prop :=
  a = b ∧ P items c c'

/-- Two rounds of a loop that both go on in the same state, or both finish. -/
def RoundStep (P : List Item → Cursor → Cursor → Prop)
    (Q : α → β → List Item → Cursor → Cursor → Prop) :
    Round γ α → Round γ β → List Item → Cursor → Cursor → Prop
  | .again next, .again next', items, c, c' => next = next' ∧ P items c c'
  | .done a, .done b, items, c, c' => Q a b items c c'
  | _, _, _, _, _ => False

theorem Ended.sheds {items left : List Item} {Q : α → β → List Item → Cursor → Cursor → Prop}
    {result : EStateM.Result Failure Cursor α} {result' : EStateM.Result Failure Cursor β}
    (h : Sheds items left) (hresult : Ended e e' left Q result result') :
    Ended e e' items Q result result' := by
  cases hresult with
  | answered sheds answer => exact .answered (h.trans sheds) answer
  | refused sheds forked same => exact .refused (h.trans sheds) forked same
  | stalled => exact .stalled
  | stalled' => exact .stalled'

/-- Two readings with more behind them: they end here, or both answer and go on. -/
theorem Ended.bind_cases {items : List Item} {c c' : Cursor}
    {Q : α → β → List Item → Cursor → Cursor → Prop}
    {r : Reading α} {r' : Reading β} {f : α → Reading γ} {f' : β → Reading δ}
    (h : Ended e e' items Q (r c) (r' c')) :
    (∀ S, Ended e e' items S ((r >>= f) c) ((r' >>= f') c')) ∨
      ∃ a b left d d', Sheds items left ∧ Q a b left d d' ∧ (r >>= f) c = f a d ∧
      (r' >>= f') c' = f' b d' := by
  generalize hresult : r c = result at h
  generalize hresult' : r' c' = result' at h
  cases h with
  | answered sheds answer =>
    exact .inr ⟨_, _, _, _, _, sheds, answer, bind_of_ok hresult, bind_of_ok hresult'⟩
  | refused sheds forked same =>
    left
    intro S
    rw [bind_of_error hresult, bind_of_error hresult']
    exact .refused sheds forked same
  | stalled =>
    left
    intro S
    rw [bind_of_error hresult]
    exact .stalled
  | stalled' =>
    left
    intro S
    rw [bind_of_error hresult']
    exact .stalled'

namespace Lockstep

variable {P P' : List Item → Cursor → Cursor → Prop}
  {Q Q' : α → β → List Item → Cursor → Cursor → Prop}
  {S : γ → δ → List Item → Cursor → Cursor → Prop} {r : Reading α} {r' : Reading β}
  {f : α → Reading γ} {f' : β → Reading δ}

theorem weaken (h : Lockstep e e' P Q r r') (hP : ∀ items c c', P' items c c' → P items c c') :
    Lockstep e e' P' Q r r' :=
  fun items c c' hc => h items c c' (hP items c c' hc)

theorem imp (h : Lockstep e e' P Q r r')
    (hQ : ∀ a b items c c', Q a b items c c' → Q' a b items c c') :
    Lockstep e e' P Q' r r' := by
  intro items c c' hc
  have hended := h items c c' hc
  generalize r c = result at hended
  generalize r' c' = result' at hended
  cases hended with
  | answered sheds answer => exact .answered sheds (hQ _ _ _ _ _ answer)
  | refused sheds forked same => exact .refused sheds forked same
  | stalled => exact .stalled
  | stalled' => exact .stalled'

/-- What is known of the answers so far holds wherever the cursors are. -/
theorem assume {A : Prop} (h : A → Lockstep e e' P Q r r') :
    Lockstep e e' (fun items c c' => A ∧ P items c c') Q r r' :=
  fun items c c' hc => h hc.1 items c c' hc.2

theorem either (h : Lockstep e e' P Q r r') (h' : Lockstep e e' P' Q r r') :
    Lockstep e e' (fun items c c' => P items c c' ∨ P' items c c') Q r r' :=
  fun items c c' hc => hc.elim (h items c c') (h' items c c')

theorem choose {ι : Type} {F : ι → List Item → Cursor → Cursor → Prop}
    (h : ∀ i, Lockstep e e' (F i) Q r r') :
    Lockstep e e' (fun items c c' => ∃ i, F i items c c') Q r r' :=
  fun items c c' ⟨i, hc⟩ => h i items c c' hc

theorem pure {a : α} {b : β} (h : ∀ items c c', P items c c' → Q a b items c c') :
    Lockstep e e' P Q (Pure.pure a) (Pure.pure b) :=
  fun items c c' hc => .answered (.refl items) (h items c c' hc)

theorem bind (hr : Lockstep e e' P Q r r') (hf : ∀ a b, Lockstep e e' (Q a b) S (f a) (f' b)) :
    Lockstep e e' P S (r >>= f) (r' >>= f') := by
  intro items c c' hc
  rcases (hr items c c' hc).bind_cases with h | ⟨a, b, left, d, d', sheds, answer, heq, heq'⟩
  · exact h S
  · rw [heq, heq']
    exact .sheds sheds (hf a b left d d' answer)

/-- Two readings that agree in what they answer, whatever else they end in. -/
theorem bind_eq {R : List Item → Cursor → Cursor → Prop} {r r' : Reading α} {f : α → Reading γ}
    {f' : α → Reading δ} (hr : Lockstep e e' P (Agree R) r r')
    (hf : ∀ a, Lockstep e e' R S (f a) (f' a)) : Lockstep e e' P S (r >>= f) (r' >>= f') := by
  refine hr.bind fun a b items c c' h => ?_
  obtain ⟨rfl, hR⟩ := h
  exact hf a items c c' hR

theorem map {R : List Item → Cursor → Cursor → Prop} {r r' : Reading α} (g : α → γ)
    (hr : Lockstep e e' P (Agree R) r r') : Lockstep e e' P (Agree R) (g <$> r) (g <$> r') :=
  hr.bind_eq fun _ => .pure fun _ _ _ h => ⟨rfl, h⟩

theorem refuse {cause cause' : Cause} (hP : ∀ items c c', P items c c' → Forked e e' items c c')
    (h : cause.SameClass cause') :
    Lockstep e e' P Q (Reading.refuse cause) (Reading.refuse cause') :=
  fun items c c' hc => .refused (.refl items) (hP items c c' hc) h

theorem stalled {r' : Reading β} : Lockstep e e' P Q (throw .stalled) r' := fun _ _ _ _ => .stalled

theorem stalled' {r : Reading α} : Lockstep e e' P Q r (throw .stalled) := fun _ _ _ _ => .stalled'

/-- What readings do with the cursors themselves is shown for all cursors under the condition. -/
theorem get {f : Cursor → Reading γ} {f' : Cursor → Reading δ}
    (h : ∀ items c c', P items c c' → Lockstep e e' P S (f c) (f' c')) :
    Lockstep e e' P S (MonadState.get >>= f) (MonadState.get >>= f') :=
  fun items c c' hc => h items c c' hc items c c' hc

/-- A rule that is tried and refused is refused in both readings, and both go back to where it was
tried. -/
theorem tryElse {first second : Reading α} {first' second' : Reading β} (hP : Restores e e' P)
    (hfirst : Lockstep e e' P Q first first') (hsecond : Lockstep e e' P Q second second') :
    Lockstep e e' P Q (Grammar.tryElse first second) (Grammar.tryElse first' second') := by
  intro items c c' hc
  have hended := hfirst items c c' hc
  unfold Grammar.tryElse
  generalize first c = result at hended ⊢
  generalize first' c' = result' at hended ⊢
  cases hended with
  | answered sheds answer => exact .answered sheds answer
  | refused sheds forked same => exact .sheds sheds (hsecond _ _ _ (hP hc sheds forked))
  | stalled => exact .stalled
  | stalled' => exact .stalled'

/-- Two loops go on in step while their cursors are under `F`, and from `E` it is known how they
end. -/
theorem iterate_until {F E : List Item → Cursor → Cursor → Prop} {round : γ → Reading (Round γ α)}
    {round' : γ → Reading (Round γ β)}
    (hP : ∀ items c c', P items c c' → F items c c' ∨ E items c c')
    (hround : ∀ b, Lockstep e e' F (RoundStep P Q) (round b) (round' b))
    (hend : ∀ n n' b, Lockstep e e' E Q (iterate round n b) (iterate round' n' b))
    (n n' : Nat) (b : γ) :
    Lockstep e e' P Q (iterate round n b) (iterate round' n' b) := by
  induction n generalizing n' b with
  | zero => exact stalled
  | succ n ih =>
    cases n' with
    | zero => exact stalled'
    | succ n' =>
      refine weaken
        (either ((hround b).bind fun outcome outcome' => ?_) (hend (n + 1) (n' + 1) b)) hP
      cases outcome with
      | again next =>
        cases outcome' with
        | again next' =>
          refine assume fun hnext => ?_
          subst hnext
          exact ih n' next
        | done => exact fun _ _ _ => False.elim
      | done a =>
        cases outcome' with
        | again => exact fun _ _ _ => False.elim
        | done b => exact pure fun _ _ _ h => h

theorem loop {round : γ → Reading (Round γ α)} {round' : γ → Reading (Round γ β)}
    (hround : ∀ b, Lockstep e e' P (RoundStep P Q) (round b) (round' b)) (b : γ) :
    Lockstep e e' P Q (Cursor.loop round b) (Cursor.loop round' b) :=
  get fun _ _ _ _ =>
    iterate_until (fun _ _ _ h => .inl h) hround (fun _ _ _ _ _ _ => False.elim) _ _ b

end Lockstep

end Reading

end DocComment
