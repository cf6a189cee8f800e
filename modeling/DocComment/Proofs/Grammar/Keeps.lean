import DocComment.Proofs.Cursor.Keeps
import DocComment.Proofs.Grammar.Walk

/-!
# Invariants of the rules

Whatever survives fetching, looking ahead, moving on and failing survives every rule of the grammar
that tries nothing. A rule that is tried may be refused without the whole being refused. Its fetches
are not undone then, so an invariant must also survive the way back: `Retreats` says this of one
rule.
-/

namespace DocComment

namespace Grammar

open Reading (Keeps)

variable {α : Type} {I : Cursor → Prop} {E : Failure → Cursor → Prop}

/-- Where the reading is refused, going back restores the invariant. -/
def Retreats (I : Cursor → Prop) (r : Reading α) : Prop :=
  ∀ c e d, I c → r c = .error (.syntaxError e) d →
    I { d with position := c.position, peek := c.position }

theorem keeps_tryElse {first second : Reading α} (hfirst : Keeps I E first)
    (hback : Retreats I first) (hsecond : Keeps I E second) :
    Keeps I E (tryElse first second) := by
  intro c hc
  have hrc := hfirst c hc
  cases hr : first c with
  | ok a d =>
    rw [hr] at hrc
    rw [tryElse_of_ok hr]
    exact hrc
  | error failure d =>
    rw [hr] at hrc
    cases failure with
    | syntaxError e =>
      rw [tryElse_of_refused hr]
      exact hsecond _ (hback c e d hc hr)
    | outOfRange =>
      rw [tryElse, hr]
      exact hrc
    | stalled =>
      rw [tryElse, hr]
      exact hrc

end Grammar

open Grammar (Retreats Walk)
open Reading (Keeps)

/-- A rule keeps what the rules that it tries restore. -/
def Reading.Steady.walk {I : Cursor → Prop} {E : Failure → Cursor → Prop} (h : Steady I E) :
    Walk (Retreats I) (Keeps I E) where
  pure := .pure
  refuse := h.refuse
  stalled := h.fail .stalled
  current := h.current
  moveNext := h.moveNext
  peekReset := h.peekReset
  peekPast := h.peekPast
  get := .get
  bind := .bind
  tryElse hback hfirst hsecond := Grammar.keeps_tryElse hfirst hback hsecond
  iterate := .iterate (h.fail .stalled)

/-- Each rule that a tag tries keeps what survives it. -/
theorem Grammar.keeps_speculations {I : Cursor → Prop} {E : Failure → Cursor → Prop}
    (h : Reading.Steady I E) (name : TagName) : ∀ rule ∈ speculations name, Keeps I E rule := by
  have htype : ∀ rule ∈ [leadingType], Keeps I E rule := by simpa using h.walk.leadingType
  cases name with
  | deprecated => simpa [speculations] using h.walk.version
  | method => simpa [speculations] using ⟨h.walk.leadingType, h.walk.typeName false⟩
  | param | property | propertyRead | propertyWrite | var => exact htype
  | see => simpa [speculations] using h.walk.link
  | uses | usedBy => simpa [speculations] using ⟨h.walk.link, h.walk.element⟩
  | _ => simp [speculations]

end DocComment
