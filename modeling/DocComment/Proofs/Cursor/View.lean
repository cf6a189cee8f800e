import DocComment.Cursor.Basic

/-!
# What a cursor shows

The view of a cursor is its buffer followed by the items to come. Filling the buffer moves the
border between the two and leaves the view as it is, until a fault is met; the fault is then gone
from the view. Everything that reads from a cursor does so by `fetch`, and `fetch_cases` is all that
later proofs know of it.
-/

namespace DocComment

namespace Reading

variable {α β : Type} {r : Reading α} {f : α → Reading β} {c d : Cursor}

theorem bind_of_ok {a : α} (h : r c = .ok a d) : (r >>= f) c = f a d := by
  show EStateM.bind r f c = _
  rw [EStateM.bind, h]

theorem bind_of_error {failure : Failure} (h : r c = .error failure d) :
    (r >>= f) c = .error failure d := by
  show EStateM.bind r f c = _
  rw [EStateM.bind, h]

end Reading

namespace Cursor

open Screening (Item)

/-- The items of a cursor, buffered or to come. -/
def view (c : Cursor) : List Item := c.buffer.toList.map .token ++ c.pending

/-- The view is what is buffered, as far as the buffer goes and where nothing is to come. -/
theorem view_getElem? {index : Nat} {c : Cursor} (h : index < c.buffer.size ∨ c.pending = []) :
    c.view[index]? = c.buffer[index]?.map .token := by
  rw [← Array.getElem?_toList, ← List.getElem?_map, view]
  rcases h with hlt | hpending
  · exact List.getElem?_append_left (by simpa using hlt)
  · rw [hpending, List.append_nil]

/-- Two cursors over one text that stand at the same places. -/
structure Still (c d : Cursor) : Prop where
  source : d.source = c.source
  position : d.position = c.position
  peek : d.peek = c.peek

theorem fill_cases {index : Nat} {buffer filled : Array Token} {pending left : List Item}
    {fault : Option Cause} (h : fill index buffer pending = (filled, left, fault)) :
    ∃ read : List Token, filled.toList = buffer.toList ++ read ∧
      ((fault = none ∧ pending = read.map .token ++ left ∧ (index < filled.size ∨ left = [])) ∨
        ∃ cause, fault = some cause ∧ pending = read.map .token ++ .fault cause :: left ∧
          filled.size ≤ index) := by
  induction pending generalizing buffer with
  | nil =>
    simp only [fill, Prod.mk.injEq] at h
    obtain ⟨rfl, rfl, rfl⟩ := h
    exact ⟨[], by simp, .inl ⟨rfl, rfl, .inr rfl⟩⟩
  | cons item pending ih =>
    unfold fill at h
    split at h
    case isTrue hindex =>
      simp only [Prod.mk.injEq] at h
      obtain ⟨rfl, rfl, rfl⟩ := h
      exact ⟨[], by simp, .inl ⟨rfl, rfl, .inl hindex⟩⟩
    case isFalse hindex =>
      cases item with
      | token t =>
        obtain ⟨read, hfilled, hcases⟩ := ih h
        refine ⟨t :: read, by simpa using hfilled, ?_⟩
        rcases hcases with ⟨rfl, rfl, hend⟩ | ⟨cause, rfl, rfl, hsize⟩
        · exact .inl ⟨rfl, rfl, hend⟩
        · exact .inr ⟨cause, rfl, rfl, hsize⟩
      | fault cause =>
        simp only [Prod.mk.injEq] at h
        obtain ⟨rfl, rfl, rfl⟩ := h
        exact ⟨[], by simp, .inr ⟨cause, rfl, rfl, by omega⟩⟩

/-- A fetch keeps the view and finds what stands there, or it meets the first fault of the view and
takes it away. -/
theorem fetch_cases (index : Nat) (c : Cursor) :
    (∃ d, fetch index c = .ok d.buffer[index]? d ∧ Still c d ∧ d.view = c.view ∧
      (index < d.buffer.size ∨ d.pending = [])) ∨
    ∃ (d : Cursor) (cause : Cause) (passed : List Token) (behind : List Item),
      fetch index c = .error (.syntaxError ⟨cause, c.source⟩) d ∧ Still c d ∧
      c.view = passed.map .token ++ .fault cause :: behind ∧
      d.view = passed.map .token ++ behind ∧ passed.length ≤ index := by
  obtain ⟨⟨filled, left, fault⟩, hfill⟩ : ∃ result, fill index c.buffer c.pending = result :=
    ⟨_, rfl⟩
  obtain ⟨read, hfilled, ⟨rfl, hpending, hend⟩ | ⟨cause, rfl, hpending, hsize⟩⟩ := fill_cases hfill
  · have hfetch : fetch (.ofNat index) c =
        .ok filled[index]? { c with buffer := filled, pending := left } := by
      simp only [fetch, hfill]
    refine .inl ⟨{ c with buffer := filled, pending := left }, hfetch, ⟨rfl, rfl, rfl⟩, ?_, hend⟩
    simp [view, hfilled, hpending]
  · have hfetch : fetch (.ofNat index) c =
        .error (.syntaxError ⟨cause, c.source⟩) { c with buffer := filled, pending := left } := by
      simp only [fetch, hfill, Reading.refuse]
    refine .inr ⟨{ c with buffer := filled, pending := left }, cause, filled.toList, left, hfetch,
      ⟨rfl, rfl, rfl⟩, ?_, rfl, by simpa using hsize⟩
    simp [view, hfilled, hpending]

/-- A buffered token is found without filling. -/
theorem fetch_of_buffered {index : Nat} {c : Cursor} {t : Token} (h : c.buffer[index]? = some t) :
    fetch index c = .ok (some t) c := by
  obtain ⟨hlt, -⟩ := Array.getElem?_eq_some_iff.mp h
  have hfill : fill index c.buffer c.pending = (c.buffer, c.pending, none) := by
    unfold fill
    split
    case h_1 hpending => rw [hpending]
    case h_2 hpending => rw [if_pos hlt, hpending]
  show fetch (.ofNat index) c = _
  simp only [fetch, hfill, h]

/-- A place that counts from the end fills nothing. -/
theorem fetch_negSucc (back : Nat) (c : Cursor) :
    (∃ found, fetch (.negSucc back) c = .ok found c) ∨
      fetch (.negSucc back) c = .error .outOfRange c := by
  by_cases h : back < c.buffer.size
  · exact .inl ⟨_, if_pos h⟩
  · exact .inr (if_neg h)

/-- What looking ahead fetches, from the place of the peek on. -/
theorem peekNext_of_peek {index : Nat} {c : Cursor} (h : c.peek = index) :
    peekNext c = (fetch index >>= fun found => do
      if found.isSome then modify fun d => { d with peek := d.peek + 1 }
      fetch (← get).peek) c := by
  rw [← h]
  rfl

section Tokens

variable {tokens : List Token} {c d : Cursor}

theorem buffer_prefix_of_view (h : c.view = tokens.map .token) : c.buffer.toList <+: tokens := by
  have hprefix : c.buffer.toList.map Item.token <+: tokens.map .token := ⟨c.pending, h⟩
  obtain ⟨rest, hrest⟩ := hprefix
  obtain ⟨front, back, rfl, hfront, -⟩ := List.append_eq_map_iff.mp hrest
  rw [List.map_inj_right fun _ _ h => Item.token.inj h] at hfront
  exact ⟨back, by rw [hfront]⟩

/-- Over tokens alone a fetch finds the token of its index, however much is buffered. -/
theorem fetch_of_view (h : c.view = tokens.map .token) (index : Nat) :
    ∃ d, fetch index c = .ok tokens[index]? d ∧ Still c d ∧ d.view = tokens.map .token ∧
      (index < d.buffer.size ∨ d.buffer.toList = tokens) := by
  rcases fetch_cases index c with ⟨d, hfetch, hstill, hview, hend⟩ |
    ⟨d, cause, passed, behind, -, -, hview, -⟩
  · have hview := hview.trans h
    have hfound : d.buffer[index]? = tokens[index]? := by
      have hshown := view_getElem? hend
      rw [hview, List.getElem?_map] at hshown
      exact (Option.map_injective (fun _ _ h => Item.token.inj h) hshown).symm
    refine ⟨d, hfound ▸ hfetch, hstill, hview, hend.imp_right fun hpending => ?_⟩
    rw [view, hpending, List.append_nil] at hview
    exact (List.map_inj_right fun _ _ h => Item.token.inj h).mp hview
  · have hmem : Item.fault cause ∈ tokens.map Item.token := by
      rw [← h, hview]
      simp
    simp at hmem

end Tokens

end Cursor

end DocComment
