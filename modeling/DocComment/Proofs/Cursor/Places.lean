import DocComment.Proofs.Cursor.View

/-!
# Two places in a list of tokens

A cursor over tokens alone is no more than two places in the list of them. `Stands` ties a cursor to
its places, and `Reading.Gives` says what a reading answers and where it ends, whatever cursor
stands at the places it starts from. The operations of cursors are moves of places; how much is
buffered does not occur in their statements.
-/

namespace DocComment

/-- The places of a cursor: the position and the peek. -/
structure Places where
  position : Nat
  peek : Nat
deriving DecidableEq, Repr

namespace Places

/-- The place behind a token, or the same place where there is none. -/
def next (tokens : List Token) (place : Nat) : Nat :=
  if place < tokens.length then place + 1 else place

/-- The number of tokens from a place on whose kinds pass a test. -/
def passing (tokens : List Token) (test : Kind → Bool) (place : Nat) : Nat :=
  ((tokens.drop place).takeWhile (test ·.kind)).length

/-- The position moves on, and takes the peek with it. -/
def advance (tokens : List Token) (p : Places) : Places :=
  ⟨next tokens p.position, next tokens p.position⟩

/-- The position moves past the tokens that pass a test. Where there is none, the peek stays too. -/
def skip (tokens : List Token) (test : Kind → Bool) (p : Places) : Places :=
  match passing tokens test p.position with
  | 0 => p
  | n + 1 => ⟨p.position + (n + 1), p.position + (n + 1)⟩

/-- The peek moves on once, and then past the tokens that pass a test. -/
def lookPast (tokens : List Token) (test : Kind → Bool) (p : Places) : Places :=
  let first := next tokens p.peek
  { p with peek := first + passing tokens test first }

variable {tokens : List Token} {test : Kind → Bool} {place : Nat}

theorem passing_of_pass {t : Token} (h : tokens[place]? = some t) (ht : test t.kind = true) :
    passing tokens test place = passing tokens test (place + 1) + 1 := by
  obtain ⟨hlt, rfl⟩ := List.getElem?_eq_some_iff.mp h
  rw [passing, passing, List.drop_eq_getElem_cons hlt,
    List.takeWhile_cons_of_pos (p := fun t : Token => test t.kind) ht, List.length_cons]

theorem passing_of_stop (h : ∀ t, tokens[place]? = some t → test t.kind = false) :
    passing tokens test place = 0 := by
  rw [passing]
  by_cases hlt : place < tokens.length
  · have hstop := h _ (List.getElem?_eq_getElem hlt)
    rw [List.drop_eq_getElem_cons hlt, List.takeWhile_cons_of_neg (by simp [hstop]),
      List.length_nil]
  · rw [List.drop_eq_nil_of_le (by omega), List.takeWhile_nil, List.length_nil]

theorem skip_of_pass {p : Places} {t : Token} (h : tokens[p.position]? = some t)
    (ht : test t.kind = true) : skip tokens test p = skip tokens test (advance tokens p) := by
  obtain ⟨hlt, -⟩ := List.getElem?_eq_some_iff.mp h
  rw [skip, passing_of_pass h ht]
  simp only [skip, advance, next, if_pos hlt]
  split
  case h_1 hzero => rw [hzero]
  case h_2 n hpassing =>
    rw [hpassing]
    congr 1 <;> omega

theorem skip_of_stop {p : Places} (h : ∀ t, tokens[p.position]? = some t → test t.kind = false) :
    skip tokens test p = p := by
  rw [skip, passing_of_stop h]

theorem lookPast_of_pass {p : Places} {t : Token} (h : tokens[next tokens p.peek]? = some t)
    (ht : test t.kind = true) :
    lookPast tokens test p = lookPast tokens test { p with peek := next tokens p.peek } := by
  obtain ⟨hlt, -⟩ := List.getElem?_eq_some_iff.mp h
  have hnext : next tokens (next tokens p.peek) = next tokens p.peek + 1 := if_pos hlt
  simp only [lookPast, hnext, passing_of_pass h ht]
  congr 1
  omega

theorem lookPast_of_stop {p : Places}
    (h : ∀ t, tokens[next tokens p.peek]? = some t → test t.kind = false) :
    lookPast tokens test p = { p with peek := next tokens p.peek } := by
  simp only [lookPast, passing_of_stop h, Nat.add_zero]

end Places

/-- A cursor over tokens alone stands at two places of them. -/
structure Stands (tokens : List Token) (p : Places) (c : Cursor) : Prop where
  view : c.view = tokens.map .token
  position : c.position = p.position
  peek : c.peek = p.peek

theorem Stands.ahead {tokens : List Token} {p : Places} {c : Cursor} (h : Stands tokens p c)
    (place : Nat) : c.ahead place = tokens.length - place := by
  have hlength := congrArg List.length h.view
  simp only [Cursor.view, List.length_append, List.length_map, Array.length_toList] at hlength
  rw [Cursor.ahead, hlength]
  omega

namespace Reading

variable {α β : Type} {tokens : List Token} {p q w : Places} {a : α} {b : β}

/-- From every cursor at the places `p` the reading answers `a`, and the cursor ends at `q`. -/
def Gives (r : Reading α) (tokens : List Token) (p : Places) (a : α) (q : Places) : Prop :=
  ∀ c, Stands tokens p c → ∃ d, r c = .ok a d ∧ Stands tokens q d

theorem Gives.pure (a : α) : Gives (Pure.pure a) tokens p a p := fun c h => ⟨c, rfl, h⟩

theorem Gives.bind {r : Reading α} {f : α → Reading β} (hr : Gives r tokens p a q)
    (hf : Gives (f a) tokens q b w) : Gives (r >>= f) tokens p b w := by
  intro c hc
  obtain ⟨d, hrd, hd⟩ := hr c hc
  obtain ⟨e, hfe, he⟩ := hf d hd
  exact ⟨e, (bind_of_ok hrd).trans hfe, he⟩

theorem Gives.map {r : Reading α} (f : α → β) (hr : Gives r tokens p a q) :
    Gives (f <$> r) tokens p (f a) q := by
  intro c hc
  obtain ⟨d, hrd, hd⟩ := hr c hc
  refine ⟨d, ?_, hd⟩
  show EStateM.map f r c = _
  rw [EStateM.map, hrd]

/-- What a reading does with the cursor itself may depend on its places only. -/
theorem Gives.get {f : Cursor → Reading α} (h : ∀ c, Stands tokens p c → Gives (f c) tokens p a q) :
    Gives (MonadState.get >>= f) tokens p a q :=
  fun c hc => h c hc c hc

theorem Gives.modify {f : Cursor → Cursor} (h : ∀ c, Stands tokens p c → Stands tokens q (f c)) :
    Gives (modify f) tokens p () q :=
  fun c hc => ⟨f c, rfl, h c hc⟩

theorem Gives.iterate_again {round : β → Reading (Round β α)} {next : β} {n : Nat}
    (h : Gives (round b) tokens p (.again next) q)
    (hrest : Gives (iterate round n next) tokens q a w) :
    Gives (iterate round (n + 1) b) tokens p a w :=
  h.bind hrest

theorem Gives.iterate_done {round : β → Reading (Round β α)} {n : Nat}
    (h : Gives (round b) tokens p (.done a) q) : Gives (iterate round (n + 1) b) tokens p a q :=
  h.bind (.pure a)

end Reading

namespace Cursor

open Reading (Gives)

variable {tokens : List Token} {p q : Places}

theorem gives_fetch {place : Int} {index : Nat} (h : place = index) :
    Gives (fetch place) tokens p tokens[index]? p := by
  intro c hc
  obtain ⟨d, hfetch, hstill, hview, -⟩ := fetch_of_view hc.view index
  refine ⟨d, h ▸ hfetch, hview, ?_, ?_⟩
  · rw [hstill.position, hc.position]
  · rw [hstill.peek, hc.peek]

theorem gives_current : Gives current tokens p tokens[p.position]? p :=
  .get fun _ hc => gives_fetch hc.position

theorem gives_currentIs (test : Kind → Bool) :
    Gives (currentIs test) tokens p (tokens[p.position]?.any (test ·.kind)) p :=
  gives_current.bind (.pure _)

theorem gives_isAt (kind : Kind) :
    Gives (isAt kind) tokens p (tokens[p.position]?.any (·.kind = kind)) p :=
  gives_currentIs _

theorem gives_moveNext :
    Gives moveNext tokens p tokens[(p.advance tokens).position]?.isSome (p.advance tokens) := by
  apply gives_current.bind
  have hpeek : ∀ place, Gives (modify fun c => { c with peek := c.position }) tokens
      ⟨place, p.peek⟩ () ⟨place, place⟩ :=
    fun place => .modify fun c hc => ⟨hc.view, hc.position, hc.position⟩
  by_cases hlt : p.position < tokens.length
  · have hnext : Places.next tokens p.position = p.position + 1 := if_pos hlt
    rw [List.getElem?_eq_getElem hlt, Places.advance, hnext]
    refine Gives.bind (q := ⟨p.position + 1, p.peek⟩)
      (.modify fun c hc => ⟨hc.view, ?_, hc.peek⟩) ?_
    · show c.position + 1 = _
      rw [hc.position]
      rfl
    · exact (hpeek _).bind (gives_current.bind (.pure _))
  · have hnext : Places.next tokens p.position = p.position := if_neg hlt
    rw [List.getElem?_eq_none (by omega), Places.advance, hnext]
    exact (hpeek _).bind (gives_current.bind (.pure _))

theorem gives_moveTo (place : Nat) : Gives (moveTo place) tokens p () ⟨place, place⟩ :=
  .modify fun _ hc => ⟨hc.view, rfl, rfl⟩

theorem gives_peekTo (place : Nat) : Gives (peekTo place) tokens p () { p with peek := place } :=
  .modify fun _ hc => ⟨hc.view, hc.position, rfl⟩

theorem gives_peekReset : Gives peekReset tokens p () { p with peek := p.position } := by
  refine .get fun c hc => ?_
  rw [hc.position]
  exact gives_peekTo p.position

theorem gives_peekNext :
    Gives peekNext tokens p tokens[Places.next tokens p.peek]?
      { p with peek := Places.next tokens p.peek } := by
  refine .get fun c hc => (gives_fetch hc.peek).bind ?_
  by_cases hlt : p.peek < tokens.length
  · rw [List.getElem?_eq_getElem hlt, Places.next, if_pos hlt]
    refine Gives.bind (q := { p with peek := p.peek + 1 })
      (.modify fun c hc => ⟨hc.view, hc.position, ?_⟩) (.get fun c hc => gives_fetch hc.peek)
    show c.peek + 1 = _
    rw [hc.peek]
    rfl
  · rw [List.getElem?_eq_none (by omega), Places.next, if_neg hlt]
    exact .get fun c hc => gives_fetch hc.peek

/-- A loop has a round for each token ahead, and one more. -/
theorem gives_loop {α β : Type} {round : β → Reading (Round β α)} {b : β} {a : α}
    (h : Gives (Reading.iterate round (tokens.length - p.position + 1) b) tokens p a q) :
    Gives (loop round b) tokens p a q := by
  refine .get fun c hc => ?_
  rw [hc.position, hc.ahead]
  exact h

/-- A loop whose rounds pass the tokens of a test, and stop at another or at the end. -/
theorem gives_iterate_skip {round : Unit → Reading (Round Unit Unit)} {test : Kind → Bool}
    (hpass : ∀ p t, tokens[p.position]? = some t → test t.kind = true →
      Gives (round ()) tokens p (.again ()) (p.advance tokens))
    (hstop : ∀ p, (∀ t, tokens[p.position]? = some t → test t.kind = false) →
      Gives (round ()) tokens p (.done ()) p)
    (n : Nat) (p : Places) (hn : tokens.length - p.position ≤ n) :
    Gives (Reading.iterate round (n + 1) ()) tokens p () (p.skip tokens test) := by
  induction n generalizing p with
  | zero =>
    have hend : ∀ t, tokens[p.position]? = some t → test t.kind = false := by
      intro t ht
      obtain ⟨hlt, -⟩ := List.getElem?_eq_some_iff.mp ht
      omega
    rw [Places.skip_of_stop hend]
    exact .iterate_done (hstop p hend)
  | succ n ih =>
    by_cases h : ∃ t, tokens[p.position]? = some t ∧ test t.kind = true
    · obtain ⟨t, ht, htest⟩ := h
      obtain ⟨hlt, -⟩ := List.getElem?_eq_some_iff.mp ht
      rw [Places.skip_of_pass ht htest]
      refine .iterate_again (hpass p t ht htest) (ih _ ?_)
      simp only [Places.advance, Places.next, if_pos hlt]
      omega
    · have hend : ∀ t, tokens[p.position]? = some t → test t.kind = false :=
        fun t ht => by simpa using fun htest => h ⟨t, ht, htest⟩
      rw [Places.skip_of_stop hend]
      exact .iterate_done (hstop p hend)

theorem gives_skipWhile (kind : Kind) :
    Gives (skipWhile kind) tokens p () (p.skip tokens (· = kind)) := by
  refine gives_loop
    (gives_iterate_skip (fun p t ht htest => ?_) (fun p hstop => ?_) _ p (Nat.le_refl _))
  · refine (gives_isAt kind).bind ?_
    rw [ht, Option.any_some, htest]
    exact gives_moveNext.bind (.pure _)
  · refine (gives_isAt kind).bind ?_
    have hany : tokens[p.position]?.any (·.kind = kind) = false := by
      rw [Option.any_eq_false]
      exact fun t ht => by simpa using hstop t ht
    rw [hany]
    exact .pure _

theorem gives_skipUntil (kind : Kind) :
    Gives (skipUntil kind) tokens p () (p.skip tokens (· ≠ kind)) := by
  refine gives_loop
    (gives_iterate_skip (fun p t ht htest => ?_) (fun p hstop => ?_) _ p (Nat.le_refl _))
  · apply gives_current.bind
    rw [ht]
    have hne : ¬ t.kind = kind := by simpa using htest
    simp only [if_neg hne]
    exact gives_moveNext.bind (.pure _)
  · apply gives_current.bind
    cases ht : tokens[p.position]? with
    | none => exact .pure _
    | some t =>
      have heq : t.kind = kind := by simpa using hstop t ht
      simp only [if_pos heq]
      exact .pure _

theorem gives_peekPastRound_again {test : Kind → Bool} {t : Token}
    (h : tokens[Places.next tokens p.peek]? = some t) (ht : test t.kind = true) :
    Gives (peekPastRound test ()) tokens p (.again ())
      { p with peek := Places.next tokens p.peek } := by
  apply gives_peekNext.bind
  rw [h]
  simp only [ht, if_true]
  exact .pure _

theorem gives_peekPastRound_done {test : Kind → Bool}
    (h : ∀ t, tokens[Places.next tokens p.peek]? = some t → test t.kind = false) :
    Gives (peekPastRound test ()) tokens p (.done tokens[Places.next tokens p.peek]?)
      { p with peek := Places.next tokens p.peek } := by
  apply gives_peekNext.bind
  cases hfound : tokens[Places.next tokens p.peek]? with
  | none => exact .pure _
  | some t =>
    simp only [h t hfound, Bool.false_eq_true, if_false]
    exact .pure _

theorem gives_iterate_peekPast (test : Kind → Bool) (n : Nat) (p : Places)
    (hn : tokens.length - p.peek ≤ n) :
    Gives (Reading.iterate (peekPastRound test) (n + 1) ()) tokens p
      tokens[(p.lookPast tokens test).peek]? (p.lookPast tokens test) := by
  induction n generalizing p with
  | zero =>
    have hend : ∀ t, tokens[Places.next tokens p.peek]? = some t → test t.kind = false := by
      intro t ht
      obtain ⟨hlt, -⟩ := List.getElem?_eq_some_iff.mp ht
      rw [Places.next, if_neg (by omega)] at hlt
      omega
    rw [Places.lookPast_of_stop hend]
    exact .iterate_done (gives_peekPastRound_done hend)
  | succ n ih =>
    by_cases h : ∃ t, tokens[Places.next tokens p.peek]? = some t ∧ test t.kind = true
    · obtain ⟨t, ht, htest⟩ := h
      obtain ⟨hlt, -⟩ := List.getElem?_eq_some_iff.mp ht
      rw [Places.lookPast_of_pass ht htest]
      refine .iterate_again (gives_peekPastRound_again ht htest) (ih _ ?_)
      have hpeek : p.peek < tokens.length := by
        rw [Places.next] at hlt
        split at hlt <;> omega
      show tokens.length - Places.next tokens p.peek ≤ n
      rw [Places.next, if_pos hpeek]
      omega
    · have hend : ∀ t, tokens[Places.next tokens p.peek]? = some t → test t.kind = false :=
        fun t ht => by simpa using fun htest => h ⟨t, ht, htest⟩
      rw [Places.lookPast_of_stop hend]
      exact .iterate_done (gives_peekPastRound_done hend)

theorem gives_peekPast (test : Kind → Bool) :
    Gives (peekPast test) tokens p tokens[(p.lookPast tokens test).peek]?
      (p.lookPast tokens test) := by
  refine .get fun c hc => ?_
  rw [hc.peek, hc.ahead]
  exact gives_iterate_peekPast test _ p (Nat.le_refl _)

theorem gives_all : Gives all tokens p tokens p := by
  intro c hc
  obtain ⟨d, hfetch, hstill, hview, hend⟩ :=
    fetch_of_view hc.view (c.buffer.size + c.pending.length)
  have hlength := congrArg List.length hview
  simp only [view, List.length_append, List.length_map, Array.length_toList] at hlength
  have hcount := congrArg List.length hc.view
  simp only [view, List.length_append, List.length_map, Array.length_toList] at hcount
  have hall : d.buffer.toList = tokens := hend.resolve_left (by omega)
  refine ⟨d, ?_, hview, ?_, ?_⟩
  · refine (Reading.bind_of_ok hfetch).trans ?_
    show EStateM.Result.ok d.buffer.toList d = _
    rw [hall]
  · rw [hstill.position, hc.position]
  · rw [hstill.peek, hc.peek]

end Cursor

end DocComment
