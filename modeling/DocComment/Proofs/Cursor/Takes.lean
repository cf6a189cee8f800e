import DocComment.Proofs.Cursor.View
import DocComment.Proofs.Screening.Readable

/-!
# What readings take

A cursor may lose a fault, but it never loses a token: `Cursor.tokens` is the same from the
beginning of a reading to its end, whatever the reading looks at and however it ends. `Takes scene r
tokens Q` says that `r`, in front of `tokens`, comes to a decision. It takes some of the tokens from
the left and answers, and the answer, the tokens taken and the tokens left are under `Q`; or it is
refused for a cause that the scene gives. It never asks for a place in front of the buffer, and no
loop of it runs out of rounds: a loop has as many rounds as there are items ahead, and every token
ahead is one of them, so it is enough that each round that goes on takes a token. A reading that is
refused has all tokens still there, so a rule that was tried may be followed by any other.

A text is clean if no line of it is at fault. Its cursors have lost nothing, so a rule that would
read the tokens in front of it is not refused there. The scene says under which condition its text
is clean.
-/

namespace DocComment

open Screening (Item readable)

namespace Cursor

/-- All tokens of a cursor, behind it and ahead of it. -/
def tokens (c : Cursor) : List Token := readable c.view

/-- A fetch finds the token of its index, or meets a fault and stops. It loses no token. -/
theorem fetch_tokens (index : Nat) (c : Cursor) :
    (∃ d, fetch index c = .ok c.tokens[index]? d ∧ Still c d ∧ d.view = c.view) ∨
      ∃ cause d, fetch index c = .error (.syntaxError ⟨cause, c.source⟩) d ∧ d.source = c.source ∧
        d.tokens = c.tokens ∧ (∀ item ∈ d.view, item ∈ c.view) ∧ .fault cause ∈ c.view := by
  rcases fetch_cases index c with ⟨d, hfetch, hstill, hview, hend⟩ |
    ⟨d, cause, passed, behind, hfetch, hstill, hview, hleft, -⟩
  · left
    have htokens : c.tokens = d.buffer.toList ++ readable d.pending := by
      rw [tokens, ← hview, view, Screening.readable_append, Screening.readable_tokens]
    refine ⟨d, ?_, hstill, hview⟩
    rw [hfetch, htokens, ← Array.getElem?_toList]
    rcases hend with hlt | hpending
    · rw [List.getElem?_append_left (by simpa using hlt)]
    · rw [hpending]
      simp [readable]
  · right
    refine ⟨cause, d, hfetch, hstill.source, ?_, fun item hitem => ?_, by simp [hview]⟩
    · rw [tokens, tokens, hview, hleft, Screening.readable_append, Screening.readable_append,
        Screening.readable_fault]
    · rw [hleft] at hitem
      rw [hview]
      rcases List.mem_append.mp hitem with hitem | hitem
      · exact List.mem_append_left _ hitem
      · exact List.mem_append_right _ (List.mem_cons_of_mem _ hitem)

/-- Every token that is ahead is an item that is. -/
theorem length_le_ahead {c : Cursor} {passed tokens : List Token}
    (htokens : c.tokens = passed ++ tokens) : tokens.length ≤ c.ahead passed.length := by
  have hread : c.tokens.length ≤ c.view.length := List.length_filterMap_le _ _
  rw [htokens, List.length_append] at hread
  simp only [view, List.length_append, List.length_map, Array.length_toList] at hread
  rw [ahead]
  omega

end Cursor

namespace Reading

/-- What a reading takes place over: a text, the items that its cursors may show, and a condition
under which they show tokens alone. -/
structure Scene where
  source : Text
  items : List Item
  clean : Prop

namespace Scene

/-- The offset of a token, or of the end. -/
def Places (scene : Scene) (offset : Nat) : Prop :=
  offset = scene.source.length ∨ ∃ t, Item.token t ∈ scene.items ∧ t.offset = offset

/-- What a reading may be refused for: a fault, a token, the end, or a text that begins at one of
them. -/
inductive Gives (scene : Scene) : Cause → Prop
  | fault {cause : Cause} (shown : Item.fault cause ∈ scene.items) : Gives scene cause
  | token {t : Token} (shown : Item.token t ∈ scene.items) : Gives scene (.unexpectedToken t)
  | ended : Gives scene .unexpectedEnd
  | malformed {form : Form} {text : Text} {offset : Nat} (places : scene.Places offset) :
      Gives scene (.malformed form text offset)

/-- The scene that a cursor shows, whatever is known of its text. -/
def ofCursor (c : Cursor) : Scene := ⟨c.source, c.view, False⟩

end Scene

variable {scene : Scene} {α β : Type} {a : α} {t : Token} {tokens rest : List Token}

/-- The tokens of the cursor are these. Over a clean text there is nothing else to come. -/
structure Intact (scene : Scene) (all : List Token) (c : Cursor) : Prop where
  source : c.source = scene.source
  tokens : c.tokens = all
  shown : ∀ item ∈ c.view, item ∈ scene.items
  clean : scene.clean → c.view = all.map .token ∧ 0 ≤ c.peek

theorem Intact.mem_items {c : Cursor} (h : Intact scene tokens c) (ht : t ∈ tokens) :
    Item.token t ∈ scene.items := by
  rw [← h.tokens] at ht
  exact h.shown _ (Screening.mem_readable.mp ht)

/-- Where a cursor stands does not matter, and what it looks at only as far as the beginning. -/
theorem Intact.at {c : Cursor} (h : Intact scene tokens c) (position : Int) {peek : Int}
    (hpeek : 0 ≤ peek) :
    Intact scene tokens { c with position, peek } :=
  ⟨h.source, h.tokens, h.shown, fun hclean => ⟨(h.clean hclean).1, hpeek⟩⟩

/-- A reading ended with all the tokens it began with, with an answer under a condition or for a
cause that the scene gives. -/
def Answers (scene : Scene) (tokens : List Token) (Q : α → Cursor → Prop) :
    EStateM.Result Failure Cursor α → Prop
  | .ok a d => Intact scene tokens d ∧ Q a d
  | .error failure d => Intact scene tokens d ∧
      ∃ cause, failure = .syntaxError ⟨cause, scene.source⟩ ∧ scene.Gives cause

theorem Answers.imp {Q R : α → Cursor → Prop} {result : EStateM.Result Failure Cursor α}
    (h : Answers scene tokens Q result) (hQ : ∀ a d, Intact scene tokens d → Q a d → R a d) :
    Answers scene tokens R result := by
  cases result with
  | ok a d => exact ⟨h.1, hQ a d h.1 h.2⟩
  | error failure d => exact h

theorem Answers.bind {r : Reading α} {f : α → Reading β} {c : Cursor} {Q : α → Cursor → Prop}
    {R : β → Cursor → Prop} (hr : Answers scene tokens Q (r c))
    (hf : ∀ a d, Intact scene tokens d → Q a d → Answers scene tokens R (f a d)) :
    Answers scene tokens R ((r >>= f) c) := by
  cases h : r c with
  | ok a d =>
    rw [h] at hr
    rw [bind_of_ok h]
    exact hf a d hr.1 hr.2
  | error failure d =>
    rw [h] at hr
    rw [bind_of_error h]
    exact hr

theorem answers_fetch (index : Nat) {c : Cursor} (hc : Intact scene tokens c) :
    Answers scene tokens (fun found d => found = tokens[index]? ∧ Cursor.Still c d)
      (Cursor.fetch index c) := by
  rcases Cursor.fetch_tokens index c with ⟨d, hfetch, hstill, hview⟩ |
    ⟨cause, d, hfetch, hsource, htokens, hshown, hfault⟩
  · rw [hfetch]
    refine ⟨⟨hstill.source.trans hc.source, ?_, hview ▸ hc.shown, fun h => ?_⟩,
      by rw [hc.tokens], hstill⟩
    · rw [Cursor.tokens, hview]
      exact hc.tokens
    · rw [hview, hstill.peek]
      exact hc.clean h
  · rw [hfetch, hc.source]
    refine ⟨⟨hsource.trans hc.source, htokens.trans hc.tokens, fun item hitem => ?_, fun h => ?_⟩,
      cause, rfl, .fault (hc.shown _ hfault)⟩
    · exact hc.shown item (hshown item hitem)
    · rw [(hc.clean h).1] at hfault
      simp at hfault

/-- The cursor stands between tokens that it has passed and tokens that are ahead. -/
structure Between (scene : Scene) (passed ahead : List Token) (c : Cursor) : Prop extends
    Intact scene (passed ++ ahead) c where
  position : c.position = passed.length

theorem between_ofCursor {c : Cursor} {passed : List Token} (htokens : c.tokens = passed ++ tokens)
    (hposition : c.position = passed.length) : Between (.ofCursor c) passed tokens c :=
  ⟨⟨rfl, htokens, fun _ hitem => hitem, False.elim⟩, hposition⟩

/-- In front of the tokens the reading answers or is refused. Where it answers it has taken the
first of them, and the answer, the tokens taken and those left are under a condition. -/
def Takes (scene : Scene) (r : Reading α) (tokens : List Token)
    (Q : α → List Token → List Token → Prop) : Prop :=
  ∀ passed c, Between scene passed tokens c →
    Answers scene (passed ++ tokens)
      (fun a d => ∃ taken rest, tokens = taken ++ rest ∧ d.position = (passed ++ taken).length ∧
        Q a taken rest)
      (r c)

namespace Takes

variable {Q R : α → List Token → List Token → Prop} {S : β → List Token → List Token → Prop}
  {r : Reading α} {f : α → Reading β}

theorem imp (h : Takes scene r tokens Q)
    (hQ : ∀ a taken rest, tokens = taken ++ rest → Q a taken rest → R a taken rest) :
    Takes scene r tokens R := by
  intro passed c hc
  refine (h passed c hc).imp fun a d _ hq => ?_
  obtain ⟨taken, rest, htaken, hposition, hq⟩ := hq
  exact ⟨taken, rest, htaken, hposition, hQ a taken rest htaken hq⟩

theorem pure (h : Q a [] tokens) : Takes scene (Pure.pure a) tokens Q := by
  intro passed c hc
  refine ⟨hc.toIntact, [], tokens, rfl, ?_, h⟩
  rw [List.append_nil]
  exact hc.position

theorem bind (hr : Takes scene r tokens Q)
    (hf : ∀ a taken rest, tokens = taken ++ rest → Q a taken rest →
      Takes scene (f a) rest fun b more behind => S b (taken ++ more) behind) :
    Takes scene (r >>= f) tokens S := by
  intro passed c hc
  refine (hr passed c hc).bind fun a d hd hq => ?_
  obtain ⟨taken, rest, rfl, hposition, hq⟩ := hq
  rw [← List.append_assoc] at hd ⊢
  refine (hf a taken rest rfl hq (passed ++ taken) d ⟨hd, hposition⟩).imp fun b e _ hs => ?_
  obtain ⟨more, behind, rfl, hposition, hs⟩ := hs
  exact ⟨taken ++ more, behind, by simp, by simpa using hposition, hs⟩

theorem map (g : α → β) (hr : Takes scene r tokens Q)
    (hQ : ∀ a taken rest, tokens = taken ++ rest → Q a taken rest → S (g a) taken rest) :
    Takes scene (g <$> r) tokens S :=
  hr.bind fun a taken rest htokens hq => .pure (by simpa using hQ a taken rest htokens hq)

theorem refuse {cause : Cause} (h : scene.Gives cause) :
    Takes scene (Reading.refuse cause) tokens Q := by
  intro passed c hc
  rw [Reading.refuse, hc.source]
  exact ⟨hc.toIntact, cause, rfl, h⟩

/-- A reading may go by the text, and by a bound on the tokens that are left. -/
theorem get {f : Cursor → Reading α}
    (h : ∀ c : Cursor, c.source = scene.source → tokens.length ≤ c.ahead c.position →
      Takes scene (f c) tokens Q) : Takes scene (MonadState.get >>= f) tokens Q := by
  intro passed c hc
  have hahead := Cursor.length_le_ahead hc.tokens
  rw [← hc.position] at hahead
  exact h c hc.source hahead passed c hc

/-- An invariant of the state of a loop, the tokens taken so far and the tokens left. There are
rounds enough if each round that goes on takes a token. -/
theorem iterate {round : β → Reading (Round β α)} (J : β → List Token → List Token → Prop)
    (hround : ∀ b taken rest, tokens = taken ++ rest → J b taken rest →
      Takes scene (round b) rest fun outcome more behind =>
        match outcome with
        | .again next => more ≠ [] ∧ J next (taken ++ more) behind
        | .done a => Q a (taken ++ more) behind)
    {n : Nat} (hn : tokens.length < n) {b : β} (h : J b [] tokens) :
    Takes scene (iterate round n b) tokens Q := by
  -- the tokens that are left are fewer in each round, so the rounds are counted for all of them at
  -- once
  suffices hloop : ∀ taken rest b, tokens = taken ++ rest → J b taken rest → rest.length < n →
      Takes scene (Reading.iterate round n b) rest fun a more behind =>
        Q a (taken ++ more) behind from
    hloop [] tokens b rfl h hn
  clear hn
  induction n with
  | zero => exact fun _ _ _ _ _ hless => absurd hless (Nat.not_lt_zero _)
  | succ n ih =>
    intro taken rest b htokens hJ hless
    refine (hround b taken rest htokens hJ).bind fun outcome more behind hrest hnext => ?_
    cases outcome with
    | again next =>
      have hpositive := List.length_pos_iff.mpr hnext.1
      have hlength := congrArg List.length hrest
      rw [List.length_append] at hlength
      have hmore := ih (taken ++ more) behind next (by rw [htokens, hrest, List.append_assoc])
        hnext.2 (by omega)
      simpa only [List.append_assoc] using hmore
    | done a => exact .pure (by simpa using hnext)

theorem loop {round : β → Reading (Round β α)} (J : β → List Token → List Token → Prop)
    (hround : ∀ b taken rest, tokens = taken ++ rest → J b taken rest →
      Takes scene (round b) rest fun outcome more behind =>
        match outcome with
        | .again next => more ≠ [] ∧ J next (taken ++ more) behind
        | .done a => Q a (taken ++ more) behind)
    {b : β} (h : J b [] tokens) : Takes scene (Cursor.loop round b) tokens Q :=
  get fun _ _ hahead => iterate J hround (Nat.lt_succ_of_le hahead) h

/-! ## Operations on cursors -/

theorem current :
    Takes scene Cursor.current tokens fun found taken rest => taken = [] ∧ rest = tokens ∧
      found = tokens.head? ∧ ∀ t ∈ found, Item.token t ∈ scene.items := by
  intro passed c hc
  have hcurrent : Cursor.current c = Cursor.fetch passed.length c := by
    rw [← hc.position]
    rfl
  have hhead : (passed ++ tokens)[passed.length]? = tokens.head? := by
    rw [List.getElem?_append_right (Nat.le_refl _), Nat.sub_self, List.head?_eq_getElem?]
  rw [hcurrent]
  refine (answers_fetch passed.length hc.toIntact).imp fun found d hd hfound => ?_
  obtain ⟨rfl, hstill⟩ := hfound
  refine ⟨[], tokens, rfl, ?_, rfl, rfl, hhead, fun t ht => ?_⟩
  · rw [hstill.position, hc.position, List.append_nil]
  · exact hd.mem_items (List.mem_of_getElem? ht)

/-- A reading that goes by the token at the position. -/
theorem current_bind {f : Option Token → Reading β}
    (hnone : tokens = [] → Takes scene (f none) [] S)
    (hsome : ∀ t rest, tokens = t :: rest → Item.token t ∈ scene.items →
      Takes scene (f (some t)) (t :: rest) S) : Takes scene (Cursor.current >>= f) tokens S := by
  refine current.bind fun found taken rest _ hfound => ?_
  obtain ⟨rfl, rfl, rfl, hshown⟩ := hfound
  cases rest with
  | nil => exact hnone rfl
  | cons t rest => exact hsome t rest rfl (hshown t rfl)

theorem isAt (kind : Kind) :
    Takes scene (Cursor.isAt kind) tokens fun found taken rest => taken = [] ∧ rest = tokens ∧
      found = tokens.head?.any (·.kind = kind) := by
  refine current.bind fun found taken rest _ hfound => ?_
  obtain ⟨rfl, rfl, rfl, -⟩ := hfound
  exact .pure ⟨rfl, rfl, rfl⟩

/-- A reading that goes by whether the token at the position is of a kind. -/
theorem isAt_bind {kind : Kind} {f : Bool → Reading β}
    (htrue : ∀ t rest, tokens = t :: rest → t.kind = kind → Takes scene (f true) (t :: rest) S)
    (hfalse : (∀ t ∈ tokens.head?, t.kind ≠ kind) → Takes scene (f false) tokens S) :
    Takes scene (Cursor.isAt kind >>= f) tokens S := by
  refine (isAt kind).bind fun found taken rest _ hfound => ?_
  obtain ⟨rfl, rfl, rfl⟩ := hfound
  cases rest with
  | nil => exact hfalse (by simp)
  | cons t rest =>
    rw [List.head?_cons, Option.any_some]
    by_cases hkind : t.kind = kind
    · rw [decide_eq_true hkind]
      exact htrue t rest rfl hkind
    · rw [decide_eq_false hkind]
      exact hfalse (by simpa using hkind)

/-- Setting the peek to the position takes nothing. -/
theorem peekHere :
    Takes scene (modify fun c => { c with peek := c.position }) tokens
      fun _ taken rest => taken = [] ∧ rest = tokens := by
  intro passed c hc
  have hpeek : 0 ≤ c.position := hc.position ▸ Int.natCast_nonneg _
  refine ⟨hc.toIntact.at c.position hpeek, [], tokens, rfl, ?_, rfl, rfl⟩
  rw [List.append_nil]
  exact hc.position

theorem advance :
    Takes scene (modify fun c => { c with position := c.position + 1 }) (t :: rest)
      fun _ taken behind => taken = [t] ∧ behind = rest := by
  intro passed c hc
  refine ⟨⟨hc.source, hc.tokens, hc.shown, hc.clean⟩, [t], rest, rfl, ?_, rfl, rfl⟩
  show c.position + 1 = _
  rw [hc.position, List.length_append, List.length_singleton]
  rfl

theorem moveNext :
    Takes scene Cursor.moveNext (t :: rest) fun _ taken behind => taken = [t] ∧ behind = rest := by
  refine current_bind (fun h => nomatch h) fun u more heq _ => ?_
  obtain ⟨rfl, rfl⟩ := List.cons.inj heq
  refine advance.bind fun _ taken behind _ hmoved => ?_
  obtain ⟨rfl, rfl⟩ := hmoved
  refine peekHere.bind fun _ taken behind' _ hpeek => ?_
  obtain ⟨rfl, rfl⟩ := hpeek
  refine current.bind fun found taken behind' _ hfound => ?_
  obtain ⟨rfl, rfl, -⟩ := hfound
  exact .pure ⟨rfl, rfl⟩

/-- A reading that goes on behind the token at the position. -/
theorem moveNext_bind {f : Bool → Reading β}
    (h : ∀ more, Takes scene (f more) rest fun b taken behind => S b (t :: taken) behind) :
    Takes scene (Cursor.moveNext >>= f) (t :: rest) S := by
  refine moveNext.bind fun more taken behind _ hmoved => ?_
  obtain ⟨rfl, rfl⟩ := hmoved
  exact h more

end Takes

/-! ## Looking ahead -/

/-- The peek moves on if there is a token to look at behind it. -/
theorem answers_peekNext {index : Nat} {c : Cursor} (hc : Intact scene tokens c)
    (hpeek : c.peek = index) :
    Answers scene tokens (fun found d => found = tokens[index + 1]? ∧ d.position = c.position ∧
      (found.isSome → d.peek = (index + 1 : Nat))) (Cursor.peekNext c) := by
  rw [Cursor.peekNext_of_peek hpeek]
  refine (answers_fetch index hc).bind fun found d hd hfound => ?_
  obtain ⟨rfl, hstill⟩ := hfound
  have hplace : d.peek = index := hstill.peek.trans hpeek
  cases hfirst : tokens[index]? with
  | some t =>
    show Answers _ _ _ (Cursor.fetch (d.peek + 1) { d with peek := d.peek + 1 })
    rw [hplace]
    have hnext : Intact scene tokens { d with peek := (index : Int) + 1 } :=
      hd.at d.position (Int.natCast_nonneg (index + 1))
    refine (answers_fetch (index + 1) hnext).imp fun found e _ hfound => ?_
    obtain ⟨rfl, hkept⟩ := hfound
    exact ⟨rfl, hkept.position.trans hstill.position, fun _ => hkept.peek⟩
  | none =>
    have hpast : tokens[index + 1]? = none := by
      rw [List.getElem?_eq_none_iff] at hfirst ⊢
      omega
    show Answers _ _ _ (Cursor.fetch d.peek d)
    rw [hplace]
    refine (answers_fetch index hd).imp fun found e _ hfound => ?_
    obtain ⟨rfl, hkept⟩ := hfound
    rw [hfirst]
    exact ⟨hpast.symm, hkept.position.trans hstill.position, nofun⟩

/-- The first token behind an index that fails a test. -/
def firstBehind (tokens : List Token) (index : Nat) (test : Kind → Bool) : Option Token :=
  ((tokens.drop (index + 1)).dropWhile (test ·.kind)).head?

theorem firstBehind_of_end {index : Nat} {test : Kind → Bool} (h : tokens[index + 1]? = none) :
    firstBehind tokens index test = none := by
  rw [firstBehind, List.drop_of_length_le (List.getElem?_eq_none_iff.mp h)]
  rfl

theorem drop_of_getElem? {index : Nat} (h : tokens[index]? = some t) :
    tokens.drop index = t :: tokens.drop (index + 1) := by
  rw [List.drop_eq_getElem?_toList_append, h]
  rfl

theorem firstBehind_of_pass {index : Nat} {test : Kind → Bool} (h : tokens[index + 1]? = some t)
    (ht : test t.kind = true) :
    firstBehind tokens (index + 1) test = firstBehind tokens index test := by
  rw [firstBehind, firstBehind, drop_of_getElem? h, List.dropWhile_cons, if_pos ht]

theorem firstBehind_of_stop {index : Nat} {test : Kind → Bool} (h : tokens[index + 1]? = some t)
    (ht : ¬test t.kind = true) : firstBehind tokens index test = some t := by
  rw [firstBehind, drop_of_getElem? h, List.dropWhile_cons, if_neg ht]
  rfl

/-- A round either finds the token or moves the peek past one that passes the test. -/
theorem answers_peekPastRound (test : Kind → Bool) {index : Nat} {c : Cursor}
    (hc : Intact scene tokens c) (hpeek : c.peek = index) :
    Answers scene tokens (fun outcome d => d.position = c.position ∧
        match outcome with
        | .again _ => d.peek = (index + 1 : Nat) ∧ index + 1 < tokens.length ∧
            firstBehind tokens (index + 1) test = firstBehind tokens index test
        | .done found => found = firstBehind tokens index test)
      (Cursor.peekPastRound test () c) := by
  refine (answers_peekNext hc hpeek).bind fun found d hd hfound => ?_
  obtain ⟨rfl, hposition, hplace⟩ := hfound
  cases hnext : tokens[index + 1]? with
  | none => exact ⟨hd, hposition, (firstBehind_of_end hnext).symm⟩
  | some t =>
    rw [hnext] at hplace
    show Answers _ _ _ (.ok (if test t.kind then Round.again () else Round.done (some t)) d)
    by_cases htest : test t.kind = true
    · rw [if_pos htest]
      obtain ⟨hlt, -⟩ := List.getElem?_eq_some_iff.mp hnext
      exact ⟨hd, hposition, hplace rfl, hlt, firstBehind_of_pass hnext htest⟩
    · rw [if_neg htest]
      exact ⟨hd, hposition, (firstBehind_of_stop hnext htest).symm⟩

theorem answers_peekPast (test : Kind → Bool) {index n : Nat} {c : Cursor}
    (hc : Intact scene tokens c) (hpeek : c.peek = index) (hindex : index ≤ tokens.length)
    (hn : tokens.length < index + n) :
    Answers scene tokens (fun found d => found = firstBehind tokens index test ∧
      d.position = c.position) (iterate (Cursor.peekPastRound test) n () c) := by
  induction n generalizing index c with
  | zero => omega
  | succ n ih =>
    refine (answers_peekPastRound test hc hpeek).bind fun outcome d hd houtcome => ?_
    cases outcome with
    | again =>
      obtain ⟨hposition, hplace, hless, hsame⟩ := houtcome
      refine (ih hd hplace (Nat.le_of_lt hless) (by omega)).imp fun found e _ hfound => ?_
      exact ⟨hfound.1.trans hsame, hfound.2.trans hposition⟩
    | done found => exact ⟨hd, houtcome.2, houtcome.1⟩

namespace Takes

variable {Q : α → List Token → List Token → Prop} {f : Option Token → Reading α}

/-- A reading that goes by the first token behind the one at the position that fails a test. -/
theorem peekPast_bind {test : Kind → Bool}
    (h : Takes scene (f (rest.dropWhile (test ·.kind)).head?) (t :: rest) Q) :
    Takes scene (Cursor.peekReset >>= fun _ => Cursor.peekPast test >>= f) (t :: rest) Q := by
  intro passed c hc
  have hreset : Intact scene (passed ++ t :: rest) { c with peek := c.position } :=
    hc.toIntact.at c.position (hc.position ▸ Int.natCast_nonneg _)
  have hahead := Cursor.length_le_ahead hc.tokens
  rw [← hc.position] at hahead
  have hlength : (passed ++ t :: rest).length = passed.length + (t :: rest).length :=
    List.length_append
  have hrounds : (passed ++ t :: rest).length < passed.length + (c.ahead c.position + 1) := by omega
  have hlook := answers_peekPast test hreset hc.position (by omega) hrounds
  have hfirst : firstBehind (passed ++ t :: rest) passed.length test =
      (rest.dropWhile (test ·.kind)).head? := by
    rw [firstBehind, List.drop_append, List.drop_of_length_le (Nat.le_succ _),
      Nat.add_sub_cancel_left]
    rfl
  show Answers _ _ _
    ((Reading.iterate (Cursor.peekPastRound test) (c.ahead c.position + 1) () >>= f)
    { c with peek := c.position })
  refine hlook.bind fun found d hd hfound => ?_
  obtain ⟨rfl, hposition⟩ := hfound
  have hrest := h passed d ⟨hd, hposition.trans hc.position⟩
  rw [← hfirst] at hrest
  exact hrest

end Takes

end Reading

end DocComment
