import DocComment.Proofs.Cursor.Shape

/-!
# What readings spend

A reading pays for each round that its loops begin. `Spends shape tokens credit Q` says that it
never pays more than its credit, in front of these tokens, whether it answers or fails; and that if
it answers, the answer, the tokens that are left and the credit that is left are under `Q`.

`Costs n w e shape` says that in front of at most `n` tokens it is enough to have `w` for each token
and `e` besides, and that no more than this is gone for the tokens that were taken. Since a loop
pays for its rounds one by one, a round that goes on must have its price from the tokens that it
takes, while the last round may use what is there besides.
-/

namespace DocComment

namespace Cursor

/-- The tokens ahead of the position. -/
def left (c : Cursor) : List Token := c.tokens.drop c.position.toNat

theorem Stands.between {c : Cursor} (h : c.Stands) :
    Reading.Between (.ofCursor c) (c.tokens.take c.position.toNat) c.left c := by
  refine Reading.between_ofCursor (List.take_append_drop _ _).symm ?_
  have hnonneg := h.nonneg
  have hwithin := h.within
  rw [List.length_take]
  omega

end Cursor

namespace Reading

variable {α : Type} {r : Reading α} {a : α} {c d : Cursor} {Q : α → List Token → List Token → Prop}

theorem Takes.of_ok (h : Takes (.ofCursor c) r c.left Q) (hc : c.Stands) (hr : r c = .ok a d) :
    ∃ taken, c.left = taken ++ d.left ∧ Q a taken d.left := by
  have hanswers := h _ c hc.between
  rw [hr] at hanswers
  obtain ⟨hintact, taken, rest, htaken, hposition, hq⟩ := hanswers
  have hrest : d.left = rest := by
    rw [Cursor.left, hintact.tokens, htaken, hposition, Int.toNat_natCast, ← List.append_assoc,
      List.drop_left]
  rw [hrest]
  exact ⟨taken, htaken, hq⟩

end Reading

open Grammar (Walk)
open Reading (Takes)

/-- In front of the tokens the reading spends no more than the credit. If it answers, the answer,
the tokens that are left and the credit that is left are under a condition. -/
def Spends {α : Type} {r : Reading α} (shape : Shape r) (tokens : List Token) (credit : Nat)
    (Q : α → List Token → Nat → Prop) : Prop :=
  ∀ c : Cursor, c.Stands → c.left = tokens →
    shape.rounds c ≤ credit ∧ ∀ a d, r c = .ok a d → Q a d.left (credit - shape.rounds c)

namespace Spends

variable {α β : Type} {r q : Reading α} {f : α → Reading β} {shape : Shape r}
  {tokens rest : List Token} {credit : Nat} {t : Token} {a : α} {Q R : α → List Token → Nat → Prop}
  {S : β → List Token → Nat → Prop}

theorem imp (h : Spends shape tokens credit Q) (hQ : ∀ a rest left, Q a rest left → R a rest left) :
    Spends shape tokens credit R :=
  fun c hc hleft => ⟨(h c hc hleft).1, fun a d hr => hQ _ _ _ ((h c hc hleft).2 a d hr)⟩

theorem pure (h : Q a tokens credit) : Spends (.pure a) tokens credit Q := by
  intro c _ hleft
  refine ⟨Nat.zero_le _, fun b d hr => ?_⟩
  cases hr
  rw [hleft]
  exact h

theorem refuse {cause : Cause} : Spends (.refuse cause) tokens credit Q :=
  fun _ _ _ => ⟨Nat.zero_le _, nofun⟩

theorem stalled : Spends .stalled tokens credit Q := fun _ _ _ => ⟨Nat.zero_le _, nofun⟩

theorem get {f : Cursor → Reading α} {next : ∀ c, Shape (f c)}
    (h : ∀ c, Spends (next c) tokens credit Q) :
    Spends (.get next) tokens credit Q :=
  fun c hc hleft => h c c hc hleft

theorem bind {first : Shape r} {next : ∀ a, Shape (f a)} (hfirst : Spends first tokens credit Q)
    (hnext : ∀ a rest left, Q a rest left → Spends (next a) rest left S) :
    Spends (first.bind next) tokens credit S := by
  intro c hc hleft
  obtain ⟨hspent, hanswer⟩ := hfirst c hc hleft
  have honward := first.onward hc
  rw [Shape.rounds]
  cases hr : r c with
  | error failure d =>
    rw [Reading.bind_of_error hr]
    exact ⟨hspent, nofun⟩
  | ok a d =>
    rw [hr] at honward
    obtain ⟨hmore, hlast⟩ := hnext a d.left _ (hanswer a d hr) d (honward.stands hc) rfl
    rw [Reading.bind_of_ok hr]
    refine ⟨by dsimp only; omega, fun b e he => ?_⟩
    rw [← Nat.sub_sub]
    exact hlast b e he

theorem ite {p : Prop} [Decidable p] {first : Shape r} {second : Shape q}
    (hfirst : p → Spends first tokens credit Q) (hsecond : ¬p → Spends second tokens credit Q) :
    Spends (Walk.ite (p := p) first second) tokens credit Q := by
  cases hdecision : ‹Decidable p› with
  | isTrue hp => exact hfirst hp
  | isFalse hp => exact hsecond hp

/-- A rule that is refused has spent what it was given; the one after it begins in front of the same
tokens. -/
theorem tryElse {first : Shape r} {second : Shape q} {price : Nat} {P : α → List Token → Nat → Prop}
    (hfirst : Spends first tokens price P) (hprice : price ≤ credit)
    (hanswer : ∀ a rest left, P a rest left → Q a rest (left + (credit - price)))
    (hsecond : ∀ left, credit ≤ left + price → Spends second tokens left Q) :
    Spends (.tryElse first second) tokens credit Q := by
  intro c hc hleft
  obtain ⟨hspent, hok⟩ := hfirst c hc hleft
  have honward := first.onward hc
  rw [Shape.rounds]
  cases hr : r c with
  | ok a d =>
    rw [Grammar.tryElse_of_ok hr]
    refine ⟨by dsimp only; omega, fun b e he => ?_⟩
    cases he
    have hmore : credit - (first.rounds c + 0) = price - first.rounds c + (credit - price) := by
      omega
    dsimp only
    rw [hmore]
    exact hanswer a _ _ (hok a d hr)
  | error failure d =>
    rw [hr] at honward
    cases failure with
    | syntaxError e =>
      have hback : Cursor.Onward c { d with position := c.position, peek := c.position } :=
        ⟨honward.tokens, Int.le_refl _, hc.within⟩
      obtain ⟨hmore, hlast⟩ := hsecond (credit - first.rounds c) (by omega) _ (hback.stands hc)
        (by rw [Cursor.left, hback.tokens, ← hleft, Cursor.left])
      rw [Grammar.tryElse_of_refused hr]
      refine ⟨by dsimp only; omega, fun b e he => ?_⟩
      rw [← Nat.sub_sub]
      exact hlast b e he
    | _ =>
      rw [Grammar.tryElse, hr]
      refine ⟨by dsimp only; omega, fun b e he => ?_⟩
      cases he

/-- What a reading without loops takes is what it answers. -/
theorem of_takes {P : α → List Token → List Token → Prop} (h : ∀ {scene}, Takes scene r tokens P)
    (hfree : ∀ c, shape.rounds c = 0) :
    Spends shape tokens credit fun a rest left =>
      left = credit ∧ ∃ taken, tokens = taken ++ rest ∧ P a taken rest := by
  intro c hc hleft
  rw [hfree]
  refine ⟨Nat.zero_le _, fun a d hr => ⟨rfl, ?_⟩⟩
  subst hleft
  exact h.of_ok hc hr

theorem and_takes {P : α → List Token → List Token → Prop} (h : Spends shape tokens credit Q)
    (htakes : ∀ {scene}, Takes scene r tokens P) :
    Spends shape tokens credit fun a rest left =>
      Q a rest left ∧ ∃ taken, tokens = taken ++ rest ∧ P a taken rest := by
  intro c hc hleft
  obtain ⟨hspent, hok⟩ := h c hc hleft
  refine ⟨hspent, fun a d hr => ⟨hok a d hr, ?_⟩⟩
  subst hleft
  exact htakes.of_ok hc hr

/-- A reading that goes by the token at the position. -/
theorem current_bind {f : Option Token → Reading β} {next : ∀ found, Shape (f found)}
    (hnone : Spends (next none) tokens credit S)
    (hsome : ∀ t, tokens.head? = some t → Spends (next (some t)) tokens credit S) :
    Spends (Shape.current.bind next) tokens credit S := by
  have hcurrent : ∀ {scene}, Takes scene Cursor.current tokens fun found taken rest =>
      taken = [] ∧ rest = tokens ∧ found = tokens.head? :=
    Takes.current.imp fun _ _ _ _ hfound => ⟨hfound.1, hfound.2.1, hfound.2.2.1⟩
  refine (of_takes hcurrent fun _ => rfl).bind fun found rest left hfound => ?_
  obtain ⟨rfl, taken, htokens, rfl, rfl, rfl⟩ := hfound
  cases rest with
  | nil => exact hnone
  | cons t rest => exact hsome t rfl

/-- A reading that goes on behind the token at the position. -/
theorem moveNext_bind {f : Bool → Reading β} {next : ∀ more, Shape (f more)}
    (ht : tokens.head? = some t)
    (h : ∀ more rest, tokens.length = rest.length + 1 → Spends (next more) rest credit S) :
    Spends (Shape.moveNext.bind next) tokens credit S := by
  obtain ⟨rest, rfl⟩ := List.head?_eq_some_iff.mp ht
  refine (of_takes Takes.moveNext fun _ => rfl).bind fun more behind left hmoved => ?_
  obtain ⟨rfl, taken, htokens, rfl, rfl⟩ := hmoved
  exact h more behind rfl

/-- A reading that goes by whether the token at the position is of a kind. -/
theorem isAt_bind {kind : Kind} {first : Shape r} {second : Shape q}
    (hfirst : ∀ t, tokens.head? = some t → Spends first tokens credit Q)
    (hsecond : Spends second tokens credit Q) :
    Spends ((Shape.walk.isAt kind).bind fun found => Walk.ite (p := found = true) first second)
      tokens credit Q := by
  have hisAt : Spends (Shape.walk.isAt kind) tokens credit fun found rest left =>
      rest = tokens ∧ left = credit ∧ (found = true → ∃ t, tokens.head? = some t) :=
    current_bind (.pure ⟨rfl, rfl, nofun⟩) fun t ht => .pure ⟨rfl, rfl, fun _ => ⟨t, ht⟩⟩
  refine hisAt.bind fun found rest left hfound => ?_
  obtain ⟨rfl, rfl, hsome⟩ := hfound
  refine .ite (fun htrue => ?_) fun _ => hsecond
  obtain ⟨t, ht⟩ := hsome htrue
  exact hfirst t ht

/-- A reading that goes by a token further ahead. -/
theorem peekPast_bind {test : Kind → Bool} {f : Option Token → Reading β}
    {next : ∀ found, Shape (f found)} (h : ∀ found, Spends (next found) tokens credit S) :
    Spends (Shape.peekReset.bind fun _ => (Shape.peekPast test).bind next) tokens credit S := by
  have hstays : ∀ {γ : Type} {look : Reading γ} {shape : Shape look}, (∀ c, shape.rounds c = 0) →
      (∀ I : Cursor → Prop, Reading.Invariant I (fun _ => I) → Reading.Keeps I (fun _ => I) look) →
      Spends shape tokens credit fun _ rest left => rest = tokens ∧ left = credit := by
    intro γ look shape hfree hkeeps c hc hleft
    have hplace :=
      Shape.invariant_of_place (I := fun d => d.tokens = c.tokens ∧ d.position = c.position)
      fun _ _ hd htokens hposition => ⟨htokens.trans hd.1, hposition.trans hd.2⟩
    have hends := hkeeps _ hplace c ⟨rfl, rfl⟩
    rw [hfree]
    refine ⟨Nat.zero_le _, fun a d hr => ⟨?_, rfl⟩⟩
    rw [hr] at hends
    rw [← hleft, Cursor.left, Cursor.left, hends.1, hends.2]
  refine (hstays (fun _ => rfl) fun _ hplace => hplace.peekReset).bind fun _ rest left hfound => ?_
  obtain ⟨rfl, rfl⟩ := hfound
  refine (hstays (fun _ => rfl) fun _ hplace => hplace.peekPast test).bind
    fun found rest left hfound => ?_
  obtain ⟨rfl, rfl⟩ := hfound
  exact h found

/-- A loop pays for a round before it begins. -/
theorem iterate_succ {round : β → Reading (Round β α)} {rounds : ∀ b, Shape (round b)}
    {n : Nat} {b : β} {P : Round β α → List Token → Nat → Prop}
    (hround : Spends (rounds b) tokens credit P)
    (hagain : ∀ next rest left, P (.again next) rest left →
      Spends (.iterate rounds n next) rest left Q)
    (hdone : ∀ a rest left, P (.done a) rest left → Q a rest left) :
    Spends (.iterate rounds (n + 1) b) tokens (credit + 1) Q := by
  intro c hc hleft
  obtain ⟨hspent, hok⟩ := hround c hc hleft
  have honward := (rounds b).onward hc
  have hpaid : ∀ k, credit + 1 - (1 + (rounds b).rounds c + k) =
    credit - (rounds b).rounds c - k := by omega
  rw [Shape.rounds, Shape.roundsOf]
  cases hr : round b c with
  | error failure d =>
    rw [Reading.iterate_error hr]
    exact ⟨by dsimp only; omega, nofun⟩
  | ok outcome d =>
    rw [hr] at honward
    cases outcome with
    | done a =>
      rw [Reading.iterate_done hr]
      refine ⟨by dsimp only; omega, fun a' e he => ?_⟩
      cases he
      rw [hpaid]
      exact hdone a _ _ (hok _ d hr)
    | again next =>
      obtain ⟨hmore, hlast⟩ := hagain next _ _ (hok _ d hr) d (honward.stands hc) rfl
      rw [Shape.rounds] at hmore hlast
      rw [Reading.iterate_again hr]
      refine ⟨by dsimp only; omega, fun a e he => ?_⟩
      rw [hpaid]
      exact hlast a e he

end Spends

/-! ## Costs -/

/-- In front of at most `n` tokens the reading spends `w` for each token and `e` besides, and no
more of this than for the tokens that it takes, which are at least `k`. -/
def Costs {α : Type} {r : Reading α} (n w e k : Nat) (shape : Shape r) : Prop :=
  ∀ ⦃tokens : List Token⦄ ⦃credit : Nat⦄, tokens.length ≤ n → w * tokens.length + e ≤ credit →
    Spends shape tokens credit fun _ rest left =>
      rest.length + k ≤ tokens.length ∧ credit + w * rest.length ≤ left + w * tokens.length + e

/-- How a round of a loop ends that has paid for itself. If the loop goes on, what was spent was for
the tokens that were taken; if it is done although nothing was taken, it ends with what it had. -/
def Paid {β : Type} (w e : Nat) (b : β) (tokens : List Token) (credit : Nat) (outcome : Round β β)
    (rest : List Token) (left : Nat) : Prop :=
  rest.length ≤ tokens.length ∧
    match outcome with
    | .again _ => credit + 1 + w * rest.length ≤ left + w * tokens.length
    | .done a => credit + 1 + w * rest.length ≤ left + w * tokens.length + e ∧
      (rest.length < tokens.length ∨ a = b)

namespace Paid

variable {β : Type} {w e credit left : Nat} {a b : β} {tokens rest : List Token}

theorem again (hlength : rest.length ≤ tokens.length)
    (h : credit + 1 + w * rest.length ≤ left + w * tokens.length) :
    Paid w e b tokens credit (.again a) rest left :=
  ⟨hlength, h⟩

theorem done (hlength : rest.length < tokens.length)
    (h : credit + 1 + w * rest.length ≤ left + w * tokens.length + e) :
    Paid w e b tokens credit (.done a) rest left :=
  ⟨Nat.le_of_lt hlength, h, .inl hlength⟩

theorem same (h : credit + 1 ≤ left + e) : Paid w e b tokens credit (.done b) tokens left :=
  ⟨Nat.le_refl _, by omega, .inr rfl⟩

end Paid

/-- Each round of a loop pays for itself, out of what the loop costs. -/
def Settles {β : Type} {round : β → Reading (Round β β)} (n w e : Nat)
    (rounds : ∀ b, Shape (round b)) : Prop :=
  ∀ ⦃tokens : List Token⦄ ⦃credit : Nat⦄ (b : β), tokens.length ≤ n →
    w * tokens.length + e ≤ credit + 1 → Spends (rounds b) tokens credit (Paid w e b tokens credit)

namespace Costs

variable {α β : Type} {r : Reading α} {f : α → Reading β} {shape : Shape r} {tokens : List Token}
  {credit n w e k : Nat} {S : β → List Token → Nat → Prop}

theorem bind {first : Shape r} {next : ∀ a, Shape (f a)} (hfirst : Costs n w e k first)
    (hn : tokens.length ≤ n) (h : w * tokens.length + e ≤ credit)
    (hnext : ∀ a rest left, rest.length + k ≤ tokens.length →
      credit + w * rest.length ≤ left + w * tokens.length + e → Spends (next a) rest left S) :
    Spends (first.bind next) tokens credit S :=
  (hfirst hn h).bind fun a rest left hrest => hnext a rest left hrest.1 hrest.2

theorem imp {w' e' : Nat} (h : Costs n w e k shape) (hw : w ≤ w') (he : e ≤ e') :
    Costs n w' e' 0 shape := by
  intro tokens credit hn hcredit
  obtain ⟨more, rfl⟩ := Nat.exists_eq_add_of_le hw
  rw [Nat.add_mul] at hcredit
  refine (h hn (by omega)).imp fun a rest left hrest => ⟨by omega, ?_⟩
  have hmore : more * rest.length ≤ more * tokens.length := Nat.mul_le_mul_left _ (by omega)
  rw [Nat.add_mul, Nat.add_mul]
  omega

section Loops

variable {round : β → Reading (Round β β)} {rounds : ∀ b, Shape (round b)}

/-- A round that goes on leaves enough for those after it. -/
theorem iterate (he : 0 < e) (hround : Settles n w e rounds) (limit : Nat) (b : β) :
    Costs n w e 0 (.iterate rounds limit b) := by
  induction limit generalizing b with
  | zero => exact fun _ _ _ _ => fun _ _ _ => ⟨Nat.zero_le _, nofun⟩
  | succ limit ih =>
    intro tokens credit hn h
    obtain ⟨credit, rfl⟩ := Nat.exists_eq_add_of_lt (show 0 < credit by omega)
    rw [Nat.zero_add] at h ⊢
    refine (hround b hn h).iterate_succ (fun next rest left hrest => ?_) fun a rest left hrest => ?_
    · obtain ⟨hlength, hpaid⟩ := hrest
      dsimp only at hpaid
      exact (ih next (by omega) (by omega)).imp fun a behind last hbehind => ⟨by omega, by omega⟩
    · exact ⟨hrest.1, hrest.2.1⟩

theorem loop (hround : Settles n w e rounds) (he : 0 < e) (b : β) :
    Costs n w e 0 (Shape.walk.loop rounds b) :=
  fun _ _ hn h => .get fun _ => iterate he hround _ b hn h

end Loops

end Costs

/-- A round that has paid for itself has moved the position on, or ends the loop with what
it had. -/
theorem Settles.moves {β : Type} {round : β → Reading (Round β β)} {rounds : ∀ b, Shape (round b)}
    {n w e : Nat} {b : β} {outcome : Round β β} {c d : Cursor} (h : Settles n w e rounds)
    (hn : c.tokens.length ≤ n) (hc : c.Stands) (hr : round b c = .ok outcome d) :
    c.position < d.position ∨ outcome = .done b := by
  have hleft : ∀ {c : Cursor}, c.left.length = c.tokens.length - c.position.toNat :=
    List.length_drop
  have honward := (rounds b).onward hc
  rw [hr] at honward
  have hlength := congrArg List.length honward.tokens
  have hforward := honward.forward
  have hwithin := honward.within
  have hnonneg := hc.nonneg
  obtain ⟨hspent, hok⟩ :=
    h b (show c.left.length ≤ n by rw [hleft]; omega) (Nat.le_succ_of_le (Nat.le_refl _)) c hc rfl
  obtain ⟨hshort, hsettled⟩ := hok outcome d hr
  have hmoved : d.left.length < c.left.length → c.position < d.position := by
    rw [hleft, hleft]
    omega
  cases outcome with
  | again next =>
    left
    apply hmoved
    apply Nat.lt_of_mul_lt_mul_left (a := w)
    dsimp only at hsettled
    omega
  | done a => exact hsettled.2.imp hmoved fun heq => by rw [heq]

end DocComment
