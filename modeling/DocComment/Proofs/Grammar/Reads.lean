import DocComment.Grammar.Description
import DocComment.Proofs.Cursor.Places
import DocComment.Proofs.Token.Partition

/-!
# What rules read from tokens

`Reads r tokens a rest` says that from a cursor in front of `tokens` the rule `r` answers `a` and
stops in front of `rest`, whatever is behind the cursor. Rules compose as the lists do. A loop that
takes one token in each round folds over the tokens that it takes.
-/

namespace DocComment.Grammar

open Cursor (current isAt moveNext loop)
open Reading (Gives iterate)
open Token (concat)

variable {α β γ : Type} {a : α} {b : β} {t : Token} {tokens taken rest behind : List Token}

/-- In front of the tokens the rule answers `a`, and it stops in front of the rest. -/
def Reads (r : Reading α) (tokens : List Token) (a : α) (rest : List Token) : Prop :=
  ∃ taken, tokens = taken ++ rest ∧ ∀ passed peek, ∃ after,
    Gives r (passed ++ tokens) ⟨passed.length, peek⟩ a ⟨(passed ++ taken).length, after⟩

namespace Reads

theorem of_gives {r : Reading α} (h : ∀ passed peek, Gives r (passed ++ tokens)
    ⟨passed.length, peek⟩ a ⟨passed.length, peek⟩) : Reads r tokens a tokens :=
  ⟨[], rfl, fun passed peek => ⟨peek, by rw [List.append_nil]; exact h passed peek⟩⟩

theorem pure (a : α) : Reads (Pure.pure a) tokens a tokens := of_gives fun _ _ => .pure a

theorem bind {r : Reading α} {f : α → Reading β} (hr : Reads r tokens a rest)
    (hf : Reads (f a) rest b behind) : Reads (r >>= f) tokens b behind := by
  obtain ⟨taken, rfl, hr⟩ := hr
  obtain ⟨more, rfl, hf⟩ := hf
  refine ⟨taken ++ more, by rw [List.append_assoc], fun passed peek => ?_⟩
  obtain ⟨between, hfirst⟩ := hr passed peek
  obtain ⟨after, hsecond⟩ := hf (passed ++ taken) between
  rw [List.append_assoc] at hsecond
  refine ⟨after, ?_⟩
  rw [← List.append_assoc passed taken more]
  exact hfirst.bind hsecond

theorem map {r : Reading α} (f : α → β) (hr : Reads r tokens a rest) :
    Reads (f <$> r) tokens (f a) rest :=
  hr.bind (.pure (f a))

/-- A rule may count the tokens that are ahead of it. -/
theorem ahead {f : Nat → Reading α} (h : Reads (f tokens.length) tokens a rest) :
    Reads (do let c ← get; f (c.ahead c.position)) tokens a rest := by
  obtain ⟨taken, rfl, h⟩ := h
  refine ⟨taken, rfl, fun passed peek => ?_⟩
  obtain ⟨after, hgives⟩ := h passed peek
  refine ⟨after, .get fun c hc => ?_⟩
  rw [hc.position, hc.ahead, List.length_append, Nat.add_sub_cancel_left]
  exact hgives

theorem loop {round : β → Reading (Round β α)}
    (h : Reads (iterate round (tokens.length + 1) b) tokens a rest) :
    Reads (loop round b) tokens a rest :=
  ahead (f := fun n => iterate round (n + 1) b) h

theorem iterate_again {round : β → Reading (Round β α)} {next : β} {n : Nat}
    (h : Reads (round b) tokens (.again next) rest)
    (hrest : Reads (iterate round n next) rest a behind) :
    Reads (iterate round (n + 1) b) tokens a behind :=
  h.bind hrest

theorem iterate_done {round : β → Reading (Round β α)} {n : Nat}
    (h : Reads (round b) tokens (.done a) rest) : Reads (iterate round (n + 1) b) tokens a rest :=
  h.bind (.pure a)

/-- A loop whose rounds take one token each folds over the tokens that it takes. -/
theorem iterate_fold {round : β → Reading (Round β γ)} (step : β → Token → β) (finish : β → γ)
    (hpass : ∀ t ∈ taken, ∀ b more, Reads (round b) (t :: more) (.again (step b t)) more)
    (hstop : ∀ b, Reads (round b) rest (.done (finish b)) rest) {n : Nat} (hn : taken.length < n)
    (b : β) : Reads (iterate round n b) (taken ++ rest) (finish (taken.foldl step b)) rest := by
  induction taken generalizing n b with
  | nil =>
    cases n with
    | zero => simp at hn
    | succ n => exact iterate_done (hstop b)
  | cons t taken ih =>
    cases n with
    | zero => simp at hn
    | succ n =>
      rw [List.forall_mem_cons] at hpass
      rw [List.length_cons, Nat.add_lt_add_iff_right] at hn
      exact iterate_again (hpass.1 b (taken ++ rest)) (ih hpass.2 hn (step b t))

end Reads

/-! ## Operations on cursors -/

theorem getElem?_passed (passed tokens : List Token) :
    (passed ++ tokens)[passed.length]? = tokens.head? := by
  rw [List.getElem?_append_right (Nat.le_refl _), Nat.sub_self, List.head?_eq_getElem?]

theorem reads_current : Reads current tokens tokens.head? tokens :=
  .of_gives fun passed peek => by
    have h : Gives current (passed ++ tokens) ⟨passed.length, peek⟩ _ _ := Cursor.gives_current
    rwa [getElem?_passed] at h

theorem reads_isAt (kind : Kind) :
    Reads (isAt kind) tokens (tokens.head?.any (·.kind = kind)) tokens :=
  reads_current.bind (.pure _)

theorem reads_isAt_of_eq {kind : Kind} (h : t.kind = kind) :
    Reads (isAt kind) (t :: rest) true (t :: rest) := by
  have hread : Reads (isAt kind) (t :: rest) _ (t :: rest) := reads_isAt kind
  rwa [List.head?_cons, Option.any_some, decide_eq_true h] at hread

theorem reads_isAt_of_ne {kind : Kind} (h : ∀ t ∈ tokens.head?, t.kind ≠ kind) :
    Reads (isAt kind) tokens false tokens := by
  have hany : tokens.head?.any (·.kind = kind) = false := by
    rw [Option.any_eq_false]
    exact fun t ht => by simpa using h t ht
  have hread : Reads (isAt kind) tokens _ tokens := reads_isAt kind
  rwa [hany] at hread

theorem reads_moveNext : Reads moveNext (t :: rest) rest.head?.isSome rest := by
  refine ⟨[t], rfl, fun passed peek => ⟨(passed ++ [t]).length, ?_⟩⟩
  have h : Gives moveNext (passed ++ t :: rest) ⟨passed.length, peek⟩ _ _ := Cursor.gives_moveNext
  have hnext : Places.next (passed ++ t :: rest) passed.length = (passed ++ [t]).length := by
    rw [Places.next, if_pos (by simp), List.length_append, List.length_singleton]
  rw [Places.advance, hnext, List.append_cons, getElem?_passed] at h
  rwa [List.append_cons]

/-! ## What rules are made of -/

theorem reads_expect {kind : Kind} (h : t.kind = kind) :
    Reads (expect kind) (t :: rest) t rest := by
  apply reads_current.bind
  show Reads (if t.kind = kind then _ else _) _ _ _
  rw [if_pos h]
  exact reads_moveNext.bind (.pure _)

theorem reads_pass {kind : Kind} (h : t.kind = kind) : Reads (pass kind) (t :: rest) () rest :=
  (reads_expect h).bind (.pure _)

/-- The rounds that pass blanks, as many as there are and one more. -/
theorem reads_blanks (htaken : ∀ t ∈ taken, t.kind = .whitespace)
    (hrest : ∀ t ∈ rest.head?, t.kind ≠ .whitespace) {n : Nat} (hn : taken.length < n) :
    Reads (iterate (Cursor.skipWhileRound .whitespace) n ()) (taken ++ rest) () rest := by
  refine .iterate_fold (fun _ _ => ()) id ?_ ?_ hn ()
  · intro t ht b more
    exact (reads_isAt_of_eq (htaken t ht)).bind (reads_moveNext.bind (.pure _))
  · intro b
    exact (reads_isAt_of_ne hrest).bind (.pure _)

theorem reads_skipBlanks (htaken : ∀ t ∈ taken, t.kind = .whitespace)
    (hrest : ∀ t ∈ rest.head?, t.kind ≠ .whitespace) :
    Reads skipBlanks (taken ++ rest) () rest :=
  .loop (reads_blanks htaken hrest (by rw [List.length_append]; omega))

theorem reads_noBlanks (h : ∀ v ∈ tokens.head?, v.kind ≠ .whitespace) :
    Reads skipBlanks tokens () tokens :=
  reads_skipBlanks (List.forall_mem_nil _) h

theorem reads_attempt {rule : Reading α} {default : α} (h : Reads rule tokens a rest) :
    Reads (attempt rule default) tokens a rest := by
  obtain ⟨taken, htokens, h⟩ := h
  refine ⟨taken, htokens, fun passed peek => ?_⟩
  obtain ⟨after, hgives⟩ := h passed peek
  refine ⟨after, fun c hc => ?_⟩
  obtain ⟨d, hread, hd⟩ := hgives c hc
  exact ⟨d, tryElse_of_ok hread, hd⟩

theorem foldl_concat (collected : Text) (taken : List Token) :
    taken.foldl (fun collected t => collected ++ t.text) collected = collected ++ concat taken := by
  induction taken generalizing collected with
  | nil => simp
  | cons t taken ih => rw [List.foldl_cons, ih, Token.concat_cons, List.append_assoc]

/-- The rounds that collect accepted tokens, as many as there are and one more. -/
theorem reads_accepted {accept : Kind → Bool} (htaken : ∀ t ∈ taken, accept t.kind = true)
    (hrest : ∀ t ∈ rest.head?, accept t.kind = false) {n : Nat} (hn : taken.length < n)
    (collected : Text) :
    Reads (iterate (collectRound accept) n collected) (taken ++ rest)
      (collected ++ concat taken) rest := by
  rw [← foldl_concat collected taken]
  refine .iterate_fold _ id ?_ ?_ hn collected
  · intro t ht b more
    apply reads_current.bind
    show Reads (if accept t.kind then _ else _) _ _ _
    rw [if_pos (htaken t ht)]
    exact reads_moveNext.bind (.pure _)
  · intro b
    apply reads_current.bind
    cases hhead : rest.head? with
    | none => exact .pure _
    | some t =>
      show Reads (if accept t.kind then _ else _) _ _ _
      rw [if_neg (by simp [hrest t hhead])]
      exact .pure _

theorem reads_collect {accept : Kind → Bool} (htaken : ∀ t ∈ taken, accept t.kind = true)
    (hrest : ∀ t ∈ rest.head?, accept t.kind = false) (hfirst : (taken ++ rest).head? = some t) :
    Reads (collect accept) (taken ++ rest) (concat taken, t.offset) rest := by
  have hround : Reads (loop (collectRound accept) []) (taken ++ rest) (concat taken) rest :=
    .loop (reads_accepted htaken hrest (by rw [List.length_append]; omega) [])
  have hoffset : Reads currentOffset (taken ++ rest) t.offset (taken ++ rest) := by
    refine .of_gives fun passed peek => .get fun c hc => ?_
    have h : Gives current (passed ++ (taken ++ rest)) ⟨passed.length, peek⟩ _ _ :=
      Cursor.gives_current
    rw [getElem?_passed, hfirst] at h
    exact h.bind (.pure _)
  exact hoffset.bind (hround.bind (.pure _))

theorem reads_collectForm {form : Form} {accept : Kind → Bool}
    (hform : form.accepts (concat taken) = true) (htaken : ∀ t ∈ taken, accept t.kind = true)
    (hrest : ∀ t ∈ rest.head?, accept t.kind = false) (hne : taken ++ rest ≠ []) :
    Reads (collectForm form accept) (taken ++ rest) (concat taken) rest := by
  obtain ⟨t, hfirst⟩ : ∃ t, (taken ++ rest).head? = some t := ⟨_, List.head?_eq_some_head hne⟩
  refine (reads_collect htaken hrest hfirst).bind ?_
  show Reads (if form.accepts (concat taken) then _ else _) _ _ _
  rw [if_pos hform]
  exact .pure _

/-- The kinds that a description reads as their text. -/
def isProse (kind : Kind) : Bool := !endsDescription false kind && kind ≠ .leftBrace

theorem reads_inlineTagHere {inner : Reading Prose} {kind : Kind} (h : kind ≠ .leftBrace) :
    Reads (inlineTagHere inner kind) tokens none tokens := by
  rw [inlineTagHere, if_neg h]
  exact .pure _

theorem foldl_prose (taken : List Token) (prose : Prose) :
    taken.foldl (fun (prose : Prose) t => (prose.1 ++ t.text, prose.2)) prose =
      (prose.1 ++ concat taken, prose.2) := by
  induction taken generalizing prose with
  | nil => simp
  | cons t taken ih => rw [List.foldl_cons, ih, Token.concat_cons, List.append_assoc]

/-- The rounds that read text, as many as there are tokens of it and one more. -/
theorem reads_proseRounds {inner : Reading Prose} {braced : Bool}
    (htaken : ∀ t ∈ taken, endsDescription braced t.kind = false ∧ t.kind ≠ .leftBrace)
    (hend : endsDescription braced t.kind = true) {n : Nat} (hn : taken.length < n)
    (prose : Prose) :
    Reads (iterate (descriptionRound inner braced) n prose) (taken ++ t :: rest)
      (prose.1 ++ concat taken, prose.2) (t :: rest) := by
  rw [← foldl_prose taken]
  refine .iterate_fold _ id ?_ ?_ hn _
  · intro t ht b more
    apply reads_current.bind
    show Reads (if endsDescription braced t.kind then _ else _) _ _ _
    rw [if_neg (by simp [(htaken t ht).1])]
    exact (reads_inlineTagHere (htaken t ht).2).bind (reads_moveNext.bind (.pure _))
  · intro b
    apply reads_current.bind
    show Reads (if endsDescription braced t.kind then _ else _) _ _ _
    rw [if_pos hend]
    exact .pure _

theorem reads_description (htaken : ∀ t ∈ taken, isProse t.kind = true)
    (hend : endsDescription false t.kind = true) :
    Reads description (taken ++ t :: rest) (concat taken, []) (t :: rest) := by
  refine .ahead (f := fun n => descriptionBelow (n + 1) false) (.loop ?_)
  refine reads_proseRounds (fun u hu => ?_) hend (by rw [List.length_append]; omega) ([], [])
  have hprose := htaken u hu
  simp only [isProse, Bool.and_eq_true, Bool.not_eq_true', decide_eq_true_eq, ne_eq] at hprose
  exact hprose

end DocComment.Grammar
