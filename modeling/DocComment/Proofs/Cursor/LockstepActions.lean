import DocComment.Proofs.Cursor.Lockstep
import DocComment.Proofs.Grammar.Reads

/-!
# Operations on cursors in front of different endings

In front of a shared item an operation finds the same with both cursors. Beyond the shared items it
is known of each cursor what is left of its ending. A look ahead from a shared token may go as far
as the endings, and there it finds the closing delimiter of each.
-/

namespace DocComment

open Screening (Item Sheds)

namespace Reading

open Cursor (Forked Facing Looking Beyond Abreast Inside Still)

variable {α β γ δ : Type} {e e' : CommentEnd}

section Fetch

variable {items rest : List Item} {c c' : Cursor} {passed front lead lead' back back' : List Token}
  {t : Token} {cause : Cause}

theorem still_forked {d d' : Cursor} (h : Forked e e' items c c') (hstill : Still c d)
    (hstill' : Still c' d') (hview : d.view = c.view) (hview' : d'.view = c'.view) :
    Forked e e' items d d' :=
  ⟨hview.trans h.view, hview'.trans h.view', hstill.peek ▸ h.peek, hstill'.peek ▸ h.peek'⟩

theorem fetch_shared (h : Forked e e' items c c')
    (hitems : items = passed.map .token ++ .token t :: rest) :
    ∃ d d', Cursor.fetch passed.length c = .ok (some t) d ∧
      Cursor.fetch passed.length c' = .ok (some t) d' ∧ Still c d ∧ Still c' d' ∧
      Forked e e' items d d' := by
  have hview : c.view = passed.map .token ++ .token t :: (rest ++ e.tokens.map .token) := by
    simp [h.view, hitems]
  have hview' : c'.view = passed.map .token ++ .token t :: (rest ++ e'.tokens.map .token) := by
    simp [h.view', hitems]
  obtain ⟨d, hfetch, hstill, hd⟩ := Cursor.fetch_of_token hview
  obtain ⟨d', hfetch', hstill', hd'⟩ := Cursor.fetch_of_token hview'
  exact ⟨d, d', hfetch, hfetch', hstill, hstill', still_forked h hstill hstill' hd hd'⟩

theorem fetch_fault (h : Forked e e' items c c')
    (hitems : items = passed.map .token ++ .fault cause :: rest) :
    ∃ x x' d d', Cursor.fetch passed.length c = .error (.syntaxError x) d ∧
      Cursor.fetch passed.length c' = .error (.syntaxError x') d' ∧ x.cause = cause ∧
      x'.cause = cause ∧ Forked e e' (passed.map .token ++ rest) d d' := by
  have hview : c.view = passed.map .token ++ .fault cause :: (rest ++ e.tokens.map .token) := by
    simp [h.view, hitems]
  have hview' : c'.view = passed.map .token ++ .fault cause :: (rest ++ e'.tokens.map .token) := by
    simp [h.view', hitems]
  obtain ⟨d, hfetch, hstill, hd⟩ := Cursor.fetch_of_fault hview
  obtain ⟨d', hfetch', hstill', hd'⟩ := Cursor.fetch_of_fault hview'
  refine ⟨_, _, d, d', hfetch, hfetch', rfl, rfl, ?_, ?_, hstill.peek ▸ h.peek,
    hstill'.peek ▸ h.peek'⟩
  · rw [hd, List.append_assoc]
  · rw [hd', List.append_assoc]

theorem fetch_back (h : Forked e e' items c c') (hitems : items = front.map .token)
    (hlead : e.tokens = lead ++ back) (hlead' : e'.tokens = lead' ++ back') :
    ∃ d d', Cursor.fetch (front ++ lead).length c = .ok back.head? d ∧
      Cursor.fetch (front ++ lead').length c' = .ok back'.head? d' ∧ Still c d ∧ Still c' d' ∧
      Forked e e' items d d' := by
  have hview : c.view = (front ++ lead ++ back).map .token := by simp [h.view, hitems, hlead]
  have hview' : c'.view = (front ++ lead' ++ back').map .token := by simp [h.view', hitems, hlead']
  obtain ⟨d, hfetch, hstill, hd, -⟩ := Cursor.fetch_of_view hview (front ++ lead).length
  obtain ⟨d', hfetch', hstill', hd', -⟩ := Cursor.fetch_of_view hview' (front ++ lead').length
  rw [Grammar.getElem?_passed] at hfetch hfetch'
  exact ⟨d, d', hfetch, hfetch', hstill, hstill',
    still_forked h hstill hstill' (hd.trans hview.symm) (hd'.trans hview'.symm)⟩

end Fetch

namespace Lockstep

variable {T : List Token → List Token → Prop} {S : γ → δ → List Item → Cursor → Cursor → Prop}
  {f : Option Token → Reading γ} {f' : Option Token → Reading δ} {t : Token}
  {back back' rest rest' : List Token}

theorem current_facing_bind
    (h : ∀ t, Lockstep e e' (Facing e e' (.token t)) S (f (some t)) (f' (some t)))
    (item : Item) :
    Lockstep e e' (Facing e e' item) S (Cursor.current >>= f) (Cursor.current >>= f') := by
  intro items c c' hc
  obtain ⟨passed, rest, hitems, hplace, hplace'⟩ := hc.places
  have hcurrent : Cursor.current c = Cursor.fetch passed.length c := by
    rw [← hplace]
    rfl
  have hcurrent' : Cursor.current c' = Cursor.fetch passed.length c' := by
    rw [← hplace']
    rfl
  cases item with
  | token t =>
    obtain ⟨d, d', hfetch, hfetch', hstill, hstill', hd⟩ := fetch_shared hc.toForked hitems
    rw [bind_of_ok (hcurrent.trans hfetch), bind_of_ok (hcurrent'.trans hfetch')]
    exact h t items d d' ⟨hd, passed, rest, hitems, hstill.position.trans hplace,
      hstill'.position.trans hplace'⟩
  | fault cause =>
    obtain ⟨x, x', d, d', hfetch, hfetch', hx, hx', hd⟩ := fetch_fault hc.toForked hitems
    rw [bind_of_error (hcurrent.trans hfetch), bind_of_error (hcurrent'.trans hfetch')]
    exact .refused (hitems ▸ .fault passed cause rest) hd (by rw [hx, hx']; exact .refl cause)

theorem current_beyond_bind
    (h : Lockstep e e' (Beyond e e' back back') S (f back.head?) (f' back'.head?)) :
    Lockstep e e' (Beyond e e' back back') S (Cursor.current >>= f) (Cursor.current >>= f') := by
  intro items c c' hc
  obtain ⟨front, lead, lead', hitems, hlead, hlead', hplace, hplace'⟩ := hc.places
  obtain ⟨d, d', hfetch, hfetch', hstill, hstill', hd⟩ := fetch_back hc.toForked hitems hlead hlead'
  rw [← hplace] at hfetch
  rw [← hplace'] at hfetch'
  have hcurrent : Cursor.current c = .ok back.head? d := hfetch
  have hcurrent' : Cursor.current c' = .ok back'.head? d' := hfetch'
  rw [bind_of_ok hcurrent, bind_of_ok hcurrent']
  exact h items d d' ⟨hd, front, lead, lead', hitems, hlead, hlead', hstill.position.trans hplace,
    hstill'.position.trans hplace'⟩

theorem current_bind
    (hshared : ∀ t, Lockstep e e' (Facing e e' (.token t)) S (f (some t)) (f' (some t)))
    (hback : ∀ back back', T back back' →
      Lockstep e e' (Beyond e e' back back') S (f back.head?) (f' back'.head?)) :
    Lockstep e e' (Abreast e e' T) S (Cursor.current >>= f) (Cursor.current >>= f') :=
  either (choose fun item => current_facing_bind hshared item) <| choose fun back =>
    choose fun back' =>
    assume fun hT => current_beyond_bind (hback back back' hT)

/-- A reading that does not distinguish the blanks in front of the closing delimiter from the
delimiter. -/
theorem current_inside_bind
    (hshared : ∀ t, Lockstep e e' (Facing e e' (.token t)) S (f (some t)) (f' (some t)))
    (hend : ∀ t t' back back', e.BothOpen e' back back' → t.Trailing → t'.Trailing →
      Lockstep e e' (Beyond e e' back back') S (f (some t)) (f' (some t'))) :
    Lockstep e e' (Inside e e') S (Cursor.current >>= f) (Cursor.current >>= f') := by
  refine current_bind hshared fun back back' hopen => ?_
  obtain ⟨t, rest, hback, ht⟩ := hopen.1.head
  obtain ⟨t', rest', hback', ht'⟩ := hopen.2.head
  have hf := hend t t' back back' hopen ht ht'
  rw [hback, hback'] at hf ⊢
  exact hf

/-- Two readings that only move the places of the cursors. -/
theorem change {P R : List Item → Cursor → Cursor → Prop} {g g' : Cursor → Cursor}
    (h : ∀ items c c', P items c c' → R items (g c) (g' c')) :
    Lockstep e e' P (fun _ _ => R) (modify g) (modify g') :=
  fun items c c' hc => .answered (.refl items) (h items c c' hc)

/-- Behind a shared token there is another item, or the whole of the endings. -/
theorem moveNext (hT : T e.tokens e'.tokens) :
    Lockstep e e' (Facing e e' (.token t))
      (fun _ _ => Abreast e e' T) Cursor.moveNext Cursor.moveNext := by
  refine current_facing_bind (fun t => ?_) _
  rw [Option.isSome_some, if_pos rfl]
  have hposition :
      Lockstep e e' (Facing e e' (.token t)) (fun _ _ items c c' => Forked e e' items c c' ∧
      ∃ (passed : List Token) (rest : List Item), items = passed.map .token ++ rest ∧
        c.position = passed.length ∧ c'.position = passed.length)
      (modify fun c : Cursor => { c with position := c.position + 1 })
      (modify fun c : Cursor => { c with position := c.position + 1 }) := by
    refine change fun items c c' hc => ?_
    obtain ⟨passed, rest, hitems, hplace, hplace'⟩ := hc.places
    refine ⟨⟨hc.view, hc.view', hc.peek, hc.peek'⟩, passed ++ [t], rest, by simp [hitems], ?_, ?_⟩
    · simp [hplace]
    · simp [hplace']
  refine hposition.bind fun _ _ => Lockstep.bind (Q := fun _ _ => Abreast e e' T) ?_ fun _ _ => ?_
  · refine change fun items c c' hc => ?_
    obtain ⟨hforked, passed, rest, hitems, hplace, hplace'⟩ := hc
    have hpeek : Forked e e' items { c with peek := c.position } { c' with peek := c'.position } :=
      hforked.at (by omega) (by omega)
    exact Cursor.abreast_of_front hT hpeek hitems hplace hplace'
  -- a move ends with a look at the next item, which may be the fault that both moves are refused
  -- for
  · refine current_bind (fun t => .pure fun _ _ _ hc => .inl ⟨_, hc⟩) fun back back' hback => ?_
    exact .pure fun _ _ _ hc => .inr ⟨back, back', hback, hc⟩

/-- Two readings that go on behind a shared token. -/
theorem moveNext_bind {f : Bool → Reading γ} {f' : Bool → Reading δ} (hT : T e.tokens e'.tokens)
    (h : ∀ more more', Lockstep e e' (Abreast e e' T) S (f more) (f' more')) :
    Lockstep e e' (Facing e e' (.token t)) S (Cursor.moveNext >>= f) (Cursor.moveNext >>= f') :=
  (moveNext hT).bind h

theorem moveNext_inside_bind {f : Bool → Reading γ} {f' : Bool → Reading δ}
    (h : ∀ more more', Lockstep e e' (Inside e e') S (f more) (f' more')) :
    Lockstep e e' (Facing e e' (.token t)) S (Cursor.moveNext >>= f) (Cursor.moveNext >>= f') :=
  moveNext_bind ⟨e.open_tokens, e'.open_tokens⟩ h

/-- Two readings that go by whether there is a token of another kind than blanks and the closing
delimiter. -/
theorem isAt_bind {kind : Kind} {f : Bool → Reading γ} {f' : Bool → Reading δ}
    (hblank : kind ≠ .whitespace) (houtro : kind ≠ .outro)
    (htrue : ∀ t, t.kind = kind → Lockstep e e' (Facing e e' (.token t)) S (f true) (f' true))
    (hfalse : Lockstep e e' (Inside e e') S (f false) (f' false)) :
    Lockstep e e' (Inside e e') S (Cursor.isAt kind >>= f) (Cursor.isAt kind >>= f') := by
  have hend : ∀ t : Token, t.Trailing → t.kind ≠ kind := by
    rintro t ht rfl
    exact ht.kind.elim hblank houtro
  have hisAt : Lockstep e e' (Inside e e') (fun found found' items c c' => found = found' ∧
      (found = true → ∃ t, t.kind = kind ∧ Facing e e' (.token t) items c c') ∧
      (found = false → Inside e e' items c c')) (Cursor.isAt kind) (Cursor.isAt kind) := by
    refine current_inside_bind (fun t => .pure fun items c c' hc => ?_)
      fun t t' back back' hopen ht ht' =>
      .pure fun items c c' hc => ?_
    · refine ⟨rfl, fun h => ⟨t, by simpa using h, hc⟩, fun _ => .inl ⟨_, hc⟩⟩
    · have hfound : (some t).any (decide <| ·.kind = kind) = false := by simpa using hend t ht
      have hfound' : (some t').any (decide <| ·.kind = kind) = false := by simpa using hend t' ht'
      rw [hfound, hfound']
      exact ⟨rfl, nofun, fun _ => .inr ⟨back, back', hopen, hc⟩⟩
  refine hisAt.bind fun found found' items c c' hfound => ?_
  obtain ⟨rfl, hyes, hno⟩ := hfound
  cases found with
  | true =>
    obtain ⟨t, ht, hc⟩ := hyes rfl
    exact htrue t ht items c c' hc
  | false => exact hfalse items c c' (hno rfl)

/-! ## Beyond the shared items -/

/-- A rule that reads some of what is left of an ending stops in front of the rest. -/
theorem reads_back {e : CommentEnd} {r : Reading α} {a : α} {items : List Item} {c : Cursor}
    {front lead : List Token} (hr : Grammar.Reads r back a rest)
    (hview : c.view = items ++ e.tokens.map .token)
    (hitems : items = front.map .token) (hlead : e.tokens = lead ++ back)
    (hplace : c.position = (front ++ lead).length) (hpeek : 0 ≤ c.peek) :
    ∃ taken d, back = taken ++ rest ∧ r c = .ok a d ∧ d.view = items ++ e.tokens.map .token ∧
      d.position = (front ++ (lead ++ taken)).length ∧ 0 ≤ d.peek := by
  obtain ⟨taken, hback, hgives⟩ := hr
  obtain ⟨after, hgives⟩ := hgives (front ++ lead) c.peek.toNat
  have hstands : Stands (front ++ lead ++ back) ⟨(front ++ lead).length, c.peek.toNat⟩ c :=
    ⟨by simp [hview, hitems, hlead], hplace, (Int.toNat_of_nonneg hpeek).symm⟩
  obtain ⟨d, hd, hafter⟩ := hgives c hstands
  refine ⟨taken, d, hback, hd, ?_, ?_, ?_⟩
  · rw [hafter.view, ← hstands.view, hview]
  · rw [hafter.position, List.append_assoc]
  · rw [hafter.peek]
    exact Int.natCast_nonneg after

/-- What two rules read of the endings, each by itself. -/
theorem of_reads {r : Reading α} {r' : Reading β} {a : α} {b : β} (hr : Grammar.Reads r back a rest)
    (hr' : Grammar.Reads r' back' b rest') :
    Lockstep e e' (Beyond e e' back back')
      (fun x y items c c' => x = a ∧ y = b ∧ Beyond e e' rest rest' items c c') r r' := by
  intro items c c' hc
  obtain ⟨front, lead, lead', hitems, hlead, hlead', hplace, hplace'⟩ := hc.places
  obtain ⟨taken, d, rfl, hd, hview, hposition, hpeek⟩ :=
    reads_back hr hc.view hitems hlead hplace hc.peek
  obtain ⟨taken', d', rfl, hd', hview', hposition', hpeek'⟩ :=
    reads_back hr' hc.view' hitems hlead' hplace' hc.peek'
  rw [hd, hd']
  refine .answered (.refl items) ⟨rfl, rfl, ⟨hview, hview', hpeek, hpeek'⟩, front, lead ++ taken,
    lead' ++ taken', hitems, ?_, ?_, hposition, hposition'⟩
  · rw [hlead, List.append_assoc]
  · rw [hlead', List.append_assoc]

/-- More rounds change nothing where there were enough. -/
theorem iterate_add {round : γ → Reading (Round γ α)} (n m : Nat) (b : γ) (c : Cursor) :
    (∃ d, Reading.iterate round n b c = .error .stalled d) ∨
      Reading.iterate round n b c = Reading.iterate round (n + m) b c := by
  induction n generalizing b c with
  | zero => exact .inl ⟨c, rfl⟩
  | succ n ih =>
    rw [Nat.add_right_comm]
    cases h : round b c with
    | ok outcome d =>
      cases outcome with
      | again next =>
        rw [iterate_again h, iterate_again h]
        exact ih next d
      | done a =>
        rw [iterate_done h, iterate_done h]
        exact .inr rfl
    | error failure d =>
      rw [iterate_error h, iterate_error h]
      exact .inr rfl

/-- What two loops read of the endings, each by itself with as many rounds as it needs. -/
theorem iterate_of_reads {round : γ → Reading (Round γ α)} {round' : γ → Reading (Round γ β)}
    {a : α} {b : β} {s : γ} (enough : Nat)
    (hr : ∀ n, enough ≤ n → Grammar.Reads (Reading.iterate round n s) back a rest)
    (hr' : ∀ n, enough ≤ n → Grammar.Reads (Reading.iterate round' n s) back' b rest')
    (n n' : Nat) :
    Lockstep e e' (Beyond e e' back back')
      (fun x y items c c' => x = a ∧ y = b ∧ Beyond e e' rest rest' items c c')
      (Reading.iterate round n s) (Reading.iterate round' n' s) := by
  intro items c c' hc
  have hended :=
    of_reads (hr (n + enough) (Nat.le_add_left _ _)) (hr' (n' + enough) (Nat.le_add_left _ _))
      items c c' hc
  rcases iterate_add n enough s c with ⟨d, hd⟩ | hsame
  · rw [hd]
    exact .stalled
  rcases iterate_add n' enough s c' with ⟨d', hd'⟩ | hsame'
  · rw [hd']
    exact .stalled'
  · rw [hsame, hsame']
    exact hended

/-! ## Looking ahead -/

section Peek

variable {u : Token} {passed : List Token} {item : Item} {rest : List Item}

/-- What is found where the cursors look, while there is a shared item. -/
theorem fetch_looking {place place' : Int} (hplace : place = passed.length)
    (hplace' : place' = passed.length) :
    Lockstep e e' (Looking e e' t passed (item :: rest))
      (fun found found' items c c' => ∃ v, item = .token v ∧ found = some v ∧ found' = some v ∧
        Looking e e' t passed (item :: rest) items c c')
      (Cursor.fetch place) (Cursor.fetch place') := by
  subst hplace hplace'
  intro items c c' hc
  cases item with
  | token v =>
    obtain ⟨d, d', hfetch, hfetch', hstill, hstill', hd⟩ := fetch_shared hc.toForked hc.split
    rw [hfetch, hfetch']
    obtain ⟨front, more, hitems, hat, hat'⟩ := hc.places
    refine .answered (.refl items)
      ⟨v, rfl, rfl, rfl, ⟨⟨hd, front, more, hitems, ?_, ?_⟩, hc.split, ?_, ?_⟩⟩
    · rw [hstill.position, hat]
    · rw [hstill'.position, hat']
    · rw [hstill.peek, hc.looks]
    · rw [hstill'.peek, hc.looks']
  | fault cause =>
    obtain ⟨x, x', d, d', hfetch, hfetch', hx, hx', hd⟩ := fetch_fault hc.toForked hc.split
    rw [hfetch, hfetch']
    exact .refused (hc.split ▸ .fault passed cause rest) hd (by rw [hx, hx']; exact .refl cause)

/-- The cursors look at the next item and find a token, while there is a shared item to find. -/
theorem peekNext :
    Lockstep e e' (Looking e e' t passed (.token u :: item :: rest))
      (fun found found' items c c' => ∃ v, item = .token v ∧ found = some v ∧ found' = some v ∧
        Looking e e' t (passed ++ [u]) (item :: rest) items c c') Cursor.peekNext
          Cursor.peekNext := by
  have hmove : Lockstep e e' (Looking e e' t passed (.token u :: item :: rest))
      (fun _ _ => Looking e e' t (passed ++ [u]) (item :: rest))
      (modify fun c : Cursor => { c with peek := c.peek + 1 })
      (modify fun c : Cursor => { c with peek := c.peek + 1 }) := by
    refine change fun items c c' hc => ?_
    have hlooks := hc.looks
    have hlooks' := hc.looks'
    obtain ⟨front, more, hitems, hat, hat'⟩ := hc.places
    refine ⟨⟨⟨hc.view, hc.view', ?_, ?_⟩, front, more, hitems, hat, hat'⟩,
      by simp [hc.split], ?_, ?_⟩
    · show 0 ≤ c.peek + 1
      omega
    · show 0 ≤ c'.peek + 1
      omega
    · simp [hlooks]
    · simp [hlooks']
  refine get fun _ _ _ hc =>
    (fetch_looking hc.looks hc.looks').bind fun found found' items c c' hfound => ?_
  obtain ⟨v, -, rfl, rfl, hc⟩ := hfound
  rw [Option.isSome_some, if_pos rfl]
  exact hmove.bind (fun _ _ => get fun _ _ _ hc => fetch_looking hc.looks hc.looks') items c c' hc

/-- Behind the last shared token a look ahead goes past the blanks and finds the
closing delimiter. -/
theorem gives_peekPast_closing (e : CommentEnd) (passed : List Token) (u : Token)
    (place : Nat) {n : Nat} (hn : e.tokens.length + 1 ≤ n) :
    ∃ after, Gives (Reading.iterate (Cursor.peekPastRound (· = .whitespace)) (n + 1) ())
      (passed ++ u :: e.tokens) ⟨place, passed.length⟩ (some e.closing) ⟨place, after⟩ := by
  have hlength : (passed ++ u :: e.tokens).length = passed.length + (e.tokens.length + 1) := by
    rw [List.length_append, List.length_cons]
  have henough : (passed ++ u :: e.tokens).length - passed.length ≤ n := by omega
  have hgives : Gives _ (passed ++ u :: e.tokens) ⟨place, passed.length⟩ _ _ :=
    Cursor.gives_iterate_peekPast (· = .whitespace) n _ henough
  have hnext : Places.next (passed ++ u :: e.tokens) passed.length = passed.length + 1 :=
    if_pos (by rw [hlength]; omega)
  have hpassing : Places.passing (passed ++ u :: e.tokens) (· = .whitespace) (passed.length + 1) =
      e.blanks.length := by
    have hdrop : (passed ++ u :: e.tokens).drop (passed.length + 1) = e.blanks ++ e.close := by
      rw [List.append_cons, List.drop_left' (by simp)]
      rfl
    rw [Places.passing, hdrop, List.takeWhile_append_of_pos fun t ht => by simp [(e.blank t ht).1],
      CommentEnd.close, List.takeWhile_cons_of_neg (by simp [e.closes]), List.append_nil]
  have hfound : (passed ++ u :: e.tokens)[passed.length + 1 + e.blanks.length]? =
      some e.closing := by
    rw [List.append_cons, List.getElem?_append_right (by simp)]
    simp [CommentEnd.tokens, CommentEnd.close]
  rw [Places.lookPast] at hgives
  dsimp only at hgives
  rw [hnext, hpassing, hfound] at hgives
  exact ⟨_, hgives⟩

/-- Behind the last shared token both cursors find their closing delimiters. -/
theorem peekPast_last (n n' : Nat) :
    Lockstep e e' (Looking e e' t passed [.token u])
      (fun found found' items c c' => found = some e.closing ∧ found' = some e'.closing ∧
        Facing e e' (.token t) items c c')
      (Reading.iterate (Cursor.peekPastRound (· = .whitespace)) n ())
      (Reading.iterate (Cursor.peekPastRound (· = .whitespace)) n' ()) := by
  intro items c c' hc
  obtain ⟨front, more, hitems, hplace, hplace'⟩ := hc.places
  have hview : c.view = (passed ++ u :: e.tokens).map .token := by simp [hc.view, hc.split]
  have hview' : c'.view = (passed ++ u :: e'.tokens).map .token := by simp [hc.view', hc.split]
  obtain ⟨after, hgives⟩ :=
    gives_peekPast_closing e passed u front.length (n := n + (e.tokens.length + 1)) (by omega)
  obtain ⟨after', hgives'⟩ :=
    gives_peekPast_closing e' passed u front.length (n := n' + (e'.tokens.length + 1)) (by omega)
  obtain ⟨d, hd, hstands⟩ := hgives c ⟨hview, hplace, hc.looks⟩
  obtain ⟨d', hd', hstands'⟩ := hgives' c' ⟨hview', hplace', hc.looks'⟩
  have hended : Facing e e' (.token t) items d d' := by
    refine ⟨⟨?_, ?_, ?_, ?_⟩, front, more, hitems, hstands.position, hstands'.position⟩
    · rw [hstands.view, ← hview, hc.view]
    · rw [hstands'.view, ← hview', hc.view']
    · rw [hstands.peek]
      exact Int.natCast_nonneg after
    · rw [hstands'.peek]
      exact Int.natCast_nonneg after'
  rw [Nat.add_assoc] at hd hd'
  rcases iterate_add n (e.tokens.length + 1 + 1) () c with ⟨x, hx⟩ | hsame
  · rw [hx]
    exact .stalled
  rcases iterate_add n' (e'.tokens.length + 1 + 1) () c' with ⟨x', hx'⟩ | hsame'
  · rw [hx']
    exact .stalled'
  · rw [hsame, hsame', hd, hd']
    exact .answered (.refl items) ⟨rfl, rfl, hended⟩

/-- Both cursors find the same token behind blanks, or each of them its closing delimiter. -/
theorem iterate_peekPast (n n' : Nat) (passed : List Token) (u : Token) (rest : List Item) :
    Lockstep e e' (Looking e e' t passed (.token u :: rest))
      (fun found found' items c c' =>
        (∃ v v', found = some v ∧ found' = some v' ∧ v.kind = v'.kind) ∧
        Facing e e' (.token t) items c c')
      (Reading.iterate (Cursor.peekPastRound (· = .whitespace)) n ())
      (Reading.iterate (Cursor.peekPastRound (· = .whitespace)) n' ()) := by
  induction n generalizing n' passed u rest with
  | zero => exact stalled
  | succ n ih =>
    cases n' with
    | zero => exact stalled'
    | succ n' =>
      cases rest with
      | nil =>
        refine (peekPast_last (n + 1) (n' + 1)).imp fun found found' items c c' h => ?_
        obtain ⟨rfl, rfl, hc⟩ := h
        exact ⟨⟨_, _, rfl, rfl, e.closes.trans e'.closes.symm⟩, hc⟩
      | cons item rest =>
        have hround : Lockstep e e' (Looking e e' t passed (.token u :: item :: rest))
            (fun outcome outcome' items c c' => ∃ v,
              Looking e e' t (passed ++ [u]) (.token v :: rest) items c c' ∧
              ((outcome = .again () ∧ outcome' = .again ()) ∨
                (outcome = .done (some v) ∧ outcome' = .done (some v))))
            (Cursor.peekPastRound (· = .whitespace) ())
            (Cursor.peekPastRound (· = .whitespace) ()) := by
          refine peekNext.bind fun found found' items c c' h => ?_
          obtain ⟨v, rfl, rfl, rfl, hc⟩ := h
          refine .answered (.refl items) ⟨v, hc, ?_⟩
          split
          · exact .inl ⟨rfl, rfl⟩
          · exact .inr ⟨rfl, rfl⟩
        refine hround.bind fun outcome outcome' items c c' h => ?_
        obtain ⟨v, hc, ⟨rfl, rfl⟩ | ⟨rfl, rfl⟩⟩ := h
        · exact ih n' (passed ++ [u]) v rest items c c' hc
        · exact .answered (.refl items) ⟨⟨v, v, rfl, rfl, rfl⟩, hc.toFacing⟩

theorem peekPast (passed : List Token) (rest : List Item) :
    Lockstep e e' (Looking e e' t passed (.token u :: rest))
      (fun found found' items c c' =>
        (∃ v v', found = some v ∧ found' = some v' ∧ v.kind = v'.kind) ∧
        Facing e e' (.token t) items c c')
      (Cursor.peekPast (· = .whitespace)) (Cursor.peekPast (· = .whitespace)) :=
  get fun _ _ _ _ => iterate_peekPast _ _ passed u rest

/-- Two readings that go by the kind of the next token that is not blank. -/
theorem peekPast_bind
    (h : ∀ v v', v.kind = v'.kind →
      Lockstep e e' (Facing e e' (.token t)) S (f (some v)) (f' (some v'))) :
    Lockstep e e' (Facing e e' (.token t)) S
      (Cursor.peekReset >>= fun _ => Cursor.peekPast (· = .whitespace) >>= f)
      (Cursor.peekReset >>= fun _ => Cursor.peekPast (· = .whitespace) >>= f') := by
  have hreset : Lockstep e e' (Facing e e' (.token t))
      (fun _ _ items c c' => ∃ passed rest, Looking e e' t passed (.token t :: rest) items c c')
      Cursor.peekReset Cursor.peekReset := by
    intro items c c' hc
    have hposition := hc.position
    obtain ⟨passed, rest, hitems, hplace, hplace'⟩ := hc.places
    refine .answered (.refl items)
      ⟨passed, rest, ⟨⟨⟨hc.view, hc.view', hposition.1, hposition.2⟩, passed, rest, hitems,
      hplace, hplace'⟩, hitems, hplace, hplace'⟩⟩
  refine hreset.bind fun _ _ items c c' hc => ?_
  obtain ⟨passed, rest, hc⟩ := hc
  refine (peekPast passed rest).bind (fun found found' items c c' hfound => ?_) items c c' hc
  obtain ⟨⟨v, v', rfl, rfl, hkind⟩, hc⟩ := hfound
  exact h v v' hkind items c c' hc

end Peek

end Lockstep

end Reading

end DocComment
