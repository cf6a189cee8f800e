import DocComment.Grammar.Comment
import DocComment.Proofs.Cursor.LockstepActions
import DocComment.Proofs.Grammar.Enclosed

/-!
# The rules in front of different endings

Almost every rule does the same in front of two endings that differ in their blanks: it stops in
front of the blanks as it does in front of the closing delimiter, or it goes past both and is
refused at the end. The texts of a name and of a description take the blanks with them, and lose
them again where they are stripped.
-/

namespace DocComment

open Screening (Item)
open Cursor (Forked Facing Beyond Abreast Inside Settled restores_inside restores_settled)

namespace Reading

/-- While the closing delimiter is ahead, the two readings answer the same, and it is
still ahead. -/
def InStep {α : Type} (e e' : CommentEnd) (r r' : Reading α) : Prop :=
  Lockstep e e' (Inside e e') (Agree (Inside e e')) r r'

end Reading

namespace Grammar

open Reading (Lockstep InStep Agree RoundStep iterate)
open Token (concat)

variable {e e' : CommentEnd} {α : Type}

section States

variable {items : List Item} {c c' : Cursor} {T : List Token → List Token → Prop} {t : Token}
  {back back' : List Token}

theorem facing_inside (h : Facing e e' (.token t) items c c') :
    Inside e e' items c c' := .inl ⟨_, h⟩

theorem beyond_inside (hopen : e.BothOpen e' back back') (h : Beyond e e' back back' items c c') :
    Inside e e' items c c' := .inr ⟨back, back', hopen, h⟩

theorem abreast_forked (h : Abreast e e' T items c c') : Forked e e' items c c' := by
  rcases h with ⟨item, h⟩ | ⟨back, back', -, h⟩
  · exact h.toForked
  · exact h.toForked

end States

theorem ne_of_trailing {kind : Kind} {t : Token} (h : t.Trailing) (hblank : kind ≠ .whitespace)
    (houtro : kind ≠ .outro) : t.kind ≠ kind := by
  rintro rfl
  exact h.kind.elim hblank houtro

/-- Neither a blank nor a closing delimiter is the word of a type. -/
theorem text_ne_of_trailing {t : Token} (h : t.Trailing) : t.text ≠ "this".toList := by
  rcases h with ⟨-, h⟩ | ⟨-, h⟩
  · intro htext
    exact absurd (h 't' (by simp [htext])) (by decide)
  · rw [h]
    decide

/-! ## What rules are made of -/

theorem inStep_refuse_token {P : List Item → Cursor → Cursor → Prop}
    {Q : α → α → List Item → Cursor → Cursor → Prop} (t t' : Token)
    (hP : ∀ items c c', P items c c' → Forked e e' items c c') :
    Lockstep e e' P Q (Reading.refuse (.unexpectedToken t))
      (Reading.refuse (.unexpectedToken t')) :=
  .refuse hP (.unexpectedToken t t')

theorem inStep_expect {kind : Kind} (hblank : kind ≠ .whitespace) (houtro : kind ≠ .outro) :
    InStep e e' (expect kind) (expect kind) := by
  refine Lockstep.current_inside_bind (fun t => ?_) fun t t' back back' _ ht ht' => ?_
  · dsimp only
    split
    · exact Lockstep.moveNext_inside_bind fun _ _ => .pure fun _ _ _ h => ⟨rfl, h⟩
    · exact inStep_refuse_token t t fun _ _ _ h => h.toForked
  · dsimp only
    rw [if_neg (ne_of_trailing ht hblank houtro), if_neg (ne_of_trailing ht' hblank houtro)]
    exact inStep_refuse_token t t' fun _ _ _ h => h.toForked

theorem inStep_pass {kind : Kind} (hblank : kind ≠ .whitespace) (houtro : kind ≠ .outro) :
    InStep e e' (pass kind) (pass kind) :=
  (inStep_expect hblank houtro).bind_eq fun _ => .pure fun _ _ _ h => ⟨rfl, h⟩

/-- The kind of the shared token in front of both cursors. -/
theorem isAt_facing (kind : Kind) (item : Item) :
    Lockstep e e' (Facing e e' item)
      (fun found found' items c c' => ∃ t, found = decide (t.kind = kind) ∧
        found' = decide (t.kind = kind) ∧ Facing e e' (.token t) items c c')
      (Cursor.isAt kind) (Cursor.isAt kind) := by
  refine Lockstep.current_facing_bind (fun t => ?_) item
  exact .pure fun _ _ _ h => ⟨t, rfl, rfl, h⟩

/-- The blanks in front of the closing delimiter are passed, if there are rounds enough. -/
theorem reads_open_blanks {front blanks : List Token} {n : Nat}
    (hblanks : e.blanks = front ++ blanks) (hn : blanks.length < n) :
    Reads (iterate (Cursor.skipWhileRound .whitespace) n ()) (blanks ++ e.close) () e.close := by
  refine reads_blanks (fun t ht => (e.blank t (by simp [hblanks, ht])).1) (fun t ht => ?_) hn
  obtain rfl := Option.some.inj ht
  rw [e.closes]
  decide

/-- Both cursors pass the blanks, however many there are, and stop in front of something else. -/
theorem lockstep_skipBlanks :
    Lockstep e e' (Inside e e') (fun _ _ => Settled e e') skipBlanks skipBlanks := by
  refine .get fun _ _ _ _ =>
    Lockstep.iterate_until (fun _ _ _ h => h) (fun _ => ?_) (fun n n' _ => ?_) _ _ ()
  · refine .choose fun item => (isAt_facing .whitespace item).bind fun _ _ => ?_
    refine .choose fun t => .assume fun hfound => .assume fun hfound' => ?_
    subst hfound hfound'
    split
    · exact Lockstep.moveNext_inside_bind fun _ _ => .pure fun _ _ _ h => ⟨rfl, h⟩
    · exact .pure fun _ _ _ h => .inl ⟨t, h⟩
  · refine .choose fun back => .choose fun back' => .assume fun hopen => ?_
    obtain ⟨⟨front, blanks, hblanks, rfl⟩, front', blanks', hblanks', rfl⟩ := hopen
    exact (Lockstep.iterate_of_reads (blanks.length + blanks'.length + 1)
      (fun n hn => reads_open_blanks hblanks (by omega))
        (fun n hn => reads_open_blanks hblanks' (by omega)) n n').imp
      fun _ _ _ _ _ h => .inr h.2.2

theorem inStep_skipBlanks : InStep e e' skipBlanks skipBlanks :=
  lockstep_skipBlanks.imp fun _ _ _ _ _ h => ⟨rfl, h.inside⟩

theorem lockstep_require {P : List Item → Cursor → Cursor → Prop}
    (hP : ∀ items c c', P items c c' → Forked e e' items c c') (form : Form) (text : Text)
    (offset offset' : Nat) :
    Lockstep e e' P (Agree P) (require form text offset) (require form text offset') := by
  unfold require
  split
  · exact .pure fun _ _ _ h => ⟨rfl, h⟩
  · exact .refuse hP (.malformed form text text offset offset')

/-- A rule that is tried before another, while the closing delimiter is ahead. -/
theorem inStep_tryElse {first first' second second' : Reading α} (hfirst : InStep e e' first first')
    (hsecond : InStep e e' second second') :
    InStep e e' (tryElse first second) (tryElse first' second') :=
  .tryElse restores_inside hfirst hsecond

/-! ## Collected texts -/

section Collect

variable {accept : Kind → Bool} {T : List Token → List Token → Prop}

/-- The texts that two readings collected: the same one in front of a shared token, or one that goes
on with what is accepted of each ending. -/
def Collected (accept : Kind → Bool) (e e' : CommentEnd) (T : List Token → List Token → Prop)
    (text text' : Text) (items : List Item) (c c' : Cursor) : Prop :=
  (text = text' ∧ ∃ t, accept t.kind = false ∧ Facing e e' (.token t) items c c') ∨
    ∃ start back back', T back back' ∧ text = start ++ concat (back.takeWhile (accept ·.kind)) ∧
      text' = start ++ concat (back'.takeWhile (accept ·.kind)) ∧
      Beyond e e' (back.dropWhile (accept ·.kind)) (back'.dropWhile (accept ·.kind)) items c c'

/-- All that is accepted is collected, if there are rounds enough. -/
theorem reads_collected (accept : Kind → Bool) (text : Text) {back : List Token} {n : Nat}
    (hn : back.length < n) :
    Reads (iterate (collectRound accept) n text) back
      (text ++ concat (back.takeWhile (accept ·.kind))) (back.dropWhile (accept ·.kind)) := by
  obtain ⟨taken, left, rfl, htake, htaken, hstop⟩ := split_run (accept ·.kind) back
  have hdrop := List.takeWhile_append_dropWhile (p := (accept ·.kind)) (l := taken ++ left)
  rw [htake] at hdrop
  rw [htake, List.append_cancel_left hdrop]
  rw [List.length_append] at hn
  exact reads_accepted htaken hstop (by omega) text

theorem lockstep_collect (accept : Kind → Bool) (hT : T e.tokens e'.tokens) :
    Lockstep e e' (Abreast e e' T) (fun a b => Collected accept e e' T a.1 b.1) (collect accept)
      (collect accept) := by
  have hstart :
      Lockstep e e' (Abreast e e' T) (fun _ _ => Abreast e e' T) currentOffset currentOffset := by
    refine .get fun _ _ _ _ => Lockstep.current_bind (fun t => ?_) fun back back' hback => ?_
    · exact .pure fun _ _ _ h => .inl ⟨_, h⟩
    · exact .pure fun _ _ _ h => .inr ⟨back, back', hback, h⟩
  refine hstart.bind fun _ _ => Lockstep.bind (Q := Collected accept e e' T) ?_ fun _ _ =>
    .pure fun _ _ _ h => h
  refine .get fun _ _ _ _ =>
    Lockstep.iterate_until (fun _ _ _ h => h) (fun text => ?_) (fun n n' text => ?_) _ _ []
  · refine .choose <| Lockstep.current_facing_bind fun t => ?_
    dsimp only
    split
    case isTrue => exact Lockstep.moveNext_bind hT fun _ _ => .pure fun _ _ _ h => ⟨rfl, h⟩
    case isFalse hstop => exact .pure fun _ _ _ h => .inl ⟨rfl, t, by simpa using hstop, h⟩
  · refine .choose fun back => .choose fun back' => .assume fun hback => ?_
    refine (Lockstep.iterate_of_reads (back.length + back'.length + 1)
      (fun n hn => reads_collected accept text (by omega))
        (fun n hn => reads_collected accept text (by omega))
      n n').imp fun _ _ _ _ _ h => ?_
    obtain ⟨rfl, rfl, h⟩ := h
    exact .inr ⟨text, back, back', hback, rfl, rfl, h⟩

/-- A text that ends at blanks and at the closing delimiter is the same in front of both endings. -/
theorem inStep_collect (hblank : accept .whitespace = false) (houtro : accept .outro = false) :
    Lockstep e e' (Inside e e') (fun a b items c c' => a.1 = b.1 ∧ Inside e e' items c c')
      (collect accept) (collect accept) := by
  refine (lockstep_collect accept ⟨e.open_tokens, e'.open_tokens⟩).imp fun a b items c c' h => ?_
  rcases h with ⟨htext, t, -, h⟩ | ⟨start, back, back', hopen, htext, htext', h⟩
  · exact ⟨htext, facing_inside h⟩
  · obtain ⟨hnone, hleft⟩ := hopen.1.takes_nothing hblank houtro
    obtain ⟨hnone', hleft'⟩ := hopen.2.takes_nothing hblank houtro
    rw [hnone] at htext
    rw [hnone'] at htext'
    rw [hleft, hleft'] at h
    exact ⟨htext.trans htext'.symm, beyond_inside hopen h⟩

/-- A text that goes past blanks, but not past the closing delimiter, differs in the blanks at its
end. -/
theorem lockstep_collect_name (hblank : accept .whitespace = true)
    (houtro : accept .outro = false) :
    Lockstep e e' (Inside e e')
      (fun a b items c c' => Text.strip a.1 = Text.strip b.1 ∧ Inside e e' items c c')
      (collect accept) (collect accept) := by
  refine (lockstep_collect accept ⟨e.open_tokens, e'.open_tokens⟩).imp fun a b items c c' h => ?_
  rcases h with ⟨htext, t, -, h⟩ | ⟨start, back, back', hopen, htext, htext', h⟩
  · exact ⟨by rw [htext], facing_inside h⟩
  · obtain ⟨hblanks, hleft⟩ := hopen.1.takes_blanks hblank houtro
    obtain ⟨hblanks', hleft'⟩ := hopen.2.takes_blanks hblank houtro
    rw [hleft, hleft'] at h
    rw [htext, htext', Text.strip_append_blanks hblanks, Text.strip_append_blanks hblanks']
    exact ⟨rfl, beyond_inside ⟨e.open_close, e'.open_close⟩ h⟩

/-- A text that goes past the closing delimiter has a star in it. -/
theorem lockstep_collect_past (hblank : accept .whitespace = true) (houtro : accept .outro = true)
    (hlast : accept .endOfText = true) :
    Lockstep e e' (Inside e e') (fun a b items c c' =>
      (a.1 = b.1 ∧ ∃ t, accept t.kind = false ∧ Facing e e' (.token t) items c c') ∨
        ('*' ∈ a.1 ∧ '*' ∈ b.1 ∧ Beyond e e' [] [] items c c'))
      (collect accept) (collect accept) := by
  have hall : ∀ kind ∈ [.whitespace, .outro, .endOfText], accept kind = true := by
    simpa using ⟨hblank, houtro, hlast⟩
  refine (lockstep_collect accept ⟨e.open_tokens, e'.open_tokens⟩).imp fun a b items c c' h => ?_
  rcases h with h | ⟨start, back, back', hopen, htext, htext', h⟩
  · exact .inl h
  · obtain ⟨hstar, hleft⟩ := hopen.1.takes_all hall
    obtain ⟨hstar', hleft'⟩ := hopen.2.takes_all hall
    rw [hleft, hleft'] at h
    refine .inr ⟨?_, ?_, h⟩
    · rw [htext]
      exact List.mem_append_right _ hstar
    · rw [htext']
      exact List.mem_append_right _ hstar'

theorem inStep_collectForm (form : Form) (hblank : accept .whitespace = false)
    (houtro : accept .outro = false) :
    InStep e e' (collectForm form accept) (collectForm form accept) := by
  refine (inStep_collect hblank houtro).bind fun (text, offset) (text', offset') =>
    .assume fun htext => ?_
  obtain rfl : text = text' := htext
  exact lockstep_require (fun _ _ _ => abreast_forked) form text offset offset'

end Collect

/-! ## Names, versions and references -/

theorem inStep_className : InStep e e' className className :=
  inStep_collectForm .type (by decide) (by decide)

theorem inStep_link : InStep e e' link link := inStep_collectForm .link (by decide) (by decide)

theorem inStep_element : InStep e e' element element :=
  inStep_collectForm .element (by decide) (by decide)

theorem inStep_reference : InStep e e' reference reference :=
  inStep_tryElse inStep_link inStep_element

theorem inStep_variableName : InStep e e' variableName variableName := by
  refine (inStep_expect (by decide) (by decide)).bind_eq fun dollar => ?_
  refine (inStep_collect (by decide) (by decide)).bind fun (text, _) (text', _) =>
    .assume fun htext => ?_
  obtain rfl : text = text' := htext
  exact lockstep_require (fun _ _ _ => abreast_forked) .variable _ _ _

theorem inStep_optionalVariable : InStep e e' optionalVariable optionalVariable := by
  refine Lockstep.isAt_bind (by decide) (by decide) (fun t _ => ?_) (.pure fun _ _ _ h => ⟨rfl, h⟩)
  exact inStep_variableName.weaken fun _ _ _ => facing_inside

/-- What a version-control system writes is refused at the end of the tokens, if there is no dollar
sign. -/
theorem systemRound_refused {passed tokens : List Token} (hdollar : ∀ t ∈ tokens, t.kind ≠ .dollar)
    {c : Cursor} {peek : Nat} (hc : Stands (passed ++ tokens) ⟨passed.length, peek⟩ c) (n : Nat)
    (collected : Text) :
    (∃ d, iterate systemRound n collected c = .error .stalled d) ∨
      ∃ x d, iterate systemRound n collected c = .error (.syntaxError x) d ∧
        x.cause = .unexpectedEnd ∧ d.view = c.view ∧ 0 ≤ d.peek := by
  induction n generalizing passed tokens c peek collected with
  | zero => exact .inl ⟨c, rfl⟩
  | succ n ih =>
    cases tokens with
    | nil =>
      right
      obtain ⟨d, hcurrent, hd⟩ := Cursor.gives_current c hc
      rw [getElem?_passed] at hcurrent
      have hround : systemRound collected c = .error (.syntaxError ⟨.unexpectedEnd, d.source⟩) d :=
        Reading.bind_of_ok hcurrent
      refine ⟨_, d, Reading.iterate_error hround n, rfl, hd.view.trans hc.view.symm, ?_⟩
      rw [hd.peek]
      exact Int.natCast_nonneg peek
    | cons t tokens =>
      obtain ⟨ht, htokens⟩ := List.forall_mem_cons.mp hdollar
      have hread :
          Reads (systemRound collected) (t :: tokens) (.again (collected ++ t.text)) tokens := by
        apply reads_current.bind
        show Reads (if t.kind = .dollar then _ else _) _ _ _
        rw [if_neg ht]
        exact reads_moveNext.bind (.pure _)
      obtain ⟨taken, hsplit, hgives⟩ := hread
      obtain rfl : taken = [t] :=
        List.append_cancel_right (hsplit.symm.trans (List.singleton_append).symm)
      obtain ⟨after, hgives⟩ := hgives passed peek
      obtain ⟨d, hround, hd⟩ := hgives c hc
      rw [Reading.iterate_again hround]
      have hview : d.view = c.view := hd.view.trans hc.view.symm
      rw [List.append_cons] at hd
      rw [← hview]
      exact ih htokens hd (collected ++ t.text)

theorem inStep_system (head : Text) :
    InStep e e' (Cursor.loop systemRound head) (Cursor.loop systemRound head) := by
  refine .get fun _ _ _ _ =>
    Lockstep.iterate_until (fun _ _ _ h => h) (fun text => ?_) (fun n n' text => ?_) _ _ head
  · refine .choose <| Lockstep.current_facing_bind fun t => ?_
    dsimp only
    split
    · refine ((inStep_pass (by decide) (by decide)).weaken fun _ _ _ => facing_inside).bind_eq
        fun _ => ?_
      exact .pure fun _ _ _ h => ⟨rfl, h⟩
    · exact Lockstep.moveNext_inside_bind fun _ _ => .pure fun _ _ _ h => ⟨rfl, h⟩
  · intro items c c' h
    obtain ⟨back, back', hopen, h⟩ := h
    have hdollar : .dollar ∉ [Kind.whitespace, .outro, .endOfText] := by decide
    have hback : ∀ t ∈ back, t.kind ≠ .dollar :=
      fun t ht heq => hdollar (heq ▸ hopen.1.kind_mem t ht)
    have hback' : ∀ t ∈ back', t.kind ≠ .dollar :=
      fun t ht heq => hdollar (heq ▸ hopen.2.kind_mem t ht)
    obtain ⟨front, lead, lead', hitems, hlead, hlead', hplace, hplace'⟩ := h.places
    have hstands : Stands (front ++ lead ++ back) ⟨(front ++ lead).length, c.peek.toNat⟩ c :=
      ⟨by simp [h.view, hitems, hlead], hplace, (Int.toNat_of_nonneg h.peek).symm⟩
    have hstands' : Stands (front ++ lead' ++ back') ⟨(front ++ lead').length, c'.peek.toNat⟩ c' :=
      ⟨by simp [h.view', hitems, hlead'], hplace', (Int.toNat_of_nonneg h.peek').symm⟩
    rcases systemRound_refused hback hstands n text with ⟨d, hd⟩ | ⟨x, d, hd, hx, hview, hpeek⟩
    · rw [hd]
      exact .stalled
    rcases systemRound_refused hback' hstands' n' text with ⟨d', hd'⟩ | ⟨x', d', hd', hx',
      hview', hpeek'⟩
    · rw [hd']
      exact .stalled'
    · rw [hd, hd']
      refine .refused (.refl items) ⟨hview.trans h.view, hview'.trans h.view', hpeek, hpeek'⟩ ?_
      rw [hx, hx']
      exact .unexpectedEnd

theorem inStep_version : InStep e e' version version := by
  refine (inStep_collectForm .version (by decide) (by decide)).bind_eq fun head => ?_
  split
  · refine inStep_skipBlanks.bind_eq fun _ =>
      (inStep_pass (by decide) (by decide)).bind_eq fun _ => ?_
    exact inStep_system _
  · exact .pure fun _ _ _ h => ⟨rfl, h⟩

/-! ## Types -/

theorem inStep_selfType : InStep e e' selfType selfType := by
  refine (inStep_pass (by decide) (by decide)).bind_eq fun _ => ?_
  refine Lockstep.current_inside_bind (fun t => ?_) fun t t' back back' hopen ht ht' => ?_
  · dsimp only
    split
    · exact Lockstep.moveNext_inside_bind fun _ _ => .pure fun _ _ _ h => ⟨rfl, h⟩
    · exact inStep_refuse_token t t fun _ _ _ h => h.toForked
  · dsimp only
    rw [if_neg (text_ne_of_trailing ht), if_neg (text_ne_of_trailing ht')]
    exact inStep_refuse_token t t' fun _ _ _ h => h.toForked

theorem inStep_typeOperand {inner inner' : Reading Text} (hinner : InStep e e' inner inner') :
    InStep e e' (typeOperand inner) (typeOperand inner') := by
  refine Lockstep.current_inside_bind (fun t => ?_) fun t t' back back' _ ht ht' => ?_
  · dsimp only
    split
    · exact hinner.weaken fun _ _ _ => facing_inside
    · exact inStep_selfType.weaken fun _ _ _ => facing_inside
    · exact inStep_className.weaken fun _ _ _ => facing_inside
    · exact inStep_className.weaken fun _ _ _ => facing_inside
    · exact inStep_refuse_token t t fun _ _ _ h => h.toForked
  · have hrefuse : Lockstep e e' (Beyond e e' back back') (Agree (Inside e e'))
        (Reading.refuse (.unexpectedToken t)) (Reading.refuse (.unexpectedToken t')) :=
      inStep_refuse_token (α := Text) t t' fun _ _ _ h => h.toForked
    dsimp only
    rcases ht.kind with hkind | hkind <;> rcases ht'.kind with hkind' | hkind' <;>
      simp only [hkind, hkind'] <;>
      exact hrefuse

theorem inStep_bracketsRound (collected : Text) :
    Lockstep e e' (Inside e e') (RoundStep (Inside e e') (Agree (Inside e e')))
      (bracketsRound collected) (bracketsRound collected) := by
  refine Lockstep.isAt_bind (by decide) (by decide) (fun t _ => ?_) (.pure fun _ _ _ h => ⟨rfl, h⟩)
  refine ((inStep_pass (by decide) (by decide)).weaken fun _ _ _ => facing_inside).bind_eq
    fun _ => ?_
  exact (inStep_pass (by decide) (by decide)).bind_eq fun _ => .pure fun _ _ _ h => ⟨rfl, h⟩

theorem inStep_typeRound {inner inner' : Reading Text} (hinner : InStep e e' inner inner')
    (nested : Bool) (collected : Text) :
    Lockstep e e' (Inside e e') (RoundStep (Inside e e') (Agree (Inside e e')))
      (typeRound inner nested collected) (typeRound inner' nested collected) := by
  refine (inStep_typeOperand hinner).bind_eq fun operand => ?_
  refine (Lockstep.loop inStep_bracketsRound _).bind_eq fun text => ?_
  refine Lockstep.current_inside_bind (fun t => ?_) fun t t' back back' hopen ht ht' => ?_
  · dsimp only
    split
    · exact .pure fun _ _ _ h => ⟨rfl, facing_inside h⟩
    · split
      · exact Lockstep.moveNext_inside_bind fun _ _ => .pure fun _ _ _ h => ⟨rfl, h⟩
      · exact inStep_refuse_token t t fun _ _ _ h => h.toForked
  · have hends : ∀ {t : Token}, t.Trailing → endsType nested t.kind = true := by
      intro t ht
      rcases ht.kind with ht | ht <;> simp [ht, endsType, inWord]
    dsimp only
    rw [if_pos (hends ht), if_pos (hends ht')]
    exact .pure fun _ _ _ h => ⟨rfl, beyond_inside hopen h⟩

/-- Where there are rounds enough for both, it does not matter how many there are. -/
theorem inStep_typeBelow (depth depth' : Nat) (nested : Bool) :
    InStep e e' (typeBelow depth nested) (typeBelow depth' nested) := by
  induction depth generalizing depth' nested with
  | zero => exact .stalled
  | succ depth ih =>
    cases depth' with
    | zero => exact .stalled'
    | succ depth' =>
      cases nested with
      | false => exact Lockstep.loop (inStep_typeRound (ih depth' true) false) []
      | true =>
        refine (inStep_pass (by decide) (by decide)).bind_eq fun _ => ?_
        refine (Lockstep.loop (inStep_typeRound (ih depth' true) true) []).bind_eq fun body => ?_
        exact (inStep_pass (by decide) (by decide)).bind_eq fun _ => .pure fun _ _ _ h => ⟨rfl, h⟩

theorem inStep_typeName (nested : Bool) : InStep e e' (typeName nested) (typeName nested) :=
  .get fun _ _ _ _ => inStep_typeBelow _ _ nested

theorem inStep_leadingType : InStep e e' leadingType leadingType :=
  (inStep_typeName false).bind_eq fun _ => inStep_skipBlanks.bind_eq fun _ =>
    .pure fun _ _ _ h => ⟨rfl, h⟩

end Grammar

end DocComment
