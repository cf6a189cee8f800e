import DocComment.Proofs.Grammar.LockstepTags

/-!
# Where a file ends

Only a blank ends the path of a file. So where nothing stands between a path and the closing
delimiter, the delimiter is taken for a part of the path, which is then none; and where a blank
stands between the two, the path is read. This is the one way in which two readings in front of
different endings part: the first is refused, and the second goes on by itself and reads up to the
end of the comment.
-/

namespace DocComment.Grammar

open Screening (Item)
open Cursor (Forked Facing Beyond Abreast Inside Settled restores_settled)
open Reading (Lockstep InStep Ended Agree RoundStep iterate)
open Token (concat)

variable {e e' : CommentEnd} {α β γ δ : Type}

/-- The first reading was refused for a file, which is a path with a closing delimiter behind it.
The second answered as it should for the path, and stands in front of the rest of its tokens. -/
def Severed (answer : Text → β → Prop) (rest : List Token)
    (result : EStateM.Result Failure Cursor α) (result' : EStateM.Result Failure Cursor β) : Prop :=
  ∃ (path : Text) (offset : Nat) (x : SyntaxError) (d : Cursor) (b : β) (d' : Cursor)
    (passed : List Token)
    (peek : Nat), result = .error (.syntaxError x) d ∧
      x.cause = .malformed .file (path ++ "*/".toList) offset ∧
      Form.isFile path = true ∧ result' = .ok b d' ∧ answer path b ∧
        Stands (passed ++ rest) ⟨passed.length, peek⟩ d'

/-- The two readings go in step, or they part at a file. -/
def LockstepOr (answer : Text → β → Prop) (rest : List Token) (e e' : CommentEnd)
    (P : List Item → Cursor → Cursor → Prop) (Q : α → β → List Item → Cursor → Cursor → Prop)
    (r : Reading α) (r' : Reading β) : Prop :=
  ∀ items c c', P items c c' → Ended e e' items Q (r c) (r' c') ∨ Severed answer rest (r c) (r' c')

/-- The reading answers as it should if there are rounds enough. -/
def GoesOn (r' : Reading β) (tokens : List Token) (answer : β → Prop) (rest : List Token) : Prop :=
  r' = throw .stalled ∨ ∃ b, answer b ∧ Reads r' tokens b rest

/-! ## How readings that may part are put together -/

namespace LockstepOr

variable {answer : Text → β → Prop} {answer' : Text → δ → Prop} {rest behind : List Token}
  {P P' : List Item → Cursor → Cursor → Prop} {Q Q' : α → β → List Item → Cursor → Cursor → Prop}
  {S : γ → δ → List Item → Cursor → Cursor → Prop} {r : Reading α} {r' : Reading β}
  {f : α → Reading γ} {f' : β → Reading δ}

theorem of (h : Lockstep e e' P Q r r') : LockstepOr answer rest e e' P Q r r' :=
  fun items c c' hc => .inl (h items c c' hc)

theorem weaken (h : LockstepOr answer rest e e' P Q r r')
    (hP : ∀ items c c', P' items c c' → P items c c') :
    LockstepOr answer rest e e' P' Q r r' :=
  fun items c c' hc => h items c c' (hP items c c' hc)

theorem bind (hr : LockstepOr answer rest e e' P Q r r')
    (hf : ∀ a b, LockstepOr answer' behind e e' (Q a b) S (f a) (f' b))
    (hsevered : ∀ path b, answer path b → GoesOn (f' b) rest (answer' path) behind) :
    LockstepOr answer' behind e e' P S (r >>= f) (r' >>= f') := by
  intro items c c' hc
  rcases hr items c c' hc with h | ⟨path, offset, x, d, b, d', passed, peek, hx, hcause, hpath, hd',
    hb, hstands⟩
  · rcases h.bind_cases with h | ⟨a, b, left, d, d', sheds, answer, heq, heq'⟩
    · exact .inl (h S)
    · rw [heq, heq']
      exact (hf a b left d d' answer).imp_left (.sheds sheds)
  · rw [Reading.bind_of_error hx, Reading.bind_of_ok hd']
    rcases hsevered path b hb with hstalled | ⟨b', hb', taken, rfl, hgives⟩
    · rw [hstalled]
      exact .inl .stalled'
    · obtain ⟨after, hgives⟩ := hgives passed peek
      obtain ⟨next, hnext, hafter⟩ := hgives d' hstands
      refine .inr ⟨path, offset, x, d, b', next, passed ++ taken, after, rfl, hcause, hpath,
        hnext, hb', ?_⟩
      rwa [List.append_assoc]

/-- Two readings that go in step up to a reading that may part. -/
theorem bind_of (hr : Lockstep e e' P Q r r')
    (hf : ∀ a b, LockstepOr answer' behind e e' (Q a b) S (f a) (f' b)) :
    LockstepOr answer' behind e e' P S (r >>= f) (r' >>= f') := by
  have hnever : LockstepOr (fun _ _ => False) [] e e' P Q r r' := .of hr
  exact hnever.bind hf fun _ _ => False.elim

theorem bind_eq {R : List Item → Cursor → Cursor → Prop} {answer : Text → α → Prop}
    {r r' : Reading α} {f : α → Reading γ} {f' : α → Reading δ}
    (hr : LockstepOr answer rest e e' P (Agree R) r r')
    (hf : ∀ a, LockstepOr answer' behind e e' R S (f a) (f' a))
    (hsevered : ∀ path a, answer path a → GoesOn (f' a) rest (answer' path) behind) :
    LockstepOr answer' behind e e' P S (r >>= f) (r' >>= f') := by
  refine hr.bind (fun a b items c c' h => ?_) hsevered
  obtain ⟨rfl, h⟩ := h
  exact hf a items c c' h

/-- Only the rule that is tried last may part. -/
theorem tryElse {first second : Reading α} {first' second' : Reading β}
    (hP : Cursor.Restores e e' P) (hfirst : Lockstep e e' P Q first first')
    (hsecond : LockstepOr answer rest e e' P Q second second') :
    LockstepOr answer rest e e' P Q (Grammar.tryElse first second)
      (Grammar.tryElse first' second') := by
  intro items c c' hc
  have hended := hfirst items c c' hc
  unfold Grammar.tryElse
  generalize first c = result at hended ⊢
  generalize first' c' = result' at hended ⊢
  cases hended with
  | answered sheds answer => exact .inl (.answered sheds answer)
  | refused sheds forked same => exact (hsecond _ _ _ (hP hc sheds forked)).imp_left (.sheds sheds)
  | stalled => exact .inl .stalled
  | stalled' => exact .inl .stalled'

/-- Where two loops part in a round, the second is done in the round behind it. -/
theorem iterate {round : γ → Reading (Round γ α)} {round' : γ → Reading (Round γ β)}
    {answer : Text → Round γ β → Prop} {answer' : Text → β → Prop}
    (hround : ∀ b, LockstepOr answer rest e e' P (RoundStep P Q) (round b) (round' b))
    (hsevered : ∀ path outcome, answer path outcome →
      ∃ next b, outcome = .again next ∧ answer' path b ∧ Reads (round' next) rest (.done b) behind)
    (n n' : Nat) (b : γ) :
    LockstepOr answer' behind e e' P Q
      (Reading.iterate round n b) (Reading.iterate round' n' b) := by
  induction n generalizing n' b with
  | zero => exact .of .stalled
  | succ n ih =>
    cases n' with
    | zero => exact .of .stalled'
    | succ n' =>
      refine (hround b).bind (fun outcome outcome' items c c' h => ?_)
        fun path outcome hanswer => ?_
      · cases outcome with
        | again next =>
          cases outcome' with
          | again next' =>
            obtain ⟨rfl, h⟩ := h
            exact ih n' next items c c' h
          | done => exact h.elim
        | done a =>
          cases outcome' with
          | again => exact h.elim
          | done b => exact .inl (.answered (.refl items) h)
      · obtain ⟨next, b, rfl, hb, hread⟩ := hsevered path outcome hanswer
        cases n' with
        | zero => exact .inl rfl
        | succ n' => exact .inr ⟨b, hb, hread.iterate_done⟩

end LockstepOr

/-! ## Files -/

theorem isFile_closed (text : Text) : Form.file.accepts (text ++ "*/".toList) = false := by
  rw [← Bool.not_eq_true]
  exact fun h => not_star_of_isFile h (by simp)

/-- The text of a file takes the closing delimiter with it. -/
theorem concat_close (e : CommentEnd) :
    concat (e.close.takeWhile (decide <| ·.kind ≠ .whitespace)) = "*/".toList := by
  simp [CommentEnd.close, e.closes, e.closed, e.ends, e.empty]

/-- The text of a file ends in front of the blanks, if there are any. -/
theorem tokens_of_blanks (h : e.blanks ≠ []) :
    concat (e.tokens.takeWhile (decide <| ·.kind ≠ .whitespace)) = [] ∧
      e.tokens.dropWhile (decide <| ·.kind ≠ .whitespace) = e.tokens := by
  obtain ⟨t, blanks, hblanks⟩ := List.exists_cons_of_ne_nil h
  have ht := (e.blank t (by simp [hblanks])).1
  simp [CommentEnd.tokens, hblanks, ht]

theorem tokens_of_no_blanks (h : e.blanks = []) : e.tokens = e.close := by
  rw [CommentEnd.tokens, h, List.nil_append]

section File

variable {text text' : Text} {items : List Item} {c c' : Cursor} {back back' : List Token}

theorem ended_noFile {Q : Text → Text → List Item → Cursor → Cursor → Prop} (offset offset' : Nat)
    (h : Forked e e' items c c') (htext : Form.file.accepts text = false)
    (htext' : Form.file.accepts text' = false) :
    Ended e e' items Q (require .file text offset c) (require .file text' offset' c') := by
  rw [require_refused offset htext, require_refused offset' htext']
  exact .refused (.refl items) h (.malformed .file text text' offset offset')

/-- With a blank in front of one closing delimiter only, the path is read in front of the blank. -/
theorem severed_file (offset offset' : Nat) (h : Beyond e e' back e'.tokens items c c')
    (htext : Form.file.accepts text = true) :
    Severed (fun path text => text = path) e'.tokens (require .file (text ++ "*/".toList) offset c)
      (require .file text offset' c') := by
  obtain ⟨front, lead, lead', hitems, -, hlead, -, hplace⟩ := h.places
  obtain rfl : lead' = [] := by simpa using hlead
  rw [require_refused offset (isFile_closed text), require, if_pos htext]
  refine ⟨text, offset, _, c, text, c', front, c'.peek.toNat, rfl, rfl, htext, rfl, rfl, ?_, ?_, ?_⟩
  · rw [h.view', hitems, List.map_append]
  · rw [hplace, List.append_nil]
  · exact (Int.toNat_of_nonneg h.peek').symm

theorem lockstep_file (hblanks : e'.blanks = [] → e.blanks = []) :
    LockstepOr (fun path text => text = path) e'.tokens e e' (Settled e e')
      (Agree (Inside e e')) file file := by
  have hsettled : ∀ items c c', Settled e e' items c c' →
      Abreast e e' (fun back back' => (back = e.tokens ∧ back' = e'.tokens) ∨
        (back = e.close ∧ back' = e'.close)) items c c' := by
    rintro items c c' (⟨t, h⟩ | h)
    · exact .inl ⟨_, h⟩
    · exact .inr ⟨_, _, .inr ⟨rfl, rfl⟩, h⟩
  refine .bind_of (Lockstep.weaken (lockstep_collect _ (.inl ⟨rfl, rfl⟩)) hsettled) ?_
  rintro ⟨text, offset⟩ ⟨text', offset'⟩ items c c'
    (⟨htext, t, -, h⟩ | ⟨start, back, back', hback, htext, htext', h⟩)
  · obtain rfl : text = text' := htext
    refine .inl
      (lockstep_require (fun _ _ _ => abreast_forked) .file text offset offset' items c c' ?_)
    exact facing_inside h
  · dsimp only at htext htext' ⊢
    subst htext htext'
    rcases hback with ⟨rfl, rfl⟩ | ⟨rfl, rfl⟩
    · by_cases hnone : e.blanks = []
      · rw [tokens_of_no_blanks hnone, concat_close] at *
        by_cases hnone' : e'.blanks = []
        · rw [tokens_of_no_blanks hnone', concat_close]
          exact .inl
            (ended_noFile offset offset' h.toForked (isFile_closed start) (isFile_closed start))
        · obtain ⟨htake, hdrop⟩ := tokens_of_blanks hnone'
          rw [htake, List.append_nil]
          rw [hdrop] at h
          cases hpath : Form.file.accepts start with
          | true => exact .inr (severed_file offset offset' h hpath)
          | false => exact .inl (ended_noFile offset offset' h.toForked (isFile_closed start) hpath)
      · obtain ⟨htake, hdrop⟩ := tokens_of_blanks hnone
        obtain ⟨htake', hdrop'⟩ := tokens_of_blanks fun hnone' => hnone (hblanks hnone')
        rw [htake, htake', List.append_nil]
        rw [hdrop, hdrop'] at h
        refine .inl
          (lockstep_require (fun _ _ _ => abreast_forked) .file start offset offset' items c c' ?_)
        exact beyond_inside ⟨e.open_tokens, e'.open_tokens⟩ h
    · rw [concat_close, concat_close]
      exact .inl
        (ended_noFile offset offset' h.toForked (isFile_closed start) (isFile_closed start))

theorem lockstep_usage (hblanks : e'.blanks = [] → e.blanks = []) :
    LockstepOr (fun path text => text = path) e'.tokens e e' (Settled e e')
      (Agree (Inside e e')) usage usage := by
  have hinside : ∀ {r : Reading Text}, InStep e e' r r →
      Lockstep e e' (Settled e e') (Agree (Inside e e')) r r :=
    fun h => h.weaken fun _ _ _ => Settled.inside
  refine .tryElse restores_settled (hinside inStep_link) ?_
  exact .tryElse restores_settled (hinside inStep_element) (lockstep_file hblanks)

end File

/-! ## Block tags and comments -/

/-- The tag says that a file is used, or that it uses this, and nothing else. -/
def NamesFile (path : Text) (tag : Tag) : Prop :=
  tag = { content := .uses path } ∨ tag = { content := .usedBy path }

/-- The last tag of the document names a file. -/
def EndsWithFile (path : Text) (document : Document) : Prop :=
  ∃ (before : Document) (tag : Tag), NamesFile path tag ∧ document = before.insert tag

theorem lockstep_content (hblanks : e'.blanks = [] → e.blanks = []) (name : TagName) :
    LockstepOr (fun path content => isBare name = false ∧ NamesFile path { content }) e'.tokens e e'
      (Settled e e') (Agree (Inside e e')) (content name) (content name) := by
  have hmap : ∀ g : Text → Content, isBare name = false →
    (∀ path, NamesFile path { content := g path }) →
      LockstepOr (fun path content => isBare name = false ∧ NamesFile path { content }) e'.tokens e
        e' (Settled e e') (Agree (Inside e e')) (g <$> usage) (g <$> usage) := by
    intro g hbare hg
    refine (lockstep_usage hblanks).bind_eq (fun text => .of (.pure fun _ _ _ h => ⟨rfl, h⟩))
      fun path text htext => ?_
    subst htext
    exact .inr ⟨g text, ⟨hbare, hg text⟩, .pure _⟩
  cases hname : wantsFile name with
  | false => exact .of ((inStep_content hname).weaken fun _ _ _ => Settled.inside)
  | true =>
    cases name with
    | uses => exact hmap .uses rfl fun _ => .inl rfl
    | usedBy => exact hmap .usedBy rfl fun _ => .inr rfl
    | _ => cases hname

/-- The blanks in front of the closing delimiter are passed over. -/
theorem reads_endBlanks (e : CommentEnd) : Reads skipBlanks e.tokens () e.close :=
  reads_skipBlanks (fun t ht => (e.blank t ht).1) fun t ht => by
    obtain rfl := Option.some.inj ht
    simp [e.closes]

theorem reads_noDescription (e : CommentEnd) : Reads description e.close ([], []) e.close := by
  have hend : endsDescription false e.closing.kind = true := by simp [endsDescription, e.closes]
  exact reads_description (List.forall_mem_nil _) hend

theorem lockstep_blockTag (hblanks : e'.blanks = [] → e.blanks = []) (name : TagName) :
    LockstepOr NamesFile e'.close e e' (Inside e e') (Agree (Inside e e')) (blockTag name)
      (blockTag name) := by
  refine .bind_of (inStep_pass (by simp) (by simp)) fun _ _ =>
    .weaken (P := Inside e e') ?_ fun _ _ _ h => h.2
  refine .bind_of lockstep_skipBlanks fun _ _ =>
    (lockstep_content hblanks name).bind_eq (fun content => .of ?_) ?_
  · split
    · exact .pure fun _ _ _ h => ⟨rfl, h⟩
    · refine lockstep_skipBlanks.bind fun _ _ =>
        lockstep_description.bind fun (text, tags) (text', tags') => ?_
      refine .assume fun htext => .assume fun htags => .pure fun _ _ _ h => ⟨?_, h.inside⟩
      dsimp only at htext htags
      rw [htext, htags]
  · rintro path content ⟨hbare, hcontent⟩
    simp only [hbare, Bool.false_eq_true, ↓reduceIte]
    exact .inr ⟨_, hcontent, (reads_endBlanks e').bind ((reads_noDescription e').bind (.pure _))⟩

/-- Both cursors find the same token, or their closing delimiters. -/
theorem lockstep_current :
    Lockstep e e' (Settled e e')
      (fun found found' items c c' =>
        (∃ t, (found = some t ∧ found' = some t) ∧ Facing e e' (.token t) items c c') ∨
          ((found = some e.closing ∧ found' = some e'.closing) ∧
            Beyond e e' e.close e'.close items c c'))
      Cursor.current Cursor.current := by
  have hsettled : ∀ items c c', Settled e e' items c c' →
      Abreast e e' (fun back back' => back = e.close ∧ back' = e'.close) items c c' := by
    rintro items c c' (⟨t, h⟩ | h)
    · exact .inl ⟨_, h⟩
    · exact .inr ⟨_, _, ⟨rfl, rfl⟩, h⟩
  rw [← bind_pure Cursor.current]
  refine Lockstep.weaken (Lockstep.current_bind (fun t => ?_) ?_) hsettled
  · exact .pure fun _ _ _ h => .inl ⟨t, ⟨rfl, rfl⟩, h⟩
  · rintro back back' ⟨rfl, rfl⟩
    exact .pure fun _ _ _ h => .inr ⟨⟨rfl, rfl⟩, h⟩

/-- The round that reads a block tag. -/
def tagRound (document : Document) (name : TagName) : Reading (Round Document Document) := do
  let tag ← blockTag name
  skipBlanks
  return .again (document.insert tag)

theorem lockstep_tagRound (hblanks : e'.blanks = [] → e.blanks = []) (document : Document)
    (name : TagName) :
    LockstepOr (fun path outcome => ∃ next, EndsWithFile path next ∧ outcome = .again next) e'.close
      e e' (Inside e e') (RoundStep (Settled e e') (Agree (Settled e e')))
      (tagRound document name) (tagRound document name) := by
  refine (lockstep_blockTag hblanks name).bind_eq (fun tag => .of ?_) fun path tag htag => ?_
  · exact lockstep_skipBlanks.bind fun _ _ => .pure fun _ _ _ h => ⟨rfl, h⟩
  · have hclose : ∀ t ∈ e'.close.head?, t.kind ≠ .whitespace := by
      intro t ht
      obtain rfl := Option.some.inj ht
      simp [e'.closes]
    exact .inr ⟨_, ⟨_, ⟨document, tag, htag, rfl⟩, rfl⟩, (reads_noBlanks hclose).bind (.pure _)⟩

/-- Both cursors are in front of a block tag, or of what ends the block tags. -/
theorem lockstep_blockTagsRound (hblanks : e'.blanks = [] → e.blanks = []) (document : Document) :
    LockstepOr (fun path outcome => ∃ next, EndsWithFile path next ∧ outcome = .again next) e'.close
      e e' (Settled e e') (RoundStep (Settled e e') (Agree (Settled e e')))
        (blockTagsRound document) (blockTagsRound document) := by
  refine .bind_of lockstep_current fun found found' => ?_
  rintro items c c' (⟨⟨kind, text, offset⟩, ⟨rfl, rfl⟩, h⟩ | ⟨⟨rfl, rfl⟩, h⟩)
  · cases kind with
    | tag name => exact lockstep_tagRound hblanks document name items c c' (facing_inside h)
    | _ => exact .inl (.answered (.refl items) ⟨rfl, settled_of_facing h⟩)
  · have hdone : Settled e e' items c c' := .inr h
    have hcloses := e.closes
    have hcloses' := e'.closes
    generalize e.closing = t at hcloses ⊢
    generalize e'.closing = t' at hcloses' ⊢
    obtain ⟨kind, text, offset⟩ := t
    obtain ⟨kind', text', offset'⟩ := t'
    obtain rfl : kind = .outro := hcloses
    obtain rfl : kind' = .outro := hcloses'
    exact .inl (.answered (.refl items) ⟨rfl, hdone⟩)

theorem reads_endRound (e : CommentEnd) (document : Document) :
    Reads (blockTagsRound document) e.close (.done document) e.close := by
  refine reads_current.bind ?_
  have hcloses := e.closes
  rw [CommentEnd.close, List.head?_cons]
  generalize e.closing = t at hcloses ⊢
  obtain ⟨kind, text, offset⟩ := t
  obtain rfl : kind = .outro := hcloses
  exact .pure _

theorem lockstep_blockTags (hblanks : e'.blanks = [] → e.blanks = []) (document : Document) :
    LockstepOr EndsWithFile e'.close e e' (Settled e e') (Agree (Settled e e'))
      (Cursor.loop blockTagsRound document) (Cursor.loop blockTagsRound document) := by
  have hiterate : ∀ n n',
      LockstepOr EndsWithFile e'.close e e' (Settled e e') (Agree (Settled e e'))
        (iterate blockTagsRound n document) (iterate blockTagsRound n' document) := by
    refine fun n n' => .iterate (lockstep_blockTagsRound hblanks) ?_ n n' document
    rintro path _ ⟨next, hnext, rfl⟩
    exact ⟨next, next, rfl, hnext, reads_endRound e' next⟩
  exact fun items c c' hc => hiterate _ _ items c c' hc

/-- What is read behind the block tags. -/
def finish (document : Document) : Reading Document := do
  pass .outro
  skipBlanks
  pass .endOfText
  return document

theorem reads_finish (e : CommentEnd) (document : Document) :
    Reads (finish document) e.close document [] := by
  have hlast : ∀ t ∈ [e.last].head?, t.kind ≠ .whitespace := by
    intro t ht
    obtain rfl := Option.some.inj ht
    simp [e.ends]
  exact (reads_pass e.closes).bind
    ((reads_noBlanks hlast).bind ((reads_pass e.ends).bind (.pure _)))

/-- A token of a kind that is shared, or is in front of neither cursor. -/
theorem lockstep_pass_facing (kind : Kind) (item : Item) :
    Lockstep e e' (Facing e e' item) (fun _ _ => Inside e e') (pass kind) (pass kind) := by
  have hexpect : Lockstep e e' (Facing e e' item) (Agree (Inside e e')) (expect kind)
      (expect kind) := by
    refine Lockstep.current_facing_bind (fun t => ?_) item
    dsimp only
    split
    · exact Lockstep.moveNext_inside_bind fun _ _ => .pure fun _ _ _ h => ⟨rfl, h⟩
    · exact inStep_refuse_token t t fun _ _ _ h => h.toForked
  exact hexpect.bind fun _ _ => .pure fun _ _ _ h => h.2

theorem lockstep_finish (document : Document) :
    Lockstep e e' (Settled e e') (Agree fun _ _ _ => True) (finish document) (finish document) := by
  refine .either (.choose fun t => (lockstep_pass_facing .outro _).bind fun _ _ => ?_) ?_
  · refine inStep_skipBlanks.bind_eq fun _ =>
      (inStep_pass (by decide) (by decide)).bind_eq fun _ => ?_
    exact .pure fun _ _ _ _ => ⟨rfl, trivial⟩
  · refine (Lockstep.of_reads (reads_finish e document) (reads_finish e' document)).imp ?_
    exact fun _ _ _ _ _ ⟨hx, hy, _⟩ => ⟨hx.trans hy.symm, trivial⟩

theorem lockstep_comment (hblanks : e'.blanks = [] → e.blanks = []) :
    LockstepOr EndsWithFile [] e e' (Inside e e') (Agree fun _ _ _ => True) comment comment := by
  have hpass : Lockstep e e' (Settled e e') (Agree (Inside e e')) (pass .intro) (pass .intro) :=
    (inStep_pass (by decide) (by decide)).weaken fun _ _ _ => Settled.inside
  have hskip : ∀ {a b : Unit},
      Lockstep e e' (Agree (Inside e e') a b) (fun _ _ => Settled e e') skipBlanks skipBlanks :=
    lockstep_skipBlanks.weaken fun _ _ _ h => h.2
  refine .bind_of lockstep_skipBlanks fun _ _ => .bind_of hpass fun _ _ =>
    .bind_of hskip fun _ _ => ?_
  refine .bind_of lockstep_description fun (text, tags) (text', tags') => ?_
  rintro items c c' ⟨htext, htags, h⟩
  dsimp only at htext htags ⊢
  rw [htext, htags]
  have hblockTags :=
    lockstep_blockTags hblanks { description := Text.strip text', inlineTags := tags' }
  exact hblockTags.bind_eq (fun document => .of (lockstep_finish document))
    (fun path document h => .inr ⟨document, h, reads_finish e' document⟩) items c c' h

end DocComment.Grammar
