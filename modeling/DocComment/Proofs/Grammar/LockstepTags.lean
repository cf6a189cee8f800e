import DocComment.Proofs.Grammar.Lockstep

/-!
# Descriptions and tags in front of different endings

The blanks in front of a closing delimiter belong to the description there, so two descriptions are
the same when they are stripped, and both stop in front of the delimiter. Of what the names of tags
want, all but what is used is read in step.
-/

namespace DocComment.Grammar

open Screening (Item)
open Cursor (Forked Facing Beyond Inside Settled restores_inside)
open Reading (Lockstep InStep Agree RoundStep iterate)
open Token (concat)

variable {e e' : CommentEnd} {items : List Item} {c c' : Cursor} {t : Token}

theorem settled_of_facing (h : Facing e e' (.token t) items c c') :
    Settled e e' items c c' := .inl ⟨t, h⟩

/-! ## Descriptions -/

/-- Two descriptions with the same inline tags that differ in blanks at their ends, and the cursors
behind them. -/
def SameProse (e e' : CommentEnd) (a b : Prose) (items : List Item) (c c' : Cursor) : Prop :=
  Text.strip a.1 = Text.strip b.1 ∧ a.2 = b.2 ∧ Settled e e' items c c'

/-- What a token after a brace announces: nothing, or the same inline tag. -/
def Announced (e e' : CommentEnd) (t : Token) (found found' : Option Tag) (items : List Item)
    (c c' : Cursor) : Prop :=
  found = found' ∧ ((found = none ∧ Facing e e' (.token t) items c c') ∨
    ∃ tag, found = some tag ∧ Inside e e' items c c')

theorem lockstep_openInline (name : TagName) :
    Lockstep e e' (Facing e e' (.token t)) (Agree (Settled e e')) (openInline name)
      (openInline name) := by
  have hopen : Lockstep e e' (Inside e e') (Agree (Settled e e')) (openInline name)
      (openInline name) := by
    refine (inStep_pass (by decide) (by decide)).bind_eq fun _ =>
      inStep_skipBlanks.bind_eq fun _ => ?_
    refine (inStep_pass (by simp) (by simp)).bind_eq fun _ =>
      lockstep_skipBlanks.imp fun _ _ _ _ _ h => ⟨rfl, h⟩
  exact hopen.weaken fun _ _ _ => facing_inside

/-- A closing brace, which is in front of both cursors or of neither. -/
theorem lockstep_rightBrace {tag tag' : Tag} (h : tag = tag') :
    Lockstep e e' (Settled e e') (Announced e e' t) (do pass .rightBrace; return some tag)
      (do pass .rightBrace; return some tag') := by
  subst h
  refine ((inStep_pass (by decide) (by decide)).weaken fun _ _ _ => Settled.inside).bind_eq
    fun _ => ?_
  exact .pure fun _ _ _ h => ⟨rfl, .inr ⟨tag, rfl, h⟩⟩

/-- What is read of an inline tag behind its content, up to its closing brace. -/
def describedInline (content : Content) (inner : Reading Prose) : Reading (Option Tag) := do
  let (description, inlineTags) ← inner
  pass .rightBrace
  return some { content, description := Text.strip description, inlineTags }

section Inner

variable {inner inner' : Reading Prose}
  (hinner : Lockstep e e' (Settled e e') (SameProse e e') inner inner')

include hinner

theorem lockstep_describedInline (content : Content) :
    Lockstep e e' (Settled e e') (Announced e e' t) (describedInline content inner)
      (describedInline content inner') := by
  refine hinner.bind fun a b => .assume fun htext => .assume fun htags => ?_
  exact lockstep_rightBrace (by rw [htext, htags])

theorem lockstep_inlineTag (kind : Kind) :
    Lockstep e e' (Facing e e' (.token t)) (Announced e e' t) (inlineTag inner kind)
      (inlineTag inner' kind) := by
  unfold inlineTag
  split
  · exact (lockstep_openInline .inheritDoc).bind_eq fun _ => lockstep_rightBrace rfl
  · exact (lockstep_openInline .internal).bind_eq fun _ => lockstep_describedInline hinner .internal
  · refine (lockstep_openInline .link).bind_eq fun _ => ?_
    refine (inStep_link.weaken fun _ _ _ => Settled.inside).bind_eq fun target => ?_
    exact lockstep_skipBlanks.bind fun _ _ => lockstep_describedInline hinner (.link target)
  · exact .pure fun _ _ _ h => ⟨rfl, .inl ⟨rfl, h⟩⟩

theorem lockstep_inlineTagHere (kind : Kind) :
    Lockstep e e' (Facing e e' (.token t)) (Announced e e' t) (inlineTagHere inner kind)
      (inlineTagHere inner' kind) := by
  unfold inlineTagHere
  split
  · refine Lockstep.peekPast_bind fun v v' hkind => ?_
    dsimp only
    rw [hkind]
    exact lockstep_inlineTag hinner v'.kind
  · exact .pure fun _ _ _ h => ⟨rfl, .inl ⟨rfl, h⟩⟩

theorem lockstep_descriptionRound (braced : Bool) (item : Item) (prose : Prose) :
    Lockstep e e' (Facing e e' item) (RoundStep (Inside e e') (SameProse e e'))
      (descriptionRound inner braced prose) (descriptionRound inner' braced prose) := by
  refine Lockstep.current_facing_bind (fun t => ?_) item
  dsimp only
  split
  · exact .pure fun _ _ _ h => ⟨rfl, rfl, settled_of_facing h⟩
  · refine (lockstep_inlineTagHere hinner t.kind).bind fun found found' => .assume fun hfound => ?_
    subst hfound
    refine .either (.assume fun hnone => ?_) (.choose fun tag => .assume fun hsome => ?_)
    · subst hnone
      exact Lockstep.moveNext_inside_bind fun _ _ => .pure fun _ _ _ h => ⟨rfl, h⟩
    · subst hsome
      exact .pure fun _ _ _ h => ⟨rfl, h⟩

end Inner

/-- In front of the closing delimiter a description takes the blanks that are there. -/
theorem reads_blankProse {back : List Token} (hopen : e.Open back) (inner : Reading Prose)
    (braced : Bool) (prose : Prose) :
    ∃ blanks, (∀ c ∈ blanks, Text.isBlank c = true) ∧ ∀ n, back.length ≤ n →
      Reads (iterate (descriptionRound inner braced) n prose) back
        (prose.1 ++ blanks, prose.2) e.close := by
  obtain ⟨front, blanks, hblanks, rfl⟩ := hopen
  have hblank : ∀ t ∈ blanks, t.kind = .whitespace ∧ ∀ c ∈ t.text, Text.isBlank c = true :=
    fun t ht => e.blank t (by simp [hblanks, ht])
  refine ⟨concat blanks, fun c hc => ?_, fun n hn => ?_⟩
  · obtain ⟨t, ht, hc⟩ := List.mem_flatMap.mp hc
    exact (hblank t ht).2 c hc
  · rw [List.length_append, CommentEnd.close, List.length_cons] at hn
    refine reads_proseRounds (fun t ht => ?_) ?_ (by omega) prose
    · rw [(hblank t ht).1]
      cases braced <;> decide
    · rw [e.closes]
      simp [endsDescription]

/-- Where there are levels enough for both, it does not matter how many there are. -/
theorem lockstep_descriptionBelow (depth depth' : Nat) (braced : Bool) :
    Lockstep e e' (Settled e e') (SameProse e e') (descriptionBelow depth braced)
      (descriptionBelow depth' braced) := by
  induction depth generalizing depth' braced with
  | zero => exact .stalled
  | succ depth ih =>
    cases depth' with
    | zero => exact .stalled'
    | succ depth' =>
      refine Lockstep.weaken (P := Inside e e') ?_ fun _ _ _ => Settled.inside
      refine .get fun _ _ _ _ => Lockstep.iterate_until (fun _ _ _ h => h)
        (fun prose => .choose fun item =>
          lockstep_descriptionRound (ih depth' true) braced item prose)
        (fun n n' prose => .choose fun back => .choose fun back' => .assume fun hopen => ?_) _ _ _
      obtain ⟨blanks, hblanks, hread⟩ :=
        reads_blankProse hopen.1 (descriptionBelow depth true) braced prose
      obtain ⟨blanks', hblanks', hread'⟩ :=
        reads_blankProse hopen.2 (descriptionBelow depth' true) braced prose
      refine (Lockstep.iterate_of_reads (back.length + back'.length)
        (fun n hn => hread n (by omega))
        (fun n hn => hread' n (by omega)) n n').imp fun a b items c c' h => ?_
      obtain ⟨rfl, rfl, h⟩ := h
      exact ⟨by rw [Text.strip_append_blanks hblanks, Text.strip_append_blanks hblanks'],
        rfl, .inr h⟩

theorem lockstep_description :
    Lockstep e e' (Settled e e') (SameProse e e') description description :=
  .get fun _ _ _ _ => lockstep_descriptionBelow _ _ false

/-! ## What the names of tags want -/

theorem inStep_author : InStep e e' author author := by
  refine (lockstep_collect_name (by decide) (by decide)).bind fun (name, _) (name', _) =>
    .assume fun hname => ?_
  dsimp only at hname ⊢
  rw [hname]
  refine Lockstep.isAt_bind (by decide) (by decide) (fun t _ => ?_) (.pure fun _ _ _ h => ⟨rfl, h⟩)
  refine ((inStep_pass (by decide) (by decide)).weaken fun _ _ _ => facing_inside).bind_eq
    fun _ => ?_
  refine (lockstep_collect_past (by decide) (by decide) (by decide)).bind
    fun (text, offset) (text', offset') => ?_
  refine .either (.assume fun htext => .choose fun t => .assume fun _ => ?_)
    (.assume fun _ => .assume fun _ => ?_)
  · obtain rfl : text = text' := htext
    refine Lockstep.current_facing_bind (fun t => ?_) (.token t)
    have hrequire : Lockstep e e' (Facing e e' (.token t)) (Agree (Facing e e' (.token t)))
        (require .email (Text.strip text) offset) (require .email (Text.strip text) offset') :=
      lockstep_require (fun _ _ _ h => h.toForked) .email _ _ _
    refine hrequire.bind_eq fun email => ?_
    refine ((inStep_pass (by decide) (by decide)).weaken fun _ _ _ => facing_inside).bind_eq
      fun _ => ?_
    exact .pure fun _ _ _ h => ⟨rfl, h⟩
  -- the closing delimiter is taken for a part of the address, so that nothing is left
  · refine Lockstep.current_beyond_bind ?_
    exact .refuse (fun _ _ _ h => h.toForked) .unexpectedEnd

theorem inStep_typeOr (default : String) : InStep e e' (typeOr default) (typeOr default) :=
  inStep_tryElse inStep_leadingType (.pure fun _ _ _ h => ⟨rfl, h⟩)

theorem inStep_argument : InStep e e' argument argument := by
  refine (inStep_tryElse (inStep_typeName false) (.pure fun _ _ _ h => ⟨rfl, h⟩)).bind_eq
    fun type => ?_
  refine inStep_skipBlanks.bind_eq fun _ => inStep_variableName.bind_eq fun name => ?_
  exact inStep_skipBlanks.bind_eq fun _ => .pure fun _ _ _ h => ⟨rfl, h⟩

/-- The round that reads one more argument. -/
def argumentRound (arguments : List TypedName) :
    Reading (Round (List TypedName) (List TypedName)) := do
  let arguments := arguments ++ [← argument]
  if ← Cursor.isAt .comma then
    pass .comma
    skipBlanks
    return .again arguments
  else return .done arguments

theorem inStep_argumentRound (arguments : List TypedName) :
    Lockstep e e' (Inside e e') (RoundStep (Inside e e') (Agree (Inside e e')))
      (argumentRound arguments) (argumentRound arguments) := by
  refine inStep_argument.bind_eq fun argument => ?_
  refine Lockstep.isAt_bind (by decide) (by decide) (fun t _ => ?_) (.pure fun _ _ _ h => ⟨rfl, h⟩)
  refine ((inStep_pass (by decide) (by decide)).weaken fun _ _ _ => facing_inside).bind_eq
    fun _ => ?_
  exact inStep_skipBlanks.bind_eq fun _ => .pure fun _ _ _ h => ⟨rfl, h⟩

theorem inStep_argumentsRound (arguments : List TypedName) :
    Lockstep e e' (Inside e e') (RoundStep (Inside e e') (Agree (Inside e e')))
      (argumentsRound arguments) (argumentsRound arguments) := by
  have hargument : Lockstep e e' (Inside e e') (RoundStep (Inside e e') (Agree (Inside e e')))
      (argumentRound arguments) (argumentRound arguments) := inStep_argumentRound arguments
  refine Lockstep.current_inside_bind (fun t => ?_) fun t t' back back' hopen ht ht' => ?_
  · dsimp only
    split
    · exact .pure fun _ _ _ h => ⟨rfl, facing_inside h⟩
    · exact hargument.weaken fun _ _ _ => facing_inside
  · dsimp only
    rw [if_neg (ne_of_trailing ht (by decide) (by decide)),
      if_neg (ne_of_trailing ht' (by decide) (by decide))]
    exact hargument.weaken fun _ _ _ => beyond_inside hopen

theorem require_refused {form : Form} {text : Text} (offset : Nat) (h : form.accepts text = false) :
    require form text offset = Reading.refuse (.malformed form text offset) := by
  rw [require, if_neg (by simp [h])]

theorem inStep_methodName : InStep e e' methodName methodName := by
  refine (lockstep_collect_past (by decide) (by decide) (by decide)).bind
    fun (name, offset) (name', offset') => ?_
  refine .either (.assume fun hname => .choose fun t => .assume fun _ => ?_)
    (.assume fun hstar => .assume fun hstar' => ?_)
  · obtain rfl : name = name' := hname
    have hrequire : Lockstep e e' (Inside e e') (Agree (Inside e e')) (require .method name offset)
        (require .method name offset') :=
          lockstep_require (fun _ _ _ => abreast_forked) .method name _ _
    refine (isAt_facing .leftParen _).bind fun _ _ => .choose fun t => .assume fun hfound =>
      .assume fun hfound' => ?_
    subst hfound hfound'
    dsimp only
    split
    · exact ((inStep_pass (by decide) (by decide)).weaken fun _ _ _ => facing_inside).bind_eq
        fun _ => hrequire
    · exact hrequire.weaken fun _ _ _ => facing_inside
  -- no name has a star in it
  · have hnone : ∀ {name : Text}, '*' ∈ name → ∀ offset,
        require .method name offset = Reading.refuse (.malformed .method name offset) := by
      intro name hstar offset
      refine require_refused offset ?_
      by_contra haccepts
      exact not_star_of_isIdentifier (Bool.not_eq_false _ ▸ haccepts) hstar
    refine (Lockstep.of_reads (reads_isAt .leftParen) (reads_isAt .leftParen)).bind fun _ _ =>
      .assume fun hfound => .assume fun hfound' => ?_
    subst hfound hfound'
    show Lockstep e e' _ _ (require .method name offset) (require .method name' offset')
    rw [hnone hstar, hnone hstar']
    exact .refuse (fun _ _ _ h => h.toForked) (.malformed .method name name' offset offset')

theorem inStep_signature : InStep e e' signature signature := by
  refine (inStep_typeOr "void").bind_eq fun returnType => inStep_methodName.bind_eq fun name => ?_
  refine inStep_skipBlanks.bind_eq fun _ =>
    (Lockstep.loop inStep_argumentsRound []).bind_eq fun arguments => ?_
  exact (inStep_pass (by decide) (by decide)).bind_eq fun _ => .pure fun _ _ _ h => ⟨rfl, h⟩

theorem inStep_property (access : Access) : InStep e e' (property access) (property access) :=
  (inStep_typeOr "mixed").bind_eq fun _ => inStep_variableName.bind_eq fun _ =>
    .pure fun _ _ _ h => ⟨rfl, h⟩

theorem inStep_typedName : InStep e e' typedName typedName :=
  (inStep_typeOr "mixed").bind_eq fun _ => inStep_optionalVariable.bind_eq fun _ =>
    .pure fun _ _ _ h => ⟨rfl, h⟩

/-- The names of what is used want a file, which goes on up to a blank. -/
def wantsFile : TagName → Bool
  | .uses | .usedBy => true
  | _ => false

theorem inStep_content {name : TagName} (h : wantsFile name = false) :
    InStep e e' (content name) (content name) := by
  have hbare : ∀ content : Content, InStep e e' (pure content) (pure content) :=
    fun _ => .pure fun _ _ _ h => ⟨rfl, h⟩
  cases name with
  | api => exact hbare .api
  | author => exact inStep_author.map _
  | copyright => exact hbare .copyright
  | deprecated => exact (inStep_tryElse inStep_version (.pure fun _ _ _ h => ⟨rfl, h⟩)).map _
  | inheritDoc => exact hbare .inheritDoc
  | internal => exact hbare .internal
  | link => exact inStep_link.map _
  | method => exact inStep_signature.map _
  | package => exact inStep_className.map _
  | param => exact inStep_typedName.map _
  | property => exact (inStep_property _).map _
  | propertyRead => exact (inStep_property _).map _
  | propertyWrite => exact (inStep_property _).map _
  | returns => exact (inStep_typeName false).map _
  | see => exact inStep_reference.map _
  | since => exact inStep_version.map _
  | throws => exact inStep_className.map _
  | todo => exact hbare .todo
  | uses => cases h
  | usedBy => cases h
  | var => exact inStep_typedName.map _
  | version => exact inStep_version.map _

end DocComment.Grammar
