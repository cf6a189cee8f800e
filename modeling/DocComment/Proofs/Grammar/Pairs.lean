import DocComment.Grammar.Comment
import DocComment.Proofs.Cursor.Pairs
import DocComment.Proofs.Document.Blocks

/-!
# The rules side by side

Two readings by one rule of the grammar, from cursors that show the same, answer the same or are
refused for the same. Where a token is met, only its kind and its text are looked at; its offset
goes nowhere but into the cause of a refusal. A rule that is tried and refused is refused in both
readings, and both go back to the same place.
-/

namespace DocComment

namespace Grammar

open Reading (Pairs RoundPair ResultPair)
open Token (Alike)

variable {T : Token → Token → Prop} (hT : ∀ {t u}, Alike t u → T t u) {α : Type}

theorem pairs_skipBlanks : Pairs T Eq skipBlanks skipBlanks := Pairs.skipWhile _

include hT

/-- Both readings meet a token that they do not want. -/
theorem pairs_refuse {R : α → α → Prop} {t t' : Token} (h : t.Alike t') :
    Pairs T R (Reading.refuse (.unexpectedToken t)) (Reading.refuse (.unexpectedToken t')) :=
  .refuse (.unexpectedToken (hT h))

theorem pairs_expect (kind : Kind) : Pairs T Alike (expect kind) (expect kind) := by
  refine Pairs.current_bind (.refuse .unexpectedEnd) fun t t' h => ?_
  dsimp only
  rw [h.kind]
  split
  · exact Pairs.moveNext_bind fun _ => .pure h
  · exact pairs_refuse hT h

theorem pairs_pass (kind : Kind) : Pairs T Eq (pass kind) (pass kind) :=
  (pairs_expect hT kind).bind fun _ _ _ => .pure rfl

omit hT in
theorem pairs_collect (accept : Kind → Bool) :
    Pairs T (fun a b => a.1 = b.1) (collect accept) (collect accept) := by
  have hround : ∀ collected, Pairs T (RoundPair Eq) (collectRound accept collected)
      (collectRound accept collected) := by
    intro collected
    refine Pairs.current_bind (.pure (.done rfl)) fun t t' h => ?_
    dsimp only
    rw [h.kind, h.text]
    split
    · exact Pairs.moveNext_bind fun _ => .pure (.again _)
    · exact .pure (.done rfl)
  have hstart : Pairs T (fun _ _ => True) currentOffset currentOffset :=
    .get fun _ _ _ => Pairs.current.bind fun _ _ _ => .pure trivial
  exact hstart.bind fun _ _ _ => (Pairs.loop hround []).bind fun _ _ htext => .pure htext

omit hT in
theorem pairs_require (form : Form) {text text' : Text} (h : text = text') (offset offset' : Nat) :
    Pairs T Eq (require form text offset) (require form text' offset') := by
  subst h
  rw [require, require]
  split
  · exact .pure rfl
  · exact .refuse (.malformed form text offset offset')

omit hT in
theorem pairs_collectForm (form : Form) (accept : Kind → Bool) :
    Pairs T Eq (collectForm form accept) (collectForm form accept) :=
  (pairs_collect accept).bind fun _ _ h => pairs_require form h _ _

omit hT in
/-- A rule that is refused is refused in both readings. -/
theorem pairs_tryElse {R : α → α → Prop} {first first' second second' : Reading α}
    (hfirst : Pairs T R first first') (hsecond : Pairs T R second second') :
    Pairs T R (tryElse first second) (tryElse first' second') := by
  intro c c' hc
  have hpair := hfirst c c' hc
  unfold tryElse
  generalize first c = result at hpair ⊢
  generalize first' c' = result' at hpair ⊢
  cases hpair with
  | ok answer cursor => exact .ok answer cursor
  | error pair cursor =>
    cases pair with
    | syntaxError _ => exact hsecond _ _ ⟨cursor.buffer, cursor.pending, hc.position, hc.position⟩
    | outOfRange => exact .error .outOfRange cursor
    | stalled => exact .error .stalled cursor

/-! ## Names, versions and references -/

theorem pairs_variableName : Pairs T Eq variableName variableName := by
  refine (pairs_expect hT _).bind fun dollar dollar' _ =>
    (pairs_collect _).bind fun text text' htext => ?_
  exact pairs_require _ (congrArg _ htext) _ _

theorem pairs_systemRound (collected : Text) :
    Pairs T (RoundPair Eq) (systemRound collected) (systemRound collected) := by
  refine Pairs.current_bind (.refuse .unexpectedEnd) fun t t' h => ?_
  dsimp only
  rw [h.kind, h.text]
  split
  · exact (pairs_pass hT _).bind fun _ _ _ => .pure (.done rfl)
  · exact Pairs.moveNext_bind fun _ => .pure (.again _)

theorem pairs_version : Pairs T Eq version version := by
  refine (pairs_collectForm _ _).bind fun head head' hhead => ?_
  subst hhead
  split
  · refine pairs_skipBlanks.bind fun _ _ _ => (pairs_pass hT _).bind fun _ _ _ => ?_
    exact Pairs.loop (pairs_systemRound hT) _
  · exact .pure rfl

omit hT in
theorem pairs_reference : Pairs T Eq reference reference :=
  pairs_tryElse (pairs_collectForm _ _) (pairs_collectForm _ _)

omit hT in
theorem pairs_usage : Pairs T Eq usage usage :=
  pairs_tryElse (pairs_collectForm _ _)
    (pairs_tryElse (pairs_collectForm _ _) (pairs_collectForm _ _))

/-! ## Types -/

theorem pairs_selfType : Pairs T Eq selfType selfType := by
  refine (pairs_pass hT _).bind fun _ _ _ => ?_
  refine Pairs.current_bind (.refuse .unexpectedEnd) fun t t' h => ?_
  dsimp only
  rw [h.text]
  split
  · exact Pairs.moveNext_bind fun _ => .pure rfl
  · exact pairs_refuse hT h

theorem pairs_typeOperand {inner : Reading Text} (hinner : Pairs T Eq inner inner) :
    Pairs T Eq (typeOperand inner) (typeOperand inner) := by
  refine Pairs.current_bind (.refuse .unexpectedEnd) fun t t' h => ?_
  dsimp only
  rw [h.kind]
  split
  · exact hinner
  · exact pairs_selfType hT
  · exact pairs_collectForm _ _
  · exact pairs_collectForm _ _
  · exact pairs_refuse hT h

theorem pairs_bracketsRound (collected : Text) :
    Pairs T (RoundPair Eq) (bracketsRound collected) (bracketsRound collected) := by
  refine Pairs.isAt_bind fun found => ?_
  split
  · exact (pairs_pass hT _).bind fun _ _ _ => (pairs_pass hT _).bind fun _ _ _ => .pure (.again _)
  · exact .pure (.done rfl)

theorem pairs_typeRound {inner : Reading Text} (hinner : Pairs T Eq inner inner) (nested : Bool)
    (collected : Text) :
    Pairs T (RoundPair Eq) (typeRound inner nested collected)
      (typeRound inner nested collected) := by
  refine (pairs_typeOperand hT hinner).bind fun operand operand' hoperand => ?_
  subst hoperand
  refine (Pairs.loop (pairs_bracketsRound hT) _).bind fun text text' htext => ?_
  subst htext
  refine Pairs.current_bind (.pure (.done rfl)) fun t t' h => ?_
  dsimp only
  rw [h.kind, h.text]
  split
  · exact .pure (.done rfl)
  · split
    · exact Pairs.moveNext_bind fun _ => .pure (.again _)
    · exact pairs_refuse hT h

theorem pairs_typeBelow (depth : Nat) (nested : Bool) :
    Pairs T Eq (typeBelow depth nested) (typeBelow depth nested) := by
  induction depth generalizing nested with
  | zero => exact .stalled
  | succ depth ih =>
    cases nested with
    | false => exact Pairs.loop (pairs_typeRound hT (ih true) false) []
    | true =>
      refine (pairs_pass hT _).bind fun _ _ _ => ?_
      refine (Pairs.loop (pairs_typeRound hT (ih true) true) []).bind fun body body' hbody => ?_
      subst hbody
      exact (pairs_pass hT _).bind fun _ _ _ => .pure rfl

theorem pairs_typeName (nested : Bool) : Pairs T Eq (typeName nested) (typeName nested) := by
  refine .get fun c c' hc => ?_
  rw [hc.position, hc.ahead]
  exact pairs_typeBelow hT _ nested

theorem pairs_leadingType : Pairs T Eq leadingType leadingType :=
  (pairs_typeName hT _).bind fun _ _ hname => pairs_skipBlanks.bind fun _ _ _ => .pure hname

/-! ## Descriptions -/

theorem pairs_openInline (name : TagName) : Pairs T Eq (openInline name) (openInline name) :=
  (pairs_pass hT _).bind fun _ _ _ => pairs_skipBlanks.bind fun _ _ _ =>
    (pairs_pass hT _).bind fun _ _ _ => pairs_skipBlanks

theorem pairs_inlineTag {inner : Reading Prose} (hinner : Pairs T Eq inner inner) (kind : Kind) :
    Pairs T Eq (inlineTag inner kind) (inlineTag inner kind) := by
  have hprose : ∀ tag : Prose → Tag,
      Pairs T Eq (inner >>= fun prose => pass .rightBrace >>= fun _ => return some (tag prose))
        (inner >>= fun prose => pass .rightBrace >>= fun _ => return some (tag prose)) := by
    intro tag
    refine hinner.bind fun prose prose' h => ?_
    subst h
    exact (pairs_pass hT _).bind fun _ _ _ => .pure rfl
  rw [inlineTag.eq_def]
  split
  · exact (pairs_openInline hT _).bind fun _ _ _ => (pairs_pass hT _).bind fun _ _ _ => .pure rfl
  · exact (pairs_openInline hT _).bind fun _ _ _ => hprose _
  · refine (pairs_openInline hT _).bind fun _ _ _ =>
      (pairs_collectForm _ _).bind fun target target' h => ?_
    subst h
    exact pairs_skipBlanks.bind fun _ _ _ => hprose _
  · exact .pure rfl

theorem pairs_inlineTagHere {inner : Reading Prose} (hinner : Pairs T Eq inner inner)
    (kind : Kind) :
    Pairs T Eq (inlineTagHere inner kind) (inlineTagHere inner kind) := by
  rw [inlineTagHere]
  split
  · refine Pairs.peekReset.bind fun _ _ _ => (Pairs.peekPast _).bind fun found found' hfound => ?_
    cases hfound with
    | none => exact .pure rfl
    | @some next next' h =>
      dsimp only
      rw [h.kind]
      exact pairs_inlineTag hT hinner _
  · exact .pure rfl

theorem pairs_descriptionRound {inner : Reading Prose} (hinner : Pairs T Eq inner inner)
    (braced : Bool) (prose : Prose) :
    Pairs T (RoundPair Eq) (descriptionRound inner braced prose)
      (descriptionRound inner braced prose) := by
  refine Pairs.current_bind (.refuse .unexpectedEnd) fun t t' h => ?_
  dsimp only
  rw [h.kind, h.text]
  split
  · exact .pure (.done rfl)
  · refine (pairs_inlineTagHere hT hinner _).bind fun tag tag' htag => ?_
    subst htag
    cases tag with
    | none => exact Pairs.moveNext_bind fun _ => .pure (.again _)
    | some tag => exact .pure (.again _)

theorem pairs_descriptionBelow (depth : Nat) (braced : Bool) :
    Pairs T Eq (descriptionBelow depth braced) (descriptionBelow depth braced) := by
  induction depth generalizing braced with
  | zero => exact .stalled
  | succ depth ih => exact Pairs.loop (pairs_descriptionRound hT (ih true) braced) _

theorem pairs_description : Pairs T Eq description description := by
  refine .get fun c c' hc => ?_
  rw [hc.position, hc.ahead]
  exact pairs_descriptionBelow hT _ _

/-! ## Block tags -/

theorem pairs_author : Pairs T Eq author author := by
  refine (pairs_collect _).bind fun name name' hname => Pairs.isAt_bind fun found => ?_
  rw [hname]
  split
  · refine (pairs_pass hT _).bind fun _ _ _ =>
      (pairs_collect _).bind fun address address' haddress => ?_
    refine Pairs.current.bind fun found found' hfound => ?_
    have hrest : Pairs T Eq
        (require .email (Text.strip address.1) address.2 >>= fun email =>
          pass .rightAngle >>= fun _ => return (⟨Text.strip name'.1, email⟩ : Author))
        (require .email (Text.strip address'.1) address'.2 >>= fun email =>
          pass .rightAngle >>= fun _ => return ⟨Text.strip name'.1, email⟩) := by
      refine (pairs_require _ (congrArg _ haddress) _ _).bind fun email email' hemail => ?_
      subst hemail
      exact (pairs_pass hT _).bind fun _ _ _ => .pure rfl
    cases hfound with
    | none => exact Pairs.bind (R := Eq) (.refuse .unexpectedEnd) fun _ _ _ => hrest
    | some _ => exact hrest
  · exact .pure rfl

theorem pairs_typeOr (default : String) : Pairs T Eq (typeOr default) (typeOr default) :=
  pairs_tryElse (pairs_leadingType hT) (.pure rfl)

theorem pairs_optionalVariable : Pairs T Eq optionalVariable optionalVariable := by
  refine Pairs.isAt_bind fun found => ?_
  split
  · exact pairs_variableName hT
  · exact .pure rfl

theorem pairs_argument : Pairs T Eq argument argument := by
  refine (pairs_tryElse (pairs_typeName hT _) (.pure rfl)).bind fun type type' htype => ?_
  subst htype
  refine pairs_skipBlanks.bind fun _ _ _ => (pairs_variableName hT).bind fun name name' hname => ?_
  subst hname
  exact pairs_skipBlanks.bind fun _ _ _ => .pure rfl

theorem pairs_argumentsRound (arguments : List TypedName) :
    Pairs T (RoundPair Eq) (argumentsRound arguments) (argumentsRound arguments) := by
  refine Pairs.current_bind (.pure (.done rfl)) fun t t' h => ?_
  dsimp only
  rw [h.kind]
  split
  · exact .pure (.done rfl)
  · refine (pairs_argument hT).bind fun a a' ha => Pairs.isAt_bind fun comma => ?_
    subst ha
    split
    · exact (pairs_pass hT _).bind fun _ _ _ => pairs_skipBlanks.bind fun _ _ _ => .pure (.again _)
    · exact .pure (.done rfl)

theorem pairs_methodName : Pairs T Eq methodName methodName := by
  refine (pairs_collect _).bind fun name name' hname => Pairs.isAt_bind fun found => ?_
  split
  · exact (pairs_pass hT _).bind fun _ _ _ => pairs_require _ hname _ _
  · exact pairs_require _ hname _ _

theorem pairs_signature : Pairs T Eq signature signature := by
  refine (pairs_typeOr hT _).bind fun type type' htype =>
    (pairs_methodName hT).bind fun name name' hname => ?_
  subst htype hname
  refine pairs_skipBlanks.bind fun _ _ _ => ?_
  refine (Pairs.loop (pairs_argumentsRound hT) []).bind fun arguments arguments' harguments => ?_
  subst harguments
  exact (pairs_pass hT _).bind fun _ _ _ => .pure rfl

theorem pairs_property (access : Access) : Pairs T Eq (property access) (property access) := by
  refine (pairs_typeOr hT _).bind fun type type' htype =>
    (pairs_variableName hT).bind fun name name' hname => ?_
  subst htype hname
  exact .pure rfl

theorem pairs_typedName : Pairs T Eq typedName typedName := by
  refine (pairs_typeOr hT _).bind fun type type' htype => ?_
  refine (pairs_optionalVariable hT).bind fun name name' hname => ?_
  subst htype hname
  exact .pure rfl

theorem pairs_content (name : TagName) : Pairs T Eq (content name) (content name) := by
  cases name with
  | api | copyright | inheritDoc | internal | todo => exact .pure rfl
  | author => exact (pairs_author hT).map _
  | deprecated => exact (pairs_tryElse (pairs_version hT) (.pure rfl)).map _
  | link => exact (pairs_collectForm _ _).map _
  | method => exact (pairs_signature hT).map _
  | package | throws => exact (pairs_collectForm _ _).map _
  | param | var => exact (pairs_typedName hT).map _
  | property | propertyRead | propertyWrite => exact (pairs_property hT _).map _
  | returns => exact (pairs_typeName hT _).map _
  | see => exact pairs_reference.map _
  | since | version => exact (pairs_version hT).map _
  | uses | usedBy => exact pairs_usage.map _

theorem pairs_blockTag (name : TagName) : Pairs T Eq (blockTag name) (blockTag name) := by
  refine (pairs_pass hT _).bind fun _ _ _ => pairs_skipBlanks.bind fun _ _ _ => ?_
  refine (pairs_content hT name).bind fun content content' hcontent => ?_
  subst hcontent
  split
  · exact .pure rfl
  · refine pairs_skipBlanks.bind fun _ _ _ =>
      (pairs_description hT).bind fun prose prose' hprose => ?_
    subst hprose
    exact .pure rfl

theorem pairs_blockTagsRound (document : Document) :
    Pairs T (RoundPair Eq) (blockTagsRound document) (blockTagsRound document) := by
  refine Pairs.current_bind (.pure (.done rfl)) fun t t' h => ?_
  obtain ⟨kind, text, offset⟩ := t
  obtain ⟨kind', text', offset'⟩ := t'
  obtain rfl : kind = kind' := h.kind
  cases kind with
  | tag name =>
    refine (pairs_blockTag hT name).bind fun tag tag' htag => pairs_skipBlanks.bind fun _ _ _ => ?_
    subst htag
    exact .pure (.again _)
  | _ => exact .pure (.done rfl)

theorem pairs_comment : Pairs T Eq comment comment := by
  refine pairs_skipBlanks.bind fun _ _ _ => (pairs_pass hT _).bind fun _ _ _ => ?_
  refine pairs_skipBlanks.bind fun _ _ _ =>
    (pairs_description hT).bind fun prose prose' hprose => ?_
  subst hprose
  refine (Pairs.loop (pairs_blockTagsRound hT) _).bind fun document document' hdocument => ?_
  subst hdocument
  refine (pairs_pass hT _).bind fun _ _ _ => pairs_skipBlanks.bind fun _ _ _ => ?_
  exact (pairs_pass hT _).bind fun _ _ _ => .pure rfl

end Grammar

open Screening (Item)

variable {T : Token → Token → Prop}

/-- Two texts whose items are the same but for where they are give the same answer, or two failures
of one kind. -/
theorem Reading.Pairs.onText {α : Type} {r : Reading α} {s s' : Text} (hr : Pairs T Eq r r)
    (hitems : List.Forall₂ (Item.Pair T) (Screening.items s) (Screening.items s')) :
    (∃ a, r.onText s = .ok a ∧ r.onText s' = .ok a) ∨
      ∃ failure failure', r.onText s = .error failure ∧ r.onText s' = .error failure' ∧
        failure.Pair T failure' := by
  have hpair := hr (Cursor.ofText s) (Cursor.ofText s') ⟨.nil, hitems, rfl, rfl⟩
  unfold Reading.onText
  generalize r (Cursor.ofText s) = result at hpair ⊢
  generalize r (Cursor.ofText s') = result' at hpair ⊢
  cases hpair with
  | ok answer _ => exact .inl ⟨_, rfl, congrArg _ answer.symm⟩
  | error pair _ => exact .inr ⟨_, _, rfl, rfl, pair⟩

/-- Two comments are read as the same document, or they are refused for the same. -/
def Document.SameReading (T : Token → Token → Prop) (text text' : Text) : Prop :=
  (∃ document, Document.parse text = .ok document ∧ Document.parse text' = .ok document) ∨
    ∃ e e' : SyntaxError, Document.parse text = .error (.syntaxError e) ∧
      Document.parse text' = .error (.syntaxError e') ∧ e.cause.Pair T e'.cause

theorem Document.sameReading (hT : ∀ {t u}, Token.Alike t u → T t u) {text text' : Text}
    (hblank : Text.strip text = [] ↔ Text.strip text' = [])
    (hitems : List.Forall₂ (Item.Pair T) (Screening.items (Text.strip text))
      (Screening.items (Text.strip text'))) : SameReading T text text' := by
  by_cases hnil : Text.strip text = []
  · have hnil' := hblank.mp hnil
    exact .inl ⟨{}, by rw [Document.parse, if_pos hnil], by rw [Document.parse, if_pos hnil']⟩
  · have hnil' : Text.strip text' ≠ [] := fun h => hnil (hblank.mpr h)
    have hparse : Document.parse text = Grammar.comment.onText (Text.strip text) := if_neg hnil
    have hparse' : Document.parse text' = Grammar.comment.onText (Text.strip text') := if_neg hnil'
    rw [SameReading, hparse, hparse']
    refine ((Grammar.pairs_comment hT).onText hitems).imp_right fun hfailed => ?_
    obtain ⟨failure, failure', hfailure, hfailure', hpair⟩ := hfailed
    obtain ⟨cause, rfl, -⟩ := Grammar.comment_error hfailure
    obtain ⟨cause', rfl, -⟩ := Grammar.comment_error hfailure'
    cases hpair with
    | syntaxError h => exact ⟨_, _, hfailure, hfailure', h⟩

end DocComment
