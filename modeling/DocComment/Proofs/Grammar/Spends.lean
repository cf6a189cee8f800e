import DocComment.Proofs.Cursor.Spends
import DocComment.Proofs.Grammar.Takes

/-!
# What the rules cost

Four rounds for each token and a few besides are enough for a rule that tries nothing. A rule that
is tried and refused is paid for in full and has taken nothing, so what it may cost in front of all
tokens is added to the price besides; in the loops over arguments and over block tags this falls due
in every round, and each round takes at least one token.
-/

namespace DocComment

namespace Grammar

open Shape (walk)

variable {α β : Type} {n w e k credit : Nat} {tokens : List Token} {S : β → List Token → Nat → Prop}

theorem spends_expect {kind : Kind} {f : Token → Reading β} {next : ∀ t, Shape (f t)}
    (h : ∀ t rest, tokens.length = rest.length + 1 → Spends (next t) rest credit S) :
    Spends ((walk.expect kind).bind next) tokens credit S := by
  have hexpect : Spends (walk.expect kind) tokens credit fun _ rest left =>
      tokens.length = rest.length + 1 ∧ left = credit := by
    refine .current_bind .refuse fun t ht => .ite (fun _ => ?_) fun _ => .refuse
    exact .moveNext_bind ht fun _ rest hrest => .pure ⟨hrest, rfl⟩
  refine hexpect.bind fun t rest left hrest => ?_
  obtain ⟨hrest, rfl⟩ := hrest
  exact h t rest hrest

/-- A reading that goes on behind a token of a kind. -/
theorem spends_pass {kind : Kind} {f : Unit → Reading β} {next : ∀ a, Shape (f a)}
    (h : ∀ rest, tokens.length = rest.length + 1 → Spends (next ()) rest credit S) :
    Spends ((walk.pass kind).bind next) tokens credit S := by
  have hpass : Spends (walk.pass kind) tokens credit fun _ rest left =>
      tokens.length = rest.length + 1 ∧ left = credit :=
    spends_expect fun _ rest hrest => .pure ⟨hrest, rfl⟩
  refine hpass.bind fun _ rest left hrest => ?_
  obtain ⟨hrest, rfl⟩ := hrest
  exact h rest hrest

theorem settles_skipWhile (kind : Kind) : Settles n 4 1 (walk.skipWhileRound kind) := by
  intro tokens credit _ _ h
  refine .isAt_bind (fun t ht => ?_) (.pure (.same (by omega)))
  exact .moveNext_bind ht fun _ rest hrest => .pure (.again (by omega) (by omega))

theorem costs_skipBlanks : Costs n 4 1 0 walk.skipBlanks :=
  Costs.loop (settles_skipWhile _) (by omega) ()

theorem settles_collect (accept : Kind → Bool) : Settles n 4 1 (walk.collectRound accept) := by
  intro tokens credit _ _ h
  refine .current_bind (.pure (.same (by omega))) fun t ht => .ite (fun _ => ?_) fun _ =>
    .pure (.same (by omega))
  exact .moveNext_bind ht fun _ rest hrest => .pure (.again (by omega) (by omega))

theorem costs_collect (accept : Kind → Bool) : Costs n 4 1 0 (walk.collect accept) := by
  intro tokens credit hn h
  have hoffset : Spends walk.currentOffset tokens credit fun _ rest left =>
      rest = tokens ∧ left = credit :=
    .get fun _ => .current_bind (.pure ⟨rfl, rfl⟩) fun _ _ => .pure ⟨rfl, rfl⟩
  refine hoffset.bind fun _ rest left hrest => ?_
  obtain ⟨rfl, rfl⟩ := hrest
  refine (Costs.loop (settles_collect accept) (by omega) _).bind hn h
    fun _ behind last hbehind hpaid => ?_
  exact .pure ⟨hbehind, hpaid⟩

theorem costs_require {form : Form} {text : Text} {offset : Nat} :
    Costs n 4 0 0 (walk.require form text offset) :=
  fun _ _ _ _ => .ite (fun _ => .pure ⟨Nat.le_refl _, Nat.le_refl _⟩) fun _ => .refuse

theorem costs_collectForm (form : Form) (accept : Kind → Bool) :
    Costs n 4 1 0 (walk.collectForm form accept) := by
  intro tokens credit hn h
  refine (costs_collect accept).bind hn h fun _ rest left hrest hpaid => ?_
  exact (costs_require (Nat.le_refl _) (by omega)).imp fun _ behind last hbehind =>
    ⟨by omega, by omega⟩

/-- A rule that is tried before another is paid for in front of all tokens. -/
theorem costs_tryElse {r q : Reading α} {first : Shape r} {second : Shape q} {e' : Nat}
    (hfirst : Costs n w e 0 first) (hsecond : Costs n w e' 0 second) :
    Costs n w (w * n + e + e') 0 (Shape.tryElse first second) := by
  intro tokens credit hn h
  have hall : w * tokens.length ≤ w * n := Nat.mul_le_mul_left _ hn
  refine .tryElse (hfirst hn (Nat.le_refl _)) (by omega) (fun a rest left hrest => ?_)
    fun left hleft => ?_
  · exact ⟨hrest.1, by omega⟩
  · exact (hsecond hn (by omega)).imp fun a rest last hrest => ⟨hrest.1, by omega⟩

theorem costs_pure (a : α) : Costs n w 0 0 (Shape.pure a) :=
  fun _ _ _ _ => .pure ⟨Nat.le_refl _, Nat.le_refl _⟩

theorem costs_map {r : Reading α} {first : Shape r} (g : α → β) (h : Costs n w e k first) :
    Costs n w e k (walk.map g first) :=
  fun _ _ hn hcredit => h.bind hn hcredit fun _ _ _ hrest hpaid => .pure ⟨hrest, hpaid⟩

/-! ## Names, versions and references -/

theorem costs_variableName : Costs n 4 1 1 walk.variableName := by
  intro tokens credit hn h
  refine spends_expect fun dollar rest hrest => ?_
  refine (costs_collect _).bind (Nat.le_refl _) (by omega) fun _ behind left hbehind hpaid => ?_
  exact (costs_require (Nat.le_refl _) (by omega)).imp fun _ last final hlast =>
    ⟨by omega, by omega⟩

theorem settles_system : Settles n 4 1 walk.systemRound := by
  intro tokens credit _ _ h
  refine .current_bind .refuse fun t ht => .ite (fun _ => ?_) fun _ => ?_
  · exact spends_pass fun rest hrest => .pure (.done (by omega) (by omega))
  · exact .moveNext_bind ht fun _ rest hrest => .pure (.again (by omega) (by omega))

theorem costs_version : Costs n 4 3 0 walk.version := by
  intro tokens credit hn h
  refine (costs_collectForm _ _).bind hn (by omega) fun head rest left hrest hpaid => ?_
  refine .ite (fun _ => ?_) fun _ => .pure ⟨by omega, by omega⟩
  refine costs_skipBlanks.bind (Nat.le_refl _) (by omega) fun _ solid last hsolid hmore => ?_
  refine spends_pass fun behind hbehind => ?_
  exact (Costs.loop settles_system (by omega) _ (Nat.le_refl _) (by omega)).imp
    fun _ final spare hfinal =>
    ⟨by omega, by omega⟩

theorem costs_reference : Costs n 4 (4 * n + 2) 0 (walk.reference trivial) :=
  costs_tryElse (costs_collectForm _ _) (costs_collectForm _ _)

theorem costs_usage : Costs n 4 (8 * n + 3) 0 (walk.usage trivial trivial) :=
  (costs_tryElse (costs_collectForm _ _)
    (costs_tryElse (costs_collectForm _ _) (costs_collectForm _ _))).imp (Nat.le_refl _) (by omega)

/-! ## Types -/

theorem spends_selfType : Spends walk.selfType tokens credit fun _ rest left =>
    rest.length + 1 ≤ tokens.length ∧ left = credit := by
  refine spends_pass fun rest hrest => .current_bind .refuse fun t ht =>
    .ite (fun _ => ?_) fun _ => .refuse
  exact .moveNext_bind ht fun _ behind hbehind => .pure ⟨by omega, rfl⟩

/-- A class name takes the token that it was recognised by. -/
theorem spends_className {t : Token} (ht : tokens.head? = some t)
    (hkind : t.kind = .string ∨ t.kind = .backslash) (h : 4 * tokens.length + 1 ≤ credit) :
    Spends walk.className tokens credit fun _ rest left =>
      rest.length + 1 ≤ tokens.length ∧
      credit + 4 * rest.length ≤ left + 4 * tokens.length + 1 := by
  have hcost : Spends walk.className tokens credit _ := costs_collectForm _ _ (Nat.le_refl _) h
  refine (hcost.and_takes (takes_collectForm _ _)).imp fun _ rest left hrest => ⟨?_, hrest.1.2⟩
  obtain ⟨-, taken, rfl, -, -, hrun⟩ := hrest
  cases taken with
  | nil =>
    have hstop := hrun.stop t ht
    rcases hkind with hkind | hkind <;> rw [hkind] at hstop <;> cases hstop
  | cons first taken =>
    rw [List.length_append, List.length_cons]
    omega

theorem costs_typeOperand {inner : Reading Text} {within : Shape inner}
    (hinner : Costs n 4 1 1 within) :
    Costs n 4 1 1 (walk.typeOperand within) := by
  intro tokens credit hn h
  refine .current_bind .refuse fun t ht => ?_
  obtain ⟨kind, text, offset⟩ := t
  cases kind
  case leftParen => exact hinner hn h
  case dollar => exact spends_selfType.imp fun _ rest left hrest => ⟨hrest.1, by omega⟩
  case backslash => exact spends_className ht (.inr rfl) h
  case string => exact spends_className ht (.inl rfl) h
  all_goals exact .refuse

theorem settles_brackets : Settles n 4 1 walk.bracketsRound := by
  intro tokens credit _ _ h
  refine .isAt_bind (fun _ _ => ?_) (.pure (.same (by omega)))
  exact spends_pass fun rest hrest => spends_pass fun behind hbehind =>
    .pure (.again (by omega) (by omega))

/-- The sign between two operands pays for the round and for what it spends besides. -/
theorem settles_type {inner : Reading Text} {within : Shape inner} (hinner : Costs n 4 1 1 within)
    (nested : Bool) :
    Settles n 4 3 (walk.typeRound within nested) := by
  intro tokens credit _ hn h
  have hbrackets : ∀ text, Costs n 4 1 0 (walk.loop walk.bracketsRound text) :=
    Costs.loop settles_brackets (by omega)
  refine (costs_typeOperand hinner).bind hn (by omega) fun operand rest left hrest hpaid => ?_
  refine (hbrackets _).bind (by omega) (by omega) fun _ behind last hbehind hmore => ?_
  refine .current_bind (.pure (.done (by omega) (by omega))) fun t ht => ?_
  refine .ite (fun _ => .pure (.done (by omega) (by omega))) fun _ =>
    .ite (fun _ => ?_) fun _ => .refuse
  exact .moveNext_bind ht fun _ final hfinal => .pure (.again (by omega) (by omega))

/-- The opening parenthesis pays for what a type spends besides. -/
theorem costs_typeBelow (depth : Nat) : Costs n 4 1 1 (walk.typeBelow depth true) := by
  induction depth with
  | zero => exact fun _ _ _ _ => .stalled
  | succ depth ih =>
    intro tokens credit hn h
    refine spends_pass fun rest hrest => ?_
    refine (Costs.loop (settles_type ih true) (by omega) _).bind (by omega) (by omega)
      fun _ behind left hbehind _ => ?_
    exact spends_pass fun last hlast => .pure ⟨by omega, by omega⟩

theorem costs_typeName (nested : Bool) : Costs n 4 3 0 (walk.typeName nested) := by
  intro tokens credit hn h
  refine .get fun c => ?_
  cases nested with
  | false => exact Costs.loop (settles_type (costs_typeBelow _) false) (by omega) _ hn h
  | true => exact (costs_typeBelow _).imp (Nat.le_refl _) (by omega) hn h

theorem costs_leadingType : Costs n 4 4 0 walk.leadingType := by
  intro tokens credit hn h
  refine (costs_typeName false).bind hn (by omega) fun _ rest left hrest hpaid => ?_
  exact costs_skipBlanks.bind (Nat.le_refl _) (by omega) fun _ behind last hbehind hmore =>
    .pure ⟨by omega, by omega⟩

/-! ## Descriptions -/

theorem spends_openInline {name : TagName} {f : Unit → Reading β} {next : ∀ a, Shape (f a)}
    (h : 4 * tokens.length ≤ credit)
    (hnext : ∀ rest left, rest.length + 2 ≤ tokens.length →
      credit + 4 * rest.length + 6 ≤ left + 4 * tokens.length → Spends (next ()) rest left S) :
      Spends ((walk.openInline name).bind next) tokens credit S := by
  have hopen : Spends (walk.openInline name) tokens credit fun _ rest left =>
      rest.length + 2 ≤ tokens.length ∧
        credit + 4 * rest.length + 6 ≤ left + 4 * tokens.length := by
    refine spends_pass fun rest hrest => ?_
    refine costs_skipBlanks.bind (Nat.le_refl _) (by omega) fun _ behind left hbehind hpaid => ?_
    refine spends_pass fun last hlast => ?_
    exact (costs_skipBlanks (Nat.le_refl _) (by omega)).imp fun _ final more hfinal =>
      ⟨by omega, by omega⟩
  exact hopen.bind fun _ rest left hrest => hnext rest left hrest.1 hrest.2

/-- An inline tag has paid for itself and for one round more. Where there is none, nothing is taken
or spent. -/
def TagPaid (tokens : List Token) (credit : Nat) (tag : Option Tag) (rest : List Token)
    (left : Nat) : Prop :=
  match tag with
  | none => rest = tokens ∧ left = credit
  | some _ => rest.length ≤ tokens.length ∧ credit + 1 + 4 * rest.length ≤ left + 4 * tokens.length

/-- The braces of an inline tag and its name pay for what it spends besides. -/
theorem spends_inlineTag {inner : Reading Prose} {within : Shape inner}
    (hinner : Costs n 4 1 0 within) (kind : Kind) (hn : tokens.length ≤ n)
    (h : 4 * tokens.length ≤ credit) :
    Spends (walk.inlineTag within kind) tokens credit (TagPaid tokens credit) := by
  have hnone : Spends (.pure none) tokens credit (TagPaid tokens credit) :=
    .pure (And.intro rfl rfl)
  cases kind
  case tag name =>
    cases name
    case inheritDoc =>
      refine spends_openInline h fun rest left hrest hpaid =>
        spends_pass fun behind hbehind => .pure ?_
      exact And.intro (by omega) (by omega)
    case internal =>
      refine spends_openInline h fun rest left hrest hpaid => ?_
      refine hinner.bind (by omega) (by omega) fun _ behind last hbehind hmore => ?_
      exact spends_pass fun final hfinal => .pure (And.intro (by omega) (by omega))
    case link =>
      refine spends_openInline h fun rest left hrest hpaid => ?_
      refine (costs_collectForm _ _).bind (Nat.le_refl _) (by omega)
        fun _ behind last hbehind hmore => ?_
      refine costs_skipBlanks.bind (Nat.le_refl _) (by omega) fun _ solid spare hsolid hspare => ?_
      refine hinner.bind (by omega) (by omega) fun _ prose much hprose hmuch => ?_
      exact spends_pass fun final hfinal => .pure (And.intro (by omega) (by omega))
    all_goals exact hnone
  all_goals exact hnone

theorem spends_inlineTagHere {inner : Reading Prose} {within : Shape inner}
    (hinner : Costs n 4 1 0 within) (kind : Kind) (hn : tokens.length ≤ n)
    (h : 4 * tokens.length ≤ credit) :
    Spends (walk.inlineTagHere within kind) tokens credit (TagPaid tokens credit) := by
  refine .ite (fun _ => .peekPast_bind fun found => ?_) fun _ => .pure (And.intro rfl rfl)
  cases found with
  | none => exact .pure (And.intro rfl rfl)
  | some next => exact spends_inlineTag hinner _ hn h

theorem settles_description {inner : Reading Prose} {within : Shape inner}
    (hinner : Costs n 4 1 0 within) (braced : Bool) :
    Settles n 4 1 (walk.descriptionRound within braced) := by
  intro tokens credit prose hn h
  refine .current_bind .refuse fun t ht => .ite (fun _ => .pure (.same (by omega))) fun _ => ?_
  refine (spends_inlineTagHere hinner t.kind hn (by omega)).bind fun tag rest left htag => ?_
  cases tag with
  | some tag => exact .pure (.again htag.1 htag.2)
  | none =>
    obtain ⟨rfl, rfl⟩ := htag
    exact .moveNext_bind ht fun _ behind hbehind => .pure (.again (by omega) (by omega))

theorem costs_descriptionBelow (depth : Nat) (braced : Bool) :
    Costs n 4 1 0 (walk.descriptionBelow depth braced) := by
  induction depth generalizing braced with
  | zero => exact fun _ _ _ _ => .stalled
  | succ depth ih => exact Costs.loop (settles_description (ih true) braced) (by omega) _

theorem costs_description : Costs n 4 1 0 walk.description :=
  fun _ _ hn h => .get fun _ => costs_descriptionBelow _ false hn h

/-! ## Block tags -/

theorem costs_author : Costs n 4 2 0 walk.author := by
  intro tokens credit hn h
  refine (costs_collect _).bind hn (by omega) fun name rest left hrest hpaid => ?_
  refine .isAt_bind (fun _ _ => spends_pass fun behind hbehind => ?_) (.pure ⟨by omega, by omega⟩)
  refine (costs_collect _).bind (Nat.le_refl _) (by omega) fun address solid last hsolid hmore => ?_
  refine .current_bind ?_ fun _ _ => ?_
  all_goals
    refine .ite (fun _ => .refuse) fun _ => ?_
    refine costs_require.bind (Nat.le_refl _) (by omega) fun _ final spare hfinal hspare => ?_
    exact spends_pass fun behind hbehind => .pure ⟨by omega, by omega⟩

theorem costs_typeOr (default : String) : Costs n 4 (4 * n + 4) 0 (walk.typeOr trivial default) :=
  costs_tryElse costs_leadingType (costs_pure _)

theorem costs_optionalVariable : Costs n 4 1 0 walk.optionalVariable :=
  fun _ _ hn h => .isAt_bind
    (fun _ _ => costs_variableName.imp (Nat.le_refl _) (Nat.le_refl _) hn h)
    (.pure ⟨Nat.le_refl _, by omega⟩)

theorem costs_argument : Costs n 4 (4 * n + 6) 1 (walk.argument trivial) := by
  intro tokens credit hn h
  refine (costs_tryElse (costs_typeName false) (costs_pure _)).bind hn (by omega)
    fun _ rest left hrest hpaid => ?_
  refine costs_skipBlanks.bind (Nat.le_refl _) (by omega) fun _ behind last hbehind hmore => ?_
  refine costs_variableName.bind (Nat.le_refl _) (by omega) fun _ solid spare hsolid hspare => ?_
  exact costs_skipBlanks.bind (Nat.le_refl _) (by omega) fun _ final much hfinal hmuch =>
    .pure ⟨by omega, by omega⟩

/-- A higher price is enough for what was paid at a lower one. -/
theorem price_le {v l m : Nat} (hw : v ≤ w) (h : l ≤ m) : w * l + v * m ≤ w * m + v * l := by
  obtain ⟨more, rfl⟩ := Nat.exists_eq_add_of_le hw
  have hmore : more * l ≤ more * m := Nat.mul_le_mul_left more h
  rw [Nat.add_mul, Nat.add_mul]
  omega

/-- What is spent besides may be added to the price of a token where at least one is taken. -/
theorem price_lt {v l m : Nat} (hw : v + e ≤ w) (h : l < m) :
    w * l + v * m + e ≤ w * m + v * l := by
  have hle := price_le (v := v + e) hw (Nat.le_of_lt h)
  have hone : e * (l + 1) ≤ e * m := Nat.mul_le_mul_left e h
  rw [Nat.mul_succ] at hone
  rw [Nat.add_mul, Nat.add_mul] at hle
  omega

theorem settles_arguments (hw : 4 * n + 12 ≤ w) :
    Settles n w (4 * n + 8) (walk.argumentsRound trivial) := by
  intro tokens credit arguments hn h
  have hcheap : 4 * tokens.length ≤ w * tokens.length := Nat.mul_le_mul_right _ (by omega)
  refine .current_bind (.pure (.same (by omega))) fun t _ =>
    .ite (fun _ => .pure (.same (by omega))) fun _ => ?_
  refine costs_argument.bind hn (by omega) fun _ rest left hrest hpaid =>
    .isAt_bind (fun _ _ => ?_) ?_
  · refine spends_pass fun behind hbehind => ?_
    refine costs_skipBlanks.bind (Nat.le_refl _) (by omega) fun _ last spare hlast hspare => ?_
    have hprice := price_lt (v := 4) (e := 4 * n + 8) (w := w) (by omega)
      (show last.length < tokens.length by omega)
    exact .pure (.again (by omega) (by omega))
  · have hprice := price_le (v := 4) (w := w) (by omega) (Nat.le_of_lt hrest)
    exact .pure (.done hrest (by omega))

theorem costs_methodName : Costs n 4 1 0 walk.methodName := by
  intro tokens credit hn h
  refine (costs_collect _).bind hn h fun name rest left hrest hpaid => .isAt_bind (fun _ _ => ?_) ?_
  · refine spends_pass fun behind hbehind => ?_
    exact (costs_require (Nat.le_refl _) (by omega)).imp fun _ last final hlast =>
      ⟨by omega, by omega⟩
  · exact (costs_require (Nat.le_refl _) (by omega)).imp fun _ last final hlast =>
      ⟨by omega, by omega⟩

theorem costs_signature (hw : 4 * n + 12 ≤ w) :
    Costs n w (8 * n + 14) 0 (walk.signature trivial trivial) := by
  intro tokens credit hn h
  have htype : Costs n w (4 * n + 4) 0 (walk.typeOr trivial "void") :=
    (costs_typeOr _).imp (by omega) (Nat.le_refl _)
  have hname : Costs n w 1 0 walk.methodName := costs_methodName.imp (by omega) (Nat.le_refl _)
  have hblanks : Costs n w 1 0 walk.skipBlanks := costs_skipBlanks.imp (by omega) (Nat.le_refl _)
  have hloop : Costs n w (4 * n + 8) 0 (walk.loop (walk.argumentsRound trivial) []) :=
    Costs.loop (settles_arguments hw) (by omega) _
  refine htype.bind hn (by omega) fun _ rest left hrest hpaid => ?_
  refine hname.bind (by omega) (by omega) fun _ behind last hbehind hmore => ?_
  refine hblanks.bind (by omega) (by omega) fun _ solid spare hsolid hspare => ?_
  refine hloop.bind (by omega) (by omega) fun _ final much hfinal hmuch =>
    spends_pass fun closed hclosed => ?_
  have hless : w * closed.length ≤ w * final.length := Nat.mul_le_mul_left _ (by omega)
  exact .pure ⟨by omega, by omega⟩

theorem costs_property (access : Access) :
    Costs n 4 (4 * n + 5) 0 (walk.property trivial access) := by
  intro tokens credit hn h
  refine (costs_typeOr _).bind hn (by omega) fun _ rest left hrest hpaid => ?_
  exact costs_variableName.bind (Nat.le_refl _) (by omega) fun _ behind last hbehind hmore =>
    .pure ⟨by omega, by omega⟩

theorem costs_typedName : Costs n 4 (4 * n + 5) 0 (walk.typedName trivial) := by
  intro tokens credit hn h
  refine (costs_typeOr _).bind hn (by omega) fun _ rest left hrest hpaid => ?_
  refine costs_optionalVariable.bind (Nat.le_refl _) (by omega)
    fun _ behind last hbehind hmore => ?_
  exact .pure ⟨by omega, by omega⟩

theorem costs_content (hw : 4 * n + 12 ≤ w) (name : TagName) :
    Costs n w (8 * n + 14) 0 (walk.content name fun _ _ => trivial) := by
  have htext : ∀ {γ : Type} {r : Reading γ} {first : Shape r} {e : Nat} (g : γ → Content),
    Costs n 4 e 0 first →
      e ≤ 8 * n + 14 → Costs n w (8 * n + 14) 0 (walk.map g first) :=
    fun g hfirst he => (costs_map g hfirst).imp (by omega) he
  cases name with
  | api | copyright | inheritDoc | internal | todo =>
    exact (costs_pure _).imp (Nat.le_refl _) (by omega)
  | author => exact htext _ costs_author (by omega)
  | deprecated => exact htext _ (costs_tryElse costs_version (costs_pure _)) (by omega)
  | link => exact htext _ (costs_collectForm _ _) (by omega)
  | method => exact costs_map _ (costs_signature hw)
  | package | throws => exact htext _ (costs_collectForm _ _) (by omega)
  | param | var => exact htext _ costs_typedName (by omega)
  | property | propertyRead | propertyWrite => exact htext _ (costs_property _) (by omega)
  | returns => exact htext _ (costs_typeName false) (by omega)
  | see => exact htext _ costs_reference (by omega)
  | since | version => exact htext _ costs_version (by omega)
  | uses | usedBy => exact htext _ costs_usage (by omega)

theorem costs_blockTag (hw : 4 * n + 12 ≤ w) (name : TagName) :
    Costs n w (8 * n + 17) 1 (walk.blockTag name fun _ _ => trivial) := by
  intro tokens credit hn h
  have hblanks : Costs n w 1 0 walk.skipBlanks := costs_skipBlanks.imp (by omega) (Nat.le_refl _)
  have hdescription : Costs n w 1 0 walk.description :=
    costs_description.imp (by omega) (Nat.le_refl _)
  refine spends_pass fun rest hrest => ?_
  have hmark : w * rest.length ≤ w * tokens.length := Nat.mul_le_mul_left _ (by omega)
  refine hblanks.bind (by omega) (by omega) fun _ behind left hbehind hpaid => ?_
  refine (costs_content hw name).bind (by omega) (by omega) fun content said last hsaid hmore => ?_
  refine .ite (fun _ => .pure ⟨by omega, by omega⟩) fun _ => ?_
  refine hblanks.bind (by omega) (by omega) fun _ solid spare hsolid hspare => ?_
  exact hdescription.bind (by omega) (by omega) fun _ final much hfinal hmuch =>
    .pure ⟨by omega, by omega⟩

/-! ## Comments -/

theorem settles_blockTags (hw : 12 * n + 31 ≤ w) :
    Settles n w (8 * n + 19) (walk.blockTagsRound fun _ _ _ => trivial) := by
  intro tokens credit document hn h
  have hcheap : (4 * n + 12) * tokens.length ≤ w * tokens.length :=
    Nat.mul_le_mul_right _ (by omega)
  have hdone :
      Spends (.pure (.done document)) tokens credit (Paid w (8 * n + 19) document tokens credit) :=
    .pure (.same (by omega))
  refine .current_bind hdone fun t ht => ?_
  clear ht
  obtain ⟨kind, text, offset⟩ := t
  cases kind
  case tag name =>
    have hblanks : Costs n (4 * n + 12) 1 0 walk.skipBlanks :=
      costs_skipBlanks.imp (by omega) (Nat.le_refl _)
    refine (costs_blockTag (Nat.le_refl _) name).bind hn (by omega)
      fun tag rest left hrest hpaid => ?_
    refine hblanks.bind (by omega) (by omega) fun _ behind last hbehind hmore => ?_
    have hprice := price_lt (v := 4 * n + 12) (e := 8 * n + 19) (w := w) (by omega)
      (show behind.length < tokens.length by omega)
    exact .pure (.again (by omega) (by omega))
  all_goals exact hdone

theorem costs_comment : Costs n (12 * n + 31) (8 * n + 23) 0 Shape.comment := by
  intro tokens credit hn h
  have hblanks : Costs n (12 * n + 31) 1 0 walk.skipBlanks :=
    costs_skipBlanks.imp (by omega) (Nat.le_refl _)
  have hdescription : Costs n (12 * n + 31) 1 0 walk.description :=
    costs_description.imp (by omega) (Nat.le_refl _)
  have hblocks : ∀ document, Costs n (12 * n + 31) (8 * n + 19) 0
      (walk.loop (walk.blockTagsRound fun _ _ _ => trivial) document) :=
    Costs.loop (settles_blockTags (Nat.le_refl _)) (by omega)
  have hless : ∀ {l m : Nat}, l ≤ m → (12 * n + 31) * l ≤ (12 * n + 31) * m := Nat.mul_le_mul_left _
  refine hblanks.bind hn (by omega) fun _ rest left hrest hpaid =>
    spends_pass fun behind hbehind => ?_
  have hintro := hless (show behind.length ≤ rest.length by omega)
  refine hblanks.bind (by omega) (by omega) fun _ solid last hsolid hmore => ?_
  refine hdescription.bind (by omega) (by omega) fun _ blocks spare hbegin hspare => ?_
  refine (hblocks _).bind (by omega) (by omega) fun _ final much hfinal hmuch =>
    spends_pass fun closed hclosed => ?_
  have houtro := hless (show closed.length ≤ final.length by omega)
  refine hblanks.bind (by omega) (by omega) fun _ ending spent hending hspent =>
    spends_pass fun nothing hnothing => ?_
  have hend := hless (show nothing.length ≤ ending.length by omega)
  exact .pure ⟨by omega, by omega⟩

end Grammar

end DocComment
