import DocComment.Proofs.Grammar.Contents

/-!
# What the rules of tags answer

Each rule answers with what `ReadsContent` says of the tokens that it took and of those it left.
This is the one walk through the rules of tags: that answers are well-formed, which texts are quoted
and where a rule stops follow from the relation.

Where a rule is tried before another, what the first would have read is not there if the second
answers. This needs that the first one reads what its relation says, which is shown beside it.
-/

namespace DocComment.Grammar

open Reading (Takes Scene)
open Screening (Sound)
open Token (concat)

variable {scene : Scene} {tokens taken rest : List Token} {text : Text}

/-! ## Names, versions and references -/

theorem takes_variableName : Takes scene variableName tokens ReadsVariable := by
  refine (takes_expect .dollar).bind fun dollar _ rest _ hdollar => ?_
  obtain ⟨rfl, hopens, hshown⟩ := hdollar
  refine (takes_collect _).bind fun answer name behind _ hname => ?_
  obtain ⟨htext, hrun, -⟩ := hname
  refine (takes_require (.inr ⟨dollar, hshown, rfl⟩)).imp fun text nothing left hleft hform => ?_
  obtain ⟨rfl, rfl, haccepts⟩ := hform
  obtain rfl : behind = left := hleft
  rw [htext] at haccepts ⊢
  simpa using ReadsVariable.intro hopens hrun haccepts

theorem takes_link : Takes scene link tokens ReadsLink := takes_collectForm .link _

theorem takes_element : Takes scene element tokens ReadsElement := takes_collectForm .element _

theorem ReadsLink.reads (h : ReadsLink text taken rest) : Reads link (taken ++ rest) text rest :=
  Collects.reads h (ne_nil_of_isUri h.form)

theorem ReadsElement.reads (h : ReadsElement text taken rest) :
    Reads element (taken ++ rest) text rest :=
  Collects.reads h (ne_nil_of_isElement h.form)

theorem takes_reference : Takes scene reference tokens (ReadsReference scene.clean) := by
  refine takes_tryElse (P := ReadsLink) (takes_link.imp fun _ _ _ _ h => .link h) ?_
    fun habsent => ?_
  · rintro text taken rest rfl hlink
    exact ⟨text, rest, hlink.reads⟩
  · exact takes_element.imp fun _ _ _ htokens h => .element (htokens ▸ habsent) h

theorem takes_usage : Takes scene usage tokens (ReadsUsage scene.clean) := by
  refine takes_tryElse (P := ReadsLink) (takes_link.imp fun _ _ _ _ h => .link h) ?_
    fun hnoLink => ?_
  · rintro text taken rest rfl hlink
    exact ⟨text, rest, hlink.reads⟩
  · refine takes_tryElse (P := ReadsElement) ?_ ?_ fun habsent => ?_
    · exact takes_element.imp fun _ _ _ htokens h => .element (htokens ▸ hnoLink) h
    · rintro text taken rest rfl helement
      exact ⟨text, rest, helement.reads⟩
    · exact (takes_collectForm .file _).imp fun _ _ _ htokens h =>
        .file (htokens ▸ hnoLink) (htokens ▸ habsent) h

theorem takes_system (h : Sound tokens) (head : Text) :
    Takes scene (Cursor.loop systemRound head) tokens fun text taken _ => ∃ inner closing,
      taken = inner ++ [closing] ∧ text = head ++ concat inner ++ ['$'] ∧
        (∀ t ∈ inner, t.kind ≠ .dollar) ∧ closing.kind = .dollar := by
  refine Takes.loop
    (fun text taken _ => text = head ++ concat taken ∧ ∀ t ∈ taken, t.kind ≠ .dollar)
    ?_ ⟨by simp, by simp⟩
  intro text taken rest htokens hinner
  obtain ⟨rfl, hfree⟩ := hinner
  refine Takes.current_bind (fun _ => .refuse .ended) fun t behind hrest _ => ?_
  have ht : t ∈ tokens := by simp [htokens, hrest]
  show Takes scene (if t.kind = .dollar then _ else _) _ _
  split
  case isTrue hkind =>
    refine takes_pass fun closing _ _ hclosing =>
      .pure ⟨taken, closing, by simp, ?_, hfree, hclosing⟩
    rw [h.sign t ht '$' (by rw [hkind]; rfl)]
  case isFalse hkind =>
    refine Takes.moveNext_bind fun _ => .pure ⟨by simp, by simp, fun u hu => ?_⟩
    rcases List.mem_append.mp hu with hu | hu
    · exact hfree u hu
    · rwa [List.mem_singleton.mp hu]

theorem takes_version (h : Sound tokens) : Takes scene version tokens ReadsVersion := by
  refine (takes_collectForm .version _).bind fun head word rest htokens hhead => ?_
  show Takes scene (if head.getLast? = some ':' then _ else _) _ _
  split
  case isTrue hcolon =>
    refine takes_blanks fun blanks behind hrest hblanks =>
      takes_pass fun opening more hmore hopens => ?_
    have hsound : Sound more := by
      have hall : tokens = (word ++ (blanks ++ [opening])) ++ more := by
        simp [htokens, hrest, hmore]
      exact h.behind hall
    refine (takes_system hsound _).imp fun text taken left hleft htext => ?_
    obtain ⟨inner, closing, rfl, rfl, hfree, hcloses⟩ := htext
    have hsaid : Collects .version inWord head word
        (blanks ++ opening :: (inner ++ closing :: left)) := by
      rw [hrest, hmore, hleft] at hhead
      simpa using hhead
    exact .system hsaid hcolon hblanks.taken hopens hfree hcloses
  case isFalse hcolon => exact .pure (by simpa using ReadsVersion.plain hhead hcolon)

/-- What a version-control system writes is read up to the dollar sign behind it. -/
theorem reads_system {inner : List Token} {closing : Token} (hfree : ∀ t ∈ inner, t.kind ≠ .dollar)
    (hcloses : closing.kind = .dollar) {n : Nat} (hn : inner.length < n) (head : Text) :
    Reads (Reading.iterate systemRound n head) (inner ++ closing :: rest)
      (head ++ concat inner ++ closing.text) rest := by
  induction inner generalizing n head with
  | nil =>
    obtain ⟨n, rfl⟩ : ∃ m, n = m + 1 := ⟨n - 1, by simp at hn; omega⟩
    refine .iterate_done (reads_current.bind ?_)
    show Reads (if closing.kind = .dollar then _ else _) _ _ _
    rw [if_pos hcloses, Token.concat_nil, List.append_nil]
    exact (reads_pass hcloses).bind (.pure _)
  | cons t inner ih =>
    rw [List.forall_mem_cons] at hfree
    rw [List.length_cons] at hn
    obtain ⟨n, rfl⟩ : ∃ m, n = m + 1 := ⟨n - 1, by omega⟩
    have hmore := ih hfree.2 (n := n) (by omega) (head ++ t.text)
    rw [List.append_assoc head] at hmore
    refine .iterate_again (reads_current.bind ?_) hmore
    show Reads (if t.kind = .dollar then _ else _) _ _ _
    rw [if_neg hfree.1]
    exact reads_moveNext.bind (.pure _)

theorem ReadsVersion.reads (h : ReadsVersion text taken rest) :
    ∃ answer, Reads version (taken ++ rest) answer rest := by
  have hhead : ∀ {head word behind}, Collects .version inWord head word behind →
      Reads (collectForm .version inWord) (word ++ behind) head behind := fun hword =>
    hword.reads fun hnil => by
      have hform := hword.form
      rw [hnil] at hform
      revert hform
      decide
  cases h with
  | plain word complete =>
    refine ⟨text, (hhead word).bind ?_⟩
    rw [if_neg complete]
    exact .pure _
  | @system head word blanks inner _ opening closing said colon blank opens free closes =>
    have hloop : Reads (Cursor.loop systemRound (head ++ " $".toList)) (inner ++ closing :: rest)
        (head ++ " $".toList ++ concat inner ++ closing.text) rest :=
      .loop (reads_system free closes (by rw [List.length_append]; omega) _)
    have hblanks : Reads skipBlanks (blanks ++ opening :: (inner ++ closing :: rest)) ()
        (opening :: (inner ++ closing :: rest)) := by
      refine reads_skipBlanks (fun t ht => of_decide_eq_true (blank t ht)) fun t ht => ?_
      rw [← Option.mem_some_iff.mp ht, opens]
      simp
    refine ⟨head ++ " $".toList ++ concat inner ++ closing.text, ?_⟩
    simp only [List.append_assoc, List.cons_append]
    refine (hhead said).bind ?_
    rw [if_pos colon, ← List.append_assoc head, ← List.append_assoc (head ++ _)]
    exact hblanks.bind ((reads_pass opens).bind hloop)

/-! ## Types -/

theorem bracketTokens_concat {pairs : Nat} {signs : List Token} {left right : Token}
    (h : BracketTokens pairs signs) (hleft : left.kind = .leftBracket)
    (hright : right.kind = .rightBracket) : BracketTokens (pairs + 1) (signs ++ [left, right]) := by
  induction h with
  | none => exact .more hleft hright .none
  | more opens closes _ ih => exact .more opens closes ih

theorem takes_selfType :
    Takes scene selfType tokens fun text taken _ => TypeTokens .operand text taken := by
  refine takes_pass fun dollar rest _ hdollar => ?_
  refine Takes.current_bind (fun _ => .refuse .ended) fun t more _ hshown => ?_
  show Takes scene (if t.text = "this".toList then _ else _) _ _
  split
  case isTrue hword => exact Takes.moveNext_bind fun _ => .pure (.self hdollar hword)
  case isFalse => exact .refuse (.token hshown)

theorem takes_typeOperand {inner : Reading Text} (hinner : tokens ≠ [] →
      Takes scene inner tokens fun text taken _ => TypeTokens .operand text taken) :
    Takes scene (typeOperand inner) tokens fun text taken _ => TypeTokens .operand text taken := by
  refine Takes.current_bind (fun _ => .refuse .ended) fun t rest htokens hshown => ?_
  subst htokens
  have hname : Takes scene className (t :: rest) fun text taken _ =>
      TypeTokens .operand text taken :=
    (takes_collectForm .type _).imp fun text taken _ _ h => by
      obtain ⟨rfl, hform, hrun⟩ := h
      exact .name (fun u hu => of_decide_eq_true (hrun.taken u hu)) hform
  dsimp only
  split
  case h_1 => exact hinner (List.cons_ne_nil t rest)
  case h_2 => exact takes_selfType
  case h_3 | h_4 => exact hname
  case h_5 => exact .refuse (.token hshown)

theorem takes_brackets (head : Text) :
    Takes scene (Cursor.loop bracketsRound head) tokens fun text taken _ =>
      ∃ pairs, BracketTokens pairs taken ∧ text = head ++ bracketPairs pairs := by
  refine Takes.loop (fun text taken _ =>
    ∃ pairs, BracketTokens pairs taken ∧ text = head ++ bracketPairs pairs) ?_
    ⟨0, .none, (List.append_nil head).symm⟩
  intro text taken rest _ hpairs
  obtain ⟨pairs, hsigns, rfl⟩ := hpairs
  refine Takes.isAt_bind (fun _ _ _ _ => ?_) fun _ => .pure ⟨pairs, by simpa using hsigns, rfl⟩
  refine takes_pass fun left _ _ hleft => takes_pass fun right _ _ hright => ?_
  refine .pure ⟨by simp, pairs + 1, bracketTokens_concat hsigns hleft hright, ?_⟩
  rw [List.append_assoc, bracketPairs_concat]

/-- The text so far is such that every type completes it to a type. Operands in parentheses begin
with a token. -/
theorem takes_types {inner : Reading Text} (nested : Bool)
    (hinner : ∀ taken rest, tokens = taken ++ rest → rest ≠ [] →
      Takes scene inner rest fun text taken _ => TypeTokens .operand text taken) :
    Takes scene (Cursor.loop (typeRound inner nested) []) tokens fun text taken rest =>
      TypeTokens .whole text taken ∧ ∀ t ∈ rest.head?, endsType nested t.kind = true := by
  refine Takes.loop (fun text taken _ => ∀ more others, TypeTokens .whole more others →
    TypeTokens .whole (text ++ more) (taken ++ others)) ?_ (fun _ _ hothers => hothers)
  intro text taken rest htokens hcomplete
  refine (takes_typeOperand (hinner taken rest htokens)).bind
    fun operand words behind _ hoperand => ?_
  refine (takes_brackets _).bind fun collected signs final _ hsigns => ?_
  obtain ⟨pairs, hsigns, rfl⟩ := hsigns
  have hlast : TypeTokens .whole (text ++ operand ++ bracketPairs pairs)
      (taken ++ (words ++ (signs ++ []))) := by
    simpa using hcomplete _ _ (.last hoperand hsigns)
  refine Takes.current_bind (fun _ => .pure ⟨hlast, by simp⟩) fun t final' _ hshown => ?_
  show Takes scene (if endsType nested t.kind = true then _ else
    if t.kind = .ampersand ∨ t.kind = .pipe then _ else _) _ _
  split
  case isTrue hends => exact .pure ⟨hlast, by simpa using hends⟩
  case isFalse =>
    split
    case isTrue hknown =>
      refine Takes.moveNext_bind fun _ => .pure ⟨by simp, fun more others hothers => ?_⟩
      simpa using hcomplete _ _ (.join hoperand hsigns hknown hothers)
    case isFalse => exact .refuse (.token hshown)

/-- A type in parentheses takes one token more before its operands begin. -/
theorem takes_typeBelow_succ {depth : Nat} {nested : Bool}
    (hinner : ∀ {rest}, rest ≠ [] → rest.length ≤ depth →
      Takes scene (typeBelow depth true) rest fun text taken _ => TypeTokens .operand text taken)
    (hdepth : tokens.length ≤ depth + nested.toNat) :
    Takes scene (typeBelow (depth + 1) nested) tokens fun text taken rest =>
      TypeTokens (if nested then .operand else .whole) text taken ∧
        (nested = false → ∀ t ∈ rest.head?, endsType false t.kind = true) := by
  have htypes : ∀ {rest}, rest.length ≤ depth →
      Takes scene (Cursor.loop (typeRound (typeBelow depth true) nested) []) rest
        fun text taken behind => TypeTokens .whole text taken ∧
          ∀ t ∈ behind.head?, endsType nested t.kind = true := by
    intro rest hrest
    refine takes_types nested fun taken behind hsplit hne => hinner hne ?_
    rw [hsplit, List.length_append] at hrest
    omega
  cases nested with
  | false => exact (htypes hdepth).imp fun _ _ _ _ htype => ⟨htype.1, fun _ => htype.2⟩
  | true =>
    refine takes_pass fun left rest htokens hleft => ?_
    rw [htokens] at hdepth
    refine (htypes (Nat.le_of_succ_le_succ hdepth)).bind fun body _ _ _ hbody => ?_
    exact takes_pass fun right _ _ hright => .pure ⟨.nested hleft hbody.1 hright, nofun⟩

/-- A type in parentheses begins with a token, so it lies no deeper than there are tokens left. -/
theorem takes_operandBelow {depth : Nat} (hne : tokens ≠ []) (hdepth : tokens.length ≤ depth) :
    Takes scene (typeBelow depth true) tokens fun text taken _ =>
      TypeTokens .operand text taken := by
  induction depth generalizing tokens with
  | zero => exact absurd (List.length_eq_zero_iff.mp (Nat.le_zero.mp hdepth)) hne
  | succ depth ih =>
    refine (takes_typeBelow_succ (fun hne hrest => ih hne hrest) hdepth).imp ?_
    exact fun _ _ _ _ htype => htype.1

theorem takes_typeName (nested : Bool) :
    Takes scene (typeName nested) tokens fun text taken rest =>
      TypeTokens (if nested then .operand else .whole) text taken ∧
        (nested = false → ∀ t ∈ rest.head?, endsType false t.kind = true) :=
  .get fun _ _ hahead =>
    takes_typeBelow_succ (fun hne hrest => takes_operandBelow hne hrest)
      (Nat.le_add_right_of_le hahead)

theorem takes_type : Takes scene (typeName false) tokens ReadsType :=
  (takes_typeName false).imp fun _ _ _ _ htype => ⟨htype.1, htype.2 rfl⟩

theorem ReadsType.reads (h : ReadsType text taken rest) :
    Reads (typeName false) (taken ++ rest) text rest :=
  h.type.reads h.stop

theorem takes_typeOr (default : String) :
    Takes scene (typeOr default) tokens (LeadingType scene.clean default.toList) := by
  refine takes_attempt (P := ReadsType) ?_ ?_ fun habsent => .omitted habsent
  · refine takes_type.bind fun text taken rest _ htype => ?_
    refine takes_blanks fun blanks behind hrest hblanks => .pure ?_
    rw [hrest] at htype
    simpa using LeadingType.written htype hblanks
  · rintro text taken rest rfl htype
    obtain ⟨blanks, behind, rfl, -, hblanks, hstop⟩ := split_run (isBlankKind ·.kind) rest
    refine ⟨text, behind, htype.reads.bind (.bind (reads_skipBlanks ?_ ?_) (.pure text))⟩
    · exact fun t ht => of_decide_eq_true (hblanks t ht)
    · exact fun t ht => of_decide_eq_false (hstop t ht)

/-! ## What the names of tags want -/

theorem takes_author : Takes scene author tokens ReadsAuthor := by
  refine (takes_collect _).bind fun answer name rest htokens hname => ?_
  obtain ⟨htext, hrun, -⟩ := hname
  refine Takes.isAt_bind (fun t behind hrest _ => ?_) fun hstop => .pure ?_
  · refine takes_pass fun opening more hmore hopens => ?_
    refine (takes_collect _).bind fun address inner left hleft hinner => ?_
    refine Takes.current.bind fun found nothing still _ hfound => ?_
    obtain ⟨rfl, rfl, -⟩ := hfound
    dsimp only
    split
    case isTrue => exact .refuse .ended
    case isFalse =>
      refine (takes_require hinner.2.2).bind fun email nothing last hlast hemail => ?_
      obtain ⟨rfl, rfl, haccepts⟩ := hemail
      obtain rfl : still = last := hlast
      refine takes_pass fun closing final hfinal hcloses => .pure ?_
      obtain ⟨haddress, hfree, -⟩ := hinner
      rw [haddress] at haccepts ⊢
      rw [htext]
      rw [hrest, hmore, hleft, hfinal] at hrun
      have hangle : ∀ t ∈ inner, t.kind ≠ .rightAngle :=
        fun t ht => of_decide_eq_true (hfree.taken t ht)
      simpa using ReadsAuthor.addressed hrun hopens hangle haccepts hcloses
  · rw [htext]
    simpa using ReadsAuthor.named hrun hstop

theorem takes_optionalVariable : Takes scene optionalVariable tokens OptionalVariable := by
  refine Takes.isAt_bind (fun _ _ _ _ => ?_) fun hstop => .pure (.unnamed hstop)
  exact takes_variableName.imp fun _ _ _ _ h => .named h

theorem takes_typedName : Takes scene typedName tokens (ReadsTypedName scene.clean) := by
  refine (takes_typeOr "mixed").bind fun type lead rest _ htype => ?_
  refine takes_optionalVariable.bind fun name word behind hrest hname => .pure ?_
  rw [hrest] at htype
  simpa using ReadsTypedName.intro htype hname

theorem takes_property (access : Access) :
    Takes scene (property access) tokens (ReadsProperty scene.clean access) := by
  refine (takes_typeOr "mixed").bind fun type lead rest _ htype => ?_
  refine takes_variableName.bind fun name word behind hrest hname => .pure ?_
  rw [hrest] at htype
  simpa using ReadsProperty.intro htype hname

theorem takes_argument : Takes scene argument tokens (ReadsArgument scene.clean) := by
  have htype : Takes scene (attempt (typeName false) "mixed".toList) tokens
      (OptionalType scene.clean "mixed".toList) := by
    refine takes_attempt (P := ReadsType) (takes_type.imp fun _ _ _ _ htype => .written htype) ?_
      fun habsent => .omitted habsent
    rintro text taken rest rfl htype
    exact ⟨text, rest, htype.reads⟩
  refine htype.bind fun type lead rest _ htype => takes_blanks fun blanks behind hrest hblanks => ?_
  refine takes_variableName.bind fun name word left hbehind hname => ?_
  refine takes_blanks fun more final hleft hmore => .pure ?_
  rw [hrest, hbehind, hleft] at htype
  rw [hbehind, hleft] at hblanks
  rw [hleft] at hname
  simpa using ReadsArgument.intro htype hblanks hname hmore

/-- The arguments so far go on with those that any later arguments are read as. -/
theorem takes_arguments :
    Takes scene (Cursor.loop argumentsRound []) tokens (ReadsArguments scene.clean) := by
  refine Takes.loop (fun arguments taken rest => ∀ others more behind, rest = more ++ behind →
    ReadsArguments scene.clean others more behind →
      ReadsArguments scene.clean (arguments ++ others) (taken ++ more) behind)
    ?_ fun _ _ _ _ hothers => hothers
  intro arguments taken rest _ hsofar
  have hdone : (∀ t ∈ rest.head?, t.kind = .rightParen) →
      ReadsArguments scene.clean arguments (taken ++ []) rest := by
    intro hstop
    have hall := hsofar [] [] rest rfl (.none hstop)
    rwa [List.append_nil arguments] at hall
  refine Takes.current_bind (fun hnil => .pure ?_) fun t behind hrest _ => ?_
  · subst hnil
    exact hdone (by simp)
  · subst hrest
    dsimp only
    split
    case isTrue hparen => exact .pure (hdone (by simpa using hparen))
    case isFalse =>
      refine takes_argument.bind fun a one left hleft ha => ?_
      refine Takes.isAt_bind (fun u final hfinal _ => ?_) fun hstop => .pure ?_
      · refine takes_pass fun comma last hlast hcomma =>
          takes_blanks fun blanks ahead hahead hblanks => ?_
        refine .pure ⟨by simp, fun others more behind' hmore hothers => ?_⟩
        rw [hmore] at hblanks
        rw [hfinal, hlast, hahead, hmore] at ha
        have hall := hsofar _ _ behind' ?_ (.more ha hcomma hblanks hothers)
        · simpa using hall
        · simp [hleft, hfinal, hlast, hahead, hmore]
      · simpa using hsofar [a] one left hleft (.last ha hstop)

theorem takes_methodName :
    Takes scene methodName tokens fun name taken rest => ∃ word, name = concat word ∧
      Form.isIdentifier name = true ∧ (∀ t ∈ word, t.kind ≠ .leftParen) ∧
        ((rest = [] ∧ taken = word) ∨
          ∃ opening, taken = word ++ [opening] ∧ opening.kind = .leftParen) := by
  refine (takes_collect _).bind fun answer word rest _ hanswer => ?_
  obtain ⟨htext, hrun, hplaces⟩ := hanswer
  have hfree : ∀ t ∈ word, t.kind ≠ .leftParen := fun t ht => of_decide_eq_true (hrun.taken t ht)
  refine Takes.isAt_bind (fun t behind hrest _ => ?_) fun hstop => ?_
  · refine takes_pass fun opening more _ hopens => ?_
    refine (takes_require hplaces).imp fun name nothing _ _ hname => ?_
    obtain ⟨rfl, rfl, haccepts⟩ := hname
    exact ⟨word, htext, haccepts, hfree, .inr ⟨opening, rfl, hopens⟩⟩
  · have hnil : rest = [] := by
      cases rest with
      | nil => rfl
      | cons t rest =>
        have hparen := hrun.stop t rfl
        rw [decide_eq_false_iff_not, Decidable.not_not] at hparen
        exact absurd hparen (hstop t rfl)
    subst hnil
    refine (takes_require hplaces).imp fun name nothing left hleft hname => ?_
    obtain ⟨rfl, rfl, haccepts⟩ := hname
    exact ⟨word, htext, haccepts, hfree, .inl ⟨by simpa using hleft.symm, List.append_nil word⟩⟩

theorem takes_signature : Takes scene signature tokens (ReadsSignature scene.clean) := by
  refine (takes_typeOr "void").bind fun returnType lead behind _ htype => ?_
  refine takes_methodName.bind fun name taken between hbehind hname => ?_
  refine takes_blanks fun blanks rest hbetween hblanks => ?_
  refine takes_arguments.bind fun arguments list last hlist harguments => ?_
  refine takes_pass fun closing final hfinal hcloses => .pure ?_
  obtain ⟨word, rfl, hform, hfree, ⟨hnil, -⟩ | ⟨opening, rfl, hopens⟩⟩ := hname
  · -- behind a name without a parenthesis there is no token, so none closes
    rw [hbetween, hlist, hfinal] at hnil
    simp at hnil
  · rw [hbehind, hbetween, hlist, hfinal] at htype
    rw [hlist, hfinal] at hblanks
    rw [hfinal] at harguments
    simp only [List.append_assoc, List.singleton_append] at htype
    simpa using ReadsSignature.intro htype hfree hform hopens hblanks harguments hcloses

theorem takes_content (h : Sound tokens) (name : TagName) :
    Takes scene (content name) tokens (ReadsContent scene.clean name) := by
  cases name with
  | api => exact .pure .api
  | copyright => exact .pure .copyright
  | inheritDoc => exact .pure .inheritDoc
  | internal => exact .pure .internal
  | todo => exact .pure .todo
  | author => exact takes_author.map _ fun _ _ _ _ h => .author h
  | deprecated =>
    have hversion : Takes scene (attempt version []) tokens fun text taken rest =>
        ReadsContent scene.clean .deprecated (.deprecated text) taken rest := by
      refine takes_attempt (P := ReadsVersion) ((takes_version h).imp fun _ _ _ _ h =>
        .deprecated h) ?_
        fun habsent => .deprecatedEver habsent
      rintro text taken rest rfl hversion
      obtain ⟨answer, hread⟩ := hversion.reads
      exact ⟨answer, rest, hread⟩
    exact hversion.map _ fun _ _ _ _ h => h
  | link => exact takes_link.map _ fun _ _ _ _ h => .link h
  | method => exact takes_signature.map _ fun _ _ _ _ h => .method h
  | package => exact (takes_collectForm .type _).map _ fun _ _ _ _ h => .package h
  | param => exact takes_typedName.map _ fun _ _ _ _ h => .param h
  | property => exact (takes_property _).map _ fun _ _ _ _ h => .property h
  | propertyRead => exact (takes_property _).map _ fun _ _ _ _ h => .propertyRead h
  | propertyWrite => exact (takes_property _).map _ fun _ _ _ _ h => .propertyWrite h
  | returns => exact takes_type.map _ fun _ _ _ _ h => .returns h
  | see => exact takes_reference.map _ fun _ _ _ _ h => .see h
  | since => exact (takes_version h).map _ fun _ _ _ _ h => .since h
  | throws => exact (takes_collectForm .type _).map _ fun _ _ _ _ h => .throws h
  | usedBy => exact takes_usage.map _ fun _ _ _ _ h => .usedBy h
  | uses => exact takes_usage.map _ fun _ _ _ _ h => .uses h
  | var => exact takes_typedName.map _ fun _ _ _ _ h => .var h
  | version => exact (takes_version h).map _ fun _ _ _ _ h => .version h

end DocComment.Grammar
