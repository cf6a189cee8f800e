import DocComment.Grammar.Description
import DocComment.Proofs.Grammar.Answers

/-!
# Inline tags in descriptions

The tokens of a description are runs of text and, between them, the inline constructs: pairs of
braces with the name of an inline tag behind the first. A `Cut` is a description taken apart in this
way, and its text has the placeholder of its index for each construct. `ReadsInline` says which tag
a construct stands for. It says of the description within the construct what `takes_description`
says of the outermost one, with placeholders that count from zero again.
-/

namespace DocComment.Grammar

open Reading (Takes Scene)
open Token (concat)

/-- The tokens of a description: the inline constructs, each with the run of text in front of it,
and the run behind the last of them. -/
structure Cut where
  pieces : List (List Token × List Token)
  last : List Token

/-- The names of the tags that may stand within braces. -/
def inlineNames : List TagName := [.inheritDoc, .internal, .link]

namespace Cut

def constructs (cut : Cut) : List (List Token) := cut.pieces.map Prod.snd

def runs (cut : Cut) : List (List Token) := cut.pieces.map Prod.fst ++ [cut.last]

def tokens (cut : Cut) : List Token :=
  cut.pieces.flatMap (fun piece => piece.1 ++ piece.2) ++ cut.last

/-- The text of the runs, and between them the placeholders of the constructs. -/
def text (cut : Cut) : Text :=
  (cut.pieces.mapIdx fun index piece => concat piece.1 ++ placeholder index).flatten ++
    concat cut.last

/-- The cut begins with a description and goes on to its end. No run holds what ends the
description, and no brace of the last run belongs to an inline tag behind it. -/
structure Spans (braced : Bool) (cut : Cut) (behind : List Token) : Prop where
  free : ∀ run ∈ cut.runs, ∀ t ∈ run, endsDescription braced t.kind = false
  stop : ∃ t rest, behind = t :: rest ∧ endsDescription braced t.kind = true
  closed : ∀ front brace blanks, cut.last = front ++ brace :: blanks → brace.kind = .leftBrace →
    (∀ t ∈ blanks, isBlankKind t.kind = true) →
    ∀ t ∈ behind.head?, ∀ name ∈ inlineNames, t.kind ≠ .tag name

def push (cut : Cut) (t : Token) : Cut := { cut with last := cut.last ++ [t] }

def close (cut : Cut) (construct : List Token) : Cut :=
  ⟨cut.pieces ++ [(cut.last, construct)], []⟩

end Cut

/-- An opening brace and the name of an inline tag, and the blanks behind each. -/
inductive Opening (name : TagName) : List Token → Prop
  | intro {brace mark : Token} {blanks more : List Token} (opens : brace.kind = .leftBrace)
      (named : mark.kind = .tag name) (inner : ∀ t ∈ blanks, isBlankKind t.kind = true)
      (outer : ∀ t ∈ more, isBlankKind t.kind = true) :
      Opening name (brace :: (blanks ++ mark :: more))

/-- What an inline tag with a description says, the tokens that say it, and those behind them. -/
inductive InlineContent : TagName → List Token → List Token → Content → Prop
  | internal {rest : List Token} : InlineContent .internal [] rest .internal
  | link {target : Text} {words blanks rest : List Token}
      (said : ReadsLink target words (blanks ++ rest)) (blank : Run isBlankKind blanks rest) :
      InlineContent .link (words ++ blanks) rest (.link target)

/-- The tokens of an inline construct and the tag that they stand for. -/
inductive ReadsInline : List Token → Tag → Prop
  | bare {opening : List Token} {closing : Token} (opens : Opening .inheritDoc opening)
      (closes : closing.kind = .rightBrace) :
      ReadsInline (opening ++ [closing]) { content := .inheritDoc }
  | described {name : TagName} {opening words : List Token} {content : Content} {cut : Cut}
      {tags : List Tag} {closing : Token} (opens : Opening name opening)
      (announces : InlineContent name words (cut.tokens ++ [closing]) content)
      (spans : cut.Spans true [closing])
      (closes : closing.kind = .rightBrace) (length : cut.constructs.length = tags.length)
      (reads : ∀ (i : Nat) construct tag, cut.constructs[i]? = some construct →
        tags[i]? = some tag → ReadsInline construct tag) :
      ReadsInline (opening ++ (words ++ (cut.tokens ++ [closing])))
        ⟨content, Text.strip cut.text, tags⟩

namespace Cut

/-- There are as many inline tags as constructs, and each is read from the construct of
its index. -/
structure Carries (cut : Cut) (tags : List Tag) : Prop where
  length : cut.constructs.length = tags.length
  reads : ∀ (i : Nat) construct tag, cut.constructs[i]? = some construct →
    tags[i]? = some tag → ReadsInline construct tag

variable {cut : Cut} {t : Token} {construct rest : List Token} {tags : List Tag} {tag : Tag}

@[simp] theorem tokens_push : (cut.push t).tokens = cut.tokens ++ [t] := by
  simp [tokens, push]

@[simp] theorem tokens_close : (cut.close construct).tokens = cut.tokens ++ construct := by
  simp [tokens, close]

@[simp] theorem text_push : (cut.push t).text = cut.text ++ t.text := by
  simp [text, push, concat]

@[simp] theorem text_close :
    (cut.close construct).text = cut.text ++ placeholder cut.constructs.length := by
  simp [text, close, constructs, concat]

@[simp] theorem constructs_close :
    (cut.close construct).constructs = cut.constructs ++ [construct] := by
  simp [constructs, close]

theorem text_concat (pieces : List (List Token × List Token)) (run construct last : List Token) :
    text ⟨pieces ++ [(run, construct)], last⟩ =
      text ⟨pieces, run⟩ ++ (placeholder pieces.length ++ concat last) := by
  simp [text]

theorem runs_concat (pieces : List (List Token × List Token)) (run construct last : List Token) :
    runs ⟨pieces ++ [(run, construct)], last⟩ = runs ⟨pieces, run⟩ ++ [last] := by
  simp [runs]

theorem Carries.push (h : cut.Carries tags) : (cut.push t).Carries tags := ⟨h.length, h.reads⟩

theorem getElem?_concat_cases {α : Type} {entries : List α} {a b : α} {i : Nat}
    (h : (entries ++ [a])[i]? = some b) :
    entries[i]? = some b ∨ (i = entries.length ∧ b = a) := by
  by_cases hi : i < entries.length
  · left
    rwa [List.getElem?_append_left hi] at h
  · right
    rw [List.getElem?_append_right (by omega)] at h
    obtain ⟨hlt, heq⟩ := List.getElem?_eq_some_iff.mp h
    simp only [List.length_singleton] at hlt
    exact ⟨by omega, by simpa [show i - entries.length = 0 by omega] using heq.symm⟩

theorem Carries.close (h : cut.Carries tags) (hread : ReadsInline construct tag) :
    (cut.close construct).Carries (tags ++ [tag]) := by
  constructor
  · simp [h.length]
  · intro i c u hc hu
    rw [constructs_close] at hc
    rcases getElem?_concat_cases hc with hc | ⟨hi, rfl⟩
    · rcases getElem?_concat_cases hu with hu | ⟨hi, rfl⟩
      · exact h.reads i c u hc hu
      · obtain ⟨hlt, -⟩ := List.getElem?_eq_some_iff.mp hc
        have hlength := h.length
        omega
    · rw [hi, h.length, List.getElem?_concat_length] at hu
      obtain rfl := Option.some.inj hu
      exact hread

/-- Each inline tag has a construct of its index. -/
theorem exists_construct {constructs : List (List Token)} (h : constructs.length = tags.length)
    (hmem : tag ∈ tags) :
    ∃ (i : Nat) (construct : List Token), constructs[i]? = some construct ∧
    tags[i]? = some tag := by
  obtain ⟨i, hi⟩ := List.mem_iff_getElem?.mp hmem
  obtain ⟨hlt, -⟩ := List.getElem?_eq_some_iff.mp hi
  rw [← h] at hlt
  exact ⟨i, constructs[i], List.getElem?_eq_getElem hlt, hi⟩

/-- Each construct has an inline tag of its index. -/
theorem exists_tag {constructs : List (List Token)} (h : constructs.length = tags.length)
    (hmem : construct ∈ constructs) :
    ∃ (i : Nat) (tag : Tag), constructs[i]? = some construct ∧ tags[i]? = some tag := by
  obtain ⟨i, hi⟩ := List.mem_iff_getElem?.mp hmem
  obtain ⟨hlt, -⟩ := List.getElem?_eq_some_iff.mp hi
  rw [h] at hlt
  exact ⟨i, tags[i], hi, List.getElem?_eq_getElem hlt⟩

theorem Carries.of_mem (h : cut.Carries tags) (hmem : tag ∈ tags) :
    ∃ construct ∈ cut.constructs, ReadsInline construct tag := by
  obtain ⟨i, construct, hconstruct, htag⟩ := exists_construct h.length hmem
  exact ⟨construct, List.mem_of_getElem? hconstruct, h.reads i construct tag hconstruct htag⟩

/-- A construct stands among the tokens of its description. -/
theorem tokens_of_mem (h : construct ∈ cut.constructs) :
    ∃ front back, cut.tokens = front ++ (construct ++ back) := by
  obtain ⟨⟨run, found⟩, hpiece, rfl⟩ := List.mem_map.mp h
  obtain ⟨before, after, hpieces⟩ := List.append_of_mem hpiece
  refine ⟨before.flatMap (fun piece => piece.1 ++ piece.2) ++ run,
    after.flatMap (fun piece => piece.1 ++ piece.2) ++ cut.last, ?_⟩
  simp [tokens, hpieces]

/-- What is known of a description while it is read: no run so far ends it, and where the last run
ends in a brace and blanks, no name of an inline tag follows. -/
structure Begins (braced : Bool) (cut : Cut) (rest : List Token) : Prop where
  free : ∀ run ∈ cut.runs, ∀ t ∈ run, endsDescription braced t.kind = false
  closed : ∀ front brace blanks, cut.last = front ++ brace :: blanks → brace.kind = .leftBrace →
    (∀ t ∈ blanks, isBlankKind t.kind = true) →
    ∀ t ∈ (rest.dropWhile (isBlankKind ·.kind)).head?, ∀ name ∈ inlineNames, t.kind ≠ .tag name

variable {braced : Bool}

theorem Begins.nil : Begins braced ⟨[], []⟩ rest := by
  constructor
  · simp [runs]
  · intro front brace blanks hlast
    simp at hlast

theorem Begins.close (h : cut.Begins braced (construct ++ rest)) :
    (cut.close construct).Begins braced rest := by
  constructor
  · intro run hrun u hu
    have hruns : run ∈ cut.runs ∨ run = [] := by
      simpa [runs, Cut.close, or_assoc] using hrun
    rcases hruns with hrun | rfl
    · exact h.free run hrun u hu
    · cases hu
  · intro front brace blanks hlast
    simp [Cut.close] at hlast

/-- A token of text is pushed if it does not open an inline tag. -/
theorem Begins.push (h : cut.Begins braced (t :: rest))
    (hfree : endsDescription braced t.kind = false)
    (hopen : t.kind = .leftBrace → ∀ u ∈ (rest.dropWhile (isBlankKind ·.kind)).head?,
      ∀ name ∈ inlineNames, u.kind ≠ .tag name) : (cut.push t).Begins braced rest := by
  constructor
  · intro run hrun u hu
    have hruns : run ∈ cut.pieces.map Prod.fst ∨ run = cut.last ++ [t] := by
      simpa [runs, Cut.push] using hrun
    rcases hruns with hrun | rfl
    · exact h.free run (List.mem_append_left _ hrun) u hu
    · rcases List.mem_append.mp hu with hu | hu
      · exact h.free cut.last (by simp [runs]) u hu
      · rwa [List.mem_singleton.mp hu]
  · intro front brace blanks hlast hbrace hblanks u hu
    have hcases : (blanks = [] ∧ t = brace) ∨ ∃ more, blanks = more ++ [t] ∧
        cut.last = front ++ brace :: more := by
      rcases List.eq_nil_or_concat blanks with rfl | ⟨more, b, heq⟩
      · left
        have hsplit := List.append_inj' hlast rfl
        exact ⟨rfl, List.singleton_inj.mp hsplit.2⟩
      · right
        rw [List.concat_eq_append] at heq
        subst heq
        have hconcat : cut.last ++ [t] = (front ++ brace :: more) ++ [b] := by
          rw [List.append_assoc]
          exact hlast
        have hsplit := List.append_inj' hconcat rfl
        exact ⟨more, by rw [List.singleton_inj.mp hsplit.2], hsplit.1⟩
    rcases hcases with ⟨rfl, rfl⟩ | ⟨more, rfl, hmore⟩
    · exact hopen hbrace u hu
    · have ht := hblanks t (by simp)
      refine h.closed front brace more hmore hbrace (fun v hv => hblanks v (by simp [hv])) u ?_
      rwa [List.dropWhile_cons, if_pos ht]

/-- At the token that ends the description. -/
theorem Begins.spans (h : cut.Begins braced (t :: rest))
    (ht : endsDescription braced t.kind = true) :
    cut.Spans braced (t :: rest) := by
  have hsolid : ¬ isBlankKind t.kind = true := by
    intro hblank
    rw [of_decide_eq_true hblank] at ht
    cases braced <;> cases ht
  constructor
  · exact h.free
  · exact ⟨t, rest, rfl, ht⟩
  · intro front brace blanks hlast hbrace hblanks u hu
    refine h.closed front brace blanks hlast hbrace hblanks u ?_
    rwa [List.dropWhile_cons, if_neg hsolid]

/-- Only the first of the tokens behind a description counts. -/
theorem Spans.only_head (h : cut.Spans braced (t :: rest)) : cut.Spans braced [t] := by
  constructor
  · exact h.free
  · obtain ⟨u, more, hcons, hu⟩ := h.stop
    exact ⟨u, [], by rw [(List.cons.inj hcons).1], hu⟩
  · exact h.closed

end Cut

/-! ## How inline tags are read -/

variable {scene : Scene} {β : Type} {tokens : List Token} {S : β → List Token → List Token → Prop}

/-- The description that a text and its inline tags make up. -/
def ReadsProse (braced : Bool) (prose : Prose) (taken rest : List Token) : Prop :=
  ∃ cut : Cut, taken = cut.tokens ∧ prose.1 = cut.text ∧ cut.Carries prose.2 ∧
    cut.Spans braced rest

/-- Only the first of the tokens behind a run counts. -/
theorem Run.only_head {test : Kind → Bool} {taken front rest : List Token} {t : Token}
    (h : Run test taken (front ++ t :: rest)) : Run test taken (front ++ [t]) := by
  refine ⟨h.taken, fun u hu => h.stop u ?_⟩
  cases front with
  | nil => exact hu
  | cons => exact hu

theorem InlineContent.only_head {name : TagName} {content : Content} {words front rest : List Token}
    {t : Token} (h : InlineContent name words (front ++ t :: rest) content) :
    InlineContent name words (front ++ [t]) content := by
  cases h with
  | internal => exact .internal
  | link said blank =>
    have hrun := said.run
    rw [← List.append_assoc] at hrun
    have hword := hrun.only_head
    rw [List.append_assoc] at hword
    exact .link ⟨said.text, said.form, hword⟩ blank.only_head

/-- Behind an opening brace there are fewer tokens left. -/
theorem Opening.length_lt {name : TagName} {opening front rest : List Token}
    (h : Opening name opening) (htokens : tokens = opening ++ (front ++ rest)) :
    rest.length < tokens.length := by
  cases h
  rw [htokens]
  simp only [List.length_append, List.length_cons]
  omega

theorem ReadsInline.ne_nil {construct : List Token} {tag : Tag} (h : ReadsInline construct tag) :
    construct ≠ [] := by
  cases h <;> simp

theorem takes_openInline {name : TagName} {f : Unit → Reading β}
    (h : ∀ opening rest, tokens = opening ++ rest → Opening name opening →
      Takes scene (f ()) rest fun b taken behind => S b (opening ++ taken) behind) :
    Takes scene (openInline name >>= f) tokens S := by
  have hopen : Takes scene (openInline name) tokens fun _ taken _ => Opening name taken := by
    refine takes_pass fun brace _ _ hbrace => takes_blanks fun blanks _ _ hblanks => ?_
    refine takes_pass fun mark _ _ hmark => takes_skipBlanks.imp fun _ more _ _ hmore => ?_
    exact .intro hbrace hmark hblanks.taken hmore.taken
  exact hopen.bind fun _ opening rest htokens hopening => h opening rest htokens hopening

/-- The description of an inline tag, up to the closing brace. -/
theorem takes_inlineDescription {inner : Reading Prose} {name : TagName} {content : Content}
    {opening words : List Token} (hinner : Takes scene inner tokens (ReadsProse true))
    (hopening : Opening name opening) (hwords : InlineContent name words tokens content) :
    Takes scene (do
      let (description, inlineTags) ← inner
      pass .rightBrace
      return some ⟨content, Text.strip description, inlineTags⟩) tokens
      fun (found : Option Tag) taken _ => ∃ tag, found = some tag ∧
        ReadsInline (opening ++ (words ++ taken)) tag := by
  refine hinner.bind fun prose _ rest htokens hprose => ?_
  obtain ⟨cut, rfl, htext, hcarries, hspans⟩ := hprose
  refine takes_pass fun closing more hrest hclosing => .pure ⟨_, rfl, ?_⟩
  rw [hrest] at hspans
  rw [htokens, hrest] at hwords
  rw [htext]
  exact .described hopening hwords.only_head hspans.only_head hclosing hcarries.length
    hcarries.reads

/-- The description of an inline tag has fewer tokens in front of it than the tag. -/
theorem takes_inlineTag {inner : Reading Prose} (hinner : ∀ {rest}, rest.length < tokens.length →
      Takes scene inner rest (ReadsProse true)) (kind : Kind) :
    Takes scene (inlineTag inner kind) tokens fun found taken _ =>
      match found with
      | some tag => ReadsInline taken tag
      | none => taken = [] ∧ ∀ name ∈ inlineNames, kind ≠ .tag name := by
  unfold inlineTag
  split
  case h_1 =>
    refine takes_openInline fun opening _ _ hopening => takes_pass fun closing _ _ hclosing => ?_
    exact .pure (.bare hopening hclosing)
  case h_2 =>
    refine takes_openInline fun opening _ htokens hopening => ?_
    have hless := hopening.length_lt (show tokens = opening ++ ([] ++ _) from htokens)
    refine (takes_inlineDescription (hinner hless) hopening .internal).imp
      fun found _ _ _ hfound => ?_
    obtain ⟨tag, rfl, htag⟩ := hfound
    exact htag
  case h_3 =>
    refine takes_openInline fun opening _ htokens hopening => ?_
    refine takes_link.bind fun target words _ hopened htarget => ?_
    refine takes_blanks fun blanks rest hrest hblanks => ?_
    have hless : rest.length < tokens.length :=
      hopening.length_lt
        (show tokens = opening ++ ((words ++ blanks) ++ rest) by simp [htokens, hopened, hrest])
    rw [hrest] at htarget
    have hcontent := InlineContent.link htarget hblanks
    refine (takes_inlineDescription (hinner hless) hopening hcontent).imp
      fun found _ _ _ hfound => ?_
    obtain ⟨tag, rfl, htag⟩ := hfound
    rw [List.append_assoc] at htag
    exact htag
  case h_4 hinherit hinternal hlink =>
    refine .pure ⟨rfl, ?_⟩
    simp only [inlineNames, List.forall_mem_cons]
    exact ⟨hinherit, hinternal, hlink, nofun⟩

/-- The tag that begins at a brace, or that there is none. -/
theorem takes_inlineTagHere {inner : Reading Prose} (t : Token) (rest : List Token)
    (hinner : ∀ {left}, left.length < (t :: rest).length →
      Takes scene inner left (ReadsProse true)) :
    Takes scene (inlineTagHere inner t.kind) (t :: rest) fun found taken _ =>
      match found with
      | some tag => ReadsInline taken tag
      | none => taken = [] ∧ (t.kind = .leftBrace →
          ∀ u ∈ (rest.dropWhile (isBlankKind ·.kind)).head?, ∀ name ∈ inlineNames,
            u.kind ≠ .tag name) := by
  unfold inlineTagHere
  split
  case isTrue hbrace =>
    refine Takes.peekPast_bind ?_
    simp only [isBlankKind]
    cases hnext : (rest.dropWhile (·.kind = .whitespace)).head? with
    | none => exact .pure ⟨rfl, fun _ u hu => absurd hu (Option.not_mem_none u)⟩
    | some next =>
      refine (takes_inlineTag hinner next.kind).imp fun found _ _ _ hfound => ?_
      cases found with
      | some tag => exact hfound
      | none =>
        refine ⟨hfound.1, fun _ u hu => ?_⟩
        obtain rfl := Option.some.inj hu
        exact hfound.2
  case isFalse hbrace => exact .pure ⟨rfl, fun h => absurd h hbrace⟩

/-! ## How descriptions are read -/

/-- Each round pushes a token onto the last run, or closes the run with a construct. -/
theorem takes_prose {inner : Reading Prose} (hinner : ∀ {rest}, rest.length < tokens.length →
      Takes scene inner rest (ReadsProse true)) (braced : Bool) :
    Takes scene (Cursor.loop (descriptionRound inner braced) ([], [])) tokens
      (ReadsProse braced) := by
  refine Takes.loop (fun prose taken rest => ∃ cut : Cut, taken = cut.tokens ∧
    prose.1 = cut.text ∧ cut.Carries prose.2 ∧ cut.Begins braced rest) ?_
    ⟨⟨[], []⟩, rfl, rfl, ⟨rfl, fun i c u hc => nomatch hc⟩, .nil⟩
  intro prose taken rest htokens hprose
  obtain ⟨cut, rfl, htext, hcarries, hbegins⟩ := hprose
  refine Takes.current_bind (fun _ => .refuse .ended) fun t behind hrest _ => ?_
  subst hrest
  have hinner' : ∀ {left}, left.length < (t :: behind).length →
      Takes scene inner left (ReadsProse true) := by
    intro left hless
    refine hinner (Nat.lt_of_lt_of_le hless ?_)
    rw [htokens, List.length_append]
    exact Nat.le_add_left _ _
  dsimp only
  split
  case isTrue hends => exact .pure ⟨cut, List.append_nil _, htext, hcarries, hbegins.spans hends⟩
  case isFalse hends =>
    refine (takes_inlineTagHere t behind hinner').bind fun found construct more hmore hfound => ?_
    cases found with
    | some tag =>
      rw [hmore] at hbegins
      refine .pure ⟨by simpa using hfound.ne_nil, cut.close construct, by simp, ?_,
        hcarries.close hfound, hbegins.close⟩
      rw [Cut.text_close, ← htext, hcarries.length]
    | none =>
      obtain ⟨rfl, hopen⟩ := hfound
      rw [List.nil_append] at hmore
      subst hmore
      rw [Bool.not_eq_true] at hends
      refine Takes.moveNext_bind fun _ => .pure ⟨by simp, ?_⟩
      refine ⟨cut.push t, by simp, ?_, hcarries.push, hbegins.push hends hopen⟩
      rw [Cut.text_push, ← htext]

/-- The description in braces lies behind the brace, so none lies deeper than there are
tokens left. -/
theorem takes_descriptionBelow {depth : Nat} (braced : Bool) (hdepth : tokens.length < depth) :
    Takes scene (descriptionBelow depth braced) tokens (ReadsProse braced) := by
  induction depth generalizing tokens braced with
  | zero => exact absurd hdepth (Nat.not_lt_zero _)
  | succ depth ih =>
    refine takes_prose (fun hless => ih true ?_) braced
    exact Nat.lt_of_lt_of_le hless (Nat.le_of_lt_succ hdepth)

theorem takes_description : Takes scene description tokens (ReadsProse false) :=
  .get fun _ _ hahead => takes_descriptionBelow false (Nat.lt_succ_of_le hahead)

end DocComment.Grammar
