import DocComment.Grammar.Comment
import DocComment.Proofs.Grammar.Inline
import DocComment.Proofs.Screening.Offsets

/-!
# What comments are read from

The tokens of a comment, taken apart without gaps: what opens the comment, the description, and one
block tag behind the other up to the closing delimiter. `reads_of_parse` says that every document is
read in this way from the tokens of its text. A fault may have been met and lost where a rule was
tried, but no token was passed over.
-/

namespace DocComment

namespace Grammar

open Reading (Takes Scene)
open Screening (Sound)

section Clean

variable (clean : Prop)

/-- The tokens of a block tag: its name, what says the content that the name wants, and the
description, with blanks between them. The description begins behind the blanks and goes on up to
what ends it. -/
inductive ReadsBlock : Tag → List Token → List Token → Prop
  | bare {name : TagName} {mark : Token} {blanks words rest : List Token} {content : Content}
      (named : mark.kind = .tag name) (bare : isBare name = true)
      (inner : Run isBlankKind blanks (words ++ rest))
      (said : ReadsContent clean name content words rest) (wellFormed : content.WellFormed) :
      ReadsBlock { content } (mark :: (blanks ++ words)) rest
  | described {name : TagName} {mark : Token} {blanks words more rest : List Token}
      {content : Content}
      {cut : Cut} {tags : List Tag} (named : mark.kind = .tag name)
      (described : isBare name = false)
      (inner : Run isBlankKind blanks (words ++ (more ++ (cut.tokens ++ rest))))
      (said : ReadsContent clean name content words (more ++ (cut.tokens ++ rest)))
      (outer : Run isBlankKind more (cut.tokens ++ rest)) (wellFormed : content.WellFormed)
      (carries : cut.Carries tags) (spans : cut.Spans false rest) :
      ReadsBlock ⟨content, Text.strip cut.text, tags⟩
        (mark :: (blanks ++ (words ++ (more ++ cut.tokens)))) rest

/-- Block tags one behind the other, each with the blanks behind it, up to an ending. -/
inductive ReadsBlocks (ending : List Token) : List Tag → List Token → Prop
  | done : ReadsBlocks ending [] ending
  | block {taken blanks rest : List Token} {tag : Tag} {tags : List Tag}
      (reads : ReadsBlock clean tag taken (blanks ++ rest))
      (blank : ∀ t ∈ blanks, isBlankKind t.kind = true) (more : ReadsBlocks ending tags rest) :
      ReadsBlocks ending (tag :: tags) (taken ++ (blanks ++ rest))

/-- The opening delimiter, and the blanks around it. -/
inductive OpensComment : List Token → Prop
  | intro {before after : List Token} {opening : Token}
      (blank : ∀ t ∈ before, isBlankKind t.kind = true) (opens : opening.kind = .intro)
      (inner : ∀ t ∈ after, isBlankKind t.kind = true) :
      OpensComment (before ++ opening :: after)

/-- The tokens of a comment, taken apart: what opens it, its own description, the block tags, and
what ends it. -/
structure CommentParts where
  lead : List Token
  own : Cut
  blocks : List Token
  tags : List Tag
  ending : List Token

/-- The tokens of a comment and the document that they stand for. -/
structure ReadsComment (doc : Document) (tokens : List Token) (parts : CommentParts) : Prop where
  tokens : tokens = parts.lead ++ (parts.own.tokens ++ parts.blocks)
  opens : OpensComment parts.lead
  spans : parts.own.Spans false parts.blocks
  carries : parts.own.Carries doc.inlineTags
  text : doc.description = Text.strip parts.own.text
  blocks : ReadsBlocks clean parts.ending parts.tags parts.blocks
  closes : ∃ closing blanks last, parts.ending = closing :: (blanks ++ [last]) ∧
    closing.kind = .outro ∧ (∀ t ∈ blanks, isBlankKind t.kind = true) ∧ last.kind = .endOfText
  document : doc = parts.tags.foldl Document.insert
    { description := doc.description, inlineTags := doc.inlineTags }

end Clean

variable {scene : Scene} {tokens : List Token}

theorem ReadsComment.mem_tags {clean : Prop} {doc : Document} {parts : CommentParts}
    (h : ReadsComment clean doc tokens parts) {tag : Tag} (hmem : tag ∈ doc.blockTags) :
    tag ∈ parts.tags := by
  rw [h.document] at hmem
  rcases Document.mem_blockTags_foldl_insert hmem with hmem | hmem
  · exact hmem
  · cases hmem

theorem ReadsBlock.ne_nil {clean : Prop} {tag : Tag} {taken rest : List Token}
    (h : ReadsBlock clean tag taken rest) : taken ≠ [] := by
  cases h <;> exact List.cons_ne_nil _ _

theorem takes_blockTag (h : Sound tokens) (name : TagName) :
    Takes scene (blockTag name) tokens (ReadsBlock scene.clean) := by
  refine takes_pass fun mark front htokens hmark =>
    takes_blanks fun blanks middle hfront hblanks => ?_
  have hsound : Sound middle :=
    (h.behind (show tokens = [mark] ++ front from htokens)).behind hfront
  have hsolid : ∀ t ∈ middle.head?, t.kind ≠ .whitespace :=
    fun t ht => of_decide_eq_false (hblanks.stop t ht)
  refine (takes_content hsound name).bind fun content words rest hmiddle hsaid => ?_
  have hwellFormed := hsaid.wellFormed (hmiddle ▸ hsound) (hmiddle ▸ hsolid)
  split
  case isTrue hbare =>
    rw [hmiddle] at hblanks
    exact .pure
      (by simpa using ReadsBlock.bare hmark hbare hblanks hsaid (hwellFormed (by simp [hbare])))
  case isFalse hbare =>
    rw [Bool.not_eq_true] at hbare
    refine takes_blanks fun more behind hrest hmore => ?_
    refine takes_description.bind fun prose taken final hbehind hprose => .pure ?_
    obtain ⟨cut, rfl, htext, hcarries, hspans⟩ := hprose
    have hleft : rest ≠ [] := by
      obtain ⟨t, last, hfinal, -⟩ := hspans.stop
      rw [hrest, hbehind, hfinal]
      simp
    have hcontent := hwellFormed fun _ => hleft
    rw [hbehind] at hmore
    rw [hrest, hbehind] at hsaid
    rw [hmiddle, hrest, hbehind] at hblanks
    rw [htext]
    simpa using ReadsBlock.described hmark hbare hblanks hsaid hmore hcontent hcarries hspans

/-- Each round puts the next tag into the document. -/
theorem takes_blocks (h : Sound tokens) (start : Document) :
    Takes scene (Cursor.loop blockTagsRound start) tokens fun doc taken rest =>
      ∃ tags, doc = tags.foldl Document.insert start ∧
      ReadsBlocks scene.clean rest tags (taken ++ rest) := by
  refine Takes.loop (fun doc taken rest => ∃ tags, doc = tags.foldl Document.insert start ∧
    ∀ ending more, ReadsBlocks scene.clean ending more rest →
      ReadsBlocks scene.clean ending (tags ++ more) (taken ++ rest)) ?_
    ⟨[], rfl, fun _ _ hmore => hmore⟩
  intro doc taken rest htokens hdoc
  obtain ⟨tags, rfl, hblocks⟩ := hdoc
  have hdone : ∃ all, tags.foldl Document.insert start = all.foldl Document.insert start ∧
      ReadsBlocks scene.clean rest all (taken ++ rest) := by
    have hall := hblocks rest [] .done
    rw [List.append_nil] at hall
    exact ⟨tags, rfl, hall⟩
  refine Takes.current_bind (fun hnil => .pure ?_) fun t behind hrest _ => ?_
  · rw [List.append_nil, ← hnil]
    exact hdone
  · subst hrest
    split
    case h_1 name text offset heq =>
      refine (takes_blockTag (h.behind htokens) name).bind fun tag block more hmore hblock => ?_
      refine takes_blanks fun blanks final hfinal hblanks => .pure ⟨by simp [hblock.ne_nil], ?_⟩
      refine ⟨tags ++ [tag], by rw [List.foldl_append]; rfl, fun ending others hothers => ?_⟩
      rw [hfinal] at hblock
      have hall := hblocks ending (tag :: others) ?_
      · rw [hmore, hfinal] at hall
        simpa using hall
      · rw [hmore, hfinal]
        exact .block hblock hblanks.taken hothers
    case h_2 => exact .pure (by simpa using hdone)

theorem takes_comment (h : Sound tokens) :
    Takes scene comment tokens fun doc _ _ =>
      ∃ parts, ReadsComment scene.clean doc tokens parts := by
  refine takes_blanks fun before front htokens hbefore =>
    takes_pass fun opening middle hfront hopening => ?_
  refine takes_blanks fun inside behind hmiddle hinside => ?_
  refine takes_description.bind fun prose taken rest hbehind hprose => ?_
  obtain ⟨cut, rfl, htext, hcarries, hspans⟩ := hprose
  have hlead : tokens = (before ++ opening :: inside) ++ (cut.tokens ++ rest) := by
    simp [htokens, hfront, hmiddle, hbehind]
  refine (takes_blocks ((hlead ▸ h).of_append.of_append) _).bind
    fun doc blocks final hrest hdoc => ?_
  obtain ⟨tags, rfl, hblocks⟩ := hdoc
  refine takes_pass fun closing behind' hfinal hclosing =>
    takes_blanks fun blanks left hleft hblanks => ?_
  refine takes_pass fun last after hafter hlast => .pure ?_
  have hnone : after = [] := by
    have hsplit :
        tokens = ((before ++ opening :: inside) ++ (cut.tokens ++ (blocks ++ closing :: blanks))) ++
        last :: after := by
      simp [hlead, hrest, hfinal, hleft, hafter]
    exact h.last _ last after hsplit hlast
  obtain ⟨hdescription, hinline⟩ := Document.foldl_insert_own tags
    { description := Text.strip prose.1, inlineTags := prose.2 }
  exact ⟨⟨before ++ opening :: inside, cut, rest, tags, final⟩, {
    tokens := hlead
    opens := .intro hbefore.taken hopening hinside.taken
    spans := hspans
    carries := by rw [hinline]; exact hcarries
    text := by rw [hdescription, htext]
    blocks := hrest ▸ hblocks
    closes :=
      ⟨closing, blanks, last, by rw [hfinal, hleft, hafter, hnone], hclosing, hblanks.taken, hlast⟩
    document := by rw [hdescription, hinline] }⟩

end Grammar

/-- No line of the text is at fault. -/
def Screens (s : Text) : Prop := ∃ tokens, screen s = .ok tokens

namespace Reading

/-- The scene that a text sets, which is clean if the text screens. -/
def Scene.ofText (s : Text) : Scene := ⟨s, Screening.items s, Screens s⟩

theorem Scene.Gives.within {s : Text} {cause : Cause} (h : (ofText s).Gives cause) :
    cause.Within s := by
  cases h with
  | fault shown => exact Screening.within_of_mem_items shown
  | token shown => exact .inr shown
  | ended => trivial
  | malformed places =>
    rcases places with rfl | ⟨t, shown, rfl⟩
    · exact Nat.le_refl _
    · exact Screening.offset_le_of_mem_items shown

theorem between_ofText (s : Text) :
    Between (.ofText s) [] (Screening.readable (Screening.items s)) (Cursor.ofText s) := by
  refine ⟨⟨rfl, rfl, fun _ hitem => hitem, fun hclean => ⟨?_, Int.le_refl 0⟩⟩, rfl⟩
  obtain ⟨tokens, hscreen⟩ := hclean
  rw [Screening.readable_of_screen hscreen]
  exact screen_eq_ok_iff.mp hscreen

variable {α : Type} {r : Reading α} {s : Text} {Q : α → List Token → List Token → Prop}

/-- What holds of a reading in front of the tokens of a text holds of its answer to the text. -/
theorem Takes.of_onText {a : α}
    (hr : Takes (.ofText s) r (Screening.readable (Screening.items s)) Q) (h : r.onText s = .ok a) :
    ∃ taken rest, Screening.readable (Screening.items s) = taken ++ rest ∧ Q a taken rest := by
  have hanswers := hr [] (Cursor.ofText s) (between_ofText s)
  unfold Reading.onText at h
  split at h
  case h_1 result after hresult =>
    obtain rfl := Except.ok.inj h
    rw [hresult] at hanswers
    obtain ⟨-, taken, rest, htokens, -, hq⟩ := hanswers
    exact ⟨taken, rest, htokens, hq⟩
  case h_2 => cases h

/-- A reading that does not answer to a text is refused for a cause that lies in it. -/
theorem Takes.onText_error {failure : Failure}
    (hr : Takes (.ofText s) r (Screening.readable (Screening.items s)) Q)
    (h : r.onText s = .error failure) :
    ∃ cause : Cause, failure = .syntaxError ⟨cause, s⟩ ∧ cause.Within s := by
  have hanswers := hr [] (Cursor.ofText s) (between_ofText s)
  unfold Reading.onText at h
  split at h
  case h_1 => cases h
  case h_2 refusal after hresult =>
    obtain rfl := Except.error.inj h
    rw [hresult] at hanswers
    obtain ⟨-, cause, rfl, hgives⟩ := hanswers
    exact ⟨cause, rfl, hgives.within⟩

end Reading

namespace Grammar

theorem comment_error {s : Text} {failure : Failure} (h : comment.onText s = .error failure) :
    ∃ cause : Cause, failure = .syntaxError ⟨cause, s⟩ ∧ cause.Within s :=
  (takes_comment (Screening.sound_readable s)).onText_error h

end Grammar

/-- A comment is read, or it is refused for a cause that lies in it. -/
theorem Document.parse_error {text : Text} {failure : Failure}
    (h : Document.parse text = .error failure) :
    ∃ cause : Cause, failure = .syntaxError ⟨cause, Text.strip text⟩ ∧
      cause.Within (Text.strip text) := by
  rw [Document.parse] at h
  split at h
  · cases h
  · exact Grammar.comment_error h

theorem exists_of_isOk {ε α : Type} {answer : Except ε α} (h : answer.isOk = true) :
    ∃ a, answer = .ok a := by
  cases answer with
  | ok a => exact ⟨a, rfl⟩
  | error => cases h

/-- A document is read from the tokens of its text, or the text is blank. -/
theorem reads_of_parse {text : Text} {doc : Document} (h : Document.parse text = .ok doc) :
    (Text.strip text = [] ∧ doc = {}) ∨
      ∃ parts, Grammar.ReadsComment (Screens (Text.strip text)) doc
        (Screening.readable (Screening.items (Text.strip text))) parts := by
  unfold Document.parse at h
  dsimp only at h
  split at h
  case isTrue hblank => exact .inl ⟨hblank, (Except.ok.inj h).symm⟩
  case isFalse =>
    right
    have hsound := Screening.sound_readable (Text.strip text)
    obtain ⟨-, -, -, hread⟩ := (Grammar.takes_comment hsound).of_onText h
    exact hread

/-! ## Well-formed documents -/

section WellFormed

open Grammar (Cut ReadsBlock ReadsBlocks ReadsInline)

variable {clean : Prop} {tokens rest ending : List Token} {tag : Tag} {tags : List Tag} {cut : Cut}

theorem Grammar.ReadsInline.wellFormed (h : ReadsInline tokens tag) : tag.WellFormed := by
  induction h with
  | bare => exact .intro trivial rfl nofun
  | described _ announces _ _ length _ ih =>
    refine .intro ?_ (Text.strip_strip _) fun inner hinner => ?_
    · cases announces with
      | internal => trivial
      | link said => exact said.form
    · obtain ⟨i, construct, hconstruct, htag⟩ := Cut.exists_construct length hinner
      exact ih i construct inner hconstruct htag

theorem Grammar.Cut.Carries.wellFormed (h : cut.Carries tags) : ∀ tag ∈ tags, tag.WellFormed := by
  intro tag hmem
  obtain ⟨construct, -, hread⟩ := h.of_mem hmem
  exact hread.wellFormed

theorem Grammar.ReadsBlock.wellFormed (h : ReadsBlock clean tag tokens rest) : tag.WellFormed := by
  cases h with
  | bare _ _ _ _ wellFormed => exact .intro wellFormed rfl nofun
  | described _ _ _ _ _ wellFormed carries =>
    exact .intro wellFormed (Text.strip_strip _) carries.wellFormed

theorem Grammar.ReadsBlocks.wellFormed (h : ReadsBlocks clean ending tags tokens) :
    ∀ tag ∈ tags, tag.WellFormed := by
  induction h with
  | done => exact nofun
  | block reads _ _ ih => exact List.forall_mem_cons.mpr ⟨reads.wellFormed, ih⟩

end WellFormed

/-- Every document is well-formed, down to the innermost of its inline tags. -/
theorem parse_wellFormed {text : Text} {doc : Document} (h : Document.parse text = .ok doc) :
    doc.WellFormed := by
  rcases reads_of_parse h with ⟨-, rfl⟩ | ⟨parts, hread⟩
  · exact ⟨rfl, nofun, nofun⟩
  · constructor
    · rw [hread.text, Text.strip_strip]
    · exact hread.carries.wellFormed
    · exact fun tag hmem => hread.blocks.wellFormed tag (hread.mem_tags hmem)

/-- A type in parentheses, a version that a system fills in, a file, and a link within braces. -/
theorem parse_wellFormed_tags :
    ∃ doc, Document.parse
      "/** {@link http://a.bc x} @param (int|A\\B)[] $x @version CVS: $Id$ @uses a.php */".toList =
        .ok doc ∧ doc.WellFormed := by
  have hok : Except.isOk (Document.parse
      "/** {@link http://a.bc x} @param (int|A\\B)[] $x @version CVS: $Id$ @uses a.php */".toList) =
        true := by
    decide +kernel
  obtain ⟨doc, hdoc⟩ := exists_of_isOk hok
  exact ⟨doc, hdoc, parse_wellFormed hdoc⟩

end DocComment
