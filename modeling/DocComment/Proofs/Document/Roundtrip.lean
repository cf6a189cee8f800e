import DocComment.Grammar.Comment
import DocComment.Proofs.Cursor.Refinement
import DocComment.Proofs.Document.Screened

/-!
# Canonical comments are read back

The group of tokens of a tag is read as the tag whatever the next group is, and so a list of tags is
read by induction on it. The loop over the tags leaves the closing delimiter, and the comment ends.
-/

namespace DocComment.Canonical

open Grammar
open Reading (iterate)
open Screening (Quiet Spells closedItems introAt outroAt)
open Token (kindOf)

variable {c : Char} {w s t d : Text} {layout : Layout} {b : Block} {blocks : List Block} {u : Token}
variable {tokens lead rest between : List Token} {name : TagName} {content : Content}
  {words : List Text}

/-! ## How tags are read -/

/-- The one word of a tag, which its rule reads. -/
theorem reads_word {r : Reading Text} (f : Text → Content) (hw : IsWord w) (hr : ReadsWord r w)
    (h : Spells tokens (' ' :: (w ++ t))) (ht : ∀ c ∈ t.head?, kindOf c = .whitespace) :
    ∃ more, Spells more t ∧ ∀ rest, EndsWord rest → ∃ between,
      Reads skipBlanks (tokens ++ rest) () between ∧
      Reads (f <$> r) between (f w) (more ++ rest) := by
  obtain ⟨front, hfront, -, hgap⟩ := reads_gap h (.inl Screening.kindOf_space) (hw.solid t)
  obtain ⟨more, hmore, hread⟩ := reads_field hw hr hfront ht
  exact ⟨more, hmore, fun rest hrest =>
    ⟨front ++ rest, hgap rest, (hread rest hrest).2.map f⟩⟩

/-- The type and the variable of a tag. -/
theorem reads_typeAndName {type variableText : Text} (htype : IsType .whole type)
    (hname : Form.isVariable variableText = true)
    (h : Spells tokens (' ' :: (type ++ ' ' :: (variableText ++ t))))
    (ht : ∀ c ∈ t.head?, kindOf c = .whitespace) :
    ∃ more, Spells more t ∧ ∀ rest, EndsWord rest → ∃ between named,
      Reads skipBlanks (tokens ++ rest) () between ∧
      Reads (typeOr "mixed") between type named ∧
      Reads (Cursor.isAt .dollar) named true named ∧
      Reads variableName named variableText (more ++ rest) := by
  have hspace := Screening.kindOf_space
  have hword := isWord_of_isVariable hname
  obtain ⟨front, hfront, -, hgap⟩ :=
    reads_gap h (.inl hspace) ((isWord_of_isType htype).solid _)
  obtain ⟨named, hnamed, hread⟩ := reads_typeBefore htype hfront hspace (hword.solid t)
  obtain ⟨more, hmore, hvariable⟩ := reads_field hword (readsWord_variableName hname) hnamed ht
  refine ⟨more, hmore, fun rest hrest => ⟨front ++ rest, named ++ rest, hgap rest, ?_, ?_, ?_⟩⟩
  · obtain ⟨between, htypeName, hnext⟩ := hread rest hrest
    exact reads_attempt (htypeName.bind (hnext.bind (.pure _)))
  · obtain ⟨name, rfl, -, -⟩ := Form.chars_of_isVariable hname
    obtain ⟨offset, tail, rfl, -⟩ :=
      Spells.of_punctuation (c := '$') (t := name ++ t) hnamed (k := .dollar) rfl (by simp)
    exact reads_isAt_of_eq rfl
  · exact (hvariable rest hrest).2

/-- What a tag with words says is read back from them. -/
theorem reads_content (h : Writes content name words) (hne : words ≠ [])
    (hs : Spells tokens (words.flatMap (' ' :: ·) ++ t))
    (ht : ∀ c ∈ t.head?, kindOf c = .whitespace) :
    ∃ more, Spells more t ∧ ∀ rest, EndsWord rest → ∃ between,
      Reads skipBlanks (tokens ++ rest) () between ∧
      Reads (Grammar.content name) between content (more ++ rest) := by
  have hone : ∀ w : Text, [w].flatMap (' ' :: ·) ++ t = ' ' :: (w ++ t) := fun w => by simp
  have htwo : ∀ w v : Text, [w, v].flatMap (' ' :: ·) ++ t = ' ' :: (w ++ ' ' :: (v ++ t)) :=
    fun w v => by simp
  cases h with
  | api | copyright | todo => exact absurd rfl hne
  | package named =>
    rw [hone] at hs
    exact reads_word .package (isWord_of_isQualified named) (readsWord_className named) hs ht
  | throws named =>
    rw [hone] at hs
    exact reads_word .throws (isWord_of_isQualified named) (readsWord_className named) hs ht
  | returns typed =>
    rw [hone] at hs
    exact reads_word .returns (isWord_of_isType typed) (readsWord_typeName typed) hs ht
  | since named =>
    rw [hone] at hs
    exact reads_word .since (isWord_of_isNumberedVersion named) (readsWord_version named) hs ht
  | version named =>
    rw [hone] at hs
    exact reads_word .version (isWord_of_isNumberedVersion named) (readsWord_version named) hs ht
  | @param type name typed named | @var type name typed named =>
    rw [htwo] at hs
    obtain ⟨more, hmore, hread⟩ := reads_typeAndName typed named hs ht
    refine ⟨more, hmore, fun rest hrest => ?_⟩
    obtain ⟨between, behind, hgap, htype, hdollar, hname⟩ := hread rest hrest
    have hoptional : Reads optionalVariable behind name (more ++ rest) := hdollar.bind hname
    have htypedName : Reads typedName between ⟨type, name⟩ (more ++ rest) :=
      htype.bind (hoptional.bind (.pure _))
    exact ⟨between, hgap, htypedName.map _⟩
  | property typed named | propertyRead typed named | propertyWrite typed named =>
    rw [htwo] at hs
    obtain ⟨more, hmore, hread⟩ := reads_typeAndName typed named hs ht
    refine ⟨more, hmore, fun rest hrest => ?_⟩
    obtain ⟨between, behind, hgap, htype, -, hname⟩ := hread rest hrest
    have hproperty : ∀ access, Reads (property access) between _ (more ++ rest) :=
      fun access => htype.bind (hname.bind (.pure _))
    exact ⟨between, hgap, (hproperty _).map _⟩

theorem isBare_eq (h : Writes content name words) : isBare name = !isDescribed name := by
  cases h <;> rfl

theorem content_of_wordless (h : Writes content name []) : Grammar.content name = pure content := by
  cases h <;> rfl

theorem reads_bareTag {text : Text} {offset : Nat} (hbare : isBare name = true)
    (hgap : Reads skipBlanks tokens () between)
    (hcontent : Reads (Grammar.content name) between content rest) :
    Reads (blockTag name) (⟨.tag name, text, offset⟩ :: tokens) { content } rest := by
  refine (reads_pass rfl).bind (hgap.bind (hcontent.bind ?_))
  rw [if_pos hbare]
  exact .pure _

theorem reads_describedTag {text prose : Text} {offset : Nat} {more front : List Token}
    (hbare : isBare name = false) (hgap : Reads skipBlanks tokens () between)
    (hcontent : Reads (Grammar.content name) between content more)
    (hblank : Reads skipBlanks more () front)
    (hprose : Reads description front (prose, []) rest) :
    Reads (blockTag name) (⟨.tag name, text, offset⟩ :: tokens)
      { content, description := Text.strip prose } rest := by
  refine (reads_pass rfl).bind (hgap.bind (hcontent.bind ?_))
  rw [if_neg (by simp [hbare])]
  exact hblank.bind (hprose.bind (.pure _))

theorem reads_trail (hs : Spells tokens (b.trail layout)) (hbehind : Behind lead u)
    (rest : List Token) :
    ∃ prose front, Text.strip prose = b.description ∧ (∀ v ∈ front.head?, v.kind ≠ .whitespace) ∧
      Reads skipBlanks (tokens ++ (lead ++ u :: rest)) () front ∧
      Reads description front (prose, []) (u :: rest) :=
  reads_prose (.inl Screening.kindOf_space) (b.trails layout) b.plain.stripped b.plain.noBrace hs
    hbehind rest

theorem reads_block_described {text : Text} {offset : Nat} (hdescribed : isDescribed b.name = true)
    (hs : Spells tokens (b.tail layout)) (hbehind : Behind lead u) :
    Reads (blockTag b.name) (⟨.tag b.name, text, offset⟩ :: (tokens ++ (lead ++ u :: rest))) b.tag
      (u :: rest) := by
  have hwrites := b.writes
  have hbare : isBare b.name = false := by rw [isBare_eq hwrites, hdescribed]; rfl
  rw [Block.tail] at hs
  by_cases hwords : b.words = []
  · rw [hwords] at hs hwrites
    obtain ⟨prose, front, hstrip, hsolid, hgap, hdescription⟩ := reads_trail hs hbehind rest
    have hcontent : Reads (Grammar.content b.name) front b.content front := by
      rw [content_of_wordless hwrites]
      exact .pure _
    rw [Block.tag, ← hstrip]
    exact reads_describedTag hbare hgap hcontent (reads_noBlanks hsolid) hdescription
  · obtain ⟨more, hmore, hread⟩ := reads_content hwrites hwords hs (kindOf_head_trail layout b)
    obtain ⟨prose, front, hstrip, -, hblank, hdescription⟩ := reads_trail hmore hbehind rest
    obtain ⟨between, hgap, hcontent⟩ := hread _ hbehind.endsWord
    rw [Block.tag, ← hstrip]
    exact reads_describedTag hbare hgap hcontent hblank hdescription

/-- A tag is read back from its tokens. What it leaves in front of the next are blanks, at most. -/
theorem reads_block {text : Text} {offset : Nat} (hs : Spells tokens (b.tail layout))
    (hbehind : Behind lead u) :
    ∃ between, Reads (blockTag b.name)
        (⟨.tag b.name, text, offset⟩ :: (tokens ++ (lead ++ u :: rest))) b.tag between ∧
      Reads skipBlanks between () (u :: rest) := by
  have hstop : ∀ v ∈ (u :: rest).head?, v.kind ≠ .whitespace := by simpa using hbehind.kind_ne
  -- a bare tag leaves the line break to the loop, and any other reads it with its description
  cases hdescribed : isDescribed b.name with
  | true => exact ⟨u :: rest, reads_block_described hdescribed hs hbehind, reads_noBlanks hstop⟩
  | false =>
    have hwrites := b.writes
    have hbare : isBare b.name = true := by rw [isBare_eq hwrites, hdescribed]; rfl
    have hlead : Reads skipBlanks (lead ++ u :: rest) () (u :: rest) :=
      reads_skipBlanks hbehind.kind_lead hstop
    have htrail : b.trail layout = [] := by rw [Block.trail, hdescribed]; rfl
    have htag : b.tag = { content := b.content } := by rw [Block.tag, b.bare hdescribed]
    rw [Block.tail, htrail] at hs
    rw [htag]
    by_cases hwords : b.words = []
    · rw [hwords] at hs hwrites
      obtain rfl := hs.eq_nil
      have hcontent : Reads (Grammar.content b.name) (u :: rest) b.content (u :: rest) := by
        rw [content_of_wordless hwrites]
        exact .pure _
      exact ⟨u :: rest, reads_bareTag hbare hlead hcontent, reads_noBlanks hstop⟩
    · obtain ⟨more, hmore, hread⟩ := reads_content hwrites hwords hs (by simp)
      obtain rfl := hmore.eq_nil
      obtain ⟨between, hgap, hcontent⟩ := hread _ hbehind.endsWord
      exact ⟨lead ++ u :: rest, reads_bareTag hbare hgap hcontent, hlead⟩

/-! ## How comments are read -/

/-- A list of tags is read back from its tokens, up to the closing delimiter. -/
theorem reads_blocks (h : Spelled layout blocks u rest) :
    ∃ offset stop, ∀ n document, (u :: rest).length ≤ n →
      Reads (iterate blockTagsRound (n + 1) document) (u :: rest)
        ((blocks.map Block.tag).foldl Document.insert document)
        [outroAt offset, ⟨.endOfText, [], stop⟩] := by
  induction h with
  | outro offset stop =>
    exact ⟨offset, stop, fun n document _ => .iterate_done (reads_current.bind (.pure _))⟩
  | block text offset spells behind next ih =>
    obtain ⟨outro, stop, hread⟩ := ih
    refine ⟨outro, stop, fun n document hn => ?_⟩
    obtain ⟨between, htag, hgap⟩ := reads_block spells behind
    simp only [List.length_cons, List.length_append] at hn hread
    obtain ⟨n, rfl⟩ : ∃ m, n = m + 1 := ⟨n - 1, by omega⟩
    exact .iterate_again (reads_current.bind (htag.bind (hgap.bind (.pure _))))
      (hread n _ (by omega))

theorem reads_comment (hd : IsPlain d) (ht : Trails '\n' d t) (hs : Spells tokens t)
    (hbehind : Behind lead u) (h : Spelled layout blocks u rest) :
    Reads comment (introAt 0 :: (tokens ++ (lead ++ u :: rest))) (document d blocks) [] := by
  obtain ⟨prose, front, hstrip, -, hblank, hdescription⟩ :=
    reads_prose (.inr Screening.kindOf_feed) ht hd.stripped hd.noBrace hs hbehind rest
  obtain ⟨offset, stop, hblocks⟩ := reads_blocks h
  have hloop := Reads.loop (hblocks _ { description := Text.strip prose } (Nat.le_refl _))
  have hdocument :
      (blocks.map Block.tag).foldl Document.insert { description := Text.strip prose } =
      document d blocks := by
    rw [hstrip]
    exact foldl_insert d blocks
  rw [hdocument] at hloop
  have hend : Reads skipBlanks [⟨.endOfText, [], stop⟩] () [⟨.endOfText, [], stop⟩] :=
    reads_noBlanks (by simp)
  refine (reads_noBlanks (by simp [introAt])).bind ((reads_pass rfl).bind ?_)
  refine hblank.bind (hdescription.bind ?_)
  exact hloop.bind ((reads_pass rfl).bind (hend.bind ((reads_pass rfl).bind (.pure _))))

theorem strip_render (layout : Layout) (d : Text) (blocks : List Block) :
    Text.strip (render layout d blocks) = render layout d blocks := by
  rw [render_eq, Screening.closed]
  have hends := @Text.strip_of_ends '/' '/' ('*' :: '*' ::
    (Screening.withMargins ((paragraphs layout d blocks).flatMap ('\n' :: ·)) ++ ['\n', ' ', '*']))
    (by decide) (by decide)
  simpa using hends

theorem onText_of_reads {α : Type} {r : Reading α} {a : α} (h : Reads r tokens a rest)
    (hscreen : screen s = .ok tokens) : r.onText s = .ok a := by
  obtain ⟨taken, -, h⟩ := h
  obtain ⟨peek, hgives⟩ := h [] 0
  obtain ⟨c, hread, -⟩ := hgives (Cursor.ofText s) (Cursor.stands_ofText hscreen)
  rw [Reading.onText, hread]

/-- A canonical comment is parsed to the document that it stands for: its description, no inline
tag, and in each slot the tags of that slot as they were written. -/
theorem parse_render (layout : Layout) {d : Text} (hd : IsPlain d) (blocks : List Block) :
    Document.parse (render layout d blocks) = .ok (document d blocks) := by
  obtain ⟨t, tokens, lead, u, rest, htrails, hspells, hbehind, hspelled, hscreen⟩ :=
    exists_screen_render layout hd blocks
  have hne : render layout d blocks ≠ [] := by
    rw [render_eq]
    simp
  rw [Document.parse, strip_render, if_neg hne]
  exact onText_of_reads (reads_comment hd htrails hspells hbehind hspelled) hscreen

/-- A parameter of a union type, with a description of two lines. -/
def exampleParam : Block where
  content := .param ⟨"int|A[]".toList, "$x".toList⟩
  name := .param
  words := ["int|A[]".toList, "$x".toList]
  description := "The first,\nor none.".toList
  writes := .param (.join 0 '|' (.inl rfl) (.name "int".toList (by decide))
    (.last 1 (.name "A".toList (by decide)))) (by decide)
  plain :=
    ⟨⟨by decide, by decide, by decide +kernel, by decide +kernel⟩, by decide +kernel, by decide⟩
  bare := fun h => nomatch h

/-- The tag without words and without a description. -/
def exampleApi : Block where
  content := .api
  name := .api
  words := []
  description := []
  writes := .api
  plain := ⟨.nil, rfl, by simp⟩
  bare := fun _ => rfl

theorem parse_render_param_api :
    IsPlain "Adds.".toList ∧
      Document.parse
        "/**\n * Adds.\n * @param int|A[] $x The first,\n * or none.\n * @api\n */".toList =
        .ok { description := "Adds.".toList
              params := [⟨⟨"int|A[]".toList, "$x".toList⟩, "The first,\nor none.".toList, []⟩]
              api := some ⟨(), [], []⟩ } := by
  have hplain : IsPlain "Adds.".toList :=
    ⟨⟨by decide, by decide, by decide +kernel, by decide +kernel⟩, by decide +kernel, by decide⟩
  have hrender : render .full "Adds.".toList [exampleParam, exampleApi] =
      "/**\n * Adds.\n * @param int|A[] $x The first,\n * or none.\n * @api\n */".toList := by
    decide +kernel
  have hparse := parse_render .full hplain [exampleParam, exampleApi]
  rw [hrender] at hparse
  exact ⟨hplain, hparse⟩

end DocComment.Canonical
