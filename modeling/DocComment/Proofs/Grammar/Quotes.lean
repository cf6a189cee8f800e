import DocComment.Proofs.Document.Blocks
import DocComment.Proofs.Screening.Whole

/-!
# What tags quote

Links, references and email addresses are copied out of a comment. Each is the text of tokens that
stand side by side in it, and so are those of the inline tags, however deep. An address is stripped,
which drops whole tokens.
-/

namespace DocComment

/-- The texts of a tag that say where something is to be found. -/
def Content.references : Content → List Text
  | .link target => [target]
  | .see reference | .uses reference | .usedBy reference => [reference]
  | .author a => if a.email = [] then [] else [a.email]
  | _ => []

/-- The text is a reference of the tag, or of one of its inline tags at any depth. -/
inductive Tag.Mentions (r : Text) : Tag → Prop where
  | own {tag : Tag} (mem : r ∈ tag.content.references) : Mentions r tag
  | inline {tag inner : Tag} (mem : inner ∈ tag.inlineTags) (mentions : Mentions r inner) :
      Mentions r tag

/-- The text is a reference of one of the tags of the document, inline tags included. -/
def Document.Mentions (doc : Document) (r : Text) : Prop :=
  ∃ tag, (tag ∈ doc.inlineTags ∨ tag ∈ doc.blockTags) ∧ tag.Mentions r

namespace Grammar

open Token (concat)

/-- The text is that of some of the tokens, side by side. -/
def Quotes (tokens : List Token) (r : Text) : Prop := ∃ run, run <:+: tokens ∧ r = concat run

/-- All that the tag mentions is quoted from the tokens. -/
def QuotesTag (tokens : List Token) (tag : Tag) : Prop := ∀ r, tag.Mentions r → Quotes tokens r

variable {clean : Prop} {tokens taken rest front : List Token} {r : Text} {tag : Tag} {cut : Cut}
  {tags : List Tag}

theorem Quotes.widen (h : Quotes taken r) (hin : taken <:+: tokens) : Quotes tokens r := by
  obtain ⟨run, hrun, hr⟩ := h
  exact ⟨run, hrun.trans hin, hr⟩

theorem QuotesTag.widen (h : QuotesTag taken tag) (hin : taken <:+: tokens) :
    QuotesTag tokens tag :=
  fun r hr => (h r hr).widen hin

theorem quotes_of_eq (h : r = concat taken) : Quotes taken r := ⟨taken, List.infix_refl taken, h⟩

/-! ## What tags say -/

/-- An address is stripped, and what is left is that of whole tokens. -/
theorem ReadsAuthor.quotes {a : Author} (h : ReadsAuthor a taken rest)
    (hwhole : ∀ t ∈ taken, t.Whole) : ∀ r ∈ (Content.author a).references, Quotes taken r := by
  intro r hr
  cases h with
  | named => simp [Content.references] at hr
  | @addressed name inner _ opening closing =>
    obtain ⟨middle, hmiddle, hstrip⟩ := Screening.strip_concat fun t ht =>
      hwhole t
        (List.mem_append_right name (List.mem_cons_of_mem opening (List.mem_append_left _ ht)))
    have hr : r = concat middle := by
      simp only [Content.references] at hr
      split at hr
      case isTrue => cases hr
      case isFalse => rw [← hstrip, List.mem_singleton.mp hr]
    refine (quotes_of_eq hr).widen (hmiddle.trans ⟨name ++ [opening], [closing], ?_⟩)
    simp

theorem ReadsContent.quotes {name : TagName} {content : Content}
    (h : ReadsContent clean name content taken rest) (hwhole : ∀ t ∈ taken, t.Whole) :
    ∀ r ∈ content.references, Quotes taken r := by
  have hone : ∀ {text}, text = concat taken → ∀ r ∈ [text], Quotes taken r :=
    fun htext r hr => quotes_of_eq ((List.mem_singleton.mp hr).trans htext)
  cases h with
  | author said => exact said.quotes hwhole
  | link said => exact hone said.text
  | see said => exact hone said.text_eq
  | usedBy said | uses said => exact hone said.text_eq
  | _ => exact nofun

/-! ## Inline tags -/

theorem QuotesTag.intro (hown : ∀ r ∈ tag.content.references, Quotes tokens r)
    (hinline : ∀ inner ∈ tag.inlineTags, QuotesTag tokens inner) : QuotesTag tokens tag := by
  intro r hr
  cases hr with
  | own mem => exact hown r mem
  | inline mem mentions => exact hinline _ mem r mentions

/-- An inline construct holds all that its tag mentions. -/
theorem ReadsInline.quotes (h : ReadsInline tokens tag) : QuotesTag tokens tag := by
  induction h with
  | bare => exact .intro nofun nofun
  | @described name opening words content cut tags closing opens announces spans closes
    length reads ih =>
    refine .intro (fun r hr => ?_) fun inner hinner => ?_
    · cases announces with
      | internal => cases hr
      | @link target words blanks _ said =>
        refine (quotes_of_eq ((List.mem_singleton.mp hr).trans said.text)).widen
          ⟨opening, blanks ++ (cut.tokens ++ [closing]), ?_⟩
        simp
    · obtain ⟨i, construct, hconstruct, htag⟩ := Cut.exists_construct length hinner
      obtain ⟨before, after, hcut⟩ := Cut.tokens_of_mem (List.mem_of_getElem? hconstruct)
      refine (ih i construct inner hconstruct htag).widen
        ⟨opening ++ (words ++ before), after ++ [closing], ?_⟩
      simp [hcut]

theorem Cut.Carries.quotes (h : cut.Carries tags) : ∀ tag ∈ tags, QuotesTag cut.tokens tag := by
  intro tag hmem
  obtain ⟨construct, hconstruct, hread⟩ := h.of_mem hmem
  obtain ⟨before, after, hcut⟩ := Cut.tokens_of_mem hconstruct
  exact hread.quotes.widen ⟨before, after, by rw [hcut, List.append_assoc]⟩

/-! ## Block tags and comments -/

theorem ReadsBlock.quotes (h : ReadsBlock clean tag tokens rest) (hwhole : ∀ t ∈ tokens, t.Whole) :
    QuotesTag tokens tag := by
  cases h with
  | @bare _ mark blanks words _ _ _ _ _ said =>
    refine .intro (fun r hr => ?_) nofun
    have hquotes := said.quotes (fun t ht => hwhole t (by simp [ht])) r hr
    exact hquotes.widen ⟨mark :: blanks, [], by simp⟩
  | @described _ mark blanks words more _ _ cut _ _ _ _ said _ _ carries =>
    refine .intro (fun r hr => ?_) fun inner hinner => ?_
    · have hquotes := said.quotes (fun t ht => hwhole t (by simp [ht])) r hr
      exact hquotes.widen ⟨mark :: blanks, more ++ cut.tokens, by simp⟩
    · exact (carries.quotes inner hinner).widen ⟨mark :: (blanks ++ (words ++ more)), [], by simp⟩

theorem ReadsBlocks.quotes {ending : List Token} (h : ReadsBlocks clean ending tags tokens)
    (hwhole : ∀ t ∈ tokens, t.Whole) : ∀ tag ∈ tags, QuotesTag tokens tag := by
  induction h with
  | done => exact nofun
  | @block taken blanks rest first others reads blank more ih =>
    refine List.forall_mem_cons.mpr ⟨?_, fun tag hmem => ?_⟩
    · exact (reads.quotes fun t ht => hwhole t (by simp [ht])).widen
        (List.prefix_append _ _).isInfix
    · refine (ih (fun t ht => hwhole t (by simp [ht])) tag hmem).widen ?_
      exact ((List.suffix_append _ _).trans (List.suffix_append _ _)).isInfix

/-- All that a document mentions is quoted from the tokens of its comment. -/
theorem ReadsComment.quotes {doc : Document} {parts : CommentParts}
    (h : ReadsComment clean doc tokens parts) (hwhole : ∀ t ∈ tokens, t.Whole)
    (hr : doc.Mentions r) : Quotes tokens r := by
  obtain ⟨tag, hmem | hmem, hr⟩ := hr
  · refine (h.carries.quotes tag hmem r hr).widen ⟨parts.lead, parts.blocks, ?_⟩
    rw [h.tokens, List.append_assoc]
  · have hblocks := h.blocks.quotes fun t ht => hwhole t (by rw [h.tokens]; simp [ht])
    refine (hblocks tag (h.mem_tags hmem) r hr).widen ⟨parts.lead ++ parts.own.tokens, [], ?_⟩
    simp [h.tokens]

end Grammar

end DocComment
