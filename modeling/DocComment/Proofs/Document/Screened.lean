import DocComment.Proofs.Document.Canonical
import DocComment.Proofs.Grammar.Prose

/-!
# The tokens of canonical comments

What is written into a canonical comment is quiet, but for the at signs of its tags. So the comment
is screened to the opening delimiter, its description, and one group of tokens for each tag. The
line break in front of a tag belongs to the text before it.
-/

namespace DocComment.Canonical

open Grammar
open Screening (Quiet Spells closedItems introAt outroAt)
open Token (kindOf)

variable {c : Char} {t d : Text} {layout : Layout} {name : TagName} {content : Content}
variable {words : List Text}

/-! ## What is written is quiet -/

theorem Writes.isWord (h : Writes content name words) : ∀ w ∈ words, IsWord w := by
  cases h with
  | api | copyright | todo => simp
  | package named | throws named =>
    rw [List.forall_mem_singleton]
    exact isWord_of_isQualified named
  | returns typed =>
    rw [List.forall_mem_singleton]
    exact isWord_of_isType typed
  | since named | version named =>
    rw [List.forall_mem_singleton]
    exact isWord_of_isNumberedVersion named
  | param typed named | var typed named | property typed named | propertyRead typed named
  | propertyWrite typed named =>
    rw [List.forall_mem_cons, List.forall_mem_singleton]
    exact ⟨isWord_of_isType typed, isWord_of_isVariable named⟩

theorem Block.trails (layout : Layout) (b : Block) : Trails ' ' b.description (b.trail layout) := by
  rw [Block.trail]
  split
  case isTrue => exact .inl rfl
  case isFalse homits =>
    refine .inr ⟨?_, rfl⟩
    rw [Bool.not_eq_true, Bool.and_eq_false_iff, Bool.not_eq_false', Layout.omits,
      Bool.and_eq_true] at homits
    rcases homits with hbare | ⟨-, hempty⟩
    · exact b.bare hbare
    · exact List.isEmpty_iff.mp hempty

theorem quiet_trails (hc : c ∉ ['\r', '@', '*', '/']) (hd : Quiet d) (ht : Trails c d t) :
    Quiet t := by
  obtain rfl | ⟨-, rfl⟩ := ht
  · exact .cons hc hd
  · exact .nil

theorem quiet_tail (layout : Layout) (b : Block) : Quiet (b.tail layout) := by
  have htrail : Quiet (b.trail layout) := quiet_trails (by decide) b.plain.toQuiet (b.trails layout)
  have hwords : ∀ words : List Text, (∀ w ∈ words, IsWord w) →
      Quiet (words.flatMap (' ' :: ·) ++ b.trail layout) := by
    intro words hwords
    induction words with
    | nil => exact htrail
    | cons w words ih =>
      rw [List.forall_mem_cons] at hwords
      rw [List.flatMap_cons, List.cons_append, List.cons_append, List.append_assoc]
      exact .cons (by decide) (quiet_word hwords.1.kinds (ih hwords.2))
  exact hwords b.words b.writes.isWord

/-- The name of a tag ends at a space, or with the line. -/
theorem tail_cases (layout : Layout) (b : Block) :
    b.tail layout = [] ∨ ∃ rest, b.tail layout = ' ' :: rest := by
  rw [Block.tail]
  cases b.words with
  | nil =>
    rcases b.trails layout with htrail | ⟨-, htrail⟩ <;> rw [htrail]
    · exact .inr ⟨_, rfl⟩
    · exact .inl rfl
  | cons w words => exact .inr ⟨_, rfl⟩

/-- The text of tags in a comment. -/
def blocksText (layout : Layout) (blocks : List Block) : Text :=
  blocks.flatMap fun b => '\n' :: b.text layout

theorem head_blocksText (layout : Layout) (blocks : List Block) :
    (blocksText layout blocks).headD '\n' = '\n' := by
  cases blocks <;> rfl

theorem noReturn_blocksText (layout : Layout) (blocks : List Block) :
    '\r' ∉ blocksText layout blocks := by
  have hword : ∀ name : TagName, '\r' ∉ name.word := by
    intro name
    cases name <;> decide
  intro hmem
  obtain ⟨b, -, hb⟩ := List.mem_flatMap.mp hmem
  simp only [Block.text, List.cons_append, List.mem_cons, List.mem_append] at hb
  rcases hb with hb | hb | hb | hb
  · cases hb
  · cases hb
  · exact hword b.name hb
  · exact (quiet_tail layout b).noReturn hb

/-! ## How it is screened -/

/-- The tokens of tags, up to the end of the comment. -/
inductive Spelled (layout : Layout) : List Block → Token → List Token → Prop
  | outro (offset stop : Nat) :
      Spelled layout [] (outroAt offset) [⟨.endOfText, [], stop⟩]
  | block {b : Block} {blocks : List Block} {body lead rest : List Token} {u : Token} (text : Text)
      (offset : Nat) (spells : Spells body (b.tail layout)) (behind : Behind lead u)
      (next : Spelled layout blocks u rest) :
      Spelled layout (b :: blocks) ⟨.tag b.name, text, offset⟩ (body ++ (lead ++ u :: rest))

theorem exists_spelled (layout : Layout) (blocks : List Block) (offset : Nat) :
    ∃ lead u rest, closedItems offset (blocksText layout blocks) = (lead ++ u :: rest).map .token ∧
      Behind lead u ∧ Spelled layout blocks u rest := by
  induction blocks generalizing offset with
  | nil =>
    refine ⟨[], outroAt (offset + 2), [⟨.endOfText, [], offset + 4⟩], ?_, .outro rfl, .outro _ _⟩
    exact Screening.closedItems_nil
  | cons b blocks ih =>
    have htext : blocksText layout (b :: blocks) =
        '\n' :: ('@' :: b.name.word ++ (b.tail layout ++ blocksText layout blocks)) := by
      simp [blocksText, Block.text]
    have hquiet := quiet_tail layout b
    have hreturn : '\r' ∉ b.tail layout ++ blocksText layout blocks := by
      rw [List.mem_append, not_or]
      exact ⟨hquiet.noReturn, noReturn_blocksText layout blocks⟩
    have hnext : kindOf ((b.tail layout ++ blocksText layout blocks).headD '\n') = .whitespace ∨
        kindOf ((b.tail layout ++ blocksText layout blocks).headD '\n') = .newline := by
      rcases tail_cases layout b with htail | ⟨rest, htail⟩ <;> rw [htail]
      · rw [List.nil_append, head_blocksText]
        exact .inr Screening.kindOf_feed
      · exact .inl Screening.kindOf_space
    -- the rest of the tag ends with its line, so the next tag does not change its tokens
    obtain ⟨body, after, hbody, hspells⟩ := Screening.exists_spells hquiet
      (noReturn_blocksText layout blocks) (head_blocksText layout blocks)
      (offset + 4 + 1 + b.name.word.length)
    obtain ⟨lead, u, rest, hitems, hbehind, hblocks⟩ := ih after
    refine ⟨[Screening.lineFeed (offset + 2)], ⟨.tag b.name, '@' :: b.name.word, offset + 4⟩,
      body ++ (lead ++ u :: rest), ?_, .tag _ rfl, .block _ _ hspells hbehind hblocks⟩
    rw [htext, Screening.closedItems_feed, Screening.closedItems_tag b.name hreturn hnext, hbody,
      hitems]
    simp

theorem kindOf_head_trail (layout : Layout) (b : Block) :
    ∀ c ∈ (b.trail layout).head?, kindOf c = .whitespace := by
  intro c hc
  rcases b.trails layout with htrail | ⟨-, htrail⟩ <;> rw [htrail] at hc
  · obtain rfl : ' ' = c := by simpa using hc
    exact Screening.kindOf_space
  · simp at hc

theorem paragraphs_text (layout : Layout) (d : Text) (blocks : List Block) :
    ∃ t, Trails '\n' d t ∧
      (paragraphs layout d blocks).flatMap ('\n' :: ·) = t ++ blocksText layout blocks := by
  rw [paragraphs, List.flatMap_append]
  have hblocks : (blocks.map (·.text layout)).flatMap ('\n' :: ·) = blocksText layout blocks :=
    List.flatMap_map ..
  rw [hblocks]
  cases homits : layout.omits d with
  | true =>
    rw [Layout.omits, Bool.and_eq_true] at homits
    exact ⟨[], .inr ⟨List.isEmpty_iff.mp homits.2, rfl⟩, rfl⟩
  | false => exact ⟨'\n' :: d, .inl rfl, by simp⟩

/-- The tokens of a canonical comment. -/
theorem exists_screen_render (layout : Layout) (hd : IsPlain d) (blocks : List Block) :
    ∃ t tokens lead u rest, Trails '\n' d t ∧ Spells tokens t ∧ Behind lead u ∧
      Spelled layout blocks u rest ∧
      screen (render layout d blocks) = .ok (introAt 0 :: (tokens ++ (lead ++ u :: rest))) := by
  obtain ⟨t, htrails, htext⟩ := paragraphs_text layout d blocks
  have hquiet : Quiet t := quiet_trails (by decide) hd.toQuiet htrails
  have hreturn : '\r' ∉ t ++ blocksText layout blocks := by
    rw [List.mem_append, not_or]
    exact ⟨hquiet.noReturn, noReturn_blocksText layout blocks⟩
  have hhead : (t ++ blocksText layout blocks).headD '\n' = '\n' := by
    obtain rfl | ⟨-, rfl⟩ := htrails
    · rfl
    · exact head_blocksText layout blocks
  obtain ⟨tokens, after, hitems, hspells⟩ := Screening.exists_spells hquiet
    (noReturn_blocksText layout blocks) (head_blocksText layout blocks) 3
  obtain ⟨lead, u, rest, hblocks, hbehind, hspelled⟩ := exists_spelled layout blocks after
  refine ⟨t, tokens, lead, u, rest, htrails, hspells, hbehind, hspelled, ?_⟩
  rw [screen_eq_ok_iff, render_eq, htext, Screening.items_closed hhead, hitems, hblocks]
  simp

end DocComment.Canonical
