import DocComment.Proofs.Document.Blocks
import DocComment.Proofs.Document.Mark
import Mathlib.Data.List.Induction

/-!
# Placeholders and inline tags

`parse_placeholders` says of the description of a document, and of that of every tag in it however
deep, that it stands in the text as runs with inline constructs between them, and that a construct
of an index gives both the placeholder and the inline tag of that index.

A run is text and is taken as it stands, also where it is written as a placeholder is. So not every
placeholder in a description refers to an inline tag: `parse_dangles_iff` says that one does not
exactly where a run holds it.
-/

namespace DocComment

open Grammar (Cut ReadsBlocks ReadsComment ReadsInline endsDescription)
open Screening (items readable)
open Token (concat)

/-- The description of a document and that of every tag in it, each with its inline tags. -/
inductive Document.Describes (doc : Document) : Text → List Tag → Prop
  | own : doc.Describes doc.description doc.inlineTags
  | block {tag : Tag} (mem : tag ∈ doc.blockTags) : doc.Describes tag.description tag.inlineTags
  | inner {description : Text} {tags : List Tag} {tag : Tag}
      (outer : doc.Describes description tags)
      (mem : tag ∈ tags) : doc.Describes tag.description tag.inlineTags

namespace Grammar

namespace Cut

/-- The cut stands among the tokens, and a description and its inline tags are read from it. -/
structure Writes (cut : Cut) (tokens : List Token) (description : Text)
    (tags : List Tag) : Prop where
  place : ∃ before behind braced, tokens = before ++ (cut.tokens ++ behind) ∧
    cut.Spans braced behind
  text : description = Text.strip cut.text
  carries : cut.Carries tags

variable {cut : Cut} {tokens construct behind : List Token} {description : Text} {tags : List Tag}
  {tag : Tag} {braced : Bool} {t : Token}

theorem Spans.append (h : cut.Spans braced behind) (more : List Token) :
    cut.Spans braced (behind ++ more) := by
  obtain ⟨t, rest, rfl, ht⟩ := h.stop
  constructor
  · exact h.free
  · exact ⟨t, rest ++ more, rfl, ht⟩
  · exact h.closed

theorem Writes.within (h : cut.Writes tokens description tags) (front back : List Token) :
    cut.Writes (front ++ (tokens ++ back)) description tags := by
  obtain ⟨before, behind, braced, rfl, hspans⟩ := h.place
  constructor
  · exact ⟨front ++ before, behind ++ back, braced, by simp, hspans.append back⟩
  · exact h.text
  · exact h.carries

/-- Where a description is left out there is a cut without tokens. -/
theorem writes_nil (braced : Bool) (front rest : List Token)
    (ht : endsDescription braced t.kind = true) :
    Writes ⟨[], []⟩ (front ++ t :: rest) [] [] := by
  constructor
  · refine ⟨front, t :: rest, braced, rfl, ?_, ⟨t, rest, rfl, ht⟩, ?_⟩
    · simp [runs]
    · intro before brace blanks hlast
      simp at hlast
  · rfl
  · exact ⟨rfl, fun i c u hc => by cases hc⟩

theorem writes_of_inline (h : ReadsInline construct tag) :
    ∃ inner : Cut, inner.Writes construct tag.description tag.inlineTags := by
  cases h with
  | @bare opening closing opens closes =>
    exact ⟨⟨[], []⟩, writes_nil true opening [] (by rw [closes]; rfl)⟩
  | @described name opening words content inner tags closing opens announces spans closes length
      reads =>
    refine ⟨inner, ?_, rfl, ⟨length, reads⟩⟩
    exact ⟨opening ++ words, [closing], true, by rw [List.append_assoc], spans⟩

theorem Writes.inner (h : cut.Writes tokens description tags) (hmem : tag ∈ tags) :
    ∃ inner : Cut, inner.Writes tokens tag.description tag.inlineTags := by
  obtain ⟨construct, hconstruct, hread⟩ := h.carries.of_mem hmem
  obtain ⟨inner, hinner⟩ := writes_of_inline hread
  obtain ⟨front, back, htokens⟩ := tokens_of_mem hconstruct
  obtain ⟨before, behind, braced, rfl, -⟩ := h.place
  have hwrites := hinner.within (before ++ front) (back ++ behind)
  refine ⟨inner, ?_⟩
  rw [htokens]
  simpa only [List.append_assoc] using hwrites

end Cut

/-! ## Block tags -/

variable {clean : Prop} {ending tokens : List Token} {tags : List Tag} {tag : Tag}

/-- A block tag stands where the description in front of it ends. -/
theorem ReadsBlocks.ends (h : ReadsBlocks clean ending tags tokens)
    (hending : ∃ t rest, ending = t :: rest ∧ endsDescription false t.kind = true) :
    ∃ t rest, tokens = t :: rest ∧ endsDescription false t.kind = true := by
  cases h with
  | done => exact hending
  | block reads =>
    cases reads with
    | @bare name mark _ _ _ _ named | @described name mark _ _ _ _ _ _ _ named =>
      exact ⟨mark, _, rfl, by rw [named]; cases name <;> rfl⟩

theorem ReadsBlocks.writes (h : ReadsBlocks clean ending tags tokens)
    (hending : ∃ t rest, ending = t :: rest ∧ endsDescription false t.kind = true)
    (hmem : tag ∈ tags) : ∃ cut : Cut, cut.Writes tokens tag.description tag.inlineTags := by
  induction h with
  | done => cases hmem
  | @block taken blanks rest first others reads blank more ih =>
    rcases List.mem_cons.mp hmem with rfl | hmem
    · cases reads with
      | @bare name mark inner words _ content =>
        obtain ⟨t, final, rfl, ht⟩ := more.ends hending
        have hwrites := Cut.writes_nil false (mark :: (inner ++ (words ++ blanks))) final ht
        refine ⟨⟨[], []⟩, ?_⟩
        simpa using hwrites
      | @described name mark inner words outer _ content cut tags named _ _ _ _ _ carries spans =>
        refine ⟨cut, ?_, rfl, carries⟩
        exact ⟨mark :: (inner ++ (words ++ outer)), blanks ++ rest, false, by simp, spans⟩
    · obtain ⟨cut, hwrites⟩ := ih hmem
      have hwithin := hwrites.within (taken ++ blanks) []
      refine ⟨cut, ?_⟩
      simpa using hwithin

end Grammar

/-! ## All descriptions -/

section Comment

variable {clean : Prop} {doc : Document} {tokens : List Token} {parts : Grammar.CommentParts}
  {description : Text} {tags : List Tag}

/-- Every description of a comment stands among its tokens. -/
theorem Grammar.ReadsComment.writes (h : ReadsComment clean doc tokens parts)
    (hd : doc.Describes description tags) :
    ∃ cut : Cut, cut.Writes tokens description tags := by
  have hending : ∃ t rest, parts.ending = t :: rest ∧ endsDescription false t.kind = true := by
    obtain ⟨closing, blanks, last, hending, hkind, -⟩ := h.closes
    exact ⟨closing, blanks ++ [last], hending, by rw [hkind]; rfl⟩
  induction hd with
  | own =>
    exact ⟨parts.own, ⟨parts.lead, parts.blocks, false, h.tokens, h.spans⟩, h.text, h.carries⟩
  | block mem =>
    obtain ⟨cut, hwrites⟩ := h.blocks.writes hending (h.mem_tags mem)
    have hwithin := hwrites.within (parts.lead ++ parts.own.tokens) []
    refine ⟨cut, ?_⟩
    rw [h.tokens]
    simpa using hwithin
  | inner outer mem ih =>
    obtain ⟨cut, hwrites⟩ := ih
    exact hwrites.inner mem

theorem describes_empty (h : Document.Describes {} description tags) :
    description = [] ∧ tags = [] := by
  induction h with
  | own => exact ⟨rfl, rfl⟩
  | block mem => cases mem
  | inner outer mem ih =>
    rw [ih.2] at mem
    cases mem

end Comment

namespace Grammar.Cut

variable {cut : Cut} {run : List Token} {tags : List Tag} {digits : Text}

theorem infix_of_run (h : run ∈ cut.runs) : concat run <:+: cut.text := by
  obtain ⟨pieces, last⟩ := cut
  induction pieces using List.reverseRecOn generalizing last with
  | nil =>
    obtain rfl : run = last := by simpa [runs] using h
    exact ⟨[], [], by simp [text]⟩
  | append_singleton pieces piece ih =>
    obtain ⟨front, construct⟩ := piece
    rw [runs_concat] at h
    rw [text_concat]
    rcases List.mem_append.mp h with h | h
    · exact (ih front h).trans ⟨[], _, rfl⟩
    · obtain rfl := List.mem_singleton.mp h
      exact ⟨text ⟨pieces, front⟩ ++ placeholder pieces.length, [], by simp⟩

/-- A mark in the text of a description stands in one of its runs, or is a placeholder. -/
theorem mark_cases (hdigits : IsDigits digits) (h : mark digits <:+: cut.text) :
    (∃ run ∈ cut.runs, mark digits <:+: concat run) ∨
      Form.decimalValue digits < cut.constructs.length := by
  obtain ⟨pieces, last⟩ := cut
  induction pieces using List.reverseRecOn generalizing last with
  | nil => exact .inl ⟨last, by simp [runs], by simpa [text] using h⟩
  | append_singleton pieces piece ih =>
    obtain ⟨front, construct⟩ := piece
    have hlength : (constructs ⟨pieces ++ [(front, construct)], last⟩).length =
        pieces.length + 1 := by
      simp [constructs]
    rw [text_concat, placeholder_eq_mark] at h
    rw [runs_concat, hlength]
    rcases infix_cases hdigits (isDigits_numeral _) h with h | rfl | h
    · rcases ih front h with ⟨run, hrun, h⟩ | hlt
      · exact .inl ⟨run, List.mem_append_left _ hrun, h⟩
      · right
        simp only [constructs, List.length_map] at hlt
        omega
    · right
      rw [decimalValue_numeral]
      omega
    · exact .inl ⟨last, by simp, h⟩

theorem dangles_text_iff (h : cut.Carries tags) :
    Dangles cut.text tags ↔ ∃ run ∈ cut.runs, Dangles (concat run) tags := by
  constructor
  · rintro ⟨digits, hdigits, hinside, hlength⟩
    rcases mark_cases hdigits hinside with ⟨run, hrun, hmark⟩ | hlt
    · exact ⟨run, hrun, digits, hdigits, hmark, hlength⟩
    · have hcount := h.length
      omega
  · rintro ⟨run, hrun, digits, hdigits, hmark, hlength⟩
    exact ⟨digits, hdigits, hmark.trans (infix_of_run hrun), hlength⟩

theorem Writes.dangles_iff {tokens : List Token} {description : Text}
    (h : cut.Writes tokens description tags) :
    Dangles description tags ↔ ∃ run ∈ cut.runs, Dangles (concat run) tags := by
  rw [h.text, dangles_strip_iff]
  exact dangles_text_iff h.carries

end Grammar.Cut

/-- A description holds a placeholder that refers to none of its inline tags exactly if one of its
runs of text holds it. -/
theorem parse_dangles_iff {text description : Text} {doc : Document} {tags : List Tag}
    (h : Document.parse text = .ok doc) (hd : doc.Describes description tags) :
    Dangles description tags ↔
      ∃ cut : Cut, cut.Writes (readable (items (Text.strip text))) description tags ∧
        ∃ run ∈ cut.runs, Dangles (concat run) tags := by
  constructor
  · intro hdangles
    rcases reads_of_parse h with ⟨-, rfl⟩ | ⟨parts, hread⟩
    · obtain ⟨rfl, -⟩ := describes_empty hd
      obtain ⟨digits, -, hmark, -⟩ := hdangles
      cases List.infix_nil.mp hmark
    · obtain ⟨cut, hwrites⟩ := hread.writes hd
      exact ⟨cut, hwrites, hwrites.dangles_iff.mp hdangles⟩
  · rintro ⟨cut, hwrites, hrun⟩
    exact hwrites.dangles_iff.mpr hrun

/-- Behind one inline tag the run of text holds the placeholder of a second. -/
theorem parse_dangles_behind_tag :
    ∃ doc, Document.parse "/** {@inheritDoc} {{{{1}}}} */".toList = .ok doc ∧
      ∃ cut : Cut,
      cut.Writes (readable (items (Text.strip "/** {@inheritDoc} {{{{1}}}} */".toList)))
          doc.description doc.inlineTags ∧
        ∃ run ∈ cut.runs, Dangles (concat run) doc.inlineTags := by
  have hparse : ((Document.parse "/** {@inheritDoc} {{{{1}}}} */".toList).toOption.any fun doc =>
      decide (doc.description = mark ['0'] ++ ' ' :: mark ['1']) && doc.inlineTags.length = 1) =
        true := by
    decide +kernel
  cases h : Document.parse "/** {@inheritDoc} {{{{1}}}} */".toList with
  | ok doc =>
    rw [h, Except.toOption, Option.any_some, Bool.and_eq_true, decide_eq_true_eq,
      decide_eq_true_eq] at hparse
    have hdigits : IsDigits ['1'] := ⟨by simp, by simp⟩
    have hdangles : Dangles doc.description doc.inlineTags := by
      refine ⟨['1'], hdigits, ?_, ?_⟩
      · rw [hparse.1]
        exact ⟨mark ['0'] ++ [' '], [], by simp⟩
      · rw [hparse.2]
        decide
    exact ⟨doc, rfl, (parse_dangles_iff h .own).mp hdangles⟩
  | error failure =>
    rw [h] at hparse
    cases hparse

/-- Braces and a number are text, and the description has no inline tag for them. -/
theorem parse_numbered_braces :
    ∃ doc, Document.parse "/** {{{{0}}}} */".toList = .ok doc ∧
      doc.Describes doc.description doc.inlineTags ∧ Dangles doc.description doc.inlineTags := by
  have hparse : ((Document.parse "/** {{{{0}}}} */".toList).toOption.any fun doc =>
      decide (doc.description = mark ['0']) && doc.inlineTags.isEmpty) = true := by
    decide +kernel
  cases h : Document.parse "/** {{{{0}}}} */".toList with
  | ok doc =>
    rw [h, Except.toOption, Option.any_some, Bool.and_eq_true, decide_eq_true_eq,
      List.isEmpty_iff] at hparse
    have hdigits : IsDigits ['0'] := ⟨by simp, by simp⟩
    have hnone : doc.inlineTags.length = 0 := List.length_eq_zero_iff.mpr hparse.2
    have hinside : mark ['0'] <:+: doc.description := ⟨[], [], by simp [hparse.1]⟩
    exact ⟨doc, rfl, .own, ['0'], hdigits, hinside, by omega⟩
  | error failure =>
    rw [h] at hparse
    cases hparse

end DocComment
