import DocComment.Proofs.Grammar.Quotes
import DocComment.Proofs.Screening.Verbatim

/-!
# Where references come from

Every link, reference and email address of a document was written in the comment. It was written
with the same letters, which may be in another case, and a closing or an opening delimiter in it may
have lost stars and blanks. It was written as it stands unless a word that screening alters occurs
in it: the name of a tag behind its sign, or a delimiter.
-/

namespace DocComment

open Screening (Lacks Laid altered marks)
open Text (squeeze)
open Token (concat)

/-- A blank text has no tags. -/
theorem Document.not_mentions_default (r : Text) : ¬({} : Document).Mentions r := by
  rintro ⟨tag, hmem | hmem, -⟩
  · cases hmem
  · cases hmem

/-- All that a document mentions is the text of tokens side by side. -/
theorem quotes_of_parse {comment r : Text} {tokens : List Token} {doc : Document}
    (hscreen : screen (Text.strip comment) = .ok tokens) (hparse : Document.parse comment = .ok doc)
    (hr : doc.Mentions r) : Grammar.Quotes tokens r := by
  rcases reads_of_parse hparse with ⟨-, rfl⟩ | ⟨parts, hread⟩
  · exact absurd hr (Document.not_mentions_default r)
  · rw [← Screening.readable_of_screen hscreen]
    exact hread.quotes (fun _ => Screening.whole_of_mem) hr

/-- Tokens side by side were written in the text, as `Laid.covers` says. -/
theorem Screening.exists_part_of_quotes {s r : Text} {tokens : List Token}
    (hscreen : screen s = .ok tokens) (h : Grammar.Quotes tokens r) :
    ∃ part, part <:+: s ∧ squeeze part = squeeze r ∧
      (Lacks marks r → Text.lower part = Text.lower r) ∧ (Lacks altered r → part = r) := by
  obtain ⟨run, ⟨before, after, hsplit⟩, rfl⟩ := h
  cases run with
  | nil => exact ⟨[], List.nil_infix, rfl, fun _ => rfl, fun _ => rfl⟩
  | cons t run =>
    have hlaid := laid_of_screen hscreen
    rw [← hsplit, List.append_assoc, List.cons_append] at hlaid
    obtain ⟨front, behind, rfl, hbehind⟩ := hlaid.behind
    have hrun : Laid (0 + front.length) behind ((t :: run) ++ after) := hbehind
    obtain ⟨part, back, rfl, hsqueeze, hcased, hverbatim⟩ := hrun.covers
    exact ⟨part, ⟨front, back, by simp⟩, hsqueeze, hcased, fun hlacks => (hverbatim hlacks).1⟩

/-- Every reference of a document was written in the comment, but for the case of its letters, stars
and blanks. It was written as it stands but for the case of its letters if there is no mark in it,
and just as it stands if nothing in it is altered. -/
theorem parse_mentions {comment r : Text} {tokens : List Token} {doc : Document}
    (hscreen : screen (Text.strip comment) = .ok tokens) (hparse : Document.parse comment = .ok doc)
    (hr : doc.Mentions r) :
    ∃ part, part <:+: comment ∧ squeeze part = squeeze r ∧
      (Lacks marks r → Text.lower part = Text.lower r) ∧ (Lacks altered r → part = r) := by
  obtain ⟨part, hpart, hrest⟩ :=
    Screening.exists_part_of_quotes hscreen (quotes_of_parse hscreen hparse hr)
  obtain ⟨front, back, hstrip, -⟩ := Text.exists_strip comment
  refine ⟨part, hpart.trans ⟨front, back, ?_⟩, hrest⟩
  rw [List.append_assoc]
  exact hstrip.symm

/-- A link in a description, behind another one. -/
theorem parse_mentions_inline :
    let comment := "/** a {@link http://x.test/Y {@link http://z.test}} */".toList
    let r := "http://z.test".toList
    ∃ tokens doc, screen (Text.strip comment) = .ok tokens ∧ Document.parse comment = .ok doc ∧
      doc.Mentions r ∧ ∃ part, part <:+: comment ∧ squeeze part = squeeze r ∧
        (Lacks marks r → Text.lower part = Text.lower r) ∧ (Lacks altered r → part = r) := by
  intro comment r
  have hscreened : (screen (Text.strip comment)).isOk = true := by decide +kernel
  have hparsed : (Document.parse comment).isOk = true := by decide +kernel
  have hinner : (Document.parse comment).toOption.map
      (fun doc => doc.inlineTags.map fun tag => tag.inlineTags.map (·.content.references)) =
        some [[[r]]] := by
    decide +kernel
  obtain ⟨tokens, htokens⟩ := exists_of_isOk hscreened
  obtain ⟨doc, hdoc⟩ := exists_of_isOk hparsed
  rw [hdoc] at hinner
  have hmentions : doc.Mentions r := by
    obtain ⟨tag, htags, htag⟩ := List.map_eq_singleton_iff.mp (Option.some.inj hinner)
    obtain ⟨inner, hinners, hcontent⟩ := List.map_eq_singleton_iff.mp htag
    have hown : inner.Mentions r := .own (by simp [hcontent])
    exact ⟨tag, .inl (by simp [htags]), .inline (by simp [hinners]) hown⟩
  exact ⟨tokens, doc, htokens, hdoc, hmentions, parse_mentions htokens hdoc hmentions⟩

/-- The name of a tag in a link is put into lower case. -/
theorem parse_lowers_link :
    let comment := "/** @link http://x.test/@Link */".toList
    let r := "http://x.test/@link".toList
    ∃ tokens doc, screen (Text.strip comment) = .ok tokens ∧ Document.parse comment = .ok doc ∧
      doc.Mentions r ∧ ¬r <:+: comment := by
  intro comment r
  have hscreened : (screen (Text.strip comment)).isOk = true := by decide +kernel
  have hparsed : (Document.parse comment).isOk = true := by decide +kernel
  have hlinks :
      (Document.parse comment).toOption.map (fun doc => doc.blockTags.map (·.content.references)) =
      some [[r]] := by
    decide +kernel
  obtain ⟨tokens, htokens⟩ := exists_of_isOk hscreened
  obtain ⟨doc, hdoc⟩ := exists_of_isOk hparsed
  rw [hdoc] at hlinks
  obtain ⟨tag, htags, hcontent⟩ := List.map_eq_singleton_iff.mp (Option.some.inj hlinks)
  exact ⟨tokens, doc, htokens, hdoc, ⟨tag, .inr (by simp [htags]), .own (by simp [hcontent])⟩,
    by decide +kernel⟩

end DocComment
