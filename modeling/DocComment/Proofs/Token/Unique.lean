import Mathlib.Data.List.Chain
import DocComment.Proofs.Token.First

/-!
# The raw tokens of a text are the only ones

A text can be cut into raw tokens in more ways than one. `Token.Ends` says what may not come behind
a raw token: a letter behind letters, and the other half of a line break behind its first half. With
it every raw token is as long as it can be, and `isTokenization_iff` says that only the tokens of
`tokenize` are left.
-/

namespace DocComment.Token

open Text (isLetter isBlank)

variable {own s : Text} {c : Char} {kind : Kind} {t u : Token} {tokens : List Token} {offset : Nat}

/-- A string token of letters only. -/
def IsLetters (t : Token) : Prop := t.kind = .string ∧ ∀ c ∈ t.text, isLetter c = true

/-- The token ends where the next one begins: it would not be longer with what the other begins
with. -/
structure Ends (t u : Token) : Prop where
  letters : ¬(t.IsLetters ∧ u.IsLetters)
  feed : t.text = ['\n'] → u.text.head? ≠ some '\r'
  carriage : t.kind = .whitespace → t.text = ['\r'] → u.text.head? ≠ some '\n'

/-- The tokens lie side by side over the text, each a raw token that ends where the next one begins,
and the mark of the end comes last. -/
structure IsTokenization (source : Text) (tokens : List Token) : Prop where
  concat_eq : concat tokens = source
  offset_eq : ∀ before t after, tokens = before ++ t :: after → t.offset = (concat before).length
  marked : ∃ own mark, tokens = own ++ [mark] ∧ mark.kind = .endOfText ∧ mark.text = [] ∧
    ∀ t ∈ own, IsRaw t
  ends : tokens.IsChain Ends

/-! ## One raw token and the character behind it -/

/-- What may come behind a raw token, given as the next character. -/
structure EndsBefore (t : Token) (next : Option Char) : Prop where
  letters : t.IsLetters → ∀ c ∈ next, isLetter c = false
  feed : t.text = ['\n'] → next ≠ some '\r'
  carriage : t.kind = .whitespace → t.text = ['\r'] → next ≠ some '\n'

theorem not_isLetter (hc : isBlank c = true) : ¬isLetter c = true := by
  rw [Text.isLetter_of_isBlank hc]
  exact Bool.false_ne_true

theorem IsRaw.exists_head (h : IsRaw t) : ∃ c, t.text.head? = some c := by
  obtain ⟨c, more, htext⟩ := List.exists_cons_of_ne_nil h.text_ne_nil
  exact ⟨c, by rw [htext, List.head?_cons]⟩

/-- The first character of a raw token says whether it is one of letters. -/
theorem IsRaw.isLetters_iff (h : IsRaw t) (hc : t.text.head? = some c) :
    t.IsLetters ↔ isLetter c = true := by
  have hmem := List.mem_of_head? hc
  refine ⟨fun hletters => hletters.2 c hmem, fun hletter => ?_⟩
  cases h with
  | letters _ _ _ letters => exact ⟨rfl, letters⟩
  | lineBreak _ _ known =>
    exact absurd hletter (not_isLetter (isBlank_of_mem_lineBreaks known c hmem))
  | blank d _ hblank =>
    obtain rfl := List.mem_singleton.mp hmem
    exact absurd hletter (not_isLetter hblank)
  | other d _ hnone =>
    obtain rfl := List.mem_singleton.mp hmem
    rw [hnone] at hletter
    cases hletter

/-- What comes behind a raw token is another one, or the mark of the end. -/
theorem ends_iff (hu : IsRaw u ∨ u.kind = .endOfText ∧ u.text = []) :
    Ends t u ↔ EndsBefore t u.text.head? := by
  have hletters : ¬(t.IsLetters ∧ u.IsLetters) ↔
      (t.IsLetters → ∀ c ∈ u.text.head?, isLetter c = false) := by
    rw [not_and]
    refine forall_congr' fun _ => ?_
    rcases hu with hraw | ⟨hkind, htext⟩
    · obtain ⟨c, hc⟩ := hraw.exists_head
      simp [hraw.isLetters_iff hc, hc]
    · simp [IsLetters, hkind, htext]
  constructor
  · rintro ⟨letters, feed, carriage⟩
    exact ⟨hletters.mp letters, feed, carriage⟩
  · rintro ⟨letters, feed, carriage⟩
    exact ⟨hletters.mpr letters, feed, carriage⟩

theorem IsFirst.endsBefore (h : IsFirst kind own s) (offset : Nat) :
    EndsBefore ⟨kind, own, offset⟩ s.head? := by
  obtain ⟨c, more, rfl, hfirst⟩ := h
  have hown := hfirst offset
  refine ⟨fun hletters => ?_, fun htext => ?_, fun hkind htext => ?_⟩
  · rw [first_of_letter (hletters.2 c List.mem_cons_self)] at hown
    have htext := congrArg Token.text hown
    exact (takeWhile_eq_iff.mp (List.cons.inj htext).2).2
  · obtain ⟨rfl, rfl⟩ := List.cons.inj htext
    intro hnext
    rw [List.nil_append, first, if_neg (not_isLetter (by decide)), if_pos (lineBreak_feed s),
      lineBreak_eq, if_neg (by decide), if_pos rfl, if_pos hnext] at hown
    cases hown
  · obtain ⟨rfl, rfl⟩ := List.cons.inj htext
    obtain rfl : kind = .whitespace := hkind
    intro hnext
    rw [List.nil_append, first, if_neg (not_isLetter (by decide)), lineBreak_eq, if_pos rfl,
      if_pos hnext, if_pos (List.cons_ne_nil _ _)] at hown
    cases hown

/-- A raw token that ends before the next character is the first token of the text. -/
theorem IsRaw.isFirst (h : IsRaw t) (hends : EndsBefore t s.head?) : IsFirst t.kind t.text s := by
  cases h with
  | letters text _ nonempty letters =>
    obtain ⟨c, more, rfl⟩ := List.exists_cons_of_ne_nil nonempty
    obtain ⟨hletter, hmore⟩ := List.forall_mem_cons.mp letters
    refine ⟨c, more, rfl, fun offset => ?_⟩
    rw [first_of_letter hletter, takeWhile_eq_iff.mpr ⟨hmore, hends.letters ⟨rfl, letters⟩⟩]
  | lineBreak text _ known =>
    have hne : text ≠ [] := (IsRaw.lineBreak text 0 known).text_ne_nil
    obtain ⟨c, more, rfl⟩ := List.exists_cons_of_ne_nil hne
    have hblank := isBlank_of_mem_lineBreaks known c List.mem_cons_self
    have hline : Token.lineBreak (c :: (more ++ s)) = c :: more := by
      simp only [lineBreaks, List.mem_cons, List.cons.injEq, List.not_mem_nil, or_false] at known
      rcases known with ⟨rfl, rfl⟩ | ⟨rfl, rfl⟩ | ⟨rfl, rfl⟩
      · rfl
      · rfl
      · rw [List.nil_append, lineBreak_eq, if_neg (by decide), if_pos rfl, if_neg (hends.feed rfl)]
    refine ⟨c, more, rfl, fun offset => ?_⟩
    rw [first, if_neg (not_isLetter hblank), hline, if_pos (List.cons_ne_nil _ _)]
  | blank c _ blank feed =>
    have hline : Token.lineBreak (c :: s) = [] := by
      rw [lineBreak_eq, if_neg feed]
      split
      case isTrue hcarriage =>
        subst hcarriage
        rw [if_neg (hends.carriage rfl rfl)]
      case isFalse => rfl
    refine ⟨c, [], rfl, fun offset => ?_⟩
    rw [List.nil_append, first, if_neg (not_isLetter blank), hline, if_neg (fun h => h rfl),
      if_pos blank]
  | other c _ letter blank =>
    have hne : ∀ d, isBlank d = true → c ≠ d := by
      rintro d hd rfl
      rw [blank] at hd
      cases hd
    refine ⟨c, [], rfl, fun offset => ?_⟩
    rw [List.nil_append, first, if_neg (by rw [letter]; decide),
      lineBreak_of_ne (hne _ (by decide)) (hne _ (by decide)), if_neg (fun h => h rfl),
        if_neg (by rw [blank]; decide)]

/-! ## All raw tokens -/

namespace Partition

/-- The first of the tokens begins with the first character of the text. -/
theorem head?_text (h : Partition offset s (u :: tokens)) :
    u.text.head? = s.head? ∧ (IsRaw u ∨ u.kind = .endOfText ∧ u.text = []) := by
  rcases h.head_cases with ⟨rfl, rfl, -⟩ | ⟨hraw, after, rfl, -⟩
  · exact ⟨rfl, .inr ⟨rfl, rfl⟩⟩
  · obtain ⟨c, hc⟩ := hraw.exists_head
    exact ⟨by rw [List.head?_append, hc, Option.some_or], .inl hraw⟩

/-- The tokens of a partition end where the next ones begin, and no partition but that of `tokenize`
has such tokens. -/
theorem isChain_iff (h : Partition offset s tokens) :
    tokens.IsChain Ends ↔ tokens = tokenizeFrom 0 offset s := by
  induction h with
  | last offset => simp [tokenizeFrom]
  | @cons t after tokens raw tail ih =>
    have hends : (∀ u ∈ tokens.head?, Ends t u) ↔ EndsBefore t after.head? := by
      obtain ⟨u, rest, rfl⟩ := List.exists_cons_of_ne_nil tail.ne_nil
      obtain ⟨hhead, hu⟩ := tail.head?_text
      simp [ends_iff hu, hhead]
    rw [List.isChain_cons, hends, ih]
    constructor
    · rintro ⟨hbefore, rfl⟩
      exact ((raw.isFirst hbefore).tokenizeFrom t.offset).symm
    · intro htokens
      obtain ⟨c, more, htext⟩ := List.exists_cons_of_ne_nil raw.text_ne_nil
      obtain ⟨kind, own, left, hsplit, hfirst⟩ := exists_isFirst c (more ++ after)
      rw [← List.cons_append, ← htext] at hsplit
      have hown := hfirst.tokenizeFrom t.offset
      rw [← hsplit, ← htokens] at hown
      obtain ⟨ht, hrest⟩ := List.cons.inj hown
      have howntext : own = t.text := by rw [ht]
      rw [howntext] at hsplit hrest
      obtain rfl := List.append_cancel_left hsplit
      refine ⟨?_, hrest⟩
      rw [ht]
      exact hfirst.endsBefore t.offset

theorem offset_eq (h : Partition offset s tokens) {before after : List Token}
    (htokens : tokens = before ++ t :: after) :
    t.offset = offset + (concat before).length := by
  subst htokens
  obtain ⟨-, _, -, hrest⟩ := h.of_init
  exact hrest.head_offset

theorem exists_init (h : Partition offset s tokens) :
    ∃ own, tokens = own ++ [⟨.endOfText, [], offset + s.length⟩] ∧ ∀ t ∈ own, IsRaw t := by
  induction h with
  | last => exact ⟨[], rfl, nofun⟩
  | @cons t after tokens raw tail ih =>
    obtain ⟨own, htokens, hraws⟩ := ih
    refine ⟨t :: own, ?_, List.forall_mem_cons.mpr ⟨raw, hraws⟩⟩
    rw [htokens, List.length_append, List.cons_append, Nat.add_assoc]

end Partition

/-- Raw tokens with their lengths as offsets, and the mark of the end behind them, partition their
text. -/
theorem partition_of_raw {own : List Token} {mark : Token}
    (hmark : mark.kind = .endOfText ∧ mark.text = []) (hraws : ∀ t ∈ own, IsRaw t) (offset : Nat)
    (hoffset : ∀ before t after, own ++ [mark] = before ++ t :: after →
      t.offset = offset + (concat before).length) :
    Partition offset (concat (own ++ [mark])) (own ++ [mark]) := by
  induction own generalizing offset with
  | nil =>
    have hat := hoffset [] mark [] rfl
    obtain ⟨kind, text, at'⟩ := mark
    obtain ⟨rfl, rfl⟩ := hmark
    obtain rfl : at' = offset := hat
    exact .last _
  | cons t own ih =>
    obtain ⟨hraw, hraws⟩ := List.forall_mem_cons.mp hraws
    have hat : t.offset = offset := hoffset [] t (own ++ [mark]) rfl
    have htail := ih hraws (t.offset + t.text.length) fun before u after hsplit => by
      have hu := hoffset (t :: before) u after (by rw [List.cons_append, hsplit, List.cons_append])
      rwa [concat_cons, List.length_append, ← Nat.add_assoc, ← hat] at hu
    have hcons := Partition.cons hraw htail
    rwa [hat] at hcons

theorem isTokenization_iff (source : Text) (tokens : List Token) :
    IsTokenization source tokens ↔ tokens = tokenize source := by
  constructor
  · rintro ⟨hconcat, hoffset, ⟨own, mark, rfl, hkind, htext, hraws⟩, hends⟩
    have hpartition := partition_of_raw ⟨hkind, htext⟩ hraws 0 fun before t after hsplit => by
      rw [hoffset before t after hsplit, Nat.zero_add]
    rw [hconcat] at hpartition
    exact hpartition.isChain_iff.mp hends
  · rintro rfl
    have h := partition_tokenize source
    refine ⟨h.concat_eq, fun before t after hsplit => ?_, ?_, h.isChain_iff.mpr rfl⟩
    · rw [h.offset_eq hsplit, Nat.zero_add]
    · obtain ⟨own, htokens, hraws⟩ := h.exists_init
      exact ⟨own, _, htokens, rfl, rfl, hraws⟩

end DocComment.Token
