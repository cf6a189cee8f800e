import DocComment.Proofs.Screening.Run
import DocComment.Proofs.Text.Pieces

/-!
# The first raw token of a text

A raw token is known from its own characters and the character behind it. So `IsFirst kind own s`,
which says that `own` is the first raw token where `s` comes behind it, stays true when `s` is
changed behind its first character. A line break even stays one when that character is changed,
unless it becomes a carriage return.
-/

namespace DocComment

open Text (isLetter isBlank)

/-- A blank is no letter. -/
theorem Text.isLetter_of_isBlank {c : Char} (hc : isBlank c = true) : isLetter c = false := by
  have hcodes : ∀ range ∈ blankRanges, ∀ i < range.2 + 1 - range.1,
      isLetter (Char.ofNat (range.1 + i)) = false := by decide +kernel
  rw [isBlank, inRanges, List.any_eq_true] at hc
  obtain ⟨range, hrange, hcode⟩ := hc
  simp only [Bool.and_eq_true, decide_eq_true_eq] at hcode
  have hletter := hcodes range hrange (c.toNat - range.1) (by omega)
  rwa [Nat.add_sub_cancel' hcode.1, Char.ofNat_toNat] at hletter

namespace Token

variable {own u v v' s s' : Text} {c : Char} {kind : Kind} {t : Token}

/-- A raw token is blank as a whole or nowhere. -/
theorem IsRaw.isBlank_text (h : IsRaw t) (hc : c ∈ t.text) (hblank : isBlank c = true) :
    ∀ d ∈ t.text, isBlank d = true := by
  cases h with
  | letters text _ _ letters =>
    exact absurd (letters c hc) (by rw [Text.isLetter_of_isBlank hblank]; exact Bool.false_ne_true)
  | lineBreak _ _ known => exact isBlank_of_mem_lineBreaks known
  | blank e _ he =>
    intro d hd
    exact List.mem_singleton.mp hd ▸ he
  | other e _ _ he =>
    obtain rfl : c = e := List.mem_singleton.mp hc
    exact absurd hblank (by rw [he]; exact Bool.false_ne_true)

/-- The first raw token of a text is of the kind, and leaves `s` of it. -/
def IsFirst (kind : Kind) (own s : Text) : Prop :=
  ∃ c more, own = c :: more ∧ ∀ offset, first offset c (more ++ s) = ⟨kind, own, offset⟩

theorem first_offset (offset : Nat) (c : Char) (rest : Text) :
    first offset c rest = ⟨(first 0 c rest).kind, (first 0 c rest).text, offset⟩ := by
  simp only [first]
  split
  · rfl
  · split
    · rfl
    · split <;> rfl

theorem exists_isFirst (c : Char) (rest : Text) :
    ∃ kind own s, c :: rest = own ++ s ∧ IsFirst kind own s := by
  obtain ⟨more, s, htext, rfl⟩ := text_first 0 c rest
  refine ⟨(first 0 c (more ++ s)).kind, c :: more, s, rfl, c, more, rfl, fun offset => ?_⟩
  rw [first_offset, htext]

theorem IsFirst.isRaw (h : IsFirst kind own s) (offset : Nat) : IsRaw ⟨kind, own, offset⟩ := by
  obtain ⟨c, more, -, hfirst⟩ := h
  exact hfirst offset ▸ isRaw_first offset c (more ++ s)

theorem IsFirst.tokenizeFrom (h : IsFirst kind own s) (offset : Nat) :
    tokenizeFrom 0 offset (own ++ s) =
      ⟨kind, own, offset⟩ :: tokenizeFrom 0 (offset + own.length) s := by
  obtain ⟨c, more, rfl, hfirst⟩ := h
  rw [List.cons_append, tokenizeFrom_cons, hfirst, ← List.cons_append, List.drop_left]

/-- A line break is known from two characters. -/
theorem lineBreak_eq (c : Char) (rest : Text) :
    lineBreak (c :: rest) =
      if c = '\r' then if rest.head? = some '\n' then ['\r', '\n'] else []
      else if c = '\n' then if rest.head? = some '\r' then ['\n', '\r'] else ['\n']
      else [] := by
  by_cases hreturn : c = '\r'
  · subst hreturn
    cases rest with
    | nil => rfl
    | cons d rest =>
      by_cases hd : d = '\n'
      · subst hd
        rfl
      · simp [lineBreak, hd]
  · by_cases hfeed : c = '\n'
    · subst hfeed
      cases rest with
      | nil => rfl
      | cons d rest =>
        by_cases hd : d = '\r'
        · subst hd
          rfl
        · simp [lineBreak, hd]
    · rw [if_neg hreturn, if_neg hfeed, lineBreak_of_ne hreturn hfeed]

/-- Of the text behind the first raw token it matters only whether it goes on with a letter or a
line break. -/
theorem IsFirst.of_like (h : IsFirst kind own s)
    (hreturn : s.head? = some '\r' ↔ s'.head? = some '\r')
    (hfeed : s.head? = some '\n' ↔ s'.head? = some '\n')
    (hletters : (∀ c ∈ s.head?, isLetter c = false) → ∀ c ∈ s'.head?, isLetter c = false) :
    IsFirst kind own s' := by
  obtain ⟨c, more, rfl, hfirst⟩ := h
  refine ⟨c, more, rfl, fun offset => ?_⟩
  rw [← hfirst offset]
  have hhead : ∀ {d}, (s.head? = some d ↔ s'.head? = some d) →
      ((more ++ s).head? = some d ↔ (more ++ s').head? = some d) := by
    intro d hd
    cases more with
    | nil => exact hd
    | cons => exact Iff.rfl
  have hlines : lineBreak (c :: (more ++ s')) = lineBreak (c :: (more ++ s)) := by
    simp only [lineBreak_eq, hhead hreturn, hhead hfeed]
  simp only [first, hlines]
  cases hletter : isLetter c with
  | false => rfl
  | true =>
    have htake := congrArg Token.text (hfirst offset)
    rw [first_of_letter hletter] at htake
    have hmore := takeWhile_eq_iff.mp (List.cons.inj htake).2
    rw [takeWhile_eq_iff.mpr hmore, takeWhile_eq_iff.mpr ⟨hmore.1, hletters hmore.2⟩]

/-- Only the character behind the first raw token matters to it. -/
theorem IsFirst.congr (h : IsFirst kind own s) (hs : s.head? = s'.head?) : IsFirst kind own s' :=
  h.of_like (by rw [hs]) (by rw [hs]) (by rw [hs]; exact id)

/-- A line break stays what it is if no carriage return comes behind it. -/
theorem IsFirst.newline (h : IsFirst .newline own s)
    (hs : s'.head? = some '\r' → s.head? = some '\r') :
    IsFirst .newline own s' := by
  have hknown := (h.isRaw 0).text_of_newline rfl
  obtain ⟨c, more, rfl, hfirst⟩ := h
  have hletter : ¬isLetter c = true := by
    intro hc
    have hkind := congrArg Token.kind (hfirst 0)
    rw [first_of_letter hc] at hkind
    cases hkind
  have hline : lineBreak (c :: (more ++ s')) = c :: more := by
    simp only [lineBreaks, List.mem_cons, List.cons.injEq, List.not_mem_nil, or_false] at hknown
    rcases hknown with ⟨rfl, rfl⟩ | ⟨rfl, rfl⟩ | ⟨rfl, rfl⟩
    · rfl
    · rfl
    · have htext := congrArg Token.text (hfirst 0)
      rw [first, if_neg hletter, if_pos (lineBreak_feed _), List.nil_append, lineBreak_eq,
        if_neg (by decide), if_pos rfl] at htext
      rw [List.nil_append, lineBreak_eq, if_neg (by decide), if_pos rfl]
      by_cases hnext : s'.head? = some '\r'
      · rw [if_pos (hs hnext)] at htext
        cases htext
      · rw [if_neg hnext]
  refine ⟨c, more, rfl, fun offset => ?_⟩
  rw [first, if_neg hletter, hline, if_pos (List.cons_ne_nil _ _)]

/-- What follows a raw token is known from the text behind it, unless that is nothing. -/
theorem IsFirst.behind (h : IsFirst kind own (u ++ v)) (hne : u ≠ []) :
    IsFirst kind own (u ++ v') := by
  apply h.congr
  obtain ⟨c, u, rfl⟩ := List.exists_cons_of_ne_nil hne
  rfl

end Token

end DocComment
