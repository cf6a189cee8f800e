import DocComment.Token.Raw

/-!
# Raw tokens partition their text

The texts of the raw tokens of a text concatenate to it, each token begins where the one before it
ends, and the mark of the end comes last and nowhere else. `IsRaw` says which text a raw token of
each kind may have. Which of several partitions is the right one is not settled here.
-/

namespace DocComment

/-- A list is taken off from the left by a piece at a time, of whatever length the pieces are. -/
@[elab_as_elim]
theorem suffix_induction {α : Type} {motive : List α → Prop} (nil : motive [])
    (cons : ∀ a l, (∀ piece rest, a :: l = piece ++ rest → piece ≠ [] → motive rest) →
      motive (a :: l))
    (l : List α) : motive l := by
  induction hn : l.length using Nat.strongRecOn generalizing l with
  | ind n ih =>
    cases l with
    | nil => exact nil
    | cons a l =>
      refine cons a l fun piece rest hsplit hne => ih rest.length ?_ rest rfl
      have hpos := List.length_pos_iff.mpr hne
      rw [← hn, hsplit, List.length_append]
      omega

namespace Token

open Text (isLetter isBlank)

/-- The line breaks. -/
def lineBreaks : List Text := [['\r', '\n'], ['\n', '\r'], ['\n']]

/-- What a raw token may be, the mark of the end left aside. -/
inductive IsRaw : Token → Prop where
  | letters (text : Text) (offset : Nat) (nonempty : text ≠ [])
      (letters : ∀ c ∈ text, isLetter c = true) : IsRaw ⟨.string, text, offset⟩
  | lineBreak (text : Text) (offset : Nat) (known : text ∈ lineBreaks) :
      IsRaw ⟨.newline, text, offset⟩
  | blank (c : Char) (offset : Nat) (blank : isBlank c = true) (feed : c ≠ '\n') :
      IsRaw ⟨.whitespace, [c], offset⟩
  | other (c : Char) (offset : Nat) (letter : isLetter c = false) (blank : isBlank c = false) :
      IsRaw ⟨(Kind.ofPunctuation? c).getD .string, [c], offset⟩

@[simp] theorem concat_nil : concat [] = [] := rfl

@[simp] theorem concat_cons (token : Token) (rest : List Token) :
    concat (token :: rest) = token.text ++ concat rest := by
  simp [concat]

@[simp] theorem concat_append (ts us : List Token) :
    concat (ts ++ us) = concat ts ++ concat us := by
  simp [concat]

/-! ## One raw token -/

theorem lineBreak_eq_nil_or (s : Text) :
    lineBreak s = [] ∨ (lineBreak s ∈ lineBreaks ∧ ∃ rest, s = lineBreak s ++ rest) := by
  unfold lineBreak
  split
  · exact .inr ⟨by simp [lineBreaks], _, rfl⟩
  · exact .inr ⟨by simp [lineBreaks], _, rfl⟩
  · exact .inr ⟨by simp [lineBreaks], _, rfl⟩
  · exact .inl rfl

theorem isBlank_of_mem_lineBreaks {newline : Text} (h : newline ∈ lineBreaks) :
    ∀ c ∈ newline, isBlank c = true := by
  simp only [lineBreaks, List.mem_cons, List.not_mem_nil, or_false] at h
  rcases h with rfl | rfl | rfl <;> exact List.all_eq_true.mp (by decide)

theorem lineBreak_feed (rest : Text) : lineBreak ('\n' :: rest) ≠ [] := by
  unfold lineBreak
  split <;> simp_all

theorem isRaw_first (offset : Nat) (c : Char) (rest : Text) : IsRaw (first offset c rest) := by
  unfold first
  split
  case isTrue hletter =>
    refine .letters _ _ (by simp) fun d hd => ?_
    rcases List.mem_cons.mp hd with rfl | hd
    · exact hletter
    · exact List.all_eq_true.mp List.all_takeWhile d hd
  case isFalse hletter =>
    have hletter : isLetter c = false := by simpa using hletter
    split
    case isTrue hbreak =>
      rcases lineBreak_eq_nil_or (c :: rest) with h | ⟨h, -⟩
      · exact absurd h hbreak
      · exact .lineBreak _ _ h
    case isFalse hbreak =>
      split
      case isTrue hblank =>
        refine .blank c _ hblank fun hfeed => hbreak ?_
        exact hfeed ▸ lineBreak_feed rest
      case isFalse hblank => exact .other c _ hletter (by simpa using hblank)

theorem offset_first (offset : Nat) (c : Char) (rest : Text) :
    (first offset c rest).offset = offset := by
  unfold first
  split
  · rfl
  · split
    · rfl
    · split <;> rfl

/-- A raw token is a nonempty beginning of the text it is read from. -/
theorem text_first (offset : Nat) (c : Char) (rest : Text) :
    ∃ more after, (first offset c rest).text = c :: more ∧ rest = more ++ after := by
  unfold first
  split
  · exact ⟨_, _, rfl, List.takeWhile_append_dropWhile.symm⟩
  · split
    case isTrue hbreak =>
      rcases lineBreak_eq_nil_or (c :: rest) with h | ⟨hknown, after, hafter⟩
      · exact absurd h hbreak
      · cases hb : lineBreak (c :: rest) with
        | nil => exact absurd hb hbreak
        | cons d more =>
          rw [hb, List.cons_append, List.cons.injEq] at hafter
          exact ⟨more, after, by rw [hafter.1], hafter.2⟩
    case isFalse => split <;> exact ⟨[], rest, rfl, rfl⟩

theorem IsRaw.text_ne_nil {t : Token} (h : IsRaw t) : t.text ≠ [] := by
  cases h with
  | letters text _ nonempty => exact nonempty
  | lineBreak text _ known =>
    intro hnil
    obtain rfl : text = [] := hnil
    exact absurd known (by decide)
  | blank => simp
  | other => simp

theorem IsRaw.kind_ne_endOfText {t : Token} (h : IsRaw t) : t.kind ≠ .endOfText := by
  cases h with
  | letters | lineBreak | blank => simp
  | other c =>
    show (Kind.ofPunctuation? c).getD .string ≠ .endOfText
    unfold Kind.ofPunctuation?
    split <;> simp

/-! ## All raw tokens -/

/-- The raw tokens after the first are those of the text behind it. -/
theorem tokenizeFrom_cons (offset : Nat) (c : Char) (rest : Text) :
    let token := first offset c rest
    tokenizeFrom 0 offset (c :: rest) =
      token :: tokenizeFrom 0 (offset + token.text.length)
        ((c :: rest).drop token.text.length) := by
  obtain ⟨more, after, htext, hrest⟩ := text_first offset c rest
  have hskip := tokenizeFrom_skip more.length (offset + 1) rest (by simp [hrest])
  simp only [tokenizeFrom, htext, List.length_cons, Nat.add_sub_cancel, List.drop_succ_cons, hskip,
    List.cons.injEq, true_and]
  congr 1
  omega

/-- The tokens lie side by side over a text that begins at an offset, and the mark of the end comes
last. -/
inductive Partition : (offset : Nat) → Text → List Token → Prop where
  | last (offset : Nat) : Partition offset [] [⟨.endOfText, [], offset⟩]
  | cons {token : Token} {after : Text} {tokens : List Token} (raw : IsRaw token)
      (tail : Partition (token.offset + token.text.length) after tokens) :
      Partition token.offset (token.text ++ after) (token :: tokens)

theorem partition_tokenizeFrom (offset : Nat) (s : Text) :
    Partition offset s (tokenizeFrom 0 offset s) := by
  induction s using suffix_induction generalizing offset with
  | nil => exact .last offset
  | cons c rest ih =>
    obtain ⟨more, after, htext, hrest⟩ := text_first offset c rest
    have hsplit : c :: rest = (first offset c rest).text ++ after := by
      rw [htext, hrest, List.cons_append]
    have hdrop : (c :: rest).drop (first offset c rest).text.length = after :=
      (congrArg (List.drop _) hsplit).trans List.drop_left
    have hraw := isRaw_first offset c rest
    have hcons := Partition.cons hraw (ih _ after hsplit (by simp [htext]) _)
    rw [offset_first, ← hsplit] at hcons
    rw [tokenizeFrom_cons]
    simpa only [hdrop] using hcons

/-- The raw tokens of a text partition it. -/
theorem partition_tokenize (source : Text) : Partition 0 source (tokenize source) :=
  partition_tokenizeFrom 0 source

namespace Partition

variable {offset : Nat} {s : Text} {t : Token} {taken rest : List Token}

theorem ne_nil (h : Partition offset s rest) : rest ≠ [] := by
  cases h <;> simp

theorem head_offset (h : Partition offset s (t :: rest)) : t.offset = offset := by
  cases h <;> rfl

/-- Only the mark of the end is no ordinary raw token, and then nothing follows. -/
theorem head_cases (h : Partition offset s (t :: rest)) :
    (t = ⟨.endOfText, [], offset⟩ ∧ s = [] ∧ rest = []) ∨
      (IsRaw t ∧ ∃ after, s = t.text ++ after ∧
        Partition (offset + t.text.length) after rest) := by
  cases h with
  | last => exact .inl ⟨rfl, rfl, rfl⟩
  | cons raw tail => exact .inr ⟨raw, _, rfl, tail⟩

theorem of_head (h : Partition offset s (t :: rest)) (ht : t.kind ≠ .endOfText) :
    IsRaw t ∧ ∃ after, s = t.text ++ after ∧ Partition (offset + t.text.length) after rest := by
  rcases h.head_cases with ⟨rfl, -, -⟩ | h
  · exact absurd rfl ht
  · exact h

/-- Only the mark of the end is left of a text that is read. -/
theorem eq_last (h : Partition offset [] rest) : rest = [⟨.endOfText, [], offset⟩] := by
  cases rest with
  | nil => exact absurd rfl h.ne_nil
  | cons t rest =>
    rcases h.head_cases with ⟨rfl, -, rfl⟩ | ⟨hraw, after, htext, -⟩
    · rfl
    · exact absurd (List.append_eq_nil_iff.mp htext.symm).1 hraw.text_ne_nil

/-- Tokens in front of the end can be cut off together with their texts. -/
theorem of_append (h : Partition offset s (taken ++ rest))
    (hkinds : ∀ t ∈ taken, t.kind ≠ .endOfText) :
    (∀ t ∈ taken, IsRaw t) ∧ ∃ after, s = concat taken ++ after ∧
      Partition (offset + (concat taken).length) after rest := by
  induction taken generalizing offset s with
  | nil => exact ⟨by simp, s, rfl, h⟩
  | cons t taken ih =>
    obtain ⟨hraw, after, rfl, htail⟩ := h.of_head (hkinds t (by simp))
    obtain ⟨hraws, after, rfl, hrest⟩ := ih htail fun u hu => hkinds u (by simp [hu])
    refine ⟨?_, after, by simp, ?_⟩
    · intro u hu
      rcases List.mem_cons.mp hu with rfl | hu
      · exact hraw
      · exact hraws u hu
    · rw [concat_cons, List.length_append, ← Nat.add_assoc]
      exact hrest

/-- What stands in front of a raw token are raw tokens, and not the mark of the end. -/
theorem of_init (h : Partition offset s (taken ++ t :: rest)) :
    (∀ u ∈ taken, IsRaw u) ∧ ∃ after, s = concat taken ++ after ∧
      Partition (offset + (concat taken).length) after (t :: rest) := by
  induction taken generalizing offset s with
  | nil => exact ⟨by simp, s, rfl, h⟩
  | cons u taken ih =>
    rcases h.head_cases with ⟨-, -, hnil⟩ | ⟨hraw, after, rfl, htail⟩
    · cases taken <;> cases hnil
    · obtain ⟨hraws, after, rfl, hafter⟩ := ih htail
      refine ⟨List.forall_mem_cons.mpr ⟨hraw, hraws⟩, after, by simp, ?_⟩
      rw [concat_cons, List.length_append, ← Nat.add_assoc]
      exact hafter

theorem of_mem (h : Partition offset s rest) (ht : t ∈ rest) :
    IsRaw t ∨ t = ⟨.endOfText, [], offset + s.length⟩ := by
  induction h with
  | last => exact .inr (by simpa using ht)
  | cons raw tail ih =>
    rcases List.mem_cons.mp ht with rfl | ht
    · exact .inl raw
    · rcases ih ht with hraw | rfl
      · exact .inl hraw
      · exact .inr (by simp [Nat.add_assoc])

theorem isRaw_of_mem (h : Partition offset s rest) (ht : t ∈ rest)
    (hkind : t.kind ≠ .endOfText) : IsRaw t :=
  (h.of_mem ht).resolve_right fun hend => hkind (by rw [hend])

/-- What is left of a partition is one, if anything is left. -/
theorem drop (h : Partition offset s rest) (n : Nat) (hleft : rest.drop n ≠ []) :
    ∃ start after, Partition start after (rest.drop n) := by
  induction h generalizing n with
  | last offset =>
    cases n with
    | zero => exact ⟨_, _, .last offset⟩
    | succ n => simp at hleft
  | cons raw tail ih =>
    cases n with
    | zero => exact ⟨_, _, .cons raw tail⟩
    | succ n => exact ih n hleft

theorem tail_drop {n : Nat} (h : Partition offset s (t :: rest)) (hleft : rest.drop n ≠ []) :
    ∃ start after, Partition start after (rest.drop n) :=
  h.drop (n + 1) hleft

theorem le_offset (h : Partition offset s rest) : ∀ t ∈ rest, offset ≤ t.offset := by
  induction h with
  | last => exact List.forall_mem_singleton.mpr (Nat.le_refl _)
  | cons _ _ ih =>
    exact List.forall_mem_cons.mpr ⟨Nat.le_refl _, fun t ht => by have := ih t ht; omega⟩

theorem concat_eq (h : Partition offset s rest) : concat rest = s := by
  induction h with
  | last => rfl
  | cons _ _ ih => rw [concat_cons, ih]

end Partition

end Token

end DocComment
