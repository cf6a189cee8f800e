import DocComment.Proofs.Screening.Run

/-!
# What one step of screening takes

Each routine reads ahead and keeps only part of what it has read. The lemmas here invert the
routines: from the token that a step gives follow the raw tokens that it took, by kind and in order,
and those that it left. Faults are not looked at.
-/

namespace DocComment.Screening

open Token (IsRaw Partition concat)

variable {first newline slash star t : Token} {rest after : List Token}

theorem mergeRun_step (first : Token) (rest : List Token) :
    ∃ run tail, rest = run ++ tail ∧ (∀ u ∈ first :: run, u.kind = first.kind) ∧
      mergeRun first rest =
      ⟨.token ⟨first.kind, concat (first :: run), first.offset⟩, run.length⟩ := by
  obtain ⟨run, tail, heq, htake, hrun, -⟩ := split_run (·.kind = first.kind) rest
  refine ⟨run, tail, heq, ?_, ?_⟩
  · exact List.forall_mem_cons.mpr ⟨rfl, fun u hu => of_decide_eq_true (hrun u hu)⟩
  · rw [mergeRun, htake, Token.concat_cons]

theorem isRaw_of_run {offset : Nat} {s : Text} {run : List Token}
    (h : Partition offset s (first :: (run ++ rest))) (hk : first.kind = .whitespace ∨
      first.kind = .string) (hsame : ∀ u ∈ first :: run, u.kind = first.kind) :
    ∀ u ∈ first :: run, IsRaw u := by
  intro u hu
  have hmem : u ∈ (first :: run) ++ rest := List.mem_append_left rest hu
  refine h.isRaw_of_mem hmem ?_
  rcases hk with hk | hk <;> simp [hsame u hu, hk]

theorem lineSlash_of_ne {second : Token} {more : List Token} (h : second.kind ≠ .star) :
    lineSlash slash (second :: more) = ⟨.fault (.unexpectedToken second), 1⟩ := by
  cases more with
  | nil => rw [lineSlash, if_pos h]
  | cons third more => rw [lineSlash, if_pos h]

theorem slash_of_ne {second : Token} {more : List Token} (h : second.kind ≠ .star) :
    Screening.slash first (second :: more) = ⟨.token { first with kind := .string }, 0⟩ := by
  cases more with
  | nil => rfl
  | cons third more => rw [Screening.slash, if_neg fun hstars => h hstars.1]

theorem lineSlash_token (ht : (lineSlash slash after).item = .token t) :
    t = introAt slash.offset ∧ ∃ first second stars more,
      after = first :: second :: stars ++ more ∧ first.kind = .star ∧ second.kind = .star ∧
      (∀ u ∈ stars, u.kind = .star) ∧ after.drop (lineSlash slash after).taken = more ∧
      ∀ u ∈ more.head?, u.kind ≠ .star := by
  match after with
  | [] => simp [lineSlash] at ht
  | [first] =>
    by_cases hfirst : first.kind = .star <;> simp [lineSlash, hfirst] at ht
  | first :: second :: tail =>
    by_cases hfirst : first.kind = .star
    · by_cases hsecond : second.kind = .star
      · obtain ⟨stars, more, rfl, hlength, hstars, hstop⟩ := runLength_split .star tail
        simp only [lineSlash, hfirst, hsecond, ne_eq, not_true_eq_false, ↓reduceIte,
          Item.token.injEq] at ht
        refine ⟨ht.symm, first, second, stars, more, rfl, hfirst, hsecond, hstars, ?_, hstop⟩
        simp only [lineSlash, hfirst, hsecond, ne_eq, not_true_eq_false, ↓reduceIte, hlength,
          Nat.add_comm 2, List.drop_succ_cons, List.drop_left]
      · simp [lineSlash, hfirst, hsecond] at ht
    · simp [lineSlash, hfirst] at ht

theorem lineStar_token (ht : (lineStar star after).item = .token t) :
    (t = lineFeed star.offset ∧ ∃ blank more, after = blank :: more ∧ blank.kind = .whitespace ∧
      after.drop (lineStar star after).taken = more) ∨
    (t = lineFeed star.offset ∧ after.drop (lineStar star after).taken = after ∧
      ∀ u ∈ after.head?, u.kind ≠ .star ∧ u.kind ≠ .slash) ∨
    (t = outroAt star.offset ∧ ∃ stars closing more, after = stars ++ closing :: more ∧
      (∀ u ∈ stars, u.kind = .star) ∧ closing.kind = .slash ∧
      after.drop (lineStar star after).taken = more) := by
  match after with
  | [] => simp [lineStar] at ht
  | next :: tail =>
    by_cases hblank : next.kind = .whitespace
    · left
      simp only [lineStar, hblank, ↓reduceIte, Item.token.injEq] at ht
      exact ⟨ht.symm, next, tail, rfl, hblank, by simp [lineStar, hblank]⟩
    · by_cases hclose : next.kind = .slash ∨ next.kind = .star
      · right; right
        obtain ⟨stars, more, heq, hlength, hstars, -⟩ := runLength_split .star (next :: tail)
        simp only [lineStar, hblank, hclose, ↓reduceIte, hlength] at ht ⊢
        rw [heq] at ht ⊢
        cases more with
        | nil => simp at ht
        | cons closing more =>
          by_cases hclosing : closing.kind = .slash
          · simp only [List.drop_left, hclosing, ↓reduceIte, Item.token.injEq] at ht
            refine ⟨ht.symm, stars, closing, more, rfl, hstars, hclosing, ?_⟩
            simp [hclosing, List.drop_append]
          · simp [hclosing] at ht
      · right; left
        simp only [lineStar, hblank, hclose, ↓reduceIte, Item.token.injEq] at ht
        refine ⟨ht.symm, by simp [lineStar, hblank, hclose], fun u hu => ?_⟩
        obtain rfl : next = u := by simpa using hu
        exact ⟨fun h => hclose (.inr h), fun h => hclose (.inl h)⟩

/-- A line begins behind its blanks. -/
theorem lineStart_behind_blanks {blanks : List Token} {next : Token}
    (hblanks : ∀ u ∈ blanks, u.kind = .whitespace) (hnext : next.kind ≠ .whitespace) :
    lineStart newline (blanks ++ next :: after) =
      match next.kind with
      | .slash => ⟨(lineSlash next after).item, blanks.length + 1 + (lineSlash next after).taken⟩
      | .star => ⟨(lineStar next after).item, blanks.length + 1 + (lineStar next after).taken⟩
      | .endOfText => ⟨.token next, blanks.length + 1⟩
      | _ => ⟨.token (lineFeed newline.offset), blanks.length⟩ := by
  have hlength : runLength .whitespace (blanks ++ next :: after) = blanks.length := by
    apply runLength_append hblanks
    rintro u ⟨⟩
    exact hnext
  cases hkind : next.kind <;> simp only [lineStart, hlength, List.drop_left, hkind]

/-- The blanks after a line break, and what begins the line behind them. -/
theorem lineStart_token {blanks : List Token} {next : Token}
    (hblanks : ∀ u ∈ blanks, u.kind = .whitespace) (hnext : next.kind ≠ .whitespace)
    (ht : (lineStart newline (blanks ++ next :: after)).item = .token t) :
    let left := (blanks ++ next :: after).drop (lineStart newline (blanks ++ next :: after)).taken
    (next.kind = .slash ∧ (lineSlash next after).item = .token t ∧
      left = after.drop (lineSlash next after).taken) ∨
    (next.kind = .star ∧ (lineStar next after).item = .token t ∧
      left = after.drop (lineStar next after).taken) ∨
    (next.kind = .endOfText ∧ t = next ∧ left = after) ∨
    (t = lineFeed newline.offset ∧ left = next :: after) := by
  have hdrop : ∀ n, (blanks ++ next :: after).drop (blanks.length + 1 + n) = after.drop n := by
    intro n
    rw [Nat.add_assoc, List.drop_length_add_append, Nat.add_comm 1, List.drop_succ_cons]
  rw [lineStart_behind_blanks hblanks hnext] at ht ⊢
  split at ht
  case h_1 hslash => exact .inl ⟨hslash, ht, hdrop _⟩
  case h_2 hstar => exact .inr (.inl ⟨hstar, ht, hdrop _⟩)
  case h_3 hend => exact .inr (.inr (.inl ⟨hend, (Item.token.inj ht).symm, hdrop 0⟩))
  case h_4 => exact .inr (.inr (.inr ⟨(Item.token.inj ht).symm, List.drop_left⟩))

/-- A slash inside a line either opens a comment or stands for itself. -/
theorem slash_token (ht : (Screening.slash first rest).item = .token t) :
    (t = introAt first.offset ∧ ∃ second third stars more,
      rest = second :: third :: stars ++ more ∧ second.kind = .star ∧ third.kind = .star ∧
      (∀ u ∈ stars, u.kind = .star) ∧ rest.drop (Screening.slash first rest).taken = more ∧
      ∀ u ∈ more.head?, u.kind ≠ .star) ∨
    (t = { first with kind := .string } ∧ rest.drop (Screening.slash first rest).taken = rest ∧
      ∀ second third more, rest = second :: third :: more →
        ¬(second.kind = .star ∧ third.kind = .star)) := by
  match rest with
  | [] | [_] => exact .inr ⟨(Item.token.inj ht).symm, rfl, by simp⟩
  | second :: third :: tail =>
    by_cases hstars : second.kind = .star ∧ third.kind = .star
    · left
      obtain ⟨stars, more, rfl, hlength, hrun, hstop⟩ := runLength_split .star tail
      simp only [Screening.slash, hstars, and_self, ↓reduceIte, Item.token.injEq] at ht
      refine ⟨ht.symm, second, third, stars, more, rfl, hstars.1, hstars.2, hrun, ?_, hstop⟩
      simp only [Screening.slash, hstars, and_self, ↓reduceIte, hlength, Nat.add_comm 2,
        List.drop_succ_cons, List.drop_left]
    · right
      simp only [Screening.slash, hstars, ↓reduceIte, Item.token.injEq] at ht
      refine ⟨ht.symm, by simp [Screening.slash, hstars], fun _ _ _ heq => ?_⟩
      obtain ⟨rfl, rfl, -⟩ := by simpa using heq
      exact hstars

/-- Stars inside a line either close a comment or stand for themselves. -/
theorem stars_token (ht : (stars first rest).item = .token t) :
    ∃ run tail, rest = run ++ tail ∧ (∀ u ∈ run, u.kind = .star) ∧
      (∀ u ∈ tail.head?, u.kind ≠ .star) ∧
      ((t = outroAt first.offset ∧ ∃ closing more, tail = closing :: more ∧ closing.kind = .slash ∧
        rest.drop (stars first rest).taken = more) ∨
      (t = ⟨.string, List.replicate (run.length + 1) '*', first.offset⟩ ∧
        rest.drop (stars first rest).taken = tail ∧ ∀ u ∈ tail.head?, u.kind ≠ .slash)) := by
  obtain ⟨run, tail, rfl, hlength, hrun, hstop⟩ := runLength_split .star rest
  refine ⟨run, tail, rfl, hrun, hstop, ?_⟩
  simp only [stars, hlength, List.drop_left] at ht ⊢
  cases tail with
  | nil => exact .inr ⟨(Item.token.inj ht).symm, List.drop_left, by simp⟩
  | cons next more =>
    by_cases hclose : next.kind = .slash
    · left
      simp only [hclose, ↓reduceIte, Item.token.injEq] at ht ⊢
      exact ⟨ht.symm, next, more, rfl, hclose, by simp [List.drop_append]⟩
    · right
      simp only [hclose, ↓reduceIte, Item.token.injEq] at ht ⊢
      refine ⟨ht.symm, List.drop_left, fun u hu => ?_⟩
      obtain rfl : next = u := by simpa using hu
      exact hclose

/-! ## Tags -/

theorem hasSuffix_iff {word : Text} :
    hasSuffix word rest = true ↔ ∃ minus suffix more, rest = minus :: suffix :: more ∧
      minus.kind = .minus ∧ suffix.text.lower = word := by
  match rest with
  | [] | [_] => simp [hasSuffix]
  | minus :: suffix :: more =>
    simp only [hasSuffix, Bool.and_eq_true, decide_eq_true_eq]
    constructor
    · rintro ⟨hminus, hword⟩
      exact ⟨minus, suffix, more, rfl, hminus, hword⟩
    · rintro ⟨_, _, _, heq, hminus, hword⟩
      obtain ⟨rfl, rfl, -⟩ := by simpa using heq
      exact ⟨hminus, hword⟩

theorem hasSuffix_of_ne {word : Text} {minus : Token} (h : minus.kind ≠ .minus) :
    hasSuffix word (minus :: rest) = false := by
  rw [← Bool.not_eq_true, hasSuffix_iff]
  rintro ⟨_, _, _, heq, hminus, -⟩
  obtain ⟨rfl, -⟩ := List.cons.inj heq
  exact h hminus

/-- The word that makes a tag is known from the tag, but for the case of its letters. -/
theorem mem_tagWords_of_lookup {word : Text} {name : TagName}
    (h : tagWords.lookup word = some name) : (word, name) ∈ tagWords := by
  obtain ⟨before, behind, heq, -⟩ := List.lookup_eq_some_iff.mp h
  rw [heq]
  simp

/-- A minus and a known word, as one text in lower case. -/
theorem lower_suffix {word : Text} {minus suffix : Token} (hminus : minus.text = ['-'])
    (hword : suffix.text.lower = word) :
    (Token.concat [minus, suffix]).lower = '-' :: word := by
  rw [Token.concat_cons, Token.concat_cons, hminus, Token.concat_nil, List.append_nil, ← hword]
  rfl

variable (offset : Nat) (hminus : ∀ u ∈ rest, u.kind = .minus → u.text = ['-'])

include hminus in
/-- A suffix is two tokens with texts, which are known as one text in lower case. -/
theorem exists_suffix {word : Text} (hword : word ≠ []) (h : hasSuffix word rest = true) :
    ∃ suffix more, rest = suffix ++ more ∧ suffix.length = 2 ∧ (∀ u ∈ suffix, u.text ≠ []) ∧
      (Token.concat suffix).lower = '-' :: word := by
  obtain ⟨minus, suffix, more, rfl, hkind, rfl⟩ := hasSuffix_iff.mp h
  have htext := hminus minus List.mem_cons_self hkind
  have hne : suffix.text ≠ [] := by
    rintro hnil
    simp [hnil, Text.lower] at hword
  exact ⟨[minus, suffix], more, rfl, rfl, by simp [htext, hne], lower_suffix htext rfl⟩

include hminus in
/-- The word of a property takes a known suffix with it, and nothing else. -/
theorem propertyTag_token :
    ∃ name suffix more, rest = suffix ++ more ∧ (∀ u ∈ suffix, u.text ≠ []) ∧
      propertyTag offset rest =
        ⟨.token ⟨.tag name, "@property".toList ++ (Token.concat suffix).lower, offset⟩,
          suffix.length + 1⟩ := by
  by_cases hread : hasSuffix "read".toList rest = true
  · obtain ⟨suffix, more, hrest, hlength, hne, hlower⟩ := exists_suffix hminus (by decide) hread
    refine ⟨.propertyRead, suffix, more, hrest, hne, ?_⟩
    rw [hlower, hlength, propertyTag, if_pos hread]
    rfl
  by_cases hwrite : hasSuffix "write".toList rest = true
  · obtain ⟨suffix, more, hrest, hlength, hne, hlower⟩ := exists_suffix hminus (by decide) hwrite
    refine ⟨.propertyWrite, suffix, more, hrest, hne, ?_⟩
    rw [hlower, hlength, propertyTag, if_neg hread, if_pos hwrite]
    rfl
  · refine ⟨.property, [], rest, rfl, by simp, ?_⟩
    rw [propertyTag, if_neg hread, if_neg hwrite]
    rfl

include hminus in
/-- The first word of a tag of usage takes the second with it, or a minus, or nothing. -/
theorem usedByTag_token :
    ∃ kind suffix more, rest = suffix ++ more ∧ (∀ u ∈ suffix, u.text ≠ []) ∧
      (kind = .tag .usedBy ∨ kind = .string ∧
        "@used".toList ++ (Token.concat suffix).lower ∈ ["@used".toList, "@used-".toList]) ∧
      usedByTag offset rest =
        ⟨.token ⟨kind, "@used".toList ++ (Token.concat suffix).lower, offset⟩,
          suffix.length + 1⟩ := by
  by_cases hby : hasSuffix "by".toList rest = true
  · obtain ⟨suffix, more, hrest, hlength, hne, hlower⟩ := exists_suffix hminus (by decide) hby
    refine ⟨.tag .usedBy, suffix, more, hrest, hne, .inl rfl, ?_⟩
    rw [hlower, hlength, usedByTag, if_pos hby]
    rfl
  · cases rest with
    | nil => exact ⟨.string, [], [], rfl, by simp, .inr ⟨rfl, by decide⟩, rfl⟩
    | cons next more =>
      by_cases hkind : next.kind = .minus
      · have htext := hminus next (by simp) hkind
        have hlower : (Token.concat [next]).lower = ['-'] := by
          rw [Token.concat_cons, htext]
          rfl
        refine ⟨.string, [next], more, rfl, by simp [htext], .inr ⟨rfl, ?_⟩, ?_⟩
        · rw [hlower]
          decide
        · rw [hlower, usedByTag, if_neg hby, if_pos (by simp [hkind])]
          rfl
      · refine ⟨.string, [], next :: more, rfl, by simp, .inr ⟨rfl, by decide⟩, ?_⟩
        rw [usedByTag, if_neg hby, if_neg (by simp [hkind])]
        rfl

/-- A word that makes a tag, and what the tag takes with it behind the word. -/
theorem atSign_of_lookup (first : Token) {word : Token} {after : List Token} {name : TagName}
    (hminus : ∀ u ∈ after, u.kind = .minus → u.text = ['-']) (hword : word.kind = .string)
    (hlookup : tagWords.lookup word.text.lower = some name) :
    ∃ kind suffix more, after = suffix ++ more ∧ (∀ u ∈ suffix, u.text ≠ []) ∧
      ((∃ known, kind = .tag known) ∨ kind = .string ∧
        '@' :: (Token.concat (word :: suffix)).lower ∈ ["@used".toList, "@used-".toList]) ∧
      atSign first (word :: after) =
        ⟨.token ⟨kind, '@' :: (Token.concat (word :: suffix)).lower, first.offset⟩,
          suffix.length + 1⟩ := by
  have hmem := mem_tagWords_of_lookup hlookup
  by_cases hproperty : name = .property
  · subst hproperty
    have hlower : word.text.lower = "property".toList := by simpa [tagWords] using hmem
    obtain ⟨known, suffix, more, hafter, hsuffix, hproperty⟩ :=
      propertyTag_token first.offset hminus
    refine ⟨.tag known, suffix, more, hafter, hsuffix, .inl ⟨known, rfl⟩, ?_⟩
    simp only [atSign, hword, hlookup, ↓reduceIte]
    rw [Token.concat_cons, Text.lower_append, hlower]
    exact hproperty
  by_cases hused : name = .usedBy
  · subst hused
    have hlower : word.text.lower = "used".toList := by simpa [tagWords] using hmem
    obtain ⟨kind, suffix, more, hafter, hsuffix, hkind, hused⟩ :=
      usedByTag_token first.offset hminus
    simp only [atSign, hword, hlookup, ↓reduceIte]
    refine ⟨kind, suffix, more, hafter, hsuffix, ?_, ?_⟩ <;>
      rw [Token.concat_cons, Text.lower_append, hlower]
    · exact hkind.imp_left fun h => ⟨_, h⟩
    · exact hused
  · refine ⟨.tag name, [], after, rfl, by simp, .inl ⟨name, rfl⟩, ?_⟩
    rw [Token.concat_cons, Token.concat_nil, List.append_nil]
    simp only [atSign, hword, hlookup, ↓reduceIte, List.length_nil]

include hminus in
/-- What an at sign becomes, and the raw tokens that it takes with it. -/
theorem atSign_token (ht : (atSign first rest).item = .token t) :
    (t = { first with kind := .string } ∧ rest.drop (atSign first rest).taken = rest) ∨
    ∃ taken more, rest = taken ++ more ∧ (∀ u ∈ taken, u.text ≠ []) ∧
      t.offset = first.offset ∧ t.text = '@' :: (Token.concat taken).lower ∧
      ((∃ name, t.kind = .tag name) ∨
        t.kind = .string ∧ t.text ∈ ["@used".toList, "@used-".toList]) ∧
      rest.drop (atSign first rest).taken = more := by
  match rest with
  | [] => exact .inl ⟨(Item.token.inj ht).symm, rfl⟩
  | word :: after =>
    by_cases hword : word.kind = .string
    · cases hlookup : tagWords.lookup word.text.lower with
      | none =>
        simp only [atSign, hword, hlookup, ↓reduceIte, Item.token.injEq] at ht ⊢
        exact .inl ⟨ht.symm, rfl⟩
      | some name =>
        right
        have hne : word.text ≠ [] := by
          have hmem := mem_tagWords_of_lookup hlookup
          rintro hnil
          rw [hnil] at hmem
          exact absurd hmem (by cases name <;> decide)
        have hminus' : ∀ u ∈ after, u.kind = .minus → u.text = ['-'] :=
          fun u hu => hminus u (List.mem_cons_of_mem _ hu)
        obtain ⟨kind, suffix, more, rfl, hsuffix, hkind, hstep⟩ :=
          atSign_of_lookup first hminus' hword hlookup
        rw [hstep, Item.token.injEq] at ht
        rw [hstep]
        subst ht
        refine ⟨word :: suffix, more, rfl, ?_, rfl, rfl, hkind, ?_⟩
        · rw [List.forall_mem_cons]
          exact ⟨hne, hsuffix⟩
        · rw [List.drop_succ_cons, List.drop_left]
    · simp only [atSign, hword, ↓reduceIte, Item.token.injEq] at ht ⊢
      exact .inl ⟨ht.symm, rfl⟩

end DocComment.Screening
