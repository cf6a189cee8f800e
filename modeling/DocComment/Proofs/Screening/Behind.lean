import DocComment.Proofs.Cursor.CommentEnd
import DocComment.Proofs.Screening.Flat
import DocComment.Proofs.Screening.Margin
import DocComment.Proofs.Token.First

/-!
# Screening in front of the end of a comment

A step looks ahead by a few raw tokens, but it does not look into the end of a comment: in front of
a blank, or of a star that a slash follows, each step comes to the same, unless it takes blanks up
to there. So a text in front of the end of a comment has the same items whether there is a blank
between them or not, and the last of them may be one longer run of blanks.
-/

namespace DocComment.Screening

open Token (IsFirst IsRaw concat tokenizeFrom tokenize)
open Text (isBlank)

variable {first : Token} {rest after z : List Token} {offset : Nat} {kind : Kind}

/-- The raw tokens of a text are the same in front of every text that does not go on with the last
of them. -/
theorem exists_raws (s : Text) (offset : Nat) :
    ∃ raws, (∀ u ∈ raws, IsRaw u) ∧ concat raws = s ∧
      ∀ t, EndsString t →
      tokenizeFrom 0 offset (s ++ t) = raws ++ tokenizeFrom 0 (offset + s.length) t := by
  induction s using suffix_induction generalizing offset with
  | nil => exact ⟨[], List.forall_mem_nil _, rfl, fun _ _ => rfl⟩
  | cons c s ih =>
    obtain ⟨kind, own, left, hsplit, hfirst⟩ := Token.exists_isFirst c s
    obtain ⟨raws, hraw, hconcat, hraws⟩ :=
      ih own left hsplit (hfirst.isRaw 0).text_ne_nil (offset + own.length)
    refine ⟨⟨kind, own, offset⟩ :: raws, List.forall_mem_cons.mpr ⟨hfirst.isRaw offset, hraw⟩, ?_,
      fun t ht => ?_⟩
    · rw [Token.concat_cons, hconcat, hsplit]
    have hbehind : IsFirst kind own (left ++ t) := by
      by_cases hleft : left = []
      · subst hleft
        refine hfirst.of_like ?_ ?_ fun _ c hc => Token.not_letter_of_kindOf (ht c hc).1
        · simpa using fun h => (ht _ h).2.1 rfl
        · simpa using fun h => (ht _ h).2.2 rfl
      · refine IsFirst.behind (v := []) ?_ hleft
        rwa [List.append_nil]
    rw [hsplit, List.append_assoc, hbehind.tokenizeFrom, hraws t ht, List.cons_append,
      List.length_append, Nat.add_assoc]

/-! ## One step -/

/-- The end of a comment, or a blank in front of it: tokens that no step looks into from in front of
them. -/
inductive Shut : List Token → Prop
  | blank {t : Token} {more : List Token} (kind : t.kind = .whitespace) (text : t.text = [' ']) :
      Shut (t :: more)
  | star {t u : Token} {more : List Token} (kind : t.kind = .star) (text : t.text = ['*'])
      (slash : u.kind = .slash) : Shut (t :: u :: more)

/-- In front of the end of a comment the routine comes to the same, however it ends. -/
def Settles (routine : List Token → Step) (rest : List Token) : Prop :=
  ∃ next, next.taken ≤ rest.length ∧ ∀ z, Shut z → routine (rest ++ z) = next

theorem Shut.head (h : Shut z) :
    ∃ t more, z = t :: more ∧ (t.kind = .whitespace ∨ t.kind = .star) ∧
    (t.text = [' '] ∨ t.text = ['*']) := by
  cases h with
  | blank kind text => exact ⟨_, _, rfl, .inl kind, .inl text⟩
  | star kind text => exact ⟨_, _, rfl, .inr kind, .inr text⟩

theorem Shut.kind_head (h : Shut z) (hblank : kind ≠ .whitespace) (hstar : kind ≠ .star) :
    ∀ t ∈ z.head?, t.kind ≠ kind := by
  obtain ⟨u, more, rfl, hkind, -⟩ := h.head
  intro t ht
  obtain rfl := Option.some.inj ht
  rintro rfl
  exact hkind.elim hblank hstar

/-- The tokens do not end in a star. -/
def Starless (rest : List Token) : Prop := ∀ u ∈ rest.getLast?, u.kind ≠ .star

theorem Starless.of_append {front : List Token} (h : Starless (front ++ rest)) : Starless rest := by
  intro u hu
  refine h u ?_
  rw [List.getLast?_append, Option.mem_def.mp hu]
  rfl

/-- A run of stars that does not reach the end of the tokens is as long whatever comes
behind them. -/
theorem exists_behind_stars (hne : rest ≠ []) (h : Starless rest) :
    ∃ run next left, rest = run ++ next :: left ∧
      ∀ z, runLength .star (rest ++ z) = run.length ∧
      (rest ++ z).drop run.length = next :: (left ++ z) := by
  obtain ⟨run, left, rfl, -, hrun, hstop⟩ := runLength_split .star rest
  cases left with
  | nil =>
    rw [List.append_nil] at hne h
    exact absurd (hrun _ (List.getLast_mem hne)) (h _ (List.getLast?_eq_some_getLast hne))
  | cons next left =>
    refine ⟨run, next, left, rfl, fun z => ⟨?_, ?_⟩⟩
    · rw [List.append_assoc]
      exact runLength_append hrun hstop
    · rw [List.append_assoc, List.drop_left]
      rfl

theorem mergeRun_settles (h : first.kind = .string ∨ ∃ u ∈ rest, u.kind ≠ first.kind) :
    Settles (mergeRun first) rest := by
  obtain ⟨run, left, rfl, -, hrun, hstop⟩ := split_run (·.kind = first.kind) rest
  refine ⟨⟨.token ⟨first.kind, first.text ++ concat run, first.offset⟩, run.length⟩, by simp,
    fun z hz => ?_⟩
  have htake : (run ++ (left ++ z)).takeWhile (·.kind = first.kind) = run := by
    refine takeWhile_eq_iff.mpr ⟨hrun, ?_⟩
    cases left with
    | cons u left => exact hstop
    | nil =>
      rcases h with hstring | ⟨u, hu, hkind⟩
      · rw [hstring]
        simpa using hz.kind_head (by decide : Kind.string ≠ .whitespace) (by decide)
      · rw [List.append_nil] at hu
        exact absurd (by simpa using hrun u hu) hkind
  rw [List.append_assoc]
  simp only [mergeRun, htake]

/-! ### Slashes and stars -/

theorem slash_settles (h : Starless rest) : Settles (Screening.slash first) rest := by
  match rest with
  | [] =>
    refine ⟨⟨.token { first with kind := .string }, 0⟩, Nat.le_refl 0, fun z hz => ?_⟩
    cases hz with
    | blank kind text => exact slash_of_ne (by simp [kind])
    | star kind text slash =>
      rw [List.nil_append, Screening.slash, if_neg]
      simp [slash]
  | [second] => exact ⟨_, Nat.zero_le 1, fun z _ => slash_of_ne (h second rfl)⟩
  | second :: third :: more =>
    by_cases hstars : second.kind = .star ∧ third.kind = .star
    · have hmore : more ≠ [] := by
        rintro rfl
        exact h third rfl hstars.2
      have hbehind : Starless ([second, third] ++ more) := h
      obtain ⟨run, next, left, rfl, hrun⟩ := exists_behind_stars hmore hbehind.of_append
      refine ⟨⟨.token (introAt first.offset), 2 + run.length⟩, by simp; omega, fun z _ => ?_⟩
      rw [List.cons_append, List.cons_append, Screening.slash, if_pos hstars, (hrun z).1]
    · refine ⟨⟨.token { first with kind := .string }, 0⟩, Nat.zero_le _, fun z _ => ?_⟩
      rw [List.cons_append, List.cons_append, Screening.slash, if_neg hstars]

theorem stars_settles (hne : rest ≠ []) (h : Starless rest) : Settles (stars first) rest := by
  obtain ⟨run, next, left, rfl, hrun⟩ := exists_behind_stars hne h
  by_cases hslash : next.kind = .slash
  · refine ⟨⟨.token (outroAt first.offset), run.length + 1⟩, by simp, fun z _ => ?_⟩
    simp only [stars, (hrun z).1, (hrun z).2, hslash, ↓reduceIte]
  · refine ⟨⟨.token ⟨.string, List.replicate (run.length + 1) '*', first.offset⟩, run.length⟩,
      by simp, fun z _ => ?_⟩
    simp only [stars, (hrun z).1, (hrun z).2, hslash, ↓reduceIte]

/-! ### Line breaks -/

theorem lineSlash_settles (slash : Token) (hne : rest ≠ []) (h : Starless rest) :
    Settles (lineSlash slash) rest := by
  obtain ⟨second, more, rfl⟩ := List.exists_cons_of_ne_nil hne
  by_cases hsecond : second.kind = .star
  · cases more with
    | nil => exact absurd hsecond (h second rfl)
    | cons third more =>
      by_cases hthird : third.kind = .star
      · have hmore : more ≠ [] := by
          rintro rfl
          exact h third rfl hthird
        have hbehind : Starless ([second, third] ++ more) := h
        obtain ⟨run, next, left, rfl, hrun⟩ := exists_behind_stars hmore hbehind.of_append
        refine ⟨⟨.token (introAt slash.offset), 2 + run.length⟩, by simp; omega, fun z _ => ?_⟩
        rw [List.cons_append, List.cons_append, lineSlash, if_neg (not_not_intro hsecond),
          if_neg (not_not_intro hthird), (hrun z).1]
      · refine ⟨⟨.fault (.unexpectedToken third), 2⟩, by simp, fun z _ => ?_⟩
        rw [List.cons_append, List.cons_append, lineSlash, if_neg (not_not_intro hsecond),
          if_pos hthird]
  · exact ⟨_, by simp, fun z _ => lineSlash_of_ne hsecond⟩

theorem lineStar_settles (star : Token) (hne : rest ≠ []) (h : Starless rest) :
    Settles (lineStar star) rest := by
  obtain ⟨run, closing, left, hrest, hrun⟩ := exists_behind_stars hne h
  obtain ⟨next, more, rfl⟩ := List.exists_cons_of_ne_nil hne
  by_cases hblank : next.kind = .whitespace
  · refine ⟨⟨.token (lineFeed star.offset), 1⟩, by simp, fun z _ => ?_⟩
    rw [List.cons_append, lineStar, if_pos hblank]
  by_cases hclose : next.kind = .slash ∨ next.kind = .star
  · have hlength := congrArg List.length hrest
    simp only [List.length_append, List.length_cons] at hlength
    have hstars : ∀ z, runLength .star (next :: (more ++ z)) = run.length ∧
        (next :: (more ++ z)).drop run.length = closing :: (left ++ z) := hrun
    by_cases hslash : closing.kind = .slash
    · refine ⟨⟨.token (outroAt star.offset), run.length + 1⟩, by simp; omega, fun z _ => ?_⟩
      simp only [List.cons_append, lineStar, hblank, hclose, ↓reduceIte, (hstars z).1,
        (hstars z).2, hslash]
    · refine ⟨⟨.fault (.unexpectedToken closing), run.length + 1⟩, by simp; omega, fun z _ => ?_⟩
      simp only [List.cons_append, lineStar, hblank, hclose, ↓reduceIte, (hstars z).1,
        (hstars z).2, hslash]
  · refine ⟨⟨.token (lineFeed star.offset), 0⟩, Nat.zero_le _, fun z _ => ?_⟩
    rw [List.cons_append, lineStar, if_neg hblank, if_neg hclose]

/-- The tokens are blanks, and a slash is the last of them. -/
def SlashLast (rest : List Token) : Prop :=
  ∃ blanks slash, rest = blanks ++ [slash] ∧ (∀ b ∈ blanks, b.kind = .whitespace) ∧
    slash.kind = .slash

theorem lineStart_settles (newline : Token) (hsolid : ∃ u ∈ rest, u.kind ≠ .whitespace)
    (hslash : ¬SlashLast rest) (h : Starless rest) : Settles (lineStart newline) rest := by
  obtain ⟨blanks, line, rfl, -, hblanks, hstop⟩ := runLength_split .whitespace rest
  cases line with
  | nil =>
    obtain ⟨u, hu, hkind⟩ := hsolid
    rw [List.append_nil] at hu
    exact absurd (hblanks u hu) hkind
  | cons next after =>
    have hnext := hstop next rfl
    have hbehind : Starless ((blanks ++ [next]) ++ after) := by simpa using h
    have hline : Starless (next :: after) := h.of_append
    have hall : ∀ z, blanks ++ next :: after ++ z = blanks ++ next :: (after ++ z) :=
      fun z => by simp
    have hof : ∀ {routine : List Token → Step}, Settles routine after →
        (∀ z, lineStart newline (blanks ++ next :: after ++ z) =
          ⟨(routine (after ++ z)).item, blanks.length + 1 + (routine (after ++ z)).taken⟩) →
        Settles (lineStart newline) (blanks ++ next :: after) := by
      rintro routine ⟨step, htaken, hroutine⟩ heq
      refine ⟨⟨step.item, blanks.length + 1 + step.taken⟩, by simp; omega, fun z hz => ?_⟩
      rw [heq, hroutine z hz]
    by_cases hnextSlash : next.kind = .slash
    · have hafter : after ≠ [] := by
        rintro rfl
        exact hslash ⟨blanks, next, rfl, hblanks, hnextSlash⟩
      refine hof (lineSlash_settles next hafter hbehind.of_append) fun z => ?_
      simp only [hall, lineStart_behind_blanks hblanks hnext, hnextSlash]
    by_cases hnextStar : next.kind = .star
    · have hafter : after ≠ [] := by
        rintro rfl
        exact hline next rfl hnextStar
      refine hof (lineStar_settles next hafter hbehind.of_append) fun z => ?_
      simp only [hall, lineStart_behind_blanks hblanks hnext, hnextStar]
    by_cases hend : next.kind = .endOfText
    · refine ⟨⟨.token next, blanks.length + 1⟩, by simp, fun z _ => ?_⟩
      simp only [hall, lineStart_behind_blanks hblanks hnext, hend]
    · refine ⟨⟨.token (lineFeed newline.offset), blanks.length⟩, by simp, fun z _ => ?_⟩
      simp only [hall, lineStart_behind_blanks hblanks hnext]

/-! ### Tags -/

theorem two_le_of_hasSuffix {word : Text} (h : hasSuffix word rest = true) : 2 ≤ rest.length := by
  obtain ⟨minus, suffix, more, rfl, -, -⟩ := hasSuffix_iff.mp h
  simp

/-- Neither a blank nor a star is a word that makes a tag longer. -/
theorem hasSuffix_settles {word : Text}
    (hword : word ∈ ["read".toList, "write".toList, "by".toList]) (hz : Shut z) :
    hasSuffix word (rest ++ z) = hasSuffix word rest := by
  obtain ⟨t, more, rfl, hkind, htext⟩ := hz.head
  match rest with
  | [] =>
    refine hasSuffix_of_ne fun hminus => ?_
    simp [hminus] at hkind
  | [minus] =>
    have hne : ∀ text ∈ [[' '], ['*']], Text.lower text ∉
      ["read".toList, "write".toList, "by".toList] := by decide
    show hasSuffix word (minus :: t :: more) = false
    rw [← Bool.not_eq_true]
    intro h
    obtain ⟨u, suffix, left, heq, -, hsuffix⟩ := hasSuffix_iff.mp h
    obtain ⟨rfl, -⟩ := List.cons.inj (List.cons.inj heq).2
    exact hne t.text (by simpa using htext) (hsuffix ▸ hword)
  | minus :: suffix :: rest => rfl

theorem propertyTag_settles (offset : Nat) (rest : List Token) :
    (propertyTag offset rest).taken ≤ rest.length + 1 ∧
      ∀ z, Shut z → propertyTag offset (rest ++ z) = propertyTag offset rest := by
  constructor
  · unfold propertyTag
    split
    case isTrue h => exact Nat.succ_le_succ (two_le_of_hasSuffix h)
    case isFalse =>
      split
      case isTrue h => exact Nat.succ_le_succ (two_le_of_hasSuffix h)
      case isFalse => exact Nat.le_add_left 1 _
  · intro z hz
    rw [propertyTag, propertyTag, hasSuffix_settles (by simp) hz, hasSuffix_settles (by simp) hz]

theorem usedByTag_settles (offset : Nat) (rest : List Token) :
    (usedByTag offset rest).taken ≤ rest.length + 1 ∧
      ∀ z, Shut z → usedByTag offset (rest ++ z) = usedByTag offset rest := by
  constructor
  · unfold usedByTag
    split
    case isTrue h => exact Nat.succ_le_succ (two_le_of_hasSuffix h)
    case isFalse =>
      split
      case isTrue h =>
        cases rest with
        | nil => cases h
        | cons => exact Nat.succ_le_succ (Nat.le_add_left 1 _)
      case isFalse => exact Nat.le_add_left 1 _
  · intro z hz
    have hminus : (rest ++ z).head?.any (·.kind = .minus) = rest.head?.any (·.kind = .minus) := by
      cases rest with
      | cons => rfl
      | nil =>
        obtain ⟨t, more, rfl, hkind, -⟩ := hz.head
        rcases hkind with hkind | hkind <;> simp [hkind]
    rw [usedByTag, usedByTag, hasSuffix_settles (by simp) hz, hminus]

theorem atSign_settles (first : Token) (rest : List Token) : Settles (atSign first) rest := by
  cases rest with
  | nil =>
    refine ⟨⟨.token { first with kind := .string }, 0⟩, Nat.le_refl 0, fun z hz => ?_⟩
    obtain ⟨t, more, rfl, hkind, -⟩ := hz.head
    have hstring : t.kind ≠ .string := by rcases hkind with hkind | hkind <;> simp [hkind]
    simp only [List.nil_append, atSign, if_neg hstring]
  | cons word after =>
    simp only [Settles, List.cons_append, List.length_cons, atSign]
    split
    case h_1 => exact ⟨_, Nat.zero_le _, fun _ _ => rfl⟩
    case h_2 =>
      exact ⟨_, (propertyTag_settles first.offset after).1,
        (propertyTag_settles first.offset after).2⟩
    case h_3 =>
      exact ⟨_, (usedByTag_settles first.offset after).1, (usedByTag_settles first.offset after).2⟩
    case h_4 => exact ⟨_, Nat.le_add_left 1 _, fun _ _ => rfl⟩

/-- A step in front of the end of a comment, unless it takes blanks up to there, or a slash that
begins the line is the last character in front of it. -/
theorem step_settles (hsolid : first.kind = .whitespace ∨ first.kind = .newline →
      ∃ u ∈ rest, u.kind ≠ .whitespace)
    (hslash : first.kind = .newline → ¬SlashLast rest) (h : Starless (first :: rest)) :
    Settles (step first) rest := by
  have hrest : Starless ([first] ++ rest) := h
  have hbehind := hrest.of_append
  unfold Settles step
  split
  case h_1 hk => exact mergeRun_settles (.inr (hk ▸ hsolid (.inl hk)))
  case h_2 hk => exact mergeRun_settles (.inl hk)
  case h_3 hk => exact lineStart_settles first (hsolid (.inr hk)) (hslash hk) hbehind
  case h_4 => exact atSign_settles first rest
  case h_5 => exact slash_settles hbehind
  case h_6 hk =>
    refine stars_settles ?_ hbehind
    rintro rfl
    exact h first rfl hk
  case h_7 => exact ⟨⟨.token first, 0⟩, Nat.zero_le _, fun _ _ => rfl⟩

/-! ## The items of both ends -/

/-- The raw tokens of a closing delimiter, and the mark of the end. -/
def rawClose (n : Nat) : List Token :=
  [⟨.star, ['*'], n⟩, ⟨.slash, ['/'], n + 1⟩, ⟨.endOfText, [], n + 2⟩]

def rawBlank (n : Nat) : Token := ⟨.whitespace, [' '], n⟩

theorem isBlank_rawBlank (n : Nat) : ∀ c ∈ (rawBlank n).text, isBlank c = true := by
  intro c hc
  obtain rfl := List.mem_singleton.mp hc
  decide

theorem shut_close (n : Nat) : Shut (rawClose n) := .star rfl rfl rfl

theorem shut_blank (n : Nat) (more : List Token) : Shut (rawBlank n :: more) := .blank rfl rfl

theorem tokenizeFrom_close (n : Nat) : tokenizeFrom 0 n "*/".toList = rawClose n := by
  show tokenizeFrom 0 n ('*' :: ['/']) = _
  rw [tokenizeFrom_punctuation .star rfl, tokenizeFrom_punctuation .slash rfl]
  rfl

theorem tokenizeFrom_blank (n : Nat) :
    tokenizeFrom 0 n " */".toList = rawBlank n :: rawClose (n + 1) := by
  show tokenizeFrom 0 n (' ' :: "*/".toList) = _
  rw [tokenizeFrom_space, tokenizeFrom_close]
  rfl

/-- The tokens end in a line with a slash and nothing else. -/
def SlashLine (raws : List Token) : Prop :=
  ∃ front newline rest, raws = front ++ newline :: rest ∧ newline.kind = .newline ∧ SlashLast rest

theorem SlashLine.append (front : List Token) (h : SlashLine rest) : SlashLine (front ++ rest) := by
  obtain ⟨before, newline, behind, rfl, hkind, hslash⟩ := h
  exact ⟨front ++ before, newline, behind, (List.append_assoc _ _ _).symm, hkind, hslash⟩

/-- The closing delimiter at an offset behind some blanks. -/
def endingAt (blanks : List Token)
    (hblanks : ∀ t ∈ blanks, t.kind = .whitespace ∧ ∀ c ∈ t.text, isBlank c = true) (n : Nat) :
    CommentEnd :=
  ⟨blanks, outroAt n, ⟨.endOfText, [], n + 2⟩, hblanks, rfl, rfl, rfl, rfl⟩

theorem itemsFrom_close (n : Nat) :
    itemsFrom 0 (rawClose n) = (endingAt [] (List.forall_mem_nil _) n).tokens.map .token := rfl

section Ends

variable {blanks : List Token} (hblanks : ∀ u ∈ blanks, u.kind = .whitespace)

include hblanks

/-- A line break, and nothing but blanks between it and the closing delimiter. -/
theorem itemsFrom_line (hkind : first.kind = .newline) (n : Nat) :
    itemsFrom 0 (first :: (blanks ++ rawClose n)) =
    (endingAt [] (List.forall_mem_nil _) n).tokens.map .token := by
  have hlength : runLength .whitespace (blanks ++ rawClose n) = blanks.length :=
    runLength_append hblanks fun u hu => by
      obtain rfl := Option.some.inj hu
      simp
  have hstep : step first (blanks ++ rawClose n) = ⟨.token (outroAt n), blanks.length + 2⟩ := by
    rw [step, hkind]
    simp only [lineStart, hlength, List.drop_left]
    rfl
  rw [itemsFrom_cons, hstep, List.drop_length_add_append]
  rfl

/-- Blanks, up to the closing delimiter. -/
theorem itemsFrom_blanks_close (hkind : first.kind = .whitespace) (n : Nat) :
    itemsFrom 0 (first :: (blanks ++ rawClose n)) =
      .token ⟨.whitespace, concat (first :: blanks), first.offset⟩ :: itemsFrom 0 (rawClose n) := by
  have hnext : ∀ u ∈ (rawClose n).head?, u.kind ≠ first.kind := by
    intro u hu
    obtain rfl := Option.some.inj hu
    simp [hkind]
  rw [itemsFrom_cons, step_run (.inl hkind) (by rwa [hkind]) hnext, hkind, List.drop_left]

end Ends

/-- The ending with one blank token, which is a run of blanks. -/
theorem blank_run {run : List Token} (hrun : ∀ u ∈ run, ∀ c ∈ u.text, isBlank c = true)
    (offset : Nat) :
    ∀ t ∈ [(⟨.whitespace, concat run, offset⟩ : Token)], t.kind = .whitespace ∧
    ∀ c ∈ t.text, isBlank c = true := by
  intro t ht
  obtain rfl := List.mem_singleton.mp ht
  refine ⟨rfl, fun c hc => ?_⟩
  obtain ⟨u, hu, hc⟩ := List.mem_flatMap.mp hc
  exact hrun u hu c hc

/-- Where the raw tokens end in blanks, one blank more makes no other item of them than a longer
one. -/
theorem endings_of_blanks (n : Nat) (hraws : ∀ u ∈ first :: rest, IsRaw u)
    (hfirst : first.kind = .whitespace ∨ first.kind = .newline)
    (hrest : ∀ u ∈ rest, u.kind = .whitespace) :
    ∃ e e' : CommentEnd, (e'.blanks = [] → e.blanks = []) ∧
      itemsFrom 0 (first :: (rest ++ rawClose n)) = e.tokens.map .token ∧
      itemsFrom 0 (first :: (rest ++ rawBlank n :: rawClose (n + 1))) = e'.tokens.map .token := by
  have hlonger : ∀ u ∈ rest ++ [rawBlank n], u.kind = .whitespace := by
    rw [List.forall_mem_append]
    exact ⟨hrest, by simp [rawBlank]⟩
  rw [List.append_cons]
  rcases hfirst with hfirst | hfirst
  · have hkinds : ∀ u ∈ first :: rest, u.kind = .whitespace :=
      List.forall_mem_cons.mpr ⟨hfirst, hrest⟩
    have hrun : ∀ u ∈ first :: rest, ∀ c ∈ u.text, isBlank c = true := by
      intro u hu c hc
      obtain ⟨d, htext, hblank, -⟩ := (hraws u hu).text_of_blank (hkinds u hu)
      rw [htext, List.mem_singleton] at hc
      rwa [hc]
    have hlongerRun : ∀ u ∈ first :: (rest ++ [rawBlank n]), ∀ c ∈ u.text, isBlank c = true := by
      rw [← List.cons_append, List.forall_mem_append]
      exact ⟨hrun, by simpa using isBlank_rawBlank n⟩
    refine ⟨endingAt _ (blank_run hrun first.offset) n,
      endingAt _ (blank_run hlongerRun first.offset) (n + 1),
      fun h => absurd h (List.cons_ne_nil _ _), ?_, ?_⟩
    · rw [itemsFrom_blanks_close hrest hfirst, itemsFrom_close]
      rfl
    · rw [itemsFrom_blanks_close hlonger hfirst, itemsFrom_close]
      rfl
  · exact ⟨_, _, fun _ => rfl, itemsFrom_line hrest hfirst n, itemsFrom_line hlonger hfirst (n + 1)⟩

/-- With a blank in front of the closing delimiter or without, the items are the same up to the
blanks. -/
theorem exists_endings (n : Nat) {raws : List Token} (hraws : ∀ u ∈ raws, IsRaw u)
    (hstar : Starless raws) (hslash : ¬SlashLine raws) :
    ∃ (all : List Item) (e e' : CommentEnd), (e'.blanks = [] → e.blanks = []) ∧
      itemsFrom 0 (raws ++ rawClose n) = all ++ e.tokens.map .token ∧
      itemsFrom 0 (raws ++ rawBlank n :: rawClose (n + 1)) = all ++ e'.tokens.map .token := by
  induction raws using suffix_induction with
  | nil =>
    have hblank : ∀ t ∈ [rawBlank n], t.kind = .whitespace ∧ ∀ c ∈ t.text, isBlank c = true := by
      simpa using ⟨rfl, isBlank_rawBlank n⟩
    exact ⟨[], endingAt [] (List.forall_mem_nil _) n, endingAt [rawBlank n] hblank (n + 1), fun _ =>
      rfl, rfl, rfl⟩
  | cons first rest ih =>
    by_cases hblanks : (first.kind = .whitespace ∨ first.kind = .newline) ∧
      ∀ u ∈ rest, u.kind = .whitespace
    · obtain ⟨e, e', hends, hitems, hitems'⟩ := endings_of_blanks n hraws hblanks.1 hblanks.2
      exact ⟨[], e, e', hends, hitems, hitems'⟩
    · have hsolid : first.kind = .whitespace ∨ first.kind = .newline →
          ∃ u ∈ rest, u.kind ≠ .whitespace := by
        intro hkind
        have hnotAll : ¬∀ u ∈ rest, u.kind = .whitespace := fun h => hblanks ⟨hkind, h⟩
        simpa using hnotAll
      obtain ⟨next, htaken, hnext⟩ :=
        step_settles hsolid (fun hk h => hslash ⟨[], first, rest, rfl, hk, h⟩) hstar
      have hsplit : first :: rest = (first :: rest.take next.taken) ++ rest.drop next.taken := by
        simp
      obtain ⟨all, e, e', hends, hitems, hitems'⟩ := ih _ _ hsplit (List.cons_ne_nil _ _)
        (fun u hu => hraws u (by rw [hsplit]; exact List.mem_append_right _ hu))
        (by rw [hsplit] at hstar; exact hstar.of_append)
        (fun h => hslash (by rw [hsplit]; exact h.append _))
      refine ⟨next.item :: all, e, e', hends, ?_, ?_⟩
      · rw [List.cons_append, itemsFrom_cons, hnext _ (shut_close n),
          List.drop_append_of_le_length htaken, hitems]
        rfl
      · rw [List.cons_append, itemsFrom_cons, hnext _ (shut_blank n _),
          List.drop_append_of_le_length htaken, hitems']
        rfl

end DocComment.Screening
