import DocComment.Proofs.Screening.Step

/-!
# Where screening fails

Only the beginning of a line can be at fault. It is where, behind blanks, it looks like a delimiter
and is none: a slash that no two stars follow, or two stars and more that no slash follows. Every
routine reads ahead, but no step takes a line break other than the one it begins with, so each line
break of a text is met as the beginning of a line, and the first line at fault is the one that
screening reports.
-/

namespace DocComment

/-- A run at the head of a list, and what follows it, are known from the list. -/
theorem run_append_inj {α : Type} {p : α → Prop} {run left more rest : List α}
    (h : run ++ left = more ++ rest) (hrun : ∀ a ∈ run, p a) (hleft : ∀ a ∈ left.head?, ¬p a)
    (hmore : ∀ a ∈ more, p a) (hrest : ∀ a ∈ rest.head?, ¬p a) : run = more ∧ left = rest := by
  obtain ⟨front, rfl, rfl⟩ | ⟨front, rfl, rfl⟩ := List.append_eq_append_iff.mp h
  · cases front with
    | nil => exact ⟨(List.append_nil run).symm, rfl⟩
    | cons a front => exact absurd (hmore a (by simp)) (hleft a rfl)
  · cases front with
    | nil => exact ⟨List.append_nil more, rfl⟩
    | cons a front => exact absurd (hrun a (by simp)) (hrest a rfl)

namespace Screening

open Token (Partition tokenize)

/-- Two stars come first. -/
def OnTwoStars (line : List Token) : Prop :=
  ∃ second third rest, line = second :: third :: rest ∧ second.kind = .star ∧ third.kind = .star

/-- The tokens begin like a delimiter, and are none. The run of stars is as long as can be. -/
inductive FalseDelimiter : List Token → Prop where
  | slash {slash : Token} {rest : List Token} (hslash : slash.kind = .slash)
      (hstars : ¬OnTwoStars rest) : FalseDelimiter (slash :: rest)
  | stars {stars rest : List Token} (hstars : ∀ u ∈ stars, u.kind = .star)
      (hmany : 2 ≤ stars.length)
      (hmaximal : ∀ u ∈ rest.head?, u.kind ≠ .star) (hopen : ∀ u ∈ rest.head?, u.kind ≠ .slash) :
      FalseDelimiter (stars ++ rest)

/-- The token is the first that does not fit the delimiter that the tokens begin like. -/
inductive BrokenBy (t : Token) : List Token → Prop where
  | second {slash : Token} {rest : List Token} (hslash : slash.kind = .slash)
      (ht : t.kind ≠ .star) : BrokenBy t (slash :: t :: rest)
  | third {slash star : Token} {rest : List Token} (hslash : slash.kind = .slash)
      (hstar : star.kind = .star) (ht : t.kind ≠ .star) : BrokenBy t (slash :: star :: t :: rest)
  | behindStars {stars rest : List Token} (hstars : ∀ u ∈ stars, u.kind = .star)
      (hmany : 2 ≤ stars.length)
      (ht : t.kind ≠ .star) (hopen : t.kind ≠ .slash) : BrokenBy t (stars ++ t :: rest)

/-- The property holds of the tokens behind some of the blanks that come first. -/
def BehindBlanks (P : List Token → Prop) (rest : List Token) : Prop :=
  ∃ blanks line, rest = blanks ++ line ∧ (∀ b ∈ blanks, b.kind = .whitespace) ∧ P line

/-- A line break that a false delimiter follows behind blanks, with the raw tokens around it. -/
structure FaultyLine (raws before : List Token) (newline : Token) (rest : List Token) : Prop where
  split : raws = before ++ newline :: rest
  newline : newline.kind = .newline
  faulty : BehindBlanks FalseDelimiter rest

/-- The first faulty line of some raw tokens, and the token that breaks it. -/
structure FirstFault (raws before : List Token) (newline : Token) (rest : List Token) (t : Token) :
    Prop extends FaultyLine raws before newline rest where
  broken : BehindBlanks (BrokenBy t) rest
  earliest : ∀ before' newline' rest', FaultyLine raws before' newline' rest' →
    before.length ≤ before'.length

variable {first newline next t : Token} {blanks line taken left rest after raws before : List Token}
  {offset : Nat} {s source : Text} {e : SyntaxError}

/-! ## False delimiters -/

theorem BrokenBy.falseDelimiter (h : BrokenBy t line) : FalseDelimiter line := by
  cases h with
  | second hslash ht =>
    refine .slash hslash ?_
    rintro ⟨second, third, more, heq, hsecond, -⟩
    exact ht ((List.cons.inj heq).1 ▸ hsecond)
  | third hslash hstar ht =>
    refine .slash hslash ?_
    rintro ⟨second, third, more, heq, -, hthird⟩
    exact ht ((List.cons.inj (List.cons.inj heq).2).1 ▸ hthird)
  | behindStars hstars hmany ht hopen =>
    exact .stars hstars hmany (by simpa using ht) (by simpa using hopen)

theorem BehindBlanks.imp {P Q : List Token → Prop} (h : BehindBlanks P rest)
    (himp : ∀ line, P line → Q line) :
    BehindBlanks Q rest := by
  obtain ⟨blanks, line, hrest, hblanks, hline⟩ := h
  exact ⟨blanks, line, hrest, hblanks, himp line hline⟩

/-- A false delimiter begins with a slash or with two stars. -/
theorem FalseDelimiter.cases_cons (h : FalseDelimiter line) :
    (∃ slash rest, line = slash :: rest ∧ slash.kind = .slash ∧ ¬OnTwoStars rest) ∨
      ∃ star stars rest, line = star :: (stars ++ rest) ∧ star.kind = .star ∧ stars ≠ [] ∧
        (∀ u ∈ stars, u.kind = .star) ∧ (∀ u ∈ rest.head?, u.kind ≠ .star) ∧
        ∀ u ∈ rest.head?, u.kind ≠ .slash := by
  cases h with
  | slash hslash hstars => exact .inl ⟨_, _, rfl, hslash, hstars⟩
  | @stars stars rest hstars hmany hmaximal hopen =>
    match stars with
    | star :: second :: stars =>
      obtain ⟨hstar, hstars⟩ := List.forall_mem_cons.mp hstars
      exact .inr ⟨star, second :: stars, rest, rfl, hstar, by simp, hstars, hmaximal, hopen⟩

theorem FalseDelimiter.head (h : FalseDelimiter line) :
    ∃ t ∈ line.head?, t.kind = .slash ∨ t.kind = .star := by
  obtain ⟨slash, rest, rfl, hslash, -⟩ | ⟨star, stars, rest, rfl, hstar, -⟩ := h.cases_cons
  · exact ⟨slash, rfl, .inl hslash⟩
  · exact ⟨star, rfl, .inr hstar⟩

/-- Behind all blanks there is only one place for a false delimiter. -/
theorem BehindBlanks.falseDelimiter (h : BehindBlanks FalseDelimiter (blanks ++ line))
    (hblanks : ∀ b ∈ blanks, b.kind = .whitespace)
    (hline : ∀ u ∈ line.head?, u.kind ≠ .whitespace) :
    FalseDelimiter line := by
  obtain ⟨blanks', line', heq, hblanks', hfalse⟩ := h
  obtain ⟨t, ht, hkind⟩ := hfalse.head
  have hline' : ∀ u ∈ line'.head?, u.kind ≠ .whitespace := by
    intro u hu
    rw [Option.mem_unique hu ht]
    rcases hkind with hkind | hkind <;> simp [hkind]
  obtain ⟨-, rfl⟩ := run_append_inj heq hblanks hline hblanks' hline'
  exact hfalse

/-- Stars are a false delimiter if there is more than one, and no slash follows the last. -/
theorem falseDelimiter_stars {star : Token} {stars : List Token}
    (h : FalseDelimiter (star :: (stars ++ left)))
    (hstar : star.kind = .star) (hstars : ∀ u ∈ stars, u.kind = .star)
    (hleft : ∀ u ∈ left.head?, u.kind ≠ .star) :
    stars ≠ [] ∧ ∀ u ∈ left.head?, u.kind ≠ .slash := by
  obtain ⟨slash, rest, heq, hslash, -⟩ | ⟨star', stars', rest, heq, -, hmany, hstars', hmaximal,
    hopen⟩ := h.cases_cons
  · rw [← (List.cons.inj heq).1, hstar] at hslash
    cases hslash
  · obtain ⟨rfl, rfl⟩ := run_append_inj (List.cons.inj heq).2 hstars hleft hstars' hmaximal
    exact ⟨hmany, hopen⟩

/-! ## One step -/

/-- A step gives a token, and takes no line break behind the raw token it begins with. -/
structure KeepsLines (next : Step) (rest : List Token) : Prop where
  token : ∃ t, next.item = .token t
  taken : ∃ taken left, rest = taken ++ left ∧ rest.drop next.taken = left ∧
    ∀ u ∈ taken, u.kind ≠ .newline

theorem KeepsLines.of_nothing : KeepsLines ⟨.token t, 0⟩ rest :=
  ⟨⟨t, rfl⟩, [], rest, rfl, rfl, nofun⟩

theorem KeepsLines.of_taken {n : Nat} (hn : n = taken.length)
    (htaken : ∀ u ∈ taken, u.kind ≠ .newline) :
    KeepsLines ⟨.token t, n⟩ (taken ++ left) := by
  subst hn
  exact ⟨⟨t, rfl⟩, taken, left, rfl, List.drop_left, htaken⟩

theorem KeepsLines.of_one (hfirst : first.kind ≠ .newline) :
    KeepsLines ⟨.token t, 1⟩ (first :: rest) :=
  have hkinds : ∀ u ∈ [first], u.kind ≠ .newline := by simpa using hfirst
  .of_taken rfl hkinds

theorem KeepsLines.of_stars {run : List Token} {closing : Token} (hrun : ∀ u ∈ run, u.kind = .star)
    (hclosing : closing.kind = .slash) :
    KeepsLines ⟨.token t, run.length + 1⟩ (run ++ closing :: left) := by
  rw [List.append_cons]
  refine .of_taken (by simp) fun u hu => ?_
  rcases List.mem_append.mp hu with hu | hu
  · simp [hrun u hu]
  · simp [List.mem_singleton.mp hu, hclosing]

theorem mergeRun_keepsLines (hfirst : first.kind ≠ .newline) :
    KeepsLines (mergeRun first rest) rest := by
  obtain ⟨run, left, rfl, hsame, hstep⟩ := mergeRun_step first rest
  rw [hstep]
  refine .of_taken rfl fun u hu => ?_
  rwa [hsame u (List.mem_cons_of_mem first hu)]

theorem slash_keepsLines : KeepsLines (Screening.slash first rest) rest := by
  match rest with
  | [] | [_] => exact .of_nothing
  | second :: third :: more =>
    rw [Screening.slash]
    split
    case isFalse => exact .of_nothing
    case isTrue hstars =>
      obtain ⟨run, left, rfl, hlength, hrun, -⟩ := runLength_split .star more
      rw [hlength, ← List.cons_append, ← List.cons_append]
      refine .of_taken (by simp; omega) ?_
      simp only [List.forall_mem_cons]
      exact ⟨by simp [hstars.1], by simp [hstars.2], fun u hu => by simp [hrun u hu]⟩

theorem stars_keepsLines : KeepsLines (stars first rest) rest := by
  obtain ⟨run, left, rfl, hlength, hrun, -⟩ := runLength_split .star rest
  have hkinds : ∀ u ∈ run, u.kind ≠ .newline := fun u hu => by simp [hrun u hu]
  simp only [stars, hlength, List.drop_left]
  cases left with
  | nil => exact .of_taken rfl hkinds
  | cons next left =>
    dsimp only
    split
    case isFalse => exact .of_taken rfl hkinds
    case isTrue hclose => exact .of_stars hrun hclose

/-- The words that a tag takes behind a minus are no line breaks. -/
theorem kind_of_suffix {minus suffix : Token} {word : Text}
    (hlines : ∀ u ∈ minus :: suffix :: rest, u.kind = .newline →
      u.text ∈ Token.lineBreaks) (hsuffix : suffix.text.lower = word)
    (hword : word ∈ ["read".toList, "write".toList, "by".toList]) : suffix.kind ≠ .newline := by
  intro hkind
  have hbreaks :
      ∀ text ∈ Token.lineBreaks, Text.lower text ∉
        ["read".toList, "write".toList, "by".toList] := by
    decide
  exact hbreaks _ (hlines suffix (by simp) hkind) (hsuffix ▸ hword)

section
variable {word : Token} (hword : word.kind ≠ .newline)
  (hlines : ∀ u ∈ rest, u.kind = .newline → u.text ∈ Token.lineBreaks)

include hword

include hlines

theorem keepsLines_suffix {text : Text}
    (htext : text ∈ ["read".toList, "write".toList, "by".toList]) (h : hasSuffix text rest = true) :
    KeepsLines ⟨.token t, 3⟩ (word :: rest) := by
  obtain ⟨minus, suffix, more, rfl, hminus, hsuffix⟩ := hasSuffix_iff.mp h
  have hkinds : ∀ u ∈ [word, minus, suffix], u.kind ≠ .newline := by
    simp only [List.forall_mem_cons]
    exact ⟨hword, by simp [hminus], kind_of_suffix hlines hsuffix htext, nofun⟩
  exact .of_taken rfl hkinds

theorem propertyTag_keepsLines : KeepsLines (propertyTag offset rest) (word :: rest) := by
  unfold propertyTag
  split
  case isTrue hread => exact keepsLines_suffix hword hlines (by simp) hread
  case isFalse =>
    split
    case isTrue hwrite => exact keepsLines_suffix hword hlines (by simp) hwrite
    case isFalse => exact .of_one hword

theorem usedByTag_keepsLines : KeepsLines (usedByTag offset rest) (word :: rest) := by
  unfold usedByTag
  split
  case isTrue hby => exact keepsLines_suffix hword hlines (by simp) hby
  case isFalse =>
    split
    case isFalse => exact .of_one hword
    case isTrue hminus =>
      cases rest with
      | nil => simp at hminus
      | cons minus more =>
        have hminus : minus.kind = .minus := by simpa using hminus
        have hkinds : ∀ u ∈ [word, minus], u.kind ≠ .newline := by
          simp only [List.forall_mem_cons]
          exact ⟨hword, by simp [hminus], nofun⟩
        exact .of_taken rfl hkinds

end

theorem atSign_keepsLines (hlines : ∀ u ∈ rest, u.kind = .newline → u.text ∈ Token.lineBreaks) :
    KeepsLines (atSign first rest) rest := by
  cases rest with
  | nil => exact .of_nothing
  | cons word after =>
    by_cases hkind : word.kind = .string
    · have hword : word.kind ≠ .newline := by simp [hkind]
      have hlines := (List.forall_mem_cons.mp hlines).2
      simp only [atSign, hkind, ↓reduceIte]
      split
      case h_1 => exact .of_nothing
      case h_2 => exact propertyTag_keepsLines hword hlines
      case h_3 => exact usedByTag_keepsLines hword hlines
      case h_4 => exact .of_one hword
    · simp only [atSign, hkind, ↓reduceIte]
      exact .of_nothing

/-- A line break is met only where a step begins with it. -/
theorem step_keepsLines (h : Partition offset s (first :: rest)) (hfirst : first.kind ≠ .newline) :
    KeepsLines (step first rest) rest := by
  have hlines : ∀ u ∈ rest, u.kind = .newline → u.text ∈ Token.lineBreaks :=
    fun u hu => h.text_of_newline (List.mem_cons_of_mem first hu)
  unfold step
  split
  case h_1 | h_2 => exact mergeRun_keepsLines hfirst
  case h_3 hnewline => exact absurd hnewline hfirst
  case h_4 => exact atSign_keepsLines hlines
  case h_5 => exact slash_keepsLines
  case h_6 => exact stars_keepsLines
  case h_7 => exact .of_nothing

/-! ## A line break -/

/-- What a line break comes to: a fault at the raw token that breaks the line, or a token where the
line begins with no false delimiter. -/
def LineJudged (next : Step) (rest line : List Token) : Prop :=
  (∃ t, next.item = .fault (.unexpectedToken t) ∧ BrokenBy t line) ∨
    (¬FalseDelimiter line ∧ KeepsLines next rest)

theorem KeepsLines.cons {k : Nat} {item : Item} (hblanks : ∀ b ∈ blanks, b.kind = .whitespace)
    (hnext : next.kind ≠ .newline) (h : KeepsLines ⟨item, k⟩ after) :
    KeepsLines ⟨item, blanks.length + 1 + k⟩ (blanks ++ next :: after) := by
  obtain ⟨htoken, taken, left, rfl, hdrop, htaken⟩ := h
  refine ⟨htoken, blanks ++ next :: taken, left, by simp, ?_, ?_⟩
  · rw [Nat.add_assoc, List.drop_length_add_append, Nat.add_comm 1, List.drop_succ_cons]
    exact hdrop
  · intro u hu
    rcases List.mem_append.mp hu with hu | hu
    · simp [hblanks u hu]
    · rcases List.mem_cons.mp hu with rfl | hu
      · exact hnext
      · exact htaken u hu

/-- A slash that begins a line is at fault at the first of the two tokens behind it that is
no star. -/
theorem lineSlash_judged {slash : Token} (h : Partition offset s (slash :: after))
    (hslash : slash.kind = .slash) :
    LineJudged (lineSlash slash after) after (slash :: after) := by
  obtain ⟨-, s₁, -, h₁⟩ := h.of_head (by simp [hslash])
  match after with
  | [] => exact absurd rfl h₁.ne_nil
  | [second] =>
    have hsecond : second.kind ≠ .star := by
      rcases h₁.head_cases with ⟨rfl, -⟩ | ⟨-, _, -, hnil⟩
      · nofun
      · exact absurd rfl hnil.ne_nil
    exact .inl ⟨second, by rw [lineSlash, if_pos hsecond], .second hslash hsecond⟩
  | second :: third :: more =>
    by_cases hsecond : second.kind = .star
    · by_cases hthird : third.kind = .star
      · refine .inr ⟨fun hfalse => ?_, ?_⟩
        · obtain ⟨slash', rest, heq, -, hstars⟩ | ⟨star, stars, rest, heq, hstar, -⟩ :=
            hfalse.cases_cons
          · obtain ⟨-, rfl⟩ := List.cons.inj heq
            exact hstars ⟨second, third, more, rfl, hsecond, hthird⟩
          · rw [← (List.cons.inj heq).1, hslash] at hstar
            cases hstar
        · have hstep : lineSlash slash (second :: third :: more) =
              Screening.slash slash (second :: third :: more) := by
            simp [lineSlash, Screening.slash, hsecond, hthird]
          exact hstep ▸ slash_keepsLines
      · refine .inl ⟨third, ?_, .third hslash hsecond hthird⟩
        simp [lineSlash, hsecond, hthird]
    · exact .inl ⟨second, by rw [lineSlash, if_pos hsecond], .second hslash hsecond⟩

/-- A star that begins a line is at fault where more stars follow, and then no slash. -/
theorem lineStar_judged {star : Token} (h : Partition offset s (star :: after))
    (hstar : star.kind = .star) :
    LineJudged (lineStar star after) after (star :: after) := by
  obtain ⟨-, s₁, -, h₁⟩ := h.of_head (by simp [hstar])
  obtain ⟨stars, left, rfl, hlength, hstars, hstop⟩ := runLength_split .star after
  -- the mark of the end is no star, so something follows the stars
  obtain ⟨-, s₂, -, h₂⟩ := h₁.of_append fun u hu => by simp [hstars u hu]
  cases left with
  | nil => exact absurd rfl h₂.ne_nil
  | cons closing more =>
    have hclosing : closing.kind ≠ .star := hstop closing rfl
    cases stars with
    | nil =>
      refine .inr ⟨fun hfalse => (falseDelimiter_stars hfalse hstar hstars hstop).1 rfl, ?_⟩
      simp only [List.nil_append, lineStar, hclosing, or_false]
      split
      case isTrue hblank => exact .of_one (by simp [hblank])
      case isFalse =>
        split
        case isFalse => exact .of_nothing
        case isTrue hslash =>
          have hstars : runLength .star (closing :: more) = 0 := hlength
          simp only [hstars, List.drop_zero, hslash, ↓reduceIte]
          exact .of_one (by simp [hslash])
    | cons second stars =>
      have hsecond : second.kind = .star := hstars second (by simp)
      by_cases hslash : closing.kind = .slash
      · refine .inr
          ⟨fun hfalse => (falseDelimiter_stars hfalse hstar hstars hstop).2 closing rfl hslash, ?_⟩
        have hstep : lineStar star (second :: stars ++ closing :: more) =
            ⟨.token (outroAt star.offset), (second :: stars).length + 1⟩ := by
          simp only [List.cons_append] at hlength
          simp [lineStar, hsecond, hlength, hslash]
        rw [hstep]
        exact .of_stars hstars hslash
      · have hall : ∀ u ∈ star :: second :: stars, u.kind = .star :=
          List.forall_mem_cons.mpr ⟨hstar, hstars⟩
        refine .inl ⟨closing, ?_, .behindStars hall (by simp) hclosing hslash⟩
        simp only [List.cons_append] at hlength
        simp [lineStar, hsecond, hlength, hslash]

/-- The step at a line break judges the line behind it. -/
theorem lineStart_judged (h : Partition offset s (newline :: rest))
    (hnewline : newline.kind = .newline) :
    ((∃ t, (lineStart newline rest).item = .fault (.unexpectedToken t) ∧
      BehindBlanks (BrokenBy t) rest) ∨
      (¬BehindBlanks FalseDelimiter rest ∧ KeepsLines (lineStart newline rest) rest)) := by
  obtain ⟨blanks, next, after, behind, rfl, hblanks, hnext, -, -, htail⟩ :=
    exists_lineStart h hnewline
  have hstop : ∀ u ∈ (next :: after).head?, u.kind ≠ .whitespace := by
    rintro u ⟨⟩
    exact hnext
  rw [lineStart_behind_blanks hblanks hnext]
  split
  case h_1 hslash =>
    obtain ⟨t, hitem, hbroken⟩ | ⟨hfalse, hkeeps⟩ := lineSlash_judged htail hslash
    · exact .inl ⟨t, hitem, blanks, _, rfl, hblanks, hbroken⟩
    · exact .inr ⟨fun h => hfalse (h.falseDelimiter hblanks hstop),
        hkeeps.cons hblanks (by simp [hslash])⟩
  case h_2 hstar =>
    obtain ⟨t, hitem, hbroken⟩ | ⟨hfalse, hkeeps⟩ := lineStar_judged htail hstar
    · exact .inl ⟨t, hitem, blanks, _, rfl, hblanks, hbroken⟩
    · exact .inr ⟨fun h => hfalse (h.falseDelimiter hblanks hstop),
        hkeeps.cons hblanks (by simp [hstar])⟩
  case h_3 hend =>
    refine .inr ⟨fun h => ?_, KeepsLines.of_nothing.cons hblanks (by simp [hend])⟩
    obtain ⟨t, ht, hkind⟩ := (h.falseDelimiter hblanks hstop).head
    obtain rfl := Option.some.inj ht
    simp [hend] at hkind
  case h_4 hslash hstar _ =>
    refine .inr ⟨fun h => ?_, .of_taken rfl fun u hu => by simp [hblanks u hu]⟩
    obtain ⟨t, ht, hkind⟩ := (h.falseDelimiter hblanks hstop).head
    obtain rfl := Option.some.inj ht
    exact hkind.elim hslash hstar

/-- Only a line break can be at fault, and then the line behind it is. -/
theorem step_judged (h : Partition offset s (first :: rest)) :
    (∃ t, (step first rest).item = .fault (.unexpectedToken t) ∧ first.kind = .newline ∧
      BehindBlanks (BrokenBy t) rest) ∨
    (KeepsLines (step first rest) rest ∧
      ¬(first.kind = .newline ∧ BehindBlanks FalseDelimiter rest)) := by
  by_cases hfirst : first.kind = .newline
  · have hstep : step first rest = lineStart first rest := by simp [step, hfirst]
    rw [hstep]
    obtain ⟨t, hitem, hbroken⟩ | ⟨hfalse, hkeeps⟩ := lineStart_judged h hfirst
    · exact .inl ⟨t, hitem, hfirst, hbroken⟩
    · exact .inr ⟨hkeeps, fun hfaulty => hfalse hfaulty.2⟩
  · exact .inr ⟨step_keepsLines h hfirst, fun hfaulty => hfirst hfaulty.1⟩

/-! ## All steps -/

/-- A faulty line stands at the first of some raw tokens, or lies in what is left behind others
without a line break. -/
theorem FaultyLine.cons_cases (h : FaultyLine (first :: (taken ++ left)) before newline rest)
    (htaken : ∀ u ∈ taken, u.kind ≠ .newline) :
    (before = [] ∧ first.kind = .newline ∧ BehindBlanks FalseDelimiter (taken ++ left)) ∨
      ∃ front, before = first :: (taken ++ front) ∧ FaultyLine left front newline rest := by
  obtain ⟨hsplit, hnewline, hfaulty⟩ := h
  cases before with
  | nil =>
    obtain ⟨rfl, rfl⟩ := List.cons.inj hsplit
    exact .inl ⟨rfl, hnewline, hfaulty⟩
  | cons u before =>
    obtain ⟨rfl, hrest⟩ := List.cons.inj hsplit
    obtain ⟨front, rfl, hleft⟩ | ⟨front, rfl, hnext⟩ := List.append_eq_append_iff.mp hrest
    · exact .inr ⟨front, rfl, hleft, hnewline, hfaulty⟩
    · cases front with
      | nil => exact .inr ⟨[], by simp, hnext.symm, hnewline, hfaulty⟩
      | cons u front =>
        obtain ⟨rfl, -⟩ := List.cons.inj hnext
        exact absurd hnewline (htaken newline (by simp))

/-- The first fault in what is left is the first fault at all. -/
theorem FirstFault.cons (h : FirstFault left before newline rest t)
    (htaken : ∀ u ∈ taken, u.kind ≠ .newline)
    (hfirst : ¬(first.kind = .newline ∧ BehindBlanks FalseDelimiter (taken ++ left))) :
    FirstFault (first :: (taken ++ left)) (first :: (taken ++ before)) newline rest t where
  split := by simp [h.split]
  newline := h.newline
  faulty := h.faulty
  broken := h.broken
  earliest before' newline' rest' hline := by
    obtain ⟨-, hfaulty⟩ | ⟨front, rfl, hbehind⟩ := hline.cons_cases htaken
    · exact absurd hfaulty hfirst
    · have hle := h.earliest _ _ _ hbehind
      simp only [List.length_cons, List.length_append]
      omega

/-- The items are all tokens and no line is faulty, or the first fault among them is about the first
faulty line. -/
theorem itemsFrom_judged (h : Partition offset s raws) :
    ((∃ tokens : List Token, itemsFrom 0 raws = tokens.map .token) ∧
      ∀ before newline rest, ¬FaultyLine raws before newline rest) ∨
    ∃ (tokens : List Token) (t : Token) (more : List Item) (before : List Token) (newline : Token)
      (rest : List Token),
      itemsFrom 0 raws = tokens.map .token ++ .fault (.unexpectedToken t) :: more ∧
      FirstFault raws before newline rest t := by
  induction raws using step_induction generalizing offset s with
  | nil => exact absurd rfl h.ne_nil
  | cons first rest ih =>
    rw [itemsFrom_cons]
    obtain ⟨t, hitem, hfirst, hbroken⟩ | ⟨⟨⟨u, hitem⟩, taken, left, rfl, hdrop, htaken⟩, hfirst⟩ :=
      step_judged h
    · refine .inr ⟨[], t, itemsFrom 0 (rest.drop (step first rest).taken), [], first, rest, ?_, ?_⟩
      · rw [hitem]
        rfl
      · exact ⟨⟨rfl, hfirst, hbroken.imp fun _ => BrokenBy.falseDelimiter⟩, hbroken, fun _ _ _ _ =>
          Nat.zero_le _⟩
    rw [hdrop] at ih
    rw [hitem, hdrop]
    by_cases hnil : left = []
    · subst hnil
      refine .inl ⟨⟨[u], rfl⟩, fun before newline rest hline => ?_⟩
      obtain ⟨-, hfaulty⟩ | ⟨front, -, hsplit, -⟩ := hline.cons_cases htaken
      · exact hfirst hfaulty
      · simp at hsplit
    · obtain ⟨offset', s', hpartition⟩ := h.tail_drop (n := taken.length) (by rwa [List.drop_left])
      rw [List.drop_left] at hpartition
      obtain ⟨⟨tokens, htokens⟩, hlines⟩ | ⟨tokens, t, more, before, newline, rest, hitems,
        hfault⟩ := ih hpartition
      · refine .inl ⟨⟨u :: tokens, by rw [htokens]; rfl⟩, fun before newline rest hline => ?_⟩
        obtain ⟨-, hfaulty⟩ | ⟨front, -, hline⟩ := hline.cons_cases htaken
        · exact hfirst hfaulty
        · exact hlines _ _ _ hline
      · exact .inr ⟨u :: tokens, t, more, _, newline, rest, by rw [hitems]; rfl,
          hfault.cons htaken hfirst⟩

/-- The first fault among some items is the error that they make. -/
theorem mapM_token?_fault (comment : Text) (tokens : List Token) (cause : Cause)
    (more : List Item) :
    (tokens.map Item.token ++ .fault cause :: more).mapM (Item.token? comment) =
    .error ⟨cause, comment⟩ := by
  induction tokens with
  | nil =>
    rw [List.map_nil, List.nil_append, List.mapM_cons]
    rfl
  | cons t tokens ih =>
    rw [List.map_cons, List.cons_append, List.mapM_cons, ih]
    rfl

/-- Every text without a line feed can be screened. -/
theorem exists_screen (h : '\n' ∉ source) : ∃ tokens, screen source = .ok tokens := by
  have hpartition := Token.partition_tokenize source
  obtain ⟨⟨tokens, htokens⟩, -⟩ | ⟨_, _, _, before, newline, rest, -, hfault⟩ :=
    itemsFrom_judged hpartition
  · exact ⟨tokens, screen_eq_ok_iff.mpr htokens⟩
  · have hmem : newline ∈ tokenize source := by simp [hfault.split]
    have hbreaks : ∀ text ∈ Token.lineBreaks, '\n' ∈ text := by decide
    refine absurd ?_ h
    rw [← hpartition.concat_eq]
    exact List.mem_flatMap.mpr
      ⟨newline, hmem, hbreaks _ (hpartition.text_of_newline hmem hfault.newline)⟩

end Screening

open Screening

/-- A text fails to be screened exactly where one of its lines begins with a false delimiter. The
error is then about the raw token that breaks the first such line, and nothing else is ever
reported. -/
theorem screen_error_iff (source : Text) :
    ((∃ e, screen source = .error e) ↔
      ∃ before newline rest, FaultyLine (Token.tokenize source) before newline rest) ∧
    ∀ e, screen source = .error e →
      ∃ before newline rest t, FirstFault (Token.tokenize source) before newline rest t ∧
        e = ⟨.unexpectedToken t, source⟩ ∧ e.report.offset = some (t.offset : Int) := by
  obtain ⟨⟨tokens, htokens⟩, hlines⟩ | ⟨tokens, t, more, before, newline, rest, hitems, hfault⟩ :=
    itemsFrom_judged (Token.partition_tokenize source)
  · have hscreen : screen source = .ok tokens := screen_eq_ok_iff.mpr htokens
    refine ⟨⟨?_, ?_⟩, ?_⟩
    · rintro ⟨e, he⟩
      exact absurd (hscreen.symm.trans he) nofun
    · rintro ⟨before, newline, rest, hline⟩
      exact absurd hline (hlines _ _ _)
    · intro e he
      exact absurd (hscreen.symm.trans he) nofun
  · have hscreen : screen source = .error ⟨.unexpectedToken t, source⟩ := by
      rw [screen, items, hitems]
      exact mapM_token?_fault source tokens _ more
    refine ⟨⟨fun _ => ⟨before, newline, rest, hfault.toFaultyLine⟩, fun _ => ⟨_, hscreen⟩⟩,
      fun e he => ?_⟩
    obtain rfl : _ = e := Except.error.inj (hscreen.symm.trans he)
    exact ⟨before, newline, rest, t, hfault, rfl, rfl⟩

/-- A slash that begins the second line, and a letter behind it. -/
theorem screen_error_slash :
    screen "a\n /b".toList = .error ⟨.unexpectedToken ⟨.string, "b".toList, 4⟩, "a\n /b".toList⟩ ∧
    ∃ before newline rest t, FirstFault (Token.tokenize "a\n /b".toList) before newline rest t ∧
      (⟨.unexpectedToken ⟨.string, "b".toList, 4⟩, "a\n /b".toList⟩ : SyntaxError) =
        ⟨.unexpectedToken t, "a\n /b".toList⟩ ∧ some (4 : Int) = some (t.offset : Int) := by
  have hscreen : screen "a\n /b".toList =
      .error ⟨.unexpectedToken ⟨.string, "b".toList, 4⟩, "a\n /b".toList⟩ := by
    have hitems : items "a\n /b".toList = [⟨.string, "a".toList, 0⟩].map .token ++
        [.fault (.unexpectedToken ⟨.string, "b".toList, 4⟩), .token ⟨.endOfText, [], 5⟩] := by
          decide +kernel
    rw [screen, hitems]
    exact mapM_token?_fault _ _ _ _
  exact ⟨hscreen, (screen_error_iff _).2 _ hscreen⟩

end DocComment
