import DocComment.Proofs.Screening.SameLine
import DocComment.Proofs.Screening.Step

/-!
# Two steps of screening side by side

Two steps over raw tokens that are the same up to the next line break give the same item, but for
where it is, and take as many tokens. `StepPair` says this of two steps, and also that a step that
gives a token has not gone past the line break: only a faulty step does.
-/

namespace DocComment.Screening

/-- Two steps give the same and take as many tokens, none of them behind the line if they give a
token. -/
structure StepPair (T : Token → Token → Prop) (line : Nat) (step step' : Step) : Prop where
  item : Item.Pair T step.item step'.item
  taken : step.taken = step'.taken
  within : ∀ t, step.item = .token t → step.taken ≤ line

/-- A faulty step may go past the line break. -/
theorem StepPair.of_fault {T : Token → Token → Prop} {cause cause' : Cause} {line taken : Nat}
    (h : cause.Pair T cause') : StepPair T line ⟨.fault cause, taken⟩ ⟨.fault cause', taken⟩ where
  item := .fault h
  taken := rfl
  within _ ht := by cases ht

/-- The same two steps, behind tokens of the line that have been taken already. -/
theorem StepPair.behind {T : Token → Token → Prop} {line front whole : Nat} {step step' : Step}
    (h : StepPair T line step step') (hwhole : whole = front + line) :
    StepPair T whole ⟨step.item, front + step.taken⟩ ⟨step'.item, front + step'.taken⟩ where
  item := h.item
  taken := by rw [h.taken]
  within t ht := hwhole ▸ Nat.add_le_add_left (h.within t ht) front

section Pairs

variable {T : Token → Token → Prop} (hT : ∀ {t u}, T t u → t.Twin u) {first first' : Token}
  {ts us rest rest' after after' : List Token}

include hT

/-! ## Runs, slashes and stars -/

theorem mergeRun_pair (hfirst : first.Alike first') (hkind : first.kind ≠ .newline)
    (h : SameLine T rest rest') :
    StepPair T (lineLength rest) (mergeRun first rest) (mergeRun first' rest') := by
  obtain ⟨hlength, htext, -⟩ := h.run hT hkind
  have hrun := lineLength_run hkind rest
  rw [runLength] at hrun
  refine ⟨.token ⟨hfirst.kind, ?_⟩, ?_, fun _ _ => ?_⟩
  · rw [hfirst.text, htext, hfirst.kind]
  · rw [runLength, runLength] at hlength
    rw [mergeRun, mergeRun, ← hfirst.kind]
    exact hlength
  · rw [mergeRun]
    exact hrun ▸ Nat.le_add_right _ _

theorem lineSlash_pair (slash slash' : Token) (h : SameLine T after after') :
    StepPair T (lineLength after) (lineSlash slash after) (lineSlash slash' after') := by
  cases h with
  | nil => exact .of_fault .unexpectedEnd
  | @cons first first' more more' hfirst hmore =>
    have hsame := (hT hfirst).kind
    by_cases hstar : first.kind = .star
    · have hstar' : first'.kind = .star := hsame ▸ hstar
      have hline : first.kind ≠ .newline := by simp [hstar]
      cases hmore hline with
      | nil =>
        simp only [lineSlash, hstar, hstar', ne_eq, not_true_eq_false, ↓reduceIte]
        exact .of_fault .unexpectedEnd
      | @cons second second' tail tail' hsecond htail =>
        by_cases hstars : second.kind = .star
        · have hstars' : second'.kind = .star := (hT hsecond).kind ▸ hstars
          have hnext : second.kind ≠ .newline := by simp [hstars]
          obtain ⟨hlength, -, -⟩ := (htail hnext).run hT (by decide : Kind.star ≠ .newline)
          simp only [lineSlash, hstar, hstar', hstars, hstars', ne_eq,
            not_true_eq_false, ↓reduceIte]
          refine ⟨.token ⟨rfl, rfl⟩, by rw [hlength], fun _ _ => ?_⟩
          rw [lineLength_cons hline, lineLength_cons hnext,
            lineLength_run (by decide : Kind.star ≠ .newline)]
          dsimp only
          omega
        · have hstars' : second'.kind ≠ .star := (hT hsecond).kind ▸ hstars
          simp only [lineSlash, hstar, hstar', hstars, hstars', ne_eq, not_true_eq_false,
            not_false_eq_true, ↓reduceIte]
          exact .of_fault (.unexpectedToken hsecond)
    · have hstar' : first'.kind ≠ .star := hsame ▸ hstar
      rw [lineSlash_of_ne hstar, lineSlash_of_ne hstar']
      exact .of_fault (.unexpectedToken hfirst)

theorem lineStar_pair (star star' : Token) (h : SameLine T after after') :
    StepPair T (lineLength after) (lineStar star after) (lineStar star' after') := by
  obtain ⟨hlength, -, hdrop⟩ := h.run hT (by decide : Kind.star ≠ .newline)
  have hrun := lineLength_run (by decide : Kind.star ≠ .newline) after
  cases h with
  | nil => exact .of_fault .unexpectedEnd
  | @cons next next' more more' hnext hmore =>
    have hsame := (hT hnext).kind
    simp only [lineStar, ← hsame]
    split
    case isTrue hblank =>
      refine ⟨.token ⟨rfl, rfl⟩, rfl, fun _ _ => ?_⟩
      rw [lineLength_cons (by simp [hblank])]
      exact Nat.le_add_left _ _
    case isFalse =>
      split
      case isFalse => exact ⟨.token ⟨rfl, rfl⟩, rfl, fun _ _ => Nat.zero_le _⟩
      case isTrue =>
        rw [← hlength] at hdrop ⊢
        generalize runLength .star (next :: more) = stars at hdrop hrun ⊢
        generalize (next :: more).drop stars = left at hdrop hrun ⊢
        generalize (next' :: more').drop stars = left' at hdrop ⊢
        cases hdrop with
        | nil => exact .of_fault .unexpectedEnd
        | @cons closing closing' tail tail' hclosing _ =>
          simp only [← (hT hclosing).kind]
          split
          case isTrue hslash =>
            refine ⟨.token ⟨rfl, rfl⟩, rfl, fun _ _ => ?_⟩
            rw [hrun, lineLength_cons (by simp [hslash])]
            dsimp only
            omega
          case isFalse => exact .of_fault (.unexpectedToken hclosing)

theorem slash_pair (hfirst : first.Alike first') (h : SameLine T rest rest') :
    StepPair T (lineLength rest) (Screening.slash first rest) (Screening.slash first' rest') := by
  have hstring :
      Item.Pair T (.token { first with kind := .string })
        (.token { first' with kind := .string }) :=
    .token ⟨rfl, hfirst.text⟩
  have hnone : ∀ {line : Nat}, StepPair T line ⟨.token { first with kind := .string }, 0⟩
      ⟨.token { first' with kind := .string }, 0⟩ := ⟨hstring, rfl, fun _ _ => Nat.zero_le _⟩
  cases h with
  | nil => exact hnone
  | @cons second second' more more' hsecond hmore =>
    by_cases hstar : second.kind = .star
    · have hline : second.kind ≠ .newline := by simp [hstar]
      cases hmore hline with
      | nil => exact hnone
      | @cons third third' tail tail' hthird htail =>
        simp only [Screening.slash, ← (hT hsecond).kind, ← (hT hthird).kind]
        split
        case isFalse => exact hnone
        case isTrue hstars =>
          have hnext : third.kind ≠ .newline := by simp [hstars.2]
          obtain ⟨hlength, -, -⟩ := (htail hnext).run hT (by decide : Kind.star ≠ .newline)
          refine ⟨.token ⟨rfl, rfl⟩, by rw [hlength], fun _ _ => ?_⟩
          rw [lineLength_cons hline, lineLength_cons hnext,
            lineLength_run (by decide : Kind.star ≠ .newline)]
          dsimp only
          omega
    · rw [slash_of_ne hstar, slash_of_ne ((hT hsecond).kind ▸ hstar)]
      exact hnone

theorem stars_pair (h : SameLine T rest rest') :
    StepPair T (lineLength rest) (stars first rest) (stars first' rest') := by
  obtain ⟨hlength, -, hdrop⟩ := h.run hT (by decide : Kind.star ≠ .newline)
  have hrun := lineLength_run (by decide : Kind.star ≠ .newline) rest
  simp only [stars]
  rw [← hlength] at hdrop ⊢
  generalize runLength .star rest = more at hdrop hrun ⊢
  generalize rest.drop more = left at hdrop hrun ⊢
  generalize rest'.drop more = left' at hdrop ⊢
  have hstring : StepPair T (lineLength rest)
      ⟨.token ⟨.string, List.replicate (more + 1) '*', first.offset⟩, more⟩
      ⟨.token ⟨.string, List.replicate (more + 1) '*', first'.offset⟩, more⟩ :=
    ⟨.token ⟨rfl, rfl⟩, rfl, fun _ _ => hrun ▸ Nat.le_add_right _ _⟩
  cases hdrop with
  | nil => exact hstring
  | @cons next next' tail tail' hnext _ =>
    simp only [← (hT hnext).kind]
    split
    case isFalse => exact hstring
    case isTrue hslash =>
      refine ⟨.token ⟨rfl, rfl⟩, rfl, fun _ _ => ?_⟩
      rw [hrun, lineLength_cons (by simp [hslash])]
      dsimp only
      omega

/-- A line break takes the blanks behind it, and what begins the line. -/
theorem lineStart_pair (newline newline' : Token) (h : SameLine T rest rest') :
    StepPair T (lineLength rest) (lineStart newline rest) (lineStart newline' rest') := by
  obtain ⟨hlength, -, hdrop⟩ := h.run hT (by decide : Kind.whitespace ≠ .newline)
  have hrun := lineLength_run (by decide : Kind.whitespace ≠ .newline) rest
  simp only [lineStart]
  rw [← hlength] at hdrop ⊢
  generalize runLength .whitespace rest = blanks at hdrop hrun ⊢
  generalize rest.drop blanks = left at hdrop hrun ⊢
  generalize rest'.drop blanks = left' at hdrop ⊢
  cases hdrop with
  | nil => exact ⟨.token ⟨rfl, rfl⟩, rfl, fun _ _ => hrun ▸ Nat.le_add_right _ _⟩
  | @cons next next' after after' hnext hafter =>
    simp only [← (hT hnext).kind]
    split
    case h_1 hslash =>
      have hline : next.kind ≠ .newline := by simp [hslash]
      refine (lineSlash_pair hT next next' (hafter hline)).behind ?_
      rw [hrun, lineLength_cons hline, Nat.add_right_comm, Nat.add_assoc]
    case h_2 hstar =>
      have hline : next.kind ≠ .newline := by simp [hstar]
      refine (lineStar_pair hT next next' (hafter hline)).behind ?_
      rw [hrun, lineLength_cons hline, Nat.add_right_comm, Nat.add_assoc]
    case h_3 hend =>
      have hline : next.kind ≠ .newline := by simp [hend]
      refine ⟨.token ⟨(hT hnext).kind, (hT hnext).text hline⟩, rfl, fun _ _ => ?_⟩
      rw [hrun, lineLength_cons hline]
      dsimp only
      omega
    case h_4 => exact ⟨.token ⟨rfl, rfl⟩, rfl, fun _ _ => hrun ▸ Nat.le_add_right _ _⟩

/-! ## Tags -/

/-- A known word is no line break, so a suffix stands on the line. -/
theorem hasSuffix_pair (word : Text) (hword : ∀ text ∈ Token.lineBreaks, text.lower ≠ word)
    (h : SameLine T rest rest') :
    hasSuffix word rest = hasSuffix word rest' ∧
    (hasSuffix word rest = true → 2 ≤ lineLength rest) := by
  cases h with
  | nil => exact ⟨rfl, fun hfalse => absurd hfalse Bool.false_ne_true⟩
  | @cons minus minus' more more' hminus hmore =>
    by_cases hkind : minus.kind = .minus
    · have hkind' : minus'.kind = .minus := (hT hminus).kind ▸ hkind
      have hline : minus.kind ≠ .newline := by simp [hkind]
      cases hmore hline with
      | nil => exact ⟨rfl, fun hfalse => absurd hfalse Bool.false_ne_true⟩
      | @cons suffix suffix' tail tail' hsuffix _ =>
        -- here a word is looked at before its kind is known; it may be a line break, but then it is
        -- no suffix
        by_cases hnext : suffix.kind = .newline
        · obtain ⟨hbreak, hbreak'⟩ := (hT hsuffix).newline hnext
          simp [hasSuffix, hword _ hbreak, hword _ hbreak']
        · rw [lineLength_cons hline, lineLength_cons hnext]
          refine ⟨?_, fun _ => by omega⟩
          rw [hasSuffix, hasSuffix, (hT hsuffix).text hnext, hkind, hkind']
    · have hkind' : minus'.kind ≠ .minus := (hT hminus).kind ▸ hkind
      rw [hasSuffix_of_ne hkind, hasSuffix_of_ne hkind']
      exact ⟨rfl, fun hfalse => absurd hfalse Bool.false_ne_true⟩

theorem propertyTag_pair {offset offset' : Nat} (h : SameLine T rest rest') :
    StepPair T (lineLength rest + 1) (propertyTag offset rest) (propertyTag offset' rest') := by
  obtain ⟨hread, hreadLine⟩ := hasSuffix_pair hT "read".toList (by decide) h
  obtain ⟨hwrite, hwriteLine⟩ := hasSuffix_pair hT "write".toList (by decide) h
  simp only [propertyTag, ← hread, ← hwrite]
  split
  case isTrue hsuffix =>
    exact ⟨.token ⟨rfl, rfl⟩, rfl, fun _ _ => Nat.succ_le_succ (hreadLine hsuffix)⟩
  case isFalse =>
    split
    case isTrue hsuffix =>
      exact ⟨.token ⟨rfl, rfl⟩, rfl, fun _ _ => Nat.succ_le_succ (hwriteLine hsuffix)⟩
    case isFalse => exact ⟨.token ⟨rfl, rfl⟩, rfl, fun _ _ => Nat.le_add_left _ _⟩

theorem usedByTag_pair {offset offset' : Nat} (h : SameLine T rest rest') :
    StepPair T (lineLength rest + 1) (usedByTag offset rest) (usedByTag offset' rest') := by
  obtain ⟨hby, hbyLine⟩ := hasSuffix_pair hT "by".toList (by decide) h
  have hminus : rest.head?.any (·.kind = .minus) = rest'.head?.any (·.kind = .minus) ∧
      (rest.head?.any (·.kind = .minus) = true → 1 ≤ lineLength rest) := by
    cases h with
    | nil => exact ⟨rfl, nofun⟩
    | cons hfirst _ =>
      simp only [List.head?_cons, Option.any_some, ← (hT hfirst).kind, decide_eq_true_eq, true_and]
      intro hkind
      rw [lineLength_cons (by simp [hkind])]
      exact Nat.le_add_left _ _
  simp only [usedByTag, ← hby, ← hminus.1]
  split
  case isTrue hsuffix =>
    exact ⟨.token ⟨rfl, rfl⟩, rfl, fun _ _ => Nat.succ_le_succ (hbyLine hsuffix)⟩
  case isFalse =>
    split
    case isTrue hsign =>
      exact ⟨.token ⟨rfl, rfl⟩, rfl, fun _ _ => Nat.succ_le_succ (hminus.2 hsign)⟩
    case isFalse => exact ⟨.token ⟨rfl, rfl⟩, rfl, fun _ _ => Nat.le_add_left _ _⟩

theorem atSign_pair (hfirst : first.Alike first') (h : SameLine T rest rest') :
    StepPair T (lineLength rest) (atSign first rest) (atSign first' rest') := by
  have hstring : ∀ {line : Nat}, StepPair T line ⟨.token { first with kind := .string }, 0⟩
      ⟨.token { first' with kind := .string }, 0⟩ :=
    ⟨.token ⟨rfl, hfirst.text⟩, rfl, fun _ _ => Nat.zero_le _⟩
  cases h with
  | nil => exact hstring
  | @cons word word' after after' hword hafter =>
    simp only [atSign, ← (hT hword).kind]
    by_cases hkind : word.kind = .string
    · have hline : word.kind ≠ .newline := by simp [hkind]
      rw [if_pos hkind, if_pos hkind, ← (hT hword).text hline, lineLength_cons hline]
      split
      case h_1 => exact hstring
      case h_2 => exact propertyTag_pair hT (hafter hline)
      case h_3 => exact usedByTag_pair hT (hafter hline)
      case h_4 => exact ⟨.token ⟨rfl, rfl⟩, rfl, fun _ _ => Nat.le_add_left _ _⟩
    · rw [if_neg hkind, if_neg hkind]
      exact hstring

/-! ## Steps -/

/-- Two steps over raw tokens that are related up to the next line break. -/
theorem step_pair (hfirst : T first first') (h : SameLine T rest rest') :
    StepPair T (lineLength rest) (step first rest) (step first' rest') := by
  have hsame := (hT hfirst).kind
  have halike : first.kind ≠ .newline → first.Alike first' :=
    fun hline => ⟨hsame, (hT hfirst).text hline⟩
  simp only [step, ← hsame]
  split
  case h_1 hkind => exact mergeRun_pair hT (halike (by simp [hkind])) (by simp [hkind]) h
  case h_2 hkind => exact mergeRun_pair hT (halike (by simp [hkind])) (by simp [hkind]) h
  case h_3 => exact lineStart_pair hT first first' h
  case h_4 hkind => exact atSign_pair hT (halike (by simp [hkind])) h
  case h_5 hkind => exact slash_pair hT (halike (by simp [hkind])) h
  case h_6 => exact stars_pair hT h
  case h_7 hline _ _ _ => exact ⟨.token (halike hline), rfl, fun _ _ => Nat.zero_le _⟩

/-- Raw tokens that are related one by one are screened to items that are. -/
theorem itemsFrom_pair (h : List.Forall₂ T ts us) (skip : Nat) :
    List.Forall₂ (Item.Pair T) (itemsFrom skip ts) (itemsFrom skip us) := by
  induction h generalizing skip with
  | nil =>
    simp only [itemsFrom]
    exact .nil
  | cons hfirst hrest ih =>
    cases skip with
    | succ skip => exact ih skip
    | zero =>
      have hstep := step_pair hT hfirst (.of_forall₂ hrest)
      rw [itemsFrom, itemsFrom, ← hstep.taken]
      exact .cons hstep.item (ih _)

end Pairs

end DocComment.Screening
