import DocComment.Proofs.Token.Partition

/-!
# Raw tokens from characters

Where no carriage return is near, a character alone decides the kind of the raw token it begins, and
a run of characters of one kind becomes a run of tokens of that kind. So the raw tokens of a text
can be taken off it from the left, one run at a time, whatever comes after.
-/

namespace DocComment

/-- A list begins with a run of what passes a test, which ends at something else or with
the list. -/
theorem split_run {α : Type} (test : α → Bool) (all : List α) :
    ∃ run left, all = run ++ left ∧ all.takeWhile test = run ∧ (∀ a ∈ run, test a = true) ∧
      ∀ a ∈ left.head?, test a = false := by
  refine ⟨all.takeWhile test, all.dropWhile test, List.takeWhile_append_dropWhile.symm, rfl,
    fun a ha => List.all_eq_true.mp List.all_takeWhile a ha, fun a ha => ?_⟩
  have h := List.head?_dropWhile_not test all
  rw [Option.mem_def.mp ha] at h
  simpa using h

namespace Token

open Text (isLetter isBlank)

/-- The kind of a raw token that begins with the character, which is no carriage return. -/
def kindOf (c : Char) : Kind :=
  if isLetter c then .string
  else if c = '\n' then .newline
  else if isBlank c then .whitespace
  else (Kind.ofPunctuation? c).getD .string

/-- A text does not begin with the character. -/
def Unless (c : Char) (s : Text) : Prop := ∀ d ∈ s.head?, d ≠ c

variable {c : Char} {rest s run : Text} {k : Kind} {offset : Nat}

theorem lineBreak_of_ne (hc : c ≠ '\r') (hfeed : c ≠ '\n') : lineBreak (c :: rest) = [] := by
  unfold lineBreak
  split <;> simp_all

theorem lineBreak_of_feed (hrest : Unless '\r' rest) : lineBreak ('\n' :: rest) = ['\n'] := by
  cases rest with
  | nil => rfl
  | cons d rest =>
    have hd : d ≠ '\r' := hrest d rfl
    unfold lineBreak
    split <;> simp_all

theorem first_of_letter (hc : isLetter c = true) :
    first offset c rest = ⟨.string, c :: rest.takeWhile isLetter, offset⟩ := by
  rw [first, if_pos hc]

theorem first_of_not_letter (hc : isLetter c = false) (hreturn : c ≠ '\r')
    (hfeed : c = '\n' → Unless '\r' rest) : first offset c rest = ⟨kindOf c, [c], offset⟩ := by
  have hletter : ¬ isLetter c = true := by simp [hc]
  rw [first, kindOf, if_neg hletter, if_neg hletter]
  by_cases hnewline : c = '\n'
  · obtain rfl := hnewline
    rw [lineBreak_of_feed (hfeed rfl), if_pos (by simp), if_pos rfl]
  · rw [lineBreak_of_ne hreturn hnewline, if_neg (by simp), if_neg hnewline]
    split <;> rfl

theorem kindOf_of_letter (hc : isLetter c = true) : kindOf c = .string := if_pos hc

theorem not_letter_of_kindOf (hc : kindOf c ≠ .string) : isLetter c = false :=
  Bool.eq_false_iff.mpr fun hletter => hc (kindOf_of_letter hletter)

/-- The kind of an ASCII character is found without the table of the letters. -/
theorem kindOf_of_ascii (h : c.toNat < 128) (hc : c.isAlpha = false) :
    kindOf c = if c = '\n' then .newline else if isBlank c then .whitespace
      else (Kind.ofPunctuation? c).getD .string := by
  rw [kindOf, Text.isLetter_of_ascii h, hc]
  exact if_neg Bool.false_ne_true

theorem eq_feed_of_kindOf (h : kindOf c = .newline) : c = '\n' := by
  unfold kindOf at h
  split at h
  · cases h
  · split at h
    case isTrue hc => exact hc
    case isFalse =>
      split at h
      · cases h
      · unfold Kind.ofPunctuation? at h
        split at h <;> cases h

theorem isBlank_of_kindOf (h : kindOf c = .whitespace ∨ kindOf c = .newline) :
    isBlank c = true := by
  rcases h with h | h
  · unfold kindOf at h
    split at h
    · cases h
    · split at h
      · cases h
      · split at h
        case isTrue hc => exact hc
        case isFalse =>
          unfold Kind.ofPunctuation? at h
          split at h <;> cases h
  · obtain rfl := eq_feed_of_kindOf h
    decide

theorem tokenizeFrom_letters (hrun : ∀ d ∈ run, isLetter d = true) (hne : run ≠ [])
    (hs : ∀ d ∈ s.head?, isLetter d = false) :
    tokenizeFrom 0 offset (run ++ s) =
      ⟨.string, run, offset⟩ :: tokenizeFrom 0 (offset + run.length) s := by
  cases run with
  | nil => exact absurd rfl hne
  | cons c run =>
    rw [List.forall_mem_cons] at hrun
    have htake : (run ++ s).takeWhile isLetter = run := by
      rw [List.takeWhile_append_of_pos hrun.2]
      cases s with
      | nil => simp
      | cons d s => simp [hs d rfl]
    have hfirst := @first_of_letter c (run ++ s) offset hrun.1
    rw [htake] at hfirst
    rw [List.cons_append, tokenizeFrom_cons, hfirst, ← List.cons_append, List.drop_left]

theorem tokenizeFrom_single (hc : isLetter c = false) (hreturn : c ≠ '\r')
    (hfeed : c = '\n' → Unless '\r' s) :
    tokenizeFrom 0 offset (c :: s) = ⟨kindOf c, [c], offset⟩ :: tokenizeFrom 0 (offset + 1) s := by
  rw [tokenizeFrom_cons, first_of_not_letter hc hreturn hfeed]
  rfl

theorem tokenizeFrom_sign (hkind : kindOf c = k) (hk : k ≠ .string) (hreturn : c ≠ '\r')
    (hfeed : c = '\n' → Unless '\r' s) :
    tokenizeFrom 0 offset (c :: s) = ⟨k, [c], offset⟩ :: tokenizeFrom 0 (offset + 1) s := by
  rw [tokenizeFrom_single (not_letter_of_kindOf (hkind ▸ hk)) hreturn hfeed, hkind]

/-- The raw tokens of a run of characters are of one kind, and end where the run ends. -/
def RunOf (k : Kind) (offset : Nat) (run s : Text) : Prop :=
  ∃ raws, tokenizeFrom 0 offset (run ++ s) = raws ++ tokenizeFrom 0 (offset + run.length) s ∧
    concat raws = run ∧ (∀ t ∈ raws, t.kind = k) ∧ ∀ t ∈ raws.head?, t.offset = offset

theorem RunOf.append {own : Text} (hfirst : tokenizeFrom 0 offset (own ++ (run ++ s)) =
      ⟨k, own, offset⟩ :: tokenizeFrom 0 (offset + own.length) (run ++ s))
    (h : RunOf k (offset + own.length) run s) : RunOf k offset (own ++ run) s := by
  obtain ⟨raws, hraws, hconcat, hkinds, -⟩ := h
  refine ⟨⟨k, own, offset⟩ :: raws, ?_, ?_, ?_, by simp⟩
  · rw [List.append_assoc, hfirst, hraws, List.length_append, ← Nat.add_assoc, List.cons_append]
  · rw [concat_cons, hconcat]
  · rw [List.forall_mem_cons]
    exact ⟨rfl, hkinds⟩

/-- A run of characters of one kind becomes a run of tokens of that kind. -/
theorem tokenizeFrom_run (offset : Nat) (hrun : ∀ d ∈ run, kindOf d = k ∧ d ≠ '\r')
    (hk : k ≠ .newline) (hs : ∀ d ∈ s.head?, kindOf d ≠ k) : RunOf k offset run s := by
  induction run using suffix_induction generalizing offset with
  | nil => exact ⟨[], rfl, rfl, by simp, by simp⟩
  | cons c tail ih =>
    obtain ⟨⟨hkind, hreturn⟩, htail⟩ := List.forall_mem_cons.mp hrun
    cases hletter : isLetter c with
    | true =>
      obtain rfl : .string = k := (kindOf_of_letter hletter).symm.trans hkind
      -- the letters at the head of the run are one token, and the rest of the run goes on
      obtain ⟨more, left, rfl, -, hmore, hleft⟩ := split_run isLetter tail
      have hstop : ∀ d ∈ (left ++ s).head?, isLetter d = false := by
        intro d hd
        cases left with
        | nil => exact not_letter_of_kindOf (hs d hd)
        | cons e left => exact hleft d hd
      have hletters : ∀ d ∈ c :: more, isLetter d = true := by
        rw [List.forall_mem_cons]
        exact ⟨hletter, hmore⟩
      have hrest := ih (c :: more) left rfl (by simp) (offset + (c :: more).length) fun d hd =>
        htail d (by simp [hd])
      exact .append (tokenizeFrom_letters hletters (by simp) hstop) hrest
    | false =>
      have hfeed : c = '\n' → Unless '\r' (tail ++ s) := by
        rintro rfl
        exact absurd hkind.symm (by simpa [kindOf, hletter] using hk)
      have hfirst : tokenizeFrom 0 offset ([c] ++ (tail ++ s)) =
          ⟨k, [c], offset⟩ :: tokenizeFrom 0 (offset + [c].length) (tail ++ s) := by
        rw [← hkind]
        exact tokenizeFrom_single hletter hreturn hfeed
      exact .append hfirst (ih [c] tail rfl (by simp) (offset + 1) htail)

/-- The first raw token has the kind of the first character. -/
theorem kind_head_tokenizeFrom (hreturn : c ≠ '\r') (hfeed : c = '\n' → Unless '\r' s) :
    ∀ t ∈ (tokenizeFrom 0 offset (c :: s)).head?, t.kind = kindOf c := by
  intro t ht
  rw [tokenizeFrom_cons, List.head?_cons, Option.mem_some_iff] at ht
  subst ht
  cases hletter : isLetter c with
  | true => rw [first_of_letter hletter, kindOf_of_letter hletter]
  | false => rw [first_of_not_letter hletter hreturn hfeed]

end Token

end DocComment
