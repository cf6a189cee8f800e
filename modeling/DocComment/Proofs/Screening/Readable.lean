import DocComment.Proofs.Screening.Margin
import DocComment.Proofs.Screening.Segmentation

/-!
# The tokens that a reader can get

A reader that goes on behind a fault gets every token of the text, and a fault is never one of them.
`readable` lists these tokens. Wherever the faults were, what a reader relies on holds of them: a
sign is written as itself, most signs occur in no other token, only the mark of the end has no text,
and it comes last.
-/

namespace DocComment.Screening

open Text (isBlank)
open Token (IsRaw Partition concat kindOf isBlank_of_mem_lineBreaks)

/-- The token that an item is, if it is one. -/
def Item.screened? : Item → Option Token
  | .token t => some t
  | .fault _ => none

/-- The tokens among items, in order. -/
def readable (all : List Item) : List Token := all.filterMap Item.screened?

@[simp] theorem readable_append (front back : List Item) :
    readable (front ++ back) = readable front ++ readable back :=
  List.filterMap_append

@[simp] theorem readable_fault (cause : Cause) (all : List Item) :
    readable (.fault cause :: all) = readable all := rfl

@[simp] theorem readable_tokens (tokens : List Token) : readable (tokens.map .token) = tokens := by
  rw [readable, List.filterMap_map]
  exact List.filterMap_some

theorem mem_readable {all : List Item} {t : Token} : t ∈ readable all ↔ Item.token t ∈ all := by
  rw [readable, List.mem_filterMap]
  constructor
  · rintro ⟨item, hmem, ht⟩
    cases item with
    | token u =>
      obtain rfl := Option.some.inj ht
      exact hmem
    | fault cause => cases ht
  · intro hmem
    exact ⟨.token t, hmem, rfl⟩

/-- Where a text can be screened, its readable tokens are the screened ones. -/
theorem readable_of_screen {s : Text} {tokens : List Token} (h : screen s = .ok tokens) :
    readable (items s) = tokens := by
  rw [screen_eq_ok_iff.mp h, readable_tokens]

/-! ## Signs in raw tokens -/

variable {offset : Nat} {s : Text} {first t : Token} {rest raws tokens : List Token} {c : Char}
  {kind : Kind}

theorem isBlank_of_sign (h : kind.sign? = some c) : isBlank c = false := by
  unfold Kind.sign? at h
  split at h <;> first | (obtain rfl := Option.some.inj h; decide) | cases h

/-- A sign occurs in raw tokens of its own kind only. -/
theorem kind_of_sign_mem (h : IsRaw t) (hc : c ∈ t.text) (hsign : kind.sign? = some c) :
    t.kind = kind := by
  have hblank := isBlank_of_sign hsign
  have hkind := Token.kindOf_of_sign hsign
  cases h with
  | letters text _ _ letters => exact (Token.kindOf_of_letter (letters c hc)).symm.trans hkind
  | lineBreak text _ known =>
    rw [isBlank_of_mem_lineBreaks known c hc] at hblank
    cases hblank
  | blank d _ blank =>
    obtain rfl : c = d := List.mem_singleton.mp hc
    rw [blank] at hblank
    cases hblank
  | other d _ letter _ =>
    obtain rfl : c = d := List.mem_singleton.mp hc
    have hfeed : c ≠ '\n' := by
      rintro rfl
      exact absurd hblank (by decide)
    rw [← hkind, kindOf, if_neg (by simp [letter]), if_neg hfeed, if_neg (by simp [hblank])]

/-! ## Signs in screened tokens -/

/-- The signs that the text of a string or of a tag may hold. -/
def textSigns : List Kind := [.star, .slash, .atSign, .minus]

/-- No sign occurs in the token but its own, and those that may be text. -/
def Plain (t : Token) : Prop :=
  ∀ c ∈ t.text, ∀ kind : Kind, kind.sign? = some c → kind ∉ textSigns → t.kind = kind

/-- The texts of tags, and of strings that begin like one. -/
def tagTexts : List Text :=
  (TagName.all.map TagName.word ++ ["used".toList, "used-".toList]).map ('@' :: ·)

theorem plain_of_isRaw (h : IsRaw t) : Plain t :=
  fun _ hc _ hsign _ => kind_of_sign_mem h hc hsign

theorem sign_mem_textSigns (h : kind.sign? = some c) (hc : c ∈ ['*', '/', '@', '-']) :
    kind ∈ textSigns := by
  unfold Kind.sign? at h
  split at h <;> first | (obtain rfl := Option.some.inj h; revert hc; decide) | cases h

/-- A text of letters and of signs that may be text is plain. -/
theorem plain_of_all (h : t.text.all (fun c => c.isAlpha || c ∈ ['*', '/', '@', '-']) = true) :
    Plain t := by
  intro c hc kind hsign hkind
  have hchar := List.all_eq_true.mp h c hc
  rw [Bool.or_eq_true, decide_eq_true_eq] at hchar
  rcases hchar with hletter | hmem
  · have hstring := (Token.kindOf_of_letter (Text.isLetter_of_isAlpha hletter)).symm.trans
      (Token.kindOf_of_sign hsign)
    rw [← hstring] at hsign
    cases hsign
  · exact absurd (sign_mem_textSigns hsign hmem) hkind

theorem text_mem_tagTexts {text : Text} (h : Item.token ⟨kind, text, offset⟩ = .token t)
    (hmem : text ∈ tagTexts) : t.text ∈ tagTexts := by
  rw [← Item.token.inj h]
  exact hmem

theorem propertyTag_text (ht : (propertyTag offset rest).item = .token t) : t.text ∈ tagTexts := by
  unfold propertyTag at ht
  split at ht
  · exact text_mem_tagTexts ht (by decide)
  · split at ht
    · exact text_mem_tagTexts ht (by decide)
    · exact text_mem_tagTexts ht (by decide)

theorem usedByTag_text (ht : (usedByTag offset rest).item = .token t) : t.text ∈ tagTexts := by
  unfold usedByTag at ht
  split at ht
  · exact text_mem_tagTexts ht (by decide)
  · split at ht
    · exact text_mem_tagTexts ht (by decide)
    · exact text_mem_tagTexts ht (by decide)

/-- What an at sign becomes is the sign alone, or has a text that is known. -/
theorem atSign_text (ht : (atSign first rest).item = .token t) :
    t = { first with kind := .string } ∨ t.text ∈ tagTexts := by
  have hword : ∀ entry ∈ tagWords, entry.2 ≠ .usedBy → '@' :: entry.1 ∈ tagTexts := by decide
  match rest with
  | [] => exact .inl (Item.token.inj ht).symm
  | word :: after =>
    by_cases hkind : word.kind = .string
    · cases hlookup : tagWords.lookup word.text.lower with
      | none =>
        simp only [atSign, hkind, hlookup, ↓reduceIte, Item.token.injEq] at ht
        exact .inl ht.symm
      | some name =>
        right
        by_cases hproperty : name = .property
        · subst hproperty
          simp only [atSign, hkind, hlookup, ↓reduceIte] at ht
          exact propertyTag_text ht
        by_cases hused : name = .usedBy
        · subst hused
          simp only [atSign, hkind, hlookup, ↓reduceIte] at ht
          exact usedByTag_text ht
        simp only [atSign, hkind, hlookup, ↓reduceIte] at ht
        exact text_mem_tagTexts ht (hword _ (mem_tagWords_of_lookup hlookup) hused)
    · simp only [atSign, hkind, ↓reduceIte, Item.token.injEq] at ht
      exact .inl ht.symm

/-! ## One step -/

/-- The tokens that a step can give, from the raw token that it begins with. -/
inductive Given (first : Token) : Token → Prop
  | merged {run : List Token} (kind : first.kind = .whitespace ∨ first.kind = .string)
      (raw : ∀ u ∈ first :: run, IsRaw u) (same : ∀ u ∈ first :: run, u.kind = first.kind) :
      Given first ⟨first.kind, concat (first :: run), first.offset⟩
  | feed (offset : Nat) (kind : first.kind = .newline) : Given first (lineFeed offset)
  | intro (offset : Nat) : Given first (introAt offset)
  | outro (offset : Nat) : Given first (outroAt offset)
  | tag (name : TagName) {text : Text} (known : text ∈ tagTexts) :
      Given first ⟨.tag name, text, first.offset⟩
  | nearTag {text : Text} (known : text ∈ tagTexts) : Given first ⟨.string, text, first.offset⟩
  | signs (n : Nat) {c : Char} (sign : c ∈ ['@', '/', '*']) :
      Given first ⟨.string, List.replicate (n + 1) c, first.offset⟩
  | itself (raw : IsRaw first) (kind : first.kind ∉ [.whitespace, .newline]) : Given first first
  | last (offset : Nat) : Given first ⟨.endOfText, [], offset⟩

theorem mergeRun_given (h : Partition offset s (first :: rest))
    (hk : first.kind = .whitespace ∨ first.kind = .string)
    (ht : (mergeRun first rest).item = .token t) :
    Given first t := by
  obtain ⟨run, tail, rfl, hsame, hstep⟩ := mergeRun_step first rest
  rw [hstep] at ht
  rw [← Item.token.inj ht]
  exact .merged hk (isRaw_of_run h hk hsame) hsame

theorem lineStart_given (h : Partition offset s (first :: rest)) (hk : first.kind = .newline)
    (ht : (lineStart first rest).item = .token t) : Given first t := by
  obtain ⟨blanks, next, after, behind, rfl, hblanks, hnext, -, -, htail⟩ := exists_lineStart h hk
  rcases lineStart_token hblanks hnext ht with ⟨-, ht, -⟩ | ⟨-, ht, -⟩ | ⟨hend, rfl, -⟩ | ⟨rfl, -⟩
  · rw [(lineSlash_token ht).1]
    exact .intro _
  · rcases lineStar_token ht with ⟨rfl, -⟩ | ⟨rfl, -⟩ | ⟨rfl, -⟩
    · exact .feed _ hk
    · exact .feed _ hk
    · exact .outro _
  · rcases htail.head_cases with ⟨rfl, -⟩ | ⟨hraw, -⟩
    · exact .last _
    · exact absurd hend hraw.kind_ne_endOfText
  · exact .feed _ hk

/-- A sign that stands for itself. -/
theorem Given.alone (h : Partition offset s (first :: rest)) (hc : first.kind.sign? = some c)
    (hmem : c ∈ ['@', '/', '*']) : Given first { first with kind := .string } := by
  rw [h.text_of_sign List.mem_cons_self hc]
  exact .signs 0 hmem

theorem atSign_given (h : Partition offset s (first :: rest)) (hk : first.kind = .atSign)
    (ht : (atSign first rest).item = .token t) : Given first t := by
  have halone : Given first { first with kind := .string } := .alone h (by rw [hk]; rfl) (by decide)
  rcases atSign_text ht with rfl | hknown
  · exact halone
  rcases atSign_token h.text_of_minus ht with ⟨rfl, -⟩ | ⟨-, -, -, -, hoffset, -, hkind, -⟩
  · exact halone
  · obtain ⟨kind, text, place⟩ := t
    obtain rfl : place = first.offset := hoffset
    rcases hkind with ⟨name, rfl⟩ | ⟨rfl, -⟩
    · exact .tag name hknown
    · exact .nearTag hknown

theorem step_given (h : Partition offset s (first :: rest))
    (ht : (step first rest).item = .token t) :
    Given first t := by
  unfold step at ht
  split at ht
  case h_1 hk => exact mergeRun_given h (.inl hk) ht
  case h_2 hk => exact mergeRun_given h (.inr hk) ht
  case h_3 hk => exact lineStart_given h hk ht
  case h_4 hk => exact atSign_given h hk ht
  case h_5 hk =>
    rcases slash_token ht with ⟨rfl, -⟩ | ⟨rfl, -⟩
    · exact .intro _
    · exact .alone h (by rw [hk]; rfl) (by decide)
  case h_6 =>
    obtain ⟨run, tail, -, -, -, ⟨rfl, -⟩ | ⟨rfl, -⟩⟩ := stars_token ht
    · exact .outro _
    · exact .signs _ (by decide)
  case h_7 hblank _ hnewline _ _ _ =>
    obtain rfl := Item.token.inj ht
    rcases h.head_cases with ⟨rfl, -⟩ | ⟨hraw, -⟩
    · exact .last _
    · exact .itself hraw (by simpa using ⟨hblank, hnewline⟩)

theorem Given.plain (h : Given first t) : Plain t := by
  have hknown : ∀ text ∈ tagTexts, text.all (fun c => c.isAlpha || c ∈ ['*', '/', '@', '-']) =
    true := by decide
  cases h with
  | merged _ raw same =>
    intro c hc kind hsign _
    obtain ⟨u, hu, hc⟩ := List.mem_flatMap.mp hc
    exact (same u hu).symm.trans (kind_of_sign_mem (raw u hu) hc hsign)
  | feed =>
    intro c hc kind hsign _
    obtain rfl : c = '\n' := List.mem_singleton.mp hc
    exact absurd (isBlank_of_sign hsign) (by decide)
  | intro =>
    apply plain_of_all
    show List.all "/**".toList _ = true
    decide
  | outro =>
    apply plain_of_all
    show List.all "*/".toList _ = true
    decide
  | tag _ known | nearTag known => exact plain_of_all (hknown _ known)
  | @signs n c sign =>
    have hsigns : ['@', '/', '*'].all (fun d => d.isAlpha || d ∈ ['*', '/', '@', '-']) =
      true := by decide
    refine plain_of_all (List.all_eq_true.mpr fun d hd => ?_)
    rw [List.eq_of_mem_replicate hd]
    exact List.all_eq_true.mp hsigns c sign
  | itself raw => exact plain_of_isRaw raw
  | last =>
    intro c hc
    cases hc

/-! ## All steps -/

/-- What holds of the token of each step holds of the tokens among all items. -/
theorem forall_itemsFrom {P : Token → Prop}
    (hstep : ∀ {offset s first rest t}, Partition offset s (first :: rest) →
      (step first rest).item = .token t → P t)
    (h : Partition offset s raws) : ∀ t, Item.token t ∈ itemsFrom 0 raws → P t := by
  intro t hmem
  induction raws using step_induction generalizing offset s with
  | nil => exact absurd rfl h.ne_nil
  | cons first rest ih =>
    rw [itemsFrom_cons] at hmem
    rcases List.mem_cons.mp hmem with hitem | hmem
    · exact hstep h hitem.symm
    · have hne : rest.drop (step first rest).taken ≠ [] := by
        intro hnil
        rw [hnil] at hmem
        cases hmem
      obtain ⟨start, behind, hleft⟩ := h.tail_drop hne
      exact ih hleft hmem

/-- The token of a step is the mark of the end, or it is made of characters of the text. -/
theorem step_written (h : Partition offset s (first :: rest))
    (ht : (step first rest).item = .token t) :
    (t.kind = .endOfText ∧ t.text = []) ∨ ∃ own, Written t own := by
  rcases step_writes h ht with ⟨rfl, -⟩ | ⟨-, own, -, -, -, -, hwritten, -⟩
  · exact .inl ⟨rfl, rfl⟩
  · exact .inr ⟨own, hwritten⟩

/-- What a reader can rely on in the tokens it gets. -/
structure Sound (tokens : List Token) : Prop where
  sign : ∀ t ∈ tokens, ∀ c, t.kind.sign? = some c → t.text = [c]
  plain : ∀ t ∈ tokens, Plain t
  nonempty : ∀ t ∈ tokens, t.text = [] → t.kind = .endOfText
  last : ∀ before t after, tokens = before ++ t :: after → t.kind = .endOfText → after = []

theorem Sound.of_append {passed : List Token} (h : Sound (passed ++ tokens)) : Sound tokens where
  sign t ht := h.sign t (List.mem_append_right _ ht)
  plain t ht := h.plain t (List.mem_append_right _ ht)
  nonempty t ht := h.nonempty t (List.mem_append_right _ ht)
  last before t after heq := h.last (passed ++ before) t after (by rw [heq, List.append_assoc])

/-- What is left of the tokens is as good as they were. -/
theorem Sound.behind {taken : List Token} (h : Sound tokens) (heq : tokens = taken ++ rest) :
    Sound rest := by
  subst heq
  exact h.of_append

theorem Written.text_of_sign {own : Text} (h : Written t own) (hc : t.kind.sign? = some c) :
    t.text = [c] := by
  cases h with
  | sign kind d _ sign =>
    rw [sign] at hc
    rw [Option.some.inj hc]
  | _ => cases hc

theorem Written.text_ne_nil {own : Text} (h : Written t own) : t.text ≠ [] := by
  cases h with
  | sign => simp
  | blanks _ _ nonempty | string _ _ nonempty => exact nonempty
  | tag _ _ _ _ nonempty => exact nonempty
  | nearTag text _ _ near =>
    intro hnil
    obtain rfl : text = [] := hnil
    exact absurd near (by decide)
  | intro | outro | starredLine | bareLine => exact List.cons_ne_nil _ _

/-- The readable tokens of every text are sound, whether or not it can be screened. -/
theorem sound_readable (s : Text) : Sound (readable (items s)) where
  sign t ht c hc := by
    rcases forall_itemsFrom step_written (Token.partition_tokenize s) t (mem_readable.mp ht) with
      ⟨hend, -⟩ | ⟨own, hwritten⟩
    · rw [hend] at hc
      cases hc
    · exact hwritten.text_of_sign hc
  plain t ht :=
    forall_itemsFrom (fun h ht => (step_given h ht).plain) (Token.partition_tokenize s) t
      (mem_readable.mp ht)
  nonempty t ht hnil := by
    rcases forall_itemsFrom step_written (Token.partition_tokenize s) t (mem_readable.mp ht) with
      ⟨hend, -⟩ | ⟨own, hwritten⟩
    · exact hend
    · exact absurd hnil hwritten.text_ne_nil
  last before t after heq hend := by
    obtain ⟨front, back, hitems, -, hback⟩ := List.filterMap_eq_append_iff.mp heq
    obtain ⟨faults, item, behind, rfl, -, hitem, hbehind⟩ := List.filterMap_eq_cons_iff.mp hback
    cases item with
    | fault cause => cases hitem
    | token u =>
      obtain rfl := Option.some.inj hitem
      have hnone := itemsFrom_endOfText (Token.partition_tokenize s)
        (hitems.trans (List.append_assoc front faults _).symm) hend
      rw [hnone] at hbehind
      exact hbehind.symm

end DocComment.Screening
