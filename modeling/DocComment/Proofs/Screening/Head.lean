import DocComment.Proofs.Screening.Run

/-!
# The first item of a text

Screening takes the items off a text from the left: the opening delimiter, tags, one item for each
run of blanks, of stars or of the characters of strings, and one for each other sign. Each of them
is known from its own characters and from what the text behind it begins with, so these lemmas hold
whatever that text is.
-/

namespace DocComment

/-- The word of a tag after its at sign, in lower case. -/
def TagName.word : TagName → Text
  | .api => "api".toList | .author => "author".toList | .copyright => "copyright".toList
  | .deprecated => "deprecated".toList | .inheritDoc => "inheritdoc".toList
  | .internal => "internal".toList | .link => "link".toList | .method => "method".toList
  | .package => "package".toList | .param => "param".toList | .property => "property".toList
  | .propertyRead => "property-read".toList | .propertyWrite => "property-write".toList
  | .returns => "return".toList | .see => "see".toList | .since => "since".toList
  | .throws => "throws".toList | .todo => "todo".toList | .uses => "uses".toList
  | .usedBy => "used-by".toList | .var => "var".toList | .version => "version".toList

namespace Screening

open Token (Unless concat kindOf tokenizeFrom tokenizeFrom_run)

variable {c : Char} {u run : Text} {k : Kind} {offset : Nat}

theorem kindOf_feed : kindOf '\n' = .newline := Token.kindOf_of_ascii (by decide) (by decide)

theorem kindOf_space : kindOf ' ' = .whitespace := Token.kindOf_of_ascii (by decide) (by decide)

theorem kindOf_star : kindOf '*' = .star := Token.kindOf_of_sign rfl

theorem kindOf_slash : kindOf '/' = .slash := Token.kindOf_of_sign rfl

theorem tokenizeFrom_space (s : Text) :
    tokenizeFrom 0 offset (' ' :: s) =
      ⟨.whitespace, [' '], offset⟩ :: tokenizeFrom 0 (offset + 1) s :=
  Token.tokenizeFrom_sign kindOf_space (by simp) (by decide) fun h => absurd h (by decide)

/-- Punctuation is one raw token for each sign. -/
theorem tokenizeFrom_punctuation (k : Kind) (hc : k.sign? = some c) (s : Text) :
    tokenizeFrom 0 offset (c :: s) = ⟨k, [c], offset⟩ :: tokenizeFrom 0 (offset + 1) s := by
  have hstring : k ≠ .string := by
    rintro rfl
    cases hc
  have hblank : ∀ d, k.sign? = some d → d ≠ '\r' ∧ d ≠ '\n' := by
    intro d hd
    cases k <;> cases hd <;> decide
  exact Token.tokenizeFrom_sign (Token.kindOf_of_sign hc) hstring (hblank c hc).1
    fun h => absurd h (hblank c hc).2

/-! ## What a text begins with -/

/-- No carriage return is in the first raw token of the text, or next to it. -/
structure NoReturn (u : Text) : Prop where
  head : Unless '\r' u
  second : u.head? = some '\n' → Unless '\r' u.tail

theorem noReturn_of_head (h : ∀ c ∈ u.head?, c ≠ '\r' ∧ c ≠ '\n') : NoReturn u :=
  ⟨fun c hc => (h c hc).1, fun hfeed => absurd rfl (h _ hfeed).2⟩

/-- The first raw token of the text has the kind of the first character. -/
theorem NoReturn.kind_head (h : NoReturn u) :
    ∀ v ∈ (tokenizeFrom 0 offset u).head?, v.kind = .endOfText ∨
    ∃ c ∈ u.head?, v.kind = kindOf c := by
  cases u with
  | nil =>
    intro v hv
    obtain rfl := Option.mem_some_iff.mp hv
    exact .inl rfl
  | cons c u =>
    intro v hv
    refine .inr ⟨c, rfl, ?_⟩
    exact Token.kind_head_tokenizeFrom (h.head c rfl) (fun hc => h.second (by rw [hc]; rfl)) v hv

/-- A kind that the first character does not have is not that of the first raw token. -/
theorem NoReturn.kind_head_ne (h : NoReturn u) (hk : k ≠ .endOfText)
    (hu : ∀ c ∈ u.head?, kindOf c ≠ k) :
    ∀ v ∈ (tokenizeFrom 0 offset u).head?, v.kind ≠ k := by
  intro v hv
  rcases h.kind_head v hv with hkind | ⟨c, hc, hkind⟩
  · rw [hkind]
    exact hk.symm
  · rw [hkind]
    exact hu c hc

theorem exists_of_kind_star {v : Token} (hv : v ∈ (tokenizeFrom 0 offset u).head?)
    (hkind : v.kind = .star) :
    ∃ rest, u = '*' :: rest := by
  cases u with
  | nil =>
    obtain rfl := Option.mem_some_iff.mp hv
    cases hkind
  | cons c u =>
    rw [Token.tokenizeFrom_cons, List.head?_cons, Option.mem_some_iff] at hv
    have hstar := (hv ▸ Token.isRaw_first offset c u).text_of_sign (c := '*') (by rw [hkind]; rfl)
    obtain ⟨more, -, htext, -⟩ := Token.text_first offset c u
    rw [hv, hstar] at htext
    exact ⟨u, by rw [(List.cons.inj htext).1]⟩

/-! ## One step -/

/-- A run of raw tokens that are merged into one. -/
theorem step_run {first : Token} {run rest : List Token}
    (hk : first.kind = .whitespace ∨ first.kind = .string)
    (hrun : ∀ u ∈ run, u.kind = first.kind) (hrest : ∀ u ∈ rest.head?, u.kind ≠ first.kind) :
    step first (run ++ rest) =
      ⟨.token ⟨first.kind, concat (first :: run), first.offset⟩, run.length⟩ := by
  have htake : (run ++ rest).takeWhile (·.kind = first.kind) = run := by
    rw [List.takeWhile_append_of_pos (by simpa using hrun)]
    cases rest with
    | nil => simp
    | cons u rest => simp [hrest u rfl]
  have hstep : step first (run ++ rest) = mergeRun first (run ++ rest) := by
    rcases hk with hk | hk <;> simp [step, hk]
  rw [hstep, mergeRun, htake, Token.concat_cons]

/-- A run of stars that no slash ends is a string. -/
theorem step_stars {first : Token} {run rest : List Token} (hfirst : first.kind = .star)
    (hrun : ∀ u ∈ run, u.kind = .star) (hstar : ∀ u ∈ rest.head?, u.kind ≠ .star)
    (hslash : ∀ u ∈ rest.head?, u.kind ≠ .slash) :
    step first (run ++ rest) =
      ⟨.token ⟨.string, List.replicate (run.length + 1) '*', first.offset⟩, run.length⟩ := by
  simp only [step, hfirst, stars, runLength_append hrun hstar, List.drop_left]
  cases rest with
  | nil => rfl
  | cons next rest => simp only [if_neg (hslash next rfl)]

/-- A sign that screening leaves as it is. -/
theorem items_sign (hc : kindOf c ∉ [.whitespace, .string, .newline, .atSign, .slash, .star])
    (hreturn : c ≠ '\r') (u : Text) :
    itemsFrom 0 (tokenizeFrom 0 offset (c :: u)) =
      .token ⟨kindOf c, [c], offset⟩ :: itemsFrom 0 (tokenizeFrom 0 (offset + 1) u) := by
  simp only [List.mem_cons, List.not_mem_nil, or_false, not_or] at hc
  have hfeed : c ≠ '\n' := by
    rintro rfl
    exact hc.2.2.1 kindOf_feed
  have hstep : step ⟨kindOf c, [c], offset⟩ (tokenizeFrom 0 (offset + 1) u) =
      ⟨.token ⟨kindOf c, [c], offset⟩, 0⟩ := by
    unfold step
    split <;> simp_all
  rw [Token.tokenizeFrom_sign rfl hc.2.1 hreturn fun h => absurd h hfeed, itemsFrom_cons, hstep]
  rfl

theorem items_run (hk : k = .whitespace ∨ k = .string) (hne : run ≠ [])
    (hrun : ∀ c ∈ run, kindOf c = k ∧ c ≠ '\r') (hu : NoReturn u)
    (hstop : ∀ c ∈ u.head?, kindOf c ≠ k) :
    itemsFrom 0 (tokenizeFrom 0 offset (run ++ u)) =
      .token ⟨k, run, offset⟩ :: itemsFrom 0 (tokenizeFrom 0 (offset + run.length) u) := by
  have hknown : k ≠ .newline ∧ k ≠ .endOfText := by rcases hk with rfl | rfl <;> simp
  obtain ⟨raws, hraws, hconcat, hkinds, hoffset⟩ := tokenizeFrom_run offset hrun hknown.1 hstop
  cases raws with
  | nil => exact absurd hconcat.symm hne
  | cons first more =>
    obtain ⟨hfirst, hmore⟩ := List.forall_mem_cons.mp hkinds
    have hstep : step first (more ++ tokenizeFrom 0 (offset + run.length) u) =
        ⟨.token ⟨k, run, offset⟩, more.length⟩ := by
      rw [step_run (by rwa [hfirst]) (by rwa [hfirst]), hconcat, hfirst, hoffset first rfl]
      rw [hfirst]
      exact hu.kind_head_ne hknown.2 hstop
    rw [hraws, List.cons_append, itemsFrom_cons, hstep, List.drop_left]

/-- A slash in front of anything but two stars. -/
theorem items_slash (hstars : ¬"**".toList <+: u) :
    itemsFrom 0 (tokenizeFrom 0 offset ('/' :: u)) =
      .token ⟨.string, ['/'], offset⟩ :: itemsFrom 0 (tokenizeFrom 0 (offset + 1) u) := by
  obtain ⟨rest, hrest⟩ : ∃ rest, tokenizeFrom 0 (offset + 1) u = rest := ⟨_, rfl⟩
  have hstep : step ⟨.slash, ['/'], offset⟩ rest = ⟨.token ⟨.string, ['/'], offset⟩, 0⟩ := by
    match rest, hrest with
    | [], _ | [_], _ => rfl
    | second :: third :: more, hrest =>
      have hnot : ¬ (second.kind = .star ∧ third.kind = .star) := by
        rintro ⟨hsecond, hthird⟩
        obtain ⟨v, rfl⟩ := exists_of_kind_star (by rw [hrest]; rfl) hsecond
        rw [tokenizeFrom_punctuation .star rfl, List.cons.injEq] at hrest
        obtain ⟨w, rfl⟩ := exists_of_kind_star (by rw [hrest.2]; rfl) hthird
        exact hstars ⟨w, rfl⟩
      simp only [step, slash, if_neg hnot]
  rw [tokenizeFrom_punctuation .slash rfl, itemsFrom_cons, hrest, hstep, ← hrest]
  rfl

/-- A run of stars in front of neither a star nor a slash. -/
theorem items_stars (n : Nat) (hu : NoReturn u) (hstar : ∀ c ∈ u.head?, c ≠ '*')
    (hslash : ∀ c ∈ u.head?, c ≠ '/') :
    itemsFrom 0 (tokenizeFrom 0 offset (List.replicate (n + 1) '*' ++ u)) =
      .token ⟨.string, List.replicate (n + 1) '*', offset⟩ ::
        itemsFrom 0 (tokenizeFrom 0 (offset + (n + 1)) u) := by
  have hrun : ∀ c ∈ List.replicate (n + 1) '*', kindOf c = .star ∧ c ≠ '\r' := by
    intro c hc
    obtain rfl := List.eq_of_mem_replicate hc
    exact ⟨kindOf_star, by decide⟩
  have hstop : ∀ {k : Kind} {d : Char}, k.sign? = some d → (∀ c ∈ u.head?, c ≠ d) →
      ∀ c ∈ u.head?, kindOf c ≠ k :=
    fun hd hne c hc hkind => hne c hc (Token.eq_of_kindOf hkind hd)
  obtain ⟨raws, hraws, hconcat, hkinds, hoffset⟩ :=
    tokenizeFrom_run offset hrun (by simp) (hstop (k := .star) rfl hstar)
  rw [List.length_replicate] at hraws
  have hpartition := Token.partition_tokenizeFrom offset (List.replicate (n + 1) '*' ++ u)
  rw [hraws] at hpartition
  have hlength : raws.length = n + 1 := by
    have hraw := (hpartition.of_append fun u hu => by simp [hkinds u hu]).1
    have hsame := congrArg List.length ((Token.concat_run rfl hraw hkinds).symm.trans hconcat)
    simpa using hsame
  cases raws with
  | nil => simp at hlength
  | cons first more =>
    obtain ⟨hfirst, hmore⟩ := List.forall_mem_cons.mp hkinds
    have hnext : ∀ v ∈ (tokenizeFrom 0 (offset + (n + 1)) u).head?, v.kind ≠ .star :=
      hu.kind_head_ne (by simp) (hstop rfl hstar)
    have hstep := step_stars hfirst hmore hnext (hu.kind_head_ne (by simp) (hstop rfl hslash))
    rw [List.length_cons] at hlength
    rw [hlength, hoffset first rfl] at hstep
    rw [hraws, List.cons_append, itemsFrom_cons, hstep, List.drop_left]

/-- The opening delimiter, where no star is behind it. -/
theorem items_intro (hu : ∀ c ∈ u.head?, c ≠ '*') :
    items ('/' :: '*' :: '*' :: u) = .token (introAt 0) :: itemsFrom 0 (tokenizeFrom 0 3 u) := by
  have hstep : ∀ rest, step ⟨.slash, ['/'], 0⟩
      (⟨.star, ['*'], 1⟩ :: ⟨.star, ['*'], 2⟩ :: rest) =
        ⟨.token (introAt 0), 2 + runLength .star rest⟩ := fun _ => rfl
  have hmore : runLength .star (tokenizeFrom 0 3 u) = 0 := by
    refine runLength_append (List.forall_mem_nil _) fun v hv hkind => ?_
    obtain ⟨rest, rfl⟩ := exists_of_kind_star hv hkind
    exact hu '*' rfl rfl
  rw [items, Token.tokenize, tokenizeFrom_punctuation .slash rfl,
    tokenizeFrom_punctuation .star rfl,
    tokenizeFrom_punctuation .star rfl, itemsFrom_cons, hstep, hmore]
  rfl

theorem items_outro (offset : Nat) :
    itemsFrom 0 (tokenizeFrom 0 offset "*/".toList) =
      [.token (outroAt offset), .token ⟨.endOfText, [], offset + 2⟩] := by
  have hraws : tokenizeFrom 0 offset "*/".toList =
      [⟨.star, ['*'], offset⟩, ⟨.slash, ['/'], offset + 1⟩, ⟨.endOfText, [], offset + 2⟩] := by
    show tokenizeFrom 0 offset ('*' :: ['/']) = _
    rw [tokenizeFrom_punctuation .star rfl, tokenizeFrom_punctuation .slash rfl]
    rfl
  rw [hraws]
  rfl

/-- Spaces in front of the closing delimiter. -/
theorem items_spaces_outro (n offset : Nat) :
    itemsFrom 0 (tokenizeFrom 0 offset (List.replicate (n + 1) ' ' ++ "*/".toList)) =
      [.token ⟨.whitespace, List.replicate (n + 1) ' ', offset⟩,
        .token (outroAt (offset + (n + 1))), .token ⟨.endOfText, [], offset + (n + 1) + 2⟩] := by
  have hrun : ∀ c ∈ List.replicate (n + 1) ' ', kindOf c = .whitespace ∧ c ≠ '\r' := by
    intro c hc
    obtain rfl := List.eq_of_mem_replicate hc
    exact ⟨kindOf_space, by decide⟩
  have hstar : ∀ c ∈ "*/".toList.head?, (c ≠ '\r' ∧ c ≠ '\n') ∧ kindOf c ≠ .whitespace := by
    intro c hc
    obtain rfl : '*' = c := Option.some.inj hc
    exact ⟨by decide, by simp [kindOf_star]⟩
  rw [items_run (.inl rfl) (by simp) hrun (noReturn_of_head fun c hc => (hstar c hc).1)
    fun c hc => (hstar c hc).2, List.length_replicate, items_outro]

/-! ## Tags -/

theorem tokenizeFrom_word {word s : Text} (hletters : word.all Char.isAlpha = true)
    (hne : word ≠ []) (hs : ∀ d ∈ s.head?, kindOf d ≠ .string) :
    tokenizeFrom 0 offset (word ++ s) =
      ⟨.string, word, offset⟩ :: tokenizeFrom 0 (offset + word.length) s := by
  refine Token.tokenizeFrom_letters (fun d hd => ?_) hne fun d hd =>
    Token.not_letter_of_kindOf (hs d hd)
  exact Text.isLetter_of_isAlpha (List.all_eq_true.mp hletters d hd)

/-- The names whose words are two, with a minus between them. -/
def compoundTags : List (TagName × Text × Text) := [
  (.propertyRead, "property".toList, "read".toList),
  (.propertyWrite, "property".toList, "write".toList), (.usedBy, "used".toList, "by".toList)]

theorem word_cases (name : TagName) :
    (name.word.all Char.isAlpha = true ∧ name.word ≠ [] ∧
      name ∉ [.propertyRead, .propertyWrite, .usedBy]) ∨
    ∃ head tail, (name, head, tail) ∈ compoundTags := by
  cases name with
  | propertyRead => exact .inr ⟨"property".toList, "read".toList, by simp [compoundTags]⟩
  | propertyWrite => exact .inr ⟨"property".toList, "write".toList, by simp [compoundTags]⟩
  | usedBy => exact .inr ⟨"used".toList, "by".toList, by simp [compoundTags]⟩
  | _ => exact .inl ⟨by decide, by decide, by decide⟩

/-- An at sign and a whole word make a tag, if no minus follows. -/
theorem step_tag {name : TagName} {place : Nat} {rest : List Token}
    (hname : name ∉ [.propertyRead, .propertyWrite, .usedBy])
    (hrest : ∀ u ∈ rest.head?, u.kind ≠ .minus) :
    step ⟨.atSign, ['@'], offset⟩ (⟨.string, name.word, place⟩ :: rest) =
      ⟨.token ⟨.tag name, '@' :: name.word, offset⟩, 1⟩ := by
  have hsuffix : ∀ word, hasSuffix word rest = false := by
    intro word
    unfold hasSuffix
    split
    case h_1 minus suffix more => simp [hrest minus rfl]
    case h_2 => rfl
  cases name with
  | propertyRead | propertyWrite | usedBy => simp at hname
  | property =>
    have hstep : step ⟨.atSign, ['@'], offset⟩ (⟨.string, "property".toList, place⟩ :: rest) =
        propertyTag offset rest := rfl
    apply hstep.trans
    rw [propertyTag, hsuffix, hsuffix]
    rfl
  | _ => rfl

theorem compoundTags_cases {name : TagName} {head tail : Text}
    (h : (name, head, tail) ∈ compoundTags) :
    (name = .propertyRead ∧ head = "property".toList ∧ tail = "read".toList) ∨
    (name = .propertyWrite ∧ head = "property".toList ∧ tail = "write".toList) ∨
    (name = .usedBy ∧ head = "used".toList ∧ tail = "by".toList) := by
  simpa only [compoundTags, List.mem_cons, Prod.mk.injEq, List.not_mem_nil, or_false] using h

theorem word_of_compound {name : TagName} {head tail : Text}
    (h : (name, head, tail) ∈ compoundTags) :
    name.word = head ++ '-' :: tail ∧ (head.all Char.isAlpha = true ∧ head ≠ []) ∧
      tail.all Char.isAlpha = true ∧ tail ≠ [] := by
  rcases compoundTags_cases h with ⟨rfl, rfl, rfl⟩ | ⟨rfl, rfl, rfl⟩ | ⟨rfl, rfl, rfl⟩ <;> decide

theorem step_compoundTag {name : TagName} {head tail : Text} {place second third : Nat}
    {rest : List Token} (h : (name, head, tail) ∈ compoundTags) :
    step ⟨.atSign, ['@'], offset⟩ (⟨.string, head, place⟩ :: ⟨.minus, ['-'], second⟩ ::
        ⟨.string, tail, third⟩ :: rest) = ⟨.token ⟨.tag name, '@' :: name.word, offset⟩, 3⟩ := by
  rcases compoundTags_cases h with ⟨rfl, rfl, rfl⟩ | ⟨rfl, rfl, rfl⟩ | ⟨rfl, rfl, rfl⟩ <;> rfl

/-- A tag that is written in lower case and followed by a blank. -/
theorem items_tag (name : TagName) (hu : NoReturn u)
    (hnext : ∀ c ∈ u.head?, kindOf c = .whitespace ∨ kindOf c = .newline) :
    itemsFrom 0 (tokenizeFrom 0 offset ('@' :: (name.word ++ u))) =
      .token ⟨.tag name, '@' :: name.word, offset⟩ ::
        itemsFrom 0 (tokenizeFrom 0 (offset + 1 + name.word.length) u) := by
  have hfree : ∀ k, k ≠ .whitespace → k ≠ .newline → ∀ d ∈ u.head?, kindOf d ≠ k := by
    intro k hblank hnewline d hd hkind
    rcases hnext d hd with h | h
    · exact hblank (hkind.symm.trans h)
    · exact hnewline (hkind.symm.trans h)
  rw [tokenizeFrom_punctuation .atSign rfl]
  rcases word_cases name with ⟨hletters, hne, hname⟩ | ⟨head, tail, hcompound⟩
  · have hminus : ∀ v ∈ (tokenizeFrom 0 (offset + 1 + name.word.length) u).head?, v.kind ≠ .minus :=
      hu.kind_head_ne (by simp) (hfree .minus (by simp) (by simp))
    rw [tokenizeFrom_word hletters hne (hfree .string (by simp) (by simp)), itemsFrom_cons,
      step_tag hname hminus]
    rfl
  · obtain ⟨hword, ⟨hhead, hheadne⟩, htail, htailne⟩ := word_of_compound hcompound
    have hminus : kindOf '-' = .minus := Token.kindOf_of_sign rfl
    have hdash : ∀ d ∈ ('-' :: (tail ++ u)).head?, kindOf d ≠ .string := by
      rintro d hd
      obtain rfl := Option.mem_some_iff.mp hd
      simp [hminus]
    have hend : offset + 1 + head.length + 1 + tail.length = offset + 1 + name.word.length := by
      rw [hword, List.length_append, List.length_cons]
      omega
    have hsplit : name.word ++ u = head ++ '-' :: (tail ++ u) := by
      rw [hword, List.append_assoc, List.cons_append]
    rw [hsplit, tokenizeFrom_word hhead hheadne hdash, tokenizeFrom_punctuation .minus rfl,
      tokenizeFrom_word htail htailne (hfree .string (by simp) (by simp)), itemsFrom_cons,
      step_compoundTag hcompound, hend]
    rfl

end Screening

end DocComment
