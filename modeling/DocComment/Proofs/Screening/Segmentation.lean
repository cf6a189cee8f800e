import DocComment.Proofs.Screening.Step

/-!
# Screened tokens segment their text

Between the offsets of two screened tokens that follow each other stands the text that the first was
made of, and then blanks. `Written` says which texts a token of each kind can be made of: most are
their own, tags may be in any case, delimiters hold any number of stars, and a line break takes the
star that leads the next line with it. So screening loses blanks and stars, and nothing else.
-/

namespace DocComment.Screening

open Text (isBlank)
open Token (Partition IsRaw concat lineBreaks isBlank_of_mem_lineBreaks)

/-- The texts that a screened token is made of. -/
inductive Written : Token → Text → Prop where
  | sign (kind : Kind) (c : Char) (offset : Nat) (sign : kind.sign? = some c)
      (left : kind ∉ [.star, .slash, .atSign]) : Written ⟨kind, [c], offset⟩ [c]
  | blanks (text : Text) (offset : Nat) (nonempty : text ≠ [])
      (blank : ∀ c ∈ text, isBlank c = true ∧ c ≠ '\n') : Written ⟨.whitespace, text, offset⟩ text
  | string (text : Text) (offset : Nat) (nonempty : text ≠ []) :
      Written ⟨.string, text, offset⟩ text
  | tag (name : TagName) (text own : Text) (offset : Nat) (nonempty : text ≠ [])
      (length : own.length = text.length) (lower : own.lower = text) :
      Written ⟨.tag name, text, offset⟩ own
  | nearTag (text own : Text) (offset : Nat) (near : text ∈ ["@used".toList, "@used-".toList])
      (length : own.length = text.length) (lower : own.lower = text) :
      Written ⟨.string, text, offset⟩ own
  | intro (stars offset : Nat) :
      Written (introAt offset) ("/**".toList ++ List.replicate stars '*')
  | outro (stars offset : Nat) : Written (outroAt offset) (List.replicate (stars + 1) '*' ++ ['/'])
  | starredLine (blanks : Text) (offset : Nat) (short : blanks.length ≤ 1)
      (blank : ∀ c ∈ blanks, isBlank c = true) : Written (lineFeed offset) ('*' :: blanks)
  | bareLine (newline blanks : Text) (offset : Nat) (known : newline ∈ lineBreaks)
      (blank : ∀ c ∈ blanks, isBlank c = true) : Written (lineFeed offset) (newline ++ blanks)

theorem Written.ne_nil {t : Token} {own : Text} (h : Written t own) : own ≠ [] := by
  cases h with
  | sign | starredLine => simp
  | blanks _ _ nonempty | string _ _ nonempty => exact nonempty
  | tag name text own offset nonempty length =>
    rintro rfl
    exact nonempty (List.eq_nil_of_length_eq_zero length.symm)
  | nearTag text own offset near length =>
    rintro rfl
    obtain rfl : text = [] := List.eq_nil_of_length_eq_zero length.symm
    exact absurd near (by decide)
  | intro => simp
  | outro => simp
  | bareLine newline blanks offset known =>
    rintro hnil
    obtain rfl : newline = [] := (List.append_eq_nil_iff.mp hnil).1
    exact absurd known (by decide)

/-- The kinds that screening does away with. -/
theorem Written.kind_not_mem {t : Token} {own : Text} (h : Written t own) :
    t.kind ∉ [.star, .slash, .atSign, .newline, .endOfText] := by
  cases h with
  | sign kind c offset sign left =>
    intro hmem
    simp only [List.mem_cons, List.not_mem_nil, or_false, not_or] at left hmem
    obtain hk | hk | hk | rfl | rfl := hmem
    · exact left.1 hk
    · exact left.2.1 hk
    · exact left.2.2 hk
    · simp [Kind.sign?] at sign
    · simp [Kind.sign?] at sign
  | blanks | string | tag | nearTag => simp
  | intro => simp [introAt]
  | outro => simp [outroAt]
  | starredLine | bareLine => simp [lineFeed]

/-! ## One step -/

/-- From an offset on a text begins with blanks, then with what a token is made of, and the raw
tokens that are left partition the rest. -/
def Writes (offset : Nat) (s : Text) (t : Token) (left : List Token) : Prop :=
  ∃ lead own after, s = lead ++ own ++ after ∧ (∀ c ∈ lead, isBlank c = true) ∧
    t.offset = offset + lead.length ∧ Written t own ∧
    Partition (offset + lead.length + own.length) after left

variable {offset : Nat} {s : Text} {first t : Token} {rest taken left : List Token}

/-- The raw tokens that a step took hold all that it wrote. -/
theorem Writes.of_taken (lead own : Text) (h : Partition offset s (taken ++ left))
    (hkinds : ∀ u ∈ taken, u.kind ≠ .endOfText) (hconcat : concat taken = lead ++ own)
    (hlead : ∀ c ∈ lead, isBlank c = true)
    (hoffset : t.offset = offset + lead.length) (hwritten : Written t own) :
    Writes offset s t left := by
  obtain ⟨-, after, rfl, hleft⟩ := h.of_append hkinds
  refine ⟨lead, own, after, by rw [hconcat], hlead, hoffset, hwritten, ?_⟩
  rwa [hconcat, List.length_append, ← Nat.add_assoc] at hleft

theorem isBlank_of_mem_run {run : List Token} (hraw : ∀ u ∈ run, IsRaw u)
    (hkind : ∀ u ∈ run, u.kind = .whitespace) :
    ∀ c ∈ concat run, isBlank c = true ∧ c ≠ '\n' := by
  intro c hc
  obtain ⟨u, hu, hcu⟩ := List.mem_flatMap.mp hc
  obtain ⟨d, htext, hd⟩ := (hraw u hu).text_of_blank (hkind u hu)
  rw [htext, List.mem_singleton] at hcu
  exact hcu ▸ hd

theorem mergeRun_writes (h : Partition offset s (first :: rest))
    (hk : first.kind = .whitespace ∨ first.kind = .string)
    (ht : (mergeRun first rest).item = .token t) :
    Writes offset s t (rest.drop (mergeRun first rest).taken) := by
  obtain ⟨run, tail, rfl, hsame, hstep⟩ := mergeRun_step first rest
  simp only [hstep, Item.token.injEq] at ht ⊢
  subst ht
  rw [List.drop_left]
  have hraw := isRaw_of_run h hk hsame
  have hkinds : ∀ u ∈ first :: run, u.kind ≠ .endOfText := fun u hu => (hraw u hu).kind_ne_endOfText
  refine .of_taken [] (concat (first :: run)) h hkinds rfl (by simp) h.head_offset ?_
  have hne : concat (first :: run) ≠ [] := by
    rw [Token.concat_cons]
    exact List.append_ne_nil_of_left_ne_nil (hraw first (by simp)).text_ne_nil _
  rcases hk with hk | hk
  · rw [hk]
    exact .blanks _ _ hne (isBlank_of_mem_run hraw fun u hu => (hsame u hu).trans hk)
  · rw [hk]
    exact .string _ _ hne

theorem intro_writes {second third : Token} {run : List Token}
    (h : Partition offset s (first :: second :: third :: run ++ left))
    (hfirst : first.kind = .slash) (hsecond : second.kind = .star) (hthird : third.kind = .star)
    (hrun : ∀ u ∈ run, u.kind = .star) :
    Writes offset s (introAt first.offset) left := by
  have hkinds : ∀ u ∈ first :: second :: third :: run, u.kind ≠ .endOfText := by
    simp only [List.forall_mem_cons, hfirst, hsecond, hthird]
    exact ⟨by simp, by simp, by simp, fun u hu => by simp [hrun u hu]⟩
  have hraw := (h.of_append hkinds).1
  simp only [List.forall_mem_cons] at hraw
  refine .of_taken [] ("/**".toList ++ List.replicate run.length '*') h hkinds ?_ (by simp)
    h.head_offset (.intro _ _)
  rw [Token.concat_cons, Token.concat_cons, Token.concat_cons,
    hraw.1.text_of_sign (by rw [hfirst]; rfl), hraw.2.1.text_of_sign (by rw [hsecond]; rfl),
    hraw.2.2.1.text_of_sign (by rw [hthird]; rfl), Token.concat_run rfl hraw.2.2.2 hrun]
  rfl

theorem outro_writes {closing : Token} {run : List Token}
    (h : Partition offset s (first :: run ++ closing :: left)) (hfirst : first.kind = .star)
    (hrun : ∀ u ∈ run, u.kind = .star) (hclosing : closing.kind = .slash) :
    Writes offset s (outroAt first.offset) left := by
  have hstars : ∀ u ∈ first :: run, u.kind = .star := by
    simp only [List.forall_mem_cons]
    exact ⟨hfirst, hrun⟩
  have h : Partition offset s ((first :: run ++ [closing]) ++ left) := by simpa using h
  have hkinds : ∀ u ∈ first :: run ++ [closing], u.kind ≠ .endOfText := by
    simp only [List.forall_mem_append]
    exact ⟨fun u hu => by simp [hstars u hu], by simp [hclosing]⟩
  have hraw := (h.of_append hkinds).1
  simp only [List.forall_mem_append] at hraw
  refine .of_taken [] (List.replicate (run.length + 1) '*' ++ ['/']) h hkinds ?_ (by simp)
    h.head_offset (.outro _ _)
  rw [Token.concat_append, Token.concat_run rfl hraw.1 hstars, Token.concat_cons,
    (hraw.2 closing (by simp)).text_of_sign (by rw [hclosing]; rfl)]
  simp

/-- A raw token that is left as it is, but for its kind. -/
theorem string_writes (h : Partition offset s (first :: left)) (hk : first.kind ≠ .endOfText) :
    Writes offset s { first with kind := .string } left := by
  have hraw := (h.of_head hk).1
  have h : Partition offset s ([first] ++ left) := h
  refine .of_taken [] first.text h (by simpa using hk) (by simp) (by simp) h.head_offset ?_
  exact .string _ _ hraw.text_ne_nil

theorem slash_writes (h : Partition offset s (first :: rest)) (hk : first.kind = .slash)
    (ht : (slash first rest).item = .token t) :
    Writes offset s t (rest.drop (slash first rest).taken) := by
  rcases slash_token ht with ⟨rfl, second, third, run, more, rfl, hsecond, hthird, hrun, hleft, -⟩ |
    ⟨rfl, hleft, -⟩
  · rw [hleft]
    exact intro_writes h hk hsecond hthird hrun
  · rw [hleft]
    exact string_writes h (by simp [hk])

theorem stars_writes (h : Partition offset s (first :: rest)) (hk : first.kind = .star)
    (ht : (stars first rest).item = .token t) :
    Writes offset s t (rest.drop (stars first rest).taken) := by
  obtain ⟨run, tail, rfl, hrun, -, hcases⟩ := stars_token ht
  rcases hcases with ⟨rfl, closing, more, rfl, hclosing, hleft⟩ | ⟨rfl, hleft, -⟩
  · rw [hleft]
    exact outro_writes h hk hrun hclosing
  · rw [hleft]
    have hstars : ∀ u ∈ first :: run, u.kind = .star := by
      simp only [List.forall_mem_cons]
      exact ⟨hk, hrun⟩
    have hkinds : ∀ u ∈ first :: run, u.kind ≠ .endOfText := fun u hu => by simp [hstars u hu]
    have h : Partition offset s ((first :: run) ++ tail) := h
    exact .of_taken [] (List.replicate (run.length + 1) '*') h hkinds
      (Token.concat_run rfl (h.of_append hkinds).1 hstars) (by simp) h.head_offset
      (.string _ _ (by simp))

theorem atSign_writes (h : Partition offset s (first :: rest)) (hk : first.kind = .atSign)
    (ht : (atSign first rest).item = .token t) :
    Writes offset s t (rest.drop (atSign first rest).taken) := by
  have hmem : ∀ u ∈ rest, IsRaw u ∨ u = ⟨.endOfText, [], offset + s.length⟩ :=
    fun u hu => h.of_mem (by simp [hu])
  rcases atSign_token h.text_of_minus ht with ⟨rfl, hleft⟩ |
    ⟨taken, more, rfl, htaken, hoffset, htext, hkind, hleft⟩
  · rw [hleft]
    exact string_writes h (by simp [hk])
  · rw [hleft]
    have hkinds : ∀ u ∈ first :: taken, u.kind ≠ .endOfText := by
      simp only [List.forall_mem_cons]
      refine ⟨by simp [hk], fun u hu => ?_⟩
      rcases hmem u (by simp [hu]) with hraw | rfl
      · exact hraw.kind_ne_endOfText
      · exact absurd rfl (htaken _ hu)
    have hconcat : concat (first :: taken) = '@' :: concat taken := by
      rw [Token.concat_cons, (h.of_head (by simp [hk])).1.text_of_sign (by rw [hk]; rfl)]
      rfl
    have hlower : Text.lower ('@' :: concat taken) = t.text := by
      rw [htext]
      rfl
    have hlength : ('@' :: concat taken).length = t.text.length := by
      rw [← hlower, Text.length_lower]
    have h : Partition offset s ((first :: taken) ++ more) := h
    refine .of_taken [] ('@' :: concat taken) h hkinds hconcat (by simp)
      (hoffset.trans h.head_offset) ?_
    obtain ⟨kind, text, tokenOffset⟩ := t
    rcases hkind with ⟨name, rfl⟩ | ⟨rfl, hnear⟩
    · have hne : text ≠ [] := fun hnil => List.cons_ne_nil _ _ (htext.symm.trans hnil)
      exact .tag _ _ _ _ hne hlength hlower
    · exact .nearTag _ _ _ hnear hlength hlower

/-- Blanks in front of what a step writes are lost. -/
theorem Writes.after_blanks {lead behind : Text} (hlead : ∀ c ∈ lead, isBlank c = true)
    (h : Writes (offset + lead.length) behind t left) : Writes offset (lead ++ behind) t left := by
  obtain ⟨inner, own, after, rfl, hinner, hoffset, hwritten, hleft⟩ := h
  refine ⟨lead ++ inner, own, after, by simp, ?_, ?_, hwritten, ?_⟩
  · rw [List.forall_mem_append]
    exact ⟨hlead, hinner⟩
  · rw [hoffset, List.length_append, Nat.add_assoc]
  · rwa [List.length_append, ← Nat.add_assoc]

theorem lineStar_writes (h : Partition offset s (first :: rest)) (hk : first.kind = .star)
    (ht : (lineStar first rest).item = .token t) :
    Writes offset s t (rest.drop (lineStar first rest).taken) := by
  have hstar := (h.of_head (by simp [hk])).1.text_of_sign (c := '*') (by rw [hk]; rfl)
  rcases lineStar_token ht with ⟨rfl, blank, more, rfl, hblank, hleft⟩ | ⟨rfl, hleft, -⟩ |
    ⟨rfl, run, closing, more, rfl, hrun, hclosing, hleft⟩
  · rw [hleft]
    have h : Partition offset s ([first, blank] ++ more) := h
    have hkinds : ∀ u ∈ [first, blank], u.kind ≠ .endOfText := by simp [hk, hblank]
    obtain ⟨c, hc, hcblank, -⟩ := ((h.of_append hkinds).1 blank (by simp)).text_of_blank hblank
    refine .of_taken [] ['*', c] h hkinds ?_ (by simp) h.head_offset
      (.starredLine [c] _ (by simp) (by simpa using hcblank))
    rw [Token.concat_cons, Token.concat_cons, hstar, hc]
    rfl
  · rw [hleft]
    have h : Partition offset s ([first] ++ rest) := h
    refine .of_taken [] ['*'] h (by simp [hk]) ?_ (by simp) h.head_offset
      (.starredLine [] _ (by simp) (by simp))
    rw [Token.concat_cons, hstar]
    rfl
  · rw [hleft]
    exact outro_writes h hk hrun hclosing

/-- A line break writes itself or what begins the next line; at the end of the text it is lost. -/
theorem lineStart_writes (h : Partition offset s (first :: rest)) (hk : first.kind = .newline)
    (ht : (lineStart first rest).item = .token t) :
    (t = ⟨.endOfText, [], offset + s.length⟩ ∧ (∀ c ∈ s, isBlank c = true) ∧
      rest.drop (lineStart first rest).taken = []) ∨
    Writes offset s t (rest.drop (lineStart first rest).taken) := by
  obtain ⟨blanks, next, after, behind, rfl, hblanks, hnext, hraw, rfl, htail⟩ :=
    exists_lineStart h hk
  have hkinds : ∀ u ∈ first :: blanks, u.kind ≠ .endOfText :=
    fun u hu => (hraw u hu).kind_ne_endOfText
  rw [List.forall_mem_cons] at hraw
  have hbreak := hraw.1.text_of_newline hk
  have hrun := fun c hc => (isBlank_of_mem_run hraw.2 hblanks c hc).1
  have hlead : ∀ c ∈ concat (first :: blanks), isBlank c = true := by
    rw [Token.concat_cons, List.forall_mem_append]
    exact ⟨isBlank_of_mem_lineBreaks hbreak, hrun⟩
  rcases lineStart_token hblanks hnext ht with ⟨hslash, ht, hleft⟩ | ⟨hstar, ht, hleft⟩
    | ⟨hend, rfl, hleft⟩ | ⟨rfl, hleft⟩
  · right
    obtain ⟨rfl, second, third, run, more, rfl, hsecond, hthird, hstars, hmore, -⟩ :=
      lineSlash_token ht
    rw [hleft, hmore]
    exact .after_blanks hlead (intro_writes htail hslash hsecond hthird hstars)
  · right
    rw [hleft]
    exact .after_blanks hlead (lineStar_writes htail hstar ht)
  · left
    rcases htail.head_cases with ⟨hlast, rfl, rfl⟩ | ⟨hraw, -⟩
    · exact ⟨by simp [hlast], by simpa using hlead, hleft⟩
    · exact absurd hend hraw.kind_ne_endOfText
  · right
    rw [hleft]
    exact .of_taken [] (first.text ++ concat blanks) h hkinds rfl (by simp) h.head_offset
      (.bareLine _ _ _ hbreak hrun)

theorem sign_writes (h : Partition offset s (first :: left)) (hend : first.kind ≠ .endOfText)
    (hk : first.kind ∉ [.whitespace, .string, .newline, .atSign, .slash, .star]) :
    Writes offset s first left := by
  have hraw := (h.of_head hend).1
  have h : Partition offset s ([first] ++ left) := h
  refine .of_taken [] first.text h (by simpa using hend) (by simp) (by simp) h.head_offset ?_
  obtain ⟨kind, text, place⟩ := first
  simp only [List.mem_cons, List.not_mem_nil, or_false, not_or] at hk
  rcases hraw.kind_cases with hmem | ⟨c, rfl, hc⟩
  · simp [hk] at hmem
  · refine .sign kind c _ hc ?_
    simp only [List.mem_cons, List.not_mem_nil, or_false, not_or]
    exact ⟨hk.2.2.2.2.2, hk.2.2.2.2.1, hk.2.2.2.1⟩

/-- A step writes its token, or it is the last and gives the mark of the end. -/
theorem step_writes (h : Partition offset s (first :: rest))
    (ht : (step first rest).item = .token t) :
    (t = ⟨.endOfText, [], offset + s.length⟩ ∧ (∀ c ∈ s, isBlank c = true) ∧
      rest.drop (step first rest).taken = []) ∨
    Writes offset s t (rest.drop (step first rest).taken) := by
  unfold step at ht ⊢
  split at ht
  case h_1 hk => exact .inr (mergeRun_writes h (.inl hk) ht)
  case h_2 hk => exact .inr (mergeRun_writes h (.inr hk) ht)
  case h_3 hk => exact lineStart_writes h hk ht
  case h_4 hk => exact .inr (atSign_writes h hk ht)
  case h_5 hk => exact .inr (slash_writes h hk ht)
  case h_6 hk => exact .inr (stars_writes h hk ht)
  case h_7 hblank hstring hnewline hat hslash hstar =>
    obtain rfl := Item.token.inj ht
    rcases h.head_cases with ⟨rfl, rfl, rfl⟩ | ⟨hraw, -⟩
    · exact .inl ⟨rfl, by simp, rfl⟩
    · refine .inr (sign_writes h hraw.kind_ne_endOfText ?_)
      simp only [List.mem_cons, List.not_mem_nil, or_false, not_or]
      exact ⟨hblank, hstring, hnewline, hat, hslash, hstar⟩

/-! ## All steps -/

/-- From the offset of the first token on, a text is what each token is made of and then blanks. -/
inductive Segmented : (offset : Nat) → Text → List Token → Prop where
  | last (offset : Nat) : Segmented offset [] [⟨.endOfText, [], offset⟩]
  | cons {token : Token} {own gap after : Text} {tokens : List Token} (written : Written token own)
      (blank : ∀ c ∈ gap, isBlank c = true)
      (tail : Segmented (token.offset + own.length + gap.length) after tokens) :
      Segmented token.offset (own ++ gap ++ after) (token :: tokens)

/-- The tokens of a partitioned text segment it, behind blanks. -/
theorem segmented_itemsFrom {raws tokens : List Token} (h : Partition offset s raws)
    (hitems : itemsFrom 0 raws = tokens.map .token) :
    ∃ lead after, s = lead ++ after ∧ (∀ c ∈ lead, isBlank c = true) ∧
      Segmented (offset + lead.length) after tokens := by
  induction raws using step_induction generalizing tokens offset s with
  | nil => exact absurd rfl h.ne_nil
  | cons first rest ih =>
    rw [itemsFrom_cons] at hitems
    cases tokens with
    | nil => simp at hitems
    | cons t tokens =>
      rw [List.map_cons, List.cons.injEq] at hitems
      obtain ⟨hitem, hrest⟩ := hitems
      rcases step_writes h hitem with ⟨rfl, hblank, hleft⟩ |
        ⟨lead, own, after, rfl, hlead, hoffset, hwritten, hleft⟩
      · rw [hleft, itemsFrom] at hrest
        obtain rfl : tokens = [] := by simpa using hrest.symm
        exact ⟨s, [], by simp, hblank, .last _⟩
      · obtain ⟨gap, behind, rfl, hgap, htail⟩ := ih hleft hrest
        refine ⟨lead, own ++ gap ++ behind, by simp, hlead, ?_⟩
        rw [← hoffset] at htail ⊢
        exact .cons hwritten hgap htail

/-- Nothing follows the mark of the end, whether or not there are faults before it. -/
theorem itemsFrom_endOfText {raws : List Token} (h : Partition offset s raws)
    {before after : List Item} (hitems : itemsFrom 0 raws = before ++ .token t :: after)
    (ht : t.kind = .endOfText) :
    after = [] := by
  induction raws using step_induction generalizing before offset s with
  | nil => exact absurd rfl h.ne_nil
  | cons first rest ih =>
    rw [itemsFrom_cons] at hitems
    cases before with
    | nil =>
      rw [List.nil_append, List.cons.injEq] at hitems
      obtain ⟨hitem, hrest⟩ := hitems
      rcases step_writes h hitem with ⟨-, -, hleft⟩ | ⟨_, _, _, -, -, -, hwritten, -⟩
      · rw [← hrest, hleft, itemsFrom]
      · have hkind := hwritten.kind_not_mem
        simp [ht] at hkind
    | cons item before =>
      rw [List.cons_append, List.cons.injEq] at hitems
      have hne : rest.drop (step first rest).taken ≠ [] := by
        intro hnil
        simp [hnil, itemsFrom] at hitems
      obtain ⟨start, behind, hleft⟩ := h.tail_drop hne
      exact ih hleft hitems.2

namespace Segmented

variable {tokens : List Token} {after : Text}

theorem exists_init (h : Segmented offset s tokens) :
    ∃ init, tokens = init ++ [⟨.endOfText, [], offset + s.length⟩] ∧
      ∀ u ∈ init, u.kind ∉ [.star, .slash, .atSign, .newline, .endOfText] := by
  induction h with
  | last => exact ⟨[], rfl, by simp⟩
  | @cons token own gap after tokens written blank tail ih =>
    obtain ⟨init, rfl, hinit⟩ := ih
    refine ⟨token :: init, by simp [Nat.add_assoc], ?_⟩
    rw [List.forall_mem_cons]
    exact ⟨written.kind_not_mem, hinit⟩

theorem offset_le (h : Segmented offset s tokens) : ∀ u ∈ tokens, offset ≤ u.offset := by
  induction h with
  | last => simp
  | cons _ _ _ ih =>
    rw [List.forall_mem_cons]
    refine ⟨Nat.le_refl _, fun u hu => ?_⟩
    have := ih u hu
    omega

theorem pairwise_offset (h : Segmented offset s tokens) :
    tokens.Pairwise (·.offset < ·.offset) := by
  induction h with
  | last => simp
  | cons written blank tail ih =>
    refine List.Pairwise.cons (fun u hu => ?_) ih
    have hle := tail.offset_le u hu
    have hpos := List.length_pos_iff.mpr written.ne_nil
    omega

theorem head_offset (h : Segmented offset s tokens) : ∀ u ∈ tokens.head?, u.offset = offset := by
  cases h <;> simp

end Segmented

/-- The characters from one offset to another. -/
def slice (source : Text) (start stop : Nat) : Text := (source.drop start).take (stop - start)

/-- Where a token is followed by another, what it is made of stands between their offsets. -/
theorem Segmented.slice_eq {tokens : List Token} {lead : Text}
    (h : Segmented offset s tokens) (hlead : lead.length = offset) {i : Nat} {t u : Token}
    (ht : tokens[i]? = some t) (hu : tokens[i + 1]? = some u) :
    ∃ own gap, slice (lead ++ s) t.offset u.offset = own ++ gap ∧ Written t own ∧
      ∀ c ∈ gap, isBlank c = true := by
  induction h generalizing lead i with
  | last => simp at hu
  | @cons token own gap after tokens written blank tail ih =>
    cases i with
    | succ i =>
      have hlength : (lead ++ (own ++ gap)).length = token.offset + own.length + gap.length := by
        simp [hlead, Nat.add_assoc]
      simpa using ih hlength ht hu
    | zero =>
      obtain rfl : token = t := by simpa using ht
      refine ⟨own, gap, ?_, written, blank⟩
      have huo : u.offset = token.offset + own.length + gap.length := by
        apply tail.head_offset u
        rwa [Option.mem_def, List.head?_eq_getElem?]
      rw [slice, huo, ← hlead, List.drop_left, Nat.add_assoc, Nat.add_sub_cancel_left,
        ← List.length_append, List.take_left]

end DocComment.Screening

namespace DocComment

open Screening (Written slice)

/-- Screened tokens segment their text: they end in the mark of its end and nowhere before, begin in
order, and each stands for what it is made of and for nothing else but blanks. -/
theorem screen_segments {source : Text} {tokens : List Token} (h : screen source = .ok tokens) :
    (∃ init, tokens = init ++ [⟨.endOfText, [], source.length⟩] ∧
      (∀ t ∈ init, t.kind ≠ .endOfText)) ∧
    (∀ t ∈ tokens, t.kind ∉ [.star, .slash, .atSign, .newline]) ∧
    tokens.Pairwise (·.offset < ·.offset) ∧
    (∀ t ∈ tokens.head?, ∀ c ∈ source.take t.offset, Text.isBlank c = true) ∧
    ∀ i t u, tokens[i]? = some t → tokens[i + 1]? = some u →
      ∃ own gap, slice source t.offset u.offset = own ++ gap ∧ Written t own ∧
        ∀ c ∈ gap, Text.isBlank c = true := by
  obtain ⟨lead, after, rfl, hlead, hsegmented⟩ :=
    Screening.segmented_itemsFrom (Token.partition_tokenize source) (screen_eq_ok_iff.mp h)
  rw [Nat.zero_add] at hsegmented
  obtain ⟨init, rfl, hinit⟩ := hsegmented.exists_init
  simp only [List.mem_cons, List.not_mem_nil, or_false, not_or] at hinit
  refine ⟨⟨init, by rw [List.length_append], fun t ht => (hinit t ht).2.2.2.2⟩, ?_,
    hsegmented.pairwise_offset, ?_, ?_⟩
  · simp only [List.forall_mem_append, List.mem_cons, List.not_mem_nil, or_false, not_or]
    exact ⟨fun t ht => ⟨(hinit t ht).1, (hinit t ht).2.1, (hinit t ht).2.2.1, (hinit t ht).2.2.2.1⟩,
      by simp⟩
  · intro t ht
    rw [hsegmented.head_offset t ht, List.take_left]
    exact hlead
  · intro i t u ht hu
    exact hsegmented.slice_eq rfl ht hu

/-- The second token of this text is written in other letters than its own. -/
theorem screen_segments_near_tag :
    screen "/**\n * @Used**/".toList = .ok [⟨.intro, "/**".toList, 0⟩, ⟨.whitespace, ['\n'], 5⟩,
      ⟨.string, "@used".toList, 7⟩, ⟨.outro, "*/".toList, 12⟩, ⟨.endOfText, [], 15⟩] ∧
    ∃ own gap, slice "/**\n * @Used**/".toList 7 12 = own ++ gap ∧
      Written ⟨.string, "@used".toList, 7⟩ own ∧ ∀ c ∈ gap, Text.isBlank c = true := by
  have hscreen : screen "/**\n * @Used**/".toList = .ok [⟨.intro, "/**".toList, 0⟩,
      ⟨.whitespace, ['\n'], 5⟩, ⟨.string, "@used".toList, 7⟩, ⟨.outro, "*/".toList, 12⟩,
      ⟨.endOfText, [], 15⟩] := by
    rw [screen_eq_ok_iff]
    decide +kernel
  exact ⟨hscreen, (screen_segments hscreen).2.2.2.2 2 _ _ rfl rfl⟩

end DocComment
