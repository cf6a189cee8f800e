import DocComment.Proofs.Screening.Margin

/-!
# The tokens of a quiet text

A quiet text has no sign in it that means anything to screening: no carriage return, no at sign, no
delimiter of a comment. `Spells` relates such a text to its tokens. They depend on the text alone,
up to their offsets, and can be cut wherever no run is cut. The text has them inside a comment, up
to the end of a line, and on a line of its own in front of any text that it is cut off from.
-/

namespace DocComment.Screening

open Token (concat kindOf tokenizeFrom)

/-- The text has nothing in it that screening reads as more than text. -/
structure Quiet (t : Text) : Prop where
  noReturn : '\r' ∉ t
  noTag : '@' ∉ t
  noOutro : ¬ "*/".toList <:+: t
  noIntro : ¬ "/**".toList <:+: t

/-- The kinds of characters that make one token of each run, or more than one. -/
def runKinds : List Kind := [.whitespace, .string, .star]

/-- The tokens of a quiet text. -/
inductive Spells : List Token → Text → Prop
  | nil : Spells [] []
  | feed {tokens : List Token} {t : Text} (offset : Nat) (tail : Spells tokens t) :
      Spells (lineFeed offset :: tokens) ('\n' :: t)
  | run {tokens : List Token} {t : Text} (kind : Kind) (run : Text) (offset : Nat)
      (known : kind = .whitespace ∨ kind = .string) (nonempty : run ≠ [])
      (kinds : ∀ c ∈ run, kindOf c = kind) (next : ∀ c ∈ t.head?, kindOf c ≠ kind)
      (tail : Spells tokens t) : Spells (⟨kind, run, offset⟩ :: tokens) (run ++ t)
  | sign {tokens : List Token} {t : Text} (c : Char) (offset : Nat)
      (known : kindOf c ∉ [.whitespace, .string, .newline, .atSign, .slash, .star])
      (tail : Spells tokens t) : Spells (⟨kindOf c, [c], offset⟩ :: tokens) (c :: t)
  | slash {tokens : List Token} {t : Text} (offset : Nat) (tail : Spells tokens t) :
      Spells (⟨.string, ['/'], offset⟩ :: tokens) ('/' :: t)
  | stars {tokens : List Token} {t : Text} (n offset : Nat) (next : ∀ c ∈ t.head?, c ≠ '*')
      (tail : Spells tokens t) :
      Spells (⟨.string, List.replicate (n + 1) '*', offset⟩ :: tokens)
        (List.replicate (n + 1) '*' ++ t)

variable {s t : Text} {tokens : List Token}

theorem Quiet.of_append (h : Quiet (s ++ t)) : Quiet t where
  noReturn hmem := h.noReturn (by simp [hmem])
  noTag hmem := h.noTag (by simp [hmem])
  noOutro hpart := h.noOutro (hpart.trans (List.suffix_append s t).isInfix)
  noIntro hpart := h.noIntro (hpart.trans (List.suffix_append s t).isInfix)

theorem Quiet.nil : Quiet [] := ⟨by simp, by simp, by decide, by decide⟩

theorem Quiet.cons {c : Char} (hc : c ∉ ['\r', '@', '*', '/']) (ht : Quiet t) : Quiet (c :: t) := by
  simp only [List.mem_cons, List.not_mem_nil, or_false, not_or] at hc
  refine ⟨?_, ?_, ?_, ?_⟩
  · rw [List.mem_cons, not_or]
    exact ⟨Ne.symm hc.1, ht.noReturn⟩
  · rw [List.mem_cons, not_or]
    exact ⟨Ne.symm hc.2.1, ht.noTag⟩
  · rw [List.infix_cons_iff, not_or]
    refine ⟨?_, ht.noOutro⟩
    rintro ⟨rest, hrest⟩
    exact hc.2.2.1 (List.cons.inj hrest).1.symm
  · rw [List.infix_cons_iff, not_or]
    refine ⟨?_, ht.noIntro⟩
    rintro ⟨rest, hrest⟩
    exact hc.2.2.2 (List.cons.inj hrest).1.symm

theorem quiet_append (hs : ∀ c ∈ s, c ∉ ['\r', '@', '*', '/']) (ht : Quiet t) : Quiet (s ++ t) := by
  induction s with
  | nil => exact ht
  | cons c s ih =>
    rw [List.forall_mem_cons] at hs
    exact .cons hs.1 (ih hs.2)

theorem not_intro_of_quiet (hs : Quiet ('/' :: s)) (hnext : t.headD '\n' = '\n') :
    ¬ "**".toList <+: s ++ t := by
  rintro ⟨rest, hrest⟩
  have hfeed : ∀ u : Text, '*' :: u ≠ t := by
    rintro u rfl
    exact absurd hnext (by simp)
  match s with
  | [] => exact hfeed _ hrest
  | [c] => exact hfeed _ (List.cons.inj hrest).2
  | c :: d :: more =>
    obtain ⟨rfl, hmore⟩ := List.cons.inj hrest
    obtain ⟨rfl, -⟩ := List.cons.inj hmore
    exact hs.noIntro ⟨[], more, rfl⟩

theorem exists_stars (s : Text) :
    ∃ n rest, '*' :: s = List.replicate (n + 1) '*' ++ rest ∧ ∀ d ∈ rest.head?, d ≠ '*' := by
  obtain ⟨run, rest, heq, -, hrun, hstop⟩ := split_run (· = '*') s
  have hreplicate : run = List.replicate run.length '*' :=
    List.eq_replicate_of_mem fun d hd => by simpa using hrun d hd
  refine ⟨run.length, rest, ?_, by simpa using hstop⟩
  rw [heq, List.replicate_succ, List.cons_append, ← hreplicate]

/-- A text may be cut where no run is cut. -/
def Apart (s t : Text) : Prop :=
  ∀ c ∈ s.getLast?, ∀ d ∈ t.head?, kindOf d ∈ runKinds → kindOf c ≠ kindOf d

/-- What is read as one token ends where the text behind it begins. -/
structure Stops (own behind : Text) : Prop where
  noReturn : NoReturn behind
  apart : Apart own behind
  noOutro : own.getLast? = some '*' → behind.head? ≠ some '/'
  noIntro : own = ['/'] → ¬"**".toList <+: behind

/-- A text is cut behind its first token, which is a token in front of any text where it stops. -/
structure Begins (kind : Kind) (own rest : Text) : Prop where
  nonempty : own ≠ []
  noFeed : '\n' ∉ own
  apart : Apart own rest
  items : ∀ behind offset, Stops own behind →
    itemsFrom 0 (tokenizeFrom 0 offset (own ++ behind)) =
      .token ⟨kind, own, offset⟩ :: itemsFrom 0 (tokenizeFrom 0 (offset + own.length) behind)
  spells : ∀ tokens offset, Spells tokens rest →
    Spells (⟨kind, own, offset⟩ :: tokens) (own ++ rest)

theorem apart_of_kinds {own rest : Text} {k : Kind} (hown : ∀ c ∈ own, kindOf c = k)
    (hrest : ∀ d ∈ rest.head?, kindOf d ≠ k) : Apart own rest := by
  intro c hc d hd _
  rw [hown c (List.mem_of_getLast? hc)]
  exact (hrest d hd).symm

theorem apart_single {c : Char} {rest : Text} (hc : kindOf c ∉ runKinds) : Apart [c] rest := by
  intro d hd e _ hrun heq
  have hcd : c = d := by simpa using hd
  rw [← heq, ← hcd] at hrun
  exact hc hrun

/-- The run of a token does not go on behind it. -/
theorem Stops.kindOf_ne {own behind : Text} {k : Kind} (h : Stops own behind) (hne : own ≠ [])
    (hown : ∀ c ∈ own, kindOf c = k) (hk : k ∈ runKinds) : ∀ d ∈ behind.head?, kindOf d ≠ k := by
  intro d hd hkind
  have hlast := List.getLast?_eq_some_getLast hne
  refine h.apart _ hlast d hd (hkind ▸ hk) ?_
  rw [hown _ (List.getLast_mem hne), hkind]

theorem exists_begins_run {c : Char} (hs : Quiet (c :: s))
    (hrun : kindOf c = .whitespace ∨ kindOf c = .string) :
    ∃ own rest, c :: s = own ++ rest ∧ Begins (kindOf c) own rest := by
  obtain ⟨run, rest, heq, htake, hkinds, hstop⟩ := split_run (kindOf · = kindOf c) (c :: s)
  simp only [decide_eq_true_eq, decide_eq_false_iff_not] at hkinds hstop
  have hne : run ≠ [] := by
    rintro rfl
    simp at htake
  have hreturn : ∀ d ∈ run, kindOf d = kindOf c ∧ d ≠ '\r' := by
    refine fun d hd => ⟨hkinds d hd, ?_⟩
    rintro rfl
    exact hs.noReturn (by simp [heq, hd])
  have hknown : kindOf c ∈ runKinds := by rcases hrun with h | h <;> simp [h, runKinds]
  refine ⟨run, rest, heq, hne, fun hfeed => ?_,
    apart_of_kinds hkinds hstop, fun behind offset h => ?_,
    fun tokens offset h => .run _ _ offset hrun hne hkinds hstop h⟩
  · rw [← hkinds _ hfeed, kindOf_feed] at hrun
    rcases hrun with h | h <;> cases h
  · exact items_run hrun hne hreturn h.noReturn (h.kindOf_ne hne hkinds hknown)

theorem exists_begins_stars (s : Text) :
    ∃ own rest, '*' :: s = own ++ rest ∧ Begins .string own rest := by
  obtain ⟨n, rest, heq, hstop⟩ := exists_stars s
  have hkinds : ∀ c ∈ List.replicate (n + 1) '*', kindOf c = .star := by
    intro c hc
    rw [List.eq_of_mem_replicate hc, kindOf_star]
  have hstar : ∀ d ∈ rest.head?, kindOf d ≠ .star :=
    fun d hd hkind => hstop d hd (Token.eq_of_kindOf hkind rfl)
  refine ⟨List.replicate (n + 1) '*', rest, heq, by simp, fun hfeed => ?_,
    apart_of_kinds hkinds hstar,
    fun behind offset h => ?_, fun tokens offset h => .stars n offset hstop h⟩
  · exact absurd (List.eq_of_mem_replicate hfeed) (by decide)
  · have hbehind := h.kindOf_ne (by simp) hkinds (by simp [runKinds])
    have hlast : (List.replicate (n + 1) '*').getLast? = some '*' := by simp [List.replicate_succ']
    rw [List.length_replicate]
    exact items_stars n h.noReturn (fun d hd heq => hbehind d hd (heq ▸ kindOf_star))
      fun d hd heq => h.noOutro hlast (heq ▸ hd)

/-- A quiet text begins with a token, if it does not begin with a line break. -/
theorem exists_begins {c : Char} (hs : Quiet (c :: s)) (hfeed : c ≠ '\n') :
    ∃ kind own rest, c :: s = own ++ rest ∧ Begins kind own rest := by
  by_cases hrun : kindOf c = .whitespace ∨ kindOf c = .string
  · exact ⟨kindOf c, exists_begins_run hs hrun⟩
  by_cases hslash : c = '/'
  · subst hslash
    have hapart : Apart ['/'] s := apart_single (by simp [kindOf_slash, runKinds])
    exact ⟨.string, ['/'], s, rfl, by simp, by simp, hapart,
      fun behind offset h => items_slash (h.noIntro rfl), fun tokens offset h => .slash offset h⟩
  by_cases hstar : c = '*'
  · subst hstar
    exact ⟨.string, exists_begins_stars s⟩
  · have hknown : kindOf c ∉ [.whitespace, .string, .newline, .atSign, .slash, .star] := by
      simp only [List.mem_cons, List.not_mem_nil, or_false, not_or] at hrun ⊢
      refine ⟨hrun.1, hrun.2, fun h => hfeed (Token.eq_feed_of_kindOf h), fun h => ?_,
        fun h => hslash (Token.eq_of_kindOf h rfl), fun h => hstar (Token.eq_of_kindOf h rfl)⟩
      obtain rfl : c = '@' := Token.eq_of_kindOf h rfl
      exact hs.noTag (by simp)
    have hreturn : c ≠ '\r' := fun h => hs.noReturn (by simp [h])
    have hapart : Apart [c] s := by
      refine apart_single fun hmem => hknown ?_
      simp only [runKinds, List.mem_cons, List.not_mem_nil, or_false] at hmem
      rcases hmem with h | h | h <;> simp [h]
    have hnone : '\n' ∉ [c] := by
      rw [List.mem_singleton]
      exact Ne.symm hfeed
    exact ⟨kindOf c, [c], s, rfl, by simp, hnone, hapart,
      fun behind offset _ => items_sign hknown hreturn behind,
      fun tokens offset h => .sign c offset hknown h⟩

/-- Behind a token comes the next character of the text, or the end of its line. -/
theorem headD_append (hnext : t.headD '\n' = '\n') (rest : Text) :
    (rest ++ t).headD '\n' = rest.headD '\n' := by
  cases rest with
  | nil => exact hnext
  | cons => rfl

/-- A closing delimiter does not stand across a cut of a quiet text. -/
theorem head_ne_slash {own rest : Text} (hs : Quiet (own ++ rest))
    (hlast : own.getLast? = some '*') :
    rest.head? ≠ some '/' := by
  intro hhead
  obtain ⟨front, rfl⟩ := List.getLast?_eq_some_iff.mp hlast
  obtain ⟨more, rfl⟩ := List.head?_eq_some_iff.mp hhead
  exact hs.noOutro ⟨front, more, by simp⟩

/-- A token of a text inside a comment stops where the text goes on, or its line ends. -/
theorem Begins.stops_closed {kind : Kind} {own rest : Text} (h : Begins kind own rest)
    (hs : Quiet (own ++ rest)) (ht : '\r' ∉ t) (hnext : t.headD '\n' = '\n') :
    Stops own (closed (rest ++ t)) := by
  have hhead : (closed (rest ++ t)).head? = some (rest.headD '\n') := by
    rw [head?_closed, headD_append hnext]
  have hrest : Quiet rest := hs.of_append
  refine ⟨noReturn_closed ?_, fun c hc d hd hrun => ?_, fun hlast => ?_, fun hslash hintro => ?_⟩
  · rw [List.mem_append, not_or]
    exact ⟨hrest.noReturn, ht⟩
  · rw [hhead, Option.mem_some_iff] at hd
    subst hd
    cases rest with
    | nil => simp [kindOf_feed, runKinds] at hrun
    | cons d rest => exact h.apart c hc d rfl hrun
  · rw [hhead]
    cases rest with
    | nil => decide
    | cons d rest => exact head_ne_slash hs hlast
  · subst hslash
    exact not_intro_of_quiet hs hnext (prefix_of_closed (by decide) hintro)

/-- A quiet text inside a comment, up to the end of a line, is screened to its tokens. -/
theorem exists_spells (hs : Quiet s) (ht : '\r' ∉ t) (hnext : t.headD '\n' = '\n') (offset : Nat) :
    ∃ tokens after, closedItems offset (s ++ t) = tokens.map .token ++ closedItems after t ∧
      Spells tokens s := by
  induction s using suffix_induction generalizing offset with
  | nil => exact ⟨[], offset, rfl, .nil⟩
  | cons c tail ih =>
    by_cases hfeed : c = '\n'
    · subst hfeed
      obtain ⟨tokens, after, hmore, htokens⟩ :=
        ih ['\n'] tail rfl (by simp) (hs.of_append (s := ['\n'])) (offset + 4)
      refine ⟨lineFeed (offset + 2) :: tokens, after, ?_, .feed _ htokens⟩
      rw [List.cons_append, closedItems_feed, hmore, List.map_cons, List.cons_append]
    · obtain ⟨kind, own, rest, heq, hbegins⟩ := exists_begins hs hfeed
      have hquiet : Quiet (own ++ rest) := heq ▸ hs
      obtain ⟨tokens, after, hmore, htokens⟩ :=
        ih own rest heq hbegins.nonempty hquiet.of_append (offset + own.length)
      refine ⟨⟨kind, own, offset⟩ :: tokens, after, ?_, heq ▸ hbegins.spells tokens offset htokens⟩
      have hitems := hbegins.items _ offset (hbegins.stops_closed hquiet ht hnext)
      rw [closedItems] at hmore
      rw [closedItems, heq, List.append_assoc, closed_run fun d hd hd' => hbegins.noFeed (hd' ▸ hd),
        hitems, hmore, List.map_cons, List.cons_append]

/-- A text on a line ends in front of the text behind it: no line break, no run and no delimiter
stands across the cut. -/
structure Cut (s t : Text) : Prop where
  noBreak : ∀ d ∈ t.head?, d ≠ '\r' ∧ d ≠ '\n'
  apart : Apart s t
  noDelimiter : ∀ c ∈ s.getLast?, c ∈ ['*', '/'] → ∀ d ∈ t.head?, d ∉ ['*', '/']

/-- A text that does not end with a blank is cut off by one. -/
theorem cut_of_space (hs : ∀ c ∈ s.getLast?, kindOf c ≠ .whitespace) (t : Text) :
    Cut s (' ' :: t) := by
  refine ⟨?_, fun c hc d hd _ => ?_, fun c _ _ => ?_⟩
  · rintro d ⟨⟩
    decide
  · obtain rfl := Option.mem_some_iff.mp hd
    rw [kindOf_space]
    exact hs c hc
  · rintro d ⟨⟩
    decide

theorem Begins.stops {kind : Kind} {own rest : Text} (h : Begins kind own rest)
    (hs : Quiet (own ++ rest)) (hfeed : '\n' ∉ rest) (ht : Cut (own ++ rest) t) :
    Stops own (rest ++ t) := by
  cases rest with
  | nil =>
    rw [List.append_nil] at ht
    refine ⟨noReturn_of_head ht.noBreak, ht.apart, fun hlast hhead => ?_, fun hslash hintro => ?_⟩
    · exact ht.noDelimiter _ hlast (by simp) _ hhead (by simp)
    · subst hslash
      obtain ⟨more, rfl⟩ := hintro
      exact ht.noDelimiter '/' rfl (by simp) '*' rfl (by simp)
  | cons d rest =>
    have hreturn : d ≠ '\r' := fun hd => hs.noReturn (by simp [hd])
    have hbreak : d ≠ '\n' := fun hd => hfeed (by simp [hd])
    refine ⟨noReturn_of_head ?_, h.apart, fun hlast hhead =>
      head_ne_slash hs hlast hhead, fun hslash hintro => ?_⟩
    · rintro e ⟨⟩
      exact ⟨hreturn, hbreak⟩
    · subst hslash
      obtain ⟨more, hintro⟩ := hintro
      obtain ⟨rfl, hsecond⟩ : '*' = d ∧ '*' :: more = rest ++ t := List.cons.inj hintro
      cases rest with
      | nil =>
        -- the second star is behind the text, which ends with the first
        have hhead : t.head? = some '*' := congrArg List.head? hsecond.symm
        exact ht.noDelimiter '*' rfl (by simp) '*' hhead (by simp)
      | cons e rest =>
        obtain ⟨rfl, -⟩ := List.cons.inj hsecond
        exact hs.noIntro ⟨[], rest, rfl⟩

theorem Apart.of_append {own : Text} (h : Apart (own ++ s) t) : Apart s t := by
  intro c hc
  apply h c
  rw [List.getLast?_append, Option.mem_def.mp hc]
  rfl

theorem Cut.of_append {own : Text} (h : Cut (own ++ s) t) : Cut s t := by
  refine ⟨h.noBreak, h.apart.of_append, fun c hc => h.noDelimiter c ?_⟩
  rw [List.getLast?_append, Option.mem_def.mp hc]
  rfl

/-- A quiet text on a line is screened to its tokens in front of any text that it is cut off. -/
theorem exists_spells_line (hs : Quiet s) (hfeed : '\n' ∉ s) (ht : Cut s t) (offset : Nat) :
    ∃ tokens, itemsFrom 0 (tokenizeFrom 0 offset (s ++ t)) =
        tokens.map .token ++ itemsFrom 0 (tokenizeFrom 0 (offset + s.length) t) ∧
        Spells tokens s := by
  induction s using suffix_induction generalizing offset with
  | nil => exact ⟨[], rfl, .nil⟩
  | cons c tail ih =>
    obtain ⟨kind, own, rest, heq, hbegins⟩ :=
      exists_begins hs fun hc => hfeed (hc ▸ List.mem_cons_self)
    have hnext := ih own rest heq hbegins.nonempty
    rw [heq] at hs hfeed ht ⊢
    have hrest : '\n' ∉ rest := fun hmem => hfeed (List.mem_append_right own hmem)
    obtain ⟨tokens, hmore, htokens⟩ := hnext hs.of_append hrest ht.of_append (offset + own.length)
    refine ⟨⟨kind, own, offset⟩ :: tokens, ?_, hbegins.spells tokens offset htokens⟩
    rw [List.append_assoc, hbegins.items _ offset (hbegins.stops hs hrest ht), hmore, List.map_cons,
      List.cons_append, List.length_append, Nat.add_assoc]

/-! ## What the tokens are -/

theorem Spells.concat_eq (h : Spells tokens t) : concat tokens = t := by
  induction h with
  | nil => rfl
  | feed _ _ ih => rw [Token.concat_cons, ih, lineFeed, List.singleton_append]
  | run _ _ _ _ _ _ _ _ ih => rw [Token.concat_cons, ih]
  | sign _ _ _ _ ih => rw [Token.concat_cons, ih, List.singleton_append]
  | slash _ _ ih => rw [Token.concat_cons, ih, List.singleton_append]
  | stars _ _ _ _ ih => rw [Token.concat_cons, ih]

/-- The kind of a token that is made of characters of a kind. -/
def spelledKind : Kind → Kind
  | .newline => .whitespace
  | .star | .slash => .string
  | kind => kind

theorem spelledKind_of_known {kind : Kind}
    (h : kind ∉ [.whitespace, .string, .newline, .atSign, .slash, .star]) :
    spelledKind kind = kind := by
  cases kind <;> first | rfl | simp at h

/-- The first token has the kind that the first character gives it. -/
theorem Spells.kind_head (h : Spells tokens t) :
    ∀ u ∈ tokens.head?, ∃ c ∈ t.head?, u.kind = spelledKind (kindOf c) := by
  intro u hu
  cases h with
  | nil => simp at hu
  | feed =>
    obtain rfl := Option.mem_some_iff.mp hu
    exact ⟨'\n', rfl, by rw [kindOf_feed]; rfl⟩
  | run kind run offset known nonempty kinds =>
    obtain rfl := Option.mem_some_iff.mp hu
    obtain ⟨c, run, rfl⟩ := List.exists_cons_of_ne_nil nonempty
    refine ⟨c, rfl, ?_⟩
    rw [kinds c (by simp)]
    rcases known with rfl | rfl <;> rfl
  | sign c offset known =>
    obtain rfl := Option.mem_some_iff.mp hu
    exact ⟨c, rfl, (spelledKind_of_known known).symm⟩
  | slash =>
    obtain rfl := Option.mem_some_iff.mp hu
    exact ⟨'/', rfl, by rw [kindOf_slash]; rfl⟩
  | stars =>
    obtain rfl := Option.mem_some_iff.mp hu
    exact ⟨'*', rfl, by rw [kindOf_star]; rfl⟩

theorem kind_mem_cons {token : Token} {rest : Text} (own : Text)
    (h : Spells (token :: tokens) (own ++ rest))
    (ih : ∀ u ∈ tokens, ∃ c ∈ rest, u.kind = spelledKind (kindOf c)) :
    ∀ u ∈ token :: tokens, ∃ c ∈ own ++ rest, u.kind = spelledKind (kindOf c) := by
  rw [List.forall_mem_cons]
  constructor
  · obtain ⟨c, hc, hkind⟩ := h.kind_head token rfl
    exact ⟨c, List.mem_of_mem_head? hc, hkind⟩
  · intro u hu
    obtain ⟨c, hc, hkind⟩ := ih u hu
    exact ⟨c, List.mem_append_right own hc, hkind⟩

/-- Each token has the kind that one of the characters gives it. -/
theorem Spells.kind_mem (h : Spells tokens t) :
    ∀ u ∈ tokens, ∃ c ∈ t, u.kind = spelledKind (kindOf c) := by
  induction h with
  | nil => simp
  | feed offset tail ih => exact kind_mem_cons ['\n'] (.feed offset tail) ih
  | run kind run offset known nonempty kinds next tail ih =>
    exact kind_mem_cons run (.run kind run offset known nonempty kinds next tail) ih
  | sign c offset known tail ih => exact kind_mem_cons [c] (.sign c offset known tail) ih
  | slash offset tail ih => exact kind_mem_cons ['/'] (.slash offset tail) ih
  | stars n offset next tail ih => exact kind_mem_cons _ (.stars n offset next tail) ih

theorem Spells.eq_nil (h : Spells tokens []) : tokens = [] := by
  cases tokens with
  | nil => rfl
  | cons u tokens =>
    obtain ⟨c, hc, -⟩ := h.kind_head u rfl
    simp at hc

theorem Spells.ne_nil (h : Spells tokens t) (ht : t ≠ []) : tokens ≠ [] := by
  rintro rfl
  exact ht h.concat_eq.symm

/-- A sign at the head of a text is the first token. -/
theorem Spells.of_sign {c : Char} (h : Spells tokens (c :: t))
    (hc : kindOf c ∉ [.whitespace, .string, .newline, .atSign, .slash, .star]) :
    ∃ offset tail, tokens = ⟨kindOf c, [c], offset⟩ :: tail ∧ Spells tail t := by
  simp only [List.mem_cons, List.not_mem_nil, or_false, not_or] at hc
  generalize hall : c :: t = all at h
  cases h with
  | nil => cases hall
  | feed =>
    obtain ⟨rfl, -⟩ := List.cons.inj hall
    exact absurd kindOf_feed hc.2.2.1
  | run kind run offset known nonempty kinds =>
    obtain ⟨d, run, rfl⟩ := List.exists_cons_of_ne_nil nonempty
    obtain ⟨rfl, -⟩ := List.cons.inj hall
    have hkind := kinds c (by simp)
    rcases known with rfl | rfl
    · exact absurd hkind hc.1
    · exact absurd hkind hc.2.1
  | sign d offset known tail =>
    obtain ⟨rfl, rfl⟩ := List.cons.inj hall
    exact ⟨offset, _, rfl, tail⟩
  | slash =>
    obtain ⟨rfl, -⟩ := List.cons.inj hall
    exact absurd kindOf_slash hc.2.2.2.2.1
  | stars =>
    obtain ⟨rfl, -⟩ := List.cons.inj hall
    exact absurd kindOf_star hc.2.2.2.2.2

theorem Spells.of_punctuation {c : Char} {k : Kind} (h : Spells tokens (c :: t))
    (hc : k.sign? = some c) (hk : k ∉ [.atSign, .slash, .star]) :
    ∃ offset tail, tokens = ⟨k, [c], offset⟩ :: tail ∧ Spells tail t := by
  have hkind := Token.kindOf_of_sign hc
  rw [← hkind]
  apply h.of_sign
  rw [hkind]
  simp only [List.mem_cons, List.not_mem_nil, or_false, not_or] at hk ⊢
  refine ⟨?_, ?_, ?_, hk⟩ <;> rintro rfl <;> cases hc

/-- A text of characters that make strings is one token. -/
theorem Spells.of_string (h : Spells tokens t) (ht : t ≠ [])
    (hkinds : ∀ c ∈ t, kindOf c = .string) : ∃ offset, tokens = [⟨.string, t, offset⟩] := by
  cases h with
  | nil => exact absurd rfl ht
  | feed => exact absurd (hkinds '\n' (by simp)) (by simp [kindOf_feed])
  | @run tokens rest kind run offset known nonempty kinds next tail =>
    obtain ⟨d, run, rfl⟩ := List.exists_cons_of_ne_nil nonempty
    obtain rfl : kind = .string := (kinds d (by simp)).symm.trans (hkinds d (by simp))
    cases rest with
    | nil =>
      obtain rfl := tail.eq_nil
      exact ⟨offset, by simp⟩
    | cons e rest => exact absurd (hkinds e (by simp)) (next e rfl)
  | sign c offset known =>
    rw [hkinds c (by simp)] at known
    simp at known
  | slash => exact absurd (hkinds '/' (by simp)) (by simp [kindOf_slash])
  | stars => exact absurd (hkinds '*' (by simp [List.replicate_succ])) (by simp [kindOf_star])

/-- What one token is made of lies on one side of a cut. -/
theorem Apart.of_own {own rest : Text} {kind : Kind} (heq : own ++ rest = s ++ t) (hne : s ≠ [])
    (hkinds : ∀ c ∈ own, kindOf c = kind) (hown : kind ∈ runKinds ∨ own.length ≤ 1)
    (hapart : Apart s t) : ∃ more, s = own ++ more ∧ rest = more ++ t := by
  rcases List.append_eq_append_iff.mp heq with ⟨more, hs, ht⟩ | ⟨more, hsplit, ht⟩
  · exact ⟨more, hs, ht⟩
  · cases more with
    | nil => exact ⟨[], by simpa using hsplit.symm, by simpa using ht.symm⟩
    | cons d more =>
      obtain ⟨c, hc⟩ : ∃ c, s.getLast? = some c := ⟨_, List.getLast?_eq_some_getLast hne⟩
      have hlast : kindOf c = kind :=
        hkinds c (by rw [hsplit]; exact List.mem_append_left _ (List.mem_of_getLast? hc))
      have hd : kindOf d = kind := hkinds d (by simp [hsplit])
      rcases hown with hrun | hlength
      · refine absurd (hlast.trans hd.symm) (hapart c hc d (by simp [ht]) ?_)
        rwa [hd]
      · have hpos := List.length_pos_iff.mpr hne
        simp only [hsplit, List.length_append, List.length_cons] at hlength
        omega

theorem head?_of_append {more : Text} (h : rest = more ++ t) :
    ∀ c ∈ more.head?, c ∈ rest.head? := by
  intro c hc
  rw [h]
  cases more with
  | nil => simp at hc
  | cons d more => exact hc

/-- A cut behind the first token is a cut of what follows it. -/
theorem split_cons {token : Token} {rest : Text} (own : Text) (kind : Kind)
    (hwhole : Spells (token :: tokens) (own ++ rest))
    (hcons : ∀ left more, (∀ c ∈ more.head?, c ∈ rest.head?) → Spells left more →
      Spells (token :: left) (own ++ more))
    (hkinds : ∀ c ∈ own, kindOf c = kind) (hown : kind ∈ runKinds ∨ own.length ≤ 1)
    (ih : ∀ {more}, Apart more t → more ++ t = rest →
      ∃ left right, tokens = left ++ right ∧ Spells left more ∧ Spells right t)
    (heq : s ++ t = own ++ rest) (hapart : Apart s t) :
    ∃ left right, token :: tokens = left ++ right ∧ Spells left s ∧ Spells right t := by
  by_cases hs : s = []
  · subst hs
    rw [← heq] at hwhole
    exact ⟨[], token :: tokens, rfl, .nil, hwhole⟩
  · obtain ⟨more, rfl, hrest⟩ := Apart.of_own heq.symm hs hkinds hown hapart
    obtain ⟨left, right, rfl, hleft, hright⟩ := ih hapart.of_append hrest.symm
    exact ⟨token :: left, right, rfl, hcons left more (head?_of_append hrest) hleft, hright⟩

/-- The tokens of a text that is cut where no run is are those of its parts. -/
theorem Spells.split (h : Spells tokens (s ++ t)) (hapart : Apart s t) :
    ∃ left right, tokens = left ++ right ∧ Spells left s ∧ Spells right t := by
  generalize hall : s ++ t = all at h
  induction h generalizing s with
  | nil =>
    obtain ⟨rfl, rfl⟩ := List.append_eq_nil_iff.mp hall
    exact ⟨[], [], rfl, .nil, .nil⟩
  | @feed tokens rest offset tail ih =>
    exact split_cons ['\n'] (kindOf '\n') (.feed offset tail) (fun _ _ _ h => .feed offset h)
      (by simp) (.inr (Nat.le_refl 1)) ih hall hapart
  | @run tokens rest kind run offset known nonempty kinds next tail ih =>
    refine split_cons run kind (.run kind run offset known nonempty kinds next tail)
      (fun left more hmore h => ?_) kinds (.inl ?_) ih hall hapart
    · exact .run kind run offset known nonempty kinds (fun c hc => next c (hmore c hc)) h
    · rcases known with rfl | rfl <;> simp [runKinds]
  | @sign tokens rest c offset known tail ih =>
    exact split_cons [c] (kindOf c) (.sign c offset known tail)
      (fun _ _ _ h => .sign c offset known h) (by simp) (.inr (Nat.le_refl 1)) ih hall hapart
  | @slash tokens rest offset tail ih =>
    exact split_cons ['/'] (kindOf '/') (.slash offset tail) (fun _ _ _ h => .slash offset h)
      (by simp) (.inr (Nat.le_refl 1)) ih hall hapart
  | @stars tokens rest n offset next tail ih =>
    refine split_cons (List.replicate (n + 1) '*') .star (.stars n offset next tail)
      (fun left more hmore h => ?_) (fun c hc => ?_) (.inl (by simp [runKinds])) ih hall hapart
    · exact .stars n offset (fun c hc => next c (hmore c hc)) h
    · rw [List.eq_of_mem_replicate hc, kindOf_star]

end DocComment.Screening
