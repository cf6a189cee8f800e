import DocComment.Proofs.Screening.Readable

/-!
# Stars and slashes that a step takes

A step takes its raw tokens as far as they go: the stars behind an opening delimiter are all taken,
and no star is taken as text when a star or a slash follows it. `Chunk` says this of the raw tokens
that a step takes, with those that it leaves, by the kind of the token that it gives.
-/

namespace DocComment

/-- A closing delimiter is no raw token. -/
theorem Token.IsRaw.kind_ne_outro {t : Token} (h : IsRaw t) : t.kind ≠ .outro := by
  intro heq
  rcases h.kind_cases with hmem | ⟨c, -, hc⟩
  · simp [heq] at hmem
  · rw [heq] at hc
    cases hc

namespace Screening

open Token (Partition IsRaw concat)

/-- The raw tokens that a step takes and those that it leaves, by the kind of the token it gives. -/
inductive Chunk : Kind → (taken left : List Token) → Prop
  | opened {lead run left : List Token} {first : Token}
      (free : ∀ u ∈ lead, u.kind ≠ .star ∧ u.kind ≠ .slash) (slash : first.kind = .slash)
      (stars : ∀ u ∈ run, u.kind = .star) (two : 2 ≤ run.length)
      (stop : ∀ u ∈ left.head?, u.kind ≠ .star) : Chunk .intro (lead ++ first :: run) left
  | closed {lead run left : List Token} {last : Token}
      (free : ∀ u ∈ lead, u.kind ≠ .star ∧ u.kind ≠ .slash) (nonempty : run ≠ [])
      (stars : ∀ u ∈ run, u.kind = .star) (slash : last.kind = .slash) :
      Chunk .outro (lead ++ (run ++ [last])) left
  | slash {left : List Token} {first : Token} (slash : first.kind = .slash)
      (stop : ∀ second third more, left = second :: third :: more →
        ¬(second.kind = .star ∧ third.kind = .star)) : Chunk .string [first] left
  | other {kind : Kind} {taken left : List Token} (other : kind ≠ .outro)
      (noSlash : ∀ u ∈ taken, u.kind ≠ .slash)
      (stop : ∀ u ∈ taken.getLast?, u.kind = .star →
        ∀ v ∈ left.head?, v.kind ≠ .star ∧ v.kind ≠ .slash) : Chunk kind taken left

variable {offset : Nat} {s : Text} {first t : Token} {rest taken left : List Token} {kind : Kind}

/-- A step that takes no stars and no slashes. -/
theorem Chunk.of_free (hkind : kind ≠ .outro) (h : ∀ u ∈ taken, u.kind ≠ .star ∧ u.kind ≠ .slash) :
    Chunk kind taken left :=
  .other hkind (fun u hu => (h u hu).2) fun u hu hstar =>
    absurd hstar (h u (List.mem_of_getLast? hu)).1

/-- The raw tokens behind the first that a step takes and those that it leaves. -/
def StepTakes (first : Token) (rest : List Token) (kind : Kind) (step : Step) : Prop :=
  ∃ taken left, rest = taken ++ left ∧ rest.drop step.taken = left ∧
    Chunk kind (first :: taken) left

theorem mergeRun_chunk (hk : first.kind = .whitespace ∨ first.kind = .string)
    (ht : (mergeRun first rest).item = .token t) :
    StepTakes first rest t.kind (mergeRun first rest) := by
  obtain ⟨run, tail, rfl, hsame, hstep⟩ := mergeRun_step first rest
  rw [hstep] at ht ⊢
  refine ⟨run, tail, rfl, List.drop_left, .of_free ?_ fun u hu => ?_⟩
  · rw [← Item.token.inj ht]
    rcases hk with hk | hk <;> simp [hk]
  · rcases hk with hk | hk <;> simp [hsame u hu, hk]

theorem slash_chunk (hk : first.kind = .slash) (ht : (slash first rest).item = .token t) :
    StepTakes first rest t.kind (slash first rest) := by
  rcases slash_token ht with
    ⟨rfl, second, third, run, more, rfl, hsecond, hthird, hrun, hleft, hstop⟩ | ⟨rfl, hleft, hstop⟩
  · refine ⟨second :: third :: run, more, rfl, hleft, ?_⟩
    have hstars : ∀ u ∈ second :: third :: run, u.kind = .star := by
      simp only [List.forall_mem_cons]
      exact ⟨hsecond, hthird, hrun⟩
    have hchunk : Chunk .intro ([] ++ first :: (second :: third :: run)) more :=
      .opened (by simp) hk hstars (by simp) hstop
    exact hchunk
  · exact ⟨[], rest, rfl, hleft, .slash hk hstop⟩

theorem stars_chunk (hk : first.kind = .star) (ht : (stars first rest).item = .token t) :
    StepTakes first rest t.kind (stars first rest) := by
  obtain ⟨run, tail, rfl, hrun, hstop, hcases⟩ := stars_token ht
  rcases hcases with ⟨rfl, closing, more, rfl, hclosing, hleft⟩ | ⟨rfl, hleft, hslash⟩
  · refine ⟨run ++ [closing], more, by simp, hleft, ?_⟩
    have hstars : ∀ u ∈ first :: run, u.kind = .star := by
      simp only [List.forall_mem_cons]
      exact ⟨hk, hrun⟩
    have hchunk : Chunk .outro ([] ++ (first :: run ++ [closing])) more :=
      .closed (by simp) (by simp) hstars hclosing
    exact hchunk
  · refine ⟨run, tail, rfl, hleft, .other (by simp) ?_ ?_⟩
    · simp only [List.forall_mem_cons]
      exact ⟨by simp [hk], fun u hu => by simp [hrun u hu]⟩
    · exact fun u _ _ v hv => ⟨hstop v hv, hslash v hv⟩

section LineStart

variable {lead after : List Token} {next : Token}

/-- What a slash that begins a line takes, with the line break and the blanks in front of it. -/
theorem lineSlash_chunk (hfree : ∀ u ∈ lead, u.kind ≠ .star ∧ u.kind ≠ .slash)
    (hslash : next.kind = .slash) (ht : (lineSlash next after).item = .token t) :
    ∃ taken left, after = taken ++ left ∧ after.drop (lineSlash next after).taken = left ∧
      Chunk t.kind (lead ++ next :: taken) left := by
  obtain ⟨rfl, second, third, run, more, rfl, hsecond, hthird, hrun, hleft, hstop⟩ :=
    lineSlash_token ht
  have hstars : ∀ u ∈ second :: third :: run, u.kind = .star := by
    simp only [List.forall_mem_cons]
    exact ⟨hsecond, hthird, hrun⟩
  exact ⟨second :: third :: run, more, rfl, hleft, .opened hfree hslash hstars (by simp) hstop⟩

/-- What a star that begins a line takes, with the line break and the blanks in front of it. -/
theorem lineStar_chunk (hfree : ∀ u ∈ lead, u.kind ≠ .star ∧ u.kind ≠ .slash)
    (hstar : next.kind = .star) (ht : (lineStar next after).item = .token t) :
    ∃ taken left, after = taken ++ left ∧ after.drop (lineStar next after).taken = left ∧
      Chunk t.kind (lead ++ next :: taken) left := by
  have hlead : ∀ u ∈ lead, u.kind ≠ .slash := fun u hu => (hfree u hu).2
  rcases lineStar_token ht with ⟨rfl, blank, more, rfl, hblank, hleft⟩ | ⟨rfl, hleft, hstop⟩ |
    ⟨rfl, run, closing, more, rfl, hrun, hclosing, hleft⟩
  · refine ⟨[blank], more, rfl, hleft, .other (by simp [lineFeed]) ?_ ?_⟩
    · rw [List.forall_mem_append]
      exact ⟨hlead, by simp [hstar, hblank]⟩
    · intro u hu hkind
      rw [List.getLast?_append] at hu
      obtain rfl : blank = u := by simpa using hu
      simp [hblank] at hkind
  · refine ⟨[], after, rfl, hleft, .other (by simp [lineFeed]) ?_ fun _ _ _ => hstop⟩
    rw [List.forall_mem_append]
    exact ⟨hlead, by simp [hstar]⟩
  · have hstars : ∀ u ∈ next :: run, u.kind = .star := by
      simp only [List.forall_mem_cons]
      exact ⟨hstar, hrun⟩
    refine ⟨run ++ [closing], more, by simp, hleft, ?_⟩
    exact .closed hfree (List.cons_ne_nil _ _) hstars hclosing

end LineStart

/-- A line break takes the blanks behind it, and what begins the line if that is more than text. -/
theorem lineStart_chunk (h : Partition offset s (first :: rest)) (hk : first.kind = .newline)
    (ht : (lineStart first rest).item = .token t) :
    StepTakes first rest t.kind (lineStart first rest) := by
  obtain ⟨blanks, next, after, behind, rfl, hblanks, hnext, -⟩ := exists_lineStart h hk
  have hfree : ∀ u ∈ first :: blanks, u.kind ≠ .star ∧ u.kind ≠ .slash := by
    simp only [List.forall_mem_cons, hk]
    exact ⟨by simp, fun u hu => by simp [hblanks u hu]⟩
  rcases lineStart_token hblanks hnext ht with ⟨hslash, ht, hleft⟩ | ⟨hstar, ht, hleft⟩
    | ⟨hend, rfl, hleft⟩ | ⟨rfl, hleft⟩
  · obtain ⟨taken, left, rfl, hdrop, hchunk⟩ := lineSlash_chunk hfree hslash ht
    exact ⟨blanks ++ next :: taken, left, by simp, hleft.trans hdrop, hchunk⟩
  · obtain ⟨taken, left, rfl, hdrop, hchunk⟩ := lineStar_chunk hfree hstar ht
    exact ⟨blanks ++ next :: taken, left, by simp, hleft.trans hdrop, hchunk⟩
  · have hchunk : Chunk t.kind ((first :: blanks) ++ [t]) after := by
      apply Chunk.of_free (by simp [hend])
      rw [List.forall_mem_append]
      exact ⟨hfree, by simp [hend]⟩
    exact ⟨blanks ++ [t], after, by simp, hleft, hchunk⟩
  · exact ⟨blanks, next :: after, rfl, hleft, .of_free (by simp [lineFeed]) hfree⟩

theorem atSign_chunk (h : Partition offset s (first :: rest)) (hk : first.kind = .atSign)
    (ht : (atSign first rest).item = .token t) :
    StepTakes first rest t.kind (atSign first rest) := by
  have htext : ∀ c ∈ t.text, c ≠ '*' ∧ c ≠ '/' := by
    rcases atSign_text ht with rfl | htag
    · have hfirst := (h.of_head (by simp [hk])).1.text_of_sign (c := '@') (by rw [hk]; rfl)
      simp [hfirst]
    · have hall : ∀ text ∈ tagTexts, text.all (fun c => c ≠ '*' ∧ c ≠ '/') = true := by decide
      intro c hc
      exact of_decide_eq_true (List.all_eq_true.mp (hall _ htag) c hc)
  rcases atSign_token h.text_of_minus ht with ⟨rfl, hleft⟩ | ⟨taken, more, rfl, -, -, hlower,
    hkind, hleft⟩
  · exact ⟨[], rest, rfl, hleft, .of_free (by simp) (by simp [hk])⟩
  · refine ⟨taken, more, rfl, hleft, .of_free ?_ ?_⟩
    · rcases hkind with ⟨name, hkind⟩ | ⟨hkind, -⟩ <;> simp [hkind]
    · simp only [List.forall_mem_cons]
      refine ⟨by simp [hk], fun u hu => ?_⟩
      have hchar : ∀ c, u.kind.sign? = some c → Text.lowerChar c = c → c ∈ t.text := by
        intro c hc hsame
        have hc' : c ∈ concat taken := by
          refine List.mem_flatMap.mpr ⟨u, hu, ?_⟩
          rw [h.text_of_sign (by simp [hu]) hc]
          exact List.mem_singleton_self c
        rw [hlower, ← hsame]
        exact List.mem_cons_of_mem _ (List.mem_map_of_mem hc')
      constructor
      · intro hstar
        exact (htext '*' (hchar '*' (by rw [hstar]; rfl) (by decide))).1 rfl
      · intro hslash
        exact (htext '/' (hchar '/' (by rw [hslash]; rfl) (by decide))).2 rfl

/-- Each step takes stars and slashes in one of these ways. -/
theorem step_chunk (h : Partition offset s (first :: rest))
    (ht : (step first rest).item = .token t) : StepTakes first rest t.kind (step first rest) := by
  unfold step at ht ⊢
  split at ht
  case h_1 hk => exact mergeRun_chunk (.inl hk) ht
  case h_2 hk => exact mergeRun_chunk (.inr hk) ht
  case h_3 hk => exact lineStart_chunk h hk ht
  case h_4 hk => exact atSign_chunk h hk ht
  case h_5 hk => exact slash_chunk hk ht
  case h_6 hk => exact stars_chunk hk ht
  case h_7 _ _ _ _ hslash hstar =>
    obtain rfl := Item.token.inj ht
    refine ⟨[], rest, rfl, rfl, .of_free ?_ ?_⟩
    · rcases h.head_cases with ⟨hend, -⟩ | ⟨hraw, -⟩
      · simp [hend]
      · exact hraw.kind_ne_outro
    · simpa using ⟨hstar, hslash⟩

end Screening

end DocComment
