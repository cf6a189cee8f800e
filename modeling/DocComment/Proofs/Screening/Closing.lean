import DocComment.Proofs.Screening.Chunk

/-!
# Where screening closes a comment

A text ends in stars and a slash, and nowhere else in it does a slash follow a star. Screening makes
the closing delimiter of these stars, and makes no other, unless an opening delimiter takes them:
all stars behind a slash and two stars belong to it. `outcome_itemsFrom` says that there is no third
way.
-/

namespace DocComment

/-- What is in front of a run at the end of a list, and does not itself end in what the run is of,
is known from the list. -/
theorem append_run_inj {α : Type} {p : α → Prop} {before run lead more : List α}
    (h : before ++ run = lead ++ more)
    (hbefore : ∀ a ∈ before.getLast?, ¬p a) (hrun : ∀ a ∈ run, p a)
    (hlead : ∀ a ∈ lead.getLast?, ¬p a) (hmore : ∀ a ∈ more, p a) : before = lead ∧ run = more := by
  have hnil : ∀ {short long rest : List α}, long = short ++ rest →
      (∀ a ∈ long.getLast?, ¬p a) → (∀ a ∈ rest, p a) → rest = [] := by
    intro short long rest hlong hlast hrest
    apply Decidable.byContradiction
    intro hne
    have hmem : rest.getLast hne ∈ long.getLast? := by
      rw [hlong, List.getLast?_append, List.getLast?_eq_some_getLast hne]
      rfl
    exact hlast _ hmem (hrest _ (List.getLast_mem hne))
  rcases List.append_eq_append_iff.mp h with ⟨rest, hlead', hrun'⟩ | ⟨rest, hbefore', hmore'⟩
  · obtain rfl := hnil hlead' hlead fun a ha => hrun a (by simp [hrun', ha])
    exact ⟨by simpa using hlead'.symm, by simpa using hrun'⟩
  · obtain rfl := hnil hbefore' hbefore fun a ha => hmore a (by simp [hmore', ha])
    exact ⟨by simpa using hbefore', by simpa using hmore'.symm⟩

namespace Screening

open Token (Partition)

variable {offset : Nat} {s : Text} {before run chunk left raws tokens : List Token}
  {closing mark : Token}

/-- Raw tokens that end in a run of stars, a slash and the mark of the end, and in which a star and
a slash stand side by side nowhere else. -/
structure Ended (raws before run : List Token) (closing mark : Token) : Prop where
  split : raws = before ++ (run ++ [closing, mark])
  solid : ∀ u ∈ before.getLast?, u.kind ≠ .star
  nonempty : run ≠ []
  stars : ∀ u ∈ run, u.kind = .star
  slash : closing.kind = .slash
  last : mark.kind = .endOfText
  only : ∀ (front : List Token) (first second : Token) (after : List Token),
    raws = front ++ first :: second :: after → first.kind = .star → second.kind = .slash →
    after.length = 1

/-- The run of stars follows a slash, which makes an opening delimiter of them. -/
def Swallows (before run : List Token) : Prop :=
  (∃ u ∈ before.getLast?, u.kind = .slash) ∧ 2 ≤ run.length

/-- The tokens end in the closing delimiter and the mark of the end, and there is no other. -/
def ClosedOnce (tokens : List Token) : Prop :=
  ∃ front outro last, tokens = front ++ [outro, last] ∧ outro.kind = .outro ∧
    last.kind = .endOfText ∧ ∀ t ∈ front, t.kind ≠ .outro

/-- What a step takes ends in front of the run of stars, within it, or behind the slash. -/
theorem boundary_cases (hne : run ≠ [])
    (h : chunk ++ left = before ++ (run ++ [closing, mark])) :
    (∃ more, before = chunk ++ more ∧ left = more ++ (run ++ [closing, mark])) ∨
    (∃ front back, run = front ++ back ∧ front ≠ [] ∧ chunk = before ++ front ∧
      left = back ++ [closing, mark]) ∨
    ∃ more, chunk = before ++ (run ++ closing :: more) ∧ [mark] = more ++ left := by
  rcases List.append_eq_append_iff.mp h with ⟨more, rfl, hleft⟩ | ⟨front, rfl, hrest⟩
  · exact .inl ⟨more, rfl, hleft⟩
  rcases List.append_eq_append_iff.mp hrest with ⟨more, rfl, hmark⟩ | ⟨back, rfl, hleft⟩
  · cases more with
    | nil => exact .inr (.inl ⟨run, [], by simp, hne, by simp, hmark.symm⟩)
    | cons c more =>
      obtain ⟨rfl, hlast⟩ := List.cons.inj hmark
      exact .inr (.inr ⟨more, rfl, hlast⟩)
  · by_cases hfront : front = []
    · left
      exact ⟨[], by simp [hfront], by simp [hleft, hfront]⟩
    · exact .inr (.inl ⟨front, back, rfl, hfront, rfl, hleft⟩)

theorem Ended.tail (h : Ended (chunk ++ left) (chunk ++ before) run closing mark) :
    Ended left before run closing mark := by
  have hsplit : left = before ++ (run ++ [closing, mark]) := by
    have hall := h.split
    rw [List.append_assoc] at hall
    exact List.append_cancel_left hall
  refine ⟨hsplit, fun u hu => h.solid u ?_, h.nonempty, h.stars, h.slash, h.last, ?_⟩
  · rw [List.getLast?_append, Option.mem_def.mp hu]
    rfl
  · intro front first second after heq
    exact h.only (chunk ++ front) first second after (by rw [heq, List.append_assoc])

/-- What goes as far as the slash does not end in a star. -/
theorem Ended.last_of_behind {more : List Token} (h : Ended raws before run closing mark)
    (hchunk : chunk = before ++ (run ++ closing :: more)) (hlast : [mark] = more ++ left) :
    ∃ u ∈ chunk.getLast?, u.kind ≠ .star := by
  subst hchunk
  cases more with
  | nil => exact ⟨closing, by simp, by simp [h.slash]⟩
  | cons m more =>
    obtain ⟨rfl, hnil⟩ := List.cons.inj hlast
    obtain ⟨rfl, -⟩ := List.append_eq_nil_iff.mp hnil.symm
    exact ⟨mark, by simp, by simp [h.last]⟩

/-- Whether an opening delimiter takes the stars is known from what stands in front of them. -/
theorem swallows_append_iff (hne : before ≠ []) :
    Swallows (chunk ++ before) run ↔ Swallows before run := by
  rw [Swallows, Swallows, List.getLast?_append, List.getLast?_eq_some_getLast hne, Option.some_or]

theorem ClosedOnce.cons {t : Token} (h : ClosedOnce tokens) (ht : t.kind ≠ .outro) :
    ClosedOnce (t :: tokens) := by
  obtain ⟨front, outro, last, rfl, houtro, hlast, hfront⟩ := h
  refine ⟨t :: front, outro, last, rfl, houtro, hlast, ?_⟩
  exact List.forall_mem_cons.mpr ⟨ht, hfront⟩

/-- Either an opening delimiter takes the stars and nothing closes the comment, or it is closed
once. -/
def Outcome (before run tokens : List Token) : Prop :=
  (Swallows before run ∧ ∀ t ∈ tokens, t.kind ≠ .outro) ∨ (¬Swallows before run ∧ ClosedOnce tokens)

theorem Outcome.cons {t : Token} (h : Outcome before run tokens) (ht : t.kind ≠ .outro) :
    Outcome before run (t :: tokens) := by
  rcases h with ⟨hswallows, htokens⟩ | ⟨hkeeps, hclosed⟩
  · exact .inl ⟨hswallows, List.forall_mem_cons.mpr ⟨ht, htokens⟩⟩
  · exact .inr ⟨hkeeps, hclosed.cons ht⟩

/-- A step in front of the stars that takes no part in closing the comment. -/
theorem Outcome.of_tail {t : Token} (h : Outcome before run tokens) (ht : t.kind ≠ .outro)
    (hsame : Swallows (chunk ++ before) run ↔ Swallows before run) :
    Outcome (chunk ++ before) run (t :: tokens) := by
  have hcons := h.cons ht
  rwa [Outcome, ← hsame] at hcons

section Step

variable {first last t : Token} {lead stars : List Token}

theorem head_of_stars (hne : run ≠ []) (hstars : ∀ u ∈ run, u.kind = .star) (rest : List Token) :
    ∃ u ∈ (run ++ rest).head?, u.kind = .star := by
  obtain ⟨u, more, rfl⟩ := List.exists_cons_of_ne_nil hne
  exact ⟨u, rfl, hstars u (List.mem_cons_self ..)⟩

/-- An opening delimiter takes no star of the closing one, or all of them. -/
theorem outcome_opened (h : Ended ((lead ++ first :: stars) ++ left) before run closing mark)
    (hslash : first.kind = .slash) (hstars : ∀ u ∈ stars, u.kind = .star) (htwo : 2 ≤ stars.length)
    (hstop : ∀ u ∈ left.head?, u.kind ≠ .star) (ht : t.kind ≠ .outro)
    (ih : ∀ {rest}, Ended left rest run closing mark → Outcome rest run tokens)
    (hshort : left = [closing, mark] → ∀ t ∈ tokens, t.kind ≠ .outro) :
    Outcome before run (t :: tokens) := by
  have hrun : ∀ {rest}, rest ≠ [] → (∀ u ∈ rest, u.kind = .star) →
      ∀ behind, left ≠ rest ++ behind := by
    intro rest hne hrest behind hleft
    obtain ⟨u, hu, hstar⟩ := head_of_stars hne hrest behind
    exact hstop u (hleft ▸ hu) hstar
  rcases boundary_cases h.nonempty h.split with ⟨more, rfl, hleft⟩ |
    ⟨front, back, rfl, hfront, hchunk, hleft⟩ | ⟨more, hchunk, hlast⟩
  · have hmore : more ≠ [] := by
      rintro rfl
      exact hrun h.nonempty h.stars _ hleft
    exact (ih h.tail).of_tail ht (swallows_append_iff hmore)
  · have hback : back = [] := by
      apply Decidable.byContradiction
      intro hne
      exact hrun hne (fun u hu => h.stars u (List.mem_append_right _ hu)) _ hleft
    subst hback
    rw [List.append_nil] at h
    have hsame : (lead ++ [first]) ++ stars = before ++ front := by simpa using hchunk
    have hfree : ∀ u ∈ (lead ++ [first]).getLast?, u.kind ≠ .star := by simp [hslash]
    obtain ⟨rfl, rfl⟩ := append_run_inj hsame hfree hstars h.solid h.stars
    have hswallows : Swallows (lead ++ [first]) (stars ++ []) :=
      ⟨⟨first, by simp, hslash⟩, by simpa using htwo⟩
    exact .inl ⟨hswallows, List.forall_mem_cons.mpr ⟨ht, hshort hleft⟩⟩
  · have hne : stars ≠ [] := List.ne_nil_of_length_pos (by omega)
    have hend : (lead ++ first :: stars).getLast? = some (stars.getLast hne) := by
      rw [List.getLast?_append, List.getLast?_cons, List.getLast?_eq_some_getLast hne]
      rfl
    obtain ⟨u, hu, hsolid⟩ := h.last_of_behind hchunk hlast
    obtain rfl := Option.some.inj (hend.symm.trans hu)
    exact absurd (hstars _ (List.getLast_mem hne)) hsolid

/-- A closing delimiter ends the comment. -/
theorem outcome_closed (h : Ended ((lead ++ (stars ++ [last])) ++ left) before run closing mark)
    (hfree : ∀ u ∈ lead, u.kind ≠ .star ∧ u.kind ≠ .slash) (hne : stars ≠ [])
    (hstars : ∀ u ∈ stars, u.kind = .star) (hslash : last.kind = .slash) (ht : t.kind = .outro)
    (hend : left = [mark] → tokens = [mark]) : Outcome before run (t :: tokens) := by
  have hlength : left.length = 1 := by
    obtain ⟨init, u, rfl⟩ : ∃ init u, stars = init ++ [u] :=
      ⟨_, _, (List.dropLast_concat_getLast hne).symm⟩
    exact h.only (lead ++ init) u last left (by simp) (hstars u (by simp)) hslash
  rcases boundary_cases h.nonempty h.split with ⟨more, -, hleft⟩ | ⟨front, back, -, -, -, hleft⟩ |
    ⟨more, hchunk, hlast⟩
  · rw [hleft] at hlength
    simp at hlength
    omega
  · rw [hleft] at hlength
    simp at hlength
  · have hmore : more = [] := by
      have hcount := congrArg List.length hlast
      simp only [List.length_append, List.length_singleton] at hcount
      exact List.eq_nil_of_length_eq_zero (by omega)
    subst hmore
    have hsame : (lead ++ stars) ++ [last] = (before ++ run) ++ [closing] := by simpa using hchunk
    have hlead : ∀ u ∈ lead.getLast?, u.kind ≠ .star :=
      fun u hu => (hfree u (List.mem_of_getLast? hu)).1
    obtain ⟨rfl, rfl⟩ := append_run_inj (List.append_inj' hsame rfl).1 hlead hstars h.solid h.stars
    right
    constructor
    · rintro ⟨⟨u, hu, hkind⟩, -⟩
      exact (hfree u (List.mem_of_getLast? hu)).2 hkind
    · exact ⟨[], t, mark, by rw [hend hlast.symm]; rfl, ht, h.last, by simp⟩

/-- A slash that is text opens nothing, so two stars do not follow it. -/
theorem outcome_slash (h : Ended ([first] ++ left) before run closing mark)
    (hslash : first.kind = .slash)
    (hstop : ∀ second third more, left = second :: third :: more →
      ¬(second.kind = .star ∧ third.kind = .star)) (ht : t.kind ≠ .outro)
    (ih : ∀ {rest}, Ended left rest run closing mark → Outcome rest run tokens) :
    Outcome before run (t :: tokens) := by
  rcases boundary_cases h.nonempty h.split with ⟨more, rfl, hleft⟩ |
    ⟨front, back, rfl, hfront, hchunk, -⟩ | ⟨more, hchunk, -⟩
  · refine (ih h.tail).of_tail ht ?_
    by_cases hmore : more = []
    · subst hmore
      constructor
      · rintro ⟨-, htwo⟩
        match run, htwo with
        | second :: third :: more, _ =>
          have hstars := h.stars
          simp only [List.forall_mem_cons] at hstars
          exact absurd ⟨hstars.1, hstars.2.1⟩ (hstop second third _ hleft)
      · rintro ⟨⟨u, hu, -⟩, -⟩
        cases hu
    · exact swallows_append_iff hmore
  · obtain ⟨u, more, rfl⟩ := List.exists_cons_of_ne_nil hfront
    have hmem : u ∈ [first] := by simp [hchunk]
    have hstar := h.stars u (by simp)
    rw [List.mem_singleton.mp hmem, hslash] at hstar
    cases hstar
  · have hlength := congrArg List.length hchunk
    have hpositive := List.length_pos_iff.mpr h.nonempty
    simp only [List.length_append, List.length_cons, List.length_nil] at hlength
    omega

/-- Text without a slash takes no star of the closing delimiter. -/
theorem outcome_other (h : Ended (chunk ++ left) before run closing mark)
    (hslash : ∀ u ∈ chunk, u.kind ≠ .slash)
    (hstop : ∀ u ∈ chunk.getLast?, u.kind = .star →
      ∀ v ∈ left.head?, v.kind ≠ .star ∧ v.kind ≠ .slash)
    (ht : t.kind ≠ .outro)
    (ih : ∀ {rest}, Ended left rest run closing mark → Outcome rest run tokens) :
    Outcome before run (t :: tokens) := by
  rcases boundary_cases h.nonempty h.split with ⟨more, rfl, hleft⟩ |
    ⟨front, back, rfl, hfront, hchunk, hleft⟩ | ⟨more, hchunk, -⟩
  · refine (ih h.tail).of_tail ht ?_
    by_cases hmore : more = []
    · subst hmore
      constructor
      · rintro ⟨⟨u, hu, hkind⟩, -⟩
        rw [List.append_nil] at hu
        exact absurd hkind (hslash u (List.mem_of_getLast? hu))
      · rintro ⟨⟨u, hu, -⟩, -⟩
        cases hu
    · exact swallows_append_iff hmore
  · have hlast : front.getLast hfront ∈ chunk.getLast? := by
      rw [hchunk, List.getLast?_append, List.getLast?_eq_some_getLast hfront]
      rfl
    have hnext := hstop _ hlast (h.stars _ (List.mem_append_left _ (List.getLast_mem hfront)))
    cases back with
    | nil => exact absurd h.slash (hnext closing (by simp [hleft])).2
    | cons u back => exact absurd (h.stars u (by simp)) (hnext u (by simp [hleft])).1
  · exact absurd h.slash (hslash closing (by simp [hchunk]))

theorem itemsFrom_end (hmark : mark.kind = .endOfText) : itemsFrom 0 [mark] = [.token mark] := by
  simp [itemsFrom, step, hmark]

theorem itemsFrom_slash_end (hslash : closing.kind = .slash) (hmark : mark.kind = .endOfText) :
    itemsFrom 0 [closing, mark] = [.token { closing with kind := .string }, .token mark] := by
  simp [itemsFrom, step, hslash, hmark, slash]

theorem outcome_cons (h : Ended (chunk ++ left) before run closing mark)
    (hchunk : Chunk t.kind chunk left) (hitems : itemsFrom 0 left = tokens.map .token)
    (ih : ∀ {rest}, Ended left rest run closing mark → Outcome rest run tokens) :
    Outcome before run (t :: tokens) := by
  have hinj : ∀ {others : List Token}, tokens.map Item.token = others.map .token →
      tokens = others :=
    fun heq => (List.map_inj_right fun _ _ h => Item.token.inj h).mp heq
  have hshort : left = [closing, mark] → ∀ t ∈ tokens, t.kind ≠ .outro := by
    rintro rfl
    rw [itemsFrom_slash_end h.slash h.last] at hitems
    have htokens : tokens = [{ closing with kind := .string }, mark] := hinj hitems.symm
    simp [htokens, h.last]
  have hend : left = [mark] → tokens = [mark] := by
    rintro rfl
    rw [itemsFrom_end h.last] at hitems
    have htokens : tokens = [mark] := hinj hitems.symm
    exact htokens
  generalize hkind : t.kind = kind at hchunk
  cases hchunk with
  | opened free slash stars two stop =>
    exact outcome_opened h slash stars two stop (by simp [hkind]) ih hshort
  | closed free nonempty stars slash => exact outcome_closed h free nonempty stars slash hkind hend
  | slash slash stop => exact outcome_slash h slash stop (by simp [hkind]) ih
  | other other noSlash stop => exact outcome_other h noSlash stop (hkind ▸ other) ih

end Step

/-- Screening closes a comment that ends in a star and a slash, or an opening delimiter takes the
star. -/
theorem outcome_itemsFrom (hp : Partition offset s raws) (h : Ended raws before run closing mark)
    (hitems : itemsFrom 0 raws = tokens.map .token) : Outcome before run tokens := by
  induction raws using step_induction generalizing offset s before tokens with
  | nil => exact absurd rfl hp.ne_nil
  | cons first rest ih =>
    rw [itemsFrom_cons] at hitems
    cases tokens with
    | nil => cases hitems
    | cons t tokens =>
      obtain ⟨hitem, hmore⟩ := List.cons.inj hitems
      obtain ⟨taken, left, rfl, hdrop, hchunk⟩ := step_chunk hp hitem
      rw [hdrop] at hmore ih
      rw [← List.cons_append] at h
      apply outcome_cons h hchunk hmore
      intro before hended
      have hne : (taken ++ left).drop taken.length ≠ [] := by
        rw [List.drop_left, hended.split]
        simp
      obtain ⟨start, behind, hleft⟩ := hp.tail_drop hne
      rw [List.drop_left] at hleft
      exact ih hleft hended hmore

end Screening

end DocComment
