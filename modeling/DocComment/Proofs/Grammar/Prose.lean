import DocComment.Proofs.Grammar.Words

/-!
# Descriptions

A description goes on to the next tag or to the closing delimiter. The line break in front of a tag
is read with it and stripped off again, and the blank in front of the description is skipped.
-/

namespace DocComment.Grammar

open Screening (Spells lineFeed spelledKind)
open Token (concat kindOf)

variable {c : Char} {t e : Text} {u : Token} {tokens lead rest : List Token}

/-- What is behind a description: a line break and a tag, or the closing delimiter. -/
inductive Behind : List Token → Token → Prop
  | outro {u : Token} (known : u.kind = .outro) : Behind [] u
  | tag {u : Token} (offset : Nat) (known : u.kind.isTag = true) : Behind [lineFeed offset] u

theorem Behind.endsWord (h : Behind lead u) : EndsWord (lead ++ u :: rest) := by
  cases h with
  | outro known => exact ⟨u, rest, rfl, by rw [known]; rfl⟩
  | tag offset => exact ⟨lineFeed offset, u :: rest, rfl, rfl⟩

theorem Behind.endsDescription (h : Behind lead u) : endsDescription false u.kind = true := by
  cases h with
  | outro known => rw [known]; rfl
  | tag offset known => simp [Grammar.endsDescription, known]

theorem Behind.kind_ne (h : Behind lead u) : u.kind ≠ .whitespace := by
  intro hkind
  have hends := h.endsDescription
  rw [hkind] at hends
  cases hends

theorem Behind.kind_lead (h : Behind lead u) : ∀ v ∈ lead, v.kind = .whitespace := by
  cases h with
  | outro => simp
  | tag offset => simp [lineFeed]

theorem Behind.isBlank_lead (h : Behind lead u) : ∀ c ∈ concat lead, Text.isBlank c = true := by
  cases h with
  | outro => simp
  | tag offset =>
    have hconcat : concat [lineFeed offset] = ['\n'] := rfl
    rw [hconcat, List.forall_mem_singleton]
    decide

theorem isProse_of_ne (hc : c ≠ '{') : isProse (spelledKind (kindOf c)) = true := by
  rcases Token.kindOf_cases c with hkind | hsign
  · simp only [List.mem_cons, List.not_mem_nil, or_false] at hkind
    rcases hkind with hkind | hkind | hkind <;> rw [hkind] <;> rfl
  · have hbrace : kindOf c ≠ .leftBrace := fun h => hc (Token.eq_of_kindOf h rfl)
    generalize kindOf c = kind at hsign hbrace
    cases kind <;> first | rfl | exact absurd rfl hbrace | cases hsign

/-- A description as it follows a blank; where it is empty, both may be missing. -/
def Trails (c : Char) (e t : Text) : Prop := t = c :: e ∨ e = [] ∧ t = []

/-- A description is read back behind its blanks and in front of others. -/
theorem reads_prose_blanks (hc : kindOf c = .whitespace ∨ kindOf c = .newline) (ht : Trails c e t)
    (hstrip : Text.strip e = e) (hbrace : '{' ∉ e) (h : Spells tokens t)
    (hlead : ∀ v ∈ lead, v.kind = .whitespace) (hblanks : ∀ c ∈ concat lead, Text.isBlank c = true)
    (hends : endsDescription false u.kind = true) (hsolid : u.kind ≠ .whitespace)
    (rest : List Token) :
    ∃ text between, Text.strip text = e ∧ (∀ v ∈ between.head?, v.kind ≠ .whitespace) ∧
      Reads skipBlanks (tokens ++ (lead ++ u :: rest)) () between ∧
      Reads description between (text, []) (u :: rest) := by
  have hstop : ∀ v ∈ (u :: rest).head?, v.kind ≠ .whitespace := by simpa using hsolid
  by_cases he : e = []
  · subst he
    -- all blanks on both sides are skipped at once, and the description reads nothing
    have hblank : ∀ v ∈ tokens ++ lead, v.kind = .whitespace := by
      rw [List.forall_mem_append]
      refine ⟨fun v hv => ?_, hlead⟩
      obtain ⟨d, hd, hkind⟩ := h.kind_mem v hv
      obtain rfl | ⟨-, rfl⟩ := ht
      · obtain rfl : d = c := by simpa using hd
        rcases hc with hc | hc <;> rw [hkind, hc] <;> rfl
      · simp at hd
    refine ⟨[], u :: rest, rfl, hstop, ?_, ?_⟩
    · rw [← List.append_assoc]
      exact reads_skipBlanks hblank hstop
    · have hnone : Reads description ([] ++ u :: rest) (concat [], []) (u :: rest) :=
        reads_description (by simp) hends
      exact hnone
  · obtain rfl : t = c :: e := ht.resolve_right fun hnone => he hnone.1
    obtain ⟨more, hmore, hhead, hgap⟩ := reads_gap h hc (solid_of_strip hstrip he)
    have hne := hmore.ne_nil he
    -- the blanks behind the description are read with it
    have hprose : ∀ v ∈ more ++ lead, isProse v.kind = true := by
      rw [List.forall_mem_append]
      constructor
      · intro v hv
        obtain ⟨d, hd, hkind⟩ := hmore.kind_mem v hv
        rw [hkind]
        exact isProse_of_ne fun heq => hbrace (heq ▸ hd)
      · intro v hv
        rw [hlead v hv]
        rfl
    refine ⟨concat (more ++ lead), more ++ (lead ++ u :: rest), ?_, ?_, hgap _, ?_⟩
    · rw [Token.concat_append, Text.strip_append_blanks hblanks, hmore.concat_eq, hstrip]
    · obtain ⟨v, more, rfl⟩ := List.exists_cons_of_ne_nil hne
      exact hhead
    · rw [← List.append_assoc]
      exact reads_description hprose hends

/-- A description is read back behind its blanks, whatever it is that ends it. -/
theorem reads_prose (hc : kindOf c = .whitespace ∨ kindOf c = .newline) (ht : Trails c e t)
    (hstrip : Text.strip e = e) (hbrace : '{' ∉ e) (h : Spells tokens t) (hbehind : Behind lead u)
    (rest : List Token) :
    ∃ text between, Text.strip text = e ∧ (∀ v ∈ between.head?, v.kind ≠ .whitespace) ∧
      Reads skipBlanks (tokens ++ (lead ++ u :: rest)) () between ∧
      Reads description between (text, []) (u :: rest) :=
  reads_prose_blanks hc ht hstrip hbrace h hbehind.kind_lead hbehind.isBlank_lead
    hbehind.endsDescription hbehind.kind_ne rest

end DocComment.Grammar
