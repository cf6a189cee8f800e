import DocComment.Proofs.Screening.Spelling
import DocComment.Proofs.Screening.Verbatim

/-!
# The tokens of a flat text

A flat text has no blank in it and none of the signs that screening looks behind. So each of its
tokens is settled by the characters of the token, and the text has the same tokens wherever it
stands, if it is not cut in the middle of a string.
-/

namespace DocComment.Screening

open Token (kindOf tokenizeFrom)

/-- The kinds of characters that screening reads as more than themselves. -/
def activeKinds : List Kind := [.whitespace, .newline, .atSign, .slash, .star]

/-- Every character of the text stands for itself. -/
def Flat (t : Text) : Prop := ∀ c ∈ t, kindOf c ∉ activeKinds

/-- The text does not go on with a string, nor with a line break. -/
def EndsString (t : Text) : Prop := ∀ c ∈ t.head?, kindOf c ≠ .string ∧ c ≠ '\r' ∧ c ≠ '\n'

variable {s t : Text}

theorem Flat.lacks (h : Flat t) : Lacks altered t := by
  intro w hw hin
  have hsign : ∀ w ∈ altered, '@' ∈ w ∨ '*' ∈ w ∨ '\n' ∈ w := by decide
  rcases hsign w hw with hc | hc | hc
  · exact h _ (hin.subset hc) (by decide +kernel)
  · exact h _ (hin.subset hc) (by decide +kernel)
  · exact h _ (hin.subset hc) (by decide +kernel)

theorem Flat.no_break (h : Flat t) : ∀ c ∈ t, c ≠ '\r' ∧ c ≠ '\n' := by
  intro c hc
  constructor <;> rintro rfl <;> exact h _ hc (by decide +kernel)

theorem endsString_close : EndsString "*/".toList := by
  intro c hc
  obtain rfl : '*' = c := Option.some.inj hc
  exact ⟨by simp [kindOf_star], by decide, by decide⟩

theorem endsString_blank : EndsString " */".toList := by
  intro c hc
  obtain rfl : ' ' = c := Option.some.inj hc
  exact ⟨by simp [kindOf_space], by decide, by decide⟩

theorem Flat.quiet (h : Flat s) : Quiet s := by
  have hactive : ['\r', '@', '*', '/'].all (kindOf · ∈ activeKinds) = true := by decide +kernel
  have hquiet : Quiet (s ++ []) := quiet_append (fun c hc hmem => h c hc ?_) .nil
  · rwa [List.append_nil] at hquiet
  · exact of_decide_eq_true (List.all_eq_true.mp hactive c hmem)

/-- The only tokens that a flat text could be cut in are strings. -/
theorem Flat.cut (hs : Flat s) (ht : EndsString t) : Cut s t := by
  refine ⟨fun d hd => (ht d hd).2, fun c hc d hd hrun heq => ?_, fun c hc hmem => ?_⟩
  · have hactive := hs c (List.mem_of_getLast? hc)
    rw [heq] at hactive
    simp only [runKinds, activeKinds, List.mem_cons, List.not_mem_nil, or_false,
      not_or] at hrun hactive
    rcases hrun with hkind | hkind | hkind
    · exact hactive.1 hkind
    · exact (ht d hd).1 hkind
    · exact hactive.2.2.2.2 hkind
  · have hactive : ['*', '/'].all (kindOf · ∈ activeKinds) = true := by decide +kernel
    exact absurd (of_decide_eq_true (List.all_eq_true.mp hactive c hmem))
      (hs c (List.mem_of_getLast? hc))

/-- A flat text is screened to its tokens, whatever ends it. -/
theorem exists_spells_flat (hs : Flat s) (ht : EndsString t) (offset : Nat) :
    ∃ tokens, itemsFrom 0 (tokenizeFrom 0 offset (s ++ t)) =
        tokens.map .token ++ itemsFrom 0 (tokenizeFrom 0 (offset + s.length) t) ∧ Spells tokens s :=
  exists_spells_line hs.quiet (fun hmem => (hs.no_break _ hmem).2 rfl) (hs.cut ht) offset

end DocComment.Screening
