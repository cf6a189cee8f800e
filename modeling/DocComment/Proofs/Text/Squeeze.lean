import DocComment.Proofs.Form.Characters
import DocComment.Proofs.Token.First

/-! # Texts without stars and blanks, in lower case

What is left of a text when stars and blanks are taken out of it and the case of letters is
forgotten. -/

namespace DocComment

namespace Text

theorem lowerChar_of_not_isUpper {c : Char} (h : c.isUpper = false) (hkelvin : c ≠ '\u212A') :
    lowerChar c = c := by
  have hrange : ¬(c.val ≥ 'A'.val ∧ c.val ≤ 'Z'.val) := by
    rintro ⟨hlow, hhigh⟩
    have hupper : c.isUpper = true := decide_eq_true ⟨hlow, hhigh⟩
    exact Bool.false_ne_true (h.symm.trans hupper)
  rw [lowerChar, if_neg hkelvin]
  exact dif_neg hrange

theorem isAlpha_of_isUpper {c : Char} (h : c.isUpper = true) : c.isAlpha = true := by
  show (c.isUpper || c.isLower) = true
  rw [h, Bool.true_or]

theorem lowerChar_of_isBlank {c : Char} (h : isBlank c = true) : lowerChar c = c := by
  refine lowerChar_of_not_isUpper ?_ ?_
  · rw [← Bool.not_eq_true]
    intro hupper
    have hletter := isLetter_of_isAlpha (isAlpha_of_isUpper hupper)
    exact Bool.false_ne_true ((isLetter_of_isBlank h).symm.trans hletter)
  · rintro rfl
    exact absurd h (by decide)

theorem lowerChar_lowerChar (c : Char) : lowerChar (lowerChar c) = lowerChar c := by
  by_cases hkelvin : c = '\u212A'
  · subst hkelvin
    decide
  by_cases hupper : c.isUpper = true
  · have hall : ∀ n < 128, lowerChar (lowerChar (Char.ofNat n)) = lowerChar (Char.ofNat n) := by
      decide +kernel
    have halphanum : c.isAlphanum = true := by
      show (c.isAlpha || c.isDigit) = true
      rw [isAlpha_of_isUpper hupper, Bool.true_or]
    have hc := hall c.toNat (Form.toNat_lt_of_isAlphanum halphanum)
    rwa [Char.ofNat_toNat] at hc
  · have hc := lowerChar_of_not_isUpper (by simpa using hupper) hkelvin
    rw [hc, hc]

theorem lower_lower (t : Text) : lower (lower t) = lower t := by
  rw [lower, lower, List.map_map, List.map_inj_left]
  exact fun c _ => lowerChar_lowerChar c

/-- A text without its stars and blanks, in lower case. -/
def squeeze (t : Text) : Text := (lower t).filter fun c => c ≠ '*' && !isBlank c

variable {s t : Text}

@[simp] theorem squeeze_append (s t : Text) : squeeze (s ++ t) = squeeze s ++ squeeze t := by
  rw [squeeze, lower_append, List.filter_append, squeeze, squeeze]

theorem squeeze_of_blanks (h : ∀ c ∈ t, isBlank c = true) : squeeze t = [] := by
  rw [squeeze, List.filter_eq_nil_iff]
  intro c hc
  obtain ⟨d, hd, rfl⟩ := List.mem_map.mp hc
  simp [lowerChar_of_isBlank (h d hd), h d hd]

theorem squeeze_stars (n : Nat) : squeeze (List.replicate n '*') = [] := by
  rw [squeeze, lower, List.map_replicate, List.filter_eq_nil_iff]
  intro c hc
  obtain rfl := List.eq_of_mem_replicate hc
  decide

theorem squeeze_lower (t : Text) :
    squeeze (lower t) = squeeze t := by rw [squeeze, lower_lower, squeeze]

end Text

end DocComment
