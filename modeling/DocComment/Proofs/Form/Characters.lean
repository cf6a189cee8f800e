import DocComment.Form.Name
import DocComment.Form.Version
import DocComment.Proofs.Screening.Run
import DocComment.Proofs.Text.Pieces

/-!
# The characters of names and versions

Names and versions are made of ASCII letters, digits and a few signs. To raw tokens the letters and
digits are all alike, so such a text is known from its signs.
-/

namespace DocComment.Form

open Token (kindOf)

variable {c : Char} {t : Text}

theorem toNat_lt_of_isAlphanum (h : c.isAlphanum = true) : c.toNat < 128 := by
  unfold Char.isAlphanum Char.isAlpha Char.isUpper Char.isLower Char.isDigit at h
  simp only [Bool.or_eq_true, Bool.and_eq_true, decide_eq_true_eq, ge_iff_le,
    UInt32.le_iff_toNat_le] at h
  have hval : c.toNat = c.val.toNat := rfl
  rw [hval]
  rcases h with (⟨-, h⟩ | ⟨-, h⟩) | ⟨-, h⟩ <;> exact Nat.lt_of_le_of_lt h (by decide)

theorem kindOf_of_isAlphanum (h : c.isAlphanum = true) : kindOf c = .string := by
  have hall : ∀ n < 128, (Char.ofNat n).isAlphanum = true → kindOf (Char.ofNat n) = .string := by
    decide +kernel
  have hc := hall c.toNat (toNat_lt_of_isAlphanum h)
  rw [Char.ofNat_toNat] at hc
  exact hc h

theorem kindOf_underscore : kindOf '_' = .string := Token.kindOf_of_ascii (by decide) (by decide)

theorem kindOf_of_isIdentChar (h : isIdentChar c = true) : kindOf c = .string := by
  simp only [isIdentChar, Bool.or_eq_true, decide_eq_true_eq] at h
  rcases h with h | rfl
  · exact kindOf_of_isAlphanum h
  · exact kindOf_underscore

theorem isIdentChar_of_isIdentifier (h : isIdentifier t = true) :
    t ≠ [] ∧ ∀ c ∈ t, isIdentChar c = true := by
  cases t with
  | nil => cases h
  | cons c t =>
    simp only [isIdentifier, isIdentStart, Bool.and_eq_true, Bool.or_eq_true,
      decide_eq_true_eq, List.all_eq_true] at h
    refine ⟨by simp, ?_⟩
    rw [List.forall_mem_cons]
    refine ⟨?_, h.2⟩
    simp only [isIdentChar, Char.isAlphanum, Bool.or_eq_true, decide_eq_true_eq]
    exact h.1.imp_left .inl

theorem chars_of_isQualified (h : isQualified t = true) :
    t ≠ [] ∧ ∀ c ∈ t, kindOf c = .string ∨ kindOf c = .backslash := by
  rw [isQualified, List.all_eq_true] at h
  constructor
  · rintro rfl
    exact absurd (h [] (by decide)) (by decide)
  · intro c hc
    have hmem : c = '\\' ∨ c ∈ Text.dropLead ['\\'] t := by
      rw [Text.dropLead]
      split
      case isTrue hlead =>
        obtain ⟨rest, rfl⟩ := List.isPrefixOf_iff_prefix.mp hlead
        simpa using hc
      case isFalse => exact .inr hc
    have hbackslash : kindOf '\\' = .backslash := Token.kindOf_of_sign rfl
    rcases hmem with rfl | hmem
    · exact .inr hbackslash
    · rcases Text.mem_splitAt '\\' hmem with rfl | ⟨piece, hpiece, hc⟩
      · exact .inr hbackslash
      · exact .inl (kindOf_of_isIdentChar
          ((isIdentChar_of_isIdentifier (h piece hpiece)).2 c hc))

theorem chars_of_isVariable (h : isVariable t = true) :
    ∃ name, t = '$' :: name ∧ name ≠ [] ∧ ∀ c ∈ name, kindOf c = .string := by
  unfold isVariable at h
  split at h
  case h_1 name =>
    obtain ⟨hne, hchars⟩ := isIdentChar_of_isIdentifier h
    exact ⟨name, rfl, hne, fun c hc => kindOf_of_isIdentChar (hchars c hc)⟩
  case h_2 => cases h

theorem kindOf_of_isVersionChar (h : isVersionChar c = true) :
    kindOf c ∈ [.string, .dot, .minus] := by
  simp only [isVersionChar, Bool.or_eq_true, decide_eq_true_eq, List.mem_cons, List.not_mem_nil,
    or_false] at h
  rcases h with h | rfl | rfl | rfl
  · simp [kindOf_of_isAlphanum h]
  · simp [Token.kindOf_of_sign (k := .dot) rfl]
  · simp [Token.kindOf_of_sign (k := .minus) rfl]
  · simp [kindOf_underscore]

theorem chars_of_isNumberedVersion (h : isNumberedVersion t = true) :
    t ≠ [] ∧ ∀ c ∈ t, isVersionChar c = true := by
  have hbody : ∀ digit d rest, (digit.isDigit && (d :: rest).all isVersionChar) = true →
      ∀ c ∈ digit :: d :: rest, isVersionChar c = true := by
    intro digit d rest hbody
    rw [Bool.and_eq_true, List.all_eq_true] at hbody
    rw [List.forall_mem_cons]
    exact ⟨by simp [isVersionChar, Char.isAlphanum, hbody.1], hbody.2⟩
  cases t with
  | nil => cases h
  | cons c rest =>
    refine ⟨by simp, ?_⟩
    rw [isNumberedVersion] at h
    by_cases hc : (c = 'v' || c = 'V') = true
    · simp only [hc, if_true] at h
      have hletter : c = 'v' ∨ c = 'V' := by simpa using hc
      rw [List.forall_mem_cons]
      refine ⟨by rcases hletter with rfl | rfl <;> decide, ?_⟩
      split at h
      case h_1 digit d rest => exact hbody digit d rest h
      case h_2 => cases h
    · simp only [hc] at h
      split at h
      case h_1 digit d more heq =>
        obtain ⟨rfl, rfl⟩ : c = digit ∧ rest = d :: more := List.cons.inj heq
        exact hbody c d more h
      case h_2 => cases h

end DocComment.Form
