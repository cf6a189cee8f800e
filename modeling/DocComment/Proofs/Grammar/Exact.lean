import DocComment.Proofs.Cursor.Refinement
import DocComment.Proofs.Grammar.Takes
import DocComment.Proofs.Grammar.Words
import DocComment.Proofs.Screening.Flat

/-!
# Words in a source

A word is flat, so its tokens do not depend on what is around them, and each of them stands in the
source as it is. Hence a rule that reads a word from its tokens reads it back from its own text; and
where the answers of a rule are words and are the texts of the tokens that it took, each answer is a
slice of the source.
-/

namespace DocComment.Grammar

open Reading (Takes between_ofCursor)
open Screening (Flat Sound activeKinds slice)
open Token (concat)

variable {source t text : Text} {tokens : List Token} {c d : Cursor} {i : Nat} {r : Reading Text}

theorem IsWord.flat (h : IsWord t) : Flat t :=
  have hkinds : ∀ kind ∈ activeKinds, kind ∈ wordless := by decide
  fun c hc hkind => h.kinds c hc (hkinds _ hkind)

/-- What a reading answered, if it did. -/
def answer? {α : Type} : EStateM.Result Failure Cursor α → Option α
  | .ok a _ => some a
  | .error _ _ => none

theorem exists_ok_of_answer {α : Type} {a : α} {result : EStateM.Result Failure Cursor α}
    (h : answer? result = some a) :
    ∃ d, result = .ok a d := by
  cases result with
  | ok b d => exact ⟨d, by rw [Option.some.inj h]⟩
  | error failure d => cases h

/-! ## Its own text -/

/-- The items of a word in front of the end of a comment. -/
theorem items_word (hw : IsWord t) :
    ∃ tokens, Screening.items (t ++ " */".toList) = (tokens ++ [⟨.whitespace, [' '], t.length⟩,
        Screening.outroAt (t.length + 1), ⟨.endOfText, [], t.length + 3⟩]).map .token ∧
      Screening.Spells tokens t := by
  obtain ⟨tokens, hitems, hspells⟩ :=
    Screening.exists_spells_flat hw.flat Screening.endsString_blank 0
  have hending := Screening.items_spaces_outro 0 t.length
  refine ⟨tokens, ?_, hspells⟩
  rw [Nat.zero_add] at hitems
  rw [Screening.items, Token.tokenize, hitems, List.map_append]
  exact congrArg _ hending

/-- A word is read back from its text in front of the end of a comment, and reading stops at the
blank. -/
theorem reads_back (hw : IsWord t) (hr : ReadsWord r t) :
    ∃ d e, r (Cursor.ofText (t ++ " */".toList)) = .ok t d ∧
      Cursor.current d = .ok (some ⟨.whitespace, [' '], t.length⟩) e := by
  obtain ⟨tokens, hitems, hspells⟩ := items_word hw
  have hends : EndsWord [(⟨.whitespace, [' '], t.length⟩ : Token), Screening.outroAt (t.length + 1),
      ⟨.endOfText, [], t.length + 3⟩] := ⟨_, _, rfl, rfl⟩
  obtain ⟨taken, htaken, hgives⟩ := hr tokens _ hspells hends
  obtain rfl := (List.append_inj_left' htaken rfl).symm
  obtain ⟨after, hgives⟩ := hgives [] 0
  have hstands := Cursor.stands_ofText (screen_eq_ok_iff.mpr hitems)
  obtain ⟨d, hd, hstands⟩ := hgives _ hstands
  obtain ⟨e, he, -⟩ := Cursor.gives_current d hstands
  refine ⟨d, e, hd, ?_⟩
  rw [he]
  simp

/-! ## Any source -/

/-- Behind the last token there is none to be seen, and looking changes nothing. -/
theorem current_past (hview : c.view = tokens.map .token) (hposition : c.position = i)
    (hpast : tokens[i]? = none) :
    ∃ d, Cursor.current c = .ok none d ∧ d.view = tokens.map .token ∧ d.position = i := by
  obtain ⟨d, hfetch, hstill, hd, -⟩ := Cursor.fetch_of_view hview i
  rw [← hposition, hpast] at hfetch
  exact ⟨d, hfetch, hd, hstill.position.trans hposition⟩

/-- An answer that is a word, and the text of the tokens taken for it, is a slice of the source,
from the token at which it was read. -/
theorem slice_of_takes {P : Text → Prop} (hword : ∀ {text}, P text → IsWord text)
    (htakes : ∀ {scene ahead}, Sound ahead → Takes scene r ahead fun text taken _ =>
      P text ∧ text = concat taken)
    (hpast : ∀ {i : Nat}, c.position = i → tokens[i]? = none → ∃ failure d, r c = .error failure d)
    (hscreen : screen source = .ok tokens) (hview : c.view = tokens.map .token)
    (hposition : 0 ≤ c.position) (h : r c = .ok text d) :
    P text ∧ ∃ t, tokens[c.position.toNat]? = some t ∧
    slice source t.offset (t.offset + text.length) = text := by
  obtain ⟨i, hi⟩ := Int.eq_ofNat_of_zero_le hposition
  rw [hi, Int.toNat_natCast]
  by_cases hlt : i < tokens.length
  · have hsound : Sound tokens := by
      rw [← Screening.readable_of_screen hscreen]
      exact Screening.sound_readable source
    obtain ⟨before, ahead, rfl, rfl⟩ : ∃ before ahead, tokens = before ++ ahead ∧
      before.length = i :=
      ⟨tokens.take i, tokens.drop i, (List.take_append_drop i tokens).symm, by simp; omega⟩
    have htokens : c.tokens = before ++ ahead := by
      rw [Cursor.tokens, hview, Screening.readable_tokens]
    have hanswers := htakes hsound.of_append _ c (between_ofCursor htokens hi)
    rw [h] at hanswers
    obtain ⟨-, taken, rest, rfl, -, hanswer, rfl⟩ := hanswers
    refine ⟨hanswer, ?_⟩
    have hisWord := hword hanswer
    cases taken with
    | nil => exact absurd rfl hisWord.nonempty
    | cons t more =>
      have ht : t.text ≠ [] := by
        intro hnil
        have hlast := hsound.last before t (more ++ rest) rfl (hsound.nonempty t (by simp) hnil)
        obtain ⟨rfl, -⟩ := List.append_eq_nil_iff.mp hlast
        exact hisWord.nonempty (by simp [hnil])
      exact ⟨t, by simp, Screening.slice_of_tokens hscreen ht hisWord.flat.lacks⟩
  · obtain ⟨failure, e, herror⟩ := hpast hi (List.getElem?_eq_none (by omega))
    rw [h] at herror
    cases herror

end DocComment.Grammar
