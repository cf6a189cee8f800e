import DocComment.Proofs.Document.Blocks
import DocComment.Proofs.Grammar.Pairs
import DocComment.Proofs.Screening.Indent
import DocComment.Proofs.Text.Strip

/-!
# Comments with other indents

Blanks at the beginning of a line change neither what a comment is screened to, but for the offsets,
nor the document that it is read as. A comment that screening finds a fault in is only shown to be
refused for the same by screening itself: a reader may skip the fault, and behind a fault the two
comments need not be screened alike.
-/

namespace DocComment

open Screening (Item)
open Text (isBlank strip)
open Token (Alike LineEnd)

/-- The same document, or two syntax errors of one kind with one message. -/
def Document.SameOutcome (text text' : Text) : Prop :=
  (∃ document, Document.parse text = .ok document ∧ Document.parse text' = .ok document) ∨
  ∃ e e' : SyntaxError, Document.parse text = .error (.syntaxError e) ∧
    Document.parse text' = .error (.syntaxError e') ∧ e.cause.Pair Alike e'.cause ∧
    e.report.message = e'.report.message

/-- A message does not say where its error is. -/
theorem SyntaxError.message_eq {e e' : SyntaxError} (h : e.cause.Pair Alike e'.cause) :
    e.report.message = e'.report.message := by
  obtain ⟨cause, comment⟩ := e
  obtain ⟨cause', comment'⟩ := e'
  cases h with
  | unexpectedToken h =>
    exact congrArg (fun value => (Report.unexpectedToken value [] none).message) h.text
  | unexpectedEnd => rfl
  | malformed => rfl

variable {u v w : Text}

/-- Without a fault, the items of the stripped comments are the same but for where they are. -/
theorem items_strip_indent (hline : LineEnd u v)
    (hw : ∀ c ∈ w, isBlank c = true ∧ c ≠ '\r' ∧ c ≠ '\n')
    (hok : ∃ tokens, screen (strip (u ++ v)) = .ok tokens) :
    (strip (u ++ v) = [] ↔ strip (u ++ w ++ v) = []) ∧
      List.Forall₂ (Item.Pair Alike) (Screening.items (strip (u ++ v)))
        (Screening.items (strip (u ++ w ++ v))) := by
  rcases Text.strip_between u v with hsame | ⟨front, inner, inner', back, rfl, rfl, hfront, hsolid,
    hne, hstrip⟩
  · rw [hsame w fun c hc => (hw c hc).1]
    exact ⟨.rfl, List.forall₂_same.mpr fun item _ => Item.Pair.refl item⟩
  -- the line break is left by stripping, because something that is not blank stands in front of it
  · have hstrip₀ := hstrip []
    rw [List.append_nil, List.append_nil] at hstrip₀
    rw [hstrip₀] at hok ⊢
    rw [hstrip]
    have hinner : LineEnd inner inner' := by
      refine (hline.of_blanks_append hfront hsolid).congr fun h => ?_
      rw [List.head?_append, h]
      rfl
    refine ⟨by simp [hne], ?_⟩
    obtain ⟨tokens, htokens⟩ := hok
    have hall := (Screening.items_indent hinner hw).forall₂ ⟨tokens, screen_eq_ok_iff.mp htokens⟩
    exact hall.imp fun _ _ h => h.imp fun _ _ halike => halike.toAlike

/-- Blanks behind a line break do not matter to screening. They do not matter to the document
either, nor to the error that the comment is refused with, if all of the comment can be screened. -/
theorem parse_indent (u v w : Text)
    (hline : ∃ t ∈ Token.tokenize (u ++ v), t.kind = .newline ∧ t.offset + t.text.length = u.length)
    (hw : ∀ c ∈ w, isBlank c = true ∧ c ≠ '\r' ∧ c ≠ '\n') :
    SameScreening (u ++ v) (u ++ w ++ v) ∧
      ((∃ tokens, screen (strip (u ++ v)) = .ok tokens) →
        Document.SameOutcome (u ++ v) (u ++ w ++ v)) := by
  obtain ⟨t, ht, hkind, hend⟩ := hline
  have hline : LineEnd u v := .of_mem ht hkind (by rw [hend, Nat.zero_add])
  refine ⟨sameScreening (fun _ _ h => h.toAlike) (Screening.items_indent hline hw), fun hok => ?_⟩
  obtain ⟨hblank, hitems⟩ := items_strip_indent hline hw hok
  refine (Document.sameReading id hblank hitems).imp_right fun hfailed => ?_
  obtain ⟨e, e', he, he', hpair⟩ := hfailed
  exact ⟨e, e', he, he', hpair, SyntaxError.message_eq hpair⟩

theorem parse_indent_star :
    let u := "/**\n * Reads.\r\n".toList
    let v := "* @api\n */".toList
    let w := " \t ".toList
    (∃ t ∈ Token.tokenize (u ++ v), t.kind = .newline ∧ t.offset + t.text.length = u.length) ∧
      (∀ c ∈ w, isBlank c = true ∧ c ≠ '\r' ∧ c ≠ '\n') ∧ SameScreening (u ++ v) (u ++ w ++ v) ∧
      (∃ tokens, screen (strip (u ++ v)) = .ok tokens) ∧
      Document.SameOutcome (u ++ v) (u ++ w ++ v) := by
  intro u v w
  have hline : ∃ t ∈ Token.tokenize (u ++ v), t.kind = .newline ∧
      t.offset + t.text.length = u.length :=
    ⟨⟨.newline, ['\r', '\n'], 13⟩, by decide +kernel, rfl, rfl⟩
  have hall : w.all (fun c => isBlank c && (c ≠ '\r' && c ≠ '\n')) = true := by decide +kernel
  have hw : ∀ c ∈ w, isBlank c = true ∧ c ≠ '\r' ∧ c ≠ '\n' := by simpa using hall
  have hscreened : (screen (strip (u ++ v))).isOk = true := by decide +kernel
  have hok := exists_of_isOk hscreened
  obtain ⟨hscreening, hparse⟩ := parse_indent u v w hline hw
  exact ⟨hline, hw, hscreening, hok, hparse hok⟩

end DocComment
