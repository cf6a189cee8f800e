import DocComment.Proofs.Cursor.Takes
import DocComment.Proofs.Grammar.Reads

/-!
# What the rules are made of takes

Each way to build a rule, by what it takes from the tokens in front of it: one token of a kind, all
the blanks, or all the tokens whose kinds are accepted. A rule that is tried before another adds
nothing to what the two of them take. A text that is refused for its form begins where the tokens
were collected.
-/

namespace DocComment.Grammar

open Reading (Takes Scene)
open Screening (Item)
open Token (concat)

variable {scene : Scene} {α β : Type} {tokens : List Token} {S : β → List Token → List Token → Prop}

theorem takes_expect (kind : Kind) :
    Takes scene (expect kind) tokens fun t taken _ =>
      taken = [t] ∧ t.kind = kind ∧ Item.token t ∈ scene.items := by
  refine Takes.current_bind (fun _ => .refuse .ended) fun t rest _ hshown => ?_
  show Takes scene (if t.kind = kind then _ else _) _ _
  split
  case isTrue hkind => exact Takes.moveNext_bind fun _ => .pure ⟨rfl, hkind, hshown⟩
  case isFalse => exact .refuse (.token hshown)

/-- A reading that goes on behind a token of a kind. -/
theorem takes_pass {kind : Kind} {f : Unit → Reading β}
    (h : ∀ t rest, tokens = t :: rest → t.kind = kind →
      Takes scene (f ()) rest fun b taken behind => S b (t :: taken) behind) :
    Takes scene (pass kind >>= f) tokens S := by
  have hpass : Takes scene (pass kind) tokens fun _ taken _ => ∃ t, taken = [t] ∧ t.kind = kind :=
    (takes_expect kind).bind fun t taken _ _ htaken =>
      .pure ⟨t, by simpa using htaken.1, htaken.2.1⟩
  refine hpass.bind fun _ taken rest htokens hmark => ?_
  obtain ⟨t, rfl, hkind⟩ := hmark
  exact h t rest htokens hkind

/-- The tokens taken are all of the kinds of a test, and the next one, if there is one, is not. -/
structure Run (test : Kind → Bool) (taken rest : List Token) : Prop where
  taken : ∀ t ∈ taken, test t.kind = true
  stop : ∀ t ∈ rest.head?, test t.kind = false

def isBlankKind (kind : Kind) : Bool := kind = .whitespace

theorem takes_skipBlanks :
    Takes scene skipBlanks tokens fun _ taken rest => Run isBlankKind taken rest := by
  refine Takes.loop (fun _ taken _ => ∀ t ∈ taken, isBlankKind t.kind = true) ?_ (by simp)
  intro _ taken rest _ htaken
  refine Takes.isAt_bind (fun t behind hrest hkind => ?_) fun hstop => ?_
  · refine Takes.moveNext_bind fun _ => .pure ⟨by simp, ?_⟩
    have hblank : isBlankKind t.kind = true := decide_eq_true hkind
    simpa [or_imp, forall_and, hblank] using htaken
  · refine .pure ⟨by simpa using htaken, fun t ht => ?_⟩
    exact decide_eq_false (hstop t ht)

/-- A reading that goes on behind the blanks. -/
theorem takes_blanks {f : Unit → Reading β}
    (h : ∀ blanks rest, tokens = blanks ++ rest → Run isBlankKind blanks rest →
      Takes scene (f ()) rest fun b taken behind => S b (blanks ++ taken) behind) :
    Takes scene (skipBlanks >>= f) tokens S :=
  takes_skipBlanks.bind fun _ blanks rest htokens hrun => h blanks rest htokens hrun

theorem takes_currentOffset :
    Takes scene currentOffset tokens fun offset taken rest =>
      taken = [] ∧ rest = tokens ∧ scene.Places offset := by
  refine Takes.get fun c hsource _ => ?_
  refine Takes.current_bind (fun hnil => .pure ⟨rfl, hnil.symm, ?_⟩)
    fun t rest htokens hshown => .pure ⟨rfl, htokens.symm, ?_⟩
  · exact .inl (congrArg List.length hsource)
  · exact .inr ⟨t, hshown, rfl⟩

theorem takes_collect (accept : Kind → Bool) :
    Takes scene (collect accept) tokens fun answer taken rest =>
      answer.1 = concat taken ∧ Run accept taken rest ∧ scene.Places answer.2 := by
  have hround : Takes scene (Cursor.loop (collectRound accept) []) tokens fun text taken rest =>
      text = concat taken ∧ Run accept taken rest := by
    refine Takes.loop
      (fun text taken _ => text = concat taken ∧ ∀ t ∈ taken, accept t.kind = true) ?_
      ⟨rfl, by simp⟩
    intro text taken rest _ htaken
    obtain ⟨rfl, htaken⟩ := htaken
    refine Takes.current_bind (fun hnil => .pure ?_) fun t behind hcons _ => ?_
    · exact ⟨by simp, by simpa using htaken, by simp⟩
    · show Takes scene (if accept t.kind = true then _ else _) _ _
      split
      case isTrue haccept =>
        refine Takes.moveNext_bind fun _ => .pure ⟨by simp, by simp [concat], ?_⟩
        simpa [or_imp, forall_and, haccept] using htaken
      case isFalse haccept =>
        rw [Bool.not_eq_true] at haccept
        exact .pure ⟨by simp, by simpa using htaken, by simpa using haccept⟩
  refine takes_currentOffset.bind fun offset nothing still _ hoffset => ?_
  obtain ⟨rfl, rfl, hplaces⟩ := hoffset
  exact hround.bind fun _ _ _ _ htext => .pure (by simpa using ⟨htext.1, htext.2, hplaces⟩)

theorem takes_require {form : Form} {text : Text} {offset : Nat} (hplaces : scene.Places offset) :
    Takes scene (require form text offset) tokens fun answer taken _ =>
      taken = [] ∧ answer = text ∧ form.accepts text = true := by
  show Takes scene (if form.accepts text = true then _ else _) _ _
  split
  case isTrue haccepts => exact .pure ⟨rfl, rfl, haccepts⟩
  case isFalse => exact .refuse (.malformed hplaces)

/-- The text of the tokens up to the first of a kind that is not accepted, which has a form. -/
structure Collects (form : Form) (accept : Kind → Bool) (answer : Text) (taken rest : List Token) :
    Prop where
  text : answer = concat taken
  form : form.accepts answer = true
  run : Run accept taken rest

theorem takes_collectForm (form : Form) (accept : Kind → Bool) :
    Takes scene (collectForm form accept) tokens (Collects form accept) := by
  refine (takes_collect accept).bind fun answer taken rest _ hanswer => ?_
  refine (takes_require hanswer.2.2).imp fun text more behind hrest hform => ?_
  obtain ⟨rfl, rfl, haccepts⟩ := hform
  obtain rfl : rest = behind := hrest
  rw [List.append_nil]
  exact ⟨hanswer.1, haccepts, hanswer.2.1⟩

/-- A rule that reads the tokens of a clean text is not refused in front of them. -/
theorem ok_of_reads {r : Reading α} {a : α} {rest passed : List Token} {c : Cursor}
    (hr : Reads r tokens a rest) (hc : Reading.Between scene passed tokens c)
    (hclean : scene.clean) :
    ∃ d, r c = .ok a d := by
  obtain ⟨taken, -, hr⟩ := hr
  obtain ⟨hview, hpeek⟩ := hc.clean hclean
  obtain ⟨peek, hpeek⟩ := Int.eq_ofNat_of_zero_le hpeek
  obtain ⟨after, hgives⟩ := hr passed peek
  obtain ⟨d, hd, -⟩ := hgives c ⟨hview, hc.position, hpeek⟩
  exact ⟨d, hd⟩

/-- What the relation says is not what the tokens begin with, unless their text is not clean. -/
def Absent (clean : Prop) (Q : α → List Token → List Token → Prop) (tokens : List Token) : Prop :=
  clean → ∀ a taken rest, tokens = taken ++ rest → ¬Q a taken rest

/-- Whichever of two rules answers, it began in front of the same tokens. The second one is for what
the first one would not have read. -/
theorem takes_tryElse {first second : Reading α} {P Q : α → List Token → List Token → Prop}
    (hfirst : Takes scene first tokens Q)
    (hreads : ∀ a taken rest, tokens = taken ++ rest → P a taken rest →
      ∃ b behind, Reads first tokens b behind)
    (hsecond : Absent scene.clean P tokens → Takes scene second tokens Q) :
    Takes scene (tryElse first second) tokens Q := by
  intro passed c hc
  have hanswers := hfirst passed c hc
  cases h : first c with
  | ok a d =>
    rw [h] at hanswers
    rw [tryElse_of_ok h]
    exact hanswers
  | error failure d =>
    rw [h] at hanswers
    have habsent : Absent scene.clean P tokens := by
      intro hclean a taken rest htokens hp
      obtain ⟨b, behind, hread⟩ := hreads a taken rest htokens hp
      obtain ⟨e, he⟩ := ok_of_reads hread hc hclean
      rw [h] at he
      cases he
    obtain ⟨hd, cause, rfl, -⟩ := hanswers
    rw [tryElse_of_refused h]
    exact hsecond habsent passed _ ⟨hd.at _ (hc.position ▸ Int.natCast_nonneg _), hc.position⟩

theorem takes_attempt {rule : Reading α} {default : α} {P Q : α → List Token → List Token → Prop}
    (hrule : Takes scene rule tokens Q)
    (hreads : ∀ a taken rest, tokens = taken ++ rest → P a taken rest →
      ∃ b behind, Reads rule tokens b behind)
    (hdefault : Absent scene.clean P tokens → Q default [] tokens) :
    Takes scene (attempt rule default) tokens Q :=
  takes_tryElse hrule hreads fun habsent => .pure (hdefault habsent)

/-- What is collected and has its form is read, if it is not empty. -/
theorem Collects.reads {form : Form} {accept : Kind → Bool} {answer : Text}
    {taken rest : List Token} (h : Collects form accept answer taken rest) (hne : answer ≠ []) :
    Reads (collectForm form accept) (taken ++ rest) answer rest := by
  have hform := h.form
  rw [h.text] at hform hne ⊢
  refine reads_collectForm hform h.run.taken h.run.stop fun hnil => hne ?_
  rw [(List.append_eq_nil_iff.mp hnil).1]
  rfl

end DocComment.Grammar
