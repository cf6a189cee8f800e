import DocComment.Proofs.Grammar.Answers
import DocComment.Proofs.Grammar.Exact
import DocComment.Proofs.Grammar.TypeGrammar

/-!
# A type is read exactly where one stands

A type is a word, and the rule for types answers with the text of the tokens that it took. Hence it
reads a type back from its own text, and whatever it answers, wherever it starts, is a type and a
slice of the source.
-/

namespace DocComment.Grammar

open Reading (Takes Scene)
open Screening (Sound slice)
open Token (concat)

variable {scene : Scene} {tokens : List Token} {c : Cursor} {i : Nat}

/-- What is read as a type is one, and is the text of the tokens taken for it. -/
theorem takes_typeName_exact (h : Sound tokens) (nested : Bool) :
    Takes scene (typeName nested) tokens fun text taken _ =>
      Derives .whole text ∧ text = concat taken := by
  refine (takes_typeName nested).imp ?_
  rintro text taken rest rfl ⟨htype, -⟩
  have hsigns : SignsPlain taken := SignsPlain.left h.sign
  refine ⟨?_, (htype.concat_eq hsigns).symm⟩
  have hisType := htype.isType hsigns
  cases nested with
  | false => exact derives_whole_iff.mpr hisType
  | true => exact .single (.plain (derives_primary_iff.mpr hisType))

/-! ## Behind the last token -/

/-- No type is read where there is no token. -/
theorem typeName_past (hview : c.view = tokens.map .token) (hposition : c.position = i)
    (hpast : tokens[i]? = none) (nested : Bool) :
    ∃ failure d, typeName nested c = .error failure d := by
  obtain ⟨d, hd, -, -⟩ := current_past hview hposition hpast
  cases nested with
  | false =>
    have hoperand : ∀ inner, typeOperand inner c =
        .error (.syntaxError ⟨.unexpectedEnd, d.source⟩) d :=
      fun inner => Reading.bind_of_ok hd
    exact ⟨_, d, Reading.iterate_error (Reading.bind_of_error (hoperand _)) _⟩
  | true =>
    have hexpect : expect .leftParen c = .error (.syntaxError ⟨.unexpectedEnd, d.source⟩) d :=
      Reading.bind_of_ok hd
    have hpass : pass .leftParen c = .error (.syntaxError ⟨.unexpectedEnd, d.source⟩) d :=
      Reading.bind_of_error hexpect
    have hbelow : ∀ depth, typeBelow (depth + 1) true c =
        .error (.syntaxError ⟨.unexpectedEnd, d.source⟩) d :=
      fun depth => Reading.bind_of_error hpass
    exact ⟨_, d, hbelow _⟩

/-! ## Types in a source -/

/-- The rule for types reads exactly the types: a text is read as it stands, up to the blank behind
it, exactly where it is a type; and whatever is read from a source, from whichever token on, is a
type that stands there. -/
theorem typeName_exact :
    (∀ text : Text, (∃ d e t, typeName false (Cursor.ofText (text ++ " */".toList)) = .ok text d ∧
        Cursor.current d = .ok (some t) e ∧ t.kind = .whitespace ∧ t.offset = text.length) ↔
        Derives .whole text) ∧
    ∀ (source : Text) (tokens : List Token) (c d : Cursor) (nested : Bool) (text : Text),
      screen source = .ok tokens → c.view = tokens.map .token → 0 ≤ c.position →
        typeName nested c = .ok text d → Derives .whole text ∧
          ∃ t, tokens[c.position.toNat]? = some t ∧
          slice source t.offset (t.offset + text.length) = text := by
  refine ⟨fun text => ⟨?_, fun htype => ?_⟩, fun source tokens c d nested text hscreen hview => ?_⟩
  · rintro ⟨d, -, -, hd, -⟩
    have hanswers := takes_typeName_exact (Screening.sound_readable (text ++ " */".toList)) false []
      (Cursor.ofText (text ++ " */".toList)) (Reading.between_ofCursor rfl rfl)
    rw [hd] at hanswers
    obtain ⟨-, -, -, -, -, htype, -⟩ := hanswers
    exact htype
  · have hisType := derives_whole_iff.mp htype
    obtain ⟨d, e, hd, he⟩ := reads_back (isWord_of_isType hisType) (readsWord_typeName hisType)
    exact ⟨d, e, _, hd, he, rfl, rfl⟩
  · exact slice_of_takes (fun htype => isWord_of_isType (derives_whole_iff.mp htype))
      (fun hsound => takes_typeName_exact hsound nested)
        (fun hi hpast => typeName_past hview hi hpast nested) hscreen
      hview

/-- A type in parentheses that is read where it begins, behind the opening delimiter. -/
theorem typeName_exact_inner :
    let source := "/** (A)[] */".toList
    let tokens : List Token :=
      [⟨.intro, "/**".toList, 0⟩, ⟨.whitespace, [' '], 3⟩, ⟨.leftParen, ['('], 4⟩,
      ⟨.string, ['A'], 5⟩, ⟨.rightParen, [')'], 6⟩, ⟨.leftBracket, ['['], 7⟩,
      ⟨.rightBracket, [']'], 8⟩, ⟨.whitespace, [' '], 9⟩, ⟨.outro, "*/".toList, 10⟩,
      ⟨.endOfText, [], 12⟩]
    ∃ d, typeName true { Cursor.ofText source with position := 2 } = .ok "(A)".toList d ∧
      Derives .whole "(A)".toList ∧
      ∃ t, tokens[(2 : Int).toNat]? = some t ∧
        slice source t.offset (t.offset + "(A)".toList.length) = "(A)".toList := by
  intro source tokens
  have hitems : Screening.items source = tokens.map .token := by decide +kernel
  have hread : answer? (typeName true { Cursor.ofText source with position := 2 }) =
    some "(A)".toList := by decide +kernel
  obtain ⟨d, hd⟩ := exists_ok_of_answer hread
  exact ⟨d, hd, typeName_exact.2 source tokens { Cursor.ofText source with position := 2 } d true _
    (screen_eq_ok_iff.mpr hitems) hitems (by decide) hd⟩

end DocComment.Grammar
