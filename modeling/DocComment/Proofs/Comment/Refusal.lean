import DocComment.Proofs.Comment.Reported

/-!
# Comments that are refused

A text that does not read as a document is refused for one syntax error, and for nothing else: no
place in front of the buffer is asked for and no loop stalls, however often rules were tried and
gone back from. `IsRefusal` says what the report of that error is. Its offset lies in the stripped
text, so an editor that brings it into the comment does not change it.
-/

namespace DocComment

/-- The report of an error in a text has this offset, which lies in the stripped text. An end that
came too early is reported at the end, and a token that was not expected is one of the tokens of the
text and is reported where it is. -/
structure IsRefusal (text : Text) (e : SyntaxError) (offset : Nat) : Prop where
  comment : e.comment = Text.strip text
  shown : e.report.comment = Text.strip text
  reported : e.report.offset = some (offset : Int)
  inside : offset ≤ (Text.strip text).length
  atEnd : e.cause = .unexpectedEnd → offset = (Text.strip text).length
  atToken : ∀ t, e.cause = .unexpectedToken t → offset = t.offset ∧ e.report.value = t.text ∧
    (t ∈ Token.tokenize (Text.strip text) ∨
      t ∈ Screening.readable (Screening.items (Text.strip text)))
  unclamped : ∀ start, (Diagnostic.range ⟨text, start⟩ e.report).1 = (start + offset : Nat)

theorem isRefusal_of_within {text : Text} {cause : Cause} (h : cause.Within (Text.strip text)) :
    ∃ offset, IsRefusal text ⟨cause, Text.strip text⟩ offset := by
  obtain ⟨offset, hreported, hinside⟩ := SyntaxError.report_offset h
  have hlength : offset ≤ text.length := by
    obtain ⟨front, back, hcut, -⟩ := Text.exists_strip text
    have hcut := congrArg List.length hcut
    simp only [List.length_append] at hcut
    omega
  have hoffset : ∀ {place : Nat}, some (place : Int) = some (offset : Int) → offset = place := by
    intro place hplace
    exact (Int.ofNat.inj (Option.some.inj hplace)).symm
  refine ⟨offset, rfl, SyntaxError.report_comment _, hreported, hinside, ?_, ?_, fun start => ?_⟩
  · rintro rfl
    exact hoffset hreported
  · rintro t rfl
    exact ⟨hoffset hreported, rfl, h.imp_right Screening.mem_readable.mpr⟩
  · exact Diagnostic.range_first hreported hlength

/-- A text that is no document is refused with a syntax error in it. -/
theorem parse_refused {text : Text} {failure : Failure} (h : Document.parse text = .error failure) :
    ∃ e offset, failure = .syntaxError e ∧ IsRefusal text e offset := by
  obtain ⟨cause, rfl, hwithin⟩ := Document.parse_error h
  obtain ⟨offset, hrefusal⟩ := isRefusal_of_within hwithin
  exact ⟨_, offset, rfl, hrefusal⟩

/-- A word behind the closing delimiter, in a text with blanks at its ends. -/
theorem parse_refused_behind_closing :
    let text := " /** a */ b ".toList
    let e : SyntaxError := ⟨.unexpectedToken ⟨.string, ['b'], 9⟩, "/** a */ b".toList⟩
    Document.parse text = .error (.syntaxError e) ∧
      ∃ e' offset, Failure.syntaxError e = .syntaxError e' ∧ IsRefusal text e' offset := by
  intro text e
  have hfailure : (Document.parse text).map (fun _ => ()) = .error (.syntaxError e) := by
    decide +kernel
  have hparse : Document.parse text = .error (.syntaxError e) := by
    cases h : Document.parse text with
    | ok document =>
      rw [h] at hfailure
      cases hfailure
    | error failure =>
      rw [h] at hfailure
      rw [Except.error.inj hfailure]
  exact ⟨hparse, parse_refused hparse⟩

end DocComment
