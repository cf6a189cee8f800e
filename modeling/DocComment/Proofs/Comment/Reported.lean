import DocComment.Check
import DocComment.Diagnostic
import DocComment.Proofs.Comment.Delimiters
import DocComment.Proofs.Document.Blocks
import DocComment.Proofs.Text.Position
import DocComment.Proofs.Text.Strip
import Mathlib.Data.List.Forall2

/-!
# Reports and diagnostics show the same places

A check of a source text prints a report for each comment that cannot be read, and an editor gets a
diagnostic for it. The report is given the place of the comment and shifts the place in the comment
by it; the diagnostic brings the offset into the comment and looks up its place in the whole text.
They agree because the cause of a syntax error lies in its comment, and because a comment that is
found has no blanks at its ends, so that nothing is stripped off in front of the offset.
-/

namespace DocComment

/-! ## Where comments are found -/

namespace Comment

theorem slice_of_mem_findFrom {k : Comment} {skip offset : Nat} {s : Text}
    (h : k ∈ findFrom skip offset s) :
    ∃ before after, s = before ++ (k.text ++ after) ∧ offset + before.length = k.offset := by
  induction s generalizing skip offset with
  | nil =>
    rw [findFrom] at h
    cases h
  | cons c s ih =>
    have hbehind : ∀ {skip}, k ∈ findFrom skip (offset + 1) s →
        ∃ before after, c :: s = before ++ (k.text ++ after) ∧
          offset + before.length = k.offset := by
      intro skip h
      obtain ⟨before, after, hs, hoffset⟩ := ih h
      refine ⟨c :: before, after, by rw [hs, List.cons_append], ?_⟩
      rw [List.length_cons]
      omega
    cases skip with
    | succ skip => exact hbehind h
    | zero =>
      rw [findFrom] at h
      split at h
      case h_1 => exact hbehind h
      case h_2 n hn =>
        rcases List.mem_cons.mp h with rfl | h
        · exact ⟨[], (c :: s).drop n, (List.take_append_drop n _).symm, rfl⟩
        · exact hbehind h

/-- A comment is found at its offset. -/
theorem slice_of_mem_find {k : Comment} {source : Text} (h : k ∈ find source) :
    ∃ before after, source = before ++ (k.text ++ after) ∧ before.length = k.offset := by
  obtain ⟨before, after, hsource, hoffset⟩ := slice_of_mem_findFrom h
  exact ⟨before, after, hsource, by omega⟩

/-- A comment that is found begins and ends with a slash, so stripping leaves it as it is. -/
theorem strip_of_mem_find {k : Comment} {source : Text} (h : k ∈ find source) :
    Text.strip k.text = k.text := by
  obtain ⟨⟨body, hbody⟩, hends⟩ := text_of_mem_find h
  obtain ⟨front, hfront⟩ := hends.ends
  apply Text.strip_of_head_last
  · intro c hc
    rw [hbody] at hc
    obtain rfl := Option.some.inj hc
    decide
  · intro c hc
    rw [hfront, show front ++ ['*', '/'] = (front ++ ['*']) ++ ['/'] by simp,
      List.getLast?_concat] at hc
    obtain rfl := Option.some.inj hc
    decide

/-- The comments of a source text that cannot be read, each with its failure. -/
def refused (source : Text) : List (Comment × Failure) :=
  (find source).filterMap fun k =>
    match Document.parse k.text with
    | .ok _ => none
    | .error failure => some (k, failure)

theorem mem_refused {source : Text} {k : Comment} {failure : Failure}
    (h : (k, failure) ∈ refused source) :
    k ∈ find source ∧ Document.parse k.text = .error failure := by
  obtain ⟨found, hfound, heq⟩ := List.mem_filterMap.mp h
  split at heq
  · cases heq
  · obtain ⟨rfl, rfl⟩ := Prod.mk.inj (Option.some.inj heq)
    exact ⟨hfound, by assumption⟩

end Comment

/-! ## Where errors lie -/

/-- The offset that is reported for a cause in a comment lies in the comment. -/
theorem SyntaxError.report_offset {cause : Cause} {comment : Text} (h : cause.Within comment) :
    ∃ offset : Nat, (SyntaxError.mk cause comment).report.offset = some (offset : Int) ∧
      offset ≤ comment.length := by
  cases cause with
  | unexpectedToken t => exact ⟨t.offset, rfl, h.offset_le⟩
  | unexpectedEnd => exact ⟨comment.length, rfl, Nat.le_refl _⟩
  | malformed form text offset => exact ⟨offset, rfl, h⟩

theorem SyntaxError.report_comment (e : SyntaxError) : e.report.comment = e.comment := by
  obtain ⟨cause, comment⟩ := e
  cases cause with
  | unexpectedToken | unexpectedEnd | malformed => rfl

/-- The failure of a comment that is found has a place in it. -/
theorem Comment.report_of_refused {source : Text} {k : Comment} {failure : Failure}
    (h : k ∈ find source) (hparse : Document.parse k.text = .error failure) :
    failure.report.comment = k.text ∧
      ∃ offset : Nat, failure.report.offset = some (offset : Int) ∧ offset ≤ k.text.length := by
  obtain ⟨cause, rfl, hwithin⟩ := Document.parse_error hparse
  rw [strip_of_mem_find h] at hwithin ⊢
  exact ⟨SyntaxError.report_comment _, SyntaxError.report_offset hwithin⟩

/-- A report on an offset of a comment that is found shows the place of the offset in the source
text. -/
theorem Comment.place_of_mem_find {source : Text} {k : Comment} {r : Report} {offset : Nat}
    (h : k ∈ find source) (hcomment : r.comment = k.text) (hoffset : r.offset = some (offset : Int))
    (hle : offset ≤ k.text.length) :
    r.position = some (k.text.position offset) ∧
      Report.shownPlace (k.text.position offset) (some (k.position source).origin) =
        (source.position (k.offset + offset : Nat)).origin := by
  obtain ⟨before, after, hsource, hbefore⟩ := slice_of_mem_find h
  constructor
  · rw [Report.position, hoffset, hcomment, Option.map_some]
  · rw [Comment.position, ← hbefore]
    exact (Text.origin_position hsource hle).symm

/-- The report begins with the message, the name of the file and a place in it. -/
def Report.Heads (message filename : Text) (place : Origin) (shown : Text) : Prop :=
  ∃ gutter : Text, (∀ c ∈ gutter, c = ' ') ∧
    "error: ".toList ++ message ++ ['\n'] ++ (gutter ++ "--> ".toList ++ filename ++ [':'] ++
      Text.signedNumeral place.line ++ [':'] ++ Text.signedNumeral place.column ++ ['\n']) <+: shown

theorem Report.heads_render {r : Report} {p : Position} (h : r.position = some p) (filename : Text)
    (origin : Option Origin) :
    Heads r.message filename (shownPlace p origin) (r.render filename origin) := by
  have hgutter : ∀ n : Nat, ∀ c ∈ List.replicate n ' ', c = ' ' :=
    fun _ _ hc => List.eq_of_mem_replicate hc
  rw [render, h]
  refine ⟨_, hgutter ((Text.signedNumeral (shownPlace p origin).line).length + 1), ?_⟩
  simp only [List.append_assoc, List.prefix_append_right_inj, List.prefix_append]

/-! ## The same places -/

theorem Diagnostic.ofReport_eq (source : Text) (k : Comment) (r : Report) :
    ofReport source k r =
      ⟨(source.position (range k r).1).place, (source.position (range k r).2).place, r.message⟩ :=
      rfl

/-- The range of a report begins at its offset as it is, where that lies in the comment. -/
theorem Diagnostic.range_first {k : Comment} {r : Report} {offset : Nat}
    (hoffset : r.offset = some (offset : Int)) (hle : offset ≤ k.text.length) :
    (range k r).1 = (k.offset + offset : Nat) := by
  simp only [range, hoffset, Option.getD_some]
  omega

/-- The place counted from one, as reports show it. -/
def Place.origin (p : Place) : Origin := ⟨p.line + 1, p.character + 1⟩

theorem Place.origin_place (source : Text) (offset : Int) :
    (source.position offset).place.origin = (source.position offset).origin := by
  have hline := Text.line_position_pos source offset
  have hcolumn := Text.column_position_pos source offset
  simp only [Place.origin, Position.place, Position.origin, Origin.mk.injEq]
  omega

/-- The printed report of a comment that cannot be read and a diagnostic have the same message and
show the same place of the source text: the offset of the error, behind that of the comment. -/
structure SamePlace (filename source : Text) (k : Comment) (failure : Failure)
    (d : Diagnostic) : Prop where
  message : d.message = failure.report.message
  place : ∃ offset : Nat, failure.report.offset = some (offset : Int) ∧ offset ≤ k.text.length ∧
    d.first.origin = (source.position (k.offset + offset : Nat)).origin
  printed : Report.Heads d.message filename d.first.origin
    (Check.report filename (k.position source) failure)

theorem samePlace_of_mem_refused {source : Text} {k : Comment} {failure : Failure}
    (h : (k, failure) ∈ Comment.refused source) (filename : Text) :
    SamePlace filename source k failure (Diagnostic.ofReport source k failure.report) := by
  obtain ⟨hfound, hparse⟩ := Comment.mem_refused h
  obtain ⟨hcomment, offset, hoffset, hle⟩ := Comment.report_of_refused hfound hparse
  obtain ⟨hposition, hshown⟩ := Comment.place_of_mem_find hfound hcomment hoffset hle
  have hfirst : (Diagnostic.ofReport source k failure.report).first =
      (source.position (k.offset + offset : Nat)).place := by
    rw [Diagnostic.ofReport_eq, Diagnostic.range_first hoffset hle]
  have hplace : (Diagnostic.ofReport source k failure.report).first.origin =
      (source.position (k.offset + offset : Nat)).origin := by
    rw [hfirst, Place.origin_place]
  refine ⟨rfl, ⟨offset, hoffset, hle, hplace⟩, ?_⟩
  rw [hplace, ← hshown]
  obtain ⟨gutter, hgutter, hprefix⟩ :=
    Report.heads_render hposition filename (some (k.position source).origin)
  exact ⟨gutter, hgutter, hprefix.trans (List.prefix_append _ _)⟩

theorem diagnose_eq (source : Text) :
    diagnose source =
      (Comment.refused source).map fun entry =>
        Diagnostic.ofReport source entry.1 entry.2.report := by
  rw [Comment.refused, List.map_filterMap, diagnose]
  congr 1
  funext k
  cases Document.parse k.text with
  | ok document => rfl
  | error failure => rfl

theorem findings_eq_map (format : Format) (tokens : Bool) (source : Text)
    (comments : List Comment) :
    Check.findings ⟨format, tokens, false⟩ source comments =
    comments.map (Check.finding tokens source) := by
  induction comments with
  | nil => rfl
  | cons comment rest ih => exact congrArg (_ :: ·) ih

/-- A check that shows documents and does not stop meets the failures of the comments that cannot be
read. -/
theorem failures_findings (format : Format) (source : Text) :
    (Check.findings ⟨format, false, false⟩ source (Comment.find source)).filterMap
      Finding.failure? = (Comment.refused source).map fun entry =>
        (entry.1.position source, entry.2) := by
  rw [findings_eq_map, List.filterMap_map, Comment.refused, List.map_filterMap]
  congr 1
  funext k
  simp only [Function.comp_apply, Check.finding, Finding.failure?, Entry.ofComment]
  cases Document.parse k.text with
  | ok document => rfl
  | error failure => rfl

/-- A check and an editor refuse the same comments of a source text, with the same messages at the
same places. -/
theorem check_diagnose (format : Format) (filename source : Text) :
    let outcome := check ⟨format, false, false⟩ filename source
    let refused := Comment.refused source
    outcome.failures = refused.map (·.2) ∧
      outcome.reports = refused.flatMap (fun entry =>
        Check.report filename (entry.1.position source) entry.2) ∧
      List.Forall₂ (fun entry d => SamePlace filename source entry.1 entry.2 d) refused
        (diagnose source) := by
  refine ⟨?_, ?_, ?_⟩
  · rw [check, failures_findings, List.map_map]
    rfl
  · rw [check, failures_findings, List.flatMap_map]
  · rw [diagnose_eq, List.forall₂_map_right_iff, List.forall₂_same]
    exact fun entry hentry => samePlace_of_mem_refused hentry filename

end DocComment
