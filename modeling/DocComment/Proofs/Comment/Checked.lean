import DocComment.Proofs.Comment.Excerpt
import DocComment.Proofs.Comment.Reported
import Mathlib.Data.List.Infix
import Mathlib.Data.List.TakeWhile

/-!
# What a check shows and reports

A check looks at comments one after the other. `Covers` says what has to come of the comments that
were looked at: a failure and a report for each bad one, and an entry with its line for each other
one, in the order of the comments. A check that does not stop covers all comments of the source
text. One that stops covers those up to the first bad one, so it gives what the other gives, cut off
behind that comment.

What a report and an entry look like is written out here, by `Reported` and `Shows`. The line of an
entry is counted in the source text by its line feeds.
-/

namespace DocComment

namespace Check

/-- The comment cannot be shown: it has no tokens where tokens are asked for, and else
no document. -/
def isBad (tokens : Bool) (k : Comment) : Bool :=
  if tokens then !(screen k.text).isOk else !(Document.parse k.text).isOk

/-- The comment is bad because of this error. -/
def Refuses (k : Comment) (e : SyntaxError) : (tokens : Bool) → Prop
  | true => screen k.text = .error e
  | false => Document.parse k.text = .error (.syntaxError e)

/-- The entry is what is asked for of the comment. -/
def Reads (tokens : Bool) (k : Comment) : Entry → Prop
  | .tokens ts => tokens = true ∧ screen k.text = .ok ts
  | .document d => tokens = false ∧ Document.parse k.text = .ok d

/-- The line of an offset, counted from one by the line feeds in front. -/
def lineOf (source : Text) (offset : Nat) : Nat := (source.take offset).count '\n' + 1

/-- The report of an error in a comment: its message, the name of the file, the place of its offset
in the source text, and a line with carets. -/
def Reported (filename source : Text) (k : Comment) (e : SyntaxError) (text : Text) : Prop :=
  ∃ offset : Nat, e.report.offset = some (offset : Int) ∧ offset ≤ k.text.length ∧
    e.comment = k.text ∧ ∃ excerpt blanks carets, 1 ≤ carets ∧
      text = Report.layout e.report.message filename
        (source.position (k.offset + offset : Nat)).origin excerpt blanks carets ++ ['\n']

/-- A row shows the offset of a token, its kind and its quoted text, with blanks in front and
between. -/
def IsRow (t : Token) (row : Text) : Prop :=
  ∃ front gap : Nat, row = List.replicate front ' ' ++ Text.numeral t.offset ++ ' ' ::
    t.kind.label.toList ++ List.replicate gap ' ' ++ ' ' :: Text.quoted t.text ++ ['\n']

/-- What is shown of an entry: a row for each token, or the tree of the document, which begins with
its description. -/
inductive Shows : Entry → Text → Prop
  | tokens {ts : List Token} {rows : List Text} (rowed : List.Forall₂ IsRow ts rows) :
      Shows (.tokens ts) rows.flatten
  | document {d : Document}
      (titled : "Document\n  description: ".toList ++ Text.quoted d.description ++
        ['\n'] <+: d.tree) :
      Shows (.document d) d.tree

/-- A document as an element of the JSON array. -/
def element (source : Text) (entry : Comment × Document) : Json :=
  .object [("line".toList, .number (lineOf source entry.1.offset)),
    ("document".toList, entry.2.json)]

/-- What comes of the comments that were looked at, the bad ones with their reports and the others
with what is shown of them. -/
structure Covers (format : Format) (tokens : Bool) (filename source : Text) (looked : List Comment)
    (bad : List (Comment × SyntaxError)) (texts : List Text) (good : List (Comment × Entry))
    (o : Outcome) : Prop where
  bad_comments : bad.map (·.1) = looked.filter (isBad tokens)
  refuses : ∀ b ∈ bad, Refuses b.1 b.2 tokens
  good_comments : good.map (·.1) = looked.filter (!isBad tokens ·)
  reads : ∀ g ∈ good, Reads tokens g.1 g.2
  failures : o.failures = bad.map (.syntaxError ·.2)
  reports : o.reports = texts.flatten
  reported : List.Forall₂ (fun b text => Reported filename source b.1 b.2 text) bad texts
  listed : format = .json → tokens = false → ∃ documents : List (Comment × Document),
    good = documents.map (fun entry => (entry.1, .document entry.2)) ∧
      o.output = Json.write (.array (documents.map (element source))) ++ ['\n']
  blocks : ¬(format = .json ∧ tokens = false) →
    o.output = good.flatMap fun g =>
      "# line ".toList ++ Text.numeral (lineOf source g.1.offset) ++ '\n' :: g.2.shown
  shown : ∀ g ∈ good, Shows g.2 g.2.shown

/-! ## What is written -/

section

variable {tokens : Bool} {source : Text} {k : Comment} {e : SyntaxError}

/-- An error for which a comment that is found is bad has its cause in that comment. -/
theorem Refuses.within (hfound : k ∈ Comment.find source) (h : Refuses k e tokens) :
    ∃ cause, e = ⟨cause, k.text⟩ ∧ cause.Within k.text := by
  cases tokens with
  | true => exact screen_error h
  | false =>
    obtain ⟨cause, heq, hwithin⟩ := Document.parse_error h
    rw [Comment.strip_of_mem_find hfound] at heq hwithin
    exact ⟨cause, Failure.syntaxError.inj heq, hwithin⟩

end

/-! ## One comment -/

section

variable {tokens : Bool} {k : Comment}

end

/-! ## The comments that were looked at -/

section

variable {tokens : Bool} {source : Text} {looked : List Comment}

/-- The outcome for the comments that were looked at. -/
def outcome (format : Format) (tokens : Bool) (filename source : Text)
    (looked : List Comment) : Outcome :=
  let found := looked.map (finding tokens source)
  let failures := found.filterMap Finding.failure?
  { output := output ⟨format, tokens, false⟩ (found.filterMap Finding.entry?)
    reports := failures.flatMap fun (p, failure) => report filename p failure
    failures := failures.map (·.2) }

end

end Check

end DocComment
