import DocComment.Comment
import DocComment.Grammar.Comment
import DocComment.Output.DocumentJson
import DocComment.Output.TokenTable
import DocComment.Output.Tree

/-!
# Checking a source text

Every doc-comment of a source text is read, and the result is shown in one of three ways: the tokens
of each comment, a tree for each document, or one JSON array of all documents. Each comment that
cannot be read is reported with its place in the source text, and the others are shown all the same;
with `failFast` the first such comment is the last one that is looked at.
-/

namespace DocComment

/-- The ways to show documents. One that is asked for without its word shows trees. -/
inductive Format where
  | tree | json | unnamed
deriving DecidableEq, Repr, Inhabited

structure CheckOptions where
  format : Format := .tree
  tokens : Bool := false
  failFast : Bool := false
deriving DecidableEq, Repr, Inhabited

/-- What is shown of a comment that can be read. -/
inductive Entry where
  | tokens (tokens : List Token)
  | document (document : Document)

/-- A comment that was looked at, with its place and what came of it. -/
structure Finding where
  comment : Comment
  position : Position
  result : Except Failure Entry

/-- What a check gives: the shown text, the reports, and the failures behind them. -/
structure Outcome where
  output : Text
  reports : Text
  failures : List Failure

namespace Finding

def isBad (f : Finding) : Bool :=
  match f.result with
  | .ok _ => false
  | .error _ => true

def entry? (f : Finding) : Option (Position × Entry) :=
  match f.result with
  | .ok entry => some (f.position, entry)
  | .error _ => none

def failure? (f : Finding) : Option (Position × Failure) :=
  match f.result with
  | .ok _ => none
  | .error failure => some (f.position, failure)

end Finding

namespace Entry

def ofComment (tokens : Bool) (comment : Text) : Except Failure Entry :=
  if tokens then ((screen comment).mapError .syntaxError).map .tokens
  else (Document.parse comment).map .document

def shown : Entry → Text
  | .tokens ts => Token.table ts
  | .document d => d.tree

/-- An entry as an element of the JSON array. Tokens are never put there. -/
def json? (p : Position) : Entry → Option Json
  | .tokens _ => none
  | .document d => some (.object [("line".toList, .number p.line), ("document".toList, d.json)])

end Entry

namespace Check

def finding (tokens : Bool) (source : Text) (comment : Comment) : Finding :=
  ⟨comment, comment.position source, Entry.ofComment tokens comment.text⟩

def findings (options : CheckOptions) (source : Text) : List Comment → List Finding
  | [] => []
  | comment :: rest =>
    let first := finding options.tokens source comment
    if options.failFast && first.isBad then [first] else first :: findings options source rest

def heading (p : Position) : Text := "# line ".toList ++ Text.numeral p.line ++ ['\n']

def output (options : CheckOptions) (entries : List (Position × Entry)) : Text :=
  if options.format = .json ∧ options.tokens = false then
    Json.write (.array (entries.filterMap fun (p, entry) => entry.json? p)) ++ ['\n']
  else entries.flatMap fun (p, entry) => heading p ++ entry.shown

def report (filename : Text) (p : Position) (failure : Failure) : Text :=
  failure.report.render filename (some p.origin) ++ ['\n']

end Check

/-- Checks a source text that is shown under a file name. -/
def check (options : CheckOptions) (filename source : Text) : Outcome :=
  let found := Check.findings options source (Comment.find source)
  let failures := found.filterMap Finding.failure?
  { output := Check.output options (found.filterMap Finding.entry?)
    reports := failures.flatMap fun (p, failure) => Check.report filename p failure
    failures := failures.map (·.2) }

end DocComment
