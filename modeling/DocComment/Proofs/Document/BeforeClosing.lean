import DocComment.Proofs.Comment.Delimiters
import DocComment.Proofs.Document.Blocks
import DocComment.Proofs.Grammar.Severed
import DocComment.Proofs.Screening.Behind

/-!
# A blank in front of the closing delimiter

A comment reads the same with a blank in front of its closing delimiter and without, whatever stands
in front of it: the same document, or an error of the same class. There is one exception, the path
of a file, which only a blank ends; and nothing is said of a comment whose last line is a slash with
no more than blanks in front of it, since the closing delimiter is then a part of what that line
begins with.
-/

namespace DocComment

open Grammar (EndsWithFile)
open Screening (Item)
open Text (isBlank)

/-- The same document, or errors of one class. -/
inductive Document.SameAnswer : Except Failure Document → Except Failure Document → Prop
  | document (d : Document) : SameAnswer (.ok d) (.ok d)
  | refused {e e' : SyntaxError} (same : e.cause.SameClass e'.cause) :
      SameAnswer (.error (.syntaxError e)) (.error (.syntaxError e'))

/-- One comment is refused for a file, which is a path with the closing delimiter behind it. The
other is read, and its last tag names the path. -/
def Document.CutsFile (result result' : Except Failure Document) : Prop :=
  ∃ (path : Text) (offset : Nat) (e : SyntaxError) (d : Document), Form.isFile path = true ∧
    result = .error (.syntaxError e) ∧ e.cause = .malformed .file (path ++ "*/".toList) offset ∧
      result' = .ok d ∧
    EndsWithFile path d

/-- The last line of the text is a slash behind blanks. -/
def SlashAlone (x : Text) : Prop :=
  ∃ front blanks, x = front ++ '\n' :: (blanks ++ ['/']) ∧ ∀ c ∈ blanks, isBlank c = true

/-- Comments with the same items in front of different endings. -/
theorem onText_endings {s s' : Text} {all : List Item} {e e' : CommentEnd}
    (hblanks : e'.blanks = [] → e.blanks = []) (hs : Screening.items s = all ++ e.tokens.map .token)
    (hs' : Screening.items s' = all ++ e'.tokens.map .token) :
    Document.SameAnswer (Grammar.comment.onText s) (Grammar.comment.onText s') ∨
      Document.CutsFile (Grammar.comment.onText s) (Grammar.comment.onText s') := by
  have hfront : all = ([] : List Token).map .token ++ all := rfl
  have hinside : Cursor.Inside e e' all (Cursor.ofText s) (Cursor.ofText s') :=
    Cursor.abreast_of_front ⟨e.open_tokens, e'.open_tokens⟩ ⟨hs, hs', Int.le_refl 0, Int.le_refl 0⟩
      hfront rfl rfl
  have hstalled :
      ∀ {s : Text} {d : Cursor}, Grammar.comment (Cursor.ofText s) ≠ .error .stalled d := by
    intro s d h
    have herror : Grammar.comment.onText s = .error .stalled := by rw [Reading.onText, h]
    obtain ⟨cause, hcause, -⟩ := Grammar.comment_error herror
    cases hcause
  rcases Grammar.lockstep_comment hblanks _ _ _ hinside with h |
    ⟨path, offset, x, c, d, c', -, -, hresult, hcause, hpath, hresult', hd, -⟩
  · left
    rw [Reading.onText, Reading.onText]
    generalize hresult : Grammar.comment (Cursor.ofText s) = result at h ⊢
    generalize hresult' : Grammar.comment (Cursor.ofText s') = result' at h ⊢
    cases h with
    | answered sheds answer =>
      obtain ⟨rfl, -⟩ := answer
      exact .document _
    | refused sheds forked same => exact .refused same
    | stalled => exact absurd hresult hstalled
    | stalled' => exact absurd hresult' hstalled
  · right
    rw [Reading.onText, Reading.onText, hresult, hresult']
    exact ⟨path, offset, x, d, hpath, rfl, hcause, rfl, hd⟩

/-! ## The text of a comment -/

section

variable {x : Text} {raws : List Token}

/-- A line of raw tokens that is a slash behind blanks is such a line of the text. -/
theorem slashAlone_of_slashLine (hraws : ∀ u ∈ raws, Token.IsRaw u)
    (hconcat : Token.concat raws = "/**".toList ++ x) (h : Screening.SlashLine raws) :
    SlashAlone x := by
  obtain ⟨front, newline, rest, rfl, hnewline, blanks, slash, rfl, hblanks, hslash⟩ := h
  have hslashText : slash.text = ['/'] := (hraws slash (by simp)).text_of_sign (by rw [hslash]; rfl)
  have hblank : ∀ c ∈ Token.concat blanks, isBlank c = true := by
    intro c hc
    obtain ⟨u, hu, hc⟩ := List.mem_flatMap.mp hc
    obtain ⟨d, htext, hd, -⟩ := (hraws u (by simp [hu])).text_of_blank (hblanks u hu)
    rw [htext, List.mem_singleton] at hc
    rwa [hc]
  -- a line break is a line feed with at most one carriage return around it
  obtain ⟨before, after, hnewlineText, hafter⟩ : ∃ before after, newline.text =
    before ++ '\n' :: after ∧
      ∀ c ∈ after, isBlank c = true := by
    have hknown := (hraws newline (by simp)).text_of_newline hnewline
    simp only [Token.lineBreaks, List.mem_cons, List.not_mem_nil, or_false] at hknown
    rcases hknown with hknown | hknown | hknown
    · exact ⟨['\r'], [], hknown, List.forall_mem_nil _⟩
    · refine ⟨[], ['\r'], hknown, fun c hc => ?_⟩
      obtain rfl := List.mem_singleton.mp hc
      decide
    · exact ⟨[], [], hknown, List.forall_mem_nil _⟩
  have hline : "/**".toList ++ x =
      (Token.concat front ++ before) ++ '\n' :: (after ++ Token.concat blanks ++ ['/']) := by
    rw [← hconcat]
    simp [hnewlineText, hslashText]
  have hall : ∀ c ∈ after ++ Token.concat blanks, isBlank c = true :=
    List.forall_mem_append.mpr ⟨hafter, hblank⟩
  rcases List.append_eq_append_iff.mp hline with ⟨lead, -, hx⟩ | ⟨lead, hopening, hx⟩
  · exact ⟨lead, _, hx, hall⟩
  · cases lead with
    | nil => exact ⟨[], _, hx.symm, hall⟩
    | cons c lead =>
      obtain ⟨rfl, -⟩ := List.cons.inj hx
      have hmem : '\n' ∈ "/**".toList := by simp [hopening]
      exact absurd hmem (by decide)

theorem items_before_closing (hne : x ≠ []) (hstar : x.getLast? ≠ some '*')
    (hslash : ¬SlashAlone x) :
    ∃ (all : List Item) (e e' : CommentEnd), (e'.blanks = [] → e.blanks = []) ∧
      Screening.items ("/**".toList ++ x ++ "*/".toList) = all ++ e.tokens.map .token ∧
      Screening.items ("/**".toList ++ x ++ " */".toList) = all ++ e'.tokens.map .token := by
  obtain ⟨raws, hraws, hconcat, htokens⟩ := Screening.exists_raws ("/**".toList ++ x) 0
  have hstarless : Screening.Starless raws := by
    intro u hu hkind
    have hlast : (Token.concat raws).getLast? = some '*' :=
      (Token.getLast?_concat_iff hraws (by rfl : Kind.star.sign? = some '*')).mpr ⟨u, hu, hkind⟩
    rw [hconcat, List.getLast?_append, List.getLast?_eq_some_getLast hne, Option.some_or] at hlast
    exact hstar ((List.getLast?_eq_some_getLast hne).trans hlast)
  have hslashLine : ¬Screening.SlashLine raws :=
    fun h => hslash (slashAlone_of_slashLine hraws hconcat h)
  obtain ⟨all, e, e', hblanks, hitems, hitems'⟩ :=
    Screening.exists_endings (0 + ("/**".toList ++ x).length) hraws hstarless hslashLine
  refine ⟨all, e, e', hblanks, ?_, ?_⟩
  · rw [Screening.items, Token.tokenize, htokens _ Screening.endsString_close,
      Screening.tokenizeFrom_close, hitems]
  · rw [Screening.items, Token.tokenize, htokens _ Screening.endsString_blank,
      Screening.tokenizeFrom_blank, hitems']

theorem strip_comment (x front : Text) :
    Text.strip ("/**".toList ++ x ++ (front ++ ['/'])) = "/**".toList ++ x ++ (front ++ ['/']) := by
  have hsplit : "/**".toList ++ x ++ (front ++ ['/']) =
    '/' :: (("**".toList ++ x ++ front) ++ ['/']) := by simp
  rw [hsplit]
  exact Text.strip_of_ends (by decide) (by decide)

/-- A blank in front of the closing delimiter makes no difference to what a comment reads as, unless
what it ends in is the path of a file. -/
theorem parse_blank_before_closing (hne : x ≠ []) (hstar : x.getLast? ≠ some '*')
    (hslash : ¬SlashAlone x) :
    Document.SameAnswer (Document.parse ("/**".toList ++ x ++ "*/".toList))
        (Document.parse ("/**".toList ++ x ++ " */".toList)) ∨
      Document.CutsFile (Document.parse ("/**".toList ++ x ++ "*/".toList))
        (Document.parse ("/**".toList ++ x ++ " */".toList)) := by
  obtain ⟨all, e, e', hblanks, hitems, hitems'⟩ := items_before_closing hne hstar hslash
  have hparse : ∀ front : Text, Document.parse ("/**".toList ++ x ++ (front ++ ['/'])) =
      Grammar.comment.onText ("/**".toList ++ x ++ (front ++ ['/'])) := by
    intro front
    rw [Document.parse, strip_comment x front]
    exact if_neg (List.cons_ne_nil _ _)
  have hbare : Document.parse ("/**".toList ++ x ++ "*/".toList) = _ := hparse ['*']
  have hblank : Document.parse ("/**".toList ++ x ++ " */".toList) = _ := hparse [' ', '*']
  rw [hbare, hblank]
  exact onText_endings hblanks hitems hitems'

end

/-- Behind a line break the closing delimiter makes a slash no beginning of a comment, and the two
come to different faults, of which the grammar may pass over one and not the other. -/
example : (Document.parse "/** @deprecated x\n/*/".toList).isOk = false ∧
    (Document.parse "/** @deprecated x\n/ */".toList).isOk = true := by decide +kernel

theorem SlashAlone.getLast? {x : Text} (h : SlashAlone x) : x.getLast? = some '/' := by
  obtain ⟨front, blanks, rfl, -⟩ := h
  rw [← List.cons_append, ← List.append_assoc, List.getLast?_concat]

/-- Lines with a tag between them. -/
theorem parse_blank_before_closing_lines :
    let x := "\n * @param int $x\n".toList
    x ≠ [] ∧ x.getLast? ≠ some '*' ∧ ¬SlashAlone x ∧
      (Document.SameAnswer (Document.parse ("/**".toList ++ x ++ "*/".toList))
          (Document.parse ("/**".toList ++ x ++ " */".toList)) ∨
        Document.CutsFile (Document.parse ("/**".toList ++ x ++ "*/".toList))
          (Document.parse ("/**".toList ++ x ++ " */".toList))) := by
  intro x
  have hne : x ≠ [] := by decide
  have hstar : x.getLast? ≠ some '*' := by decide
  have hslash : ¬SlashAlone x := fun h => absurd h.getLast? (by decide)
  exact ⟨hne, hstar, hslash, parse_blank_before_closing hne hstar hslash⟩

theorem Document.SameAnswer.isOk {result result' : Except Failure Document}
    (h : SameAnswer result result') :
    result.isOk = result'.isOk := by
  cases h with
  | document => rfl
  | refused => rfl

/-- The path of a file takes the closing delimiter with it, and is refused. -/
theorem parse_cuts_file :
    let x := " @uses foo/bar.php".toList
    x ≠ [] ∧ x.getLast? ≠ some '*' ∧
      ¬Document.SameAnswer (Document.parse ("/**".toList ++ x ++ "*/".toList))
        (Document.parse ("/**".toList ++ x ++ " */".toList)) := by
  intro x
  have hbare : (Document.parse ("/**".toList ++ x ++ "*/".toList)).isOk = false := by decide +kernel
  have hblank : (Document.parse ("/**".toList ++ x ++ " */".toList)).isOk = true := by
    decide +kernel
  refine ⟨by decide, by decide, fun h => ?_⟩
  have hsame := h.isOk
  rw [hbare, hblank] at hsame
  cases hsame

end DocComment
