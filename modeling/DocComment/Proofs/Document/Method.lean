import DocComment.Proofs.Document.Roundtrip
import DocComment.Proofs.Grammar.Signature

/-!
# Comments of one method

A comment on one line, with a method and its description. It is screened to the opening delimiter,
the tag, the tokens of the signature and of the description, and the closing delimiter, and read
back as the signature and the description that were written.
-/

namespace DocComment

open Canonical (IsPlain)
open Screening (Quiet Spells introAt outroAt)
open Token (kindOf)

variable {e t body text : Text} {tokens : List Token} {name : TagName} {n offset place stop : Nat}

/-! ## Comments of one tag -/

/-- A comment of one tag, on one line. -/
def lineComment (name : TagName) (body : Text) : Text :=
  '/' :: '*' :: '*' :: ([' '] ++ '@' :: (name.word ++ (body ++ "*/".toList)))

theorem lineComment_method (body : Text) :
    lineComment .method (' ' :: body) = "/** @method ".toList ++ body ++ "*/".toList := by
  have hhead : "/** @method ".toList =
    '/' :: '*' :: '*' :: ([' '] ++ '@' :: (TagName.method.word ++ [' '])) := rfl
  rw [hhead]
  simp only [lineComment, List.cons_append, List.append_assoc, List.nil_append]

theorem strip_lineComment (name : TagName) (body : Text) :
    Text.strip (lineComment name body) = lineComment name body := by
  have hclosing : "*/".toList = ['*'] ++ ['/'] := rfl
  have hends :=
    @Text.strip_of_ends '/' '/' ('*' :: '*' :: ([' '] ++ '@' :: (name.word ++ (body ++ ['*']))))
    (by decide) (by decide)
  simpa only [lineComment, hclosing, List.append_assoc, List.cons_append] using hends

/-- The tokens of a comment of one tag. -/
theorem exists_screen_line (name : TagName) (n : Nat) (hquiet : Quiet (' ' :: body))
    (hfeed : '\n' ∉ body) (hlast : ∀ c ∈ (' ' :: body).getLast?, kindOf c ≠ .whitespace) :
    ∃ tokens offset, Spells tokens (' ' :: body) ∧
      screen (lineComment name (' ' :: body ++ List.replicate (n + 1) ' ')) = .ok (introAt 0 ::
        ⟨.whitespace, [' '], 3⟩ :: ⟨.tag name, '@' :: name.word, 4⟩ :: (tokens ++
          ([⟨.whitespace, List.replicate (n + 1) ' ', offset⟩] ++
            [outroAt (offset + (n + 1)), ⟨.endOfText, [], offset + (n + 1) + 2⟩]))) := by
  have hspace : ∀ d ∈ [' '], kindOf d = .whitespace ∧ d ≠ '\r' := by
    rw [List.forall_mem_singleton]
    exact ⟨Screening.kindOf_space, by decide⟩
  have hat : ∀ s, ∀ d ∈ ('@' :: s : Text).head?, (d ≠ '\r' ∧ d ≠ '\n') ∧
      kindOf d ≠ .whitespace := by
    rintro s d ⟨⟩
    exact ⟨by decide, by simp [Token.kindOf_of_sign (k := .atSign) rfl]⟩
  have hblank : ∀ s, ∀ d ∈ (' ' :: s : Text).head?, (d ≠ '\r' ∧ d ≠ '\n') ∧
      kindOf d = .whitespace := by
    rintro s d ⟨⟩
    exact ⟨by decide, Screening.kindOf_space⟩
  have hline : '\n' ∉ ' ' :: body := by simp [hfeed]
  have hreplicate : List.replicate (n + 1) ' ' ++ "*/".toList =
    ' ' :: (List.replicate n ' ' ++ "*/".toList) := rfl
  have hcut : Screening.Cut (' ' :: body) (List.replicate (n + 1) ' ' ++ "*/".toList) :=
    hreplicate ▸ Screening.cut_of_space hlast _
  obtain ⟨tokens, hbody, hspells⟩ :=
    Screening.exists_spells_line hquiet hline hcut (3 + [' '].length + 1 + name.word.length)
  refine ⟨tokens, 3 + [' '].length + 1 + name.word.length + (' ' :: body).length, hspells, ?_⟩
  rw [screen_eq_ok_iff, lineComment, List.append_assoc (' ' :: body),
    Screening.items_intro (by rintro d ⟨⟩; decide),
    Screening.items_run (.inl rfl) (by simp) hspace
      (Screening.noReturn_of_head fun d hd => (hat _ d hd).1) fun d hd => (hat _ d hd).2,
    Screening.items_tag (u := ' ' :: body ++ _) name
      (Screening.noReturn_of_head fun d hd => (hblank _ d hd).1) fun d hd => .inl (hblank _ d hd).2,
    hbody, Screening.items_spaces_outro]
  simp

namespace Grammar

/-- A comment is read back if its only tag is. -/
theorem reads_comment_tag {tag : Tag}
    (h : Reads (blockTag name) (⟨.tag name, text, offset⟩ :: tokens) tag
      [outroAt stop, ⟨.endOfText, [], stop + 2⟩]) :
    Reads comment (introAt 0 :: ⟨.whitespace, [' '], 3⟩ :: ⟨.tag name, text, offset⟩ :: tokens)
      (({} : Document).insert tag) [] := by
  have htag : ∀ v ∈ (⟨.tag name, text, offset⟩ :: tokens : List Token).head?,
      v.kind ≠ .whitespace := by
    rintro v ⟨⟩
    simp
  have hgap : Reads skipBlanks ([⟨.whitespace, [' '], 3⟩] ++ ⟨.tag name, text, offset⟩ :: tokens) ()
      (⟨.tag name, text, offset⟩ :: tokens) := reads_skipBlanks (by simp) htag
  have hnone : Reads description ([] ++ ⟨.tag name, text, offset⟩ :: tokens) (Token.concat [], [])
      (⟨.tag name, text, offset⟩ :: tokens) := reads_description (by simp) rfl
  have hbehind : Reads skipBlanks [outroAt stop, ⟨.endOfText, [], stop + 2⟩] ()
      [outroAt stop, ⟨.endOfText, [], stop + 2⟩] := reads_noBlanks (by simp [outroAt])
  have hend : Reads skipBlanks [(⟨.endOfText, [], stop + 2⟩ : Token)] ()
      [⟨.endOfText, [], stop + 2⟩] :=
    reads_noBlanks (by simp)
  have hround : Reads (blockTagsRound {}) (⟨.tag name, text, offset⟩ :: tokens)
      (.again (({} : Document).insert tag)) [outroAt stop, ⟨.endOfText, [], stop + 2⟩] :=
    reads_current.bind (h.bind (hbehind.bind (.pure _)))
  have hlast :
      Reads (blockTagsRound (({} : Document).insert tag)) [outroAt stop, ⟨.endOfText, [], stop + 2⟩]
      (.done (({} : Document).insert tag)) [outroAt stop, ⟨.endOfText, [], stop + 2⟩] :=
    reads_current.bind (.pure _)
  have hloop := Reads.loop (.iterate_again hround (.iterate_done hlast))
  refine (reads_noBlanks (by simp [introAt])).bind ((reads_pass rfl).bind ?_)
  refine hgap.bind (hnone.bind (hloop.bind ((reads_pass rfl).bind ?_)))
  exact hend.bind ((reads_pass rfl).bind (.pure _))

/-- The tag of a method is read back from its tokens. -/
theorem reads_methodTag (s : WrittenSignature) (he : IsPlain e) (ht : Trails ' ' e t)
    (hs : Spells tokens (' ' :: (s.text ++ t))) (rest : List Token) :
    Reads (blockTag .method) (⟨.tag .method, text, offset⟩ :: (tokens ++
        ([⟨.whitespace, List.replicate n ' ', place⟩] ++ outroAt stop :: rest)))
      { content := .method s.signature, description := e } (outroAt stop :: rest) := by
  obtain ⟨front, hfront, -, hgap⟩ := reads_gap hs (.inl Screening.kindOf_space) (s.solid t)
  obtain ⟨more, hmore, hsignature⟩ := reads_signature s hfront
  have hspaces : ∀ c ∈ Token.concat [⟨.whitespace, List.replicate n ' ', place⟩],
      Text.isBlank c = true := by
    intro c hc
    obtain rfl : c = ' ' := List.eq_of_mem_replicate (by simpa using hc)
    decide
  obtain ⟨prose, between, hstrip, -, hblank, hprose⟩ := reads_prose_blanks (u := outroAt stop)
    (.inl Screening.kindOf_space) ht he.stripped he.noBrace hmore (by simp) hspaces rfl
      (by simp [outroAt]) rest
  have hends : EndsWord ([⟨.whitespace, List.replicate n ' ', place⟩] ++ outroAt stop :: rest) :=
    ⟨_, _, rfl, rfl⟩
  have hcontent := (hsignature _ hends).map Content.method
  have hbare : isBare .method = false := rfl
  rw [← hstrip]
  exact Canonical.reads_describedTag hbare (hgap _) hcontent hblank hprose

end Grammar

/-- The description, and the blank in front of it, may be left out. -/
theorem parse_methodLine (s : Grammar.WrittenSignature) (he : IsPlain e) (hline : '\n' ∉ e)
    (ht : Grammar.Trails ' ' e t)
    (hlast : ∀ c ∈ (' ' :: (s.text ++ t)).getLast?, kindOf c ≠ .whitespace) (n : Nat) :
    Document.parse (lineComment .method (' ' :: (s.text ++ t) ++ List.replicate (n + 1) ' ')) =
      .ok { methods := [⟨s.signature, e, []⟩] } := by
  have hsigns : ['\r', '@', '*', '/'] ⊆ Grammar.lineSigns := by decide
  have hquiet : Quiet (' ' :: (s.text ++ t)) :=
    .cons (by decide) (Screening.quiet_append (fun c hc hmem => s.lineSigns c hc (hsigns hmem))
      (Canonical.quiet_trails (by decide) he.toQuiet ht))
  have hfeed : '\n' ∉ s.text ++ t := by
    rw [List.mem_append, not_or]
    refine ⟨fun hmem => s.lineSigns _ hmem (by decide), ?_⟩
    obtain rfl | ⟨-, rfl⟩ := ht
    · simp [hline]
    · simp
  obtain ⟨tokens, offset, hspells, hscreen⟩ := exists_screen_line .method n hquiet hfeed hlast
  have hne : lineComment .method (' ' :: (s.text ++ t) ++ List.replicate (n + 1) ' ') ≠ [] :=
    List.cons_ne_nil _ _
  rw [Document.parse, strip_lineComment, if_neg hne]
  exact Canonical.onText_of_reads
    (Grammar.reads_comment_tag (Grammar.reads_methodTag s he ht hspells _)) hscreen

/-- A signature and its description on one line are read back. -/
theorem parse_method (s : Grammar.WrittenSignature) {e : Text} (he : IsPlain e) (hline : '\n' ∉ e) :
    Document.parse ("/** @method ".toList ++ s.text ++ ' ' :: e ++ " */".toList) =
      .ok { methods := [⟨s.signature, e, []⟩] } := by
  by_cases hnone : e = []
  · subst hnone
    -- the blanks on both sides of the description are one run
    have hlast : ∀ c ∈ (' ' :: (s.text ++ [])).getLast?, kindOf c ≠ .whitespace := by
      rw [List.append_nil, s.getLast?_text]
      rintro c ⟨⟩
      simp [Token.kindOf_of_sign (k := .rightParen) rfl]
    have htext : "/** @method ".toList ++ s.text ++ [' '] ++ " */".toList =
        lineComment .method (' ' :: (s.text ++ []) ++ List.replicate 2 ' ') := by
      have hend : [' '] ++ " */".toList = List.replicate 2 ' ' ++ "*/".toList := rfl
      rw [List.cons_append, lineComment_method, List.append_nil, List.append_assoc, hend]
      simp only [List.append_assoc]
    rw [htext]
    exact parse_methodLine s he hline (.inr ⟨rfl, rfl⟩) hlast 1
  · have hlast : ∀ c ∈ (' ' :: (s.text ++ ' ' :: e)).getLast?, kindOf c ≠ .whitespace := by
      have hsplit : ' ' :: (s.text ++ ' ' :: e) = ' ' :: s.text ++ [' '] ++ e := by simp
      have hend := List.getLast?_eq_some_getLast hnone
      rw [hsplit, List.getLast?_append, hend, Option.some_or, ← hend]
      exact Grammar.kindOf_last_of_strip he.stripped
    have htext : "/** @method ".toList ++ s.text ++ ' ' :: e ++ " */".toList =
        lineComment .method (' ' :: (s.text ++ ' ' :: e) ++ List.replicate 1 ' ') := by
      have hend : " */".toList = List.replicate 1 ' ' ++ "*/".toList := rfl
      rw [List.cons_append, lineComment_method, hend]
      simp only [List.append_assoc]
    rw [htext]
    exact parse_methodLine s he hline (.inl rfl) hlast 0

/-- The method that returns itself, with arguments of the name that is also a type. -/
def exampleSignature : Grammar.WrittenSignature where
  returnType := some "$this".toList
  name := "add".toList
  arguments := [⟨none, "$this".toList, by simp, by decide⟩,
    ⟨some "$this".toList, "$this".toList, by simpa using .single (.plain .self), by decide⟩]
  comma := true
  typed := by simpa using .single (.plain .self)
  named := by decide
  listed := by simp

/-- A variable that could be a type, and a comma behind the last argument. -/
theorem parse_method_self :
    let e := "Adds * or /.".toList
    IsPlain e ∧ '\n' ∉ e ∧
      Document.parse "/** @method $this add($this, $this $this,) Adds * or /. */".toList =
        .ok { methods := [⟨⟨"$this".toList, "add".toList, [⟨"mixed".toList, "$this".toList⟩,
          ⟨"$this".toList, "$this".toList⟩]⟩, e, []⟩] } := by
  intro e
  have hplain : IsPlain e :=
    ⟨⟨by decide, by decide, by decide +kernel, by decide +kernel⟩, by decide +kernel, by decide⟩
  have htext : "/** @method ".toList ++ exampleSignature.text ++ ' ' :: e ++ " */".toList =
      "/** @method $this add($this, $this $this,) Adds * or /. */".toList := by decide +kernel
  have hparse := parse_method exampleSignature hplain (by decide)
  rw [htext] at hparse
  exact ⟨hplain, by decide, hparse⟩

end DocComment
