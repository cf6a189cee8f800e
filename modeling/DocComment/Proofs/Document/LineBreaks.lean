import DocComment.Proofs.Grammar.Pairs
import DocComment.Proofs.Screening.Margin
import DocComment.Proofs.Screening.StepPair
import DocComment.Proofs.Text.Strip
import DocComment.Proofs.Token.First

/-!
# Comments with other line breaks

A line feed may have a carriage return in front of it or behind it. Where all line feeds of a
comment without carriage returns are given one in the same way, the raw tokens stay the same but for
the text of the line breaks, so the items of screening stay the same, and so does the document.
-/

namespace DocComment

open Text (isBlank isLetter strip)
open Token (Twin lineBreaks tokenizeFrom)

/-- The text with each line feed written as another line break. -/
def Text.withBreaks (newline t : Text) : Text :=
  t.flatMap fun c => if c = '\n' then newline else [c]

/-- The line breaks of more than a line feed. -/
def longBreaks : List Text := ["\r\n".toList, "\n\r".toList]

variable {newline s t run : Text} {c : Char} {offset offset' : Nat}

theorem mem_lineBreaks (hnewline : newline ∈ longBreaks) : newline ∈ lineBreaks := by
  have hall : ∀ text ∈ longBreaks, text ∈ lineBreaks := by decide
  exact hall newline hnewline

namespace Text

theorem withBreaks_append (newline s t : Text) :
    withBreaks newline (s ++ t) = withBreaks newline s ++ withBreaks newline t :=
  List.flatMap_append

theorem withBreaks_feed (newline t : Text) :
    withBreaks newline ('\n' :: t) = newline ++ withBreaks newline t :=
  rfl

theorem withBreaks_cons (hc : c ≠ '\n') :
    withBreaks newline (c :: t) = c :: withBreaks newline t := by
  rw [withBreaks, List.flatMap_cons, if_neg hc]
  rfl

theorem withBreaks_of_ne (hrun : ∀ c ∈ run, c ≠ '\n') : withBreaks newline run = run := by
  induction run with
  | nil => rfl
  | cons c run ih =>
    rw [List.forall_mem_cons] at hrun
    rw [withBreaks_cons hrun.1, ih hrun.2]

/-! ## Blanks at the ends -/

theorem isBlank_withBreaks (hnewline : newline ∈ longBreaks) (ht : ∀ c ∈ t, isBlank c = true) :
    ∀ c ∈ withBreaks newline t, isBlank c = true := by
  intro c hc
  obtain ⟨d, hd, hc⟩ := List.mem_flatMap.mp hc
  split at hc
  · exact Token.isBlank_of_mem_lineBreaks (mem_lineBreaks hnewline) c hc
  · exact List.mem_singleton.mp hc ▸ ht d hd

theorem ne_feed_of_not_isBlank (hc : isBlank c = false) : c ≠ '\n' := by
  rintro rfl
  exact absurd hc (by decide)

/-- The line breaks at the ends of a text are stripped, however they are written. -/
theorem strip_withBreaks (hnewline : newline ∈ longBreaks) (t : Text) :
    strip (withBreaks newline t) = withBreaks newline (strip t) := by
  obtain ⟨front, back, ht, hfront, hback, hhead, hlast⟩ := exists_strip t
  generalize strip t = inner at ht hhead hlast ⊢
  rw [ht, withBreaks_append, withBreaks_append,
    strip_blanks_append (isBlank_withBreaks hnewline hfront),
    strip_append_blanks (isBlank_withBreaks hnewline hback)]
  apply strip_of_head_last
  · cases inner with
    | nil => exact nofun
    | cons c inner =>
      rw [withBreaks_cons (ne_feed_of_not_isBlank (hhead c rfl))]
      exact hhead
  · rcases List.eq_nil_or_concat inner with rfl | ⟨init, c, rfl⟩
    · exact nofun
    · rw [List.concat_eq_append] at hlast ⊢
      have hc : c ≠ '\n' := ne_feed_of_not_isBlank (hlast c (by simp))
      have hsingle : withBreaks newline [c] = [c] := withBreaks_cons hc
      rw [List.getLast?_concat] at hlast
      rw [withBreaks_append, hsingle, List.getLast?_concat]
      exact hlast

end Text

/-! ## Raw tokens -/

open Text (withBreaks)

/-- A line break of two characters is one token, whatever comes after. -/
theorem Token.isFirst_break (hnewline : newline ∈ longBreaks) (s : Text) :
    IsFirst .newline newline s := by
  have hreturn : ¬isLetter '\r' = true := by decide +kernel
  have hfeed : ¬isLetter '\n' = true := by decide +kernel
  rcases List.mem_pair.mp hnewline with rfl | rfl
  · refine ⟨'\r', ['\n'], rfl, fun offset => ?_⟩
    rw [first, if_neg hreturn]
    rfl
  · refine ⟨'\n', ['\r'], rfl, fun offset => ?_⟩
    rw [first, if_neg hfeed]
    rfl

/-- No letter comes to the head of a text. -/
theorem Text.isLetter_head_withBreaks (hnewline : newline ∈ longBreaks)
    (hs : ∀ d ∈ s.head?, isLetter d = false) :
    ∀ d ∈ (withBreaks newline s).head?, isLetter d = false := by
  cases s with
  | nil => exact nofun
  | cons c s =>
    by_cases hc : c = '\n'
    · subst hc
      obtain ⟨d, more, rfl, -⟩ := Token.isFirst_break hnewline []
      have hblank : isBlank d = true :=
        Token.isBlank_of_mem_lineBreaks (mem_lineBreaks hnewline) d List.mem_cons_self
      rw [withBreaks_feed]
      rintro e ⟨⟩
      exact isLetter_of_isBlank hblank
    · rw [withBreaks_cons hc]
      exact hs

/-- Another line break gives the same raw tokens, but for its own text. -/
theorem Token.twin_withBreaks (hnewline : newline ∈ longBreaks) (hs : '\r' ∉ s)
    (offset offset' : Nat) :
    List.Forall₂ Twin (tokenizeFrom 0 offset s)
      (tokenizeFrom 0 offset' (withBreaks newline s)) := by
  have hfeed : ['\n'] ∈ lineBreaks := by decide
  -- a run of letters is taken as a whole
  induction s using suffix_induction generalizing offset offset' with
  | nil => exact .cons ⟨rfl, fun _ => rfl, nofun⟩ .nil
  | cons c rest ih =>
    rw [List.mem_cons, not_or] at hs
    cases hletter : isLetter c with
    | true =>
      obtain ⟨more, left, rfl, -, hmore, hleft⟩ := split_run isLetter rest
      have hletters : ∀ d ∈ c :: more, isLetter d = true := by
        rw [List.forall_mem_cons]
        exact ⟨hletter, hmore⟩
      have hunbroken : ∀ d ∈ c :: more, d ≠ '\n' := by
        rintro d hd rfl
        exact absurd (hletters _ hd) (by decide +kernel)
      rw [← List.cons_append, Text.withBreaks_append, Text.withBreaks_of_ne hunbroken,
        tokenizeFrom_letters hletters (by simp) hleft,
        tokenizeFrom_letters hletters (by simp) (Text.isLetter_head_withBreaks hnewline hleft)]
      refine .cons ⟨rfl, fun _ => rfl, nofun⟩ ?_
      exact ih (c :: more) left rfl (by simp) (fun h => hs.2 (List.mem_append_right _ h)) _ _
    | false =>
      have hreturn : c ≠ '\r' := fun h => hs.1 h.symm
      have hrest := ih [c] rest rfl (by simp) hs.2
      by_cases hc : c = '\n'
      · subst hc
        have hunless : Unless '\r' rest := by
          rintro d hd rfl
          exact hs.2 (List.mem_of_mem_head? hd)
        rw [tokenizeFrom_single hletter hreturn fun _ => hunless, Screening.kindOf_feed,
          Text.withBreaks_feed, (isFirst_break hnewline _).tokenizeFrom]
        exact .cons ⟨rfl, fun hline => absurd rfl hline, fun _ =>
          ⟨hfeed, mem_lineBreaks hnewline⟩⟩ (hrest _ _)
      · rw [Text.withBreaks_cons hc, tokenizeFrom_single hletter hreturn fun h => absurd h hc,
          tokenizeFrom_single hletter hreturn fun h => absurd h hc]
        refine .cons ⟨rfl, fun _ => rfl, ?_⟩ (hrest _ _)
        exact fun hkind => absurd (eq_feed_of_kindOf hkind) hc

/-! ## Documents -/

/-- The same token but for where it is and, if it is a line break, how it is written. -/
def Token.AlikeButBreak (t u : Token) : Prop :=
  t.kind = u.kind ∧ (t.kind ≠ .newline → t.text = u.text)

theorem withBreaks_eq_nil_iff (hnewline : newline ∈ longBreaks) :
    withBreaks newline t = [] ↔ t = [] := by
  have hne : newline ≠ [] := by
    rintro rfl
    exact absurd hnewline (by decide)
  refine ⟨fun h => ?_, fun h => by rw [h]; rfl⟩
  cases t with
  | nil => rfl
  | cons c t =>
    have hc := List.flatMap_eq_nil_iff.mp h c List.mem_cons_self
    split at hc
    · exact absurd hc hne
    · cases hc

/-- How lines are broken does not matter to a document, nor to the kind of error that a comment is
refused with. -/
theorem parse_withBreaks (comment newline : Text) (hcomment : '\r' ∉ comment)
    (hnewline : newline ∈ longBreaks) :
    Document.SameReading Token.AlikeButBreak comment (withBreaks newline comment) := by
  have hstrip := Text.strip_withBreaks hnewline comment
  have hreturn : '\r' ∉ strip comment := by
    obtain ⟨front, back, hcut, -⟩ := Text.exists_strip comment
    exact fun h => hcomment (hcut ▸ List.mem_append_right front (List.mem_append_left back h))
  refine Document.sameReading (fun h => ⟨h.kind, fun _ => h.text⟩) ?_ ?_
  · rw [hstrip]
    exact (withBreaks_eq_nil_iff hnewline).symm
  · rw [hstrip]
    have hitems := Screening.itemsFrom_pair id (Token.twin_withBreaks hnewline hreturn 0 0) 0
    exact hitems.imp fun _ _ h => h.imp fun _ _ htwin => ⟨htwin.kind, htwin.text⟩

theorem parse_withBreaks_returned :
    '\r' ∉ "/**\n * Reads.\n *\n * @api\n */".toList ∧ "\r\n".toList ∈ longBreaks ∧
      withBreaks "\r\n".toList "/**\n * Reads.\n *\n * @api\n */".toList =
        "/**\r\n * Reads.\r\n *\r\n * @api\r\n */".toList ∧
      Document.SameReading Token.AlikeButBreak "/**\n * Reads.\n *\n * @api\n */".toList
        (withBreaks "\r\n".toList "/**\n * Reads.\n *\n * @api\n */".toList) :=
  ⟨by decide, by decide, by decide, parse_withBreaks _ _ (by decide) (by decide)⟩

end DocComment
