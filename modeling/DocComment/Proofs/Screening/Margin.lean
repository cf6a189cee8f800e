import DocComment.Proofs.Screening.Head

/-!
# Screening inside a comment

A text stands inside a comment with a star between blanks in front of each line. `closedItems` are
the items of such a text up to the end of the comment. A line break goes with the margin behind it,
and the other items are taken off the text as they are taken off any other. Carriage returns are
left aside, and so are the signs that open or close a comment.
-/

namespace DocComment.Screening

open Token (Unless kindOf tokenizeFrom)

/-- A text with the margin of a comment at the beginning of each line but the first. -/
def withMargins (t : Text) : Text := t.flatMap fun c => if c = '\n' then "\n * ".toList else [c]

/-- A text up to the end of the comment that it stands in. -/
def closed (t : Text) : Text := withMargins t ++ "\n */".toList

/-- The items of the text in a comment, from an offset on. -/
def closedItems (offset : Nat) (t : Text) : List Item :=
  itemsFrom 0 (tokenizeFrom 0 offset (closed t))

variable {c : Char} {t run word : Text} {offset : Nat}

theorem closed_feed : closed ('\n' :: t) = '\n' :: ' ' :: '*' :: ' ' :: closed t := rfl

theorem closed_cons (hc : c ≠ '\n') : closed (c :: t) = c :: closed t := by
  rw [closed, withMargins, List.flatMap_cons, if_neg hc]
  rfl

theorem closed_run (hrun : ∀ c ∈ run, c ≠ '\n') : closed (run ++ t) = run ++ closed t := by
  induction run with
  | nil => rfl
  | cons c run ih =>
    rw [List.forall_mem_cons] at hrun
    rw [List.cons_append, closed_cons hrun.1, ih hrun.2, List.cons_append]

theorem head?_closed (t : Text) : (closed t).head? = some (t.headD '\n') := by
  cases t with
  | nil => rfl
  | cons c t =>
    by_cases hc : c = '\n'
    · obtain rfl := hc
      rfl
    · rw [closed_cons hc]
      rfl

theorem forall_head_closed {p : Char → Prop} (h : p (t.headD '\n')) :
    ∀ d ∈ (closed t).head?, p d := by
  intro d hd
  rw [head?_closed, Option.mem_some_iff] at hd
  exact hd ▸ h

theorem noReturn_closed (ht : '\r' ∉ t) : NoReturn (closed t) := by
  have hspace : ∀ s, Unless '\r' (' ' :: s) := fun s d hd => by
    obtain rfl := Option.mem_some_iff.mp hd
    decide
  cases t with
  | nil => exact ⟨forall_head_closed (by decide), fun _ => hspace _⟩
  | cons c t =>
    refine ⟨forall_head_closed fun hc => ht (hc ▸ List.mem_cons_self), fun hfeed => ?_⟩
    rw [head?_closed, Option.some.injEq] at hfeed
    obtain rfl : c = '\n' := hfeed
    rw [closed_feed]
    exact hspace _

/-- A word without a line break begins the text in the comment only if it begins the text. -/
theorem prefix_of_closed (hword : '\n' ∉ word) (h : word <+: closed t) : word <+: t := by
  induction word generalizing t with
  | nil => exact List.nil_prefix
  | cons d word ih =>
    rw [List.mem_cons, not_or] at hword
    obtain ⟨rest, hrest⟩ := h
    have hhead := head?_closed t
    rw [← hrest, List.cons_append, List.head?_cons, Option.some.injEq] at hhead
    cases t with
    | nil => exact absurd hhead.symm hword.1
    | cons c t =>
      obtain rfl : d = c := hhead
      rw [closed_cons (Ne.symm hword.1), List.cons_append] at hrest
      obtain ⟨more, hmore⟩ := ih hword.2 ⟨rest, (List.cons.inj hrest).2⟩
      exact ⟨more, by rw [List.cons_append, hmore]⟩

/-- The raw tokens of a line break, and of the blanks and the first star of the next line. -/
theorem tokenizeFrom_margin (s : Text) :
    tokenizeFrom 0 offset ('\n' :: ' ' :: '*' :: s) =
      ⟨.newline, ['\n'], offset⟩ :: ⟨.whitespace, [' '], offset + 1⟩ ::
        ⟨.star, ['*'], offset + 2⟩ :: tokenizeFrom 0 (offset + 3) s := by
  have hspace : Unless '\r' (' ' :: '*' :: s) := fun d hd => by
    obtain rfl : ' ' = d := by simpa using hd
    decide
  rw [Token.tokenizeFrom_sign kindOf_feed (by simp) (by decide) fun _ => hspace, tokenizeFrom_space,
    tokenizeFrom_punctuation .star rfl]

/-! ## One step inside a comment -/

theorem closedItems_nil : closedItems offset [] =
    [.token (outroAt (offset + 2)), .token ⟨.endOfText, [], offset + 4⟩] := by
  have hraws : tokenizeFrom 0 offset (closed []) =
      [⟨.newline, ['\n'], offset⟩, ⟨.whitespace, [' '], offset + 1⟩, ⟨.star, ['*'], offset + 2⟩,
        ⟨.slash, ['/'], offset + 3⟩, ⟨.endOfText, [], offset + 4⟩] := by
    show tokenizeFrom 0 offset ('\n' :: ' ' :: '*' :: ['/']) = _
    rw [tokenizeFrom_margin, tokenizeFrom_punctuation .slash rfl]
    rfl
  rw [closedItems, hraws]
  rfl

theorem closedItems_feed :
    closedItems offset ('\n' :: t) =
      .token (lineFeed (offset + 2)) :: closedItems (offset + 4) t := by
  have hstep : ∀ rest : List Token, step ⟨.newline, ['\n'], offset⟩
      (⟨.whitespace, [' '], offset + 1⟩ :: ⟨.star, ['*'], offset + 2⟩ ::
        ⟨.whitespace, [' '], offset + 3⟩ :: rest) = ⟨.token (lineFeed (offset + 2)), 3⟩ :=
          fun _ => rfl
  rw [closedItems, closed_feed, tokenizeFrom_margin, tokenizeFrom_space, itemsFrom_cons, hstep]
  rfl

/-- The opening delimiter, where a line break is behind it. -/
theorem items_closed (hnext : t.headD '\n' = '\n') :
    items ('/' :: '*' :: '*' :: closed t) = .token (introAt 0) :: closedItems 3 t :=
  items_intro (forall_head_closed (by rw [hnext]; decide))

theorem closedItems_tag (name : TagName) (ht : '\r' ∉ t)
    (hnext : kindOf (t.headD '\n') = .whitespace ∨ kindOf (t.headD '\n') = .newline) :
    closedItems offset ('@' :: name.word ++ t) =
      .token ⟨.tag name, '@' :: name.word, offset⟩ ::
        closedItems (offset + 1 + name.word.length) t := by
  have hfeed : ∀ c ∈ name.word, c ≠ '\n' := by
    have hnone : name.word.all (· ≠ '\n') = true := by cases name <;> decide
    exact fun c hc => of_decide_eq_true (List.all_eq_true.mp hnone c hc)
  rw [closedItems, List.cons_append, closed_cons (by decide), closed_run hfeed]
  exact items_tag name (noReturn_closed ht) (forall_head_closed hnext)

end DocComment.Screening
