import DocComment.Proofs.Screening.StepPair
import DocComment.Proofs.Token.LineEnd

/-!
# Screening of lines with more blanks

The step that takes a line break takes the blanks behind it, so more of them make no other items.
Everything in front of the line break sees the same tokens up to there. But a faulty step may take
tokens behind the line break, and then its successors do not start alike, so `SameToFault` only
relates items up to the first fault.
-/

namespace DocComment

open Text (isBlank)

/-- The same raw token but for where it is. -/
structure Token.RawAlike (t u : Token) : Prop extends Alike t u where
  known : t.kind = .newline → t.text ∈ lineBreaks

theorem Token.RawAlike.twin {t u : Token} (h : t.RawAlike u) : t.Twin u :=
  ⟨h.kind, fun _ => h.text, fun hkind => ⟨h.known hkind, h.text ▸ h.known hkind⟩⟩

/-- Where a text begins does not matter to its raw tokens. -/
theorem Token.tokenizeFrom_rawAlike (skip offset offset' : Nat) (s : Text) :
    List.Forall₂ RawAlike (tokenizeFrom skip offset s) (tokenizeFrom skip offset' s) := by
  induction s generalizing skip offset offset' with
  | nil => exact .cons ⟨⟨rfl, rfl⟩, nofun⟩ .nil
  | cons c rest ih =>
    cases skip with
    | succ skip => exact ih skip _ _
    | zero =>
      have hraw := isRaw_first offset c rest
      have hkind : (first offset c rest).kind = (first offset' c rest).kind := by
        rw [first_offset offset, first_offset offset']
      have htext : (first offset c rest).text = (first offset' c rest).text := by
        rw [first_offset offset, first_offset offset']
      rw [tokenizeFrom, tokenizeFrom, ← htext]
      exact .cons ⟨⟨hkind, htext⟩, hraw.text_of_newline⟩ (ih _ _ _)

namespace Screening

/-- The same items but for where they are, up to the first fault. -/
inductive SameToFault (T : Token → Token → Prop) : List Item → List Item → Prop
  | nil : SameToFault T [] []
  | fault {cause cause' : Cause} {rest rest' : List Item} (h : cause.Pair T cause') :
      SameToFault T (.fault cause :: rest) (.fault cause' :: rest')
  | token {t u : Token} {rest rest' : List Item} (h : t.Alike u) (tail : SameToFault T rest rest') :
      SameToFault T (.token t :: rest) (.token u :: rest')

section Items

variable {T : Token → Token → Prop} {all all' : List Item} {line blanks rest rest' : List Token}
  {newline : Token} {skip : Nat}

theorem SameToFault.of_forall₂ (h : List.Forall₂ (Item.Pair T) all all') :
    SameToFault T all all' := by
  induction h with
  | nil => exact .nil
  | cons first _ ih =>
    cases first with
    | token h => exact .token h ih
    | fault h => exact .fault h

/-- Without a fault all items are the same but for where they are. -/
theorem SameToFault.forall₂ (h : SameToFault T all all')
    (hok : ∃ tokens : List Token, all = tokens.map .token) :
    List.Forall₂ (Item.Pair T) all all' := by
  induction h with
  | nil => exact .nil
  | fault =>
    obtain ⟨_ | ⟨t, tokens⟩, htokens⟩ := hok
    · cases htokens
    · cases htokens
  | token h _ ih =>
    obtain ⟨_ | ⟨t, tokens⟩, htokens⟩ := hok
    · cases htokens
    · exact .cons (.token h) (ih ⟨tokens, (List.cons.inj htokens).2⟩)

theorem lineLength_le (hnewline : newline.kind = .newline) (line rest : List Token) :
    lineLength (line ++ newline :: rest) ≤ line.length := by
  induction line with
  | nil => simp [lineLength, hnewline]
  | cons t line ih =>
    by_cases ht : t.kind = .newline
    · simp [lineLength, ht]
    · rw [List.cons_append, lineLength_cons ht, List.length_cons]
      omega

theorem SameLine.of_line (hline : ∀ t ∈ line, T t t) (hnewline : newline.kind = .newline)
    (hsame : T newline newline) (ts us : List Token) :
    SameLine T (line ++ newline :: ts) (line ++ newline :: us) := by
  induction line with
  | nil => exact .cons hsame fun h => absurd hnewline h
  | cons t line ih =>
    rw [List.forall_mem_cons] at hline
    exact .cons hline.1 fun _ => ih hline.2

/-- A line break takes all blanks behind it. -/
theorem lineStart_blanks (hblanks : ∀ t ∈ blanks, t.kind = .whitespace) (newline : Token)
    (rest : List Token) :
    lineStart newline (blanks ++ rest) =
      ⟨(lineStart newline rest).item, blanks.length + (lineStart newline rest).taken⟩ := by
  have hrun : runLength .whitespace (blanks ++ rest) =
      blanks.length + runLength .whitespace rest := by
    rw [runLength, List.takeWhile_append_of_pos (by simpa using hblanks),
      List.length_append, runLength]
  have hdrop : (blanks ++ rest).drop (blanks.length + runLength .whitespace rest) =
      rest.drop (runLength .whitespace rest) := by
    rw [← List.drop_drop, List.drop_left]
  simp only [lineStart, hrun, hdrop]
  generalize rest.drop (runLength .whitespace rest) = left
  cases left with
  | nil => rfl
  | cons next after =>
    dsimp only
    split <;> simp only [Nat.add_assoc]

/-- More blanks behind a line break do not change the items, up to the first fault. -/
theorem itemsFrom_blanks (hT : ∀ {t u}, T t u → t.Twin u) (hline : ∀ t ∈ line, T t t)
    (hnewline : newline.kind = .newline) (hsame : T newline newline)
    (hblanks : ∀ t ∈ blanks, t.kind = .whitespace) (hrest : List.Forall₂ T rest rest')
    (hskip : skip ≤ line.length) :
    SameToFault T (itemsFrom skip (line ++ newline :: rest))
      (itemsFrom skip (line ++ newline :: (blanks ++ rest'))) := by
  induction line generalizing skip with
  | nil =>
    obtain rfl : skip = 0 := Nat.le_zero.mp hskip
    have hpair := lineStart_pair hT newline newline (.of_forall₂ hrest)
    have hstep : ∀ rest, step newline rest = lineStart newline rest :=
      fun rest => by simp only [step, hnewline]
    rw [List.nil_append, List.nil_append, itemsFrom_cons, itemsFrom_cons, hstep, hstep,
      lineStart_blanks hblanks,
      ← hpair.taken, ← List.drop_drop, List.drop_left, ← itemsFrom_skip, ← itemsFrom_skip]
    exact .of_forall₂ (.cons hpair.item (itemsFrom_pair hT hrest _))
  | cons t line ih =>
    rw [List.forall_mem_cons] at hline
    cases skip with
    | succ skip => exact ih hline.2 (Nat.le_of_succ_le_succ hskip)
    | zero =>
      have hpair := step_pair hT hline.1 (.of_line hline.2 hnewline hsame rest (blanks ++ rest'))
      -- a step that gives a token stops in front of the line break, so both screenings go on at the
      -- same token
      have hwithin :=
        fun u hu => Nat.le_trans (hpair.within u hu) (lineLength_le hnewline line rest)
      rw [List.cons_append, List.cons_append, itemsFrom, itemsFrom, ← hpair.taken]
      have hitem := hpair.item
      generalize (step t (line ++ newline :: rest)).item = item at hitem hwithin ⊢
      generalize (step t (line ++ newline :: (blanks ++ rest'))).item = item' at hitem ⊢
      cases hitem with
      | token h => exact .token h (ih hline.2 (hwithin _ rfl))
      | fault h => exact .fault h

/-- Two screenings that are the same up to the first fault give the same tokens or fail for the
same. -/
theorem SameToFault.mapM_token? (h : SameToFault T all all') (comment comment' : Text) :
    (∃ tokens tokens', all.mapM (Item.token? comment) = .ok tokens ∧
      all'.mapM (Item.token? comment') = .ok tokens' ∧ List.Forall₂ Token.Alike tokens tokens') ∨
    ∃ cause cause', all.mapM (Item.token? comment) = .error ⟨cause, comment⟩ ∧
      all'.mapM (Item.token? comment') = .error ⟨cause', comment'⟩ ∧ cause.Pair T cause' := by
  induction h with
  | nil => exact .inl ⟨[], [], rfl, rfl, .nil⟩
  | @fault cause cause' rest rest' h =>
    refine .inr ⟨cause, cause', ?_, ?_, h⟩
    · rw [List.mapM_cons]
      rfl
    · rw [List.mapM_cons]
      rfl
  | @token t u rest rest' h _ ih =>
    rw [List.mapM_cons, List.mapM_cons]
    rcases ih with ⟨tokens, tokens', htokens, htokens', hsame⟩ | ⟨cause, cause', hcause,
      hcause', hpair⟩
    · rw [htokens, htokens']
      exact .inl ⟨t :: tokens, u :: tokens', rfl, rfl, .cons h hsame⟩
    · rw [hcause, hcause']
      exact .inr ⟨cause, cause', rfl, rfl, hpair⟩

end Items

/-- More blanks at the beginning of a line do not change the items, up to the first fault. -/
theorem items_indent {u v w : Text} (hline : Token.LineEnd u v)
    (hw : ∀ c ∈ w, isBlank c = true ∧ c ≠ '\r' ∧ c ≠ '\n') :
    SameToFault Token.RawAlike (items (u ++ v)) (items (u ++ w ++ v)) := by
  have hreturn : (w ++ v).head? = some '\r' → v.head? = some '\r' := by
    cases w with
    | nil => exact id
    | cons c w => exact fun h => absurd (Option.some.inj h) (hw c List.mem_cons_self).2.1
  obtain ⟨line, newline, hnewline, htokens, htokens'⟩ := hline.exists_tokens hreturn 0
  obtain ⟨blanks, hblanks, hindent⟩ := Token.exists_blanks hw (0 + u.length) v
  have hself := List.forall₂_same.mp (Token.tokenizeFrom_rawAlike 0 0 0 (u ++ v))
  rw [htokens, List.forall_mem_append, List.forall_mem_cons] at hself
  rw [items, items, Token.tokenize, Token.tokenize, List.append_assoc, htokens, htokens', hindent]
  exact itemsFrom_blanks Token.RawAlike.twin hself.1 hnewline hself.2.1 hblanks
    (Token.tokenizeFrom_rawAlike 0 _ _ v) (Nat.zero_le _)

end Screening

/-- Two texts are screened to the same tokens but for where they are, or they are refused for the
same. -/
def SameScreening (text text' : Text) : Prop :=
  (∃ tokens tokens', screen text = .ok tokens ∧ screen text' = .ok tokens' ∧
    List.Forall₂ Token.Alike tokens tokens') ∨
  ∃ e e' : SyntaxError, screen text = .error e ∧ screen text' = .error e' ∧
    e.cause.Pair Token.Alike e'.cause

theorem sameScreening {T : Token → Token → Prop} (hT : ∀ t u, T t u → t.Alike u) {text text' : Text}
    (h : Screening.SameToFault T (Screening.items text) (Screening.items text')) :
    SameScreening text text' := by
  refine (h.mapM_token? text text').imp_right fun hfailed => ?_
  obtain ⟨cause, cause', hcause, hcause', hpair⟩ := hfailed
  exact ⟨_, _, hcause, hcause', hpair.imp hT⟩

end DocComment
