import DocComment.Proofs.Token.Runs
import DocComment.Screening

/-!
# Runs of raw tokens, and the items of a text

Every routine of screening looks at runs: blanks, strings or stars. `runLength_split` names the run
and what follows it. The items of a list are those of one step and of the tokens the step left, and
a text is screened without an error exactly where all its items are tokens.
-/

namespace DocComment

/-- The sign that a kind of punctuation is written with. -/
def Kind.sign? : Kind → Option Char
  | .star => some '*' | .slash => some '/' | .atSign => some '@' | .dollar => some '$'
  | .leftBrace => some '{' | .rightBrace => some '}' | .leftAngle => some '<'
  | .rightAngle => some '>' | .leftParen => some '(' | .rightParen => some ')'
  | .leftBracket => some '[' | .rightBracket => some ']' | .dot => some '.' | .minus => some '-'
  | .pipe => some '|' | .backslash => some '\\' | .colon => some ':' | .ampersand => some '&'
  | .comma => some ','
  | _ => none

theorem Kind.sign?_of_ofPunctuation? {c : Char} {k : Kind} (h : ofPunctuation? c = some k) :
    k.sign? = some c := by
  unfold ofPunctuation? at h
  split at h <;> first | (obtain rfl := Option.some.inj h; rfl) | simp at h

namespace Token

/-- A character that is neither a letter nor blank is a sign or a string. -/
theorem sign?_getD (c : Char) :
    (Kind.ofPunctuation? c).getD .string = .string ∨
    ((Kind.ofPunctuation? c).getD .string).sign? = some c := by
  cases hc : Kind.ofPunctuation? c with
  | none => exact .inl rfl
  | some k => exact .inr (Kind.sign?_of_ofPunctuation? hc)

theorem IsRaw.kind_cases {t : Token} (h : IsRaw t) :
    t.kind ∈ [.string, .newline, .whitespace] ∨ ∃ c, t.text = [c] ∧ t.kind.sign? = some c := by
  cases h with
  | letters | lineBreak | blank => simp
  | other c =>
    rcases sign?_getD c with hc | hc
    · simp [hc]
    · exact .inr ⟨c, rfl, hc⟩

theorem kindOf_cases (c : Char) :
    kindOf c ∈ [.string, .newline, .whitespace] ∨ (kindOf c).sign? = some c := by
  unfold kindOf
  split
  · simp
  · split
    · simp
    · split
      · simp
      · rcases sign?_getD c with hc | hc
        · simp [hc]
        · exact .inr hc

theorem sign?_of_mem {k : Kind} (h : k ∈ [.string, .newline, .whitespace]) : k.sign? = none := by
  simp only [List.mem_cons, List.not_mem_nil, or_false] at h
  rcases h with rfl | rfl | rfl <;> rfl

/-- A raw token of a punctuation kind is its sign. -/
theorem IsRaw.text_of_sign {t : Token} (h : IsRaw t) {c : Char} (hc : t.kind.sign? = some c) :
    t.text = [c] := by
  rcases h.kind_cases with hmem | ⟨d, htext, hd⟩
  · cases hc.symm.trans (sign?_of_mem hmem)
  · rw [htext, Option.some.inj (hc.symm.trans hd)]

/-- The character that begins a raw token of a punctuation kind is its sign. -/
theorem eq_of_kindOf {c d : Char} {k : Kind} (hkind : kindOf c = k) (hd : k.sign? = some d) :
    c = d := by
  subst hkind
  rcases kindOf_cases c with hmem | hc
  · cases hd.symm.trans (sign?_of_mem hmem)
  · exact Option.some.inj (hc.symm.trans hd)

theorem kindOf_of_sign {c : Char} {k : Kind} (h : k.sign? = some c) : kindOf c = k := by
  unfold Kind.sign? at h
  split at h <;>
    first
    | (obtain rfl := Option.some.inj h; exact kindOf_of_ascii (by decide) (by decide))
    | cases h

theorem kindOf_not_mem_of_sign {c : Char} {k : Kind} {kinds : List Kind} (h : k.sign? = some c)
    (hk : k ∉ kinds) :
    kindOf c ∉ kinds := by
  rwa [kindOf_of_sign h]

theorem IsRaw.text_of_blank {t : Token} (h : IsRaw t) (hk : t.kind = .whitespace) :
    ∃ c, t.text = [c] ∧ Text.isBlank c = true ∧ c ≠ '\n' := by
  cases h with
  | letters | lineBreak => simp at hk
  | blank c _ blank feed => exact ⟨c, rfl, blank, feed⟩
  | other c =>
    have hkind : (Kind.ofPunctuation? c).getD .string = _ := hk
    rcases sign?_getD c with hc | hc <;> simp [hkind, Kind.sign?] at hc

theorem IsRaw.text_of_newline {t : Token} (h : IsRaw t) (hk : t.kind = .newline) :
    t.text ∈ lineBreaks := by
  cases h with
  | letters | blank => simp at hk
  | lineBreak text _ known => exact known
  | other c =>
    have hkind : (Kind.ofPunctuation? c).getD .string = _ := hk
    rcases sign?_getD c with hc | hc <;> simp [hkind, Kind.sign?] at hc

namespace Partition

variable {offset : Nat} {s : Text} {first t : Token} {tokens rest : List Token} {c : Char}

theorem text_of_sign (h : Partition offset s tokens) (ht : t ∈ tokens)
    (hc : t.kind.sign? = some c) : t.text = [c] := by
  refine (h.isRaw_of_mem ht fun hend => ?_).text_of_sign hc
  rw [hend] at hc
  cases hc

theorem text_of_minus (h : Partition offset s (first :: rest)) :
    ∀ u ∈ rest, u.kind = .minus → u.text = ['-'] :=
  fun _ hu hkind => h.text_of_sign (List.mem_cons_of_mem first hu) (by rw [hkind]; rfl)

theorem text_of_newline (h : Partition offset s tokens) (ht : t ∈ tokens) (hk : t.kind = .newline) :
    t.text ∈ lineBreaks :=
  (h.isRaw_of_mem ht (by simp [hk])).text_of_newline hk

end Partition

/-- A run of raw tokens of a punctuation kind repeats its sign. -/
theorem concat_run {k : Kind} {c : Char} (hc : k.sign? = some c) {run : List Token}
    (hraw : ∀ t ∈ run, IsRaw t) (hkind : ∀ t ∈ run, t.kind = k) :
    concat run = List.replicate run.length c := by
  induction run with
  | nil => rfl
  | cons t run ih =>
    have ht : t.text = [c] := (hraw t (by simp)).text_of_sign (by rw [hkind t (by simp), hc])
    have hrun := ih (fun u hu => hraw u (by simp [hu])) fun u hu => hkind u (by simp [hu])
    rw [concat_cons, ht, hrun, List.length_cons, List.replicate_succ, List.singleton_append]

end Token

namespace Screening

open Token (IsRaw Partition concat)

theorem runLength_split (kind : Kind) (tokens : List Token) :
    ∃ run tail, tokens = run ++ tail ∧ runLength kind tokens = run.length ∧
      (∀ t ∈ run, t.kind = kind) ∧ ∀ t ∈ tail.head?, t.kind ≠ kind := by
  obtain ⟨run, tail, heq, htake, hrun, htail⟩ := split_run (·.kind = kind) tokens
  exact ⟨run, tail, heq, congrArg List.length htake, by simpa using hrun, by simpa using htail⟩

/-- The run at the head of a list is known from where it ends. -/
theorem runLength_append {kind : Kind} {run tail : List Token} (hrun : ∀ t ∈ run, t.kind = kind)
    (htail : ∀ t ∈ tail.head?, t.kind ≠ kind) : runLength kind (run ++ tail) = run.length := by
  have hall : ∀ t ∈ run, decide (t.kind = kind) = true := by simpa using hrun
  rw [runLength, List.takeWhile_append_of_pos hall]
  cases tail with
  | nil => simp
  | cons t tail =>
    have ht : t.kind ≠ kind := htail t rfl
    simp [ht]

/-- The blanks behind a line break, and the raw token behind them. -/
theorem exists_lineStart {offset : Nat} {s : Text} {newline : Token} {rest : List Token}
    (h : Partition offset s (newline :: rest)) (hk : newline.kind = .newline) :
    ∃ blanks next after behind, rest = blanks ++ next :: after ∧
      (∀ u ∈ blanks, u.kind = .whitespace) ∧ next.kind ≠ .whitespace ∧
      (∀ u ∈ newline :: blanks, IsRaw u) ∧ s = concat (newline :: blanks) ++ behind ∧
      Partition (offset + (concat (newline :: blanks)).length) behind (next :: after) := by
  obtain ⟨blanks, tail, rfl, -, hblanks, hhead⟩ := runLength_split .whitespace rest
  have hkinds : ∀ u ∈ newline :: blanks, u.kind ≠ .endOfText := by
    simp only [List.forall_mem_cons, hk]
    exact ⟨by simp, fun u hu => by simp [hblanks u hu]⟩
  have hall : Partition offset s ((newline :: blanks) ++ tail) := h
  obtain ⟨hraw, behind, rfl, htail⟩ := hall.of_append hkinds
  cases tail with
  | nil => exact absurd rfl htail.ne_nil
  | cons next after =>
    exact ⟨blanks, next, after, behind, rfl, hblanks, hhead next rfl, hraw, rfl, htail⟩

theorem itemsFrom_cons (first : Token) (rest : List Token) :
    itemsFrom 0 (first :: rest) =
      (step first rest).item :: itemsFrom 0 (rest.drop (step first rest).taken) := by
  rw [itemsFrom, itemsFrom_skip]

/-- Screening goes on with the raw tokens that a step has left. -/
@[elab_as_elim]
theorem step_induction {motive : List Token → Prop} (nil : motive [])
    (cons : ∀ first rest, motive (rest.drop (step first rest).taken) → motive (first :: rest))
    (raws : List Token) : motive raws := by
  induction raws using suffix_induction with
  | nil => exact nil
  | cons first rest ih =>
    have hsplit : first :: rest = (first :: rest.take (step first rest).taken) ++ rest.drop
        (step first rest).taken := by
      rw [List.cons_append, List.take_append_drop]
    exact cons first rest (ih _ _ hsplit (List.cons_ne_nil _ _))

theorem mapM_token?_eq_ok_iff {comment : Text} {all : List Item} {tokens : List Token} :
    all.mapM (Item.token? comment) = .ok tokens ↔ all = tokens.map .token := by
  induction all generalizing tokens with
  | nil => cases tokens <;> simp [pure, Except.pure]
  | cons item all ih =>
    rw [List.mapM_cons]
    cases item with
    | fault cause => cases tokens <;> simp [Item.token?, bind, Except.bind]
    | token t =>
      cases hall : all.mapM (Item.token? comment) with
      | error e =>
        have hne : all ≠ (tokens.drop 1).map .token := by rw [Ne, ← ih, hall]; simp
        cases tokens <;> simp_all [Item.token?, bind, Except.bind]
      | ok others =>
        obtain rfl := ih.mp hall
        cases tokens with
        | nil => simp [Item.token?, bind, Except.bind, pure, Except.pure]
        | cons u tokens =>
          have hinj : others.map Item.token = tokens.map .token ↔ others = tokens :=
            List.map_inj_right fun _ _ h => Item.token.inj h
          simp [Item.token?, bind, Except.bind, pure, Except.pure, hinj]

theorem mapM_token?_error {comment : Text} {all : List Item} {e : SyntaxError}
    (h : all.mapM (Item.token? comment) = .error e) :
    ∃ cause, e = ⟨cause, comment⟩ ∧ Item.fault cause ∈ all := by
  induction all with
  | nil => cases h
  | cons item all ih =>
    rw [List.mapM_cons] at h
    cases item with
    | fault cause =>
      obtain rfl := Except.error.inj h
      exact ⟨cause, rfl, List.mem_cons_self ..⟩
    | token t =>
      cases hall : all.mapM (Item.token? comment) with
      | error other =>
        rw [hall] at h
        obtain rfl := Except.error.inj h
        obtain ⟨cause, hcause, hmem⟩ := ih hall
        exact ⟨cause, hcause, List.mem_cons_of_mem _ hmem⟩
      | ok others =>
        rw [hall] at h
        cases h

end Screening

/-- A text is screened to the tokens that its items are. -/
theorem screen_eq_ok_iff {source : Text} {tokens : List Token} :
    screen source = .ok tokens ↔ Screening.items source = tokens.map .token :=
  Screening.mapM_token?_eq_ok_iff

end DocComment
