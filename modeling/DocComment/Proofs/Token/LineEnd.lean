import DocComment.Proofs.Token.First

/-!
# Texts that end in a line break

`LineEnd u v` says that the raw tokens of `u` in front of `v` end in a line break. It only depends
on `v` through a carriage return, which a line feed at the end of `u` would take. So `v` can be
changed behind the line break, and the raw tokens of `u` stay the same.
-/

namespace DocComment.Token

open Text (isBlank)

variable {own u v v' front w : Text} {kind : Kind} {offset : Nat} {t : Token}

/-- The raw tokens of the first text, in front of the second, end in a line break. -/
inductive LineEnd : Text → Text → Prop
  | last {own v : Text} (first : IsFirst .newline own v) : LineEnd own v
  | cons {kind : Kind} {own u v : Text} (first : IsFirst kind own (u ++ v)) (rest : LineEnd u v) :
      LineEnd (own ++ u) v

/-- A raw token that is a line break ends where the first text ends. -/
theorem LineEnd.of_mem (ht : t ∈ Token.tokenizeFrom 0 offset (u ++ v)) (hkind : t.kind = .newline)
    (hend : t.offset + t.text.length = offset + u.length) : LineEnd u v := by
  have hraw : IsRaw t := (partition_tokenizeFrom offset (u ++ v)).isRaw_of_mem ht (by simp [hkind])
  have hpos : 0 < t.text.length := List.length_pos_iff.mpr hraw.text_ne_nil
  induction u using suffix_induction generalizing offset with
  | nil =>
    have hle := (partition_tokenizeFrom offset ([] ++ v)).le_offset t ht
    rw [List.length_nil] at hend
    omega
  | cons c u ih =>
    obtain ⟨kind, own, s, hsplit, hfirst⟩ := exists_isFirst c (u ++ v)
    rw [← List.cons_append] at hsplit
    rw [hsplit, hfirst.tokenizeFrom, List.mem_cons] at ht
    -- either the first raw token is the line break, or it ends in front of it
    rcases ht with rfl | ht
    · obtain ⟨rfl, rfl⟩ := List.append_inj hsplit (by dsimp only at hend; omega)
      obtain rfl : kind = .newline := hkind
      exact .last hfirst
    · have hle := (partition_tokenizeFrom _ s).le_offset t ht
      obtain ⟨more, hown, rfl⟩ | ⟨more, hown, -⟩ := List.append_eq_append_iff.mp hsplit.symm
      · have hrest := ih own more hown (hfirst.isRaw 0).text_ne_nil ht
        rw [hown] at hend ⊢
        rw [List.length_append] at hend
        exact .cons hfirst (hrest (by omega))
      · rw [hown, List.length_append] at hle
        omega

theorem LineEnd.ne_nil (h : LineEnd u v) : u ≠ [] := by
  cases h with
  | last first => exact (first.isRaw 0).text_ne_nil
  | cons first => exact fun h => (first.isRaw 0).text_ne_nil (List.append_eq_nil_iff.mp h).1

theorem LineEnd.congr (h : LineEnd u v) (hv : v'.head? = some '\r' → v.head? = some '\r') :
    LineEnd u v' := by
  induction h with
  | last first => exact .last (first.newline hv)
  | cons first rest ih => exact .cons (first.behind rest.ne_nil) (ih hv)

/-- The raw tokens of the first text stay the same if the second is changed. -/
theorem LineEnd.exists_tokens (h : LineEnd u v) (hv : v'.head? = some '\r' → v.head? = some '\r')
    (offset : Nat) :
    ∃ line newline, newline.kind = .newline ∧
      Token.tokenizeFrom 0 offset (u ++ v) =
        line ++ newline :: Token.tokenizeFrom 0 (offset + u.length) v ∧
      Token.tokenizeFrom 0 offset (u ++ v') =
        line ++ newline :: Token.tokenizeFrom 0 (offset + u.length) v' := by
  induction h generalizing offset with
  | last first =>
    exact ⟨[], _, rfl, first.tokenizeFrom offset, (first.newline hv).tokenizeFrom offset⟩
  | @cons kind own u v first rest ih =>
    obtain ⟨line, newline, hnewline, htokens, htokens'⟩ := ih hv (offset + own.length)
    refine ⟨⟨kind, own, offset⟩ :: line, newline, hnewline, ?_, ?_⟩
    · rw [List.append_assoc, first.tokenizeFrom, htokens, List.length_append, Nat.add_assoc,
        List.cons_append]
    · rw [List.append_assoc, (first.behind rest.ne_nil).tokenizeFrom, htokens', List.length_append,
        Nat.add_assoc, List.cons_append]

/-- Blanks in front of the first text can be taken away. -/
theorem LineEnd.of_blanks_append (h : LineEnd (front ++ u) v)
    (hfront : ∀ c ∈ front, isBlank c = true) (hu : ∃ c ∈ u.head?, isBlank c = false) :
    LineEnd u v := by
  obtain ⟨d, hd, hsolid⟩ := hu
  have hneither : ∀ text : Text, d ∈ text → ¬∀ c ∈ text, isBlank c = true :=
    fun _ hmem hblank => Bool.false_ne_true (hsolid.symm.trans (hblank d hmem))
  generalize hall : front ++ u = all at h
  induction h generalizing front with
  | @last own v first =>
    have hown := hneither own (hall ▸ List.mem_append_right front (List.mem_of_mem_head? hd))
    exact absurd (isBlank_of_mem_lineBreaks ((first.isRaw 0).text_of_newline rfl)) hown
  -- a raw token that begins with a blank is blank as a whole, so it ends with the blanks at the
  -- latest
  | @cons kind own rest v first hrest ih =>
    obtain ⟨more, rfl, rfl⟩ | ⟨more, rfl, rfl⟩ := List.append_eq_append_iff.mp hall
    · cases front with
      | nil => exact .cons first hrest
      | cons c front =>
        have hown :=
          (first.isRaw 0).isBlank_text (c := c) List.mem_cons_self (hfront c List.mem_cons_self)
        cases more with
        | nil => exact hrest
        | cons e more =>
          obtain rfl : e = d := Option.some.inj hd
          exact absurd hown (hneither _ (by simp))
    · exact ih (fun c hc => hfront c (List.mem_append_right own hc)) rfl

/-- Blanks other than line breaks and carriage returns are tokens of their own. -/
theorem exists_blanks (hw : ∀ c ∈ w, isBlank c = true ∧ c ≠ '\r' ∧ c ≠ '\n') (offset : Nat)
    (v : Text) :
    ∃ blanks, (∀ t ∈ blanks, t.kind = .whitespace) ∧
      tokenizeFrom 0 offset (w ++ v) = blanks ++ tokenizeFrom 0 (offset + w.length) v := by
  induction w generalizing offset with
  | nil => exact ⟨[], nofun, rfl⟩
  | cons c w ih =>
    obtain ⟨⟨hblank, hreturn, hfeed⟩, hw⟩ := List.forall_mem_cons.mp hw
    obtain ⟨blanks, hblanks, htokens⟩ := ih hw (offset + 1)
    have hletter := Text.isLetter_of_isBlank hblank
    have hkind : kindOf c = .whitespace := by
      rw [kindOf, if_neg (by simp [hletter]), if_neg hfeed, if_pos hblank]
    refine ⟨⟨.whitespace, [c], offset⟩ :: blanks, List.forall_mem_cons.mpr ⟨rfl, hblanks⟩, ?_⟩
    rw [List.cons_append, tokenizeFrom_single hletter hreturn fun h => absurd h hfeed,
      hkind, htokens, List.length_cons, Nat.add_right_comm, Nat.add_assoc, List.cons_append]

end DocComment.Token
