import DocComment.Proofs.Comment.Scan
import DocComment.Proofs.Screening.Closing

/-!
# The delimiters of comments that are found

A comment that is found in a text ends with the first star and slash behind its beginning. Screening
finds the closing delimiter there, and no other, unless an opening delimiter takes its star: behind
a slash and two stars all stars are taken, those of `/****/` as well. `screen_found_iff` says that
no other comment is screened without its closing delimiter.
-/

namespace DocComment

/-- A text ends in a star and a slash, which stand side by side nowhere else in it. -/
structure EndsOnce (s : Text) : Prop where
  ends : ∃ front, s = front ++ ['*', '/']
  once : ∀ front after, s = front ++ '*' :: '/' :: after → after = []

/-- A text ends in a slash and two or more stars, which begin a comment, and one more slash. -/
def OpensAtEnd (s : Text) : Prop :=
  ∃ front stars, s = front ++ ("/**".toList ++ List.replicate stars '*') ++ ['/']

/-- The tokens of a comment with both of its delimiters: it is opened by its first token, and its
only closing delimiter stands in front of the mark of the end. -/
structure Delimited (tokens : List Token) : Prop where
  opens : ∃ first ∈ tokens.head?, first.kind = .intro
  closes : ∃ front closing last, tokens = front ++ [closing, last] ∧ closing.kind = .outro ∧
    last.kind = .endOfText
  once : tokens.countP (·.kind = .outro) = 1

/-! ## What is found -/

namespace Comment

theorem IsBlock.endsOnce {t : Text} (h : IsBlock t) : EndsOnce t where
  ends := by
    obtain ⟨front, hfront⟩ := h.closes
    exact ⟨front, hfront.symm⟩
  once front after heq := by
    -- no star and slash stand in the opening delimiter or across its end
    have hthree : 3 ≤ front.length := by
      obtain ⟨rest, rfl⟩ := h.opens.opening
      match front, heq with
      | [], heq => cases (List.cons.inj heq).1
      | [_], heq => cases (List.cons.inj (List.cons.inj (List.cons.inj heq).2).2).1
      | [_, _], heq =>
        obtain rfl : rest = '/' :: after :=
          (List.cons.inj (List.cons.inj (List.cons.inj heq).2).2).2
        exact absurd ⟨after, rfl⟩ h.opens.noSlash
      | _ :: _ :: _ :: _, _ => simp
    have hat : ClosesAt t front.length := ⟨after, by rw [heq]; simp⟩
    have hend := congrArg List.length heq
    rw [← h.once _ hthree hat, List.length_append, List.length_cons, List.length_cons] at hend
    exact List.eq_nil_of_length_eq_zero (by omega)

/-- A comment that is found begins with a slash and two stars and ends where it is first closed. -/
theorem text_of_mem_find {k : Comment} {source : Text} (h : k ∈ find source) :
    (∃ body, k.text = '/' :: '*' :: '*' :: body) ∧ EndsOnce k.text := by
  have hblock := isBlock_of_mem_find h
  obtain ⟨body, hbody⟩ := hblock.opens.opening
  exact ⟨⟨body, hbody.symm⟩, hblock.endsOnce⟩

end Comment

/-! ## Raw tokens at signs -/

namespace Token

variable {offset : Nat} {s after : Text} {c : Char} {kind : Kind} {t : Token}
  {front back raws : List Token}

/-- A raw token that holds a sign is the sign. -/
theorem IsRaw.of_sign_mem (h : IsRaw t) (hmem : c ∈ t.text) (hc : kind.sign? = some c) :
    t.kind = kind ∧ t.text = [c] := by
  have hkind := Screening.kind_of_sign_mem h hmem hc
  exact ⟨hkind, h.text_of_sign (by rw [hkind, hc])⟩

/-- A text ends in a sign exactly where its last raw token is of the kind of the sign. -/
theorem getLast?_concat_iff (hraws : ∀ u ∈ raws, IsRaw u) (hc : kind.sign? = some c) :
    (concat raws).getLast? = some c ↔ ∃ u ∈ raws.getLast?, u.kind = kind := by
  rcases List.eq_nil_or_concat raws with rfl | ⟨front, u, rfl⟩
  · simp
  · have hraw : IsRaw u := hraws u (by simp)
    rw [List.concat_eq_append, List.getLast?_concat, concat_append, concat_cons, concat_nil,
      List.append_nil, List.getLast?_append, List.getLast?_eq_some_getLast hraw.text_ne_nil,
        Option.some_or]
    constructor
    · intro hlast
      have hmem : c ∈ u.text := Option.some.inj hlast ▸ List.getLast_mem hraw.text_ne_nil
      exact ⟨u, rfl, (hraw.of_sign_mem hmem hc).1⟩
    · rintro ⟨v, hv, hkind⟩
      obtain rfl := Option.some.inj hv
      have htext := hraw.text_of_sign (c := c) (by rw [hkind, hc])
      simp [htext]

namespace Partition

/-- A sign at the head of a text is a raw token of its own. -/
theorem head_sign (h : Partition offset (c :: after) raws) (hc : kind.sign? = some c) :
    ∃ t back, raws = t :: back ∧ t.text = [c] ∧ t.kind = kind ∧ t.offset = offset ∧
      Partition (offset + 1) after back := by
  cases raws with
  | nil => exact absurd rfl h.ne_nil
  | cons t back =>
    rcases h.head_cases with ⟨-, hnil, -⟩ | ⟨hraw, rest, htext, hback⟩
    · cases hnil
    · obtain ⟨d, more, hmore⟩ := List.exists_cons_of_ne_nil hraw.text_ne_nil
      rw [hmore] at htext
      obtain ⟨rfl, -⟩ := List.cons.inj htext
      obtain ⟨hkind, hsign⟩ := hraw.of_sign_mem (by simp [hmore]) hc
      obtain rfl : more = [] := by simpa using hmore.symm.trans hsign
      obtain rfl : after = rest := (List.cons.inj htext).2
      rw [hsign] at hback
      exact ⟨t, back, rfl, hsign, hkind, h.head_offset, hback⟩

/-- Raw tokens end where a sign begins. -/
theorem split_sign (h : Partition offset (s ++ c :: after) raws) (hc : kind.sign? = some c) :
    ∃ front back, raws = front ++ back ∧ (∀ u ∈ front, IsRaw u) ∧ concat front = s ∧
      ∃ start, Partition start (c :: after) back := by
  induction raws generalizing offset s with
  | nil => exact absurd rfl h.ne_nil
  | cons u raws ih =>
    cases s with
    | nil => exact ⟨[], u :: raws, rfl, by simp, rfl, offset, h⟩
    | cons d s =>
      rcases h.head_cases with ⟨-, hnil, -⟩ | ⟨hraw, rest, htext, htail⟩
      · cases hnil
      rcases List.append_eq_append_iff.mp htext with ⟨more, hmore, hafter⟩ | ⟨more, hmore, rfl⟩
      · cases more with
        | nil =>
          have hrest : rest = [] ++ c :: after := hafter.symm
          rw [hrest] at htail
          obtain ⟨front, back, rfl, hfront, hconcat, hback⟩ := ih htail
          refine ⟨u :: front, back, rfl, List.forall_mem_cons.mpr ⟨hraw, hfront⟩, ?_, hback⟩
          rw [concat_cons, hconcat, hmore, List.append_nil, List.append_nil]
        | cons e more =>
          -- A raw token that held the sign and what is in front of it would be the sign alone.
          obtain ⟨rfl, -⟩ := List.cons.inj hafter
          obtain ⟨-, hsign⟩ := hraw.of_sign_mem (c := c) (by simp [hmore]) hc
          have hlength := congrArg List.length (hmore.symm.trans hsign)
          simp at hlength
      · obtain ⟨front, back, rfl, hfront, hconcat, hback⟩ := ih htail
        refine ⟨u :: front, back, rfl, List.forall_mem_cons.mpr ⟨hraw, hfront⟩, ?_, hback⟩
        rw [concat_cons, hconcat, hmore]

/-- A star and a slash that follow each other as raw tokens do so in the text. -/
theorem star_slash {first second : Token}
    (h : Partition offset s (front ++ first :: second :: back)) (hfirst : first.kind = .star)
    (hsecond : second.kind = .slash) :
    ∃ rest, s = concat front ++ '*' :: '/' :: rest ∧ ∃ start, Partition start rest back := by
  obtain ⟨-, behind, rfl, hbehind⟩ := h.of_init
  obtain ⟨hstar, beyond, rfl, hbeyond⟩ := hbehind.of_head (by simp [hfirst])
  obtain ⟨hslash, rest, rfl, hrest⟩ := hbeyond.of_head (by simp [hsecond])
  have hstarText := hstar.text_of_sign (c := '*') (by rw [hfirst]; rfl)
  have hslashText := hslash.text_of_sign (c := '/') (by rw [hsecond]; rfl)
  exact ⟨rest, by rw [hstarText, hslashText]; rfl, _, hrest⟩

/-- The raw tokens of stars and a slash at the end of a text. -/
theorem stars_slash {n : Nat} (h : Partition offset (List.replicate n '*' ++ ['/']) raws) :
    ∃ run closing mark, raws = run ++ [closing, mark] ∧ run.length = n ∧
      (∀ u ∈ run, u.kind = .star) ∧ closing.kind = .slash ∧ mark.kind = .endOfText := by
  have hstarSign : Kind.star.sign? = some '*' := rfl
  have hslashSign : Kind.slash.sign? = some '/' := rfl
  induction n generalizing offset raws with
  | zero =>
    obtain ⟨closing, back, rfl, -, hclosing, -, hback⟩ := h.head_sign hslashSign
    obtain rfl := hback.eq_last
    exact ⟨[], closing, _, rfl, rfl, by simp, hclosing, rfl⟩
  | succ n ih =>
    obtain ⟨star, back, rfl, -, hstar, -, hback⟩ := h.head_sign hstarSign
    obtain ⟨run, closing, mark, rfl, hlength, hrun, hclosing, hmark⟩ := ih hback
    refine ⟨star :: run, closing, mark, rfl, by simp [hlength], ?_, hclosing, hmark⟩
    exact List.forall_mem_cons.mpr ⟨hstar, hrun⟩

end Partition

end Token

/-! ## The raw tokens of a comment that is found -/

theorem EndsOnce.exists_run {s : Text} (h : EndsOnce s) :
    ∃ lead n, s = lead ++ (List.replicate (n + 1) '*' ++ ['/']) ∧ ∀ c ∈ lead.getLast?, c ≠ '*' := by
  obtain ⟨front, rfl⟩ := h.ends
  obtain ⟨run, left, hsplit, -, hrun, hstop⟩ := split_run (· = '*') front.reverse
  simp only [decide_eq_true_eq, decide_eq_false_iff_not] at hrun hstop
  have hstars : run = List.replicate run.length '*' := List.eq_replicate_iff.mpr ⟨rfl, hrun⟩
  refine ⟨left.reverse, run.length, ?_, by simpa using hstop⟩
  have hfront : front = left.reverse ++ List.replicate run.length '*' := by
    rw [← List.reverse_reverse front, hsplit, List.reverse_append, hstars, List.reverse_replicate,
      List.length_replicate]
  rw [hfront, List.replicate_succ', List.append_assoc, List.append_assoc]
  rfl

theorem opensAtEnd_iff {lead : Text} {n : Nat} (hlead : ∀ c ∈ lead.getLast?, c ≠ '*') :
    OpensAtEnd (lead ++ (List.replicate (n + 1) '*' ++ ['/'])) ↔
      lead.getLast? = some '/' ∧ 2 ≤ n + 1 := by
  have hrun : ∀ m, ∀ c ∈ List.replicate m '*', c = '*' := fun m c hc => List.eq_of_mem_replicate hc
  constructor
  · rintro ⟨front, stars, heq⟩
    have hsame : lead ++ List.replicate (n + 1) '*' =
        (front ++ ['/']) ++ List.replicate (stars + 2) '*' := by
      rw [← List.append_assoc] at heq
      rw [(List.append_inj' heq rfl).1]
      simp [List.replicate_succ]
    have hfree : ∀ c ∈ (front ++ ['/']).getLast?, c ≠ '*' := by simp
    obtain ⟨rfl, hlength⟩ := append_run_inj hsame hlead (hrun _) hfree (hrun _)
    have hcount := congrArg List.length hlength
    rw [List.length_replicate, List.length_replicate] at hcount
    exact ⟨by simp, by omega⟩
  · rintro ⟨hlast, htwo⟩
    obtain ⟨front, rfl⟩ := List.getLast?_eq_some_iff.mp hlast
    obtain ⟨stars, rfl⟩ := Nat.exists_eq_add_of_le' (Nat.le_of_succ_le_succ htwo)
    exact ⟨front, stars, by simp [List.replicate_succ]⟩

namespace Screening

open Token (Partition)

variable {offset : Nat} {s body : Text} {raws tokens : List Token}

/-- The raw tokens of a text that ends in a star and a slash, and the stars that stand in front of
the last slash. -/
theorem exists_ended (hp : Partition offset s raws) (h : EndsOnce s) :
    ∃ before run closing mark, Ended raws before run closing mark ∧
      (Swallows before run ↔ OpensAtEnd s) := by
  obtain ⟨lead, n, rfl, hlead⟩ := h.exists_run
  have hstarSign : Kind.star.sign? = some '*' := rfl
  have hslashSign : Kind.slash.sign? = some '/' := rfl
  have hsplit := hp
  rw [List.replicate_succ, List.cons_append] at hsplit
  obtain ⟨before, back, rfl, hraws, rfl, start, hback⟩ := hsplit.split_sign hstarSign
  rw [← List.cons_append, ← List.replicate_succ] at hback
  obtain ⟨run, closing, mark, rfl, hlength, hrun, hclosing, hmark⟩ := hback.stars_slash
  refine ⟨before, run, closing, mark, ⟨rfl, ?_, ?_, hrun, hclosing, hmark, ?_⟩, ?_⟩
  · intro u hu hkind
    exact hlead '*' ((Token.getLast?_concat_iff hraws hstarSign).mpr ⟨u, hu, hkind⟩) rfl
  · exact List.ne_nil_of_length_pos (by omega)
  · intro front first second after heq hfirst hsecond
    rw [heq] at hp
    obtain ⟨rest, htext, start, hafter⟩ := hp.star_slash hfirst hsecond
    obtain rfl := h.once _ rest htext
    rw [hafter.eq_last]
    rfl
  · rw [opensAtEnd_iff hlead, Token.getLast?_concat_iff hraws hslashSign, Swallows, hlength]

theorem head_opening (hp : Partition offset s raws) (hs : s = '/' :: '*' :: '*' :: body)
    (hitems : itemsFrom 0 raws = tokens.map .token) : tokens.head? = some (introAt offset) := by
  subst hs
  have hstarSign : Kind.star.sign? = some '*' := rfl
  have hslashSign : Kind.slash.sign? = some '/' := rfl
  obtain ⟨first, rest, rfl, -, hfirst, hoffset, hrest⟩ := hp.head_sign hslashSign
  obtain ⟨second, rest, rfl, -, hsecond, -, hrest⟩ := hrest.head_sign hstarSign
  obtain ⟨third, rest, rfl, -, hthird, -, -⟩ := hrest.head_sign hstarSign
  rw [itemsFrom_cons] at hitems
  cases tokens with
  | nil => cases hitems
  | cons t tokens =>
    have hstep : (step first (second :: third :: rest)).item = .token (introAt offset) := by
      simp [step, hfirst, slash, hsecond, hthird, hoffset]
    have ht : Item.token (introAt offset) = .token t := hstep ▸ (List.cons.inj hitems).1
    rw [Item.token.inj ht]
    rfl

theorem ClosedOnce.delimited (h : ClosedOnce tokens)
    (hhead : tokens.head? = some (introAt offset)) :
    Delimited tokens := by
  obtain ⟨front, closing, last, rfl, hclosing, hlast, hfront⟩ := h
  refine ⟨⟨_, hhead, rfl⟩, ⟨front, closing, last, rfl, hclosing, hlast⟩, ?_⟩
  have hnone : front.countP (·.kind = .outro) = 0 := by
    rw [List.countP_eq_zero]
    simpa using hfront
  simp [List.countP_append, hnone, hclosing, hlast]

end Screening

/-- Screening finds both delimiters of a comment that is found, each once and in its place, unless
the comment ends in an opening delimiter and a slash. -/
theorem screen_found_iff {source : Text} {k : Comment} {tokens : List Token}
    (hk : k ∈ Comment.find source) (h : screen k.text = .ok tokens) :
    tokens.head? = some (Screening.introAt 0) ∧ (Delimited tokens ↔ ¬OpensAtEnd k.text) := by
  have hp := Token.partition_tokenize k.text
  have hitems : Screening.itemsFrom 0 (Token.tokenize k.text) = tokens.map .token :=
    screen_eq_ok_iff.mp h
  obtain ⟨⟨body, hbody⟩, hends⟩ := Comment.text_of_mem_find hk
  obtain ⟨before, run, closing, mark, hended, hswallows⟩ := Screening.exists_ended hp hends
  have hhead := Screening.head_opening hp hbody hitems
  refine ⟨hhead, ?_⟩
  rcases Screening.outcome_itemsFrom hp hended hitems with ⟨hopens, hnone⟩ | ⟨hopens, hclosed⟩
  · constructor
    · intro hdelimited
      obtain ⟨front, outro, last, rfl, houtro, -⟩ := hdelimited.closes
      exact absurd houtro (hnone outro (by simp))
    · exact fun hnot => absurd (hswallows.mp hopens) hnot
  · constructor
    · exact fun _ hend => hopens (hswallows.mpr hend)
    · exact fun _ => hclosed.delimited hhead

theorem screen_found_word :
    let k : Comment := ⟨"/** a */".toList, 1⟩
    let tokens : List Token := [Screening.introAt 0, ⟨.whitespace, [' '], 3⟩, ⟨.string, ['a'], 4⟩,
      ⟨.whitespace, [' '], 5⟩, Screening.outroAt 6, ⟨.endOfText, [], 8⟩]
    k ∈ Comment.find ";/** a */".toList ∧ screen k.text = .ok tokens ∧
      tokens.head? = some (Screening.introAt 0) ∧ (Delimited tokens ↔ ¬OpensAtEnd k.text) := by
  intro k tokens
  have hk : k ∈ Comment.find ";/** a */".toList := by decide
  have htokens : screen k.text = .ok tokens := by
    rw [screen_eq_ok_iff]
    decide +kernel
  exact ⟨hk, htokens, screen_found_iff hk htokens⟩

/-- The stars of the shortest comment that ends in an opening delimiter: none is left to
close it. -/
theorem screen_found_stars :
    let k : Comment := ⟨"/****/".toList, 0⟩
    let tokens : List Token := [Screening.introAt 0, ⟨.string, ['/'], 5⟩, ⟨.endOfText, [], 6⟩]
    k ∈ Comment.find "/****/".toList ∧ screen k.text = .ok tokens ∧ ¬Delimited tokens := by
  intro k tokens
  have hk : k ∈ Comment.find "/****/".toList := by decide
  have htokens : screen k.text = .ok tokens := by
    rw [screen_eq_ok_iff]
    decide +kernel
  have hnone : tokens.countP (·.kind = .outro) = 0 := by decide
  exact ⟨hk, htokens, fun h => absurd (hnone.symm.trans h.once) (by decide)⟩

end DocComment
