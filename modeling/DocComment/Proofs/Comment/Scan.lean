import DocComment.Comment
import DocComment.Proofs.Screening.Segmentation

/-!
# Comments are found from left to right

`IsScan` says what a scan of a text for comments is, and not how it goes on: the comments lie side
by side in their order, each begins as a comment does and ends with the first star and slash behind
that, and none that lies outside of them was passed over. A text has one such scan, and it is the
list of the comments that are found.
-/

namespace DocComment

/-- The word stands in the text at an index. -/
def Text.StandsAt (word s : Text) (i : Nat) : Prop := word <+: s.drop i

namespace Comment

open Screening (slice)
open Text (StandsAt)

/-- A slash and two stars stand at the index, and neither a slash nor a star and a slash stand
behind them. -/
structure OpensAt (s : Text) (i : Nat) : Prop where
  opening : StandsAt "/**".toList s i
  noSlash : ¬StandsAt ['/'] s (i + 3)
  noClosing : ¬StandsAt "*/".toList s (i + 3)

/-- A star and a slash stand at the index. -/
def ClosesAt (s : Text) (i : Nat) : Prop := StandsAt "*/".toList s i

/-- The text is a comment that is closed at its end, and nowhere in front of it. -/
structure IsBlock (t : Text) : Prop where
  opens : OpensAt t 0
  closes : "*/".toList <:+ t
  once : ∀ i, 3 ≤ i → ClosesAt t i → i + 2 = t.length

/-- The index lies in the comment. -/
def Covers (k : Comment) (i : Nat) : Prop := k.offset ≤ i ∧ i < k.offset + k.text.length

/-- A scan of a text from an index on. -/
structure IsScan (source : Text) (start : Nat) (found : List Comment) : Prop where
  behind : ∀ k ∈ found, start ≤ k.offset
  ordered : found.Pairwise fun k l => k.offset < l.offset ∧ k.offset + k.text.length ≤ l.offset
  sliced : ∀ k ∈ found, slice source k.offset (k.offset + k.text.length) = k.text
  blocks : ∀ k ∈ found, IsBlock k.text
  complete : ∀ i, start ≤ i → (∀ k ∈ found, ¬k.Covers i) → OpensAt source i →
    ∀ j, i + 3 ≤ j → ¬ClosesAt source j

variable {source s t u word : Text} {c : Char} {i j m n start : Nat} {k : Comment}
  {found : List Comment}

/-! ## Words in texts -/

theorem standsAt_drop : StandsAt word (s.drop n) i ↔ StandsAt word s (n + i) := by
  rw [StandsAt, StandsAt, List.drop_drop]

theorem opensAt_drop : OpensAt (s.drop n) i ↔ OpensAt s (n + i) := by
  have hbehind (word : Text) : StandsAt word (s.drop n) (i + 3) ↔ StandsAt word s (n + i + 3) := by
    rw [standsAt_drop, Nat.add_assoc]
  constructor
  · rintro ⟨opening, noSlash, noClosing⟩
    exact ⟨standsAt_drop.mp opening, fun h => noSlash ((hbehind _).mpr h), fun h =>
      noClosing ((hbehind _).mpr h)⟩
  · rintro ⟨opening, noSlash, noClosing⟩
    exact ⟨standsAt_drop.mpr opening, fun h => noSlash ((hbehind _).mp h), fun h =>
      noClosing ((hbehind _).mp h)⟩

/-- What stands in the beginning of a text stands in the text. -/
theorem standsAt_iff_of_take (ht : u.take t.length = t) :
    StandsAt word t i ↔ StandsAt word u i ∧ word.length ≤ t.length - i := by
  have hprefix : StandsAt word (u.take t.length) i ↔
      StandsAt word u i ∧ word.length ≤ t.length - i := by
    rw [StandsAt, StandsAt, List.drop_take, List.prefix_take_iff]
  rwa [ht] at hprefix

/-- Whether a comment begins at the beginning of a text is seen from its first five characters. -/
theorem opensAt_iff_of_take (ht : u.take t.length = t) (hlength : 5 ≤ t.length) :
    OpensAt t 0 ↔ OpensAt u 0 := by
  constructor
  · rintro ⟨opening, noSlash, noClosing⟩
    refine ⟨((standsAt_iff_of_take ht).mp opening).1, fun hat => noSlash ?_, fun hat =>
      noClosing ?_⟩
    · exact (standsAt_iff_of_take ht).mpr ⟨hat, by simp; omega⟩
    · exact (standsAt_iff_of_take ht).mpr ⟨hat, by simp; omega⟩
  · rintro ⟨opening, noSlash, noClosing⟩
    refine ⟨(standsAt_iff_of_take ht).mpr ⟨opening, by simp; omega⟩, fun hat =>
      noSlash ?_, fun hat => noClosing ?_⟩
    · exact ((standsAt_iff_of_take ht).mp hat).1
    · exact ((standsAt_iff_of_take ht).mp hat).1

theorem length_of_standsAt (h : StandsAt word s i) (hne : word ≠ []) :
    i + word.length ≤ s.length := by
  have hlength := h.length_le
  have hpos := List.length_pos_iff.mpr hne
  rw [List.length_drop] at hlength
  omega

theorem length_of_closesAt (h : ClosesAt s i) : i + 2 ≤ s.length := length_of_standsAt h (by decide)

/-! ## Where a comment ends -/

theorem closesAt_cons : ClosesAt (c :: s) (i + 1) ↔ ClosesAt s i := Iff.rfl

theorem closeLength?_eq_some (h : closeLength? s = some n) :
    ∃ j, n = j + 2 ∧ ClosesAt s j ∧ ∀ i < j, ¬ClosesAt s i := by
  fun_induction closeLength? s generalizing n with
  | case1 => cases h
  | case2 rest =>
    obtain rfl := Option.some.inj h
    exact ⟨0, rfl, ⟨rest, rfl⟩, nofun⟩
  | case3 c rest hclose ih =>
    obtain ⟨m, hm, rfl⟩ := Option.map_eq_some_iff.mp h
    obtain ⟨j, rfl, hcloses, hfirst⟩ := ih hm
    refine ⟨j + 1, rfl, hcloses, fun i hi hat => ?_⟩
    cases i with
    | zero =>
      obtain ⟨more, hmore⟩ := hat
      obtain ⟨rfl, rfl⟩ := List.cons.inj hmore
      exact hclose more rfl rfl
    | succ i => exact hfirst i (Nat.lt_of_succ_lt_succ hi) (closesAt_cons.mp hat)

theorem closeLength?_eq_none (h : closeLength? s = none) (j : Nat) : ¬ClosesAt s j := by
  fun_induction closeLength? s generalizing j with
  | case1 =>
    intro hat
    have hlength := length_of_closesAt hat
    simp at hlength
  | case2 => cases h
  | case3 c rest hclose ih =>
    rw [Option.map_eq_none_iff] at h
    intro hat
    cases j with
    | zero =>
      obtain ⟨more, hmore⟩ := hat
      obtain ⟨rfl, rfl⟩ := List.cons.inj hmore
      exact hclose more rfl rfl
    | succ j => exact ih h j (closesAt_cons.mp hat)

theorem opensAt_iff (rest : Text) :
    OpensAt ('/' :: '*' :: '*' :: rest) 0 ↔
    ¬(rest.head? = some '/' ∨ "*/".toList.isPrefixOf rest = true) := by
  have hslash : StandsAt ['/'] ('/' :: '*' :: '*' :: rest) (0 + 3) ↔ rest.head? = some '/' := by
    show ['/'] <+: rest ↔ _
    rw [List.head?_eq_some_iff]
    constructor
    · rintro ⟨more, rfl⟩
      exact ⟨more, rfl⟩
    · rintro ⟨more, rfl⟩
      exact ⟨more, rfl⟩
  rw [List.isPrefixOf_iff_prefix, ← hslash, not_or]
  constructor
  · rintro ⟨-, noSlash, noClosing⟩
    exact ⟨noSlash, noClosing⟩
  · rintro ⟨noSlash, noClosing⟩
    exact ⟨⟨rest, rfl⟩, noSlash, noClosing⟩

/-- A comment goes on to the first star and slash behind its beginning. -/
theorem length?_eq_some (h : length? s = some n) :
    OpensAt s 0 ∧ ∃ j, n = j + 2 ∧ 3 ≤ j ∧ ClosesAt s j ∧ ∀ i, 3 ≤ i → i < j → ¬ClosesAt s i := by
  unfold length? at h
  split at h
  case h_2 => cases h
  case h_1 rest =>
    split at h
    case isTrue => cases h
    case isFalse hopen =>
      obtain ⟨m, hm, rfl⟩ := Option.map_eq_some_iff.mp h
      obtain ⟨j, rfl, hcloses, hfirst⟩ := closeLength?_eq_some hm
      refine ⟨(opensAt_iff rest).mpr hopen, j + 3, by omega, by omega, hcloses,
        fun i hi hless hat => ?_⟩
      obtain ⟨i, rfl⟩ := Nat.exists_eq_add_of_le' hi
      exact hfirst i (by omega) hat

theorem length?_eq_none (h : length? s = none) (hopens : OpensAt s 0) (hj : 3 ≤ j) :
    ¬ClosesAt s j := by
  unfold length? at h
  split at h
  case h_1 rest =>
    rw [opensAt_iff] at hopens
    rw [if_neg hopens, Option.map_eq_none_iff] at h
    obtain ⟨j, rfl⟩ := Nat.exists_eq_add_of_le' hj
    exact closeLength?_eq_none h j
  case h_2 hnot =>
    obtain ⟨rest, rfl⟩ := hopens.opening
    exact (hnot rest rfl).elim

/-! ## The comment at an index -/

/-- A comment is longer than its delimiters, because they do not overlap and a star between them
belongs to none. -/
theorem IsBlock.length (h : IsBlock t) : 6 ≤ t.length := by
  obtain ⟨rest, rfl⟩ := h.opens.opening
  obtain ⟨noSlash, noClosing⟩ := not_or.mp ((opensAt_iff rest).mp h.opens)
  obtain ⟨front, hfront⟩ := h.closes
  match rest, hfront with
  | [], hfront =>
    obtain ⟨-, hlast⟩ := List.append_inj' (hfront.trans (show _ = ['/'] ++ ['*', '*'] from rfl)) rfl
    cases hlast
  | [c], hfront =>
    obtain ⟨-, hlast⟩ :=
      List.append_inj' (hfront.trans (show _ = ['/', '*'] ++ ['*', c] from rfl)) rfl
    obtain rfl : '/' = c := by simpa using hlast
    exact absurd rfl noSlash
  | [c, d], hfront =>
    obtain ⟨-, hlast⟩ :=
      List.append_inj' (hfront.trans (show _ = ['/', '*', '*'] ++ [c, d] from rfl)) rfl
    rw [← hlast] at noClosing
    exact absurd rfl noClosing
  | _ :: _ :: _ :: _, _ => simp

theorem IsBlock.closesAt (h : IsBlock t) : ClosesAt t (t.length - 2) := by
  obtain ⟨front, rfl⟩ := h.closes
  rw [ClosesAt, StandsAt, List.length_append]
  simp

/-- A comment at the beginning of a text is found there. -/
theorem IsBlock.length?_eq (h : IsBlock t) (ht : u.take t.length = t) :
    length? u = some t.length := by
  have hlength := h.length
  have hopens := (opensAt_iff_of_take ht (by omega)).mp h.opens
  have hcloses := ((standsAt_iff_of_take ht).mp h.closesAt).1
  cases hfound : length? u with
  | none => exact absurd hcloses (length?_eq_none hfound hopens (by omega))
  | some n =>
    obtain ⟨-, j, rfl, hj, hat, hfirst⟩ := length?_eq_some hfound
    have hle : j ≤ t.length - 2 :=
      Nat.le_of_not_lt fun hlt => hfirst (t.length - 2) (by omega) hlt hcloses
    rw [h.once j hj ((standsAt_iff_of_take ht).mpr ⟨hat, by simp; omega⟩)]

/-- What is found at the beginning of a text is a comment. -/
theorem isBlock_of_length? (h : length? u = some t.length) (ht : u.take t.length = t) :
    IsBlock t := by
  obtain ⟨hopens, j, hj, hthree, hat, hfirst⟩ := length?_eq_some h
  have hlast : ClosesAt t j := (standsAt_iff_of_take ht).mpr ⟨hat, by simp; omega⟩
  refine ⟨(opensAt_iff_of_take ht (by omega)).mpr hopens, ?_, fun i hi hcloses => ?_⟩
  · have hwhole : t.drop j = "*/".toList := by
      apply (List.IsPrefix.eq_of_length hlast _).symm
      rw [List.length_drop]
      simp
      omega
    exact hwhole ▸ List.drop_suffix j t
  · have hbound := length_of_closesAt hcloses
    have hle : j ≤ i :=
      Nat.le_of_not_lt fun hlt => hfirst i hi hlt ((standsAt_iff_of_take ht).mp hcloses).1
    omega

/-- The beginning of a text is a comment exactly if it is as long as the comment that is found
there. -/
theorem isBlock_iff (ht : u.take t.length = t) : IsBlock t ↔ length? u = some t.length :=
  ⟨fun h => h.length?_eq ht, fun h => isBlock_of_length? h ht⟩

/-! ## One step of a scan -/

/-- What a scan says of each of its comments, in the terms of the search. -/
theorem IsScan.length? (h : IsScan source start found) (hk : k ∈ found) :
    Comment.length? (source.drop k.offset) = some k.text.length ∧
    (source.drop k.offset).take k.text.length = k.text := by
  have hslice := h.sliced k hk
  rw [slice, Nat.add_sub_cancel_left] at hslice
  exact ⟨(isBlock_iff hslice).mp (h.blocks k hk), hslice⟩

theorem isScan_end (h : source.length ≤ start) : IsScan source start found ↔ found = [] := by
  constructor
  · intro hscan
    cases found with
    | nil => rfl
    | cons k found =>
      have hk : k ∈ k :: found := List.mem_cons_self
      obtain ⟨hlength, -⟩ := hscan.length? hk
      rw [List.drop_of_length_le (Nat.le_trans h (hscan.behind k hk))] at hlength
      cases hlength
  · rintro rfl
    refine ⟨nofun, .nil, nofun, nofun, fun i hi _ hopens => ?_⟩
    have hlength : i + 3 ≤ source.length := length_of_standsAt hopens.opening (by decide)
    omega

theorem isScan_pass (h : Comment.length? (source.drop n) = none) :
    IsScan source n found ↔ IsScan source (n + 1) found := by
  constructor
  · intro hscan
    refine ⟨fun k hk => ?_, hscan.ordered, hscan.sliced, hscan.blocks, fun i hi =>
      hscan.complete i (by omega)⟩
    obtain ⟨hlength, -⟩ := hscan.length? hk
    have hbehind := hscan.behind k hk
    have hne : k.offset ≠ n := by
      rintro rfl
      rw [h] at hlength
      cases hlength
    omega
  · intro hscan
    refine ⟨fun k hk => ?_, hscan.ordered, hscan.sliced,
      hscan.blocks, fun i hi hcovers hopens j hj => ?_⟩
    · have hbehind := hscan.behind k hk
      omega
    · by_cases hn : i = n
      · subst hn
        obtain ⟨j, rfl⟩ := Nat.exists_eq_add_of_le (Nat.le_of_add_right_le hj)
        intro hcloses
        exact length?_eq_none h (opensAt_drop.mpr hopens) (by omega) (standsAt_drop.mpr hcloses)
      · exact hscan.complete i (by omega) hcovers hopens j hj

theorem length_take_found (h : Comment.length? (source.drop n) = some m) :
    ((source.drop n).take m).length = m := by
  obtain ⟨-, j, rfl, -, hcloses, -⟩ := length?_eq_some h
  have hbound := length_of_closesAt hcloses
  rw [List.length_take]
  omega

/-- A scan may not pass over a comment where it starts, so its first comment begins there. -/
theorem IsScan.exists_head (hscan : IsScan source n found)
    (h : Comment.length? (source.drop n) = some m) :
    ∃ k rest, found = k :: rest ∧ k.offset = n := by
  obtain ⟨hopens, j, hm, hj, hcloses, -⟩ := length?_eq_some h
  have hcovered : ∃ k ∈ found, k.Covers n := by
    refine Classical.byContradiction fun hnone => ?_
    exact hscan.complete n (Nat.le_refl n) (fun k hk hcovers => hnone ⟨k, hk, hcovers⟩)
      (opensAt_drop.mp hopens) (n + j) (by omega) (standsAt_drop.mp hcloses)
  obtain ⟨k, hk, hle, -⟩ := hcovered
  have hoffset : k.offset = n := Nat.le_antisymm hle (hscan.behind k hk)
  cases found with
  | nil => cases hk
  | cons l rest =>
    rcases List.mem_cons.mp hk with rfl | hk
    · exact ⟨k, rest, rfl, hoffset⟩
    · have hless := ((List.pairwise_cons.mp hscan.ordered).1 k hk).1
      have hbehind := hscan.behind l List.mem_cons_self
      omega

/-- Behind its first comment a scan is one of the rest of the text. -/
theorem IsScan.tail (hscan : IsScan source n (k :: found)) :
    IsScan source (k.offset + k.text.length) found := by
  obtain ⟨hbefore, hordered⟩ := List.pairwise_cons.mp hscan.ordered
  refine ⟨fun l hl => (hbefore l hl).2, hordered,
    fun l hl => hscan.sliced l (List.mem_cons_of_mem k hl),
    fun l hl => hscan.blocks l (List.mem_cons_of_mem k hl), fun i hi hcovers => ?_⟩
  have hbehind := hscan.behind k List.mem_cons_self
  apply hscan.complete i (by omega)
  rw [List.forall_mem_cons]
  refine ⟨fun hin => ?_, hcovers⟩
  have hinside := hin.2
  omega

/-- The comment that is found where a scan starts, in front of a scan of what is behind it. -/
theorem IsScan.cons (hscan : IsScan source (n + m) found)
    (h : Comment.length? (source.drop n) = some m) :
    IsScan source n (⟨(source.drop n).take m, n⟩ :: found) := by
  have hlength := length_take_found h
  refine ⟨?_, ?_, ?_, ?_, fun i hi hcovers hopens => ?_⟩
  · rw [List.forall_mem_cons]
    refine ⟨Nat.le_refl n, fun l hl => ?_⟩
    have hbehind := hscan.behind l hl
    omega
  · refine .cons (fun l hl => ?_) hscan.ordered
    obtain ⟨-, j, rfl, -⟩ := length?_eq_some h
    have hbehind := hscan.behind l hl
    dsimp only
    omega
  · rw [List.forall_mem_cons]
    refine ⟨?_, hscan.sliced⟩
    rw [slice, Nat.add_sub_cancel_left, hlength]
  · rw [List.forall_mem_cons]
    refine ⟨?_, hscan.blocks⟩
    rw [isBlock_iff (u := source.drop n) (by rw [hlength]), hlength]
    exact h
  · rw [List.forall_mem_cons] at hcovers
    have hle : n + m ≤ i := Nat.le_of_not_lt fun hlt => hcovers.1 ⟨hi, by rw [hlength]; exact hlt⟩
    exact hscan.complete i hle hcovers.2 hopens

theorem isScan_take (h : Comment.length? (source.drop n) = some m) :
    IsScan source n found ↔
      ∃ rest, found = ⟨(source.drop n).take m, n⟩ :: rest ∧ IsScan source (n + m) rest := by
  constructor
  · intro hscan
    obtain ⟨k, rest, rfl, rfl⟩ := hscan.exists_head h
    obtain ⟨hfound, htext⟩ := hscan.length? List.mem_cons_self
    obtain rfl := Option.some.inj (h.symm.trans hfound)
    exact ⟨rest, by rw [htext], hscan.tail⟩
  · rintro ⟨rest, rfl, hscan⟩
    exact hscan.cons h

/-! ## The whole scan -/

theorem findFrom_skip (skip offset : Nat) (s : Text) (h : skip ≤ s.length) :
    findFrom skip offset s = findFrom 0 (offset + skip) (s.drop skip) := by
  induction s generalizing skip offset with
  | nil =>
    obtain rfl : skip = 0 := by simpa using h
    rfl
  | cons c rest ih =>
    cases skip with
    | zero => rfl
    | succ skip =>
      have hstep := ih skip (offset + 1) (by simpa using h)
      rw [Nat.add_assoc, Nat.add_comm 1 skip] at hstep
      simpa [findFrom] using hstep

/-- The search from an index on. -/
theorem findFrom_drop (h : n < source.length) :
    findFrom 0 n (source.drop n) =
      match Comment.length? (source.drop n) with
      | none => findFrom 0 (n + 1) (source.drop (n + 1))
      | some m => ⟨(source.drop n).take m, n⟩ :: findFrom 0 (n + m) (source.drop (n + m)) := by
  rw [List.drop_eq_getElem_cons h, findFrom]
  cases hfound : Comment.length? (source[n] :: source.drop (n + 1)) with
  | none => rfl
  | some m =>
    obtain ⟨-, j, rfl, -, hcloses, -⟩ := length?_eq_some hfound
    have hbound := length_of_closesAt hcloses
    rw [List.length_cons] at hbound
    show _ :: _ = _ :: _
    rw [findFrom_skip (j + 2 - 1) (n + 1) _ (by omega), List.drop_drop]
    have hnext : n + 1 + (j + 2 - 1) = n + (j + 2) := by omega
    rw [hnext]

theorem findFrom_eq_iff (source : Text) (n : Nat) :
    findFrom 0 n (source.drop n) = found ↔ IsScan source n found := by
  induction hleft : source.length - n using Nat.strongRecOn generalizing n found with
  | ind left ih =>
    by_cases hn : source.length ≤ n
    · rw [List.drop_of_length_le hn, isScan_end hn]
      exact eq_comm
    · rw [findFrom_drop (by omega)]
      cases hfound : Comment.length? (source.drop n) with
      | none =>
        rw [isScan_pass hfound]
        exact ih _ (by omega) (n + 1) rfl
      | some m =>
        obtain ⟨-, j, hm, -⟩ := length?_eq_some hfound
        rw [isScan_take hfound]
        have hrest := fun rest => @ih (source.length - (n + m)) (by omega) rest (n + m) rfl
        constructor
        · rintro rfl
          exact ⟨_, rfl, (hrest _).mp rfl⟩
        · rintro ⟨rest, rfl, hscan⟩
          rw [← (hrest rest).mpr hscan]

theorem isBlock_of_mem_find (h : k ∈ find source) : IsBlock k.text :=
  ((findFrom_eq_iff source 0).mp rfl).blocks k h

/-- The comments that are found are the scan of the text, and no other list is one. -/
theorem find_eq_iff (source : Text) (found : List Comment) :
    find source = found ↔ IsScan source 0 found :=
  findFrom_eq_iff source 0

/-- A comment with a star more than its delimiters, behind one that is none and in front of one that
is not closed. -/
example : find "/***/ /****/ /** a".toList = [⟨"/****/".toList, 6⟩] := by decide

end Comment

end DocComment
