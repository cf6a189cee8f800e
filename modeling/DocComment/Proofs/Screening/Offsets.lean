import DocComment.Proofs.Screening.Run

/-!
# Where items lie

Each item carries an offset: a token that of the raw token it begins with, a fault that of the raw
token it is about. So no item lies outside its text, whether or not the text can be screened, and no
fault is about a token that the text does not have.
-/

namespace DocComment

/-- The cause is about the text: about a token of it, raw or screened, or about a place in it. The
end of the text is one. -/
def Cause.Within (s : Text) : Cause → Prop
  | .unexpectedToken t => t ∈ Token.tokenize s ∨ Screening.Item.token t ∈ Screening.items s
  | .unexpectedEnd => True
  | .malformed _ _ offset => offset ≤ s.length

namespace Token

theorem Partition.offset_le {offset : Nat} {s : Text} {raws : List Token}
    (h : Partition offset s raws) : ∀ t ∈ raws, t.offset ≤ offset + s.length := by
  induction h with
  | last => simp
  | @cons token after raws raw tail ih =>
    rw [List.forall_mem_cons]
    constructor
    · omega
    · intro t ht
      have hbehind := ih t ht
      rw [List.length_append]
      omega

end Token

namespace Screening

/-- The item goes back to one of the raw tokens: a token begins where that one does, a fault is
about that one or about the end. -/
def Item.Of (raws : List Token) : Item → Prop
  | .token t => ∃ u ∈ raws, t.offset = u.offset
  | .fault (.unexpectedToken t) => t ∈ raws
  | .fault .unexpectedEnd => True
  | .fault (.malformed ..) => False

variable {first slash star newline t : Token} {rest after raws more : List Token} {item : Item}
  {s : Text}

theorem Item.Of.imp (h : item.Of raws) (hmore : ∀ u ∈ raws, u ∈ more) : item.Of more := by
  match item, h with
  | .token _, ⟨u, hu, hoffset⟩ => exact ⟨u, hmore u hu, hoffset⟩
  | .fault (.unexpectedToken _), h => exact hmore _ h
  | .fault .unexpectedEnd, _ => trivial

theorem Item.of_first {u : Token} (hoffset : u.offset = first.offset) :
    (Item.token u).Of (first :: rest) :=
  ⟨first, by simp, hoffset⟩

theorem lineSlash_of : (lineSlash slash after).item.Of (slash :: after) := by
  match after with
  | [] => trivial
  | [first] =>
    rw [lineSlash]
    split
    · show first ∈ [slash, first]
      simp
    · trivial
  | first :: second :: more =>
    rw [lineSlash]
    split
    · show first ∈ slash :: first :: second :: more
      simp
    · split
      · show second ∈ slash :: first :: second :: more
        simp
      · exact Item.of_first rfl

theorem lineStar_of : (lineStar star after).item.Of (star :: after) := by
  match after with
  | [] => trivial
  | next :: more =>
    obtain ⟨run, tail, hsplit, hlength, -, -⟩ := runLength_split .star (next :: more)
    simp only [lineStar, hlength]
    rw [hsplit, List.drop_left]
    split
    · exact Item.of_first rfl
    · split
      · cases tail with
        | nil => trivial
        | cons closing tail =>
          dsimp only
          split
          · exact Item.of_first rfl
          · show closing ∈ star :: (run ++ closing :: tail)
            simp
      · exact Item.of_first rfl

theorem lineStart_of : (lineStart newline rest).item.Of (newline :: rest) := by
  obtain ⟨blanks, tail, rfl, hlength, -, -⟩ := runLength_split .whitespace rest
  simp only [lineStart, hlength, List.drop_left]
  cases tail with
  | nil => exact Item.of_first rfl
  | cons next after =>
    have htail : ∀ u ∈ next :: after, u ∈ newline :: (blanks ++ next :: after) :=
      fun u hu => List.mem_cons_of_mem _ (List.mem_append_right _ hu)
    dsimp only
    split
    · exact lineSlash_of.imp htail
    · exact lineStar_of.imp htail
    · exact ⟨next, htail next (by simp), rfl⟩
    · exact Item.of_first rfl

theorem slash_of : (Screening.slash first rest).item.Of (first :: rest) := by
  unfold Screening.slash
  split
  · split <;> exact Item.of_first rfl
  · exact Item.of_first rfl

theorem stars_of : (stars first rest).item.Of (first :: rest) := by
  unfold stars
  dsimp only
  split
  · exact Item.of_first rfl
  · split <;> exact Item.of_first rfl

theorem propertyTag_of : (propertyTag first.offset after).item.Of (first :: rest) := by
  unfold propertyTag
  split
  · exact Item.of_first rfl
  · split <;> exact Item.of_first rfl

theorem usedByTag_of : (usedByTag first.offset after).item.Of (first :: rest) := by
  unfold usedByTag
  split
  · exact Item.of_first rfl
  · split <;> exact Item.of_first rfl

theorem atSign_of : (atSign first rest).item.Of (first :: rest) := by
  unfold atSign
  split
  · exact Item.of_first rfl
  · dsimp only
    split
    · exact Item.of_first rfl
    · exact propertyTag_of
    · exact usedByTag_of
    · exact Item.of_first rfl

/-- The item of a step goes back to the raw tokens that the step looks at. -/
theorem step_of (first : Token) (rest : List Token) :
    (step first rest).item.Of (first :: rest) := by
  unfold step
  split
  · exact Item.of_first rfl
  · exact Item.of_first rfl
  · exact lineStart_of
  · exact atSign_of
  · exact slash_of
  · exact stars_of
  · exact Item.of_first rfl

theorem itemsFrom_of (skip : Nat) (raws : List Token) :
    ∀ item ∈ itemsFrom skip raws, item.Of raws := by
  induction raws generalizing skip with
  | nil =>
    intro item hitem
    rw [itemsFrom] at hitem
    cases hitem
  | cons first rest ih =>
    have hrest : ∀ skip, ∀ item ∈ itemsFrom skip rest, item.Of (first :: rest) :=
      fun skip item hitem => (ih skip item hitem).imp fun u hu => List.mem_cons_of_mem _ hu
    cases skip with
    | succ skip => exact hrest skip
    | zero =>
      rw [itemsFrom, List.forall_mem_cons]
      exact ⟨step_of first rest, hrest _⟩

/-- No token lies outside its text. -/
theorem offset_le_of_mem_items (h : Item.token t ∈ items s) : t.offset ≤ s.length := by
  obtain ⟨u, hu, hoffset⟩ := itemsFrom_of 0 _ _ h
  have hraw := (Token.partition_tokenize s).offset_le u hu
  omega

/-- A fault is about a raw token of its text, or about the end. -/
theorem within_of_mem_items {cause : Cause} (h : Item.fault cause ∈ items s) : cause.Within s := by
  have hof := itemsFrom_of 0 _ _ h
  cases cause with
  | unexpectedToken t => exact .inl hof
  | unexpectedEnd => trivial
  | malformed => exact hof.elim

end Screening

/-- A text is not screened because of a fault in it. -/
theorem screen_error {s : Text} {e : SyntaxError} (h : screen s = .error e) :
    ∃ cause, e = ⟨cause, s⟩ ∧ cause.Within s := by
  obtain ⟨cause, he, hmem⟩ := Screening.mapM_token?_error h
  exact ⟨cause, he, Screening.within_of_mem_items hmem⟩

theorem Cause.Within.offset_le {s : Text} {t : Token} (h : (Cause.unexpectedToken t).Within s) :
    t.offset ≤ s.length := by
  rcases h with hraw | hitem
  · have hraw := (Token.partition_tokenize s).offset_le t hraw
    omega
  · exact Screening.offset_le_of_mem_items hitem

end DocComment
