import DocComment.Proofs.Document.Blocks

/-!
# Where a closing delimiter is no end

Most of what a comment is read from takes no closing delimiter. Either it ends in front of one, or
it refuses a text that holds one, because its star is no character of a file, of the name of a
method or of a type. Two things may hold it: an email address goes on up to the closing angle
bracket, and what a version-control system writes goes on up to the second dollar sign. `Encloses`
lists these, and `ReadsContent.encloses` says that no tag takes a closing delimiter anywhere else.
-/

namespace DocComment.Grammar

open Token (concat)

variable {clean : Prop} {tokens taken more rest front back : List Token} {t : Token}
  {text default : Text}

/-- None of the tokens is a closing delimiter. -/
def Unclosed (tokens : List Token) : Prop := ∀ t ∈ tokens, t.kind ≠ .outro

theorem Unclosed.nil : Unclosed [] := nofun

theorem Unclosed.append (h : Unclosed taken) (hmore : Unclosed more) : Unclosed (taken ++ more) :=
  List.forall_mem_append.mpr ⟨h, hmore⟩

theorem Unclosed.cons (h : t.kind ≠ .outro) (hmore : Unclosed more) : Unclosed (t :: more) :=
  List.forall_mem_cons.mpr ⟨h, hmore⟩

/-- Closing delimiters are written as themselves. -/
def PlainOutro (tokens : List Token) : Prop := ∀ t ∈ tokens, t.kind = .outro → t.text = "*/".toList

theorem PlainOutro.left (h : PlainOutro (front ++ back)) : PlainOutro front :=
  fun t ht => h t (List.mem_append_left _ ht)

theorem PlainOutro.right (h : PlainOutro (front ++ back)) : PlainOutro back :=
  fun t ht => h t (List.mem_append_right _ ht)

/-- A text without stars is written by no closing delimiter. -/
theorem PlainOutro.unclosed (h : PlainOutro taken) (hstar : '*' ∉ concat taken) :
    Unclosed taken := by
  intro t ht hkind
  apply hstar
  rw [concat, List.mem_flatMap]
  exact ⟨t, ht, by rw [h t ht hkind]; decide⟩

theorem Run.unclosed {test : Kind → Bool} (h : Run test taken rest) (htest : test .outro = false) :
    Unclosed taken := by
  intro t ht hkind
  have hpass := h.taken t ht
  rw [hkind, htest] at hpass
  cases hpass

theorem unclosed_of_blanks (h : ∀ t ∈ taken, isBlankKind t.kind = true) : Unclosed taken := by
  intro t ht hkind
  have hblank := h t ht
  rw [hkind] at hblank
  cases hblank

/-! ## Forms without stars -/

theorem not_star_of_isFile (h : Form.isFile text = true) : '*' ∉ text :=
  fun hmem => absurd (List.all_eq_true.mp h '*' hmem) (by decide)

theorem not_star_of_isIdentifier (h : Form.isIdentifier text = true) : '*' ∉ text := by
  cases text with
  | nil => exact List.not_mem_nil
  | cons c rest =>
    rw [Form.isIdentifier, Bool.and_eq_true, List.all_eq_true] at h
    rintro (_ | ⟨_, hmem⟩)
    · exact absurd h.1 (by decide)
    · exact absurd (h.2 '*' hmem) (by decide)

/-! ## What takes no closing delimiter -/

theorem ReadsVariable.unclosed (h : ReadsVariable text taken rest) : Unclosed taken := by
  cases h with
  | intro opens run => exact .cons (by simp [opens]) (run.unclosed rfl)

theorem OptionalVariable.unclosed (h : OptionalVariable text taken rest) : Unclosed taken := by
  cases h with
  | named said => exact said.unclosed
  | unnamed => exact .nil

theorem BracketTokens.unclosed {pairs : Nat} (h : BracketTokens pairs taken) : Unclosed taken := by
  induction h with
  | none => exact .nil
  | more opens closes _ ih => exact .cons (by simp [opens]) (.cons (by simp [closes]) ih)

/-- The word of `$this` is told by its text. -/
theorem TypeTokens.unclosed {part : TypePart} (h : TypeTokens part text taken)
    (hplain : PlainOutro taken) : Unclosed taken := by
  induction h with
  | name kinds =>
    intro t ht hkind
    have hmem := kinds t ht
    simp [hkind] at hmem
  | @self dollar word opens said =>
    refine .cons (by simp [opens]) (.cons (fun hkind => ?_) .nil)
    have hword := hplain word (by simp) hkind
    rw [said] at hword
    exact absurd hword (by decide)
  | @nested _ words left right opens _ closes ih =>
    have hwords : PlainOutro ([left] ++ (words ++ [right])) := hplain
    exact .cons (by simp [opens]) ((ih hwords.right.left).append (.cons (by simp [closes]) .nil))
  | last _ brackets ih => exact (ih hplain.left).append brackets.unclosed
  | @join _ _ _ _ others _ sign _ brackets known _ ih ihrest =>
    have hothers : PlainOutro ([sign] ++ others) := hplain.right.right
    have hsign : sign.kind ≠ .outro := by
      rcases known with hkind | hkind
      · simp [hkind]
      · simp [hkind]
    exact (ih hplain.left).append (brackets.unclosed.append (.cons hsign (ihrest hothers.right)))

theorem OptionalType.unclosed (h : OptionalType clean default text taken rest)
    (hplain : PlainOutro taken) :
    Unclosed taken := by
  cases h with
  | written said => exact said.type.unclosed hplain
  | omitted => exact .nil

theorem LeadingType.unclosed (h : LeadingType clean default text taken rest)
    (hplain : PlainOutro taken) :
    Unclosed taken := by
  cases h with
  | written said blank =>
    exact (said.type.unclosed hplain.left).append (unclosed_of_blanks blank.taken)
  | omitted => exact .nil

theorem ReadsTypedName.unclosed {typed : TypedName} (h : ReadsTypedName clean typed taken rest)
    (hplain : PlainOutro taken) : Unclosed taken := by
  cases h with
  | intro typed named => exact (typed.unclosed hplain.left).append named.unclosed

theorem ReadsProperty.unclosed {access : Access} {p : Property}
    (h : ReadsProperty clean access p taken rest) (hplain : PlainOutro taken) : Unclosed taken := by
  cases h with
  | intro typed named => exact (typed.unclosed hplain.left).append named.unclosed

theorem ReadsArgument.unclosed {argument : TypedName} (h : ReadsArgument clean argument taken rest)
    (hplain : PlainOutro taken) : Unclosed taken := by
  cases h with
  | intro typed inner named outer =>
    refine (typed.unclosed hplain.left).append ((unclosed_of_blanks inner.taken).append ?_)
    exact named.unclosed.append (unclosed_of_blanks outer.taken)

theorem ReadsArguments.unclosed {arguments : List TypedName}
    (h : ReadsArguments clean arguments taken rest) (hplain : PlainOutro taken) :
    Unclosed taken := by
  induction h with
  | none => exact .nil
  | last said => exact said.unclosed hplain
  | @more _ _ _ blanks others _ comma said separates blank _ ih =>
    refine (said.unclosed hplain.left).append (.cons (by simp [separates]) ?_)
    have hothers : PlainOutro ((comma :: blanks) ++ others) := hplain.right
    exact (unclosed_of_blanks blank.taken).append (ih hothers.right)

theorem ReadsSignature.unclosed {m : Signature} (h : ReadsSignature clean m taken rest)
    (hplain : PlainOutro taken) : Unclosed taken := by
  cases h with
  | @intro _ _ lead name blanks list _ opening closing typed _ form opens blank said closes =>
    have hname : PlainOutro name := hplain.right.left
    have hlist : PlainOutro list := by
      have hbehind : PlainOutro ((lead ++ (name ++ opening :: blanks)) ++ (list ++ [closing])) := by
        simpa using hplain
      exact hbehind.right.left
    refine (typed.unclosed hplain.left).append ?_
    refine (hname.unclosed (not_star_of_isIdentifier form)).append (.cons (by simp [opens]) ?_)
    refine (unclosed_of_blanks blank.taken).append ((said.unclosed hlist).append ?_)
    exact .cons (by simp [closes]) .nil

theorem ReadsReference.unclosed (h : ReadsReference clean text taken rest) : Unclosed taken := by
  cases h with
  | link said | element _ said => exact said.run.unclosed rfl

/-- A file goes on up to a blank, but a closing delimiter in it makes it none. -/
theorem ReadsUsage.unclosed (h : ReadsUsage clean text taken rest) (hplain : PlainOutro taken) :
    Unclosed taken := by
  cases h with
  | link said | element _ said => exact said.run.unclosed rfl
  | file _ _ said =>
    have hstar := not_star_of_isFile said.form
    rw [said.text] at hstar
    exact hplain.unclosed hstar

/-! ## Descriptions -/

/-- A token of a description stands in one of its runs or in one of its constructs. -/
theorem Cut.mem_tokens {cut : Cut} (h : t ∈ cut.tokens) :
    (∃ run ∈ cut.runs, t ∈ run) ∨ ∃ construct ∈ cut.constructs, t ∈ construct := by
  simp only [tokens, List.mem_append, List.mem_flatMap] at h
  rcases h with ⟨piece, hpiece, ht | ht⟩ | ht
  · exact .inl ⟨piece.1, List.mem_append_left _ (List.mem_map_of_mem hpiece), ht⟩
  · exact .inr ⟨piece.2, List.mem_map_of_mem hpiece, ht⟩
  · exact .inl ⟨cut.last, by simp [runs], ht⟩

/-- No run of a description holds what ends it. -/
theorem Cut.unclosed {cut : Cut} {braced : Bool} (hspans : cut.Spans braced rest)
    (hconstructs : ∀ construct ∈ cut.constructs, Unclosed construct) : Unclosed cut.tokens := by
  intro t ht hkind
  rcases Cut.mem_tokens ht with ⟨run, hrun, ht⟩ | ⟨construct, hconstruct, ht⟩
  · have hfree := hspans.free run hrun t ht
    rw [hkind] at hfree
    cases hfree
  · exact hconstructs construct hconstruct t ht hkind

theorem Opening.unclosed {name : TagName} (h : Opening name taken) : Unclosed taken := by
  cases h with
  | intro opens named inner outer =>
    refine .cons (by simp [opens]) ((unclosed_of_blanks inner).append ?_)
    exact .cons (by simp [named]) (unclosed_of_blanks outer)

theorem OpensComment.unclosed (h : OpensComment taken) : Unclosed taken := by
  cases h with
  | intro blank opens inner =>
    exact (unclosed_of_blanks blank).append (.cons (by simp [opens]) (unclosed_of_blanks inner))

theorem InlineContent.unclosed {name : TagName} {content : Content}
    (h : InlineContent name taken rest content) : Unclosed taken := by
  cases h with
  | internal => exact .nil
  | link said blank => exact (said.run.unclosed rfl).append (unclosed_of_blanks blank.taken)

theorem ReadsInline.unclosed {tag : Tag} (h : ReadsInline taken tag) : Unclosed taken := by
  induction h with
  | bare opens closes => exact opens.unclosed.append (.cons (by simp [closes]) .nil)
  | @described name opening words content cut tags closing opens announces spans closes
    length reads ih =>
    have hcut : Unclosed cut.tokens := by
      refine Cut.unclosed spans fun construct hconstruct => ?_
      obtain ⟨i, tag, hi, htag⟩ := Cut.exists_tag length hconstruct
      exact ih i construct tag hi htag
    refine opens.unclosed.append (announces.unclosed.append (hcut.append ?_))
    exact .cons (by simp [closes]) .nil

theorem Cut.Carries.unclosed {cut : Cut} {tags : List Tag} {braced : Bool} (h : cut.Carries tags)
    (hspans : cut.Spans braced rest) : Unclosed cut.tokens := by
  refine Cut.unclosed hspans fun construct hconstruct => ?_
  obtain ⟨i, tag, hi, htag⟩ := exists_tag h.length hconstruct
  exact (h.reads i construct tag hi htag).unclosed

/-! ## What may hold a closing delimiter -/

/-- What a tag of a name wants is written by these tokens, and the inner tokens go on up to a mark
of their own: an email address up to the closing angle bracket, and what a version-control system
writes up to the second dollar sign. -/
inductive Encloses (inner : List Token) : TagName → List Token → Prop
  | email {name : List Token} {opening closing : Token}
      (named : ∀ t ∈ name, t.kind.isTag = false ∧ t.kind ∉ [.leftAngle, .outro])
      (opens : opening.kind = .leftAngle) (free : ∀ t ∈ inner, t.kind ≠ .rightAngle)
      (address : Form.isEmail (Text.strip (concat inner)) = true)
      (closes : closing.kind = .rightAngle) :
      Encloses inner .author (name ++ opening :: (inner ++ [closing]))
  | identification {tag : TagName} {head blanks : List Token} {opening closing : Token}
      (versioned : tag ∈ [.deprecated, .since, .version]) (word : ∀ t ∈ head, inWord t.kind = true)
      (system : Form.isSystemVersion (concat head) = true)
      (blank : ∀ t ∈ blanks, isBlankKind t.kind = true) (opens : opening.kind = .dollar)
      (free : ∀ t ∈ inner, t.kind ≠ .dollar) (closes : closing.kind = .dollar) :
      Encloses inner tag (head ++ (blanks ++ opening :: (inner ++ [closing])))

/-- Among the tokens is a block tag that encloses the inner ones. -/
def Holds (tokens inner : List Token) : Prop :=
  ∃ (before : List Token) (mark : Token) (name : TagName) (blanks words after : List Token),
    tokens = before ++ mark :: (blanks ++ (words ++ after)) ∧ mark.kind = .tag name ∧
      (∀ t ∈ blanks, isBlankKind t.kind = true) ∧ Encloses inner name words

/-- A name in front of an address holds no tag and no delimiter. -/
theorem ReadsAuthor.encloses {a : Author} (h : ReadsAuthor a taken rest) :
    Unclosed taken ∨ ∃ inner, Encloses inner .author taken := by
  cases h with
  | named run => exact .inl (run.unclosed rfl)
  | @addressed name inner _ opening closing run opens free address closes =>
    have hnamed : ∀ t ∈ name, t.kind.isTag = false ∧ t.kind ∉ [.leftAngle, .outro] := by
      intro t ht
      simpa using run.taken t ht
    exact .inr ⟨inner, .email hnamed opens free address closes⟩

theorem ReadsVersion.encloses {name : TagName}
    (hname : name ∈ [TagName.deprecated, .since, .version]) (h : ReadsVersion text taken rest) :
    Unclosed taken ∨ ∃ inner, Encloses inner name taken := by
  cases h with
  | plain word => exact .inl (word.run.unclosed rfl)
  | @system head word blanks inner _ opening closing said colon blank opens free closes =>
    have hsystem := isSystemVersion_of_colon said.form colon
    rw [said.text] at hsystem
    exact .inr ⟨inner, .identification hname said.run.taken hsystem blank opens free closes⟩

/-- What a tag wants goes past a closing delimiter only where it encloses one. -/
theorem ReadsContent.encloses {name : TagName} {content : Content}
    (h : ReadsContent clean name content taken rest) (hplain : PlainOutro taken) :
    Unclosed taken ∨ ∃ inner, Encloses inner name taken := by
  cases h with
  | api | copyright | deprecatedEver | inheritDoc | internal | todo => exact .inl .nil
  | author said => exact said.encloses
  | deprecated said | since said | version said => exact said.encloses (by decide)
  | link said | package said | throws said => exact .inl (said.run.unclosed rfl)
  | method said => exact .inl (said.unclosed hplain)
  | param said | var said => exact .inl (said.unclosed hplain)
  | property said | propertyRead said | propertyWrite said => exact .inl (said.unclosed hplain)
  | returns said => exact .inl (said.type.unclosed hplain)
  | see said => exact .inl said.unclosed
  | usedBy said | uses said => exact .inl (said.unclosed hplain)

end DocComment.Grammar
