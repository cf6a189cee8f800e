import DocComment.Proofs.Grammar.Answers
import DocComment.Proofs.Grammar.ElementGrammar
import DocComment.Proofs.Grammar.Exact
import DocComment.Proofs.Grammar.Faults
import DocComment.Proofs.Screening.LineFault

/-!
# An element is read exactly where one stands

The rule for elements collects all that may belong to a word and asks for its form. So it reads an
element back from its own text, and what it answers is an element and a slice of the source. A text
that is no element is refused where it begins, unless blanks or a closing delimiter are in it, which
end a word. What is collected may then differ from the text, as stars are lost in delimiters and
tags are in lower case; but a word that is collected is part of the text as it stands, and no part
of the text but the whole of it is cut off by a blank.
-/

namespace DocComment

/-- Where a list goes on is the same in both of its splits, if what comes first does not have the
separator. -/
theorem append_eq_append_cons {α : Type} {a : α} {front back more rest : List α}
    (h : front ++ back = more ++ a :: rest) (ha : a ∉ front) :
    ∃ between, more = front ++ between ∧ back = between ++ a :: rest := by
  obtain ⟨between, hmore, hback⟩ | ⟨between, hfront, hrest⟩ := List.append_eq_append_iff.mp h
  · exact ⟨between, hmore, hback⟩
  · cases between with
    | nil => exact ⟨[], by simpa using hfront.symm, hrest.symm⟩
    | cons b between =>
      rw [hfront, (List.cons.inj hrest).1] at ha
      simp at ha

namespace Grammar

open Reading (Takes Scene)
open Screening (Laid Sound Written slice)
open Token (concat)

variable {source text : Text} {tokens taken rest : List Token} {c d : Cursor} {first t : Token}
  {offset i : Nat}

/-! ## What is collected from a text -/

/-- Of the tokens of a text those that may belong to a word end at one that does not, or with the
text. -/
theorem exists_stop (hscreen : screen source = .ok (taken ++ rest))
    (hstop : ∀ u ∈ rest.head?, inWord u.kind = false) :
    ∃ run u after, taken ++ rest = run ++ u :: after ∧ concat run = concat taken ∧
      u.kind ∈ [.whitespace, .outro, .endOfText] := by
  cases rest with
  | cons u rest =>
    refine ⟨taken, u, rest, rfl, rfl, ?_⟩
    rcases eq_of_inWord (hstop u rfl) with hkind | hkind <;> simp [hkind]
  | nil =>
    obtain ⟨lead, after, rfl, -, hsegmented⟩ :=
      Screening.segmented_itemsFrom (Token.partition_tokenize source) (screen_eq_ok_iff.mp hscreen)
    obtain ⟨init, hinit, -⟩ := hsegmented.exists_init
    refine ⟨init, _, [], hinit, ?_, by simp⟩
    rw [List.append_nil] at hinit
    rw [hinit]
    simp

/-- A closing delimiter is written with stars and a slash. -/
theorem written_outro {own : Text} (h : Written t own) (hkind : t.kind = .outro) :
    ∃ stars, own = List.replicate (stars + 1) '*' ++ ['/'] := by
  cases h with
  | outro stars => exact ⟨stars, rfl⟩
  | sign kind c offset sign =>
    obtain rfl : kind = .outro := hkind
    cases sign
  | _ => cases hkind

/-- In front of the end of a comment a token that ends a word is where the text ends, if there is no
blank before and no closing delimiter. -/
theorem stop_of_laid {after : List Token} (h : Laid offset (text ++ " */".toList) (t :: after))
    (ht : t.kind ∈ [.whitespace, .outro, .endOfText])
    (hsolid : ∀ c ∈ text.head?, Text.isBlank c = false) :
    text = [] ∨ "*/".toList <:+: text := by
  cases text with
  | nil => exact .inl rfl
  | cons c text =>
    right
    have hc : Text.isBlank c = false := hsolid c rfl
    obtain ⟨-, hblanks, own, behind, hsource, hwritten⟩ := h.solid rfl hc
    simp only [List.mem_cons, List.not_mem_nil, or_false] at ht
    rcases ht with hkind | hkind | hkind
    · exact absurd hkind hblanks
    · obtain ⟨stars, rfl⟩ := written_outro hwritten hkind
      have hspace : ' ' ∉ List.replicate (stars + 1) '*' ++ ['/'] := by simp
      obtain ⟨between, htext, -⟩ := append_eq_append_cons hsource.symm hspace
      rw [htext, List.replicate_succ', List.append_assoc]
      exact ⟨List.replicate stars '*', between, by simp⟩
    · exact absurd hwritten.kind_not_mem (by simp [hkind])

/-- A word that is collected from a text without blanks and closing delimiters is all of
the text. -/
theorem collected_eq (hscreen : screen (text ++ " */".toList) = .ok (taken ++ rest))
    (hstop : ∀ u ∈ rest.head?, inWord u.kind = false) (hsolid : ∀ c ∈ text, Text.isBlank c = false)
    (hopen : ¬"*/".toList <:+: text) (hword : IsWord (concat taken)) : concat taken = text := by
  obtain ⟨run, u, after, htokens, hrun, hu⟩ := exists_stop hscreen hstop
  have hlaid := Screening.laid_of_screen hscreen
  rw [htokens] at hlaid
  rw [← hrun] at hword ⊢
  obtain ⟨back, hsource, hback⟩ := hlaid.passes hword.flat.lacks
  have hspace : ' ' ∉ concat run := fun hmem => hword.kinds ' ' hmem (by decide +kernel)
  obtain ⟨left, rfl, rfl⟩ := append_eq_append_cons hsource.symm hspace
  have hleft : ∀ c ∈ left.head?, Text.isBlank c = false :=
    fun c hc => hsolid c (List.mem_append_right _ (List.mem_of_mem_head? hc))
  rcases stop_of_laid hback hu hleft with rfl | hclose
  · rw [List.append_nil]
  · exact absurd (hclose.trans (List.suffix_append _ left).isInfix) hopen

/-! ## What the rule answers -/

theorem takes_element_exact {scene : Scene} :
    Takes scene element tokens fun text taken _ => Element text ∧ text = concat taken :=
  takes_element.imp fun _ _ _ _ h => ⟨element_iff.mpr h.form, h.text⟩

theorem readsWord_element (h : Element text) : ReadsWord element text :=
  readsWord_collectForm h.isWord (element_iff.mp h)

/-- No element is read where there is no token. -/
theorem element_past (hview : c.view = tokens.map .token) (hposition : c.position = i)
    (hpast : tokens[i]? = none) :
    ∃ failure d, element c = .error failure d := by
  obtain ⟨d, hd, hdview, hdposition⟩ := current_past hview hposition hpast
  obtain ⟨e, he, -, -⟩ := current_past hdview hdposition hpast
  have hoffset : currentOffset c = .ok c.source.length d := Reading.bind_of_ok hd
  have hround : collectRound inWord [] d = .ok (.done []) e := Reading.bind_of_ok he
  have hcollect : collect inWord c = .ok ([], c.source.length) e :=
    (Reading.bind_of_ok hoffset).trans (Reading.bind_of_ok (Reading.iterate_done hround _))
  exact ⟨_, e, Reading.bind_of_ok hcollect⟩

/-- A text that is no element is refused at its beginning, in the comment that is read. -/
theorem element_refused (hscreen : screen source = .ok (taken ++ rest))
    (htaken : ∀ u ∈ taken, inWord u.kind = true) (hstop : ∀ u ∈ rest.head?, inWord u.kind = false)
    (hfirst : (taken ++ rest).head? = some first) (hform : ¬Element (concat taken)) :
    ∃ d, element (Cursor.ofText source) =
      .error (.syntaxError ⟨.malformed .element (concat taken) first.offset, source⟩) d := by
  obtain ⟨_, -, hgives⟩ := reads_collect htaken hstop hfirst
  obtain ⟨after, hgives⟩ := hgives [] 0
  obtain ⟨d, hd, -⟩ := hgives _ (Cursor.stands_ofText hscreen)
  have hrequire : require .element (concat taken) first.offset =
      Reading.refuse (.malformed .element (concat taken) first.offset) :=
        if_neg (mt element_iff.mpr hform)
  have hread : element (Cursor.ofText source) =
      .error (.syntaxError ⟨.malformed .element (concat taken) first.offset, d.source⟩) d :=
    (Reading.bind_of_ok hd).trans (congrFun hrequire d)
  have hkept := steady_start.walk.element (Cursor.ofText source) ⟨rfl, rfl, Int.le_refl 0⟩
  rw [hread] at hkept
  have hsource : d.source = source := (hkept _ rfl).1
  exact ⟨d, by rw [hread, hsource]⟩

/-- The first token in front of the end of a comment begins where the text does. -/
theorem head_place (hscreen : screen (text ++ " */".toList) = .ok tokens)
    (hsolid : ∀ c ∈ text.head?, Text.isBlank c = false) :
    ∃ t, tokens.head? = some t ∧ t.offset = 0 := by
  cases text with
  | nil =>
    have hitems : Screening.items " */".toList =
        [⟨.whitespace, [' '], 0⟩, ⟨.outro, "*/".toList, 1⟩, ⟨.endOfText, [], 3⟩].map .token := by
          decide +kernel
    have htokens := hitems.symm.trans (screen_eq_ok_iff.mp hscreen)
    rw [List.map_inj_right fun _ _ h => Screening.Item.token.inj h] at htokens
    exact ⟨_, by rw [← htokens]; rfl, rfl⟩
  | cons c text =>
    have hlaid := Screening.laid_of_screen hscreen
    have hc : Text.isBlank c = false := hsolid c rfl
    obtain ⟨t, more, rfl⟩ := List.exists_cons_of_ne_nil hlaid.ne_nil
    exact ⟨t, rfl, (hlaid.solid rfl hc).1⟩

/-- The rule for elements reads exactly the elements. A text without blanks and closing delimiters
is read as it stands, up to the blank behind it, if it is an element, and is refused where it begins
if it is none; and whatever is read from a source, from whichever token on, is an element that
stands there. -/
theorem element_exact :
    (∀ text : Text, (∀ c ∈ text, Text.isBlank c = false) → ¬"*/".toList <:+: text →
      (Element text → ∃ d e t, element (Cursor.ofText (text ++ " */".toList)) = .ok text d ∧
        Cursor.current d = .ok (some t) e ∧ t.kind = .whitespace ∧ t.offset = text.length) ∧
      (¬Element text → ∃ value d, element (Cursor.ofText (text ++ " */".toList)) =
        .error (.syntaxError ⟨.malformed .element value 0, text ++ " */".toList⟩) d)) ∧
    ∀ (source : Text) (tokens : List Token) (c d : Cursor) (text : Text),
      screen source = .ok tokens → c.view = tokens.map .token → 0 ≤ c.position →
        element c = .ok text d → Element text ∧
          ∃ t, tokens[c.position.toNat]? = some t ∧
          slice source t.offset (t.offset + text.length) = text := by
  refine ⟨fun text hsolid hopen =>
    ⟨fun helement => ?_, fun hnone => ?_⟩, fun source tokens c d text hscreen hview => ?_⟩
  · obtain ⟨d, e, hd, he⟩ := reads_back helement.isWord (readsWord_element helement)
    exact ⟨d, e, _, hd, he, rfl, rfl⟩
  · have hfeed : '\n' ∉ text ++ " */".toList := by
      rw [List.mem_append, not_or]
      exact ⟨fun hmem => absurd (hsolid _ hmem) (by decide), by decide⟩
    obtain ⟨tokens, hscreen⟩ := Screening.exists_screen hfeed
    obtain ⟨first, hfirst, hplace⟩ :=
      head_place hscreen fun c hc => hsolid c (List.mem_of_mem_head? hc)
    obtain ⟨taken, rest, rfl, -, htaken, hstop⟩ := split_run (inWord ·.kind) tokens
    have hform : ¬Element (concat taken) := fun helement =>
      hnone (collected_eq hscreen hstop hsolid hopen helement.isWord ▸ helement)
    obtain ⟨d, hd⟩ := element_refused hscreen htaken hstop hfirst hform
    rw [hplace] at hd
    exact ⟨_, d, hd⟩
  · exact slice_of_takes Element.isWord (fun _ => takes_element_exact)
      (element_past hview) hscreen hview

/-- A member that is read back, a tag that is none in any case of its letters, and a member that is
read where it begins, behind the opening delimiter. -/
theorem element_exact_members :
    (∃ d e t, element (Cursor.ofText ("A::b()".toList ++ " */".toList)) = .ok "A::b()".toList d ∧
      Cursor.current d = .ok (some t) e ∧ t.kind = .whitespace ∧
      t.offset = "A::b()".toList.length) ∧
    (∃ value d, element (Cursor.ofText ("@See".toList ++ " */".toList)) =
      .error (.syntaxError ⟨.malformed .element value 0, "@See".toList ++ " */".toList⟩) d) ∧
    let source := "/** \\A::$b */".toList
    let tokens : List Token :=
      [⟨.intro, "/**".toList, 0⟩, ⟨.whitespace, [' '], 3⟩, ⟨.backslash, ['\\'], 4⟩,
      ⟨.string, ['A'], 5⟩, ⟨.colon, [':'], 6⟩, ⟨.colon, [':'], 7⟩, ⟨.dollar, ['$'], 8⟩,
      ⟨.string, ['b'], 9⟩, ⟨.whitespace, [' '], 10⟩, ⟨.outro, "*/".toList, 11⟩,
      ⟨.endOfText, [], 13⟩]
    ∃ d, element { Cursor.ofText source with position := 2 } = .ok "\\A::$b".toList d ∧
      Element "\\A::$b".toList ∧
      ∃ t, tokens[(2 : Int).toNat]? = some t ∧
        slice source t.offset (t.offset + "\\A::$b".toList.length) = "\\A::$b".toList := by
  have hmember : "A::b()".toList.all (Text.isBlank · = false) = true := by decide
  have htag : "@See".toList.all (Text.isBlank · = false) = true := by decide
  refine ⟨?_, ?_, ?_⟩
  · exact (element_exact.1 "A::b()".toList
      (fun c hc => of_decide_eq_true (List.all_eq_true.mp hmember c hc))
      (by decide)).1 (element_iff.mpr (by decide))
  · exact (element_exact.1 "@See".toList
      (fun c hc => of_decide_eq_true (List.all_eq_true.mp htag c hc))
      (by decide)).2 (mt element_iff.mp (by decide))
  · intro source tokens
    have hitems : Screening.items source = tokens.map .token := by decide +kernel
    have hread : answer? (element { Cursor.ofText source with position := 2 }) =
      some "\\A::$b".toList := by decide +kernel
    obtain ⟨d, hd⟩ := exists_ok_of_answer hread
    exact ⟨d, hd, element_exact.2 source tokens { Cursor.ofText source with position := 2 } d _
      (screen_eq_ok_iff.mpr hitems) hitems (by decide) hd⟩

end Grammar

end DocComment
