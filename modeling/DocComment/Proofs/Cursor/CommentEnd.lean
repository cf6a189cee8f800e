import DocComment.Proofs.Cursor.View
import Mathlib.Data.List.TakeWhile

/-!
# Two cursors over comments that end differently

Two comments may be the same but for the blanks in front of their closing delimiters. Cursors over
them show the same items, which may be faults, and then their two endings, in which there are none.
Both stand in front of one of the shared items, or both beyond them, and there they may be at
different places of their endings. A fault that is met is gone for both.
-/

namespace DocComment

open Screening (Item)
open Text (isBlank)

/-- How the tokens of a comment end: with blanks, the closing delimiter and the mark of the end. -/
structure CommentEnd where
  blanks : List Token
  closing : Token
  last : Token
  blank : ∀ t ∈ blanks, t.kind = .whitespace ∧ ∀ c ∈ t.text, isBlank c = true
  closes : closing.kind = .outro
  closed : closing.text = "*/".toList
  ends : last.kind = .endOfText
  empty : last.text = []

/-- A blank, or a closing delimiter. -/
def Token.Trailing (t : Token) : Prop :=
  (t.kind = .whitespace ∧ ∀ c ∈ t.text, isBlank c = true) ∨ (t.kind = .outro ∧ t.text = "*/".toList)

theorem Token.Trailing.kind {t : Token} (h : t.Trailing) : t.kind = .whitespace ∨ t.kind = .outro :=
  h.imp And.left And.left

namespace CommentEnd

/-- The closing delimiter and the mark of the end. -/
def close (e : CommentEnd) : List Token := [e.closing, e.last]

def tokens (e : CommentEnd) : List Token := e.blanks ++ e.close

/-- What may be left of an ending in front of the closing delimiter. -/
def Open (e : CommentEnd) (back : List Token) : Prop :=
  ∃ front blanks, e.blanks = front ++ blanks ∧ back = blanks ++ e.close

theorem open_tokens (e : CommentEnd) : e.Open e.tokens := ⟨[], e.blanks, rfl, rfl⟩

theorem open_close (e : CommentEnd) : e.Open e.close :=
  ⟨e.blanks, [], (List.append_nil _).symm, rfl⟩

variable {e : CommentEnd} {back : List Token} {accept : Kind → Bool}

/-- In front of the closing delimiter there is a blank, or the delimiter itself. -/
theorem Open.head (h : e.Open back) : ∃ t rest, back = t :: rest ∧ t.Trailing := by
  obtain ⟨front, blanks, hblanks, rfl⟩ := h
  cases blanks with
  | nil => exact ⟨e.closing, [e.last], rfl, .inr ⟨e.closes, e.closed⟩⟩
  | cons t blanks => exact ⟨t, blanks ++ e.close, rfl, .inl (e.blank t (by simp [hblanks]))⟩

theorem Open.kind_mem (h : e.Open back) :
    ∀ t ∈ back, t.kind ∈ [.whitespace, .outro, .endOfText] := by
  obtain ⟨front, blanks, hblanks, rfl⟩ := h
  simp only [close, List.forall_mem_append, List.forall_mem_cons]
  refine ⟨fun t ht => ?_, by simp [e.closes], by simp [e.ends], List.forall_mem_nil _⟩
  simp [(e.blank t (by simp [hblanks, ht])).1]

/-- What stops at blanks and at the closing delimiter takes nothing of an ending. -/
theorem Open.takes_nothing (h : e.Open back) (hblank : accept .whitespace = false)
    (houtro : accept .outro = false) :
    back.takeWhile (accept ·.kind) = [] ∧ back.dropWhile (accept ·.kind) = back := by
  obtain ⟨t, rest, rfl, ht⟩ := h.head
  rcases ht.kind with ht | ht
  · simp [ht, hblank]
  · simp [ht, houtro]

/-- What goes past blanks, but not past the closing delimiter, takes the blanks. -/
theorem Open.takes_blanks (h : e.Open back) (hblank : accept .whitespace = true)
    (houtro : accept .outro = false) :
    (∀ c ∈ Token.concat (back.takeWhile (accept ·.kind)), isBlank c = true) ∧
      back.dropWhile (accept ·.kind) = e.close := by
  obtain ⟨front, blanks, hsplit, rfl⟩ := h
  have hall : ∀ t ∈ blanks, accept t.kind = true := by
    intro t ht
    rw [(e.blank t (by simp [hsplit, ht])).1, hblank]
  have hstop : accept e.closing.kind = false := by rw [e.closes, houtro]
  rw [List.takeWhile_append_of_pos hall, List.dropWhile_append_of_pos hall]
  simp only [close, List.takeWhile_cons, List.dropWhile_cons, hstop, Bool.false_eq_true, ↓reduceIte,
    List.append_nil, and_true]
  intro c hc
  obtain ⟨t, ht, hc⟩ := List.mem_flatMap.mp hc
  exact (e.blank t (by simp [hsplit, ht])).2 c hc

/-- What goes past the closing delimiter too takes its star. -/
theorem Open.takes_all (h : e.Open back)
    (hall : ∀ kind ∈ [.whitespace, .outro, .endOfText], accept kind = true) :
    '*' ∈ Token.concat (back.takeWhile (accept ·.kind)) ∧ back.dropWhile (accept ·.kind) = [] := by
  have haccepted : ∀ t ∈ back, accept t.kind = true := fun t ht => hall _ (h.kind_mem t ht)
  rw [List.takeWhile_eq_self_iff.mpr haccepted, List.dropWhile_eq_nil_iff.mpr haccepted]
  obtain ⟨front, blanks, -, rfl⟩ := h
  exact ⟨List.mem_flatMap.mpr ⟨e.closing, by simp [close], by simp [e.closed]⟩, rfl⟩

end CommentEnd

namespace Screening

/-- Some of the faults among the items were met, and are gone. -/
structure Sheds (items left : List Item) : Prop where
  front : ∀ passed : List Token, passed.map .token <+: items → passed.map .token <+: left
  all : ∀ tokens : List Token, items = tokens.map .token → left = items

variable {items left remaining : List Item} {passed : List Token}

theorem Sheds.refl (items : List Item) : Sheds items items := ⟨fun _ h => h, fun _ _ => rfl⟩

theorem Sheds.trans (h : Sheds items left) (hleft : Sheds left remaining) :
    Sheds items remaining := by
  refine ⟨fun passed hpassed =>
    hleft.front passed (h.front passed hpassed), fun tokens htokens => ?_⟩
  have hsame := h.all tokens htokens
  exact (hleft.all tokens (hsame.trans htokens)).trans hsame

/-- Tokens cannot be a beginning of items that goes further than the first fault. -/
theorem front_of_fault {tokens : List Token} {rest : List Item} {cause : Cause}
    (h : tokens.map .token <+: passed.map .token ++ .fault cause :: rest) : tokens <+: passed := by
  induction passed generalizing tokens with
  | nil =>
    cases tokens with
    | nil => exact List.nil_prefix
    | cons t tokens =>
      obtain ⟨hfirst, -⟩ := List.cons_prefix_cons.mp h
      cases hfirst
  | cons p passed ih =>
    cases tokens with
    | nil => exact List.nil_prefix
    | cons t tokens =>
      obtain ⟨hfirst, hrest⟩ := List.cons_prefix_cons.mp h
      exact List.cons_prefix_cons.mpr ⟨Item.token.inj hfirst, ih hrest⟩

theorem Sheds.fault (passed : List Token) (cause : Cause) (rest : List Item) :
    Sheds (passed.map .token ++ .fault cause :: rest) (passed.map .token ++ rest) := by
  refine ⟨fun tokens h => ?_, fun tokens h => ?_⟩
  · obtain ⟨more, rfl⟩ := front_of_fault h
    exact ⟨more.map .token ++ rest, by simp⟩
  · have hmem : Item.fault cause ∈ tokens.map Item.token := by simp [← h]
    simp at hmem

/-- The first fault of items is known from them. -/
theorem eq_of_fault {passed' : List Token} {rest rest' : List Item} {cause cause' : Cause}
    (h : passed.map .token ++ Item.fault cause :: rest =
      passed'.map .token ++ .fault cause' :: rest') :
    passed = passed' ∧ cause = cause' ∧ rest = rest' := by
  have hpassed : passed = passed' :=
    List.IsPrefix.eq_of_length_le (front_of_fault ⟨_, h⟩) (front_of_fault ⟨_, h.symm⟩).length_le
  subst hpassed
  obtain ⟨hcause, hrest⟩ := List.cons.inj (List.append_cancel_left h)
  exact ⟨rfl, Item.fault.inj hcause, hrest⟩

end Screening

open Screening (Sheds)

namespace Cursor

variable {items rest : List Item} {passed : List Token} {t : Token} {cause : Cause} {c : Cursor}

/-- A token with none but tokens in front of it is found. -/
theorem fetch_of_token (h : c.view = passed.map .token ++ .token t :: rest) :
    ∃ d, fetch passed.length c = .ok (some t) d ∧ Still c d ∧ d.view = c.view := by
  rcases fetch_cases passed.length c with ⟨d, hfetch, hstill, hview, hend⟩ |
    ⟨d, cause, front, behind, -, -, hview, -, hlength⟩
  · have hbuffer : d.buffer[passed.length]? = some t := by
      have hshown : d.buffer[passed.length]?.map Item.token = some (.token t) := by
        rw [← view_getElem? hend, hview, h]
        simp
      obtain ⟨u, hu, heq⟩ := Option.map_eq_some_iff.mp hshown
      rw [hu, Item.token.inj heq]
    exact ⟨d, by rw [hfetch, hbuffer], hstill, hview⟩
  · have hfront : (passed ++ [t]).map .token <+: front.map .token ++ .fault cause :: behind := by
      rw [← hview, h]
      exact ⟨rest, by simp⟩
    have hle := (Screening.front_of_fault hfront).length_le
    rw [List.length_append, List.length_singleton] at hle
    omega

/-- A fault with none but tokens in front of it is met. -/
theorem fetch_of_fault (h : c.view = passed.map .token ++ .fault cause :: rest) :
    ∃ d, fetch passed.length c = .error (.syntaxError ⟨cause, c.source⟩) d ∧ Still c d ∧
      d.view = passed.map .token ++ rest := by
  rcases fetch_cases passed.length c with ⟨d, -, -, hview, hend⟩ |
    ⟨d, cause, front, behind, hfetch, hstill, hview, hleft, -⟩
  · have hshown : d.buffer[passed.length]?.map Item.token = some (.fault cause) := by
      rw [← view_getElem? hend, hview, h]
      simp
    obtain ⟨t, -, ht⟩ := Option.map_eq_some_iff.mp hshown
    cases ht
  · obtain ⟨rfl, rfl, rfl⟩ := Screening.eq_of_fault (hview.symm.trans h)
    exact ⟨d, hfetch, hstill, hleft⟩

end Cursor

/-! ## Where the two cursors stand -/

section States

variable (e e' : CommentEnd)

/-- Two cursors over the same items with different endings. -/
structure Cursor.Forked (items : List Item) (c c' : Cursor) : Prop where
  view : c.view = items ++ e.tokens.map .token
  view' : c'.view = items ++ e'.tokens.map .token
  peek : 0 ≤ c.peek
  peek' : 0 ≤ c'.peek

/-- Both cursors stand in front of one of the shared items. -/
structure Cursor.Facing (item : Item) (items : List Item) (c c' : Cursor) : Prop extends
    Cursor.Forked e e' items c c' where
  places : ∃ (passed : List Token) (rest : List Item), items = passed.map .token ++ item :: rest ∧
    c.position = passed.length ∧ c'.position = passed.length

/-- Both cursors stand in front of a shared token, and look at the same item further ahead. -/
structure Cursor.Looking (t : Token) (passed : List Token) (rest : List Item) (items : List Item)
    (c c' : Cursor) : Prop extends Cursor.Facing e e' (.token t) items c c' where
  split : items = passed.map .token ++ rest
  looks : c.peek = passed.length
  looks' : c'.peek = passed.length

/-- Both cursors stand beyond the shared items, with some tokens left of each ending. -/
structure Cursor.Beyond (back back' : List Token) (items : List Item) (c c' : Cursor) : Prop extends
    Cursor.Forked e e' items c c' where
  places : ∃ front lead lead' : List Token, items = front.map .token ∧ e.tokens = lead ++ back ∧
    e'.tokens = lead' ++ back' ∧ c.position = (front ++ lead).length ∧
      c'.position = (front ++ lead').length

/-- Both cursors stand in front of a shared item, or beyond the items, with lists of a relation
left. -/
def Cursor.Abreast (T : List Token → List Token → Prop) (items : List Item)
    (c c' : Cursor) : Prop :=
  (∃ item, Cursor.Facing e e' item items c c') ∨
    ∃ back back', T back back' ∧ Cursor.Beyond e e' back back' items c c'

/-- The closing delimiter is ahead in both endings. -/
def CommentEnd.BothOpen (back back' : List Token) : Prop := e.Open back ∧ e'.Open back'

/-- The closing delimiter is ahead of both cursors. -/
def Cursor.Inside : List Item → Cursor → Cursor → Prop := Cursor.Abreast e e' (e.BothOpen e')

/-- Both cursors stand in front of a shared token, or in front of the closing delimiter. -/
def Cursor.Settled (items : List Item) (c c' : Cursor) : Prop :=
  (∃ t, Cursor.Facing e e' (.token t) items c c') ∨ Cursor.Beyond e e' e.close e'.close items c c'

end States

namespace Cursor

variable {e e' : CommentEnd} {item : Item} {items left : List Item} {c c' d d' : Cursor}
  {back back' : List Token} {t : Token} {T : List Token → List Token → Prop}

theorem Facing.position (h : Facing e e' item items c c') : 0 ≤ c.position ∧ 0 ≤ c'.position := by
  obtain ⟨passed, rest, -, hplace, hplace'⟩ := h.places
  omega

theorem Beyond.position (h : Beyond e e' back back' items c c') :
    0 ≤ c.position ∧ 0 ≤ c'.position := by
  obtain ⟨front, lead, lead', -, -, -, hplace, hplace'⟩ := h.places
  omega

theorem Forked.at (h : Forked e e' items c c') {place place' peek peek' : Int} (hpeek : 0 ≤ peek)
    (hpeek' : 0 ≤ peek') :
    Forked e e' items { c with position := place, peek := peek }
      { c' with position := place', peek := peek' } :=
  ⟨h.view, h.view', hpeek, hpeek'⟩

theorem Settled.inside (h : Settled e e' items c c') : Inside e e' items c c' := by
  rcases h with ⟨t, h⟩ | h
  · exact .inl ⟨.token t, h⟩
  · exact .inr ⟨_, _, ⟨e.open_close, e'.open_close⟩, h⟩

/-- The place behind tokens, whatever is there now. -/
theorem abreast_of_front {passed : List Token} {rest : List Item} (hT : T e.tokens e'.tokens)
    (h : Forked e e' items c c') (hitems : items = passed.map .token ++ rest)
    (hplace : c.position = passed.length) (hplace' : c'.position = passed.length) :
    Abreast e e' T items c c' := by
  cases rest with
  | nil =>
    rw [List.append_nil] at hitems
    exact .inr ⟨_, _, hT,
      ⟨h, passed, [], [], hitems, rfl, rfl, by simpa using hplace, by simpa using hplace'⟩⟩
  | cons item rest => exact .inl ⟨item, ⟨h, passed, rest, hitems, hplace, hplace'⟩⟩

/-- A token that was in front of the cursors is still there when they come back. -/
theorem Facing.restore (h : Facing e e' (.token t) items c c') (hsheds : Sheds items left)
    (hd : Forked e e' left d d') :
    Facing e e' (.token t) left { d with position := c.position, peek := c.position }
      { d' with position := c'.position, peek := c'.position } := by
  have hposition := h.position
  obtain ⟨passed, rest, hitems, hplace, hplace'⟩ := h.places
  obtain ⟨more, hmore⟩ := hsheds.front (passed ++ [t]) ⟨rest, by simp [hitems]⟩
  exact ⟨hd.at hposition.1 hposition.2, passed, more, by simp [← hmore], hplace, hplace'⟩

theorem Beyond.restore (h : Beyond e e' back back' items c c') (hsheds : Sheds items left)
    (hd : Forked e e' left d d') :
    Beyond e e' back back' left { d with position := c.position, peek := c.position }
      { d' with position := c'.position, peek := c'.position } := by
  have hposition := h.position
  obtain ⟨front, lead, lead', hitems, hlead, hlead', hplace, hplace'⟩ := h.places
  refine ⟨hd.at hposition.1 hposition.2, front, lead, lead', ?_, hlead, hlead', hplace, hplace'⟩
  exact (hsheds.all front hitems).trans hitems

/-- The state of two cursors comes back when they are put back to where they stood. -/
def Restores (e e' : CommentEnd) (P : List Item → Cursor → Cursor → Prop) : Prop :=
  ∀ {items left : List Item} {c c' d d' : Cursor}, P items c c' → Sheds items left →
    Forked e e' left d d' → P left { d with position := c.position, peek := c.position }
      { d' with position := c'.position, peek := c'.position }

theorem restores_abreast (hT : T e.tokens e'.tokens) : Restores e e' (Abreast e e' T) := by
  intro items left c c' d d' h hsheds hd
  rcases h with ⟨item, h⟩ | ⟨back, back', hback, h⟩
  · have hposition := h.position
    obtain ⟨passed, rest, hitems, hplace, hplace'⟩ := h.places
    obtain ⟨more, hmore⟩ := hsheds.front passed ⟨item :: rest, hitems.symm⟩
    exact abreast_of_front hT (hd.at hposition.1 hposition.2) hmore.symm hplace hplace'
  · exact .inr ⟨back, back', hback, h.restore hsheds hd⟩

theorem restores_inside : Restores e e' (Inside e e') :=
  restores_abreast ⟨e.open_tokens, e'.open_tokens⟩

theorem restores_settled : Restores e e' (Settled e e') := by
  intro items left c c' d d' h hsheds hd
  rcases h with ⟨t, h⟩ | h
  · exact .inl ⟨t, h.restore hsheds hd⟩
  · exact .inr (h.restore hsheds hd)

end Cursor

end DocComment
