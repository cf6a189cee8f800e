import DocComment.Grammar.Comment
import DocComment.Proofs.Grammar.Keeps
import DocComment.Proofs.Screening.Segmentation

/-!
# Faults that a comment hides

Screening stops at a line that begins like a delimiter and is none. A reader meets such a fault only
when it reads as far, and then the fault is gone. Read by a rule that is tried, it counts as a mere
refusal: the position goes back, the next rule reads on behind the fault, and the comment may be
accepted although its text cannot be screened.

There is no other way to lose a fault: the accepted comments that can be screened are those in which
no rule that a tag tries reads into a fault.
-/

namespace DocComment.Grammar

open Reading (Ends Keeps Leads Steady)
open Screening (Item items)

/-- The cursor shows all items of a text, and its position is under a condition. -/
structure Over (s : Text) (P : Int → Prop) (c : Cursor) : Prop where
  source : c.source = s
  view : c.view = items s
  place : P c.position

/-- There is a token of a kind in front of the place, and there are tokens alone in front of it. -/
def Reached (s : Text) (kind : Kind) (place : Int) : Prop :=
  ∃ (passed : List Token) (t : Token) (behind : List Item),
    items s = passed.map .token ++ .token t :: behind ∧ t.kind = kind ∧ passed.length < place

/-- A view without its first fault, whose cause is that of an error. -/
def LosesFault (e : SyntaxError) (before after : List Item) : Prop :=
  ∃ (passed : List Token) (behind : List Item),
    before = passed.map .token ++ .fault e.cause :: behind ∧ after = passed.map .token ++ behind

/-- The reading is refused for a fault, which the cursor it leaves no longer shows. -/
def MeetsFault {α : Type} (r : Reading α) (c : Cursor) : Prop :=
  ∃ e d, r c = .error (.syntaxError e) d ∧ LosesFault e c.view d.view

/-- No rule that a tag tries meets a fault from a place behind that tag. -/
def Calm (s : Text) : Prop :=
  ∀ name, ∀ rule ∈ speculations name, ∀ c, Over s (Reached s (.tag name)) c → ¬ MeetsFault rule c

/-- A syntax error leaves all items, or all but the fault that it tells of. -/
def Refused (s : Text) (failure : Failure) (d : Cursor) : Prop :=
  ∀ e, failure = .syntaxError e → d.source = s ∧ (d.view = items s ∨ LosesFault e (items s) d.view)

variable {s : Text} {P : Int → Prop}

theorem steady_over (hmove : ∀ place, P place → P (place + 1)) : Steady (Over s P) (Refused s) where
  fetch := by
    refine .fetch (fun c d hc hstill hview => ⟨?_, hview.trans hc.view, ?_⟩) ?_ ?_
    · rw [hstill.source, hc.source]
    · rw [hstill.position]
      exact hc.place
    · rintro c d cause passed behind hc hstill hview hleft e he
      obtain rfl := Failure.syntaxError.inj he
      refine ⟨by rw [hstill.source, hc.source], .inr ⟨passed, behind, ?_, hleft⟩⟩
      rw [← hc.view, hview]
    · rintro c hc e ⟨⟩
  look c place hc := ⟨hc.source, hc.view, hc.place⟩
  fail failure c hc e he := ⟨hc.source, .inl hc.view⟩
  move c hc := ⟨hc.source, hc.view, hmove _ hc.place⟩

theorem steady_start : Steady (Over s (0 ≤ ·)) (Refused s) :=
  steady_over fun place hplace => by omega

theorem steady_reached (kind : Kind) : Steady (Over s (Reached s kind)) (Refused s) := by
  refine steady_over fun place => ?_
  rintro ⟨passed, t, behind, hitems, hkind, hlt⟩
  exact ⟨passed, t, behind, hitems, hkind, by omega⟩

theorem Over.start_of_reached {kind : Kind} {c : Cursor} (h : Over s (Reached s kind) c) :
    Over s (0 ≤ ·) c := by
  obtain ⟨passed, t, behind, -, -, hlt⟩ := h.place
  exact ⟨h.source, h.view, by omega⟩

/-- A buffered token is in front of the items that come after it, and behind tokens alone. -/
theorem Over.reached {c : Cursor} {t : Token} {index : Nat} (h : Over s P c)
    (ht : c.buffer[index]? = some t) {place : Int} (hplace : index < place) :
    Reached s t.kind place := by
  rw [← Array.getElem?_toList] at ht
  obtain ⟨hlt, rfl⟩ := List.getElem?_eq_some_iff.mp ht
  refine ⟨c.buffer.toList.take index, _, (c.buffer.toList.drop (index + 1)).map .token ++ c.pending,
    ?_, rfl, ?_⟩
  · rw [← h.view, Cursor.view, ← List.cons_append, ← List.map_cons, List.getElem_cons_drop,
      ← List.append_assoc, ← List.map_append, List.take_append_drop]
  · rw [List.length_take]
    omega

/-- Moving on from a buffered token reaches behind it. -/
theorem moveNext_reaches {c : Cursor} {t : Token} {index : Nat} (hc : Over s P c)
    (hplace : c.position = index) (ht : c.buffer[index]? = some t) :
    Ends (Over s (Reached s t.kind)) (Refused s) (Cursor.moveNext c) := by
  have hcurrent : Cursor.current c = .ok (some t) c := by
    show Cursor.fetch c.position c = _
    rw [hplace, Cursor.fetch_of_buffered ht]
  have hbehind : (index : Int) < c.position + 1 := by omega
  have hmoved : Over s (Reached s t.kind) { c with position := c.position + 1 } :=
    ⟨hc.source, hc.view, hc.reached ht hbehind⟩
  have hfollow : Keeps (Over s (Reached s t.kind)) (Refused s) (do
      modify fun c => { c with peek := c.position }
      return (← Cursor.current).isSome) :=
    Leads.bind (.modify fun c hc => ⟨hc.source, hc.view, hc.place⟩) fun _ =>
      (steady_reached t.kind).current.bind fun _ => .pure _
  rw [Cursor.moveNext, Reading.bind_of_ok hcurrent]
  exact hfollow _ hmoved

theorem leads_expect (kind : Kind) :
    Leads (Over s (0 ≤ ·)) (Over s (Reached s kind)) (Refused s) (expect kind) := by
  intro c hc
  obtain ⟨index, hindex⟩ := Int.eq_ofNat_of_zero_le hc.place
  have hcurrent : Cursor.current c = Cursor.fetch index c := by
    rw [← hindex]
    rfl
  have hkept := (steady_start (s := s)).fetch index c hc
  rcases Cursor.fetch_cases index c with ⟨d, hfetch, hstill, -⟩ | ⟨d, cause, -, -, hfetch, -⟩
  · rw [hfetch] at hkept
    rw [expect, Reading.bind_of_ok (hcurrent.trans hfetch)]
    cases hfound : d.buffer[index]? with
    | none => exact steady_start.fail _ d hkept
    | some t =>
      dsimp only
      by_cases hkind : t.kind = kind
      · rw [if_pos hkind]
        have hmove := moveNext_reaches hkept (hstill.position.trans hindex) hfound
        exact hkind ▸ hmove.bind fun _ => .pure _
      · rw [if_neg hkind]
        exact steady_start.fail _ d hkept
  · rw [hfetch] at hkept
    rw [expect, Reading.bind_of_error (hcurrent.trans hfetch)]
    exact hkept

theorem leads_pass (kind : Kind) :
    Leads (Over s (0 ≤ ·)) (Over s (Reached s kind)) (Refused s) (pass kind) :=
  (leads_expect kind).bind fun _ => .pure _

/-! ## Calm texts -/

/-- Where no rule that is tried meets a fault, going back from one that is refused loses nothing. -/
theorem Calm.retreats (h : Calm s) {name : TagName} {rule : Reading Text}
    (hrule : rule ∈ speculations name) : Retreats (Over s (Reached s (.tag name))) rule := by
  intro c e d hc hrefused
  have hkept := keeps_speculations (steady_reached (.tag name)) name rule hrule c hc
  rw [hrefused] at hkept
  obtain ⟨hsource, hview⟩ := hkept e rfl
  refine ⟨hsource, hview.resolve_right fun hlost => h name rule hrule c hc ?_, hc.place⟩
  exact ⟨e, d, hrefused, hc.view ▸ hlost⟩

theorem Calm.keeps_blockTag (h : Calm s) (name : TagName) :
    Keeps (Over s (0 ≤ ·)) (Refused s) (blockTag name) := by
  have hsteady := steady_reached (s := s) (.tag name)
  have hbehind : Leads (Over s (0 ≤ ·)) (Over s (Reached s (.tag name))) (Refused s)
      (blockTag name) := by
    refine (leads_pass _).bind fun _ => hsteady.walk.skipBlanks.bind fun _ => ?_
    refine (hsteady.walk.content name fun _ hrule => h.retreats hrule).bind fun content => ?_
    split
    · exact .pure _
    · refine hsteady.walk.skipBlanks.bind fun _ => ?_
      exact hsteady.walk.description.bind fun _ => .pure _
  exact hbehind.imp fun _ => Over.start_of_reached

theorem Calm.leads_comment (h : Calm s) :
    Leads (Over s (0 ≤ ·)) (Over s (Reached s .endOfText)) (Refused s) comment := by
  have hsteady := steady_start (s := s)
  have hround : ∀ document, Keeps (Over s (0 ≤ ·)) (Refused s) (blockTagsRound document) := by
    intro document
    refine hsteady.current.bind fun found => ?_
    split
    · exact (h.keeps_blockTag _).bind fun _ => hsteady.walk.skipBlanks.bind fun _ => .pure _
    · exact .pure _
  refine hsteady.walk.skipBlanks.bind fun _ => (hsteady.walk.pass _).bind fun _ => ?_
  refine hsteady.walk.skipBlanks.bind fun _ => hsteady.walk.description.bind fun prose => ?_
  refine (hsteady.walk.loop hround _).bind fun document => (hsteady.walk.pass _).bind fun _ => ?_
  refine hsteady.walk.skipBlanks.bind fun _ => (leads_pass _).bind fun _ => .pure _

/-- Who has read the mark of the end has read all items. -/
theorem screen_of_reached_end {place : Int} (h : Reached s .endOfText place) :
    ∃ tokens, screen s = .ok tokens := by
  obtain ⟨passed, t, behind, hitems, hkind, -⟩ := h
  obtain rfl := Screening.itemsFrom_endOfText (Token.partition_tokenize s) hitems hkind
  refine ⟨passed ++ [t], screen_eq_ok_iff.mpr ?_⟩
  rw [hitems, List.map_append]
  rfl

theorem over_ofText (s : Text) : Over s (0 ≤ ·) (Cursor.ofText s) :=
  ⟨rfl, by simp [Cursor.view, Cursor.ofText], Int.le_refl 0⟩

theorem Calm.screen_of_comment (h : Calm s) {document : Document}
    (hcomment : comment.onText s = .ok document) : ∃ tokens, screen s = .ok tokens := by
  have hleads := h.leads_comment _ (over_ofText s)
  rw [Reading.onText] at hcomment
  cases hread : comment (Cursor.ofText s) with
  | ok result d =>
    rw [hread] at hleads
    exact screen_of_reached_end hleads.place
  | error failure d =>
    rw [hread] at hcomment
    cases hcomment

theorem Calm.screen_of_parse {text : Text} {document : Document} (h : Calm (Text.strip text))
    (hparse : Document.parse text = .ok document) :
    ∃ tokens, screen (Text.strip text) = .ok tokens := by
  rw [Document.parse] at hparse
  by_cases hblank : Text.strip text = []
  · rw [hblank]
    exact ⟨[⟨.endOfText, [], 0⟩], rfl⟩
  · rw [if_neg hblank] at hparse
    exact h.screen_of_comment hparse

/-- There is no fault to meet in a text that is screened without an error. -/
theorem calm_of_screen {tokens : List Token} (h : screen s = .ok tokens) : Calm s := by
  rintro name rule - c hc ⟨e, d, -, passed, behind, hview, -⟩
  have hmem : Item.fault e.cause ∈ items s := by
    rw [← hc.view, hview]
    simp
  rw [screen_eq_ok_iff.mp h] at hmem
  simp at hmem

/-- A comment whose tags try nothing is accepted only if it can be screened. -/
theorem screen_of_parse_of_plain_tags {text : Text} {document : Document}
    (htags : ∀ t name, Item.token t ∈ items (Text.strip text) → t.kind = .tag name →
      speculations name = [])
    (hparse : Document.parse text = .ok document) :
    ∃ tokens, screen (Text.strip text) = .ok tokens := by
  have hcalm : Calm (Text.strip text) := by
    intro name rule hrule c hc
    obtain ⟨passed, t, behind, hitems, hkind, -⟩ := hc.place
    rw [htags t name (by simp [hitems]) hkind] at hrule
    simp at hrule
  exact hcalm.screen_of_parse hparse

/-- An accepted comment can be screened exactly where no rule that a tag tries meets a fault. -/
theorem parse_ok_screen_ok_iff (text : Text) :
    ((∃ document, Document.parse text = .ok document) →
        ∃ tokens, screen (Text.strip text) = .ok tokens) ↔
      ((∃ document, Document.parse text = .ok document) → Calm (Text.strip text)) := by
  refine forall_congr' fun hparse => ⟨fun ⟨tokens, h⟩ => calm_of_screen h, fun hcalm => ?_⟩
  obtain ⟨document, hdocument⟩ := hparse
  exact hcalm.screen_of_parse hdocument

/-- The version of this tag is no more than tried. It is read into the next line, which begins with
a slash that opens nothing; the fault is lost and the comment accepted. -/
theorem parse_hides_fault :
    ¬ ((∃ document, Document.parse "/**\n * @deprecated 1.0\n /x\n */".toList = .ok document) →
      ∃ tokens, screen (Text.strip "/**\n * @deprecated 1.0\n /x\n */".toList) = .ok tokens) := by
  intro hclaim
  have haccepted : (Document.parse "/**\n * @deprecated 1.0\n /x\n */".toList).isOk = true := by
    decide +kernel
  have hparse : ∃ document, Document.parse "/**\n * @deprecated 1.0\n /x\n */".toList =
      .ok document := by
    cases hresult : Document.parse "/**\n * @deprecated 1.0\n /x\n */".toList with
    | ok document => exact ⟨document, rfl⟩
    | error failure =>
      rw [hresult] at haccepted
      cases haccepted
  obtain ⟨tokens, htokens⟩ := hclaim hparse
  have hmem : Item.fault (.unexpectedToken ⟨.string, ['x'], 25⟩) ∈
      items (Text.strip "/**\n * @deprecated 1.0\n /x\n */".toList) := by decide +kernel
  rw [screen_eq_ok_iff.mp htokens] at hmem
  simp at hmem

end DocComment.Grammar
