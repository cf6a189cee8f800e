import DocComment.Document.Basic
import DocComment.Form.Version
import DocComment.Proofs.Grammar.TypeText

/-!
# Canonical comments

A canonical comment is written from a description and from block tags: one line for each line of
them, behind a star between blanks. Here are the tags that may be written so, how a comment is
written, and the document that it stands for. That it is read back as that document is proved from
these definitions, and none of them looks at how comments are read.
-/

namespace DocComment.Canonical

open Grammar (IsType)
open Screening (closed withMargins)

/-- The text has no blanks at its ends, and no sign in it that means more than text. -/
structure IsPlain (t : Text) : Prop extends Screening.Quiet t where
  stripped : Text.strip t = t
  noBrace : '{' ∉ t

/-- A tag is written as a name and words. -/
inductive Writes : Content → TagName → List Text → Prop
  | api : Writes .api .api []
  | copyright : Writes .copyright .copyright []
  | todo : Writes .todo .todo []
  | package {name : Text} (named : Form.isQualified name = true) :
      Writes (.package name) .package [name]
  | throws {type : Text} (named : Form.isQualified type = true) :
      Writes (.throws type) .throws [type]
  | returns {type : Text} (typed : IsType .whole type) : Writes (.returns type) .returns [type]
  | since {version : Text} (named : Form.isNumberedVersion version = true) :
      Writes (.since version) .since [version]
  | version {version : Text} (named : Form.isNumberedVersion version = true) :
      Writes (.version version) .version [version]
  | param {type name : Text} (typed : IsType .whole type) (named : Form.isVariable name = true) :
      Writes (.param ⟨type, name⟩) .param [type, name]
  | var {type name : Text} (typed : IsType .whole type) (named : Form.isVariable name = true) :
      Writes (.var ⟨type, name⟩) .var [type, name]
  | property {type name : Text} (typed : IsType .whole type)
      (named : Form.isVariable name = true) :
      Writes (.property ⟨⟨type, name⟩, ⟨true, true⟩⟩) .property [type, name]
  | propertyRead {type name : Text} (typed : IsType .whole type)
      (named : Form.isVariable name = true) :
      Writes (.property ⟨⟨type, name⟩, ⟨true, false⟩⟩) .propertyRead [type, name]
  | propertyWrite {type name : Text} (typed : IsType .whole type)
      (named : Form.isVariable name = true) :
      Writes (.property ⟨⟨type, name⟩, ⟨false, true⟩⟩) .propertyWrite [type, name]

/-- A description may follow the words of the tag. -/
def isDescribed : TagName → Bool
  | .api | .package => false
  | _ => true

/-- A block tag that can be written, with its description. -/
structure Block where
  content : Content
  name : TagName
  words : List Text
  description : Text
  writes : Writes content name words
  plain : IsPlain description
  bare : isDescribed name = false → description = []

/-- Whether an empty description is written like any other, or left out with the blank before it. -/
inductive Layout where
  | full
  | tight
deriving DecidableEq

/-! ## How comments are written -/

/-- The layout leaves the description out. -/
def Layout.omits (layout : Layout) (description : Text) : Bool :=
  layout = .tight && description.isEmpty

/-- The description of a tag, and the space before it. -/
def Block.trail (layout : Layout) (b : Block) : Text :=
  if isDescribed b.name && !layout.omits b.description then ' ' :: b.description else []

/-- What follows the name of a tag: its words and its description, each behind a space. -/
def Block.tail (layout : Layout) (b : Block) : Text :=
  b.words.flatMap (' ' :: ·) ++ b.trail layout

/-- A tag as it is written, which may be more than one line. -/
def Block.text (layout : Layout) (b : Block) : Text := '@' :: b.name.word ++ b.tail layout

/-- The description, and then the tags. -/
def paragraphs (layout : Layout) (description : Text) (blocks : List Block) : List Text :=
  (if layout.omits description then [] else [description]) ++ blocks.map (·.text layout)

/-- A line of a comment. -/
def marginLine (line : Text) : Text := " * ".toList ++ line ++ ['\n']

/-- The comment of a description and of tags. -/
def render (layout : Layout) (description : Text) (blocks : List Block) : Text :=
  "/**\n".toList ++
    ((paragraphs layout description blocks).flatMap (Text.splitAt '\n')).flatMap marginLine ++
    " */".toList

/-! ## What comments stand for -/

/-- The tags of a kind, in order and with their descriptions. -/
def pick {α : Type} (choose : Content → Option α) (blocks : List Block) : List (Described α) :=
  blocks.filterMap fun b => (choose b.content).map fun value => ⟨value, b.description, []⟩

/-- The document with a description and with tags. All slots that are not named are empty. -/
def document (description : Text) (blocks : List Block) : Document where
  description := description
  api := (pick (fun | .api => some () | _ => none) blocks).getLast?
  package := (pick (fun | .package name => some name | _ => none) blocks).getLast?
  returns := (pick (fun | .returns type => some type | _ => none) blocks).getLast?
  var := (pick (fun | .var typed => some typed | _ => none) blocks).getLast?
  copyrights := pick (fun | .copyright => some () | _ => none) blocks
  params := pick (fun | .param typed => some typed | _ => none) blocks
  properties := pick (fun | .property property => some property | _ => none) blocks
  since := pick (fun | .since version => some version | _ => none) blocks
  throws := pick (fun | .throws type => some type | _ => none) blocks
  todos := pick (fun | .todo => some () | _ => none) blocks
  versions := pick (fun | .version version => some version | _ => none) blocks

/-- The tag that a block is. -/
def Block.tag (b : Block) : Tag := { content := b.content, description := b.description }

theorem pick_concat {α : Type} (choose : Content → Option α) (blocks : List Block) (b : Block) :
    pick choose (blocks ++ [b]) =
      pick choose blocks ++ ((choose b.content).map (⟨·, b.description, []⟩)).toList := by
  rw [pick, List.filterMap_append]
  cases h : choose b.content <;> simp [pick, h]

theorem document_concat (description : Text) (blocks : List Block) (b : Block) :
    document description (blocks ++ [b]) = (document description blocks).insert b.tag := by
  obtain ⟨content, name, words, text, writes, plain, bare⟩ := b
  cases writes <;> simp [document, pick_concat, Document.insert, Block.tag]

/-- The tags put in one after another make the document. -/
theorem foldl_insert (description : Text) (blocks : List Block) :
    (blocks.map Block.tag).foldl Document.insert { description } = document description blocks := by
  have hafter :
      ∀ before, (blocks.map Block.tag).foldl Document.insert (document description before) =
        document description (before ++ blocks) := by
    induction blocks with
    | nil => intro before; simp
    | cons b blocks ih =>
      intro before
      rw [List.map_cons, List.foldl_cons, ← document_concat, ih, List.append_assoc,
        List.singleton_append]
  exact hafter []

/-! ## Comments as closed texts -/

theorem withMargins_append (s t : Text) : withMargins (s ++ t) = withMargins s ++ withMargins t :=
  List.flatMap_append

theorem flatMap_marginLine (t : Text) :
    (Text.splitAt '\n' t).flatMap marginLine = " * ".toList ++ withMargins t ++ ['\n'] := by
  induction t with
  | nil => rfl
  | cons c t ih =>
    rw [Text.splitAt]
    by_cases hc : c = '\n'
    · subst hc
      rw [if_pos rfl, List.flatMap_cons, ih, marginLine]
      simp [withMargins]
    · rw [if_neg hc]
      cases hsplit : Text.splitAt '\n' t with
      | nil => exact absurd hsplit (Text.splitAt_ne_nil _ _)
      | cons piece pieces =>
        rw [hsplit, List.flatMap_cons, marginLine] at ih
        simp only [List.flatMap_cons, marginLine]
        have hhead : withMargins (c :: t) = c :: withMargins t := by simp [withMargins, hc]
        simp_all

/-- The lines of paragraphs are the lines that they have one after another. -/
theorem flatMap_lines (texts : List Text) :
    '\n' :: (texts.flatMap (Text.splitAt '\n')).flatMap marginLine =
      withMargins (texts.flatMap ('\n' :: ·)) ++ ['\n'] := by
  induction texts with
  | nil => rfl
  | cons t texts ih =>
    have hhead : withMargins ('\n' :: t) = '\n' :: (" * ".toList ++ withMargins t) := rfl
    rw [List.flatMap_cons, List.flatMap_append, flatMap_marginLine, List.flatMap_cons,
      withMargins_append, hhead, List.append_assoc ('\n' :: _), ← ih]
    simp

/-- A comment is its opening delimiter and, up to the end, the text of its paragraphs. -/
theorem render_eq (layout : Layout) (description : Text) (blocks : List Block) :
    render layout description blocks = '/' :: '*' :: '*' ::
      closed ((paragraphs layout description blocks).flatMap ('\n' :: ·)) := by
  have hlines := flatMap_lines (paragraphs layout description blocks)
  have hclosing : "\n */".toList = ['\n'] ++ " */".toList := rfl
  rw [closed, hclosing, ← List.append_assoc, ← hlines]
  rfl

end DocComment.Canonical
