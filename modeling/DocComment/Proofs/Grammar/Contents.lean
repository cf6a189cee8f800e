import DocComment.Grammar.BlockTag
import DocComment.Proofs.Document.WellFormed
import DocComment.Proofs.Grammar.Takes
import DocComment.Proofs.Text.Strip

/-!
# What tags say

`ReadsContent` is the grammar of what stands behind the name of a tag, on tokens: which of them say
it, what they say, and where that ends. The tokens behind it are given as well, since most rules go
on as far as they can.

A type, and the version of a deprecation, may be left out, and what is no link may be an element. Of
a clean text each of them is taken where one stands, so the grammar leaves no choice. Where the text
is at fault a rule may be refused for a fault that another rule does not meet again.
-/

namespace DocComment.Grammar

open Screening (Sound)
open Token (concat)

/-! ## Words -/

def ReadsName : Text → List Token → List Token → Prop := Collects .type (· ∈ [.string, .backslash])

def ReadsLink : Text → List Token → List Token → Prop :=
  Collects .link (· ∉ [.whitespace, .outro, .rightBrace])

def ReadsElement : Text → List Token → List Token → Prop := Collects .element inWord

def ReadsFile : Text → List Token → List Token → Prop := Collects .file (· ≠ .whitespace)

/-- A dollar sign and the strings behind it. -/
inductive ReadsVariable : Text → List Token → List Token → Prop
  | intro {dollar : Token} {name rest : List Token} (opens : dollar.kind = .dollar)
      (run : Run (· = .string) name rest) (form : Form.isVariable ('$' :: concat name) = true) :
      ReadsVariable ('$' :: concat name) (dollar :: name) rest

/-- A variable, or nothing in front of a token that begins none. -/
inductive OptionalVariable : Text → List Token → List Token → Prop
  | named {text : Text} {taken rest : List Token} (said : ReadsVariable text taken rest) :
      OptionalVariable text taken rest
  | unnamed {rest : List Token} (stop : ∀ t ∈ rest.head?, t.kind ≠ .dollar) :
      OptionalVariable [] [] rest

/-- A version is a word. If the word ends in a colon, what a version-control system writes follows
it, from a dollar sign to the next one. -/
inductive ReadsVersion : Text → List Token → List Token → Prop
  | plain {text : Text} {taken rest : List Token} (word : Collects .version inWord text taken rest)
      (complete : text.getLast? ≠ some ':') : ReadsVersion text taken rest
  | system {head : Text} {word blanks inner rest : List Token} {opening closing : Token}
      (said : Collects .version inWord head word (blanks ++ opening :: (inner ++ closing :: rest)))
      (colon : head.getLast? = some ':') (blank : ∀ t ∈ blanks, isBlankKind t.kind = true)
      (opens : opening.kind = .dollar) (free : ∀ t ∈ inner, t.kind ≠ .dollar)
      (closes : closing.kind = .dollar) :
      ReadsVersion (head ++ " $".toList ++ concat inner ++ ['$'])
        (word ++ (blanks ++ opening :: (inner ++ [closing]))) rest

/-- A name, and an email address between angle brackets. -/
inductive ReadsAuthor : Author → List Token → List Token → Prop
  | named {name rest : List Token}
      (run : Run (fun kind => !(kind.isTag || kind ∈ [.leftAngle, .outro])) name rest)
      (stop : ∀ t ∈ rest.head?, t.kind ≠ .leftAngle) :
      ReadsAuthor ⟨Text.strip (concat name), []⟩ name rest
  | addressed {name inner rest : List Token} {opening closing : Token}
      (run : Run (fun kind => !(kind.isTag || kind ∈ [.leftAngle, .outro])) name
        (opening :: (inner ++ closing :: rest)))
      (opens : opening.kind = .leftAngle) (free : ∀ t ∈ inner, t.kind ≠ .rightAngle)
      (address : Form.isEmail (Text.strip (concat inner)) = true)
      (closes : closing.kind = .rightAngle) :
      ReadsAuthor ⟨Text.strip (concat name), Text.strip (concat inner)⟩
        (name ++ opening :: (inner ++ [closing])) rest

/-! ## Types and what they are types of -/

/-- A type up to what ends it. -/
structure ReadsType (text : Text) (taken rest : List Token) : Prop where
  type : TypeTokens .whole text taken
  stop : ∀ t ∈ rest.head?, endsType false t.kind = true

section Clean

variable (clean : Prop)

/-- A type, or nothing where the default is meant. -/
inductive OptionalType (default : Text) : Text → List Token → List Token → Prop
  | written {text : Text} {taken rest : List Token} (said : ReadsType text taken rest) :
      OptionalType default text taken rest
  | omitted {rest : List Token} (absent : Absent clean ReadsType rest) :
      OptionalType default default [] rest

/-- A type and the blanks behind it, or nothing where the default is meant. -/
inductive LeadingType (default : Text) : Text → List Token → List Token → Prop
  | written {text : Text} {taken blanks rest : List Token}
      (said : ReadsType text taken (blanks ++ rest)) (blank : Run isBlankKind blanks rest) :
      LeadingType default text (taken ++ blanks) rest
  | omitted {rest : List Token} (absent : Absent clean ReadsType rest) :
      LeadingType default default [] rest

inductive ReadsTypedName : TypedName → List Token → List Token → Prop
  | intro {type name : Text} {lead word rest : List Token}
      (typed : LeadingType clean "mixed".toList type lead (word ++ rest))
      (named : OptionalVariable name word rest) : ReadsTypedName ⟨type, name⟩ (lead ++ word) rest

inductive ReadsProperty (access : Access) : Property → List Token → List Token → Prop
  | intro {type name : Text} {lead word rest : List Token}
      (typed : LeadingType clean "mixed".toList type lead (word ++ rest))
      (named : ReadsVariable name word rest) :
      ReadsProperty access { type, name, access } (lead ++ word) rest

/-- A type that may be left out, and a variable, each with the blanks behind it. -/
inductive ReadsArgument : TypedName → List Token → List Token → Prop
  | intro {type name : Text} {lead blanks word more rest : List Token}
      (typed : OptionalType clean "mixed".toList type lead (blanks ++ (word ++ (more ++ rest))))
      (inner : Run isBlankKind blanks (word ++ (more ++ rest)))
      (named : ReadsVariable name word (more ++ rest)) (outer : Run isBlankKind more rest) :
      ReadsArgument ⟨type, name⟩ (lead ++ (blanks ++ (word ++ more))) rest

/-- Arguments with commas between them. There may be a comma behind the last one. -/
inductive ReadsArguments : List TypedName → List Token → List Token → Prop
  | none {rest : List Token} (stop : ∀ t ∈ rest.head?, t.kind = .rightParen) :
      ReadsArguments [] [] rest
  | last {argument : TypedName} {taken rest : List Token}
      (said : ReadsArgument clean argument taken rest)
      (stop : ∀ t ∈ rest.head?, t.kind ≠ .comma) : ReadsArguments [argument] taken rest
  | more {argument : TypedName} {arguments : List TypedName} {taken blanks others rest : List Token}
      {comma : Token}
      (said : ReadsArgument clean argument taken (comma :: (blanks ++ (others ++ rest))))
      (separates : comma.kind = .comma) (blank : Run isBlankKind blanks (others ++ rest))
      (more : ReadsArguments arguments others rest) :
      ReadsArguments (argument :: arguments) (taken ++ comma :: (blanks ++ others)) rest

/-- A type that may be left out, a name up to the first parenthesis, and arguments up to the
closing one. -/
inductive ReadsSignature : Signature → List Token → List Token → Prop
  | intro {returnType : Text} {arguments : List TypedName}
      {lead name blanks list rest : List Token} {opening closing : Token}
      (typed : LeadingType clean "void".toList returnType lead
        (name ++ opening :: (blanks ++ (list ++ closing :: rest))))
      (free : ∀ t ∈ name, t.kind ≠ .leftParen) (form : Form.isIdentifier (concat name) = true)
      (opens : opening.kind = .leftParen)
      (blank : Run isBlankKind blanks (list ++ closing :: rest))
      (said : ReadsArguments clean arguments list (closing :: rest))
      (closes : closing.kind = .rightParen) :
      ReadsSignature { returnType, name := concat name, arguments }
        (lead ++ (name ++ opening :: (blanks ++ (list ++ [closing])))) rest

/-! ## References -/

/-- A link, or else an element. -/
inductive ReadsReference : Text → List Token → List Token → Prop
  | link {text : Text} {taken rest : List Token} (said : ReadsLink text taken rest) :
      ReadsReference text taken rest
  | element {text : Text} {taken rest : List Token}
      (absent : Absent clean ReadsLink (taken ++ rest))
      (said : ReadsElement text taken rest) : ReadsReference text taken rest

/-- A link, or else an element, or else a file. -/
inductive ReadsUsage : Text → List Token → List Token → Prop
  | link {text : Text} {taken rest : List Token} (said : ReadsLink text taken rest) :
      ReadsUsage text taken rest
  | element {text : Text} {taken rest : List Token}
      (absent : Absent clean ReadsLink (taken ++ rest))
      (said : ReadsElement text taken rest) : ReadsUsage text taken rest
  | file {text : Text} {taken rest : List Token} (noLink : Absent clean ReadsLink (taken ++ rest))
      (absent : Absent clean ReadsElement (taken ++ rest)) (said : ReadsFile text taken rest) :
      ReadsUsage text taken rest

/-! ## Contents -/

/-- What the name of a tag wants, what is said in its place, the tokens that say it, and the tokens
behind them. -/
inductive ReadsContent : TagName → Content → List Token → List Token → Prop
  | api {rest : List Token} : ReadsContent .api .api [] rest
  | author {a : Author} {taken rest : List Token} (said : ReadsAuthor a taken rest) :
      ReadsContent .author (.author a) taken rest
  | copyright {rest : List Token} : ReadsContent .copyright .copyright [] rest
  | deprecated {v : Text} {taken rest : List Token} (said : ReadsVersion v taken rest) :
      ReadsContent .deprecated (.deprecated v) taken rest
  | deprecatedEver {rest : List Token} (absent : Absent clean ReadsVersion rest) :
      ReadsContent .deprecated (.deprecated []) [] rest
  | inheritDoc {rest : List Token} : ReadsContent .inheritDoc .inheritDoc [] rest
  | internal {rest : List Token} : ReadsContent .internal .internal [] rest
  | link {target : Text} {taken rest : List Token} (said : ReadsLink target taken rest) :
      ReadsContent .link (.link target) taken rest
  | method {m : Signature} {taken rest : List Token} (said : ReadsSignature clean m taken rest) :
      ReadsContent .method (.method m) taken rest
  | package {name : Text} {taken rest : List Token} (said : ReadsName name taken rest) :
      ReadsContent .package (.package name) taken rest
  | param {typed : TypedName} {taken rest : List Token}
      (said : ReadsTypedName clean typed taken rest) : ReadsContent .param (.param typed) taken rest
  | property {p : Property} {taken rest : List Token}
      (said : ReadsProperty clean ⟨true, true⟩ p taken rest) :
      ReadsContent .property (.property p) taken rest
  | propertyRead {p : Property} {taken rest : List Token}
      (said : ReadsProperty clean ⟨true, false⟩ p taken rest) :
      ReadsContent .propertyRead (.property p) taken rest
  | propertyWrite {p : Property} {taken rest : List Token}
      (said : ReadsProperty clean ⟨false, true⟩ p taken rest) :
      ReadsContent .propertyWrite (.property p) taken rest
  | returns {type : Text} {taken rest : List Token} (said : ReadsType type taken rest) :
      ReadsContent .returns (.returns type) taken rest
  | see {reference : Text} {taken rest : List Token}
      (said : ReadsReference clean reference taken rest) :
      ReadsContent .see (.see reference) taken rest
  | since {v : Text} {taken rest : List Token} (said : ReadsVersion v taken rest) :
      ReadsContent .since (.since v) taken rest
  | throws {type : Text} {taken rest : List Token} (said : ReadsName type taken rest) :
      ReadsContent .throws (.throws type) taken rest
  | todo {rest : List Token} : ReadsContent .todo .todo [] rest
  | usedBy {reference : Text} {taken rest : List Token}
      (said : ReadsUsage clean reference taken rest) :
      ReadsContent .usedBy (.usedBy reference) taken rest
  | uses {reference : Text} {taken rest : List Token}
      (said : ReadsUsage clean reference taken rest) :
      ReadsContent .uses (.uses reference) taken rest
  | var {typed : TypedName} {taken rest : List Token}
      (said : ReadsTypedName clean typed taken rest) : ReadsContent .var (.var typed) taken rest
  | version {v : Text} {taken rest : List Token} (said : ReadsVersion v taken rest) :
      ReadsContent .version (.version v) taken rest

end Clean

/-! ## What is read is well-formed -/

variable {clean : Prop} {text default : Text} {tokens taken rest : List Token} {content : Content}
  {name : TagName}

/-- A version whose last character is a colon is the name of a version-control system. -/
theorem isSystemVersion_of_colon {v : Text} (h : Form.isVersion v = true)
    (hcolon : v.getLast? = some ':') : Form.isSystemVersion v = true := by
  have hmarked : ∀ mark, mark ≠ ':' → Form.isMarkedVersion mark v ≠ true := by
    intro mark hmark hv
    unfold Form.isMarkedVersion at hv
    split at hv
    case h_1 first rest =>
      simp only [Bool.and_eq_true, decide_eq_true_eq] at hv
      have hlast : (first :: rest).getLast? = some mark := by
        rw [List.getLast?_cons, hv.1.1.2]
        rfl
      exact hmark (Option.some.inj (hlast.symm.trans hcolon))
    case h_2 => cases hv
  simp only [Form.isVersion, Bool.or_eq_true] at h
  rcases h with ((hnumber | hmark) | hmark) | hsystem
  · have hchar := (Form.chars_of_isNumberedVersion hnumber).2 ':' (List.mem_of_getLast? hcolon)
    cases hchar
  · exact absurd hmark (hmarked '@' (by decide))
  · exact absurd hmark (hmarked '$' (by decide))
  · exact hsystem

/-- What a version-control system writes ends with the first dollar sign behind it. -/
theorem ReadsVersion.wellFormed (h : ReadsVersion text taken rest)
    (hsound : Sound (taken ++ rest)) :
    IsVersionText text := by
  cases h with
  | plain word complete => exact .inl ⟨word.form, complete⟩
  | @system head word blanks inner _ opening closing said colon blank opens free closes =>
    right
    have hsystem := isSystemVersion_of_colon said.form colon
    obtain ⟨system, hhead⟩ := List.getLast?_eq_some_iff.mp colon
    simp only [Form.isSystemVersion, Bool.and_eq_true, decide_eq_true_eq, hhead,
      List.dropLast_concat] at hsystem
    refine ⟨system, concat inner, by simp [hhead], hsystem.1.2, hsystem.2, fun hdollar => ?_⟩
    obtain ⟨t, ht, hmem⟩ := List.mem_flatMap.mp hdollar
    exact free t ht (hsound.plain t (by simp [ht]) '$' hmem .dollar rfl (by decide))

theorem ReadsAuthor.wellFormed {a : Author} (h : ReadsAuthor a taken rest) :
    (Content.author a).WellFormed := by
  cases h with
  | named => exact ⟨Text.strip_strip _, .inl rfl⟩
  | addressed _ _ _ address => exact ⟨Text.strip_strip _, .inr address⟩

theorem ReadsVariable.form (h : ReadsVariable text taken rest) : Form.isVariable text = true := by
  cases h with
  | intro _ _ form => exact form

theorem OptionalVariable.form (h : OptionalVariable text taken rest) :
    text = [] ∨ Form.isVariable text = true := by
  cases h with
  | named said => exact .inr said.form
  | unnamed => exact .inl rfl

/-- The name of a class is a type. -/
theorem isType_of_isQualified (h : Form.isQualified text = true) : IsType .whole text := by
  have hlast := IsType.last 0 (.name text h)
  rwa [bracketPairs, List.append_nil] at hlast

theorem OptionalType.isType (h : OptionalType clean default text taken rest)
    (hdefault : Form.isQualified default = true) (hsigns : SignsPlain taken) :
    IsType .whole text := by
  cases h with
  | written said => exact said.type.isType hsigns
  | omitted => exact isType_of_isQualified hdefault

theorem LeadingType.isType (h : LeadingType clean default text taken rest)
    (hdefault : Form.isQualified default = true) (hsigns : SignsPlain taken) :
    IsType .whole text := by
  cases h with
  | written said => exact said.type.isType hsigns.left
  | omitted => exact isType_of_isQualified hdefault

theorem ReadsTypedName.wellFormed {typed : TypedName} (h : ReadsTypedName clean typed taken rest)
    (hsigns : SignsPlain taken) : (Content.param typed).WellFormed := by
  cases h with
  | intro typed named => exact ⟨typed.isType (by decide) hsigns.left, named.form⟩

theorem ReadsProperty.wellFormed {access : Access} {p : Property}
    (h : ReadsProperty clean access p taken rest) (hsigns : SignsPlain taken) :
    (Content.property p).WellFormed := by
  cases h with
  | intro typed named => exact ⟨typed.isType (by decide) hsigns.left, named.form⟩

theorem ReadsArgument.wellFormed {a : TypedName} (h : ReadsArgument clean a taken rest)
    (hsigns : SignsPlain taken) : IsType .whole a.type ∧ Form.isVariable a.name = true := by
  cases h with
  | intro typed _ named _ => exact ⟨typed.isType (by decide) hsigns.left, named.form⟩

theorem ReadsArguments.wellFormed {arguments : List TypedName}
    (h : ReadsArguments clean arguments taken rest) (hsigns : SignsPlain taken) :
    ∀ a ∈ arguments, IsType .whole a.type ∧ Form.isVariable a.name = true := by
  induction h with
  | none => simp
  | last said => simpa using said.wellFormed hsigns
  | @more _ _ _ blanks _ _ comma said _ _ _ ih =>
    exact List.forall_mem_cons.mpr ⟨said.wellFormed hsigns.left, ih hsigns.right.tail.right⟩

theorem ReadsSignature.wellFormed {m : Signature} (h : ReadsSignature clean m taken rest)
    (hsigns : SignsPlain taken) : (Content.method m).WellFormed := by
  cases h with
  | @intro _ _ _ _ blanks _ _ opening _ typed _ form _ _ said =>
    have hlist := hsigns.right.right.tail.right
    exact ⟨typed.isType (by decide) hsigns.left, form, said.wellFormed hlist.left⟩

/-- A text with no characters is no address and no element. -/
theorem ne_nil_of_isUri (h : Form.isUri text = true) : text ≠ [] := by
  rintro rfl
  cases h

theorem ne_nil_of_isElement (h : Form.isElement text = true) : text ≠ [] := by
  rintro rfl
  revert h
  decide

/-- The path of a file may be empty, but there is a token to take. -/
theorem ReadsFile.ne_nil (h : ReadsFile text taken rest) (hsound : Sound (taken ++ rest))
    (hsolid : ∀ t ∈ (taken ++ rest).head?, t.kind ≠ .whitespace) (hrest : rest ≠ []) :
    text ≠ [] := by
  intro hnil
  cases taken with
  | nil =>
    obtain ⟨t, behind, rfl⟩ := List.exists_cons_of_ne_nil hrest
    have hstop := h.run.stop t rfl
    rw [decide_eq_false_iff_not, Decidable.not_not] at hstop
    exact hsolid t rfl hstop
  | cons t taken =>
    have htext : t.text = [] := (List.append_eq_nil_iff.mp (h.text.symm.trans hnil)).1
    have hend := hsound.nonempty t (by simp) htext
    exact hrest (List.append_eq_nil_iff.mp (hsound.last [] t (taken ++ rest) rfl hend)).2

theorem ReadsReference.wellFormed (h : ReadsReference clean text taken rest) :
    (Content.see text).WellFormed := by
  cases h with
  | link said => exact .inl said.form
  | element _ said => exact .inr said.form

theorem ReadsReference.text_eq (h : ReadsReference clean text taken rest) :
    text = concat taken := by
  cases h with
  | link said | element _ said => exact said.text

theorem ReadsUsage.text_eq (h : ReadsUsage clean text taken rest) : text = concat taken := by
  cases h with
  | link said | element _ said | file _ _ said => exact said.text

theorem ReadsUsage.wellFormed (h : ReadsUsage clean text taken rest)
    (hsound : Sound (taken ++ rest)) (hsolid : ∀ t ∈ (taken ++ rest).head?, t.kind ≠ .whitespace)
    (hrest : rest ≠ []) :
    (Content.uses text).WellFormed := by
  cases h with
  | link said => exact ⟨ne_nil_of_isUri said.form, .inl said.form⟩
  | element _ said => exact ⟨ne_nil_of_isElement said.form, .inr (.inl said.form)⟩
  | file _ _ said => exact ⟨said.ne_nil hsound hsolid hrest, .inr (.inr said.form)⟩

/-- What a tag says is well-formed, if a token is left to end its description. -/
theorem ReadsContent.wellFormed (h : ReadsContent clean name content taken rest)
    (hsound : Sound (taken ++ rest))
    (hsolid : ∀ t ∈ (taken ++ rest).head?, t.kind ≠ .whitespace)
    (hrest : isBare name = false → rest ≠ []) : content.WellFormed := by
  have hsigns : SignsPlain taken := SignsPlain.left hsound.sign
  cases h with
  | api | copyright | inheritDoc | internal | todo => trivial
  | deprecatedEver => exact .inl rfl
  | author said => exact said.wellFormed
  | deprecated said => exact .inr (said.wellFormed hsound)
  | since said | version said => exact said.wellFormed hsound
  | link said | package said | throws said => exact said.form
  | method said => exact said.wellFormed hsigns
  | param said | var said => exact said.wellFormed hsigns
  | property said | propertyRead said | propertyWrite said => exact said.wellFormed hsigns
  | returns said => exact said.type.isType hsigns
  | see said => exact said.wellFormed
  | usedBy said | uses said => exact said.wellFormed hsound hsolid (hrest rfl)

end DocComment.Grammar
