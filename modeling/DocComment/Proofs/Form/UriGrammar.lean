import DocComment.Form.Uri
import DocComment.Proofs.Form.HostName

/-!
# The grammar of absolute URIs

`Uri` writes down what a URI without brackets looks like: a scheme, then an authority and a path,
which are cut off by the signs behind them, and then anything. User data is in front of the last at
sign of the authority, and a number may be behind the first colon of the rest. What the other parts
have to be depends on the scheme.
-/

namespace DocComment.Form

/-- ASCII letters, digits and these signs. -/
def UriChar (c : Char) : Prop :=
  c.isAlphanum = true ∨ c ∈ ['-', '.', '_', '~', ':', '/', '?', '#', '@', '!', '$', '&', '\x27',
    '(', ')', '*', '+', ',', ';', '=', '%']

inductive Scheme : Text → Prop where
  | letter {c : Char} {t : Text} (first : c.isAlpha = true)
      (others : ∀ d ∈ t, d.isAlphanum = true ∨ d ∈ ['+', '-', '.']) : Scheme (c :: t)

/-- The text behind a scheme, with its authority and its path. A path ends in front of a query or a
fragment. -/
inductive Divides : (rest authority path : Text) → Prop where
  | withAuthority {authority path behind : Text} (inside : ∀ c ∈ authority, c ∉ ['/', '?', '#'])
      (outside : ∀ c ∈ (path ++ behind).head?, c ∈ ['/', '?', '#'])
      (onPath : ∀ c ∈ path, c ∉ ['?', '#']) (offPath : ∀ c ∈ behind.head?, c ∈ ['?', '#']) :
      Divides ("//".toList ++ (authority ++ (path ++ behind))) authority path
  | withoutAuthority {path behind : Text} (none : ¬"//".toList <+: path ++ behind)
      (onPath : ∀ c ∈ path, c ∉ ['?', '#'])
      (offPath : ∀ c ∈ behind.head?, c ∈ ['?', '#']) : Divides (path ++ behind) [] path

/-- The text is what follows the last at sign of an authority, or all of it. -/
def BehindUser (authority place : Text) : Prop :=
  '@' ∉ place ∧ (authority = place ∨ ∃ user, authority = user ++ '@' :: place)

/-- Nothing, or a number below 65536. -/
def PortNumber (port : Text) : Prop :=
  port = [] ∨ (∀ c ∈ port, c.isDigit = true) ∧ decimalValue port ≤ 65535

/-- What follows the first colon, if there is one, may be a port. -/
def PortAllowed (place : Text) : Prop :=
  ∀ name port, place = name ++ ':' :: port → ':' ∉ name → PortNumber port

/-- A host name, and maybe a colon and digits. -/
inductive Place : Text → Prop where
  | host {labels : List Text} {name : Text} (nonempty : labels ≠ [])
      (joins : JoinsLabels labels name) : Place name
  | hostAndPort {labels : List Text} {name port : Text} (nonempty : labels ≠ [])
      (joins : JoinsLabels labels name)
      (some : port ≠ []) (digits : ∀ c ∈ port, c.isDigit = true) : Place (name ++ ':' :: port)

/-- The scheme names no host. -/
def Hostless (scheme : Text) : Prop :=
  scheme.map Char.toLower ∈ ["mailto".toList, "news".toList, "tel".toList, "urn".toList]

/-- What the parts of a URI have to be for its scheme. -/
inductive Suits (scheme authority path place : Text) : Prop where
  | hostless (known : Hostless scheme) (some : authority ≠ [] ∨ path ≠ [])
  | file (known : scheme.map Char.toLower = "file".toList) (none : authority = [])
      (root : path.head? = some '/')
  | hosted (other : ¬Hostless scheme) (named : Place place)

/-- An absolute URI without brackets. -/
inductive Uri : Text → Prop where
  | join {scheme rest authority path place : Text} (chars : ∀ c ∈ scheme ++ ':' :: rest, UriChar c)
      (scheme_ok : Scheme scheme) (divides : Divides rest authority path)
      (behind : BehindUser authority place) (port : PortAllowed place)
      (suits : Suits scheme authority path place) : Uri (scheme ++ ':' :: rest)

variable {t scheme rest authority path place : Text}

/-! ## Characters and schemes -/

theorem isUriChar_iff {c : Char} (hopen : c ≠ '[') (hclose : c ≠ ']') :
    isUriChar c = true ↔ UriChar c := by
  have hsigns : "-._~:/?#[]@!$&'()*+,;=%".toList =
    ['-', '.', '_', '~', ':', '/', '?', '#', '[', ']', '@', '!', '$',
    '&', '\x27', '(', ')', '*', '+', ',', ';', '=', '%'] := by decide
  rw [isUriChar, UriChar, hsigns, Bool.or_eq_true, decide_eq_true_eq]
  simp [hopen, hclose]

theorem isScheme_iff : isScheme t = true ↔ Scheme t := by
  constructor
  · intro h
    unfold isScheme at h
    split at h
    case h_1 => cases h
    case h_2 c rest =>
      rw [Bool.and_eq_true, List.all_eq_true] at h
      exact .letter h.1 fun d hd => by simpa using h.2 d hd
  · rintro ⟨first, others⟩
    rw [isScheme, Bool.and_eq_true, List.all_eq_true]
    exact ⟨first, fun d hd => by simpa using others d hd⟩

theorem Scheme.chars (h : Scheme scheme) :
    ∀ c ∈ scheme, c.isAlphanum = true ∨ c ∈ ['+', '-', '.'] := by
  cases h with
  | letter first others =>
    rw [List.forall_mem_cons]
    exact ⟨.inl (by rw [Char.isAlphanum, first, Bool.true_or]), others⟩

/-- A scheme is ASCII, where the lower case of a text is that of its characters. -/
theorem Scheme.lower_eq (h : Scheme scheme) : scheme.lower = scheme.map Char.toLower := by
  rw [Text.lower, List.map_inj_left]
  intro c hc
  have hkelvin : c ≠ '\u212A' := by
    rintro rfl
    exact absurd (h.chars _ hc) (by decide)
  rw [Text.lowerChar, if_neg hkelvin]

/-! ## Parts -/

theorem cutAuthority_slashes (more : Text) :
    cutAuthority ("//".toList ++ more) =
      (more.takeWhile (· ∉ ['/', '?', '#']),
        more.drop (more.takeWhile (· ∉ ['/', '?', '#'])).length) := rfl

theorem cutAuthority_of_bare (h : ¬"//".toList <+: rest) : cutAuthority rest = ([], rest) := by
  unfold cutAuthority
  split
  case h_1 more => exact absurd ⟨more, rfl⟩ h
  case h_2 => rfl

theorem takeWhile_not_mem_iff {signs : List Char} {front back : Text} :
    (front ++ back).takeWhile (· ∉ signs) = front ↔
    (∀ c ∈ front, c ∉ signs) ∧ ∀ c ∈ back.head?, c ∈ signs := by
  rw [takeWhile_eq_iff]
  simp

/-- Every text is cut at the first of some signs. -/
theorem exists_cut (signs : List Char) (t : Text) :
    ∃ front back, t = front ++ back ∧ t.takeWhile (· ∉ signs) = front ∧ (∀ c ∈ front, c ∉ signs) ∧
      ∀ c ∈ back.head?, c ∈ signs := by
  have hcut : t.takeWhile (· ∉ signs) ++ t.dropWhile (· ∉ signs) = t :=
    List.takeWhile_append_dropWhile
  exact ⟨_, _, hcut.symm, rfl, takeWhile_not_mem_iff.mp (by rw [hcut])⟩

theorem divides_iff :
    Divides rest authority path ↔
      (cutAuthority rest).1 = authority ∧
      (cutAuthority rest).2.takeWhile (· ∉ ['?', '#']) = path := by
  constructor
  · intro h
    cases h with
    | withAuthority inside outside onPath offPath =>
      rw [cutAuthority_slashes, takeWhile_not_mem_iff.mpr ⟨inside, outside⟩, List.drop_left]
      exact ⟨rfl, takeWhile_not_mem_iff.mpr ⟨onPath, offPath⟩⟩
    | withoutAuthority none onPath offPath =>
      rw [cutAuthority_of_bare none]
      exact ⟨rfl, takeWhile_not_mem_iff.mpr ⟨onPath, offPath⟩⟩
  · rintro ⟨rfl, rfl⟩
    by_cases hslashes : "//".toList <+: rest
    · obtain ⟨more, rfl⟩ := hslashes
      obtain ⟨authority, tail, rfl, htake, inside, outside⟩ := exists_cut ['/', '?', '#'] more
      obtain ⟨path, behind, rfl, hpath, onPath, offPath⟩ := exists_cut ['?', '#'] tail
      rw [cutAuthority_slashes, htake, List.drop_left, hpath]
      exact .withAuthority inside outside onPath offPath
    · obtain ⟨path, behind, rfl, hpath, onPath, offPath⟩ := exists_cut ['?', '#'] rest
      rw [cutAuthority_of_bare hslashes, hpath]
      exact .withoutAuthority hslashes onPath offPath

theorem behindUser_iff : BehindUser authority place ↔ hostAndPort authority = place := by
  rw [BehindUser, hostAndPort]
  constructor
  · rintro ⟨hsingle, rfl | ⟨user, rfl⟩⟩
    · rw [Text.cutLast?_eq_none.mpr hsingle]
    · rw [Text.cutLast?_eq_some.mpr ⟨rfl, hsingle⟩]
  · intro h
    split at h
    case h_1 user back hcut =>
      obtain ⟨rfl, hback⟩ := Text.cutLast?_eq_some.mp hcut
      subst h
      exact ⟨hback, .inr ⟨user, rfl⟩⟩
    case h_2 hcut =>
      subst h
      exact ⟨Text.cutLast?_eq_none.mp hcut, .inl rfl⟩

/-! ## Hosts and ports -/

/-- Where there are no brackets, the first colon divides the host from the port. -/
theorem host_portDigits (hplace : hostAndPort authority = place) (hbracket : '[' ∉ place) :
    (host authority, portDigits authority) = cutOrAll ':' place := by
  rw [host, portDigits, hplace]
  simp only [Text.cutFirst?_eq_none.mpr hbracket]

theorem cutOrAll_of_mem {name port : Text} (h : ':' ∉ name) :
    cutOrAll ':' (name ++ ':' :: port) = (name, port) := by
  rw [cutOrAll, Text.cutFirst?_append h, Option.getD_some]

theorem cutOrAll_of_not_mem (h : ':' ∉ t) : cutOrAll ':' t = (t, []) := by
  rw [cutOrAll, Text.cutFirst?_eq_none.mpr h, Option.getD_none]

theorem hasPort_iff_portNumber : hasPort authority = true ↔ PortNumber (portDigits authority) := by
  rw [hasPort, PortNumber, Bool.or_eq_true, Bool.and_eq_true, decide_eq_true_eq, decide_eq_true_eq,
    List.all_eq_true]

theorem append_colon_inj {name port name' port' : Text}
    (h : name ++ ':' :: port = name' ++ ':' :: port') (hname : ':' ∉ name) (hname' : ':' ∉ name') :
    name = name' ∧ port = port' := by
  have hcut := Text.cutFirst?_append hname port
  rw [h, Text.cutFirst?_append hname'] at hcut
  exact Prod.mk.inj (Option.some.inj hcut.symm)

theorem portAllowed_append {name port : Text} (h : ':' ∉ name) :
    PortAllowed (name ++ ':' :: port) ↔ PortNumber port := by
  refine ⟨fun hallowed => hallowed name port rfl h, fun hport name' port' heq hname' => ?_⟩
  rwa [← (append_colon_inj heq h hname').2]

theorem portAllowed_of_not_mem (h : ':' ∉ place) : PortAllowed place := by
  rintro name port rfl
  exact absurd (by simp) h

theorem hasPort_iff (hplace : hostAndPort authority = place) (hbracket : '[' ∉ place) :
    hasPort authority = true ↔ PortAllowed place := by
  have hparts := host_portDigits hplace hbracket
  rw [hasPort_iff_portNumber]
  by_cases hmem : ':' ∈ place
  · obtain ⟨name, port, rfl, hname⟩ := List.eq_append_cons_of_mem hmem
    rw [cutOrAll_of_mem hname] at hparts
    rw [portAllowed_append hname, (Prod.mk.inj hparts).2]
  · rw [cutOrAll_of_not_mem hmem] at hparts
    rw [(Prod.mk.inj hparts).2]
    exact ⟨fun _ => portAllowed_of_not_mem hmem, fun _ => .inl rfl⟩

theorem JoinsLabels.no_colon {labels : List Text} (h : JoinsLabels labels t) : ':' ∉ t :=
  fun hmem => absurd (h.chars _ hmem) (by decide)

theorem JoinsLabels.ne_nil {labels : List Text} (h : JoinsLabels labels t) (hne : labels ≠ []) :
    t ≠ [] := by
  rintro rfl
  have hlabels : labels = [[]] := (h.hostLabels_eq hne).symm
  exact (h.label [] (hlabels ▸ List.mem_singleton.mpr rfl)).nonempty rfl

/-- A host name, with a port behind it where one is asked for. -/
theorem place_append {name port : Text} (hname : ':' ∉ name) (hport : PortNumber port) :
    Place (name ++ ':' :: port) ↔ isHostName name = true ∧ port ≠ [] := by
  rw [isHostName_iff]
  constructor
  · intro h
    generalize hplace : name ++ ':' :: port = place at h
    cases h with
    | host nonempty joins =>
      subst hplace
      exact absurd (by simp) joins.no_colon
    | hostAndPort nonempty joins some digits =>
      obtain ⟨rfl, rfl⟩ := append_colon_inj hplace hname joins.no_colon
      exact ⟨⟨_, nonempty, joins⟩, some⟩
  · rintro ⟨⟨labels, nonempty, joins⟩, some⟩
    exact .hostAndPort nonempty joins some (hport.resolve_left some).1

theorem place_of_not_mem (h : ':' ∉ place) : Place place ↔ isHostName place = true := by
  rw [isHostName_iff]
  constructor
  · rintro (⟨nonempty, joins⟩ | _)
    · exact ⟨_, nonempty, joins⟩
    · simp at h
  · rintro ⟨labels, nonempty, joins⟩
    exact .host nonempty joins

theorem isHostName_iff_ne_nil : isHostName t = true ↔ t ≠ [] ∧ isHostName t = true := by
  refine ⟨fun h => ⟨?_, h⟩, And.right⟩
  obtain ⟨labels, hne, hjoins⟩ := isHostName_iff.mp h
  exact hjoins.ne_nil hne

theorem BehindUser.getLast?_eq (h : BehindUser authority place) (hne : place ≠ []) :
    authority.getLast? = place.getLast? := by
  rcases h.2 with rfl | ⟨user, rfl⟩
  · rfl
  · obtain ⟨c, init, rfl⟩ := List.exists_cons_of_ne_nil hne
    rw [List.append_cons, List.getLast?_append, List.getLast?_cons, Option.some_or]

/-- What is asked of the host where the scheme does not say that there is none. -/
theorem namesHost_iff (hplace : BehindUser authority place) (hbracket : '[' ∉ place)
    (hport : PortAllowed place) :
    (host authority ≠ [] && !(portDigits authority = [] && authority.getLast? = some ':') &&
      if (host authority).contains ':' then isAddress (host authority) else
      isHostName (host authority)) = true ↔ Place place := by
  have hparts := host_portDigits (behindUser_iff.mp hplace) hbracket
  by_cases hmem : ':' ∈ place
  · obtain ⟨name, port, rfl, hname⟩ := List.eq_append_cons_of_mem hmem
    rw [cutOrAll_of_mem hname] at hparts
    obtain ⟨hhost, hdigits⟩ := Prod.mk.inj hparts
    have hlast : port = [] → authority.getLast? = some ':' := by
      rintro rfl
      rw [hplace.getLast?_eq (by simp), List.getLast?_concat]
    rw [place_append hname ((portAllowed_append hname).mp hport), isHostName_iff_ne_nil,
      hhost, hdigits]
    by_cases hport : port = []
    · simp [hport, hlast hport]
    · simp [hport, hname]
  · rw [cutOrAll_of_not_mem hmem] at hparts
    obtain ⟨hhost, hdigits⟩ := Prod.mk.inj hparts
    rw [place_of_not_mem hmem, isHostName_iff_ne_nil, hhost, hdigits]
    by_cases hne : place = []
    · simp [hne]
    · have hlast : authority.getLast? ≠ some ':' := by
        rw [hplace.getLast?_eq hne]
        exact fun hcolon => hmem (List.mem_of_getLast? hcolon)
      simp [hne, hlast, hmem]

/-! ## URIs -/

theorem hostless_iff (h : Scheme scheme) : scheme.lower ∈ opaqueSchemes ↔ Hostless scheme := by
  rw [h.lower_eq]
  rfl

theorem BehindUser.mem (h : BehindUser authority place) : ∀ c ∈ place, c ∈ authority := by
  rcases h.2 with rfl | ⟨user, rfl⟩
  · exact fun _ hc => hc
  · exact fun _ hc => List.mem_append_right _ (List.mem_cons_of_mem _ hc)

theorem Divides.mem (h : Divides rest authority path) : ∀ c ∈ authority, c ∈ rest := by
  cases h with
  | withAuthority => exact fun _ hc => List.mem_append_right _ (List.mem_append_left _ hc)
  | withoutAuthority => exact nofun

theorem Place.ne_nil (h : Place place) : place ≠ [] := by
  cases h with
  | host nonempty joins => exact joins.ne_nil nonempty
  | hostAndPort => simp

/-- The tests that depend on the scheme. -/
theorem suits_iff (hscheme : Scheme scheme) (hbehind : BehindUser authority place)
    (hbracket : '[' ∉ place) (hport : PortAllowed place) :
    (if scheme.lower ∈ opaqueSchemes then path ≠ [] || authority ≠ []
      else if scheme.lower = "file".toList ∧ authority = [] then path.head? = some '/'
      else host authority ≠ [] && !(portDigits authority = [] && authority.getLast? = some ':') &&
        if (host authority).contains ':' then isAddress (host authority) else
        isHostName (host authority)) = true ↔
      Suits scheme authority path place := by
  by_cases hknown : Hostless scheme
  · rw [if_pos ((hostless_iff hscheme).mpr hknown)]
    have hfile : scheme.map Char.toLower ≠ "file".toList := by
      intro hfile
      rw [Hostless, hfile] at hknown
      revert hknown
      decide
    constructor
    · intro h
      exact .hostless hknown (by simpa [or_comm] using h)
    · rintro (⟨-, some⟩ | ⟨known, -, -⟩ | ⟨other, -⟩)
      · simpa [or_comm] using some
      · exact absurd known hfile
      · exact absurd hknown other
  · rw [if_neg (mt (hostless_iff hscheme).mp hknown)]
    by_cases hfile : scheme.lower = "file".toList ∧ authority = []
    · rw [if_pos hfile, decide_eq_true_eq]
      constructor
      · intro h
        exact .file (hscheme.lower_eq ▸ hfile.1) hfile.2 h
      · rintro (⟨known, -⟩ | ⟨-, -, root⟩ | ⟨-, named⟩)
        · exact absurd known hknown
        · exact root
        · have hnil : place = [] := List.eq_nil_iff_forall_not_mem.mpr fun c hc => by
            have hmem := hbehind.mem c hc
            rw [hfile.2] at hmem
            cases hmem
          exact absurd hnil named.ne_nil
    · rw [if_neg hfile, namesHost_iff hbehind hbracket hport]
      constructor
      · exact .hosted hknown
      · rintro (⟨known, -⟩ | ⟨known, none, -⟩ | ⟨-, named⟩)
        · exact absurd known hknown
        · exact absurd ⟨hscheme.lower_eq.trans known, none⟩ hfile
        · exact named

theorem Scheme.no_colon (h : Scheme scheme) : ':' ∉ scheme :=
  fun hmem => absurd (h.chars _ hmem) (by decide)

theorem uriParts?_append (hscheme : Scheme scheme) (hdivides : Divides rest authority path) :
    uriParts? (scheme ++ ':' :: rest) = some ⟨scheme.lower, authority, path⟩ := by
  obtain ⟨rfl, rfl⟩ := divides_iff.mp hdivides
  rw [uriParts?, Text.cutFirst?_append hscheme.no_colon]
  exact if_pos (isScheme_iff.mpr hscheme)

/-- A text whose parts are known is judged by its characters, its port, and what its scheme asks
for. -/
theorem isUri_append (hscheme : Scheme scheme) (hdivides : Divides rest authority path)
    (hbehind : BehindUser authority place) (hopen : '[' ∉ scheme ++ ':' :: rest)
    (hclose : ']' ∉ scheme ++ ':' :: rest) :
    isUri (scheme ++ ':' :: rest) = true ↔
      (∀ c ∈ scheme ++ ':' :: rest, UriChar c) ∧ PortAllowed place ∧
      Suits scheme authority path place := by
  have hauthority : ∀ c ∈ authority, c ∈ scheme ++ ':' :: rest := fun c hc =>
    List.mem_append_right _ (List.mem_cons_of_mem _ (hdivides.mem c hc))
  have hnone : '[' ∉ authority ∧ ']' ∉ authority :=
    ⟨mt (hauthority _) hopen, mt (hauthority _) hclose⟩
  have hplace : '[' ∉ place := mt (hbehind.mem _) hnone.1
  have hbrackets : hasBrackets authority = true := by simp [hasBrackets, hnone.1, hnone.2]
  have hchars : (scheme ++ ':' :: rest).all isUriChar = true ↔
      ∀ c ∈ scheme ++ ':' :: rest, UriChar c := by
    rw [List.all_eq_true]
    refine forall₂_congr fun c hc => isUriChar_iff ?_ ?_
    · rintro rfl
      exact hopen hc
    · rintro rfl
      exact hclose hc
  have hne : scheme ++ ':' :: rest ≠ [] := by simp
  rw [isUri, uriParts?_append hscheme hdivides]
  simp only [hne, hbrackets, Bool.and_eq_true, decide_eq_true_eq, hchars, ne_eq,
    not_false_eq_true, true_and, hasPort_iff (behindUser_iff.mp hbehind) hplace]
  refine and_congr_right fun _ => and_congr_right fun hport => ?_
  exact suits_iff hscheme hbehind hplace hport

theorem exists_scheme (h : isUri t = true) :
    ∃ scheme rest, t = scheme ++ ':' :: rest ∧ Scheme scheme := by
  rw [isUri, Bool.and_eq_true] at h
  obtain ⟨-, h⟩ := h
  cases hcut : Text.cutFirst? ':' t with
  | none => simp [uriParts?, hcut] at h
  | some parts =>
    obtain ⟨scheme, rest⟩ := parts
    by_cases hscheme : isScheme scheme = true
    · exact ⟨scheme, rest, (Text.cutFirst?_eq_some.mp hcut).1, isScheme_iff.mp hscheme⟩
    · simp [uriParts?, hcut, hscheme] at h

/-- A text without brackets is taken for a URI exactly where it is one by the grammar. -/
theorem isUri_iff (t : Text) (hopen : '[' ∉ t) (hclose : ']' ∉ t) : isUri t = true ↔ Uri t := by
  constructor
  · intro h
    obtain ⟨scheme, rest, rfl, hscheme⟩ := exists_scheme h
    have hdivides : Divides rest _ _ := divides_iff.mpr ⟨rfl, rfl⟩
    have hbehind : BehindUser (cutAuthority rest).1 _ := behindUser_iff.mpr rfl
    obtain ⟨chars, port, suits⟩ := (isUri_append hscheme hdivides hbehind hopen hclose).mp h
    exact .join chars hscheme hdivides hbehind port suits
  · rintro ⟨chars, scheme_ok, divides, behind, port, suits⟩
    exact (isUri_append scheme_ok divides behind hopen hclose).mpr ⟨chars, port, suits⟩

/-- User data with a colon in it, a host name that ends in a point, and a number in front of a
query. -/
theorem isUri_iff_port :
    let t := "HTTP://a:b@x.test.:080?c:/d#e".toList
    '[' ∉ t ∧ ']' ∉ t ∧ isUri t = true ∧ Uri t := by
  intro t
  have hopen : '[' ∉ t := by decide
  have hclose : ']' ∉ t := by decide
  have huri : isUri t = true := by decide +kernel
  exact ⟨hopen, hclose, huri, (isUri_iff t hopen hclose).mp huri⟩

end DocComment.Form
