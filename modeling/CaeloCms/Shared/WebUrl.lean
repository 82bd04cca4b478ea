import CaeloCms.Lib.Words
import CaeloCms.Shared.WebEncode

/-!
# The URL parser

The basic URL parser of a browser for the schemes `http`, `https`, `ws`, `wss` and `ftp`, alone or against the URL of
a page, and its serialiser.  A text of another scheme is `other`.  What becomes of a host (IDNA, addresses in
numbers) is the parameter `parseHost`, which is `none` where the host is refused.

A `#` ends every part of a URL before the fragment, and a `?` every part before the query, so a text is cut at these
first; the parser's states then read what is left (`Parts.hier`).
-/

namespace CaeloCms.Web

inductive WebScheme
  | http
  | https
  | ws
  | wss
  | ftp
deriving DecidableEq, Repr

def WebScheme.name : WebScheme → List Char
  | .http => ['h', 't', 't', 'p']
  | .https => ['h', 't', 't', 'p', 's']
  | .ws => ['w', 's']
  | .wss => ['w', 's', 's']
  | .ftp => ['f', 't', 'p']

def WebScheme.ofName (name : List Char) : Option WebScheme :=
  [WebScheme.http, .https, .ws, .wss, .ftp].find? fun scheme => scheme.name == name

def WebScheme.defaultPort : WebScheme → Nat
  | .http => 80
  | .https => 443
  | .ws => 80
  | .wss => 443
  | .ftp => 21

structure WebUrl where
  scheme : WebScheme
  username : List Char
  password : List Char
  host : List Char
  port : Option Nat
  path : List (List Char)
  query : Option (List Char)
  fragment : Option (List Char)
deriving DecidableEq, Repr

/-- What a text is read as. -/
inductive Parsed
  | web (url : WebUrl)
  | other (scheme : List Char)
deriving DecidableEq, Repr

structure Origin where
  scheme : WebScheme
  host : List Char
  port : Option Nat
deriving DecidableEq, Repr

def WebUrl.origin (url : WebUrl) : Origin := ⟨url.scheme, url.host, url.port⟩

/-! ### Percent-encode sets -/

def c0Set (c : Char) : Bool := c.toNat ≤ 0x1F || 0x7E < c.toNat

def fragmentSet (c : Char) : Bool := c0Set c || [' ', '"', '<', '>', Char.ofNat 96].contains c

def specialQuerySet (c : Char) : Bool := c0Set c || [' ', '"', '#', '<', '>', '\''].contains c

def pathSet (c : Char) : Bool :=
  c0Set c || [' ', '"', '#', '<', '>', '?', '^', Char.ofNat 96, '\x7b', '\x7d'].contains c

def userinfoSet (c : Char) : Bool := pathSet c || ['/', ':', ';', '=', '@', '[', '\\', ']', '|'].contains c

def percentEncode (set : Char → Bool) (s : List Char) : List Char :=
  s.flatMap fun c => if set c then (utf8 [c]).flatMap escapeByte else [c]

/-! ### The text and its parts -/

def isC0OrSpace (c : Char) : Bool := c.toNat ≤ 0x20

def isTabOrNewline (c : Char) : Bool := c == '\t' || c == '\n' || c == '\r'

/-- The text without the blanks at its ends, and without tabs and newlines. -/
def cleanInput (s : List Char) : List Char := (Words.trim isC0OrSpace s).filter fun c => !isTabOrNewline c

def isSchemeTail (c : Char) : Bool := c.isAlphanum || c == '+' || c == '-' || c == '.'

/-- The scheme, in lower case, and what follows its `:`. -/
def schemeOf : List Char → Option (List Char × List Char)
  | [] => none
  | c :: rest =>
    if c.isAlpha ∧ (rest.dropWhile isSchemeTail).head? = some ':' then
      some ((c :: rest.takeWhile isSchemeTail).map Char.toLower, (rest.dropWhile isSchemeTail).tail)
    else none

/-- What comes before the first `mark`, and what after it. -/
def cutAt (mark : Char) (s : List Char) : List Char × Option (List Char) :=
  (s.takeWhile fun c => c != mark, (s.dropWhile fun c => c != mark).tail?)

structure Parts where
  hier : List Char
  query : Option (List Char)
  fragment : Option (List Char)

def partsOf (s : List Char) : Parts :=
  let fragment := cutAt '#' s
  let query := cutAt '?' fragment.1
  ⟨query.1, query.2.map (percentEncode specialQuerySet), fragment.2.map (percentEncode fragmentSet)⟩

def isSlash (c : Char) : Bool := c == '/' || c == '\\'

/-! ### The authority -/

/-- What comes before and after the last `@`. -/
def cutUserinfo (s : List Char) : List Char × List Char :=
  if s.contains '@' then ((s.rdropWhile fun c => c != '@').dropLast, s.rtakeWhile fun c => c != '@') else ([], s)

/-- The host and its port: what comes before and after the first `:` that is not in brackets. -/
def cutPort : Bool → List Char → List Char × Option (List Char)
  | _, [] => ([], none)
  | inside, c :: s =>
    if c = ':' ∧ inside = false then ([], some s)
    else
      let rest := cutPort (c == '[' || (inside && c != ']')) s
      (c :: rest.1, rest.2)

/-- A port, `none` within where it is the one of the scheme. -/
def readPort (scheme : WebScheme) (digits : List Char) : Option (Option Nat) :=
  if digits = [] then some none
  else if digits.all Char.isDigit then
    let port := Nat.ofDigitChars 10 digits 0
    if 65535 < port then none else some (if port = scheme.defaultPort then none else some port)
  else none

variable (parseHost : List Char → Option (List Char))

def readAuthority (scheme : WebScheme) (authority : List Char) : Option WebUrl :=
  let userinfo := cutUserinfo authority
  let hostPort := cutPort false userinfo.2
  let credentials := cutAt ':' userinfo.1
  if hostPort.1 = [] then none
  else
    (parseHost hostPort.1).bind fun host =>
      (readPort scheme (hostPort.2.getD [])).map fun port =>
        { scheme := scheme
          username := percentEncode userinfoSet credentials.1
          password := percentEncode userinfoSet (credentials.2.getD [])
          host := host
          port := port
          path := []
          query := none
          fragment := none }

/-! ### The path -/

def isSingleDot (segment : List Char) : Bool := [".".toList, "%2e".toList].contains (segment.map Char.toLower)

def isDoubleDot (segment : List Char) : Bool :=
  ["..".toList, ".%2e".toList, "%2e.".toList, "%2e%2e".toList].contains (segment.map Char.toLower)

def addSegment (path : List (List Char)) (segment : List Char) (last : Bool) : List (List Char) :=
  let encoded := percentEncode pathSet segment
  if isDoubleDot encoded then path.dropLast ++ (if last then [[]] else [])
  else if isSingleDot encoded then path ++ (if last then [[]] else [])
  else path ++ [encoded]

def readPath (path : List (List Char)) : List Char → List Char → List (List Char)
  | segment, [] => addSegment path segment true
  | segment, c :: s =>
    if isSlash c then readPath (addSegment path segment false) [] s else readPath path (segment ++ [c]) s

/-! ### The parser -/

/-- What follows the scheme, after slashes as many as there are. -/
def readAbsolute (scheme : WebScheme) (s : List Char) : Option WebUrl :=
  let parts := partsOf s
  let hier := parts.hier.dropWhile isSlash
  (readAuthority parseHost scheme (hier.takeWhile fun c => !isSlash c)).map fun url =>
    { url with
      path := readPath [] [] (hier.dropWhile fun c => !isSlash c).tail
      query := parts.query
      fragment := parts.fragment }

/-- A text without a scheme of its own, against a URL. -/
def readRelative (base : WebUrl) (s : List Char) : Option WebUrl :=
  let parts := partsOf s
  match parts.hier with
  | [] => some { base with query := if parts.query.isSome then parts.query else base.query, fragment := parts.fragment }
  | c :: hier =>
    if isSlash c then
      if (hier.head?.map isSlash).getD false then readAbsolute parseHost base.scheme s
      else some { base with path := readPath [] [] hier, query := parts.query, fragment := parts.fragment }
    else
      some { base with
        path := readPath base.path.dropLast [] (c :: hier), query := parts.query, fragment := parts.fragment }

/-- `new URL(s, base)`; `none` where it throws. -/
def parse (base : Option WebUrl) (s : List Char) : Option Parsed :=
  let input := cleanInput s
  match schemeOf input with
  | none => (base.bind fun b => readRelative parseHost b input).map Parsed.web
  | some (name, rest) =>
    match WebScheme.ofName name with
    | none => some (.other name)
    | some scheme =>
      match base with
      | none => (readAbsolute parseHost scheme rest).map Parsed.web
      | some b =>
        -- only two slashes keep a text of the base's own scheme from being read against it
        if b.scheme = scheme ∧ "//".toList.isPrefixOf rest = false then (readRelative parseHost b rest).map Parsed.web
        else (readAbsolute parseHost scheme rest).map Parsed.web

/-! ### The serialiser -/

/-- `url.search` or `url.hash`. -/
def markedText (mark : Char) (text : Option (List Char)) : List Char :=
  match text with
  | none => []
  | some s => if s = [] then [] else mark :: s

/-- `url.port` -/
def portText (port : Option Nat) : List Char :=
  match port with
  | none => []
  | some n => Nat.toDigits 10 n

def WebUrl.pathname (url : WebUrl) : List Char := url.path.flatMap fun segment => '/' :: segment

def WebUrl.credentialsText (url : WebUrl) : List Char :=
  if url.username = [] ∧ url.password = [] then []
  else url.username ++ (if url.password = [] then [] else ':' :: url.password) ++ ['@']

def WebUrl.href (url : WebUrl) : List Char :=
  url.scheme.name ++ "://".toList ++ url.credentialsText ++ url.host ++
    (match url.port with
    | none => []
    | some n => ':' :: Nat.toDigits 10 n) ++
    url.pathname ++
    (match url.query with
    | none => []
    | some query => '?' :: query) ++
    (match url.fragment with
    | none => []
    | some fragment => '#' :: fragment)

/-! ### Texts with a query -/

@[simp] theorem hier_nil : (partsOf []).hier = [] := rfl

theorem hier_cons (c : Char) (s : List Char) :
    (partsOf (c :: s)).hier = if c = '#' ∨ c = '?' then [] else c :: (partsOf s).hier := by
  by_cases hhash : c = '#'
  · subst hhash
    rfl
  by_cases hquery : c = '?'
  · subst hquery
    rfl
  simp [partsOf, cutAt, hhash, hquery]

theorem hier_append_query (s q : List Char) : (partsOf (s ++ '?' :: q)).hier = (partsOf s).hier := by
  induction s with
  | nil => rfl
  | cons c s ih => rw [List.cons_append, hier_cons, hier_cons, ih]

theorem rdropWhile_append_of_last {α : Type} {blank : α → Bool} {s : List α} (hne : s ≠ [])
    (h : ∀ c ∈ s, blank c = false) (q : List α) : (s ++ q).rdropWhile blank = s ++ q.rdropWhile blank := by
  induction q using List.reverseRecOn with
  | nil =>
    rw [List.append_nil, List.rdropWhile_nil, List.append_nil, List.rdropWhile_eq_self_iff]
    intro _
    simpa using h _ (List.getLast_mem hne)
  | append_singleton q c ih =>
    rw [← List.append_assoc]
    by_cases hc : blank c = true
    · rw [List.rdropWhile_concat_pos _ _ _ hc, List.rdropWhile_concat_pos _ _ _ hc, ih]
    · rw [List.rdropWhile_concat_neg _ _ _ hc, List.rdropWhile_concat_neg _ _ _ hc, List.append_assoc]

theorem cleanInput_append {s : List Char} (hne : s ≠ []) (h : ∀ c ∈ s, isC0OrSpace c = false) (q : List Char) :
    cleanInput (s ++ q) = s ++ (q.rdropWhile isC0OrSpace).filter fun c => !isTabOrNewline c := by
  have hdrop : (s ++ q).dropWhile isC0OrSpace = s ++ q := by
    obtain ⟨c, t, rfl⟩ := List.exists_cons_of_ne_nil hne
    rw [List.cons_append, List.dropWhile_cons_of_neg]
    simpa using h c List.mem_cons_self
  have hplain : s.filter (fun c => !isTabOrNewline c) = s := by
    refine List.filter_eq_self.2 fun c hc => ?_
    have hblank := h c hc
    by_contra htab
    simp only [isTabOrNewline, Bool.not_eq_true', Bool.not_eq_false, Bool.or_eq_true, beq_iff_eq] at htab
    rcases htab with (rfl | rfl) | rfl <;> exact absurd hblank (by decide)
  rw [cleanInput, Words.trim, hdrop, rdropWhile_append_of_last hne h, List.filter_append, hplain]

theorem cleanInput_plain {s : List Char} (hne : s ≠ []) (h : ∀ c ∈ s, isC0OrSpace c = false) : cleanInput s = s := by
  simpa using cleanInput_append hne h []

def IsQueryTail (tail : List Char) : Prop := tail = [] ∨ ∃ q, tail = '?' :: q

theorem hier_append_tail (s : List Char) {tail : List Char} (h : IsQueryTail tail) :
    (partsOf (s ++ tail)).hier = (partsOf s).hier := by
  rcases h with rfl | ⟨q, rfl⟩
  · rw [List.append_nil]
  · exact hier_append_query s q

theorem cleanInput_append_tail {s : List Char} (hne : s ≠ []) (h : ∀ c ∈ s, isC0OrSpace c = false) {tail : List Char}
    (htail : IsQueryTail tail) : ∃ tail', cleanInput (s ++ tail) = s ++ tail' ∧ IsQueryTail tail' := by
  rcases htail with rfl | ⟨q, rfl⟩
  · exact ⟨[], cleanInput_append hne h [], Or.inl rfl⟩
  · have hmark : ∀ c ∈ s ++ ['?'], isC0OrSpace c = false := by
      intro c hc
      rcases List.mem_append.1 hc with hc | hc
      · exact h c hc
      · rw [List.mem_singleton.1 hc]
        decide
    have hclean := cleanInput_append (by simp) hmark q
    rw [List.append_assoc, List.singleton_append] at hclean
    exact ⟨_, by rw [hclean, List.append_assoc]; rfl, Or.inr ⟨_, rfl⟩⟩

/-! ### What a text is read as -/

theorem readRelative_slash_eq (base : WebUrl) {s : List Char} (h : ∀ c ∈ s.head?, isSlash c = false) :
    readRelative parseHost base ('/' :: s) = some { base with
      path := readPath [] [] (partsOf s).hier
      query := (partsOf ('/' :: s)).query
      fragment := (partsOf ('/' :: s)).fragment } := by
  have hhier : (partsOf ('/' :: s)).hier = '/' :: (partsOf s).hier := by
    rw [hier_cons, if_neg (by decide)]
  have hsecond : ((partsOf s).hier.head?.map isSlash).getD false = false := by
    cases s with
    | nil => rfl
    | cons c s =>
      rw [hier_cons]
      split
      · rfl
      · exact h c rfl
  unfold readRelative
  dsimp only
  rw [hhier]
  dsimp only
  rw [if_pos (by decide), hsecond, if_neg (by decide)]

theorem readAbsolute_congr {scheme : WebScheme} {s s' : List Char} (h : (partsOf s').hier = (partsOf s).hier) {a : WebUrl}
    (ha : readAbsolute parseHost scheme s = some a) :
    ∃ r, readAbsolute parseHost scheme s' = some r ∧ r.origin = a.origin := by
  obtain ⟨url, hurl, rfl⟩ := Option.map_eq_some_iff.1 ha
  have hread : readAbsolute parseHost scheme s' = some { url with
      path := readPath [] [] (((partsOf s).hier.dropWhile isSlash).dropWhile fun c => !isSlash c).tail
      query := (partsOf s').query
      fragment := (partsOf s').fragment } := by
    unfold readAbsolute
    dsimp only
    rw [h, hurl, Option.map_some]
  exact ⟨_, hread, rfl⟩

theorem schemeOf_slash (s : List Char) : schemeOf ('/' :: s) = none := rfl

theorem parse_slash_eq (base : WebUrl) {s input : List Char} (h : cleanInput input = '/' :: s)
    (hs : ∀ c ∈ s.head?, isSlash c = false) :
    parse parseHost (some base) input = some (.web { base with
      path := readPath [] [] (partsOf s).hier
      query := (partsOf ('/' :: s)).query
      fragment := (partsOf ('/' :: s)).fragment }) := by
  unfold parse
  dsimp only
  rw [h, schemeOf_slash]
  dsimp only
  rw [Option.bind_some, readRelative_slash_eq parseHost base hs, Option.map_some]

theorem parse_of_slash (base : WebUrl) {s input : List Char} (h : cleanInput input = '/' :: s)
    (hs : ∀ c ∈ s.head?, isSlash c = false) :
    ∃ r, parse parseHost (some base) input = some (.web r) ∧ r.origin = base.origin :=
  ⟨_, parse_slash_eq parseHost base h hs, rfl⟩

def httpsPrefix : List Char := ['h', 't', 't', 'p', 's', ':', '/', '/']

theorem parse_of_https (base : Option WebUrl) {s input : List Char} (h : cleanInput input = httpsPrefix ++ s) :
    parse parseHost base input = (readAbsolute parseHost .https ('/' :: '/' :: s)).map Parsed.web := by
  have hscheme : schemeOf (httpsPrefix ++ s) = some (WebScheme.https.name, '/' :: '/' :: s) := rfl
  unfold parse
  dsimp only
  rw [h, hscheme]
  dsimp only
  rw [show WebScheme.ofName WebScheme.https.name = some .https by decide]
  cases base with
  | none => rfl
  | some b =>
    dsimp only
    rw [if_neg]
    rintro ⟨-, hslashes⟩
    exact absurd hslashes (by simp)

end CaeloCms.Web
