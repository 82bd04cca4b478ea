import Mathlib

/-!
# Redirect targets

What `redirect-target.ts` admits as the target of a redirect: a path on this site, or an `https` address in the one
spelling an Owner approved.  A check returns why a target is refused, or `none`.  Paths are lists of characters;
`new URL(…)` is the parameter `parseUrl`, which is `none` where the constructor throws.
-/

namespace CaeloCms.Redirect

/-! ### Characters -/

/-- `\s` -/
def isSpace (c : Char) : Bool :=
  let n := c.toNat
  (9 ≤ n && n ≤ 13) || n = 32 || n = 0xA0 || n = 0x1680 || (0x2000 ≤ n && n ≤ 0x200A) || n = 0x2028 || n = 0x2029 ||
    n = 0x202F || n = 0x205F || n = 0x3000 || n = 0xFEFF

/-- `\p{Cc}` -/
def isControl (c : Char) : Bool := c.toNat < 32 || (0x7F ≤ c.toNat && c.toNat ≤ 0x9F)

/-- `[\s\p{Cc}]` -/
def isBlank (c : Char) : Bool := isSpace c || isControl c

/-- `[?#]` -/
def isQueryMark (c : Char) : Bool := c == '?' || c == '#'

def hasQueryMark (path : List Char) : Bool := path.any isQueryMark

/-- The number of UTF-16 units, `String.prototype.length`. -/
def utf16Length (s : List Char) : Nat := (s.map fun c => if c.toNat < 0x10000 then 1 else 2).sum

def hexDigit (n : Nat) : Char := if n < 10 then Char.ofNat (48 + n) else Char.ofNat (87 + n)

/-- A character inside `JSON.stringify(s)`. -/
def jsonChar (c : Char) : List Char :=
  if c = '"' then ['\\', '"']
  else if c = '\\' then ['\\', '\\']
  else if c.toNat = 8 then ['\\', 'b']
  else if c.toNat = 12 then ['\\', 'f']
  else if c = '\n' then ['\\', 'n']
  else if c = '\r' then ['\\', 'r']
  else if c = '\t' then ['\\', 't']
  else if c.toNat < 32 then ['\\', 'u', '0', '0', hexDigit (c.toNat / 16), hexDigit (c.toNat % 16)]
  else [c]

def jsonString (s : List Char) : List Char := '"' :: (s.flatMap jsonChar ++ ['"'])

/-- A path as the messages show it. -/
def shown (s : List Char) : String := String.ofList (jsonString s)

/-! ### External addresses -/

/-- A `URL` object. -/
structure Url where
  protocol : List Char
  username : List Char
  password : List Char
  hostname : List Char
  port : List Char
  pathname : List Char
  search : List Char
  hash : List Char
  href : List Char

variable (parseUrl : List Char → Option Url)

def isExternalRedirectTarget (target : List Char) : Bool := "https://".toList.isPrefixOf target

def externalUnsafe (c : Char) : Bool :=
  isBlank c || ['\\', '\x7b', '\x7d', '"', Char.ofNat 96, '<', '>', '^', '|'].contains c

def isDigit (c : Char) : Bool := '0' ≤ c && c ≤ '9'

/-- `\d{1,3}(\.\d{1,3}){3}` -/
def isIPv4 (host : List Char) : Bool :=
  let parts := host.splitOn '.'
  parts.length = 4 && parts.all fun p => 1 ≤ p.length && p.length ≤ 3 && p.all isDigit

def nonPublicHost (host : List Char) : Bool :=
  let host := host.map Char.toLower
  (host.head? == some '[' && host.getLast? == some ']' && 2 ≤ host.length) || isIPv4 host ||
    host == "localhost".toList || (!host.isEmpty && !host.contains '.') ||
    [".localhost", ".local", ".internal"].any fun suffix =>
      suffix.toList.isSuffixOf host && suffix.toList.length < host.length

def externalRedirectMaxLength : Nat := 1000

def externalRedirectTargetIssue (url : List Char) : Option String :=
  if externalRedirectMaxLength < utf16Length url then
    some s!"The address is longer than {externalRedirectMaxLength} characters, which not every hosting can serve. Use a shorter one."
  else if !isExternalRedirectTarget url then
    some s!"{shown url} must be a full https address (https://example.com/page); other schemes are refused."
  else if url.any externalUnsafe then
    some s!"{shown url} contains a space, a control character or one of \\ \x7b \x7d \" {Char.ofNat 96} < > ^ |. Percent-encode it or remove it."
  else
    match parseUrl url with
    | none => some s!"{shown url} is not a valid address."
    | some parsed =>
      if !parsed.username.isEmpty || !parsed.password.isEmpty then
        some s!"{shown url} carries credentials before the host; browsers then go to what follows the '@', not to what the address seems to name. Pass the address without them."
      else if !parsed.port.isEmpty then
        some s!"{shown url} names a port, which not every hosting can serve. Use an address on the standard https port."
      else if parsed.hostname.getLast? == some '.' || nonPublicHost parsed.hostname then
        some s!"{shown url} does not name a public host. Use a domain name; IP addresses and internal names are refused."
      else if parsed.href ≠ url ∧ parsed.href ≠ url ++ ['/'] then
        some s!"{shown url} is not in its plain form, so it may lead somewhere else than it reads. A browser reads it as {String.ofList parsed.href}: pass that if it is what you mean."
      else none

/-! ### Paths on this site -/

def externalNotSupported : String :=
  "This call only takes a path on this site (e.g. '/pricing'). A redirect to another domain needs the Owner's approval: use propose_external_redirect with the https address. If the destination is a page on this site, pass only its path."

def isLetter (c : Char) : Bool := ('a' ≤ c && c ≤ 'z') || ('A' ≤ c && c ≤ 'Z')

def isSchemeChar (c : Char) : Bool := isLetter c || isDigit c || c == '+' || c == '.' || c == '-'

/-- `SCHEME_PREFIX`: the scheme and what follows its `:`. -/
def schemePrefix : List Char → Option (List Char × List Char)
  | [] => none
  | c :: rest =>
    if isLetter c then
      match (rest.dropWhile isSchemeChar) with
      | ':' :: after => some (c :: rest.takeWhile isSchemeChar, after)
      | _ => none
    else none

/-- `https://a.example/x?y#z` → `/x?y#z`; none when unparseable. -/
def pathOfEmbeddedUrl (url : List Char) : Option (List Char) :=
  let lower := url.map Char.toLower
  let after := if "https://".toList.isPrefixOf lower then url.drop 8
    else if "http://".toList.isPrefixOf lower then url.drop 7 else []
  if after.isEmpty || after.head? == some '/' then none
  else
    (parseUrl url).bind fun u =>
      if u.protocol ≠ "http:".toList ∧ u.protocol ≠ "https:".toList then none
      else some (u.pathname ++ u.search ++ u.hash)

def redirectTargetIssue (toPath : List Char) : Option String :=
  if toPath.head? ≠ some '/' then
    some s!"toPath {shown toPath} must start with '/'. {externalNotSupported}"
  else if toPath.any isBlank then
    some s!"toPath {shown toPath} contains whitespace or control characters. Percent-encode them (a space is '%20') or remove them."
  else if toPath.contains '\\' then
    some s!"toPath {shown toPath} contains a backslash; browsers treat '\\' as '/', so it can turn into a link to another host. Use forward slashes only."
  else if "//".toList.isPrefixOf toPath then
    some s!"toPath {shown toPath} starts with '//', which browsers read as a protocol-relative URL to another host (an open redirect), not as a path on this site. Use a single leading slash, e.g. '/{String.ofList (toPath.dropWhile (fun c => c == Char.ofNat 47))}'. {externalNotSupported}"
  else
    match schemePrefix (toPath.drop 1) with
    | none => none
    | some (scheme, rest) =>
      if rest.head? == some '/' || ["http".toList, "https".toList].contains (scheme.map Char.toLower) then
        let hint := match pathOfEmbeddedUrl parseUrl (toPath.drop 1) with
          | some suggestion =>
            if suggestion.isEmpty then "" else s!" If that URL is on this site, use its path '{String.ofList suggestion}'."
          | none => ""
        some s!"toPath {shown toPath} embeds a full URL ('{String.ofList scheme}:…') after the leading '/'; browsers resolve it as a path on this site, not as that URL.{hint} {externalNotSupported}"
      else none

def servableRedirectTargetIssue (target : List Char) : Option String :=
  if isExternalRedirectTarget target then externalRedirectTargetIssue parseUrl target
  else redirectTargetIssue parseUrl target

/-! ### What the checks leave -/

theorem head_of_external {target : List Char} (h : isExternalRedirectTarget target = true) :
    target.head? = some 'h' := by
  obtain ⟨rest, rfl⟩ := List.isPrefixOf_iff_prefix.1 h
  rfl

variable {parseUrl}

/-- A servable target has no blank character; a same-site one starts with a single slash and has no backslash. -/
theorem servable_cases {target : List Char} (h : servableRedirectTargetIssue parseUrl target = none) :
    (isExternalRedirectTarget target = true ∧ target.any externalUnsafe = false) ∨
    (isExternalRedirectTarget target = false ∧ target.head? = some '/' ∧ target.any isBlank = false ∧
      target.contains '\\' = false ∧ "//".toList.isPrefixOf target = false) := by
  unfold servableRedirectTargetIssue at h
  split at h
  · rename_i hext
    refine Or.inl ⟨hext, ?_⟩
    unfold externalRedirectTargetIssue at h
    split at h
    · cases h
    split at h
    · cases h
    split at h
    · cases h
    · rename_i hunsafe
      simpa using hunsafe
  · rename_i hext
    refine Or.inr ⟨by simpa using hext, ?_⟩
    unfold redirectTargetIssue at h
    split at h
    · cases h
    rename_i hhead
    split at h
    · cases h
    rename_i hblank
    split at h
    · cases h
    rename_i hback
    split at h
    · cases h
    rename_i hslash
    exact ⟨by simpa using hhead, by simpa using hblank, by simpa using hback, eq_false_of_ne_true hslash⟩

theorem not_blank_of_servable {target : List Char} (h : servableRedirectTargetIssue parseUrl target = none) {c : Char}
    (hc : c ∈ target) : isBlank c = false := by
  rcases servable_cases h with ⟨-, hun⟩ | ⟨-, -, hbl, -, -⟩
  · have hc' := List.any_eq_false.1 hun c hc
    unfold externalUnsafe at hc'
    simp only [Bool.or_eq_true, not_or] at hc'
    simpa using hc'.1
  · simpa using List.any_eq_false.1 hbl c hc

end CaeloCms.Redirect
