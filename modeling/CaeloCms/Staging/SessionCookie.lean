import CaeloCms.Redirect.Target
import CaeloCms.Shared.WebText

/-!
# The session cookie

`session-cookie.ts`: `__session` holds one entry for each owner, `<key>=<expiresAt>.<value>`.  Reading it leaves out what
is malformed, unknown, repeated or over.
-/

namespace CaeloCms.Staging

open CaeloCms.Redirect (isSpace)
open CaeloCms.Web (decodeURIComponent searchParams)

/-! ### Digits -/

def isDigit (c : Char) : Bool := '0' ≤ c && c ≤ '9'

def digitsNumber (s : List Char) : Nat := Nat.ofDigitChars 10 s 0

/-- `/^\d{1,12}$/` -/
def isExpiry (s : List Char) : Bool := 1 ≤ s.length && s.length ≤ 12 && s.all isDigit

/-! ### The container -/

/-- One entry: an owner-verified value and when it runs out. -/
structure SessionEntry where
  value : List Char
  expiresAt : Nat
deriving DecidableEq, Repr

/-- `SESSION_ENTRY` -/
inductive SessionKey
  | visitorId
  | login
  | staging
deriving DecidableEq, Repr

/-- The key of `KNOWN_KEYS` with this name. -/
def sessionKey (name : List Char) : Option SessionKey :=
  if name = "vid".toList then some .visitorId
  else if name = "login".toList then some .login
  else if name = "staging".toList then some .staging
  else none

def isEntryValue (s : List Char) : Bool :=
  1 ≤ s.length && s.length ≤ 512 && s.all fun c => c.isAlphanum || ['.', '_', '~', '-'].contains c

/-- `cookieHeader.split(/;\s*/)` -/
def cookieParts (cookieHeader : List Char) : List (List Char) :=
  match cookieHeader.splitOn ';' with
  | [] => []
  | first :: rest => first :: rest.map fun part => part.dropWhile isSpace

/-- The name and the value of a cookie, when it has a name. -/
def cookieOf (part : List Char) : Option (List Char × List Char) :=
  let name := part.takeWhile fun c => c != '='
  if name.isEmpty || name.length = part.length then none
  else some (Words.trim isSpace name, Words.trim isSpace (part.drop (name.length + 1)))

/-- The raw `__session` value of a `Cookie` header. -/
def rawSessionCookie (cookieHeader : Option (List Char)) : Option (List Char) :=
  cookieHeader.bind fun header =>
    (cookieParts header).findSome? fun part =>
      (cookieOf part).bind fun cookie => if cookie.1 = "__session".toList then some cookie.2 else none

def entryOf (nowSeconds : Int) (entry : List Char) : Option SessionEntry :=
  let expRaw := entry.takeWhile fun c => c != '.'
  let value := entry.drop (expRaw.length + 1)
  if expRaw.length = entry.length || !isExpiry expRaw || !isEntryValue value then none
  else if (digitsNumber expRaw : Int) ≤ nowSeconds then none
  else some ⟨value, digitsNumber expRaw⟩

/-- The loop of `readSessionCookie`, with the entries it has put out. -/
def readEntries (nowSeconds : Int) (out : List (SessionKey × SessionEntry)) :
    List (List Char × List Char) → List (SessionKey × SessionEntry)
  | [] => out
  | (name, entry) :: rest =>
    match sessionKey name, entryOf nowSeconds entry with
    | some key, some e =>
      if out.any fun p => p.1 = key then readEntries nowSeconds out rest
      else readEntries nowSeconds (out ++ [(key, e)]) rest
    | _, _ => readEntries nowSeconds out rest

def readSessionCookie (cookieHeader : Option (List Char)) (nowSeconds : Int) : List (SessionKey × SessionEntry) :=
  match rawSessionCookie cookieHeader with
  | none => []
  | some raw =>
    if raw.isEmpty then []
    else
      match decodeURIComponent raw with
      | none => []
      | some decoded => readEntries nowSeconds [] (searchParams decoded)

/-- The value of the `staging` entry. -/
def stagingEntry (cookieHeader : Option (List Char)) (nowSeconds : Int) : Option (List Char) :=
  ((readSessionCookie cookieHeader nowSeconds).find? fun p => p.1 = .staging).map fun p => p.2.value

/-! ### What is read -/

theorem readEntries_spec {nowSeconds : Int} {entries : List (List Char × List Char)} :
    ∀ {out : List (SessionKey × SessionEntry)}, (out.map (·.1)).Nodup →
      (∀ p ∈ out, nowSeconds < p.2.expiresAt ∧ isEntryValue p.2.value = true) →
      ((readEntries nowSeconds out entries).map (·.1)).Nodup ∧
        ∀ p ∈ readEntries nowSeconds out entries, nowSeconds < p.2.expiresAt ∧ isEntryValue p.2.value = true := by
  induction entries with
  | nil => exact fun hnodup hall => ⟨hnodup, hall⟩
  | cons entry rest ih =>
    intro out hnodup hall
    obtain ⟨name, entry⟩ := entry
    unfold readEntries
    split
    · rename_i key e hkey he
      split
      · exact ih hnodup hall
      · rename_i hnew
        have hentry : nowSeconds < e.expiresAt ∧ isEntryValue e.value = true := by
          unfold entryOf at he
          dsimp only at he
          split at he
          · cases he
          rename_i hform
          split at he
          · cases he
          rename_i hexp
          cases he
          simp only [Bool.or_eq_true, not_or] at hform
          exact ⟨lt_of_not_ge hexp, by simpa using hform.2⟩
        refine ih ?_ ?_
        · rw [List.map_append, List.nodup_append]
          refine ⟨hnodup, List.nodup_singleton _, ?_⟩
          intro a ha b hb heq
          obtain ⟨p, hp, rfl⟩ := List.mem_map.1 ha
          rw [List.map_singleton, List.mem_singleton] at hb
          refine hnew (List.any_eq_true.2 ⟨p, hp, ?_⟩)
          simpa [hb] using heq
        · intro p hp
          rcases List.mem_append.1 hp with hp | hp
          · exact hall p hp
          · rw [List.mem_singleton.1 hp]
            exact hentry
    · exact ih hnodup hall

theorem readSessionCookie_spec (cookieHeader : Option (List Char)) (nowSeconds : Int) :
    ((readSessionCookie cookieHeader nowSeconds).map (·.1)).Nodup ∧
      ∀ p ∈ readSessionCookie cookieHeader nowSeconds, nowSeconds < p.2.expiresAt ∧ isEntryValue p.2.value = true := by
  unfold readSessionCookie
  split
  · exact ⟨List.nodup_nil, by simp⟩
  · split
    · exact ⟨List.nodup_nil, by simp⟩
    · split
      · exact ⟨List.nodup_nil, by simp⟩
      · exact readEntries_spec List.nodup_nil (by simp)

example : stagingEntry (some "a=b; __session=staging%3D0200.session.150.k%26vid%3D1.x".toList) 100 =
    some "session.150.k".toList := by decide +kernel

end CaeloCms.Staging
