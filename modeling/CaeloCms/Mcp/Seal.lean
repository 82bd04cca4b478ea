import CaeloCms.Lib.SealedBox
import CaeloCms.Redirect.Target

/-!
# The broker's configuration and its sealed values

Sealing is ideal authenticated encryption: the values sealed so far are the ledger, and `unseal` looks a text up there.  The
other functions of the platform, hashing and the parser of URLs, are parameters.
-/

namespace CaeloCms.Mcp

open CaeloCms.Redirect (utf16Length Url)

/-- What the runtime computes for the broker. -/
structure Platform where
  /-- `createHash("sha256").update(v).digest("base64url")` -/
  sha256Base64Url : String → String
  /-- `createHash("sha256").update(v).digest("hex")` -/
  sha256Hex : String → String
  /-- `new URL(…)`, `none` where it throws -/
  parseUrl : List Char → Option Url

inductive McpSurface
  | chat
  | admin
deriving DecidableEq

structure GoogleClient where
  clientId : String
  clientSecret : String
deriving DecidableEq

abbrev SealKey := List UInt8

/-- What a request finds configured, and the time at which its handler starts. -/
structure McpContext where
  publicUrl : String
  sealKey : SealKey
  openKeys : List SealKey
  google : GoogleClient
  nowSeconds : Nat
deriving DecidableEq

def resourceUrl (publicUrl : String) : McpSurface → String
  | .chat => publicUrl ++ "/api/mcp/chat"
  | .admin => publicUrl ++ "/api/mcp/admin"

def resourceUrls (publicUrl : String) : List String := [resourceUrl publicUrl .chat, resourceUrl publicUrl .admin]

def issuer (publicUrl : String) : String := publicUrl ++ "/api/mcp/oauth"

/-! ### Payloads -/

structure ConsentBinding where
  id : String
  nonce : String
deriving DecidableEq

/-- What a sign-in was started with, as the consent page, the Google `state` and the code carry it on. -/
structure SignIn where
  client_id : String
  redirect_uri : String
  /-- Absent when the client never named a resource. -/
  resource : Option String
  code_challenge : String
deriving DecidableEq

/-- `ConsentSealSchema`, and `StateSealSchema` -/
structure BoundSignIn extends SignIn where
  client_state : Option String
  binding : ConsentBinding
  exp : Nat
deriving DecidableEq

/-- `CodeSealSchema` -/
structure CodeSeal extends SignIn where
  google_code : String
  exp : Nat
deriving DecidableEq

structure RefreshSeal where
  google_refresh_token : String
  client_id : String
  resource : Option String
  /-- When the sign-in happened. -/
  iat : Nat
  client_key : Option String
deriving DecidableEq

structure ClientSeal where
  redirect_uris : List String
  client_name : Option String
  iat : Nat
deriving DecidableEq

structure AccessSeal where
  id_token : String
  resource : Option String
  client : String
  exp : Nat
deriving DecidableEq

inductive Payload
  | state (p : BoundSignIn)
  | code (p : CodeSeal)
  | refresh (p : RefreshSeal)
  | client (p : ClientSeal)
  | consent (p : BoundSignIn)
  | access (p : AccessSeal)
deriving DecidableEq

abbrev Issued := List (SealedBox SealKey Payload)

/-! ### Opening -/

def maxClientKeyLength : Nat := 200

def maxSealedLength : Nat := 8192

inductive OpenFailure
  | malformed
  | forged
  | expired
  | invalid_payload
deriving DecidableEq

/-- A string of `min` to `max` characters. -/
def within (min max : Nat) (s : String) : Bool := min ≤ utf16Length s.toList && utf16Length s.toList ≤ max

/-- How the values of one purpose are read: `purpose` is authenticated with the value. -/
structure SealKind (α : Type) where
  purpose : Payload → Option α
  exp? : α → Option Nat
  schema : α → Bool

def openSealed {α : Type} (ring : List SealKey) (kind : SealKind α) (token : String) (issued : Issued)
    (nowSeconds : Nat) : Except OpenFailure α :=
  if maxSealedLength < utf16Length token.toList then .error .malformed
  else match (SealedBox.unsealed issued ring token).bind kind.purpose with
    | none => .error .forged
    | some value =>
      if (kind.exp? value).any (· ≤ nowSeconds) then .error .expired
      else if kind.schema value then .ok value
      else .error .invalid_payload

def stateSeal : SealKind BoundSignIn where
  purpose | .state p => some p | _ => none
  exp? p := some p.exp
  schema _ := true

def consentSeal : SealKind BoundSignIn where
  purpose | .consent p => some p | _ => none
  exp? p := some p.exp
  schema _ := true

def codeSeal : SealKind CodeSeal where
  purpose | .code p => some p | _ => none
  exp? p := some p.exp
  schema _ := true

def refreshSeal : SealKind RefreshSeal where
  purpose | .refresh p => some p | _ => none
  exp? _ := none
  schema p := p.client_key.all (within 1 maxClientKeyLength)

def redirectUrisValid (uris : List String) : Bool := 1 ≤ uris.length && uris.length ≤ 20 && uris.all (within 1 2048)

def clientSeal : SealKind ClientSeal where
  purpose | .client p => some p | _ => none
  exp? _ := none
  schema p := redirectUrisValid p.redirect_uris && p.client_name.all (within 0 200)

def accessSeal : SealKind AccessSeal where
  purpose | .access p => some p | _ => none
  exp? p := some p.exp
  schema p := within 1 maxClientKeyLength p.client

variable {α : Type} {ring : List SealKey} {kind : SealKind α} {token : String} {issued : Issued} {now : Nat} {value : α}

theorem exists_of_openSealed (h : openSealed ring kind token issued now = .ok value) :
    ∃ p, SealedBox.unsealed issued ring token = some p ∧ kind.purpose p = some value ∧
      ∀ e, kind.exp? value = some e → now < e := by
  unfold openSealed at h
  split at h
  · cases h
  · split at h
    · cases h
    · rename_i hopen
      split at h
      · cases h
      · rename_i hexp
        split at h
        · injection h with heq
          subst heq
          obtain ⟨p, hp, hvalue⟩ := Option.bind_eq_some_iff.mp hopen
          refine ⟨p, hp, hvalue, ?_⟩
          intro e he
          rw [he] at hexp
          simpa using hexp
        · cases h

end CaeloCms.Mcp
