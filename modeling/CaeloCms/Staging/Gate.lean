import CaeloCms.Lib.IdealMac
import CaeloCms.Redirect.JsonText
import CaeloCms.Staging.Address

/-!
# The staging gate

`staging-gate.ts`: the tokens and credentials that are MACs under one key, and the decision on a request.  The key is the
ideal MAC it makes; a whole tag is `base64Url(mac)`, a short one `base64Url(mac.slice(0, 24))`.  Times are whole seconds.
-/

namespace CaeloCms.Staging

open CaeloCms.Redirect (isSpace natText)
open CaeloCms.Web (utf8 atobBytes textDecode)

/-! ### Secrets -/

inductive MacForm
  | whole
  | short
deriving DecidableEq, Repr

/-- The `staging-gate-secret`, as the tags of messages under it. -/
structure GateSecret extends IdealMac MacForm (List Char) (List Char) where
  base64Url : ∀ f m, ∀ c ∈ tag f m, c.isAlphanum = true ∨ c = '-' ∨ c = '_'
  nonempty : ∀ f m, tag f m ≠ []

def constantTimeEqual (a b : List Char) : Bool :=
  let x := utf8 a
  let y := utf8 b
  let other := if x.length = y.length then y else x
  let diff := if x.length = y.length then 0 else 1
  (x.zip other).foldl (fun diff p => diff ||| (p.1 ^^^ p.2)) diff == 0

inductive CredentialKind
  | basicAuth
  | header
deriving DecidableEq, Repr

def CredentialKind.text : CredentialKind → List Char
  | .basicAuth => "basic-auth".toList
  | .header => "header".toList

def credentialMessage (kind : CredentialKind) (nonce : List Char) : List Char :=
  "caelo-staging-credential:".toList ++ kind.text ++ ':' :: nonce

def deriveStagingCredential (secret : GateSecret) (kind : CredentialKind) (nonce : List Char) : List Char :=
  secret.tag .short (credentialMessage kind nonce)

/-! ### Tokens -/

inductive TokenPurpose
  | open_
  | session
deriving DecidableEq, Repr

def TokenPurpose.text : TokenPurpose → List Char
  | .open_ => "open".toList
  | .session => "session".toList

inductive StagingRunPurpose
  | capture
  | check
deriving DecidableEq, Repr

def StagingRunPurpose.text : StagingRunPurpose → List Char
  | .capture => "capture".toList
  | .check => "check".toList

/-- `${n}` -/
def intText (n : Int) : List Char := if n < 0 then '-' :: natText n.natAbs else natText n.natAbs

def tokenMessage (purpose : TokenPurpose) (exp : Int) : List Char :=
  "caelo-staging:".toList ++ purpose.text ++ ':' :: intText exp

def signStagingToken (secret : GateSecret) (purpose : TokenPurpose) (exp : Int) : List Char :=
  purpose.text ++ '.' :: (intText exp ++ '.' :: secret.tag .whole (tokenMessage purpose exp))

/-- True when `token` is a valid, unexpired token for `purpose`. -/
def verifyStagingToken (secret : GateSecret) (token : List Char) (purpose : TokenPurpose) (nowSeconds : Int) : Bool :=
  match token.splitOn '.' with
  | [p, expRaw, mac] =>
    if p ≠ purpose.text ∨ isExpiry expRaw = false then false
    else
      let exp : Int := digitsNumber expRaw
      constantTimeEqual mac (secret.tag .whole (tokenMessage purpose exp)) && decide (nowSeconds < exp)
  | _ => false

def stagingRunTokenMaxTtlSeconds : Int := 15 * 60

/-- `/^[A-Za-z0-9-]{1,64}$/` -/
def isRunId (s : List Char) : Bool := 1 ≤ s.length && s.length ≤ 64 && s.all fun c => c.isAlphanum || c == '-'

def runMessage (purpose : StagingRunPurpose) (runId : List Char) (exp : Int) : List Char :=
  "caelo-staging-run:".toList ++ purpose.text ++ ':' :: (runId ++ ':' :: intText exp)

def signStagingRunToken (secret : GateSecret) (purpose : StagingRunPurpose) (runId : List Char) (exp nowSeconds : Int) :
    Except String (List Char) :=
  if isRunId runId = false then .error s!"staging run token: bad run id \"{String.ofList runId}\""
  else if stagingRunTokenMaxTtlSeconds < exp - nowSeconds then
    .error s!"staging run token: a lifetime of {exp - nowSeconds}s exceeds {stagingRunTokenMaxTtlSeconds}s"
  else
    .ok ("run.".toList ++ purpose.text ++
      '.' :: (runId ++ '.' :: (intText exp ++ '.' :: secret.tag .whole (runMessage purpose runId exp))))

def runPurposeOf (s : List Char) : Option StagingRunPurpose :=
  if s = "capture".toList then some .capture
  else if s = "check".toList then some .check
  else none

def verifyStagingRunToken (secret : GateSecret) (token : List Char) (nowSeconds : Int) :
    Option (StagingRunPurpose × List Char) :=
  match token.splitOn '.' with
  | [tag, purpose, runId, expRaw, mac] =>
    if tag ≠ "run".toList then none
    else
      (runPurposeOf purpose).bind fun purpose =>
        if isRunId runId = false ∨ isExpiry expRaw = false then none
        else
          let exp : Int := digitsNumber expRaw
          let valid := constantTimeEqual mac (secret.tag .whole (runMessage purpose runId exp))
          if valid = false ∨ exp ≤ nowSeconds ∨ stagingRunTokenMaxTtlSeconds < exp - nowSeconds then none
          else some (purpose, runId)
  | _ => none

/-! ### Requests -/

/-- `/^Basic\s+([A-Za-z0-9+/=]+)\s*$/i`, the base64 text. -/
def basicText (header : List Char) : Option (List Char) :=
  let rest := header.drop 5
  let body := Words.trim isSpace rest
  if (header.take 5).map Char.toLower = "basic".toList ∧ rest.head?.any isSpace = true ∧ body ≠ [] ∧
      body.all (fun c => c.isAlphanum || ['+', '/', '='].contains c) = true then some body
  else none

structure BasicLogin where
  user : List Char
  password : List Char
deriving DecidableEq, Repr

/-- `Authorization: Basic …` as user and password. -/
def parseBasicAuthorization (header : Option (List Char)) : Option BasicLogin :=
  ((header.bind basicText).bind atobBytes).bind fun bytes =>
    let decoded := textDecode bytes
    let user := decoded.takeWhile fun c => c != ':'
    if user.length = decoded.length then none else some ⟨user, decoded.drop (user.length + 1)⟩

inductive StagingAccessMode
  | cookie
  | basicAuth
  | header
  | ip
  | runToken
deriving DecidableEq, Repr

structure StagingAccessSettings where
  cookieEnabled : Bool
  basicAuthEnabled : Bool
  basicAuthUser : List Char
  basicAuthNonce : Option (List Char)
  headerEnabled : Bool
  headerName : List Char
  headerNonce : Option (List Char)
  ipAllowlist : List (List Char)

structure StagingAccessRequest where
  cookieHeader : Option (List Char)
  authorizationHeader : Option (List Char)
  header : List Char → Option (List Char)
  clientIp : Option (List Char)

inductive StagingAccessDecision
  | allowed (via : StagingAccessMode) (satisfied : List StagingAccessMode)
  | refused (status : Nat)
deriving DecidableEq, Repr

def stagingRunTokenHeader : List Char := "X-Caelo-Staging-Run".toList

section Decision

variable (settings : StagingAccessSettings) (secret : GateSecret) (request : StagingAccessRequest) (nowSeconds : Int)

/-- A stored nonce that is neither `null` nor empty. -/
def usable (nonce : Option (List Char)) : Option (List Char) := nonce.filter fun n => !n.isEmpty

def cookieGranted : Bool :=
  settings.cookieEnabled &&
    (stagingEntry request.cookieHeader nowSeconds).any fun token =>
      !token.isEmpty && verifyStagingToken secret token .session nowSeconds

def basicAuthGranted : Bool :=
  settings.basicAuthEnabled &&
    (usable settings.basicAuthNonce).any fun nonce =>
      let presented := parseBasicAuthorization request.authorizationHeader
      let expected := deriveStagingCredential secret .basicAuth nonce
      let userOk := constantTimeEqual ((presented.map (·.user)).getD []) settings.basicAuthUser
      let passOk := constantTimeEqual ((presented.map (·.password)).getD []) expected
      presented.isSome && userOk && passOk

def headerGranted : Bool :=
  settings.headerEnabled &&
    (usable settings.headerNonce).any fun nonce =>
      let presented := (request.header settings.headerName).getD []
      constantTimeEqual presented (deriveStagingCredential secret .header nonce) && !presented.isEmpty

def ipGranted : Bool :=
  request.clientIp.any fun ip => !ip.isEmpty && settings.ipAllowlist.any fun cidr => ipMatchesCidr ip cidr

def runTokenGranted : Bool :=
  ((request.header stagingRunTokenHeader).bind fun token =>
    if token.isEmpty then none else verifyStagingRunToken secret token nowSeconds).any fun run => run.1 = .capture

/-- The modes the request satisfied, in the order they are checked. -/
def grantedModes : List StagingAccessMode :=
  (if cookieGranted settings secret request nowSeconds then [.cookie] else []) ++
  (if basicAuthGranted settings secret request then [.basicAuth] else []) ++
  (if headerGranted settings secret request then [.header] else []) ++
  (if ipGranted settings request then [.ip] else []) ++
  (if runTokenGranted secret request nowSeconds then [.runToken] else [])

def decideStagingAccess : StagingAccessDecision :=
  match grantedModes settings secret request nowSeconds with
  | via :: rest => .allowed via (via :: rest)
  | [] => .refused (if settings.basicAuthEnabled then 401 else 403)

end Decision

end CaeloCms.Staging
