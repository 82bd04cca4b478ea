import CaeloCms.Mcp.Redirects
import CaeloCms.Mcp.Seal
import CaeloCms.Shared.Json

/-!
# MCP clients

How the broker answers, and how it knows a client: by the metadata document its `client_id` names, or by the registration
sealed into it.  A document kept from an earlier request of the same address is one more answer of `fetch`.
-/

namespace CaeloCms.Mcp

open CaeloCms.Redirect (utf16Length isSpace Url)

/-! ### Answers -/

/-- What a grant opens, as the consent page says it. -/
inductive Access
  | only (surface : McpSurface)
  | both
deriving DecidableEq

structure ConsentPage where
  site : List Char
  /-- The name the app gave itself, shown as not verified. -/
  clientName : Option String
  target : List Char
  note : Option String
  redirectUri : String
  access : Access
  formAction : List Char
  consentToken : String
  binding : ConsentBinding
deriving DecidableEq

/-- An answer that hands out nothing but, at most, a redirect. -/
inductive Reply
  | pageError (description : String) (status : Nat)
  /-- To the client's redirect URI; `iss` is the last parameter. -/
  | redirect (uri : String) (params : List (String × String)) (setCookie : Option String)
  | oauthError (error description : String) (status : Nat)
  | unauthorized (surface : McpSurface) (invalidToken : Bool)
  | methodNotAllowed
  | requestTooLarge
  /-- The handler threw. -/
  | threw
deriving DecidableEq

inductive Response
  | reply (reply : Reply)
  | page (page : ConsentPage)
  /-- To Google's sign-in. -/
  | google (clientId callback codeChallenge state : String)
  | registered (client_id : String) (client_id_issued_at : Nat) (redirect_uris : List String) (client_name : Option String)
  | tokens (access_token : String) (expires_in : Nat) (refresh_token : String) (scope : Option String)
  /-- Sent on to the admin. -/
  | forwarded (surface : McpSurface) (idToken client : String)
deriving DecidableEq

inductive GoogleParams
  | exchange (code code_verifier : String)
  | refresh (refresh_token : String)
deriving DecidableEq

/-- What a handler did: its response, the values it sealed and its call of Google. -/
structure Answer where
  response : Response
  sealed : Issued := []
  google : Option GoogleParams := none
deriving DecidableEq

def authorizePageError (description : String) (status : Nat := 400) : Reply := .pageError description status

def oauthError (error description : String) (status : Nat := 400) : Reply := .oauthError error description status

/-- What the request draws at random: a binding, and the texts of the values it seals. -/
structure Fresh where
  binding : ConsentBinding
  token : String
  access : String
deriving DecidableEq

/-! ### Checks that end a request -/

/-- Ends the request with `r` unless `c` holds. -/
def require (c : Bool) (r : Reply) : Except Reply Unit := if c then .ok () else .error r

/-- Ends the request with `r` when there is no value. -/
def expect {α : Type} (r : Reply) : Option α → Except Reply α
  | some a => .ok a
  | none => .error r

section Checks

variable {α β : Type} {c : Bool} {r : Reply} {u : Unit} {a : α} {b : β} {o : Option α} {x : Except Reply α}
  {f : α → Except Reply β}

@[simp] theorem require_eq_ok : require c r = .ok u ↔ c = true := by
  cases c <;> simp [require]

@[simp] theorem expect_eq_ok : expect r o = .ok a ↔ o = some a := by
  cases o <;> simp [expect]

theorem bind_eq_ok : (x >>= f) = .ok b ↔ ∃ a, x = .ok a ∧ f a = .ok b := by
  cases x with
  | error e => simp [bind, Except.bind]
  | ok a => simp [bind, Except.bind]

end Checks

/-- A request whose checks pass is answered by `f`. -/
def answerWith {α : Type} (f : α → Answer) : Except Reply α → Answer
  | .error r => ⟨.reply r, [], none⟩
  | .ok a => f a

/-! ### Parameters -/

abbrev Params := List (String × String)

inductive Body (α : Type)
  | tooLarge
  | read (value : α)
deriving DecidableEq

def Body.within? {α : Type} : Body α → Option α
  | .tooLarge => none
  | .read value => some value

/-- What `in` finds in every object. -/
def objectPrototype : List String :=
  ["constructor", "__defineGetter__", "__defineSetter__", "hasOwnProperty", "__lookupGetter__", "__lookupSetter__",
   "isPrototypeOf", "propertyIsEnumerable", "toString", "valueOf", "__proto__", "toLocaleString"]

/-- The first name that is already there when it is set. -/
def repeated? (seen : List String) : Params → Option String
  | [] => none
  | (k, _) :: rest => if seen.contains k then some k else repeated? (k :: seen) rest

def singleParams (params : Params) : Option Params :=
  if (repeated? objectPrototype params).isSome then none else some params

def param (params : Params) (name : String) : Option String := params.lookup name

def requiredParam (params : Params) (name : String) (min max : Nat) : Option String :=
  (param params name).filter (within min max)

/-- `z.string().min(min).max(max).optional()`; the outer `none` refuses the request. -/
def optionalParam (params : Params) (name : String) (min max : Nat) : Option (Option String) :=
  match param params name with
  | none => some none
  | some v => if within min max v then some (some v) else none

def isWordChar (c : Char) : Bool := c.isAlphanum || c == '_'

/-- `^type\b` without regard to case. -/
def isContentType (type header : String) : Bool :=
  match type.toList.isPrefixOf? (header.toList.map Char.toLower) with
  | none => false
  | some rest => !rest.head?.any isWordChar

def isFormType : String → Bool := isContentType "application/x-www-form-urlencoded"

def isJsonType : String → Bool := isContentType "application/json"

/-! ### Resolution -/

structure ResolvedClient where
  clientId : String
  redirectUris : List String
  clientName : Option String
deriving DecidableEq

/-- `CimdDocumentSchema` -/
structure CimdDocument where
  client_id : String
  redirect_uris : List String
  client_name : Option String
deriving DecidableEq

/-- How fetching a metadata document ended. -/
inductive CimdAnswer
  | unreachable
  | status (code : Nat)
  | notJsonType
  | unreadable
  | tooLarge
  | notJson
  | malformed
  | document (doc : CimdDocument)
deriving DecidableEq

def cimdAllowedHosts : List String := ["claude.ai", "chatgpt.com"]

def isHttps (s : String) : Bool := "https://".toList.isPrefixOf s.toList

variable (p : Platform)

def cimdUrl (clientId : String) : Option Url :=
  if !isHttps clientId then none
  else do
    let url ← p.parseUrl clientId.toList
    if url.protocol ≠ "https:".toList ∨ url.port ≠ [] ∨ url.username ≠ [] ∨ url.password ≠ [] then none
    else if url.search ≠ [] ∨ url.hash ≠ [] ∨ url.href ≠ clientId.toList then none
    else if cimdAllowedHosts.contains (String.ofList url.hostname) then some url
    else none

def resolveCimd (clientId : String) : CimdAnswer → Except String ResolvedClient
  | .unreachable => .error "the client's metadata document could not be fetched"
  | .status code => .error s!"the client's metadata document answered HTTP {code}"
  | .notJsonType => .error "the client's metadata document is not JSON"
  | .unreadable => .error "the client's metadata document could not be read"
  | .tooLarge => .error "the client's metadata document is too large"
  | .notJson => .error "the client's metadata document is not JSON"
  | .malformed => .error "the client's metadata document is malformed"
  | .document doc =>
    if !redirectUrisValid doc.redirect_uris || !doc.client_name.all (within 0 200) then
      .error "the client's metadata document is malformed"
    else if doc.client_id ≠ clientId then .error "the client's metadata document names a different client_id"
    else
      let usable := doc.redirect_uris.filter isAllowedRedirectUri
      if usable.isEmpty then .error "none of the client's redirect URIs is one Caelo accepts"
      else .ok { clientId, redirectUris := usable, clientName := doc.client_name }

def resolveClient (ctx : McpContext) (issued : Issued) (fetched : CimdAnswer) (clientId : String) :
    Except String ResolvedClient :=
  if isHttps clientId then
    if (cimdUrl p clientId).isNone then
      .error ("client metadata documents are only accepted from " ++ ", ".intercalate cimdAllowedHosts)
    else resolveCimd clientId fetched
  else match openSealed ctx.openKeys clientSeal clientId issued ctx.nowSeconds with
    | .error _ => .error "unknown client_id; register the client again"
    | .ok reg => .ok { clientId, redirectUris := reg.redirect_uris, clientName := reg.client_name }

/-! ### The client's key -/

def trim (s : List Char) : List Char := ((s.dropWhile isSpace).reverse.dropWhile isSpace).reverse

/-- `.replace(/\s+/g, " ")`; `inSpace` after a blank. -/
def collapseBlanks (inSpace : Bool) : List Char → List Char
  | [] => []
  | c :: cs =>
    if isSpace c then if inSpace then collapseBlanks true cs else ' ' :: collapseBlanks true cs
    else c :: collapseBlanks false cs

def hashed (v : String) : String := "sha256:" ++ String.ofList ((p.sha256Hex v).toList.take 32)

def mcpClientKey (clientId : String) (clientName : Option String) : String :=
  if isHttps clientId then
    if utf16Length clientId.toList ≤ maxClientKeyLength then clientId else hashed p clientId
  else
    match clientName.map fun n => String.ofList (collapseBlanks false (trim n.toList)) with
    | none => "dcr:" ++ hashed p clientId
    | some name =>
      if name = "" then "dcr:" ++ hashed p clientId
      else if utf16Length ("dcr:" ++ name).toList ≤ maxClientKeyLength then "dcr:" ++ name
      else "dcr:" ++ hashed p name

def clientKeyOf (ctx : McpContext) (issued : Issued) (clientId : String) : String :=
  if isHttps clientId then mcpClientKey p clientId none
  else match openSealed ctx.openKeys clientSeal clientId issued ctx.nowSeconds with
    | .error _ => mcpClientKey p clientId none
    | .ok reg => mcpClientKey p clientId reg.client_name

/-! ### Registration -/

structure RegisterRequest where
  contentType : String
  /-- `none` when the body is not JSON -/
  body : Body (Option Json)

structure Registration where
  redirect_uris : List String
  token_endpoint_auth_method : Option String
  grant_types : Option (List String)
  response_types : Option (List String)
  client_name : Option String

/-- A string of at most `max` characters. -/
def shortString (max : Nat) (v : Json) : Option String := v.asString?.filter (within 0 max)

/-- An optional field; the outer `none` refuses the body. -/
def optionalField {α : Type} (v : Json) (name : String) (read : Json → Option α) : Option (Option α) :=
  match v.field name with
  | none => some none
  | some f => (read f).map some

/-- `z.array(z.string().max(64)).max(10)` -/
def shortStrings : Json → Option (List String)
  | .arr items => if items.length ≤ 10 then items.mapM (shortString 64) else none
  | _ => none

def readRegistration : Json → Option Registration
  | .obj fields => do
    let v := Json.obj fields
    let uris ← match v.field "redirect_uris" with
      | some (.arr items) => items.mapM Json.asString?
      | _ => none
    let method ← optionalField v "token_endpoint_auth_method" (shortString 64)
    let grants ← optionalField v "grant_types" shortStrings
    let responses ← optionalField v "response_types" shortStrings
    let name ← optionalField v "client_name" (shortString 200)
    if redirectUrisValid uris then
      some { redirect_uris := uris, token_endpoint_auth_method := method, grant_types := grants,
             response_types := responses, client_name := name }
    else none
  | _ => none

def grantTypes : List String := ["authorization_code", "refresh_token"]

def maxDcrClientIdLength : Nat := 2048

def sealClient (ctx : McpContext) (fresh : Fresh) (reg : Registration) : SealedBox SealKey Payload :=
  ⟨fresh.token, ctx.sealKey,
    .client { redirect_uris := reg.redirect_uris, client_name := reg.client_name, iat := ctx.nowSeconds }⟩

def checkRegistration (req : RegisterRequest) : Except Reply Registration := do
  require (isJsonType req.contentType)
    (oauthError "invalid_client_metadata" "send the registration as application/json")
  let text ← expect (oauthError "invalid_client_metadata" "registration body too large" 413) req.body.within?
  let raw ← expect (oauthError "invalid_client_metadata" "registration body is not JSON") text
  let reg ← expect (oauthError "invalid_client_metadata"
    "redirect_uris (1–20 strings) is required; client_name, grant_types, response_types must be strings")
    (readRegistration raw)
  require (reg.token_endpoint_auth_method.all (· == "none"))
    (oauthError "invalid_client_metadata"
      "only public clients are supported: token_endpoint_auth_method must be \"none\" (use PKCE S256)")
  require (reg.grant_types.all fun gs => gs.all grantTypes.contains)
    (oauthError "invalid_client_metadata" "grant_types may only contain authorization_code and refresh_token")
  require (reg.response_types.all fun rs => rs.all (· == "code"))
    (oauthError "invalid_client_metadata" "response_types may only contain \"code\"")
  let refused := reg.redirect_uris.filter fun u => !isAllowedRedirectUri u
  let named := ", ".intercalate (refused.map fun u => String.ofList (Redirect.jsonString (u.toList.take 200)))
  require refused.isEmpty
    (oauthError "invalid_redirect_uri"
      s!"redirect URI not accepted by this Caelo site: {named}. Supported: Claude, ChatGPT, VS Code, Cursor callbacks and http loopback (127.0.0.1, localhost, [::1]).")
  return reg

def handleRegister (ctx : McpContext) (fresh : Fresh) (req : RegisterRequest) : Answer :=
  answerWith
    (fun reg =>
      { response :=
          -- a text that is too long was sealed, but is not handed out
          if maxDcrClientIdLength < utf16Length fresh.token.toList then
            .reply (oauthError "invalid_client_metadata"
              "the registration is too large: register fewer or shorter redirect_uris and a shorter client_name")
          else .registered fresh.token ctx.nowSeconds reg.redirect_uris reg.client_name
        sealed := [sealClient ctx fresh reg] })
    (checkRegistration req)

end CaeloCms.Mcp
