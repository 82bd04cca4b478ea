import CaeloCms.Mcp.Clients

/-!
# The authorization endpoint

The consent page with its browser binding, the user's decision and Google's callback.  A request that passes the checks of
its handler is answered by one function, which seals what the next request has to bring back.
-/

namespace CaeloCms.Mcp

open CaeloCms.Redirect (utf16Length isSpace Url)

def consentTtlSeconds : Nat := 10 * 60

def stateTtlSeconds : Nat := 10 * 60

def codeTtlSeconds : Nat := 5 * 60

/-! ### The binding cookie -/

def cookiePrefix : String := "__Host-caelo-mcp-consent-"

def clearBindingCookie (id : String) : String := cookiePrefix ++ id ++ "=; Path=/; Secure; HttpOnly; SameSite=Lax; Max-Age=0"

/-- The names and values of a `Cookie` header. -/
def cookiePairs (header : String) : Params :=
  (header.toList.splitOn ';').filterMap fun part =>
    if part.contains '=' then
      some (String.ofList (trim (part.takeWhile (· != '='))), String.ofList (trim ((part.dropWhile (· != '=')).drop 1)))
    else none

def requestHoldsBinding (cookie : String) (b : ConsentBinding) : Bool :=
  (cookiePairs cookie).any fun pair => pair.1 == cookiePrefix ++ b.id && pair.2 == b.nonce

/-! ### The consent page -/

variable (p : Platform)

def urlHost (u : Url) : List Char := if u.port.isEmpty then u.hostname else u.hostname ++ ':' :: u.port

def urlOrigin (u : Url) : List Char := u.protocol ++ "//".toList ++ urlHost u

def redirectNote (u : Url) : Option String := if u.protocol = "http:".toList then some "an app running on this computer" else none

def formActionSource (u : Url) : List Char :=
  if u.protocol = "http:".toList ∨ u.protocol = "https:".toList then urlOrigin u else u.protocol

def surfaceOf (publicUrl : String) (resource : Option String) : Option McpSurface :=
  if resource = some (resourceUrl publicUrl .chat) then some .chat
  else if resource = some (resourceUrl publicUrl .admin) then some .admin
  else none

def accessOf (publicUrl : String) (resource : Option String) : Access :=
  match surfaceOf publicUrl resource with
  | some s => .only s
  | none => .both

/-- The page, unless one of its URLs does not parse. -/
def consentPage (publicUrl : String) (clientName : Option String) (s : BoundSignIn) (consentToken : String) :
    Option ConsentPage := do
  let site ← p.parseUrl publicUrl.toList
  let u ← p.parseUrl s.redirect_uri.toList
  some
    { site := urlHost site
      clientName := clientName.filter fun n => !(trim n.toList).isEmpty
      target := urlOrigin u
      note := redirectNote u
      redirectUri := s.redirect_uri
      access := accessOf publicUrl s.resource
      formAction := formActionSource u
      consentToken
      binding := s.binding }

/-! ### GET /authorize -/

def redirectToClient (publicUrl redirectUri : String) (params : List (String × Option String)) (setCookie : Option String) :
    Reply :=
  match p.parseUrl redirectUri.toList with
  | none => .threw
  | some _ =>
    .redirect redirectUri (params.filterMap (fun (k, v) => v.map (k, ·)) ++ [("iss", issuer publicUrl)]) setCookie

def errorRedirect (publicUrl redirectUri : String) (clientState : Option String) (error description : String)
    (setCookie : Option String := none) : Reply :=
  redirectToClient p publicUrl redirectUri
    [("error", some error), ("error_description", some description), ("state", clientState)] setCookie

structure AuthorizeQuery where
  response_type : Option String
  client_id : String
  redirect_uri : String
  code_challenge : Option String
  code_challenge_method : Option String
  state : Option String
  resource : Option String
deriving DecidableEq

def readAuthorizeQuery (params : Params) : Option AuthorizeQuery := do
  let response_type ← optionalParam params "response_type" 0 64
  let client_id ← requiredParam params "client_id" 1 8192
  let redirect_uri ← requiredParam params "redirect_uri" 1 2048
  let code_challenge ← optionalParam params "code_challenge" 0 256
  let code_challenge_method ← optionalParam params "code_challenge_method" 0 32
  let state ← optionalParam params "state" 0 1024
  let _ ← optionalParam params "scope" 0 1024
  let resource ← optionalParam params "resource" 0 2048
  some { response_type, client_id, redirect_uri, code_challenge, code_challenge_method, state, resource }

def isS256Challenge (challenge : String) : Bool := challenge.toList.length = 43 && challenge.toList.all isBase64Url

/-- What the consent page asks about. -/
structure AuthorizeAsk where
  query : AuthorizeQuery
  clientName : Option String
  code_challenge : String
deriving DecidableEq

def checkAuthorize (ctx : McpContext) (issued : Issued) (fetched : CimdAnswer) (params : Params) :
    Except Reply AuthorizeAsk := do
  let params ← expect (authorizePageError "a parameter was sent more than once") (singleParams params)
  let q ← expect (authorizePageError "client_id and redirect_uri are required") (readAuthorizeQuery params)
  let client ← (resolveClient p ctx issued fetched q.client_id).mapError fun message => authorizePageError message
  require (redirectUriMatches q.redirect_uri client.redirectUris)
    (authorizePageError "the redirect_uri is not registered for this client")
  -- from here on the redirect URI is trusted
  let fail := errorRedirect p ctx.publicUrl q.redirect_uri q.state
  require (q.response_type == some "code") (fail "unsupported_response_type" "response_type must be \"code\"")
  let challenge ← expect
    (fail "invalid_request" "PKCE is required: send code_challenge with code_challenge_method=S256") q.code_challenge
  let method ← expect
    (fail "invalid_request" "PKCE is required: send code_challenge with code_challenge_method=S256") q.code_challenge_method
  require (method == "S256") (fail "invalid_request" "only code_challenge_method=S256 is supported")
  require (isS256Challenge challenge)
    (fail "invalid_request" "code_challenge is not a valid S256 challenge (43 base64url characters)")
  require (q.resource.all (resourceUrls ctx.publicUrl).contains)
    (fail "invalid_target" "resource must be this site's /api/mcp/chat or /api/mcp/admin URL")
  return { query := q, clientName := client.clientName, code_challenge := challenge }

/-- What the consent token carries. -/
def askedSignIn (ctx : McpContext) (fresh : Fresh) (ask : AuthorizeAsk) : BoundSignIn where
  client_id := ask.query.client_id
  redirect_uri := ask.query.redirect_uri
  resource := ask.query.resource
  code_challenge := ask.code_challenge
  client_state := ask.query.state
  binding := fresh.binding
  exp := ctx.nowSeconds + consentTtlSeconds

def handleAuthorize (ctx : McpContext) (issued : Issued) (fetched : CimdAnswer) (fresh : Fresh) (params : Params) : Answer :=
  answerWith
    (fun ask =>
      { response :=
          match consentPage p ctx.publicUrl ask.clientName (askedSignIn ctx fresh ask) fresh.token with
          | some page => .page page
          | none => .reply .threw
        sealed := [⟨fresh.token, ctx.sealKey, .consent (askedSignIn ctx fresh ask)⟩] })
    (checkAuthorize p ctx issued fetched params)

/-! ### POST /authorize -/

inductive Decision
  | approve
  | deny
deriving DecidableEq

structure DecisionRequest where
  origin : Option String
  contentType : String
  cookie : String
  body : Body Params
deriving DecidableEq

def readDecision : String → Option Decision
  | "approve" => some .approve
  | "deny" => some .deny
  | _ => none

/-- `DecisionForm`: exactly the two fields of the page's form. -/
def readDecisionForm (params : Params) : Option (String × Decision) := do
  let consent ← requiredParam params "consent" 1 8192
  let decision ← (param params "decision").bind readDecision
  if params.all fun field => ["consent", "decision"].contains field.1 then some (consent, decision) else none

def checkDecision (ctx : McpContext) (issued : Issued) (req : DecisionRequest) :
    Except Reply (String × BoundSignIn × Decision) := do
  require (req.origin.all fun o => o == "null" || o == ctx.publicUrl)
    (authorizePageError "the approval did not come from this site's consent page")
  require (isFormType req.contentType) (authorizePageError "the approval was not sent by this site's consent page")
  let fields ← expect (authorizePageError "the approval is too large" 413) req.body.within?
  let form ← expect (authorizePageError "the approval is incomplete") ((singleParams fields).bind readDecisionForm)
  let c ← (openSealed ctx.openKeys consentSeal form.1 issued ctx.nowSeconds).mapError fun reason =>
    authorizePageError
      (if reason = .expired then "the approval page was open for more than 10 minutes"
       else "the approval does not belong to a sign-in this site started")
  require (requestHoldsBinding req.cookie c.binding)
    (authorizePageError
      "the approval did not come from the browser that opened the consent page (cookies blocked?)")
  return (form.1, c, form.2)

def googleCallbackPath : String := "/api/mcp/oauth/google-callback"

/-- What the Google `state` carries. -/
def approvedSignIn (ctx : McpContext) (c : BoundSignIn) : BoundSignIn := { c with exp := ctx.nowSeconds + stateTtlSeconds }

def handleAuthorizeDecision (ctx : McpContext) (issued : Issued) (fresh : Fresh) (req : DecisionRequest) : Answer :=
  answerWith
    (fun (_, c, decision) =>
      match decision with
      | .deny =>
        { response := .reply (errorRedirect p ctx.publicUrl c.redirect_uri c.client_state "access_denied"
            "the user denied the connection" (some (clearBindingCookie c.binding.id))) }
      | .approve =>
        { response := .google ctx.google.clientId (ctx.publicUrl ++ googleCallbackPath) c.code_challenge fresh.token
          sealed := [⟨fresh.token, ctx.sealKey, .state (approvedSignIn ctx c)⟩] })
    (checkDecision ctx issued req)

/-! ### GET /google-callback -/

structure CallbackRequest where
  cookie : String
  params : Params
deriving DecidableEq

structure CallbackQuery where
  state : String
  code : Option String
  error : Option String
deriving DecidableEq

def readCallbackQuery (params : Params) : Option CallbackQuery := do
  let state ← requiredParam params "state" 1 8192
  let code ← optionalParam params "code" 1 2048
  let error ← optionalParam params "error" 0 128
  some { state, code, error }

def forwardedGoogleErrors : List String := ["access_denied", "invalid_scope", "temporarily_unavailable"]

/-- The `state` text, what it opens to and Google's code. -/
def checkCallback (ctx : McpContext) (issued : Issued) (req : CallbackRequest) :
    Except Reply (String × BoundSignIn × String) := do
  let q ← expect (authorizePageError "the sign-in response from Google is incomplete")
    ((singleParams req.params).bind readCallbackQuery)
  let st ← (openSealed ctx.openKeys stateSeal q.state issued ctx.nowSeconds).mapError fun reason =>
    authorizePageError
      (if reason = .expired then "the sign-in took longer than 10 minutes"
       else "the sign-in response does not belong to a sign-in this site started")
  require (requestHoldsBinding req.cookie st.binding)
    (authorizePageError "the sign-in was not approved in this browser. Start connecting again from your AI app")
  let googleError := q.error.getD "server_error"
  let code ← expect
    (errorRedirect p ctx.publicUrl st.redirect_uri st.client_state
      (if forwardedGoogleErrors.contains googleError then googleError else "server_error")
      "Google sign-in did not complete" (some (clearBindingCookie st.binding.id)))
    (if q.error.isSome then none else q.code)
  return (q.state, st, code)

def codeOf (ctx : McpContext) (st : BoundSignIn) (googleCode : String) : CodeSeal where
  toSignIn := st.toSignIn
  google_code := googleCode
  exp := ctx.nowSeconds + codeTtlSeconds

def handleGoogleCallback (ctx : McpContext) (issued : Issued) (fresh : Fresh) (req : CallbackRequest) : Answer :=
  answerWith
    (fun (_, st, googleCode) =>
      { response := .reply (redirectToClient p ctx.publicUrl st.redirect_uri
          [("code", some fresh.token), ("state", st.client_state)] (some (clearBindingCookie st.binding.id)))
        sealed := [⟨fresh.token, ctx.sealKey, .code (codeOf ctx st googleCode)⟩] })
    (checkCallback p ctx issued req)

end CaeloCms.Mcp
