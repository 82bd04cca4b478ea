import CaeloCms.Mcp.Authorize

/-!
# The token endpoint and the proxy

The two grants with Google's token endpoint behind them, and the requests the proxy sends on to the admin.  A token request
waits for Google between the checks, made at `nowSeconds` of its context, and the answer, made at `laterSeconds`.
-/

namespace CaeloCms.Mcp

open CaeloCms.Redirect (utf16Length)

variable (p : Platform)

/-! ### Google's token endpoint -/

/-- The fields of a token response that the broker uses; `claims` are the audience and expiry of the ID token. -/
structure GoogleTokenBody where
  id_token : String
  refresh_token : Option String
  scope : Option String
  claims : Option (String × Int)
deriving DecidableEq

inductive GoogleReply
  | unreachable (name : String)
  | notJson (status : Nat)
  | refused (status : Nat) (error : Option String)
  /-- `none` when the body has not the shape of a token response -/
  | answered (status : Nat) (body : Option GoogleTokenBody)
deriving DecidableEq

structure GoogleTokens where
  idToken : String
  idTokenExpiresIn : Nat
  refreshToken : Option String
  scope : Option String
deriving DecidableEq

inductive GoogleFailure
  | invalid_grant
  | upstream (detail : String)
deriving DecidableEq

def tokenCall (google : GoogleClient) (nowSeconds : Nat) : GoogleReply → Except GoogleFailure GoogleTokens
  | .unreachable name => .error (.upstream name)
  | .notJson status => .error (.upstream s!"HTTP {status}, body not JSON")
  | .refused status error =>
    let code := error.getD "unknown"
    if code = "invalid_grant" then .error .invalid_grant else .error (.upstream s!"HTTP {status}, error={code}")
  | .answered status none =>
    .error (.upstream s!"HTTP {status}, unexpected token response shape (an ID token is required; is \"openid\" granted?)")
  | .answered _ (some body) =>
    match body.claims with
    | none => .error (.upstream "the ID token's claims are unreadable")
    | some (aud, exp) =>
      if aud ≠ google.clientId then
        .error (.upstream "the ID token's audience is not the configured Google client")
      else if exp - nowSeconds ≤ 0 then .error (.upstream "Google returned an already expired ID token")
      else
        .ok { idToken := body.id_token, idTokenExpiresIn := (exp - nowSeconds).toNat, refreshToken := body.refresh_token,
              scope := body.scope }

def googleFailure (what : String) : GoogleFailure → Reply
  | .invalid_grant => oauthError "invalid_grant" s!"{what} is invalid, expired or revoked; sign in again"
  | .upstream _ =>
    oauthError "temporarily_unavailable"
      "Google sign-in is unavailable for this site right now. If it persists, an Owner checks the Google sign-in client under Settings → Google sign-in."
      503

/-! ### The token request -/

def refreshMaxLifetimeSeconds : Nat := 30 * 24 * 60 * 60

def isCodeVerifier (verifier : String) : Bool :=
  43 ≤ verifier.toList.length && verifier.toList.length ≤ 128 &&
    verifier.toList.all fun c => c.isAlphanum || "._~-".toList.contains c

structure TokenHttp where
  contentType : String
  authorization : Option String
  body : Body Params
deriving DecidableEq

structure CodeGrant where
  code : String
  redirect_uri : String
  code_verifier : Option String
  client_id : String
  resource : Option String
deriving DecidableEq

structure RefreshGrant where
  refresh_token : String
  client_id : String
  resource : Option String
deriving DecidableEq

inductive TokenRequest
  | authorization_code (grant : CodeGrant)
  | refresh_token (grant : RefreshGrant)
deriving DecidableEq

def TokenRequest.resource : TokenRequest → Option String
  | authorization_code grant => grant.resource
  | refresh_token grant => grant.resource

def readCodeGrant (fields : Params) : Option TokenRequest := do
  let code ← requiredParam fields "code" 1 8192
  let redirect_uri ← requiredParam fields "redirect_uri" 1 2048
  let code_verifier ← optionalParam fields "code_verifier" 0 256
  let client_id ← requiredParam fields "client_id" 1 8192
  let resource ← optionalParam fields "resource" 0 2048
  let _ ← optionalParam fields "scope" 0 1024
  some (.authorization_code { code, redirect_uri, code_verifier, client_id, resource })

def readRefreshGrant (fields : Params) : Option TokenRequest := do
  let refresh_token ← requiredParam fields "refresh_token" 1 8192
  let client_id ← requiredParam fields "client_id" 1 8192
  let resource ← optionalParam fields "resource" 0 2048
  let _ ← optionalParam fields "scope" 0 1024
  some (.refresh_token { refresh_token, client_id, resource })

def hasField (fields : Params) (name : String) : Bool := (param fields name).any (· ≠ "")

def readTokenRequest (fields : Params) (grantType : String) : Except Reply TokenRequest :=
  if grantType = "authorization_code" then
    expect (oauthError "invalid_request" "authorization_code needs code, redirect_uri, client_id and code_verifier")
      (readCodeGrant fields)
  else expect (oauthError "invalid_request" "refresh_token needs refresh_token and client_id") (readRefreshGrant fields)

def checkTokenRequest (ctx : McpContext) (req : TokenHttp) : Except Reply TokenRequest := do
  require (isFormType req.contentType)
    (oauthError "invalid_request" "send the token request as application/x-www-form-urlencoded")
  require (!req.authorization.any (· ≠ ""))
    (oauthError "invalid_client" "this server only supports public clients (no client authentication)" 401)
  let fields ← expect (oauthError "invalid_request" "token request too large" 413) req.body.within?
  let twice := repeated? objectPrototype fields
  let name := twice.getD ""
  require twice.isNone (oauthError "invalid_request" s!"parameter {name} was sent more than once")
  require (["client_secret", "client_assertion", "client_assertion_type"].all fun name => !hasField fields name)
    (oauthError "invalid_client" "this server only supports public clients (no client authentication)" 401)
  let grantType ← expect (oauthError "unsupported_grant_type" "grant_type must be authorization_code or refresh_token")
    ((param fields "grant_type").filter grantTypes.contains)
  let r ← readTokenRequest fields grantType
  require (r.resource.all (resourceUrls ctx.publicUrl).contains)
    (oauthError "invalid_target" "resource must be this site's /api/mcp/chat or /api/mcp/admin URL")
  return r

/-! ### The grants -/

def pkceMatches (verifier challenge : String) : Bool := p.sha256Base64Url verifier == challenge

def grantResource (bound requested : Option String) : Except Reply (Option String) :=
  if requested.isSome ∧ bound.isSome ∧ requested ≠ bound then
    .error (oauthError "invalid_target"
      "resource differs from the one this grant was authorized for; sign in again for that resource")
  else .ok (bound <|> requested)

def tokenSeals (ctx : McpContext) (laterSeconds : Nat) (fresh : Fresh) (tokens : GoogleTokens) (refresh : RefreshSeal)
    (clientKey : String) : Issued :=
  [⟨fresh.token, ctx.sealKey, .refresh refresh⟩,
   ⟨fresh.access, ctx.sealKey,
     .access { id_token := tokens.idToken, resource := refresh.resource, client := clientKey,
               exp := laterSeconds + tokens.idTokenExpiresIn }⟩]

def tokenResponse (fresh : Fresh) (tokens : GoogleTokens) : Response :=
  .tokens fresh.access tokens.idTokenExpiresIn fresh.token tokens.scope

structure RedeemedCode where
  grant : CodeGrant
  code : CodeSeal
  verifier : String
  resource : Option String
deriving DecidableEq

def checkCodeGrant (ctx : McpContext) (issued : Issued) (r : CodeGrant) : Except Reply RedeemedCode := do
  let verifier ← expect
    (oauthError "invalid_request" "PKCE is required: send the code_verifier (43–128 characters)")
    (r.code_verifier.filter isCodeVerifier)
  let code ← (openSealed ctx.openKeys codeSeal r.code issued ctx.nowSeconds).mapError fun _ =>
    oauthError "invalid_grant" "the authorization code is invalid or expired"
  require (code.client_id == r.client_id && code.redirect_uri == r.redirect_uri)
    (oauthError "invalid_grant" "the authorization code was issued to a different client or redirect_uri")
  require (pkceMatches p verifier code.code_challenge)
    (oauthError "invalid_grant" "the code_verifier does not match the code_challenge sent to /authorize")
  let resource ← grantResource code.resource r.resource
  return { grant := r, code, verifier, resource }

def signInRefresh (ctx : McpContext) (issued : Issued) (c : RedeemedCode) (googleRefreshToken : String) : RefreshSeal where
  google_refresh_token := googleRefreshToken
  client_id := c.grant.client_id
  resource := c.resource
  iat := ctx.nowSeconds
  client_key := some (clientKeyOf p ctx issued c.grant.client_id)

def redeemCode (ctx : McpContext) (issued : Issued) (laterSeconds : Nat) (fresh : Fresh) (reply : GoogleReply)
    (c : RedeemedCode) : Answer :=
  let call := some (GoogleParams.exchange c.code.google_code c.verifier)
  match tokenCall ctx.google ctx.nowSeconds reply with
  | .error e => ⟨.reply (googleFailure "authorization code" e), [], call⟩
  | .ok tokens =>
    match tokens.refreshToken with
    | none => ⟨.reply (googleFailure "authorization code" (.upstream "no refresh token in the code exchange")), [], call⟩
    | some googleRefreshToken =>
      ⟨tokenResponse fresh tokens,
        tokenSeals ctx laterSeconds fresh tokens (signInRefresh p ctx issued c googleRefreshToken)
          (clientKeyOf p ctx issued c.grant.client_id), call⟩

structure RedeemedRefresh where
  grant : RefreshGrant
  sealed : RefreshSeal
  resource : Option String
deriving DecidableEq

def checkRefreshGrant (ctx : McpContext) (issued : Issued) (r : RefreshGrant) : Except Reply RedeemedRefresh := do
  let sealed ← (openSealed ctx.openKeys refreshSeal r.refresh_token issued ctx.nowSeconds).mapError fun _ =>
    oauthError "invalid_grant" "the refresh token is invalid; sign in again"
  require (sealed.client_id == r.client_id)
    (oauthError "invalid_grant" "the refresh token was issued to a different client")
  require (ctx.nowSeconds - sealed.iat < refreshMaxLifetimeSeconds)
    (oauthError "invalid_grant" "the sign-in is older than 30 days; sign in again to keep this app connected")
  let resource ← grantResource sealed.resource r.resource
  return { grant := r, sealed, resource }

def refreshedKey (ctx : McpContext) (issued : Issued) (c : RedeemedRefresh) : String :=
  c.sealed.client_key.getD (clientKeyOf p ctx issued c.grant.client_id)

def resealedRefresh (ctx : McpContext) (issued : Issued) (c : RedeemedRefresh) (tokens : GoogleTokens) : RefreshSeal where
  google_refresh_token := tokens.refreshToken.getD c.sealed.google_refresh_token
  client_id := c.grant.client_id
  resource := c.resource
  iat := c.sealed.iat
  client_key := some (refreshedKey p ctx issued c)

def redeemRefresh (ctx : McpContext) (issued : Issued) (laterSeconds : Nat) (fresh : Fresh) (reply : GoogleReply)
    (c : RedeemedRefresh) : Answer :=
  let call := some (GoogleParams.refresh c.sealed.google_refresh_token)
  match tokenCall ctx.google ctx.nowSeconds reply with
  | .error e => ⟨.reply (googleFailure "refresh token" e), [], call⟩
  | .ok tokens =>
    ⟨tokenResponse fresh tokens,
      tokenSeals ctx laterSeconds fresh tokens (resealedRefresh p ctx issued c tokens) (refreshedKey p ctx issued c), call⟩

def handleToken (ctx : McpContext) (issued : Issued) (laterSeconds : Nat) (fresh : Fresh) (reply : GoogleReply)
    (req : TokenHttp) : Answer :=
  answerWith
    (fun r => match r with
      | .authorization_code grant =>
        answerWith (redeemCode p ctx issued laterSeconds fresh reply) (checkCodeGrant p ctx issued grant)
      | .refresh_token grant =>
        answerWith (redeemRefresh p ctx issued laterSeconds fresh reply) (checkRefreshGrant ctx issued grant))
    (checkTokenRequest ctx req)

/-! ### The proxy -/

structure ProxyRequest where
  surface : McpSurface
  method : String
  authorization : Option String
  contentLength : Nat
deriving DecidableEq

/-- The token of a `Bearer` header. -/
def bearerOf (authorization : String) : Option String :=
  if "bearer ".toList.isPrefixOf (authorization.toList.map Char.toLower) then
    let token := authorization.toList.drop 7
    let rest := token.dropWhile fun c => c.isAlphanum || "-._~+/".toList.contains c
    if rest.length < token.length ∧ rest.all (· == '=') then some (String.ofList token) else none
  else none

def openAccessToken (ctx : McpContext) (issued : Issued) (bearer : String) (surface : McpSurface) : Option AccessSeal :=
  match openSealed ctx.openKeys accessSeal bearer issued ctx.nowSeconds with
  | .error _ => none
  | .ok token => if token.resource.all (· == resourceUrl ctx.publicUrl surface) then some token else none

def maxProxyBodyBytes : Nat := 4 * ((5 * 1024 * 1024 + 2) / 3) * 4 + 1024 * 1024

def checkProxy (ctx : McpContext) (issued : Issued) (req : ProxyRequest) : Except Reply AccessSeal := do
  require (["GET", "POST", "DELETE"].contains req.method) .methodNotAllowed
  let bearer ← expect (.unauthorized req.surface req.authorization.isSome) (req.authorization.bind bearerOf)
  let token ← expect (.unauthorized req.surface true) (openAccessToken ctx issued bearer req.surface)
  require (req.contentLength ≤ maxProxyBodyBytes) .requestTooLarge
  return token

def handleMcpProxy (ctx : McpContext) (issued : Issued) (req : ProxyRequest) : Answer :=
  answerWith (fun token => { response := .forwarded req.surface token.id_token token.client })
    (checkProxy ctx issued req)

end CaeloCms.Mcp
