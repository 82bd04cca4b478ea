import CaeloCms.Mcp.Checks

/-!
# What a grant opens

Every sealed value is traced to the requests it comes from: a consent token to the page that was served with it, a Google
`state` to the approval of that page, a code to the callback that brought the `state` back, and the tokens of a grant to
the code that was redeemed.  The binding nonce ties the first three to one browser, since it is known only where the
page was served.  A request that reaches the admin is traced back through all of them.
-/

namespace CaeloCms.Mcp

open SealedBox (Justified)

/-! ### The requests of a sign-in -/

variable (p : Platform) (publicUrl : String) (keeper : String → Option Nat)

/-- The parameters name the sign-in `s`. -/
structure Names (params : Params) (s : SignIn) : Prop where
  client_id : param params "client_id" = some s.client_id
  redirect_uri : param params "redirect_uri" = some s.redirect_uri
  code_challenge : param params "code_challenge" = some s.code_challenge
  resource : param params "resource" = s.resource

/-- `x` asks for the sign-in `s` and is answered with `page`, which says so. -/
structure Asks (x : Exchange) (s : SignIn) (page : ConsentPage) : Prop where
  request : ∃ params, x.request = .authorize params ∧ Names params s
  answered : x.page? = some page
  redirectUri : page.redirectUri = s.redirect_uri
  access : page.access = accessOf publicUrl s.resource

/-- `y` approves the page that `x` was served, where it was served, and is sent to Google with `state`. -/
structure Approves (x y : Exchange) (page : ConsentPage) (state : String) : Prop where
  request : ∃ sameSite req fields, y.request = .decision sameSite req ∧ req.body = .read fields ∧
    param fields "consent" = some page.consentToken ∧ param fields "decision" = some "approve" ∧
    (y.sender ≠ .adversary → sameSite = true)
  browser : y.sender = x.sender
  state : ∃ clientId callback challenge, y.answer.response = .google clientId callback challenge state
  inTime : y.ctx.nowSeconds < x.ctx.nowSeconds + consentTtlSeconds

/-- `z` brings `state` back with Google's code, where the page was served, and gets `code` for the client. -/
structure Finishes (x y z : Exchange) (state googleCode code : String) : Prop where
  request : ∃ req, z.request = .callback req ∧ param req.params "state" = some state ∧
    param req.params "code" = some googleCode
  browser : z.sender = x.sender
  code : ∃ b ∈ z.answer.sealed, b.token = code
  inTime : z.ctx.nowSeconds < y.ctx.nowSeconds + stateTtlSeconds

/-- `r` redeems `code` with a verifier of the challenge of `s`, and Google's code with it. -/
structure Redeems (z r : Exchange) (s : SignIn) (googleCode code : String) : Prop where
  request : ∃ req fields verifier, r.request = .token req ∧ req.body = .read fields ∧ param fields "code" = some code ∧
    param fields "client_id" = some s.client_id ∧ param fields "redirect_uri" = some s.redirect_uri ∧
    param fields "code_verifier" = some verifier ∧ p.sha256Base64Url verifier = s.code_challenge ∧
    r.answer.google = some (.exchange googleCode verifier) ∧ ∀ c, keeper verifier = some c → r.sender = .client c
  inTime : r.ctx.nowSeconds < z.ctx.nowSeconds + codeTtlSeconds

/-- `r` redeems the code of a sign-in for `s` that one browser was asked, approved and finished. -/
def SignedIn (past : List Exchange) (s : SignIn) (r : Exchange) : Prop :=
  ∃ x ∈ past, ∃ y ∈ past, ∃ z ∈ past, ∃ page state googleCode code,
    Asks publicUrl x s page ∧ Approves x y page state ∧ Finishes x y z state googleCode code ∧ Redeems p keeper z r s googleCode code

/-- `y` presents the refresh token of `x` for the client. -/
def Refreshes (clientId : String) (x y : Exchange) : Prop :=
  ∃ access refresh, x.tokens? = some (access, refresh) ∧ ∃ req fields, y.request = .token req ∧ req.body = .read fields ∧
    param fields "refresh_token" = some refresh ∧ param fields "client_id" = some clientId

/-- The grants that descend from the code redeemed by `r`. -/
inductive Descends (past : List Exchange) (clientId : String) (r : Exchange) : Exchange → Prop
  | redeemed (mem : r ∈ past) : Descends past clientId r r
  | refreshed {x y : Exchange} (h : Descends past clientId r x) (mem : y ∈ past) (presents : Refreshes clientId x y)
      (young : y.ctx.nowSeconds < r.ctx.nowSeconds + refreshMaxLifetimeSeconds) : Descends past clientId r y

/-- `last` hands out tokens for `resource` in a grant of the sign-in `s`, which `r` redeemed. -/
structure Grants (past : List Exchange) (s : SignIn) (r last : Exchange) (resource : Option String) : Prop where
  signedIn : SignedIn p publicUrl keeper past s r
  descends : Descends past s.client_id r last
  bound : ∀ u, s.resource = some u → resource = some u

/-- `last` hands out the access token that `f` presents in time, and Google's ID token. -/
structure HandsOut (last : Exchange) (access idToken : String) (exp : Nat) : Prop where
  tokens : ∃ n refresh scope, last.answer.response = .tokens access n refresh scope ∧ exp = last.laterSeconds + n
  reply : ∃ status body, last.reply = .answered status (some body) ∧ body.id_token = idToken

/-- `f` presents an access token that `last` handed out for the sign-in `s`, on a surface its consent page named, and Google's
ID token is sent on. -/
structure Forwards (past : List Exchange) (s : SignIn) (r last f : Exchange) (surface : McpSurface) (idToken : String) :
    Prop where
  granted : ∃ resource, Grants p publicUrl keeper past s r last resource
  opens : accessOf publicUrl s.resource = .only surface ∨ accessOf publicUrl s.resource = .both
  presents : ∃ req access exp, f.request = .proxy req ∧ req.surface = surface ∧
    req.authorization.bind bearerOf = some access ∧ HandsOut last access idToken exp ∧ f.ctx.nowSeconds < exp

/-! ### What sealed values stand for -/

/-- The consent token was sealed by `x`, with a binding drawn there. -/
structure Offered (x : Exchange) (consent : String) (s : BoundSignIn) : Prop where
  request : ∃ params, x.request = .authorize params ∧ Names params s.toSignIn
  binding : s.binding = x.fresh.binding
  exp : s.exp = x.ctx.nowSeconds + consentTtlSeconds
  page : ∀ page, x.page? = some page → page.consentToken = consent ∧ page.redirectUri = s.redirect_uri ∧
    page.access = accessOf publicUrl s.resource

def StandsFor (past : List Exchange) (b : SealedBox SealKey Payload) : Prop :=
  match b.payload with
  | .client _ => True
  | .consent s => ∃ x ∈ past, Offered publicUrl x b.token s
  | .state s =>
    ∃ x ∈ past, ∃ y ∈ past, ∃ page, Asks publicUrl x s.toSignIn page ∧ Approves x y page b.token ∧
      s.binding = x.fresh.binding ∧ s.exp = y.ctx.nowSeconds + stateTtlSeconds
  | .code c =>
    ∃ x ∈ past, ∃ y ∈ past, ∃ z ∈ past, ∃ page state, Asks publicUrl x c.toSignIn page ∧ Approves x y page state ∧
      Finishes x y z state c.google_code b.token ∧ c.exp = z.ctx.nowSeconds + codeTtlSeconds
  | .refresh q =>
    ∃ s r last access, Grants p publicUrl keeper past s r last q.resource ∧ s.client_id = q.client_id ∧
      q.iat = r.ctx.nowSeconds ∧ last.tokens? = some (access, b.token)
  | .access a =>
    ∃ s r last, Grants p publicUrl keeper past s r last a.resource ∧ HandsOut last b.token a.id_token a.exp

variable {p publicUrl keeper} {past : List Exchange}

variable {r : Exchange} {s : SignIn} {payload : Payload} {req : TokenHttp}

theorem SignedIn.cons (h : SignedIn p publicUrl keeper past s r) (e : Exchange) :
    SignedIn p publicUrl keeper (e :: past) s r := by
  obtain ⟨x, hx, y, hy, z, hz, rest⟩ := h
  exact ⟨x, .tail _ hx, y, .tail _ hy, z, .tail _ hz, rest⟩

theorem Descends.cons {clientId : String} {y : Exchange} (h : Descends past clientId r y) (e : Exchange) :
    Descends (e :: past) clientId r y := by
  induction h with
  | redeemed mem => exact .redeemed (.tail _ mem)
  | refreshed _ mem presents young ih => exact .refreshed ih (.tail _ mem) presents young

theorem Grants.cons {last : Exchange} {resource : Option String}
    (h : Grants p publicUrl keeper past s r last resource) (e : Exchange) :
    Grants p publicUrl keeper (e :: past) s r last resource :=
  ⟨h.signedIn.cons e, h.descends.cons e, h.bound⟩

theorem StandsFor.cons (e : Exchange) (b : SealedBox SealKey Payload) (h : StandsFor p publicUrl keeper past b) :
    StandsFor p publicUrl keeper (e :: past) b := by
  obtain ⟨token, key, payload⟩ := b
  cases payload with
  | client => trivial
  | consent s =>
    obtain ⟨x, hx, rest⟩ := h
    exact ⟨x, .tail _ hx, rest⟩
  | state s =>
    obtain ⟨x, hx, y, hy, rest⟩ := h
    exact ⟨x, .tail _ hx, y, .tail _ hy, rest⟩
  | code c =>
    obtain ⟨x, hx, y, hy, z, hz, rest⟩ := h
    exact ⟨x, .tail _ hx, y, .tail _ hy, z, .tail _ hz, rest⟩
  | refresh q =>
    obtain ⟨s, r, last, access, hgrants, rest⟩ := h
    exact ⟨s, r, last, access, hgrants.cons e, rest⟩
  | access a =>
    obtain ⟨s, r, last, hgrants, rest⟩ := h
    exact ⟨s, r, last, hgrants.cons e, rest⟩

theorem Forwards.cons {last f : Exchange} {surface : McpSurface} {idToken : String}
    (h : Forwards p publicUrl keeper past s r last f surface idToken) (e : Exchange) :
    Forwards p publicUrl keeper (e :: past) s r last f surface idToken := by
  obtain ⟨resource, hgrants⟩ := h.granted
  exact ⟨⟨resource, hgrants.cons e⟩, h.opens, h.presents⟩

/-! ### The invariant -/

/-- What holds after every history. -/
structure Inv (p : Platform) (publicUrl : String) (keeper : String → Option Nat) (w : World) : Prop where
  justified : Justified (StandsFor p publicUrl keeper) w.issued w.history
  nonces : (w.history.map Exchange.nonce).Nodup
  pages : ∀ x ∈ w.history, ∀ page, x.page? = some page → page.binding = x.fresh.binding
  forwards : ∀ f ∈ w.history, ∀ surface idToken client, f.answer.response = .forwarded surface idToken client →
    ∃ s r last, Forwards p publicUrl keeper w.history s r last f surface idToken

theorem Inv.init (now : Nat) : Inv p publicUrl keeper (World.init now) where
  justified := SealedBox.justified_nil
  nonces := List.nodup_nil
  pages := by simp [World.init]
  forwards := by simp [World.init]

/-- The binding of a page is held only where the page was served. -/
theorem Inv.served_of_holds {w : World} (inv : Inv p publicUrl keeper w) {a : Agent} {cookie : String}
    (hcarry : w.MayCarry a cookie) {x : Exchange} (hx : x ∈ w.history)
    (hholds : requestHoldsBinding cookie x.fresh.binding = true) : a = x.sender ∧ ∃ page, x.page? = some page := by
  have hpair := hcarry _ (requestHoldsBinding_iff.mp hholds)
  by_cases ha : a = .adversary
  · rw [if_pos ha] at hpair
    obtain ⟨hsender, hpage⟩ := hpair x hx rfl
    exact ⟨ha.trans hsender.symm, Option.isSome_iff_exists.mp hpage⟩
  · rw [if_neg ha] at hpair
    have hpre : cookiePrefix.toList <+: (cookiePrefix ++ x.fresh.binding.id).toList := by
      simp
    obtain ⟨x', hx', hsender, page, hpage, heq⟩ := hpair hpre
    have hnonce : x'.nonce = x.nonce := by
      unfold Exchange.nonce
      rw [← inv.pages x' hx' page hpage]
      exact (congrArg Prod.snd heq).symm
    obtain rfl := List.inj_on_of_nodup_map inv.nonces hx' hx hnonce
    exact ⟨hsender.symm, page, hpage⟩

/-! ### One request -/

structure Sound (p : Platform) (publicUrl : String) (keeper : String → Option Nat) (w : World) (e : Exchange) : Prop where
  sealed : ∀ b ∈ e.answer.sealed, StandsFor p publicUrl keeper (e :: w.history) b
  page : ∀ page, e.page? = some page → page.binding = e.fresh.binding
  forwards : ∀ surface idToken client, e.answer.response = .forwarded surface idToken client →
    ∃ s r last, Forwards p publicUrl keeper (e :: w.history) s r last e surface idToken

theorem answerWith_cases {α : Type} (f : α → Answer) (x : Except Reply α) :
    (∃ r, answerWith f x = ⟨.reply r, [], none⟩) ∨ ∃ a, x = .ok a ∧ answerWith f x = f a := by
  cases x with
  | error r => exact .inl ⟨r, rfl⟩
  | ok a => exact .inr ⟨a, rfl, rfl⟩

variable {w : World} {e : Exchange}

theorem Sound.of_reply {r : Reply} {g : Option GoogleParams} (h : e.answer = ⟨.reply r, [], g⟩) :
    Sound p publicUrl keeper w e where
  sealed := by simp [h]
  page := by simp [Exchange.page?, h]
  forwards := by simp [h]

theorem exists_of_opened (inv : Inv p publicUrl keeper w) {α : Type} {ring : List SealKey} {kind : SealKind α}
    {token : String} {now : Nat} {value : α} (h : openSealed ring kind token w.issued now = .ok value) :
    ∃ k payload, kind.purpose payload = some value ∧ StandsFor p publicUrl keeper w.history ⟨token, k, payload⟩ ∧
      ∀ t, kind.exp? value = some t → now < t := by
  obtain ⟨payload, hopen, hpurpose, hexp⟩ := exists_of_openSealed h
  obtain ⟨k, -, hstands⟩ := inv.justified.of_unsealed hopen
  exact ⟨k, payload, hpurpose, hstands, hexp⟩

theorem consent_of_purpose {s : BoundSignIn} (h : consentSeal.purpose payload = some s) :
    payload = .consent s := by
  cases payload <;> simp_all [consentSeal]

theorem state_of_purpose {s : BoundSignIn} (h : stateSeal.purpose payload = some s) :
    payload = .state s := by
  cases payload <;> simp_all [stateSeal]

theorem code_of_purpose {c : CodeSeal} (h : codeSeal.purpose payload = some c) :
    payload = .code c := by
  cases payload <;> simp_all [codeSeal]

theorem refresh_of_purpose {q : RefreshSeal} (h : refreshSeal.purpose payload = some q) :
    payload = .refresh q := by
  cases payload <;> simp_all [refreshSeal]

theorem access_of_purpose {a : AccessSeal} (h : accessSeal.purpose payload = some a) :
    payload = .access a := by
  cases payload <;> simp_all [accessSeal]

theorem sound_register {req : RegisterRequest} (hreq : e.request = .register req)
    (hans : e.answer = e.toCall.answer p w.issued) : Sound p publicUrl keeper w e := by
  have hans : e.answer = handleRegister e.ctx e.fresh req := by rw [hans, Call.answer, hreq]
  cases answerWith_cases _ (checkRegistration req) with
  | inl h =>
    obtain ⟨r, hr⟩ := h
    exact .of_reply (hans.trans hr)
  | inr h =>
    obtain ⟨reg, -, hr⟩ := h
    rw [handleRegister, hr] at hans
    refine ⟨?_, ?_, ?_⟩
    · rw [hans]
      intro b hb
      rw [List.mem_singleton.mp hb]
      trivial
    · intro page hpage
      rw [Exchange.page?_eq_some, hans] at hpage
      dsimp only at hpage
      split at hpage <;> cases hpage
    · rw [hans]
      intro surface idToken client hresp
      dsimp only at hresp
      split at hresp <;> cases hresp

theorem consentPage_eq_some {clientName : Option String} {s : BoundSignIn} {consent : String} {page : ConsentPage}
    (h : consentPage p publicUrl clientName s consent = some page) :
    page.consentToken = consent ∧ page.redirectUri = s.redirect_uri ∧ page.access = accessOf publicUrl s.resource ∧
      page.binding = s.binding := by
  simp only [consentPage, Option.bind_eq_bind, Option.bind_eq_some_iff, Option.some.injEq] at h
  obtain ⟨_, -, _, -, rfl⟩ := h
  exact ⟨rfl, rfl, rfl, rfl⟩

theorem sound_authorize {params : Params} (hreq : e.request = .authorize params) (hurl : e.ctx.publicUrl = publicUrl)
    (hans : e.answer = e.toCall.answer p w.issued) : Sound p publicUrl keeper w e := by
  have hans : e.answer = handleAuthorize p e.ctx w.issued e.fetched e.fresh params := by rw [hans, Call.answer, hreq]
  cases answerWith_cases _ (checkAuthorize p e.ctx w.issued e.fetched params) with
  | inl h =>
    obtain ⟨r, hr⟩ := h
    exact .of_reply (hans.trans hr)
  | inr h =>
    obtain ⟨ask, hask, hr⟩ := h
    rw [handleAuthorize, hr] at hans
    obtain ⟨hclient, hredirect, hchallenge, hresource, -⟩ := checkAuthorize_params hask
    -- the page is the one for what the token carries
    have hpage : ∀ page, e.page? = some page →
        consentPage p publicUrl ask.clientName (askedSignIn e.ctx e.fresh ask) e.fresh.token = some page := by
      intro page hpage
      rw [Exchange.page?_eq_some, hans] at hpage
      dsimp only at hpage
      rw [hurl] at hpage
      split at hpage
      · rename_i shown hshown
        rw [hshown, Response.page.inj hpage]
      · cases hpage
    refine ⟨?_, ?_, ?_⟩
    · rw [hans]
      intro b hb
      rw [List.mem_singleton.mp hb]
      refine ⟨e, .head _, ⟨params, hreq, hclient, hredirect, hchallenge, hresource⟩, rfl, rfl, ?_⟩
      intro page h
      obtain ⟨htoken, huri, haccess, -⟩ := consentPage_eq_some (hpage page h)
      exact ⟨htoken, huri, haccess⟩
    · intro page h
      exact (consentPage_eq_some (hpage page h)).2.2.2
    · rw [hans]
      intro surface idToken client hresp
      dsimp only at hresp
      split at hresp <;> cases hresp

theorem sameSite_of_holds {sameSite : Bool} {req : DecisionRequest} {a : Agent} {b : ConsentBinding}
    (hsent : w.MaySend keeper a (.decision sameSite req)) (hholds : requestHoldsBinding req.cookie b = true)
    (ha : a ≠ .adversary) : sameSite = true := by
  cases sameSite with
  | true => rfl
  | false =>
    have hnone := hsent.2 ha
    have hpre : cookiePrefix.toList <+: (cookiePrefix ++ b.id).toList := by
      simp
    exact absurd hpre (hnone _ (requestHoldsBinding_iff.mp hholds))

theorem sound_decision (inv : Inv p publicUrl keeper w) {sameSite : Bool} {req : DecisionRequest}
    (hreq : e.request = .decision sameSite req) (hsent : w.MaySend keeper e.sender (.decision sameSite req))
    (hans : e.answer = e.toCall.answer p w.issued) : Sound p publicUrl keeper w e := by
  have hans : e.answer = handleAuthorizeDecision p e.ctx w.issued e.fresh req := by rw [hans, Call.answer, hreq]
  cases answerWith_cases _ (checkDecision e.ctx w.issued req) with
  | inl h =>
    obtain ⟨r, hr⟩ := h
    exact .of_reply (hans.trans hr)
  | inr h =>
    obtain ⟨⟨consent, c, decision⟩, hcheck, hr⟩ := h
    rw [handleAuthorizeDecision, hr] at hans
    obtain ⟨⟨fields, hbody, hconsent, happrove⟩, hopen, hholds⟩ := checkDecision_spec hcheck
    cases decision with
    | deny => exact .of_reply hans
    | approve =>
      -- the token is that of a page, and the binding says where the page was served
      obtain ⟨k, payload, hpurpose, hstands, hexp⟩ := exists_of_opened inv hopen
      rw [consent_of_purpose hpurpose] at hstands
      obtain ⟨x, hx, hoffered⟩ := hstands
      rw [hoffered.binding] at hholds
      obtain ⟨hsender, page, hpage⟩ := inv.served_of_holds hsent.1 hx hholds
      obtain ⟨htoken, huri, haccess⟩ := hoffered.page page hpage
      refine ⟨?_, ?_, ?_⟩
      · intro b hb
        rw [hans] at hb
        rw [List.mem_singleton.mp hb]
        have hasks : Asks publicUrl x c.toSignIn page := ⟨hoffered.request, hpage, huri, haccess⟩
        have happroves : Approves x e page e.fresh.token :=
          { request := ⟨sameSite, req, fields, hreq, hbody, by rw [htoken]; exact hconsent, happrove rfl,
              fun ha => sameSite_of_holds hsent hholds ha⟩
            browser := hsender
            state := ⟨_, _, _, by rw [hans]⟩
            inTime := by rw [← hoffered.exp]; exact hexp _ rfl }
        exact ⟨x, .tail _ hx, e, .head _, page, hasks, happroves, hoffered.binding, rfl⟩
      · intro page h
        rw [Exchange.page?_eq_some, hans] at h
        cases h
      · intro surface idToken client h
        rw [hans] at h
        cases h

theorem sound_callback (inv : Inv p publicUrl keeper w) {req : CallbackRequest} (hreq : e.request = .callback req)
    (hsent : w.MaySend keeper e.sender (.callback req)) (hans : e.answer = e.toCall.answer p w.issued) :
    Sound p publicUrl keeper w e := by
  have hans : e.answer = handleGoogleCallback p e.ctx w.issued e.fresh req := by rw [hans, Call.answer, hreq]
  cases answerWith_cases _ (checkCallback p e.ctx w.issued req) with
  | inl h =>
    obtain ⟨r, hr⟩ := h
    exact .of_reply (hans.trans hr)
  | inr h =>
    obtain ⟨⟨state, st, googleCode⟩, hcheck, hr⟩ := h
    rw [handleGoogleCallback, hr] at hans
    obtain ⟨hstate, hcode, hopen, hholds⟩ := checkCallback_spec hcheck
    obtain ⟨k, payload, hpurpose, hstands, hexp⟩ := exists_of_opened inv hopen
    rw [state_of_purpose hpurpose] at hstands
    obtain ⟨x, hx, y, hy, page, hasks, happroves, hbinding, hstateExp⟩ := hstands
    rw [hbinding] at hholds
    obtain ⟨hsender, -⟩ := inv.served_of_holds hsent hx hholds
    refine ⟨?_, ?_, ?_⟩
    · intro b hb
      have hmem := hb
      rw [hans] at hb
      rw [List.mem_singleton.mp hb] at hmem ⊢
      have hfinishes : Finishes x y e state googleCode e.fresh.token :=
        { request := ⟨req, hreq, hstate, hcode⟩
          browser := hsender
          code := ⟨_, hmem, rfl⟩
          inTime := by rw [← hstateExp]; exact hexp _ rfl }
      exact ⟨x, .tail _ hx, y, .tail _ hy, e, .head _, page, state, hasks, happroves, hfinishes, rfl⟩
    · intro page h
      rw [Exchange.page?_eq_some, hans] at h
      cases h
    · intro surface idToken client h
      rw [hans] at h
      cases h

/-! ### Grants -/

theorem tokenCall_eq_ok {google : GoogleClient} {now : Nat} {reply : GoogleReply} {tokens : GoogleTokens}
    (h : tokenCall google now reply = .ok tokens) :
    ∃ status body, reply = .answered status (some body) ∧ body.id_token = tokens.idToken := by
  unfold tokenCall at h
  split at h
  · cases h
  · cases h
  · dsimp only at h
    split at h <;> cases h
  · cases h
  · rename_i status body
    refine ⟨status, body, rfl, ?_⟩
    split at h
    · cases h
    · split at h
      · cases h
      · split at h
        · cases h
        · injection h with heq
          rw [← heq]

theorem Sound.of_tokens {tokens : GoogleTokens} {q : RefreshSeal} {key : String} {g : Option GoogleParams}
    (hans : e.answer =
      ⟨tokenResponse e.fresh tokens, tokenSeals e.ctx e.laterSeconds e.fresh tokens q key, g⟩)
    (hreply : ∃ status body, e.reply = .answered status (some body) ∧ body.id_token = tokens.idToken)
    (hgrants : Grants p publicUrl keeper (e :: w.history) s r e q.resource)
    (hclient : s.client_id = q.client_id) (hiat : q.iat = r.ctx.nowSeconds) : Sound p publicUrl keeper w e := by
  have htokens : e.tokens? = some (e.fresh.access, e.fresh.token) := by
    rw [Exchange.tokens?_eq_some, hans]
    exact ⟨_, _, rfl⟩
  refine ⟨?_, ?_, ?_⟩
  · intro b hb
    rw [hans] at hb
    simp only [tokenSeals, List.mem_cons, List.not_mem_nil, or_false] at hb
    cases hb with
    | inl hb =>
      rw [hb]
      exact ⟨s, r, e, _, hgrants, hclient, hiat, htokens⟩
    | inr hb =>
      rw [hb]
      exact ⟨s, r, e, hgrants, ⟨_, _, _, by rw [hans, tokenResponse], rfl⟩, hreply⟩
  · intro page h
    rw [Exchange.page?_eq_some, hans] at h
    cases h
  · intro surface idToken client h
    rw [hans] at h
    cases h

theorem sound_codeGrant (inv : Inv p publicUrl keeper w) {fields : Params} {grant : CodeGrant}
    (hreq : e.request = .token req) (hbody : req.body = .read fields)
    (hsent : w.MaySend keeper e.sender (.token req))
    (hread : readTokenRequest fields "authorization_code" = .ok (.authorization_code grant))
    (hans : e.answer = answerWith (redeemCode p e.ctx w.issued e.laterSeconds e.fresh e.reply)
      (checkCodeGrant p e.ctx w.issued grant)) :
    Sound p publicUrl keeper w e := by
  cases answerWith_cases (redeemCode p e.ctx w.issued e.laterSeconds e.fresh e.reply)
      (checkCodeGrant p e.ctx w.issued grant) with
  | inl h =>
    obtain ⟨r, hr⟩ := h
    exact .of_reply (hans.trans hr)
  | inr h =>
    obtain ⟨c, hcheck, hr⟩ := h
    rw [hr, redeemCode] at hans
    obtain ⟨hcode, hredirect, hverifier, hclient, -⟩ := readTokenRequest_code hread
    obtain ⟨hgrant, hgiven, hopen, hsameClient, hsameRedirect, hpkce, hresource⟩ := checkCodeGrant_spec hcheck
    obtain ⟨k, payload, hpurpose, hstands, hexp⟩ := exists_of_opened inv hopen
    rw [code_of_purpose hpurpose] at hstands
    obtain ⟨x, hx, y, hy, z, hz, page, state, hasks, happroves, hfinishes, hcodeExp⟩ := hstands
    split at hans
    · exact .of_reply hans
    · rename_i tokens hcall
      split at hans
      · exact .of_reply hans
      · have hgoogle : e.answer.google = some (.exchange c.code.google_code c.verifier) := by rw [hans]
        have hredeems : Redeems p keeper z e c.code.toSignIn c.code.google_code grant.code :=
          { request := ⟨req, fields, c.verifier, hreq, hbody, hcode, by rw [hclient, hsameClient],
              by rw [hredirect, hsameRedirect], hverifier.trans hgiven, hpkce, hgoogle,
              fun k hk => hsent fields hbody c.verifier (hverifier.trans hgiven) k hk⟩
            inTime := by rw [← hcodeExp]; exact hexp _ rfl }
        have hsigned : SignedIn p publicUrl keeper (e :: w.history) c.code.toSignIn e :=
          ⟨x, .tail _ hx, y, .tail _ hy, z, .tail _ hz, page, state, _, _, hasks, happroves, hfinishes, hredeems⟩
        refine .of_tokens hans (tokenCall_eq_ok hcall) ⟨hsigned, .redeemed (.head _), ?_⟩ ?_ rfl
        · exact (grantResource_eq hresource).1
        · rw [hsameClient, ← hgrant]
          rfl

theorem sound_refreshGrant (inv : Inv p publicUrl keeper w) {fields : Params} {grantType : String}
    {grant : RefreshGrant} (hreq : e.request = .token req) (hbody : req.body = .read fields)
    (hread : readTokenRequest fields grantType = .ok (.refresh_token grant))
    (hans : e.answer = answerWith (redeemRefresh p e.ctx w.issued e.laterSeconds e.fresh e.reply)
      (checkRefreshGrant e.ctx w.issued grant)) :
    Sound p publicUrl keeper w e := by
  cases answerWith_cases (redeemRefresh p e.ctx w.issued e.laterSeconds e.fresh e.reply)
      (checkRefreshGrant e.ctx w.issued grant) with
  | inl h =>
    obtain ⟨r, hr⟩ := h
    exact .of_reply (hans.trans hr)
  | inr h =>
    obtain ⟨c, hcheck, hr⟩ := h
    rw [hr, redeemRefresh] at hans
    obtain ⟨htoken, hclient⟩ := readTokenRequest_refresh hread
    obtain ⟨hgrant, hopen, hsameClient, hage, hresource⟩ := checkRefreshGrant_spec hcheck
    obtain ⟨k, payload, hpurpose, hstands, -⟩ := exists_of_opened inv hopen
    rw [refresh_of_purpose hpurpose] at hstands
    obtain ⟨s, r, last, access, hgrants, hsealedClient, hiat, htokens⟩ := hstands
    split at hans
    · exact .of_reply hans
    · rename_i tokens hcall
      have hpresents : Refreshes s.client_id last e :=
        ⟨access, grant.refresh_token, htokens, req, fields, hreq, hbody, htoken, by
          rw [hclient, hsealedClient, hsameClient]⟩
      have hyoung : e.ctx.nowSeconds < r.ctx.nowSeconds + refreshMaxLifetimeSeconds := by
        omega
      refine .of_tokens hans (tokenCall_eq_ok hcall)
        ⟨hgrants.signedIn.cons e, .refreshed (hgrants.descends.cons e) (.head _) hpresents hyoung, ?_⟩ ?_ hiat
      · intro u hu
        exact (grantResource_eq hresource).1 u (hgrants.bound u hu)
      · rw [hsealedClient, hsameClient, ← hgrant]
        rfl

theorem sound_token (inv : Inv p publicUrl keeper w) (hreq : e.request = .token req)
    (hsent : w.MaySend keeper e.sender (.token req)) (hans : e.answer = e.toCall.answer p w.issued) :
    Sound p publicUrl keeper w e := by
  have hans : e.answer = handleToken p e.ctx w.issued e.laterSeconds e.fresh e.reply req := by
    rw [hans, Call.answer, hreq]
  cases answerWith_cases _ (checkTokenRequest e.ctx req) with
  | inl h =>
    obtain ⟨r, hr⟩ := h
    exact .of_reply (hans.trans hr)
  | inr h =>
    obtain ⟨r, hcheck, hr⟩ := h
    rw [handleToken, hr] at hans
    obtain ⟨fields, grantType, hbody, -, -, hread⟩ := checkTokenRequest_spec hcheck
    cases r with
    | authorization_code grant =>
      have htype := (readTokenRequest_code hread).2.2.2.2
      rw [htype] at hread
      exact sound_codeGrant inv hreq hbody hsent hread hans
    | refresh_token grant => exact sound_refreshGrant inv hreq hbody hread hans

/-! ### The proxy -/

theorem resourceUrl_injective : Function.Injective (resourceUrl publicUrl) := by
  intro s t h
  cases s <;> cases t
  · rfl
  · exact absurd (String.append_right_inj publicUrl |>.mp h) (by decide)
  · exact absurd (String.append_right_inj publicUrl |>.mp h) (by decide)
  · rfl

theorem accessOf_of_admits {surface : McpSurface} {bound resource : Option String}
    (hbound : ∀ u, bound = some u → resource = some u) (hadmits : ∀ u, resource = some u → u = resourceUrl publicUrl surface) :
    accessOf publicUrl bound = .only surface ∨ accessOf publicUrl bound = .both := by
  cases bound with
  | none => exact .inr rfl
  | some u =>
    left
    rw [hadmits u (hbound u rfl)]
    have hne : resourceUrl publicUrl .admin ≠ resourceUrl publicUrl .chat :=
      fun h => McpSurface.noConfusion (resourceUrl_injective h)
    cases surface with
    | chat => simp [accessOf, surfaceOf]
    | admin => simp [accessOf, surfaceOf, hne]

theorem sound_proxy (inv : Inv p publicUrl keeper w) {req : ProxyRequest} (hreq : e.request = .proxy req)
    (hurl : e.ctx.publicUrl = publicUrl) (hans : e.answer = e.toCall.answer p w.issued) :
    Sound p publicUrl keeper w e := by
  have hans : e.answer = handleMcpProxy e.ctx w.issued req := by rw [hans, Call.answer, hreq]
  cases answerWith_cases _ (checkProxy e.ctx w.issued req) with
  | inl h =>
    obtain ⟨r, hr⟩ := h
    exact .of_reply (hans.trans hr)
  | inr h =>
    obtain ⟨token, hcheck, hr⟩ := h
    rw [handleMcpProxy, hr] at hans
    obtain ⟨bearer, hbearer, hopen, hsurface⟩ := checkProxy_spec hcheck
    obtain ⟨k, payload, hpurpose, hstands, hexp⟩ := exists_of_opened inv hopen
    rw [access_of_purpose hpurpose] at hstands
    obtain ⟨s, r, last, hgrants, hhands⟩ := hstands
    rw [hurl] at hsurface
    refine ⟨by simp [hans], ?_, ?_⟩
    · intro page h
      rw [Exchange.page?_eq_some, hans] at h
      cases h
    · intro surface idToken client h
      rw [hans] at h
      injection h with hs hid _
      rw [← hs, ← hid]
      exact ⟨s, r, last, ⟨token.resource, hgrants.cons e⟩, accessOf_of_admits hgrants.bound hsurface,
        req, bearer, token.exp, hreq, rfl, hbearer, hhands, hexp _ rfl⟩

/-! ### Histories -/

theorem sound_of_admits (inv : Inv p publicUrl keeper w) (admits : w.Admits publicUrl keeper e.toCall)
    (hans : e.answer = e.toCall.answer p w.issued) : Sound p publicUrl keeper w e := by
  have hsent := admits.sent
  cases hreq : e.request with
  | register req => exact sound_register hreq hans
  | authorize params => exact sound_authorize hreq admits.publicUrl hans
  | decision sameSite req =>
    rw [hreq] at hsent
    exact sound_decision inv hreq hsent hans
  | callback req =>
    rw [hreq] at hsent
    exact sound_callback inv hreq hsent hans
  | token req =>
    rw [hreq] at hsent
    exact sound_token inv hreq hsent hans
  | proxy req => exact sound_proxy inv hreq admits.publicUrl hans

theorem Inv.serve {c : Call} (inv : Inv p publicUrl keeper w) (admits : w.Admits publicUrl keeper c) :
    Inv p publicUrl keeper (w.serve p c) := by
  have hsound : Sound p publicUrl keeper w { c with answer := c.answer p w.issued } :=
    sound_of_admits inv admits rfl
  refine ⟨?_, ?_, ?_, ?_⟩
  · exact inv.justified.cons StandsFor.cons hsound.sealed
  · refine List.nodup_cons.mpr ⟨?_, inv.nonces⟩
    intro h
    obtain ⟨x, hx, hnonce⟩ := List.mem_map.mp h
    exact admits.nonce x hx hnonce
  · intro x hx
    cases hx with
    | head => exact hsound.page
    | tail _ hx => exact inv.pages x hx
  · intro f hf surface idToken client hresp
    cases hf with
    | head => exact hsound.forwards surface idToken client hresp
    | tail _ hf =>
      obtain ⟨s, r, last, hforwards⟩ := inv.forwards f hf surface idToken client hresp
      exact ⟨s, r, last, hforwards.cons _⟩

theorem inv_of_run (h : World.Run p publicUrl keeper w) : Inv p publicUrl keeper w := by
  induction h with
  | init now => exact .init now
  | serve _ admits ih => exact ih.serve admits
  | wait _ _ ih => exact ⟨ih.justified, ih.nonces, ih.pages, ih.forwards⟩

theorem keeper_redeems (hinj : Function.Injective p.sha256Base64Url)
    (h : SignedIn p publicUrl keeper past s r) {verifier : String} {c : Nat} (hkeeper : keeper verifier = some c)
    (hchallenge : p.sha256Base64Url verifier = s.code_challenge) : r.sender = .client c := by
  obtain ⟨_, -, _, -, _, -, _, _, _, _, -, -, -, hredeems⟩ := h
  obtain ⟨_, _, used, -, -, -, -, -, -, hused, -, hsender⟩ := hredeems.request
  have heq : verifier = used := hinj (hchallenge.trans hused.symm)
  exact hsender c (heq ▸ hkeeper)

/-- A request that is sent on to the admin descends from one sign-in: asked for, approved and finished where its page was
served, redeemed with a verifier of its challenge, by the client that kept the verifier if an honest one did, and only
refreshed since. -/
theorem forwarded_descends (hinj : Function.Injective p.sha256Base64Url) (h : World.Run p publicUrl keeper w)
    {f : Exchange} (hf : f ∈ w.history) {surface : McpSurface} {idToken client : String}
    (hresp : f.answer.response = .forwarded surface idToken client) :
    ∃ s r last, Forwards p publicUrl keeper w.history s r last f surface idToken ∧
      ∀ verifier c, keeper verifier = some c → p.sha256Base64Url verifier = s.code_challenge → r.sender = .client c := by
  obtain ⟨s, r, last, hforwards⟩ := (inv_of_run h).forwards f hf surface idToken client hresp
  obtain ⟨resource, hgrants⟩ := hforwards.granted
  exact ⟨s, r, last, hforwards, fun verifier c => keeper_redeems hinj hgrants.signedIn⟩

/-! ### One sign-in -/

namespace Example

def site : String := "https://example.com"

def clientId : String := "https://claude.ai/oauth/claude-code-client-metadata"

def redirectUri : String := "http://localhost:53682/callback"

def verifier : String := "dBjftJeZ4CVP-mB92K27uhbUJU1p1r_wW1gFWFOEjXk"

def challenge : String := "E9Melhoa2OwvFrEMTJguCHaoeK1t8URWbuGJSstw-cM"

def url (protocol hostname port pathname href : String) : Redirect.Url :=
  ⟨protocol.toList, [], [], hostname.toList, port.toList, pathname.toList, [], [], href.toList⟩

def platform : Platform where
  sha256Base64Url := Equiv.swap verifier challenge
  sha256Hex := id
  parseUrl s :=
    if s = site.toList then some (url "https:" "example.com" "" "/" "https://example.com/")
    else if s = clientId.toList then
      some (url "https:" "claude.ai" "" "/oauth/claude-code-client-metadata" clientId)
    else if s = redirectUri.toList then some (url "http:" "localhost" "53682" "/callback" redirectUri)
    else none

def context (nowSeconds : Nat) : McpContext :=
  ⟨site, [1], [[1], [0]], ⟨"google-client", "secret"⟩, nowSeconds⟩

def call (nowSeconds : Nat) (sender : Agent) (request : Request) (fresh : String) (reply : GoogleReply := .unreachable "") :
    Call where
  sender
  request
  ctx := context nowSeconds
  laterSeconds := nowSeconds
  fresh := ⟨⟨"b-" ++ fresh, "n-" ++ fresh⟩, "t-" ++ fresh, "a-" ++ fresh⟩
  fetched := .document ⟨clientId, ["http://localhost/callback"], some "Claude Code"⟩
  reply

def authorizeCall : Call :=
  call 100 (.browser 0) (.authorize
    [("response_type", "code"), ("client_id", clientId), ("redirect_uri", redirectUri), ("code_challenge", challenge),
     ("code_challenge_method", "S256"), ("resource", "https://example.com/api/mcp/chat")]) "1"

def cookie : String := "__Host-caelo-mcp-consent-b-1=n-1"

def approveCall : Call :=
  call 200 (.browser 0) (.decision true
    ⟨some site, "application/x-www-form-urlencoded", cookie,
     .read [("consent", "t-1"), ("decision", "approve")]⟩) "2"

def callbackCall : Call :=
  call 200 (.browser 0) (.callback ⟨cookie, [("state", "t-2"), ("code", "google-code")]⟩) "3"

def redeemCall : Call :=
  call 200 (.client 0) (.token
    ⟨"application/x-www-form-urlencoded", none, .read
     [("grant_type", "authorization_code"), ("code", "t-3"), ("client_id", clientId), ("redirect_uri", redirectUri),
      ("code_verifier", verifier)]⟩) "4"
    (.answered 200 (some ⟨"id.token.1", some "google-refresh", none, some ("google-client", 3800)⟩))

def refreshCall : Call :=
  call 3800 (.client 0) (.token
    ⟨"application/x-www-form-urlencoded", none, .read
     [("grant_type", "refresh_token"), ("refresh_token", "t-4"), ("client_id", clientId)]⟩) "5"
    (.answered 200 (some ⟨"id.token.2", none, none, some ("google-client", 7400)⟩))

def proxyCall : Call := call 3800 (.client 0) (.proxy ⟨.chat, "POST", some "Bearer a-5", 100⟩) "6"

def signIn : SignIn := ⟨clientId, redirectUri, some "https://example.com/api/mcp/chat", challenge⟩

def page : ConsentPage :=
  ⟨"example.com".toList, some "Claude Code", "http://localhost:53682".toList, some "an app running on this computer",
   redirectUri, .only .chat, "http://localhost:53682".toList, "t-1", ⟨"b-1", "n-1"⟩⟩

def grantSeals (fresh idToken : String) (exp : Nat) : Issued :=
  [⟨"t-" ++ fresh, [1], .refresh ⟨"google-refresh", clientId, signIn.resource, 200, some clientId⟩⟩,
   ⟨"a-" ++ fresh, [1], .access ⟨idToken, signIn.resource, clientId, exp⟩⟩]

def authorizeAnswer : Answer :=
  ⟨.page page, [⟨"t-1", [1], .consent ⟨signIn, none, ⟨"b-1", "n-1"⟩, 700⟩⟩], none⟩

def approveAnswer : Answer :=
  ⟨.google "google-client" "https://example.com/api/mcp/oauth/google-callback" challenge "t-2",
   [⟨"t-2", [1], .state ⟨signIn, none, ⟨"b-1", "n-1"⟩, 800⟩⟩], none⟩

def callbackAnswer : Answer :=
  ⟨.reply (.redirect redirectUri [("code", "t-3"), ("iss", "https://example.com/api/mcp/oauth")]
     (some "__Host-caelo-mcp-consent-b-1=; Path=/; Secure; HttpOnly; SameSite=Lax; Max-Age=0")),
   [⟨"t-3", [1], .code ⟨signIn, "google-code", 500⟩⟩], none⟩

def redeemAnswer : Answer :=
  ⟨.tokens "a-4" 3600 "t-4" none, grantSeals "4" "id.token.1" 3800, some (.exchange "google-code" verifier)⟩

def refreshAnswer : Answer :=
  ⟨.tokens "a-5" 3600 "t-5" none, grantSeals "5" "id.token.2" 7400, some (.refresh "google-refresh")⟩

def proxyAnswer : Answer := ⟨.forwarded .chat "id.token.2" clientId, [], none⟩

/-- The client that starts the sign-in keeps its verifier. -/
def keptBy (v : String) : Option Nat := if v = verifier then some 0 else none

def asked : World := ⟨authorizeAnswer.sealed, [⟨authorizeCall, authorizeAnswer⟩], 200⟩

def approved : World := ⟨approveAnswer.sealed ++ asked.issued, ⟨approveCall, approveAnswer⟩ :: asked.history, 200⟩

def finished : World := ⟨callbackAnswer.sealed ++ approved.issued, ⟨callbackCall, callbackAnswer⟩ :: approved.history, 200⟩

def redeemed : World := ⟨redeemAnswer.sealed ++ finished.issued, ⟨redeemCall, redeemAnswer⟩ :: finished.history, 3800⟩

def refreshed : World := ⟨refreshAnswer.sealed ++ redeemed.issued, ⟨refreshCall, refreshAnswer⟩ :: redeemed.history, 3800⟩

def forwarded : World := ⟨refreshed.issued, ⟨proxyCall, proxyAnswer⟩ :: refreshed.history, 3800⟩

theorem cookie_pairs : cookiePairs cookie = [("__Host-caelo-mcp-consent-b-1", "n-1")] := by
  decide

theorem mayCarry {w : World} (h : w.Served (.browser 0) ("__Host-caelo-mcp-consent-b-1", "n-1")) :
    w.MayCarry (.browser 0) cookie := by
  intro pair hpair
  rw [cookie_pairs, List.mem_singleton] at hpair
  rw [if_neg (by decide), hpair]
  exact fun _ => h

theorem run_serve {w : World} (c : Call) (a : Answer) (seconds : Nat) (h : World.Run platform site keptBy w)
    (admits : w.Admits site keptBy c) (hanswer : c.answer platform w.issued = a) :
    World.Run platform site keptBy ⟨a.sealed ++ w.issued, ⟨c, a⟩ :: w.history, w.now + seconds⟩ := by
  have hrun := (World.Run.serve h admits).wait seconds
  rw [World.serve, hanswer] at hrun
  exact hrun

set_option maxRecDepth 20000 in
theorem run : World.Run platform site keptBy forwarded := by
  have h1 : World.Run platform site keptBy asked :=
    run_serve authorizeCall authorizeAnswer 100 (.init 100) ⟨rfl, by decide, rfl, by decide, by decide, by decide, by decide, trivial⟩ (by decide +kernel)
  have h2 : World.Run platform site keptBy approved := by
    refine run_serve approveCall approveAnswer 0 h1 ⟨rfl, by decide, rfl, by decide, by decide, by decide, by decide, mayCarry ?_, fun _ => ?_⟩
      (by decide +kernel)
    · exact ⟨_, .head _, rfl, page, rfl, rfl⟩
    · exact ⟨_, .head _, rfl, page, rfl, "approve", .head _, rfl⟩
  have h3 : World.Run platform site keptBy finished := by
    refine run_serve callbackCall callbackAnswer 0 h2 ⟨rfl, by decide, rfl, by decide, by decide, by decide, by decide, mayCarry ?_⟩
      (by decide +kernel)
    exact ⟨_, .tail _ (.head _), rfl, page, rfl, rfl⟩
  have h4 : World.Run platform site keptBy redeemed := by
    refine run_serve redeemCall redeemAnswer 3600 h3 ⟨rfl, by decide, rfl, by decide, by decide, by decide, by decide, ?_⟩ (by decide +kernel)
    intro fields hbody v hv c hc
    obtain rfl := Body.read.inj hbody
    obtain rfl := Option.some.inj (hv.symm.trans (by decide : _ = some verifier))
    obtain rfl := Option.some.inj (hc.symm.trans (by decide : _ = some 0))
    rfl
  have h5 : World.Run platform site keptBy refreshed := by
    refine run_serve refreshCall refreshAnswer 0 h4 ⟨rfl, by decide, rfl, by decide, by decide, by decide, by decide, ?_⟩ (by decide +kernel)
    intro fields hbody v hv
    obtain rfl := Body.read.inj hbody
    exact absurd (hv.symm.trans (by decide : _ = none)) (by simp)
  exact run_serve proxyCall proxyAnswer 0 h5 ⟨rfl, by decide, rfl, by decide, by decide, by decide, by decide, trivial⟩ (by decide +kernel)

theorem forwarded_descends_refreshed :
    ∃ s r last, Forwards platform site keptBy forwarded.history s r last ⟨proxyCall, proxyAnswer⟩ .chat "id.token.2" ∧
      ∀ verifier c, keptBy verifier = some c → platform.sha256Base64Url verifier = s.code_challenge →
        r.sender = .client c :=
  forwarded_descends (Equiv.swap verifier challenge).injective run (.head _) rfl

end Example
end CaeloCms.Mcp
