import CaeloCms.Mcp.History

/-!
# What a request that passes the checks carries

For each handler, what is known of the request and of the sealed values it brought when the checks let it through, in
terms of the parameters as they were sent.
-/

namespace CaeloCms.Mcp

variable {p : Platform} {ctx : McpContext} {issued : Issued}

/-! ### Parameters -/

theorem singleParams_eq_some {params params' : Params} (h : singleParams params = some params') : params' = params := by
  unfold singleParams at h
  split at h
  · cases h
  · exact (Option.some.inj h).symm

theorem param_of_required {params : Params} {name v : String} {min max : Nat}
    (h : requiredParam params name min max = some v) : param params name = some v :=
  (Option.filter_eq_some_iff.mp h).1

theorem param_of_optional {params : Params} {name : String} {min max : Nat} {v : Option String}
    (h : optionalParam params name min max = some v) : param params name = v := by
  unfold optionalParam at h
  split at h
  · rename_i hnone
    rw [hnone, ← Option.some.inj h]
  · rename_i v' hsome
    split at h
    · rw [hsome, ← Option.some.inj h]
    · cases h

theorem mapError_eq_ok {α ε ε' : Type} {f : ε → ε'} {x : Except ε α} {a : α} :
    x.mapError f = .ok a ↔ x = .ok a := by
  cases x <;> simp [Except.mapError]

theorem body_of_within {α : Type} {body : Body α} {a : α} (h : body.within? = some a) : body = .read a := by
  cases body with
  | tooLarge => cases h
  | read b => rw [Option.some.inj h]

/-! ### Authorize -/

theorem readAuthorizeQuery_params {params : Params} {q : AuthorizeQuery} (h : readAuthorizeQuery params = some q) :
    param params "client_id" = some q.client_id ∧ param params "redirect_uri" = some q.redirect_uri ∧
      param params "code_challenge" = q.code_challenge ∧ param params "resource" = q.resource := by
  simp only [readAuthorizeQuery, Option.bind_eq_bind, Option.bind_eq_some_iff, Option.some.injEq] at h
  obtain ⟨_, -, _, hclient, _, hredirect, _, hchallenge, _, -, _, -, _, -, _, hresource, rfl⟩ := h
  exact ⟨param_of_required hclient, param_of_required hredirect, param_of_optional hchallenge,
    param_of_optional hresource⟩

theorem checkAuthorize_params {fetched : CimdAnswer} {params : Params} {ask : AuthorizeAsk}
    (h : checkAuthorize p ctx issued fetched params = .ok ask) :
    param params "client_id" = some ask.query.client_id ∧ param params "redirect_uri" = some ask.query.redirect_uri ∧
      param params "code_challenge" = some ask.code_challenge ∧ param params "resource" = ask.query.resource ∧
      ∀ r, ask.query.resource = some r → r ∈ resourceUrls ctx.publicUrl := by
  simp only [checkAuthorize, bind_eq_ok, expect_eq_ok, require_eq_ok, mapError_eq_ok, pure, Except.pure,
    Except.ok.injEq] at h
  obtain ⟨params', hsingle, q, hq, _, -, -, -, -, -, challenge, hchallenge, _, -, -, -, -, -, -, hresource, rfl⟩ := h
  obtain rfl := singleParams_eq_some hsingle
  obtain ⟨hclient, hredirect, hcode, hres⟩ := readAuthorizeQuery_params hq
  refine ⟨hclient, hredirect, hcode.trans hchallenge, hres, ?_⟩
  intro r hr
  rw [hr] at hresource
  simpa using hresource

/-! ### The decision -/

theorem readDecision_approve {word : String} (h : readDecision word = some .approve) : word = "approve" := by
  unfold readDecision at h
  split at h
  · rfl
  · cases h
  · cases h

theorem checkDecision_spec {req : DecisionRequest} {consent : String} {c : BoundSignIn} {decision : Decision}
    (h : checkDecision ctx issued req = .ok (consent, c, decision)) :
    (∃ fields, req.body = .read fields ∧ param fields "consent" = some consent ∧
        (decision = .approve → param fields "decision" = some "approve")) ∧
      openSealed ctx.openKeys consentSeal consent issued ctx.nowSeconds = .ok c ∧
      requestHoldsBinding req.cookie c.binding = true := by
  simp only [checkDecision, bind_eq_ok, expect_eq_ok, require_eq_ok, mapError_eq_ok, pure, Except.pure, Except.ok.injEq,
    Prod.mk.injEq] at h
  obtain ⟨_, -, _, -, fields, hbody, form, hform, c', hopen, _, hholds, rfl, rfl, rfl⟩ := h
  refine ⟨?_, hopen, hholds⟩
  obtain ⟨fields', hsingle, hread⟩ := Option.bind_eq_some_iff.mp hform
  obtain rfl := singleParams_eq_some hsingle
  simp only [readDecisionForm, Option.bind_eq_bind, Option.bind_eq_some_iff] at hread
  obtain ⟨consent, hconsent, d, ⟨word, hword, hd⟩, hstrict⟩ := hread
  split at hstrict
  · obtain rfl := Option.some.inj hstrict
    refine ⟨fields', body_of_within hbody, param_of_required hconsent, ?_⟩
    intro happrove
    simp only at happrove
    subst happrove
    rw [hword, readDecision_approve hd]
  · cases hstrict

theorem requestHoldsBinding_iff {cookie : String} {b : ConsentBinding} :
    requestHoldsBinding cookie b = true ↔ (cookiePrefix ++ b.id, b.nonce) ∈ cookiePairs cookie := by
  simp only [requestHoldsBinding, List.any_eq_true, Bool.and_eq_true, beq_iff_eq]
  constructor
  · rintro ⟨⟨name, value⟩, hmem, hname, hvalue⟩
    rw [← hname, ← hvalue]
    exact hmem
  · intro hmem
    exact ⟨_, hmem, rfl, rfl⟩

/-! ### The callback -/

theorem checkCallback_spec {req : CallbackRequest} {state googleCode : String} {st : BoundSignIn}
    (h : checkCallback p ctx issued req = .ok (state, st, googleCode)) :
    param req.params "state" = some state ∧ param req.params "code" = some googleCode ∧
      openSealed ctx.openKeys stateSeal state issued ctx.nowSeconds = .ok st ∧
      requestHoldsBinding req.cookie st.binding = true := by
  simp only [checkCallback, bind_eq_ok, expect_eq_ok, require_eq_ok, mapError_eq_ok, pure, Except.pure, Except.ok.injEq,
    Prod.mk.injEq] at h
  obtain ⟨q, hq, st', hopen, _, hholds, code, hcode, rfl, rfl, rfl⟩ := h
  obtain ⟨params, hsingle, hread⟩ := Option.bind_eq_some_iff.mp hq
  obtain rfl := singleParams_eq_some hsingle
  simp only [readCallbackQuery, Option.bind_eq_bind, Option.bind_eq_some_iff, Option.some.injEq] at hread
  obtain ⟨_, hstate, _, hgoogle, _, -, rfl⟩ := hread
  refine ⟨param_of_required hstate, ?_, hopen, hholds⟩
  split at hcode
  · cases hcode
  · rw [← hcode]
    exact param_of_optional hgoogle

/-! ### The token request -/

theorem readTokenRequest_code {fields : Params} {grantType : String} {grant : CodeGrant}
    (h : readTokenRequest fields grantType = .ok (.authorization_code grant)) :
    param fields "code" = some grant.code ∧ param fields "redirect_uri" = some grant.redirect_uri ∧
      param fields "code_verifier" = grant.code_verifier ∧ param fields "client_id" = some grant.client_id ∧
      grantType = "authorization_code" := by
  unfold readTokenRequest at h
  split at h
  · rename_i htype
    simp only [expect_eq_ok, readCodeGrant, Option.bind_eq_bind, Option.bind_eq_some_iff, Option.some.injEq,
      TokenRequest.authorization_code.injEq] at h
    obtain ⟨_, hcode, _, hredirect, _, hverifier, _, hclient, _, -, _, -, rfl⟩ := h
    exact ⟨param_of_required hcode, param_of_required hredirect, param_of_optional hverifier, param_of_required hclient,
      htype⟩
  · simp [readRefreshGrant, Option.bind_eq_some_iff] at h

theorem readTokenRequest_refresh {fields : Params} {grantType : String} {grant : RefreshGrant}
    (h : readTokenRequest fields grantType = .ok (.refresh_token grant)) :
    param fields "refresh_token" = some grant.refresh_token ∧ param fields "client_id" = some grant.client_id := by
  unfold readTokenRequest at h
  split at h
  · simp [readCodeGrant, Option.bind_eq_some_iff] at h
  · simp only [expect_eq_ok, readRefreshGrant, Option.bind_eq_bind, Option.bind_eq_some_iff, Option.some.injEq,
      TokenRequest.refresh_token.injEq] at h
    obtain ⟨_, htoken, _, hclient, _, -, _, -, rfl⟩ := h
    exact ⟨param_of_required htoken, param_of_required hclient⟩

theorem checkTokenRequest_spec {req : TokenHttp} {r : TokenRequest} (h : checkTokenRequest ctx req = .ok r) :
    ∃ fields grantType, req.body = .read fields ∧ param fields "grant_type" = some grantType ∧
      grantType ∈ grantTypes ∧ readTokenRequest fields grantType = .ok r := by
  simp only [checkTokenRequest, bind_eq_ok, expect_eq_ok, require_eq_ok, pure, Except.pure, Except.ok.injEq] at h
  obtain ⟨_, -, _, -, fields, hbody, _, -, _, -, grantType, htype, r', hr, _, -, rfl⟩ := h
  obtain ⟨hparam, hknown⟩ := Option.filter_eq_some_iff.mp htype
  exact ⟨fields, grantType, body_of_within hbody, hparam, by simpa using hknown, hr⟩

theorem grantResource_eq {bound requested resource : Option String} (h : grantResource bound requested = .ok resource) :
    (∀ r, bound = some r → resource = some r) ∧ (∀ r, requested = some r → resource = some r) := by
  unfold grantResource at h
  split at h
  · cases h
  · rename_i hdiffer
    injection h with heq
    subst heq
    cases bound <;> cases requested <;> simp_all

theorem checkCodeGrant_spec {r : CodeGrant} {c : RedeemedCode} (h : checkCodeGrant p ctx issued r = .ok c) :
    c.grant = r ∧ r.code_verifier = some c.verifier ∧
      openSealed ctx.openKeys codeSeal r.code issued ctx.nowSeconds = .ok c.code ∧ c.code.client_id = r.client_id ∧
      c.code.redirect_uri = r.redirect_uri ∧ p.sha256Base64Url c.verifier = c.code.code_challenge ∧
      grantResource c.code.resource r.resource = .ok c.resource := by
  simp only [checkCodeGrant, bind_eq_ok, expect_eq_ok, require_eq_ok, mapError_eq_ok, pure, Except.pure,
    Except.ok.injEq, Bool.and_eq_true, beq_iff_eq, pkceMatches] at h
  obtain ⟨verifier, hverifier, code, hopen, _, hsame, _, hpkce, resource, hresource, rfl⟩ := h
  exact ⟨rfl, (Option.filter_eq_some_iff.mp hverifier).1, hopen, hsame.1, hsame.2, hpkce, hresource⟩

theorem checkRefreshGrant_spec {r : RefreshGrant} {c : RedeemedRefresh} (h : checkRefreshGrant ctx issued r = .ok c) :
    c.grant = r ∧ openSealed ctx.openKeys refreshSeal r.refresh_token issued ctx.nowSeconds = .ok c.sealed ∧
      c.sealed.client_id = r.client_id ∧ ctx.nowSeconds - c.sealed.iat < refreshMaxLifetimeSeconds ∧
      grantResource c.sealed.resource r.resource = .ok c.resource := by
  simp only [checkRefreshGrant, bind_eq_ok, require_eq_ok, mapError_eq_ok, pure, Except.pure, Except.ok.injEq, beq_iff_eq,
    decide_eq_true_eq] at h
  obtain ⟨value, hopen, _, hsame, _, hage, resource, hresource, rfl⟩ := h
  exact ⟨rfl, hopen, hsame, hage, hresource⟩

/-! ### The proxy -/

theorem checkProxy_spec {req : ProxyRequest} {token : AccessSeal} (h : checkProxy ctx issued req = .ok token) :
    ∃ bearer, req.authorization.bind bearerOf = some bearer ∧
      openSealed ctx.openKeys accessSeal bearer issued ctx.nowSeconds = .ok token ∧
      ∀ r, token.resource = some r → r = resourceUrl ctx.publicUrl req.surface := by
  simp only [checkProxy, bind_eq_ok, expect_eq_ok, require_eq_ok, pure, Except.pure, Except.ok.injEq] at h
  obtain ⟨_, -, bearer, hbearer, token', htoken, _, -, rfl⟩ := h
  refine ⟨bearer, hbearer, ?_⟩
  unfold openAccessToken at htoken
  split at htoken
  · cases htoken
  · rename_i value hopen
    split at htoken
    · rename_i hsurface
      obtain rfl := Option.some.inj htoken
      refine ⟨hopen, ?_⟩
      intro r hr
      rw [hr] at hsurface
      simpa using hsurface
    · cases htoken

end CaeloCms.Mcp
