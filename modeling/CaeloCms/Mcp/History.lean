import CaeloCms.Mcp.Token

/-!
# Histories of the broker

The requests of honest browsers and clients and of an adversary, in any order.  The adversary may send every text there is, with
two exceptions: the nonce of a binding it was not served, and a `code_verifier` that an honest client keeps.  An honest
browser holds the binding cookies of the pages it was served; it sends them with the form of such a page and with
navigations, and with no request that another site makes it post.
-/

namespace CaeloCms.Mcp

/-- Who sends a request. -/
inductive Agent
  | browser (b : Nat)
  | client (c : Nat)
  | adversary
deriving DecidableEq

inductive Request
  | register (req : RegisterRequest)
  | authorize (params : Params)
  /-- `sameSite` when a page of this site posts it. -/
  | decision (sameSite : Bool) (req : DecisionRequest)
  | callback (req : CallbackRequest)
  | token (req : TokenHttp)
  | proxy (req : ProxyRequest)

/-- A request with what its handler finds and draws, and what the services it calls answer. -/
structure Call where
  sender : Agent
  request : Request
  ctx : McpContext
  /-- When the handler answers. -/
  laterSeconds : Nat
  fresh : Fresh
  fetched : CimdAnswer
  reply : GoogleReply

structure Exchange extends Call where
  answer : Answer

variable (p : Platform)

/-- The router. -/
def Call.answer (issued : Issued) (c : Call) : Answer :=
  match c.request with
  | .register req => handleRegister c.ctx c.fresh req
  | .authorize params => handleAuthorize p c.ctx issued c.fetched c.fresh params
  | .decision _ req => handleAuthorizeDecision p c.ctx issued c.fresh req
  | .callback req => handleGoogleCallback p c.ctx issued c.fresh req
  | .token req => handleToken p c.ctx issued c.laterSeconds c.fresh c.reply req
  | .proxy req => handleMcpProxy c.ctx issued req

namespace Exchange

def page? (x : Exchange) : Option ConsentPage :=
  match x.answer.response with
  | .page page => some page
  | _ => none

def tokens? (x : Exchange) : Option (String × String) :=
  match x.answer.response with
  | .tokens access _ refresh _ => some (access, refresh)
  | _ => none

def nonce (x : Exchange) : String := x.fresh.binding.nonce

theorem page?_eq_some {x : Exchange} {page : ConsentPage} : x.page? = some page ↔ x.answer.response = .page page := by
  unfold page?
  split
  · rename_i shown h
    rw [h, Option.some.injEq, Response.page.injEq]
  · rename_i hother
    constructor
    · intro h
      cases h
    · intro h
      exact absurd h (hother page)

theorem tokens?_eq_some {x : Exchange} {access refresh : String} :
    x.tokens? = some (access, refresh) ↔ ∃ n scope, x.answer.response = .tokens access n refresh scope := by
  unfold tokens?
  split
  · rename_i h
    rw [h]
    simp [and_comm]
  · rename_i hother
    constructor
    · intro h
      cases h
    · rintro ⟨n, scope, h⟩
      exact absurd h (hother access n refresh scope)

end Exchange

/-- What was sealed and what has happened, newest first, and the time. -/
structure World where
  issued : Issued
  history : List Exchange
  now : Nat

namespace World

def init (now : Nat) : World := ⟨[], [], now⟩

def serve (w : World) (c : Call) : World :=
  let answer := c.answer p w.issued
  { w with issued := answer.sealed ++ w.issued, history := { c with answer } :: w.history }

def wait (w : World) (seconds : Nat) : World := { w with now := w.now + seconds }

/-- The pair is a cookie of a page that was served to `a`. -/
def Served (w : World) (a : Agent) (pair : String × String) : Prop :=
  ∃ x ∈ w.history, x.sender = a ∧ ∃ page, x.page? = some page ∧
    pair = (cookiePrefix ++ page.binding.id, page.binding.nonce)

/-- The cookies a request of `a` may carry. -/
def MayCarry (w : World) (a : Agent) (cookie : String) : Prop :=
  ∀ pair ∈ cookiePairs cookie,
    if a = .adversary then ∀ x ∈ w.history, pair.2 = x.nonce → x.sender = .adversary ∧ x.page?.isSome = true
    else cookiePrefix.toList <+: pair.1.toList → w.Served a pair

/-- The form of a page that was served to `a`. -/
def FormOf (w : World) (a : Agent) (body : Body Params) : Prop :=
  ∃ x ∈ w.history, x.sender = a ∧ ∃ page, x.page? = some page ∧
    ∃ decision ∈ ["approve", "deny"], body = .read [("consent", page.consentToken), ("decision", decision)]

/-- What `a` can send. -/
def MaySend (keeper : String → Option Nat) (w : World) (a : Agent) : Request → Prop
  | .register _ => True
  | .authorize _ => True
  | .decision sameSite req =>
    w.MayCarry a req.cookie ∧
      (a ≠ .adversary →
        if sameSite then w.FormOf a req.body
        else ∀ pair ∈ cookiePairs req.cookie, ¬ cookiePrefix.toList <+: pair.1.toList)
  | .callback req => w.MayCarry a req.cookie
  | .token req =>
    ∀ fields, req.body = .read fields → ∀ v, param fields "code_verifier" = some v →
      ∀ c, keeper v = some c → a = .client c
  | .proxy _ => True

def isToken : Request → Bool
  | .token _ => true
  | _ => false

/-- A request that can come next: of the installation at `publicUrl`, with any keys. -/
structure Admits (publicUrl : String) (keeper : String → Option Nat) (w : World) (c : Call) : Prop where
  publicUrl : c.ctx.publicUrl = publicUrl
  /-- Only a token request waits for an answer after its checks. -/
  started : if isToken c.request then c.ctx.nowSeconds ≤ w.now else c.ctx.nowSeconds = w.now
  answered : c.laterSeconds = w.now
  nonce : ∀ x ∈ w.history, x.nonce ≠ c.fresh.binding.nonce
  token : ∀ b ∈ w.issued, b.token ≠ c.fresh.token
  access : ∀ b ∈ w.issued, b.token ≠ c.fresh.access
  distinct : c.fresh.token ≠ c.fresh.access
  sent : w.MaySend keeper c.sender c.request

/-- The histories of an installation; `keeper` says which honest client keeps a verifier to itself. -/
inductive Run (publicUrl : String) (keeper : String → Option Nat) : World → Prop
  | init (now : Nat) : Run publicUrl keeper (World.init now)
  | serve {w : World} {c : Call} (h : Run publicUrl keeper w) (admits : w.Admits publicUrl keeper c) :
      Run publicUrl keeper (w.serve p c)
  | wait {w : World} (h : Run publicUrl keeper w) (seconds : Nat) : Run publicUrl keeper (w.wait seconds)

end World

end CaeloCms.Mcp
