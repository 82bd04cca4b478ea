import CaeloCms.Lib.OrderedSet
import CaeloCms.Lib.Words
import CaeloCms.Redirect.JsonText
import CaeloCms.Redirect.Plan

/-!
# The emitters of a redirect plan

`redirect-emit-caddy.ts`, `redirect-emit-cloudfront.ts`, `redirect-emit-front-door.ts` and `redirect-emit-gcp.ts`: the
plan as a Caddyfile snippet, as the entries of a CloudFront key-value store, as Front Door rules and as the path rules
of a GCP URL map.  An emitter refuses a plan its provider cannot carry.  The fields of a rule that hold one fixed word
are left out.
-/

namespace CaeloCms.Redirect

/-! ### Caddy -/

def placeholderTarget : List Char := "caelo_redirect_to".toList

def placeholderStatus : List Char := "caelo_redirect_status".toList

def placeholder (name : List Char) : List Char := '\x7b' :: (name ++ ['\x7d'])

def caddyUnsafe (c : Char) : Bool := ['\x7b', '\x7d', '"', Char.ofNat 96, '\\'].contains c

def assertCaddySafe (fromPath location : List Char) : Except String Unit :=
  match [fromPath, location].find? fun value => value.any caddyUnsafe with
  | some value =>
    .error s!"redirect-emit-caddy: the redirect for {shown fromPath} contains one of \x7b \x7d \" {Char.ofNat 96} \\ in {shown value}, which a Caddyfile cannot carry literally. Percent-encode the character in the stored path (e.g. '\x7b' is '%7B') with bulk_create_redirects (upsert), then rebuild."
  | none => .ok ()

def caddyHeader : List Char :=
  "# Auto-generated by Caelo static-generator from the redirects table. Do not edit.".toList

def caddyMapLine : List Char :=
  "map ".toList ++ (placeholder "path".toList ++ ' ' :: (placeholder placeholderTarget ++
    ' ' :: (placeholder placeholderStatus ++ [' ', '\x7b'])))

/-- A line of the `map` block. -/
def caddyMapRow (path target status : List Char) : List Char := '\t' :: (path ++ ' ' :: (target ++ ' ' :: status))

def caddyTarget (r : PlannedRedirect) : List Char :=
  if r.preserveQuery then r.location ++ placeholder "?query".toList else r.location

def caddyRedirectRows (r : PlannedRedirect) : Except String (List (List Char)) := do
  assertCaddySafe r.fromPath r.location
  return r.matchPaths.map fun path => caddyMapRow path (caddyTarget r) (natText r.statusCode)

def caddyGoneRows (g : PlannedGone) : Except String (List (List Char)) := do
  assertCaddySafe g.fromPath []
  return g.matchPaths.map fun path => caddyMapRow path ['-'] (natText goneStatus)

def caddyMatcherName (status : Nat) : List Char := "@caelo_redirect_".toList ++ natText status

/-- `<name> vars {caelo_redirect_status} <status>` -/
def caddyMatcherLine (name : List Char) (status : Nat) : List Char :=
  name ++ ' ' :: ("vars".toList ++ ' ' :: (placeholder placeholderStatus ++ ' ' :: natText status))

def caddyRedirLine (status : Nat) : List Char :=
  "redir".toList ++ ' ' :: (caddyMatcherName status ++ ' ' :: (placeholder placeholderTarget ++ ' ' :: natText status))

def caddyStatusLines (status : Nat) : List (List Char) :=
  [caddyMatcherLine (caddyMatcherName status) status, caddyRedirLine status]

/-- `[...new Set(…)].sort()`, which compares the numbers as texts. -/
def caddyStatuses (plan : RedirectPlan) : List Nat :=
  (OrderedSet.addAll [] (plan.redirects.map (·.statusCode))).mergeSort fun a b => decide (natText a ≤ natText b)

def caddyGoneName : List Char := "@caelo_gone".toList

def caddyGoneLines : List (List Char) :=
  [caddyMatcherLine caddyGoneName goneStatus, "handle ".toList ++ (caddyGoneName ++ [' ', '\x7b']),
    "\trespond 410".toList, ['\x7d']]

def emitCaddyRedirects (plan : RedirectPlan) : Except String (List Char) :=
  if plan.redirects.isEmpty ∧ plan.gone.isEmpty then .ok (Words.unlines '\n' [caddyHeader])
  else do
    let redirectRows ← plan.redirects.mapM caddyRedirectRows
    let goneRows ← plan.gone.mapM caddyGoneRows
    return Words.unlines '\n' ([caddyHeader, caddyMapLine] ++ redirectRows.flatten ++ goneRows.flatten ++ [['\x7d']] ++
      (caddyStatuses plan).flatMap caddyStatusLines ++ if plan.gone.isEmpty then [] else caddyGoneLines)

/-! ### CloudFront -/

def cloudFrontKvsMaxTotalBytes : Nat := 5 * 1024 * 1024

def cloudFrontKvsMaxKeyBytes : Nat := 512

def cloudFrontKvsMaxValueBytes : Nat := 1024

structure CloudFrontKvsEntry where
  key : List Char
  value : List Char
deriving DecidableEq, Repr

def cloudFrontKvsLimitError (detail : String) : String :=
  s!"redirect-emit-cloudfront: {detail} Nothing was published and the live redirects are unchanged. Delete redirects nobody links to any more (find_redirects lists them, bulk_delete_redirects removes them), then publish again."

def utf8Length (s : List Char) : Nat := (s.map Char.utf8Size).sum

/-- The UTF-16 units of a string, which is what `<` compares. -/
def utf16Units (s : List Char) : List Nat :=
  s.flatMap fun c =>
    let n := c.toNat
    if n < 0x10000 then [n] else [0xD800 + (n - 0x10000) / 0x400, 0xDC00 + (n - 0x10000) % 0x400]

/-- `{ s, l, q? }` -/
def redirectMembers (r : PlannedRedirect) : List (List Char × JsonScalar) :=
  [("s".toList, .num r.statusCode), ("l".toList, .str r.location)] ++
    if r.preserveQuery then [("q".toList, .num 1)] else []

def goneMembers : List (List Char × JsonScalar) := [("s".toList, .num 410)]

/-- The loop over the sorted entries, with the bytes counted so far. -/
def cloudFrontTotal : Nat → List CloudFrontKvsEntry → Except String Nat
  | total, [] => .ok total
  | total, e :: entries =>
    if cloudFrontKvsMaxKeyBytes < utf8Length e.key then
      .error (cloudFrontKvsLimitError
        s!"the redirect path {shown e.key} is longer than the {cloudFrontKvsMaxKeyBytes}-byte key limit.")
    else if cloudFrontKvsMaxValueBytes < utf8Length e.value then
      .error (cloudFrontKvsLimitError
        s!"the redirect target for {shown e.key} is longer than the {cloudFrontKvsMaxValueBytes}-byte value limit.")
    else cloudFrontTotal (total + (utf8Length e.key + utf8Length e.value)) entries

/-- The entries as they are pushed, before they are sorted. -/
def cloudFrontPushed (plan : RedirectPlan) : List CloudFrontKvsEntry :=
  (plan.redirects.flatMap fun r => r.matchPaths.map fun key => ⟨key, objectText (redirectMembers r)⟩) ++
    plan.gone.flatMap fun g => g.matchPaths.map fun key => ⟨key, objectText goneMembers⟩

def cloudFrontKeyValueEntries (plan : RedirectPlan) : Except String (List CloudFrontKvsEntry) := do
  let entries := (cloudFrontPushed plan).mergeSort fun a b => !decide (utf16Units b.key < utf16Units a.key)
  let total ← cloudFrontTotal 0 entries
  if cloudFrontKvsMaxTotalBytes < total then
    .error (cloudFrontKvsLimitError
      s!"the {entries.length} redirect path(s) need {total} bytes; a store holds {cloudFrontKvsMaxTotalBytes}.")
  else return entries

inductive CloudFrontAnswer
  | passed
  | gone
  | redirected (status : Nat) (location : List Char)
deriving DecidableEq, Repr

/-- The handler of `cloudFrontRedirectFunctionCode`; `get` is `kvs.get` in the `json` format, `none` where it throws. -/
def cloudFrontHandler (get : List Char → Option (List (List Char × JsonScalar))) (uri rawQuery : List Char) :
    CloudFrontAnswer :=
  match get uri with
  | none => .passed
  | some hit =>
    match hit.lookup "s".toList, hit.lookup "l".toList with
    | some (.num s), l =>
      if s = 410 then .gone
      else
        let location := match l with
          | some (.str l) => l
          | _ => []
        if hit.lookup "q".toList = some (.num 1) ∧ rawQuery ≠ [] then .redirected s (location ++ '?' :: rawQuery)
        else .redirected s location
    | _, _ => .passed

/-! ### Front Door -/

def frontDoorMaxRules : Nat := 100

inductive FrontDoorRedirectType
  | moved
  | found
  | temporaryRedirect
  | permanentRedirect
deriving DecidableEq, Repr

def redirectType (status : Nat) : Option FrontDoorRedirectType :=
  if status = 301 then some .moved
  else if status = 302 then some .found
  else if status = 307 then some .temporaryRedirect
  else if status = 308 then some .permanentRedirect
  else none

structure FrontDoorRedirectRule where
  ruleName : List Char
  order : Nat
  matchValues : List (List Char)
  redirectType : Option FrontDoorRedirectType
  customPath : List Char
  customQueryString : Option (List Char)
  customFragment : Option (List Char)
deriving DecidableEq, Repr

def frontDoorRuleLimitError (redirectCount : Nat) : String :=
  s!"Azure Front Door serves at most {frontDoorMaxRules} redirect rules per site (a fixed rules-engine limit); this site has {redirectCount}. Nothing was published and the live redirects are unchanged. Delete redirects nobody links to any more (find_redirects lists them, bulk_delete_redirects removes them), then publish again. Larger sets on Azure are tracked in https://github.com/caelo-cms/caelo-cms/issues/750."

structure SplitLocation where
  path : List Char
  query : Option (List Char)
  fragment : Option (List Char)

/-- What follows the first `mark`, if there is one. -/
def afterMark (mark : Char) (s : List Char) : Option (List Char) :=
  if s.contains mark then some ((s.dropWhile fun c => c != mark).drop 1) else none

def splitLocation (location : List Char) : SplitLocation :=
  let beforeHash := location.takeWhile fun c => c != '#'
  let fragment := afterMark '#' location
  { path := beforeHash.takeWhile fun c => c != '?'
    query := match afterMark '?' beforeHash with
      | some query => some query
      | none => if fragment = none then none else some []
    fragment := fragment }

def toRule (r : PlannedRedirect) (order : Nat) : Except String FrontDoorRedirectRule :=
  if isExternalRedirectTarget r.location then
    .error s!"redirect-emit-front-door: the redirect {String.ofList r.fromPath} → {String.ofList r.location} leaves the site, which this rule shape cannot express. External redirects are refused on azure until its publisher exists (#750); delete the row with bulk_delete_redirects."
  else
    let location := splitLocation r.location
    .ok {
      ruleName := "caeloRedirect".toList ++ natText order
      order := order
      matchValues := r.matchPaths.map fun p => p.drop 1
      redirectType := redirectType r.statusCode
      customPath := location.path
      customQueryString := location.query
      customFragment := location.fragment }

def frontDoorRedirectRules (plan : RedirectPlan) : Except String (List FrontDoorRedirectRule) :=
  if frontDoorMaxRules < plan.redirects.length then .error (frontDoorRuleLimitError plan.redirects.length)
  else plan.redirects.zipIdx.mapM fun (r, i) => toRule r (i + 1)

/-! ### GCP -/

inductive GcpRedirectResponseCode
  | movedPermanentlyDefault
  | found
  | seeOther
  | temporaryRedirect
  | permanentRedirect
deriving DecidableEq, Repr

def responseCode (status : Nat) : Option GcpRedirectResponseCode :=
  if status = 301 then some .movedPermanentlyDefault
  else if status = 302 then some .found
  else if status = 307 then some .temporaryRedirect
  else if status = 308 then some .permanentRedirect
  else none

structure GcpUrlRedirect where
  hostRedirect : Option (List Char)
  pathRedirect : Option (List Char)
  redirectResponseCode : Option GcpRedirectResponseCode
  stripQuery : Option Bool
deriving DecidableEq, Repr

structure GcpPathRule where
  paths : List (List Char)
  service : Option (List Char)
  urlRedirect : Option GcpUrlRedirect
deriving DecidableEq, Repr

variable (parseUrl : List Char → Option Url)

def toPathRule (r : PlannedRedirect) : Except String GcpPathRule :=
  if r.matchPaths.any fun p => p.contains '*' then
    .error s!"redirect-emit-gcp: the redirect for {shown r.fromPath} contains '*', which a GCP URL map reads as a wildcard. Percent-encode it ('%2A') with bulk_create_redirects (upsert), then publish again."
  else if !r.preserveQuery then
    .error s!"redirect-emit-gcp: the redirect {String.ofList r.fromPath} → {String.ofList r.location} targets a URL with a query string or fragment, which a GCP URL-map redirect cannot carry. Point it at the page's path with bulk_create_redirects (upsert), then publish again."
  else
    let rule (hostRedirect : Option (List Char)) (pathRedirect : List Char) : GcpPathRule :=
      { paths := r.matchPaths
        service := none
        urlRedirect := some {
          hostRedirect := hostRedirect
          pathRedirect := some pathRedirect
          redirectResponseCode := responseCode r.statusCode
          stripQuery := some false } }
    if isExternalRedirectTarget r.location then
      match parseUrl r.location with
      | none => .error "Invalid URL"
      | some external => .ok (rule (some external.hostname) external.pathname)
    else .ok (rule none r.location)

def gcpRedirectPathRules (plan : RedirectPlan) : Except String (List GcpPathRule) := plan.redirects.mapM (toPathRule parseUrl)

end CaeloCms.Redirect
