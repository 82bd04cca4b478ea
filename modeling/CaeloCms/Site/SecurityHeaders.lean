import CaeloCms.Lib.Words
import CaeloCms.Shared.TextCodec

/-!
# The security headers of a site

`composeSiteHeaders` makes the headers of a build from the Owner's policy and from what the build ships.  A policy that
does not fit a response is cut in report-only mode and refused in enforce mode.
-/

namespace CaeloCms.Site

open Web (utf8)

/-! ### Source -/

/-- The ASCII white space between the sources of a directive. -/
def isCspSpace (c : Char) : Bool := c = ' ' || c = '\t' || c = '\n' || c = '\x0c' || c = '\r'

def isSourceChar (c : Char) : Bool := !isCspSpace c && c != ';' && c != ','

structure Source where
  text : List Char
  ne_nil : text ≠ []
  clean : text.all isSourceChar = true

inductive CspSourceKind
  | script
  | style
  | img
  | font
  | connect
  | frame
  | media
  | form
deriving DecidableEq

inductive CspMode
  | reportOnly
  | enforce
deriving DecidableEq

inductive ReferrerPolicy
  | strictOriginWhenCrossOrigin
  | strictOrigin
  | sameOrigin
  | noReferrer

inductive BrowserFeature
  | bluetooth
  | camera
  | geolocation
  | hid
  | microphone
  | midi
  | payment
  | serial
  | usb
deriving DecidableEq

structure Hsts where
  maxAgeSeconds : Nat
  includeSubdomains : Bool
  preload : Bool

/-- The Owner's policy; a kind without extra sources has none. -/
structure SiteSecurityPolicy where
  cspMode : CspMode
  frameAncestors : List Source
  referrerPolicy : ReferrerPolicy
  allowedFeatures : List BrowserFeature
  hsts : Hsts
  extraSources : CspSourceKind → List Source

/-- What a build ships, as far as its headers depend on it. -/
structure SiteCspFacts where
  origins : CspSourceKind → List Source
  inlineScriptHashes : List Source
  objectOrigins : List Source

def SITE_HEADERS_MAX_BYTES : Nat := 6 * 1024

def ReferrerPolicy.text : ReferrerPolicy → List Char
  | .strictOriginWhenCrossOrigin => "strict-origin-when-cross-origin".toList
  | .strictOrigin => "strict-origin".toList
  | .sameOrigin => "same-origin".toList
  | .noReferrer => "no-referrer".toList

def BrowserFeature.text : BrowserFeature → List Char
  | .bluetooth => "bluetooth".toList
  | .camera => "camera".toList
  | .geolocation => "geolocation".toList
  | .hid => "hid".toList
  | .microphone => "microphone".toList
  | .midi => "midi".toList
  | .payment => "payment".toList
  | .serial => "serial".toList
  | .usb => "usb".toList

def DENIED_BROWSER_FEATURES : List BrowserFeature :=
  [.bluetooth, .camera, .geolocation, .hid, .microphone, .midi, .payment, .serial, .usb]

def self : Source := ⟨"'self'".toList, by decide, by decide⟩

def noSource : Source := ⟨"'none'".toList, by decide, by decide⟩

def unsafeInline : Source := ⟨"'unsafe-inline'".toList, by decide, by decide⟩

def dataScheme : Source := ⟨"data:".toList, by decide, by decide⟩

def blobScheme : Source := ⟨"blob:".toList, by decide, by decide⟩

instance : DecidableEq Source := fun a b =>
  decidable_of_iff (a.text = b.text) ⟨fun h => by cases a; cases b; cases h; rfl, fun h => h ▸ rfl⟩

/-- The sources without repetitions, in the order of their UTF-16 units. -/
def uniqueSorted (values : List Source) : List Source :=
  values.dedup.mergeSort fun a b => a.text.flatMap charUnits ≤ b.text.flatMap charUnits

structure Directive where
  name : List Char
  sources : List Source

def directive (d : Directive) : List Char := d.name ++ ' ' :: [' '].intercalate (d.sources.map Source.text)

def frameAncestors (policy : SiteSecurityPolicy) : Directive :=
  ⟨"frame-ancestors".toList, self :: policy.frameAncestors⟩

def objectSrc (facts : SiteCspFacts) : Directive :=
  ⟨"object-src".toList, if facts.objectOrigins.length > 0 then facts.objectOrigins else [noSource]⟩

def baselineCsp (policy : SiteSecurityPolicy) (facts : SiteCspFacts) : List Directive :=
  [frameAncestors policy, ⟨"base-uri".toList, [self]⟩, objectSrc facts]

def joinCsp (ds : List Directive) : List Char := "; ".toList.intercalate (ds.map directive)

def fullDirectives (policy : SiteSecurityPolicy) (facts : SiteCspFacts) (hashes : List Source) : List Directive :=
  let of (kind : CspSourceKind) := uniqueSorted (facts.origins kind ++ policy.extraSources kind)
  [⟨"default-src".toList, [self]⟩,
    ⟨"script-src".toList, self :: hashes ++ of .script⟩,
    ⟨"style-src".toList, self :: unsafeInline :: of .style⟩,
    ⟨"img-src".toList, self :: dataScheme :: blobScheme :: of .img⟩,
    ⟨"font-src".toList, self :: dataScheme :: of .font⟩,
    ⟨"connect-src".toList, self :: of .connect⟩,
    ⟨"media-src".toList, self :: blobScheme :: of .media⟩,
    ⟨"frame-src".toList, self :: of .frame⟩,
    ⟨"form-action".toList, self :: of .form⟩] ++ baselineCsp policy facts

def fullCsp (policy : SiteSecurityPolicy) (facts : SiteCspFacts) (hashes : List Source) : List Char :=
  joinCsp (fullDirectives policy facts hashes)

def permissionsPolicy (policy : SiteSecurityPolicy) : List Char :=
  ", ".toList.intercalate (DENIED_BROWSER_FEATURES.map fun f =>
    f.text ++ '=' :: (if f ∈ policy.allowedFeatures then "(self)".toList else "()".toList))

def hstsValue (policy : SiteSecurityPolicy) : Option (List Char) :=
  if policy.hsts.maxAgeSeconds = 0 then none
  else some ("; ".toList.intercalate (["max-age=".toList ++ (toString policy.hsts.maxAgeSeconds).toList] ++
    (if policy.hsts.includeSubdomains then ["includeSubDomains".toList] else []) ++
    (if policy.hsts.preload then ["preload".toList] else [])))

abbrev Headers := List (List Char × List Char)

def headerBytes (headers : Headers) : Nat := (headers.map fun h => h.1.length + (utf8 h.2).length).sum

/-- The policy does not fit a response header. -/
structure SiteHeadersTooLargeError where
  bytes : Nat
  hashes : Nat

def SiteHeadersTooLargeError.message (e : SiteHeadersTooLargeError) : String :=
  s!"The site's security headers take {e.bytes} bytes, over the {SITE_HEADERS_MAX_BYTES} that fit a response, with " ++
    s!"{e.hashes} inline script hashes in the CSP. Move inline <script> elements of modules into the module's js, or " ++
    "remove origins from the policy's extraSources, then Stage again. To Stage meanwhile, propose cspMode report_only."

structure SiteHeaderSet where
  policy : SiteSecurityPolicy
  facts : SiteCspFacts
  headers : Headers
  hsts : Option (List Char)
  cspCut : Bool

def CSP : List Char := "Content-Security-Policy".toList

def CSP_REPORT_ONLY : List Char := "Content-Security-Policy-Report-Only".toList

def baseHeaders (policy : SiteSecurityPolicy) : Headers :=
  [("Referrer-Policy".toList, policy.referrerPolicy.text), ("Permissions-Policy".toList, permissionsPolicy policy)] ++
    if policy.frameAncestors.length = 0 then [("X-Frame-Options".toList, "SAMEORIGIN".toList)] else []

def compose (policy : SiteSecurityPolicy) (facts : SiteCspFacts) (hashes : List Source) : Headers :=
  if policy.cspMode = .enforce then baseHeaders policy ++ [(CSP, fullCsp policy facts hashes)]
  else baseHeaders policy ++
    [(CSP, joinCsp (baselineCsp policy facts)), (CSP_REPORT_ONLY, fullCsp policy facts hashes)]

def hstsBytes (policy : SiteSecurityPolicy) : Nat :=
  match hstsValue policy with
  | none => 0
  | some value => value.length + "Strict-Transport-Security".toList.length

/-- The headers and the one that some hosts send themselves. -/
def totalBytes (policy : SiteSecurityPolicy) (headers : Headers) : Nat := headerBytes headers + hstsBytes policy

def composeSiteHeaders (policy : SiteSecurityPolicy) (facts : SiteCspFacts) :
    Except SiteHeadersTooLargeError SiteHeaderSet :=
  let headers := compose policy facts facts.inlineScriptHashes
  if totalBytes policy headers ≤ SITE_HEADERS_MAX_BYTES then .ok ⟨policy, facts, headers, hstsValue policy, false⟩
  else if policy.cspMode = .enforce then .error ⟨totalBytes policy headers, facts.inlineScriptHashes.length⟩
  else
    let reduced := compose policy facts []
    if totalBytes policy reduced ≤ SITE_HEADERS_MAX_BYTES then .ok ⟨policy, facts, reduced, hstsValue policy, true⟩
    else .ok ⟨policy, facts, reduced.filter fun h => h.1 ≠ CSP_REPORT_ONLY, hstsValue policy, true⟩

/-! ### What a browser reads -/

def isNamed (name : List Char) (ws : List (List Char)) : Bool := ws.head?.map (List.map Char.toLower) = some name

def cspSources (value name : List Char) : Option (List (List Char)) :=
  (((value.splitOn ';').map (Words.words isCspSpace)).find? (isNamed name)).map List.tail

end CaeloCms.Site
