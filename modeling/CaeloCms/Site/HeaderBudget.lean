import CaeloCms.Site.SecurityHeaders

/-!
# What the security headers promise

The headers of a build fit a response, and no source is missing without a word (`KeepsPromise`), if and only if the
policy is enforced or the headers of its baseline fit (`composeSiteHeaders_iff`).
-/

namespace CaeloCms.Site

open Web (utf8)

/-! ### The promise -/

def Allows (value : List Char) (name : String) (s : Source) : Prop :=
  ∃ sources, cspSources value name.toList = some sources ∧ s.text ∈ sources

def CspSourceKind.directive : CspSourceKind → String
  | .script => "script-src"
  | .style => "style-src"
  | .img => "img-src"
  | .font => "font-src"
  | .connect => "connect-src"
  | .frame => "frame-src"
  | .media => "media-src"
  | .form => "form-action"

structure HasBaseline (policy : SiteSecurityPolicy) (facts : SiteCspFacts) (value : List Char) : Prop where
  ancestors : ∀ s ∈ self :: policy.frameAncestors, Allows value "frame-ancestors" s
  base : Allows value "base-uri" self
  objects : ∀ s ∈ (objectSrc facts).sources, Allows value "object-src" s

/-- Every source of the settings, of the build and of the baseline is there. -/
structure HasEverything (policy : SiteSecurityPolicy) (facts : SiteCspFacts) (value : List Char) : Prop
    extends HasBaseline policy facts value where
  sources : ∀ kind, ∀ s ∈ facts.origins kind ++ policy.extraSources kind, Allows value kind.directive s
  hashes : ∀ s ∈ facts.inlineScriptHashes, Allows value "script-src" s

def Headers.get (headers : Headers) (name : List Char) : Option (List Char) :=
  (headers.find? fun h => h.1 = name).map Prod.snd

structure Complete (policy : SiteSecurityPolicy) (facts : SiteCspFacts) (set : SiteHeaderSet) : Prop where
  fits : totalBytes policy set.headers ≤ SITE_HEADERS_MAX_BYTES
  enforced : policy.cspMode = .enforce → ∃ value, set.headers.get CSP = some value ∧ HasEverything policy facts value
  baseline : ∃ value, set.headers.get CSP = some value ∧ HasBaseline policy facts value
  reported : policy.cspMode = .reportOnly → set.cspCut = false →
    ∃ value, set.headers.get CSP_REPORT_ONLY = some value ∧ HasEverything policy facts value

/-- What is returned is complete. -/
def KeepsPromise (policy : SiteSecurityPolicy) (facts : SiteCspFacts) : Prop :=
  ∀ set, composeSiteHeaders policy facts = .ok set → Complete policy facts set

/-! ### Reading a policy -/

def isNameChar (c : Char) : Bool := isSourceChar c && c.toLower = c

def IsName (name : List Char) : Prop := name ≠ [] ∧ name.all isNameChar = true

instance (name : List Char) : Decidable (IsName name) := inferInstanceAs (Decidable (_ ∧ _))

variable {policy : SiteSecurityPolicy} {facts : SiteCspFacts} {d : Directive} {ds : List Directive}

theorem isCspSpace_of_source {c : Char} (h : isSourceChar c = true) : isCspSpace c = false ∧ c ≠ ';' := by
  rw [isSourceChar, Bool.and_eq_true, Bool.and_eq_true, Bool.not_eq_true', bne_iff_ne] at h
  exact h.1

theorem IsName.isSourceChar {name : List Char} (h : IsName name) : ∀ c ∈ name, isSourceChar c = true := by
  intro c hc
  exact (Bool.and_eq_true_iff.1 (List.all_eq_true.1 h.2 c hc)).1

theorem IsName.toLower {name : List Char} (h : IsName name) : name.map Char.toLower = name := by
  apply (List.map_congr_left _).trans (List.map_id name)
  intro c hc
  exact of_decide_eq_true (Bool.and_eq_true_iff.1 (List.all_eq_true.1 h.2 c hc)).2

theorem words_directive (h : IsName d.name) :
    Words.words isCspSpace (directive d) = d.name :: d.sources.map Source.text := by
  have hsources : ∀ w ∈ d.sources.map Source.text, w ≠ [] ∧ ∀ c ∈ w, isCspSpace c = false := by
    intro w hw
    obtain ⟨s, -, rfl⟩ := List.mem_map.1 hw
    exact ⟨s.ne_nil, fun c hc => (isCspSpace_of_source (List.all_eq_true.1 s.clean c hc)).1⟩
  rw [directive, Words.words_append h.1 (fun c hc => (isCspSpace_of_source (h.isSourceChar c hc)).1) rfl,
    Words.words_intercalate rfl hsources]

theorem semicolon_notMem_directive (h : IsName d.name) : ';' ∉ directive d := by
  intro hmem
  rw [directive, List.mem_append, List.mem_cons] at hmem
  rcases hmem with hname | hspace | hsources
  · exact (isCspSpace_of_source (h.isSourceChar _ hname)).2 rfl
  · cases hspace
  · rcases Words.mem_intercalate hsources with hspace | ⟨w, hw, hc⟩
    · cases hspace
    · obtain ⟨s, -, rfl⟩ := List.mem_map.1 hw
      exact (isCspSpace_of_source (List.all_eq_true.1 s.clean _ hc)).2 rfl

theorem words_joinCsp (hne : ds ≠ []) (h : ∀ d ∈ ds, IsName d.name) :
    ((joinCsp ds).splitOn ';').map (Words.words isCspSpace) = ds.map fun d => d.name :: d.sources.map Source.text := by
  induction ds with
  | nil => exact absurd rfl hne
  | cons d ds ih =>
    obtain ⟨hd, hds⟩ := List.forall_mem_cons.1 h
    have hclean : ∀ c ∈ directive d, (c == ';') = false := fun c hc =>
      beq_false_of_ne fun heq => semicolon_notMem_directive hd (heq ▸ hc)
    by_cases hnil : ds = []
    · subst hnil
      have hsplit : (directive d).splitOn ';' = [directive d] := List.splitOnP_eq_singleton hclean
      rw [joinCsp, List.map_singleton, List.intercalate_singleton, hsplit, List.map_singleton, words_directive hd,
        List.map_singleton]
    · have hjoin : joinCsp (d :: ds) = directive d ++ ';' :: ' ' :: joinCsp ds := by
        rw [joinCsp, List.map_cons, List.intercalate_cons_of_ne_nil (by simpa using hnil), List.append_assoc]
        rfl
      have hspace : ((' ' :: joinCsp ds).splitOn ';').map (Words.words isCspSpace) =
          ((joinCsp ds).splitOn ';').map (Words.words isCspSpace) := by
        rw [List.splitOn, List.splitOnP_cons_eq_if_modifyHead, if_neg (by decide), ← List.splitOn]
        cases (joinCsp ds).splitOn ';' with
        | nil => rfl
        | cons part parts =>
          rw [List.modifyHead_cons, List.map_cons, List.map_cons, Words.words_cons_blank rfl]
      have hsplit : (directive d ++ ';' :: ' ' :: joinCsp ds).splitOn ';' =
          directive d :: (' ' :: joinCsp ds).splitOn ';' :=
        List.splitOnP_append_cons_of_forall_mem hclean ';' rfl _
      rw [hjoin, hsplit, List.map_cons, words_directive hd, hspace, ih hnil hds, List.map_cons]

def Directive.words (d : Directive) : List (List Char) := d.name :: d.sources.map Source.text

def hasName (name : List Char) (d : Directive) : Bool := d.name = name

theorem isNamed_words (h : IsName d.name) (name : List Char) : isNamed name d.words = hasName name d := by
  simp only [isNamed, hasName, Directive.words, List.head?_cons, Option.map_some, h.toLower, Option.some.injEq]

theorem cspSources_joinCsp (hne : ds ≠ []) (h : ∀ d ∈ ds, IsName d.name) (name : List Char) :
    cspSources (joinCsp ds) name = (ds.find? (hasName name)).map fun d => d.sources.map Source.text := by
  rw [cspSources, words_joinCsp hne h]
  clear hne
  induction ds with
  | nil => rfl
  | cons d ds ih =>
    obtain ⟨hd, hds⟩ := List.forall_mem_cons.1 h
    have hread := isNamed_words hd name
    rw [List.map_cons, ← Directive.words]
    by_cases hname : hasName name d = true
    · rw [List.find?_cons_of_pos (hread.trans hname), List.find?_cons_of_pos hname]
      rfl
    · rw [List.find?_cons_of_neg (hread ▸ hname), List.find?_cons_of_neg hname]
      exact ih hds

/-! ### Both policies are complete -/

def directiveNames : List String :=
  ["default-src", "script-src", "style-src", "img-src", "font-src", "connect-src", "media-src", "frame-src",
    "form-action", "frame-ancestors", "base-uri", "object-src"]

theorem isName_of_mem {name : List Char} (h : name ∈ directiveNames.map String.toList) : IsName name := by
  have hall : (directiveNames.map String.toList).all (fun name => decide (IsName name)) = true := by decide +kernel
  exact of_decide_eq_true (List.all_eq_true.1 hall name h)

theorem names_fullDirectives (hashes : List Source) : (fullDirectives policy facts hashes).map Directive.name =
    directiveNames.map String.toList := rfl

theorem isName_fullDirectives (hashes : List Source) : ∀ d ∈ fullDirectives policy facts hashes, IsName d.name := by
  intro d hd
  apply isName_of_mem
  have hnames : (fullDirectives policy facts hashes).map Directive.name = _ := names_fullDirectives hashes
  rw [← hnames]
  exact List.mem_map_of_mem hd

theorem isName_baselineCsp : ∀ d ∈ baselineCsp policy facts, IsName d.name := by
  intro d hd
  apply isName_fullDirectives []
  exact List.mem_append_right _ hd

theorem allows_of_find {value : List Char} (h : ∀ name, cspSources value name =
    (ds.find? (hasName name)).map fun d => d.sources.map Source.text) {name : String}
    (hfind : ds.find? (hasName name.toList) = some d) : ∀ s ∈ d.sources, Allows value name s := by
  intro s hs
  refine ⟨d.sources.map Source.text, ?_, List.mem_map_of_mem hs⟩
  rw [h, hfind]
  rfl

theorem hasBaseline_of_find {value : List Char} (h : ∀ name, cspSources value name =
    (ds.find? (hasName name)).map fun d => d.sources.map Source.text)
    (hancestors : ds.find? (hasName "frame-ancestors".toList) = some (frameAncestors policy))
    (hbase : ds.find? (hasName "base-uri".toList) = some ⟨"base-uri".toList, [self]⟩)
    (hobjects : ds.find? (hasName "object-src".toList) = some (objectSrc facts)) : HasBaseline policy facts value :=
  ⟨allows_of_find h hancestors, allows_of_find h hbase self (List.mem_singleton.2 rfl), allows_of_find h hobjects⟩

theorem hasBaseline_baselineCsp : HasBaseline policy facts (joinCsp (baselineCsp policy facts)) :=
  hasBaseline_of_find (cspSources_joinCsp (List.cons_ne_nil _ _) isName_baselineCsp) rfl rfl rfl

theorem mem_uniqueSorted {values : List Source} {s : Source} : s ∈ uniqueSorted values ↔ s ∈ values := by
  rw [uniqueSorted, List.mem_mergeSort, List.mem_dedup]

theorem hasEverything_fullCsp : HasEverything policy facts (fullCsp policy facts facts.inlineScriptHashes) := by
  have hnames : ∀ d ∈ fullDirectives policy facts facts.inlineScriptHashes, IsName d.name :=
    isName_fullDirectives facts.inlineScriptHashes
  have hread := cspSources_joinCsp (List.cons_ne_nil _ _) hnames
  refine ⟨hasBaseline_of_find hread rfl rfl rfl, ?_, ?_⟩
  · intro kind s hs
    have hs := mem_uniqueSorted.2 hs
    cases kind with
    | script => exact allows_of_find hread rfl s (List.mem_append_right _ hs)
    | style => exact allows_of_find hread rfl s (List.mem_cons_of_mem _ (List.mem_cons_of_mem _ hs))
    | img => exact allows_of_find hread rfl s (List.mem_cons_of_mem _ (List.mem_cons_of_mem _ (List.mem_cons_of_mem _ hs)))
    | font => exact allows_of_find hread rfl s (List.mem_cons_of_mem _ (List.mem_cons_of_mem _ hs))
    | connect => exact allows_of_find hread rfl s (List.mem_cons_of_mem _ hs)
    | media => exact allows_of_find hread rfl s (List.mem_cons_of_mem _ (List.mem_cons_of_mem _ hs))
    | frame => exact allows_of_find hread rfl s (List.mem_cons_of_mem _ hs)
    | form => exact allows_of_find hread rfl s (List.mem_cons_of_mem _ hs)
  · intro s hs
    exact allows_of_find hread rfl s (List.mem_append_left _ (List.mem_cons_of_mem _ hs))

/-! ### The bytes of the baseline -/

def bytes (s : List Char) : Nat := (utf8 s).length

theorem bytes_append (s t : List Char) : bytes (s ++ t) = bytes s + bytes t := by
  rw [bytes, Web.utf8_append, List.length_append, bytes, bytes]

theorem bytes_space (s : List Char) : bytes (' ' :: s) = 1 + bytes s := bytes_append [' '] s

theorem bytes_separator : bytes "; ".toList = 2 := by decide +kernel

def directiveBytes (d : Directive) : Nat := bytes d.name + (d.sources.map fun s => 1 + bytes s.text).sum

theorem bytes_directive (h : d.sources ≠ []) : bytes (directive d) = directiveBytes d := by
  have hsources : ∀ ss : List Source, ss ≠ [] → bytes (' ' :: [' '].intercalate (ss.map Source.text)) =
      (ss.map fun s => 1 + bytes s.text).sum := by
    intro ss hss
    induction ss with
    | nil => exact absurd rfl hss
    | cons s ss ih =>
      by_cases hnil : ss = []
      · subst hnil
        rw [List.map_singleton, List.intercalate_singleton, bytes_space, List.map_singleton, List.sum_singleton]
      · rw [List.map_cons, List.intercalate_cons_of_ne_nil (by simpa using hnil), List.append_assoc, bytes_space,
          bytes_append, List.singleton_append, ih hnil, List.map_cons, List.sum_cons, ← Nat.add_assoc]
  rw [directive, bytes_append, hsources d.sources h, directiveBytes]

theorem bytes_joinCsp_cons (hne : ds ≠ []) :
    bytes (joinCsp (d :: ds)) = bytes (directive d) + 2 + bytes (joinCsp ds) := by
  rw [joinCsp, List.map_cons, List.intercalate_cons_of_ne_nil (by simpa using hne), bytes_append, bytes_append,
    bytes_separator, joinCsp]

/-- The bytes of the headers that are left when everything is cut. -/
def baselineBytes (policy : SiteSecurityPolicy) (facts : SiteCspFacts) : Nat :=
  totalBytes policy (baseHeaders policy) + CSP.length + (directiveBytes (frameAncestors policy) + 2 +
    directiveBytes ⟨"base-uri".toList, [self]⟩ + 2 + directiveBytes (objectSrc facts))

theorem headerBytes_append (h h' : Headers) : headerBytes (h ++ h') = headerBytes h + headerBytes h' := by
  rw [headerBytes, List.map_append, List.sum_append, headerBytes, headerBytes]

theorem sources_objectSrc (facts : SiteCspFacts) : (objectSrc facts).sources ≠ [] := by
  have hsources : (objectSrc facts).sources =
      if facts.objectOrigins.length > 0 then facts.objectOrigins else [noSource] := rfl
  rw [hsources]
  split
  · rename_i h
    exact List.ne_nil_of_length_pos h
  · exact List.cons_ne_nil noSource []

theorem totalBytes_baseline :
    totalBytes policy (baseHeaders policy ++ [(CSP, joinCsp (baselineCsp policy facts))]) = baselineBytes policy facts := by
  have hcsp : bytes (joinCsp (baselineCsp policy facts)) = directiveBytes (frameAncestors policy) + 2 +
      directiveBytes ⟨"base-uri".toList, [self]⟩ + 2 + directiveBytes (objectSrc facts) := by
    have hlast : bytes (joinCsp [objectSrc facts]) = directiveBytes (objectSrc facts) := by
      rw [joinCsp, List.map_singleton, List.intercalate_singleton, bytes_directive (sources_objectSrc facts)]
    rw [baselineCsp, bytes_joinCsp_cons (List.cons_ne_nil _ _), bytes_joinCsp_cons (List.cons_ne_nil _ _), hlast,
      bytes_directive (List.cons_ne_nil _ _), bytes_directive (List.cons_ne_nil _ _)]
    omega
  have hheader : headerBytes [(CSP, joinCsp (baselineCsp policy facts))] =
      CSP.length + bytes (joinCsp (baselineCsp policy facts)) := by
    rw [headerBytes, List.map_singleton, List.sum_singleton, bytes]
  rw [totalBytes, headerBytes_append, hheader, hcsp, baselineBytes, totalBytes]
  omega

/-! ### The budget -/

theorem csp_ne_reportOnly : CSP ≠ CSP_REPORT_ONLY := by decide

theorem names_baseHeaders {h : List Char × List Char} (hmem : h ∈ baseHeaders policy) :
    h.1 ≠ CSP ∧ h.1 ≠ CSP_REPORT_ONLY := by
  have hnames : ∀ name ∈ ["Referrer-Policy".toList, "Permissions-Policy".toList, "X-Frame-Options".toList],
      name ≠ CSP ∧ name ≠ CSP_REPORT_ONLY := by decide
  rw [baseHeaders, List.mem_append] at hmem
  rcases hmem with hmem | hmem
  · rw [List.mem_cons, List.mem_singleton] at hmem
    rcases hmem with rfl | rfl
    · exact hnames _ List.mem_cons_self
    · exact hnames _ (List.mem_cons_of_mem _ List.mem_cons_self)
  · split at hmem
    · rw [List.mem_singleton] at hmem
      subst hmem
      exact hnames _ (List.mem_cons_of_mem _ (List.mem_cons_of_mem _ List.mem_cons_self))
    · cases hmem

theorem get_append {headers rest : Headers} {name : List Char} (h : ∀ h ∈ headers, h.1 ≠ name) :
    Headers.get (headers ++ rest) name = Headers.get rest name := by
  have hnone : headers.find? (fun h => h.1 = name) = none := by
    rw [List.find?_eq_none]
    intro x hx
    simpa using h x hx
  rw [Headers.get, List.find?_append, hnone, Option.none_or, Headers.get]

theorem get_csp (value : List Char) (rest : Headers) :
    Headers.get (baseHeaders policy ++ (CSP, value) :: rest) CSP = some value := by
  rw [get_append fun h hmem => (names_baseHeaders hmem).1]
  simp [Headers.get]

theorem get_reportOnly (value value' : List Char) :
    Headers.get (baseHeaders policy ++ [(CSP, value), (CSP_REPORT_ONLY, value')]) CSP_REPORT_ONLY = some value' := by
  rw [get_append fun h hmem => (names_baseHeaders hmem).2]
  simp [Headers.get, csp_ne_reportOnly]

theorem compose_enforce (h : policy.cspMode = .enforce) (hashes : List Source) :
    compose policy facts hashes = baseHeaders policy ++ [(CSP, fullCsp policy facts hashes)] := if_pos h

theorem compose_reportOnly (h : policy.cspMode = .reportOnly) (hashes : List Source) :
    compose policy facts hashes = baseHeaders policy ++
      [(CSP, joinCsp (baselineCsp policy facts)), (CSP_REPORT_ONLY, fullCsp policy facts hashes)] :=
  if_neg fun henforce => by rw [h] at henforce; cases henforce

theorem totalBytes_reportOnly (h : policy.cspMode = .reportOnly) (hashes : List Source) :
    totalBytes policy (compose policy facts hashes) =
      baselineBytes policy facts + (CSP_REPORT_ONLY.length + bytes (fullCsp policy facts hashes)) := by
  have hheader : headerBytes [(CSP_REPORT_ONLY, fullCsp policy facts hashes)] =
      CSP_REPORT_ONLY.length + bytes (fullCsp policy facts hashes) := by
    rw [headerBytes, List.map_singleton, List.sum_singleton, bytes]
  have hsplit : compose policy facts hashes = (baseHeaders policy ++ [(CSP, joinCsp (baselineCsp policy facts))]) ++
      [(CSP_REPORT_ONLY, fullCsp policy facts hashes)] := by
    rw [compose_reportOnly h, List.append_assoc, List.singleton_append]
  rw [hsplit, totalBytes, headerBytes_append, hheader, ← totalBytes_baseline, totalBytes]
  omega

theorem filter_compose (h : policy.cspMode = .reportOnly) (hashes : List Source) :
    (compose policy facts hashes).filter (fun h => h.1 ≠ CSP_REPORT_ONLY) =
      baseHeaders policy ++ [(CSP, joinCsp (baselineCsp policy facts))] := by
  have hbase : (baseHeaders policy).filter (fun h => h.1 ≠ CSP_REPORT_ONLY) = baseHeaders policy := by
    rw [List.filter_eq_self]
    intro header hmem
    exact decide_eq_true (names_baseHeaders hmem).2
  rw [compose_reportOnly h, List.filter_append, hbase]
  simp [csp_ne_reportOnly]

theorem complete_enforce (h : policy.cspMode = .enforce)
    (hfits : totalBytes policy (compose policy facts facts.inlineScriptHashes) ≤ SITE_HEADERS_MAX_BYTES) (cut : Bool) :
    Complete policy facts
      ⟨policy, facts, compose policy facts facts.inlineScriptHashes, hstsValue policy, cut⟩ := by
  have hget : Headers.get (compose policy facts facts.inlineScriptHashes) CSP =
      some (fullCsp policy facts facts.inlineScriptHashes) := by
    rw [compose_enforce h]
    exact get_csp _ []
  refine ⟨hfits, fun _ => ⟨_, hget, hasEverything_fullCsp⟩, ⟨_, hget, hasEverything_fullCsp.toHasBaseline⟩, ?_⟩
  intro hmode
  rw [h] at hmode
  cases hmode

theorem complete_reportOnly (h : policy.cspMode = .reportOnly) {hashes : List Source} {cut : Bool}
    (hfits : totalBytes policy (compose policy facts hashes) ≤ SITE_HEADERS_MAX_BYTES)
    (hcut : cut = false → hashes = facts.inlineScriptHashes) :
    Complete policy facts ⟨policy, facts, compose policy facts hashes, hstsValue policy, cut⟩ := by
  have hget : Headers.get (compose policy facts hashes) CSP = some (joinCsp (baselineCsp policy facts)) := by
    rw [compose_reportOnly h]
    exact get_csp _ _
  have hreport : Headers.get (compose policy facts hashes) CSP_REPORT_ONLY = some (fullCsp policy facts hashes) := by
    rw [compose_reportOnly h]
    exact get_reportOnly _ _
  refine ⟨hfits, ?_, ⟨_, hget, hasBaseline_baselineCsp⟩, ?_⟩
  · intro hmode
    rw [h] at hmode
    cases hmode
  · intro _ hfalse
    obtain rfl := hcut hfalse
    exact ⟨_, hreport, hasEverything_fullCsp⟩

theorem complete_baseline (h : policy.cspMode = .reportOnly) (hfits : baselineBytes policy facts ≤ SITE_HEADERS_MAX_BYTES) :
    Complete policy facts ⟨policy, facts, (compose policy facts []).filter fun h => h.1 ≠ CSP_REPORT_ONLY,
      hstsValue policy, true⟩ := by
  refine ⟨?_, ?_, ⟨joinCsp (baselineCsp policy facts), ?_, hasBaseline_baselineCsp⟩, ?_⟩
  · change totalBytes policy ((compose policy facts []).filter fun h => h.1 ≠ CSP_REPORT_ONLY) ≤ _
    rw [filter_compose h, totalBytes_baseline]
    exact hfits
  · intro hmode
    rw [h] at hmode
    cases hmode
  · change Headers.get ((compose policy facts []).filter fun h => h.1 ≠ CSP_REPORT_ONLY) CSP = _
    rw [filter_compose h]
    exact get_csp _ []
  · rintro - ⟨⟩

theorem composeSiteHeaders_of_large (h : policy.cspMode = .reportOnly)
    (hlarge : SITE_HEADERS_MAX_BYTES < baselineBytes policy facts) : composeSiteHeaders policy facts =
      .ok ⟨policy, facts, (compose policy facts []).filter fun h => h.1 ≠ CSP_REPORT_ONLY, hstsValue policy, true⟩ := by
  have hnot : ∀ hashes, ¬totalBytes policy (compose policy facts hashes) ≤ SITE_HEADERS_MAX_BYTES := by
    intro hashes
    rw [totalBytes_reportOnly h]
    omega
  have hmode : ¬policy.cspMode = .enforce := by
    rw [h]
    exact fun henforce => by cases henforce
  unfold composeSiteHeaders
  dsimp only
  rw [if_neg (hnot _), if_neg hmode, if_neg (hnot _)]

theorem not_keepsPromise_of_large (h : policy.cspMode = .reportOnly)
    (hlarge : SITE_HEADERS_MAX_BYTES < baselineBytes policy facts) : ¬KeepsPromise policy facts := by
  intro hkeeps
  have hfits := (hkeeps _ (composeSiteHeaders_of_large h hlarge)).fits
  change totalBytes policy ((compose policy facts []).filter fun h => h.1 ≠ CSP_REPORT_ONLY) ≤ _ at hfits
  rw [filter_compose h, totalBytes_baseline] at hfits
  omega

/-- The promise holds if and only if the policy is enforced or its baseline fits. -/
theorem composeSiteHeaders_iff (policy : SiteSecurityPolicy) (facts : SiteCspFacts) :
    KeepsPromise policy facts ↔
      policy.cspMode = .enforce ∨ baselineBytes policy facts ≤ SITE_HEADERS_MAX_BYTES := by
  cases hmode : policy.cspMode with
  | enforce =>
    refine iff_of_true ?_ (.inl rfl)
    intro set hset
    unfold composeSiteHeaders at hset
    dsimp only at hset
    by_cases hfits : totalBytes policy (compose policy facts facts.inlineScriptHashes) ≤ SITE_HEADERS_MAX_BYTES
    · rw [if_pos hfits] at hset
      cases hset
      exact complete_enforce hmode hfits false
    · rw [if_neg hfits, if_pos hmode] at hset
      cases hset
  | reportOnly =>
    constructor
    · intro hkeeps
      right
      by_contra hlarge
      exact not_keepsPromise_of_large hmode (Nat.not_le.1 hlarge) hkeeps
    · rintro (henforce | hbaseline)
      · cases henforce
      intro set hset
      unfold composeSiteHeaders at hset
      dsimp only at hset
      by_cases hfits : totalBytes policy (compose policy facts facts.inlineScriptHashes) ≤ SITE_HEADERS_MAX_BYTES
      · rw [if_pos hfits] at hset
        cases hset
        exact complete_reportOnly hmode hfits fun _ => rfl
      · rw [if_neg hfits, if_neg (by rw [hmode]; decide)] at hset
        by_cases hreduced : totalBytes policy (compose policy facts []) ≤ SITE_HEADERS_MAX_BYTES
        · rw [if_pos hreduced] at hset
          cases hset
          refine complete_reportOnly hmode hreduced ?_
          rintro ⟨⟩
        · rw [if_neg hreduced] at hset
          cases hset
          exact complete_baseline hmode hbaseline

/-- The origins `https://a0.example.com`, `https://a1.example.com`, … of embedded players. -/
def players (n : Nat) : List Source :=
  (List.range n).filterMap fun i =>
    let text := "https://a".toList ++ (toString i).toList ++ ".example.com".toList
    if h : text ≠ [] ∧ text.all isSourceChar = true then some ⟨text, h.1, h.2⟩ else none

def reportOnlyPolicy : SiteSecurityPolicy :=
  ⟨.reportOnly, [], .strictOriginWhenCrossOrigin, [], ⟨31536000, false, false⟩, fun _ => []⟩

/-- A build that embeds from three hundred origins gets headers that do not fit. -/
theorem composeSiteHeaders_fails :
    ¬∀ (policy : SiteSecurityPolicy) (facts : SiteCspFacts), KeepsPromise policy facts := by
  intro h
  have hlarge : SITE_HEADERS_MAX_BYTES < baselineBytes reportOnlyPolicy ⟨fun _ => [], [], players 300⟩ := by
    decide +kernel
  exact not_keepsPromise_of_large rfl hlarge (h _ _)

end CaeloCms.Site
