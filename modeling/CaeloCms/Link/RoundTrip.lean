import CaeloCms.Link.Reparse
import CaeloCms.Link.Shown

/-!
# What is read and written back

`humaniseLinkRefs` of stored content is what an author edits.  Saved again it becomes the same content, unless it has a
variant of a media asset whose slug has the form of an id (`humanise_roundTrip`).
-/

namespace CaeloCms.Link

open Redirect (isSpace Url)

/-! ### Text without references -/

/-- Text without the start of a reference. -/
def NoScheme (s : List Char) : Prop := ¬ "caelo:".toList <:+: s

theorem NoScheme.of_infix {s t : List Char} (h : NoScheme s) (hwithin : t <:+: s) : NoScheme t := by
  intro ht
  exact h (ht.trans hwithin)

theorem scheme_of_refLike {s : List Char} (h : refLike s = true) : "caelo:".toList <+: s := by
  unfold refLike at h
  rw [Bool.or_eq_true, List.isPrefixOf_iff_prefix, List.isPrefixOf_iff_prefix] at h
  rcases h with h | h
  · exact List.IsPrefix.trans (by decide) h
  · exact List.IsPrefix.trans (by decide) h

theorem scheme_of_matchRef {before s : List Char} {x : Option LinkRef × Nat} (h : matchRef before s = some x) :
    "caelo:".toList <+: s := by
  unfold matchRef at h
  split at h
  · rename_i ref rest heq
    rw [Option.ite_none_left_eq_some] at heq
    obtain ⟨-, hscan⟩ := heq
    unfold scanRef at hscan
    split at hscan
    · rename_i body hbody
      rw [eq_append_of_isPrefixOf hbody]
      exact List.IsPrefix.trans (by decide) (List.prefix_append _ _)
    · rename_i body _ hbody
      rw [eq_append_of_isPrefixOf hbody]
      exact List.IsPrefix.trans (by decide) (List.prefix_append _ _)
    · cases hscan
  · rw [Option.ite_none_right_eq_some, Bool.and_eq_true] at h
    exact scheme_of_refLike h.1.2

theorem finds_nil {s : List Char} (h : NoScheme s) (before : List Char) : Scan.finds matchRef before s = [] := by
  unfold Scan.finds
  induction before, s using Scan.scan_induction (m := matchRef) with
  | nil before => simp
  | plain before c s hno ih =>
    rw [Scan.scan_plain hno, List.filterMap_cons_none rfl]
    exact ih (h.of_infix (List.infix_cons List.infix_rfl))
  | found before s a n hne hmatch ih => exact absurd (scheme_of_matchRef hmatch).isInfix h

theorem replace_ref {before v : List Char} {ref : LinkRef} (hb : Starts before) (h : parseRef v = some ref)
    (f : Option LinkRef → List Char → List Char) : Scan.replace matchRef f before v = f (some ref) v := by
  have hscan := scanRef_of_parseRef h
  have hlen := scanRef_rest hscan
  have hmatch : matchRef before v = some (some ref, v.length) := by
    unfold matchRef
    rw [if_neg (by rw [hb]; exact Bool.false_ne_true), hscan]
    rfl
  unfold Scan.replace
  rw [Scan.scan_whole (List.ne_nil_of_length_pos (by simpa using hlen)) hmatch]
  simp

section Spec

variable {parseUrl : List Char → Option Url} {lookup : LinkTargetLookup} {human : LinkHumaniseLookup}

/-! ### One URL -/

section Shown

variable (parseUrl : List Char → Option Url) (lookup : LinkTargetLookup) (human : LinkHumaniseLookup)

def shownUrl (scope : Scope) (value : List Char) : List Char :=
  match urlLink parseUrl lookup scope (trim value) with
  | some ref => shownText human ref
  | none => urlText parseUrl lookup scope value

/-- The replacement of `humaniseText`. -/
def showRef (ref : Option LinkRef) (raw : List Char) : List Char :=
  match ref with
  | some ref => humaniseRef human ref raw
  | none => raw

end Shown

variable {f g : List Char → List Char} {html value before lead rest : List Char} {scope : Scope} {a : Attr}

theorem urlText_within (h : urlLink parseUrl lookup scope (trim value) = none) :
    urlText parseUrl lookup scope value <:+: value := by
  rw [urlText_of_none h]
  split
  · rw [trim_eq]
    exact ((List.rdropWhile_prefix _ _).isInfix).trans (List.dropWhile_suffix _).isInfix
  · exact List.infix_rfl

theorem finds_urlText (hb : Starts before) (h : NoScheme value) :
    Scan.finds matchRef before (urlText parseUrl lookup scope value) =
      (urlLink parseUrl lookup scope (trim value)).toList.map fun ref => (some ref, refText ref) := by
  cases hlink : urlLink parseUrl lookup scope (trim value) with
  | none => exact finds_nil (h.of_infix (urlText_within hlink)) before
  | some ref =>
    rw [urlText_of_link hlink, finds_ref hb (urlLink_wellMade hlink).parse]
    rfl

theorem replace_urlText (hb : Starts before) (h : NoScheme value) :
    Scan.replace matchRef (showRef human) before (urlText parseUrl lookup scope value) =
      shownUrl parseUrl lookup human scope value := by
  unfold shownUrl
  cases hlink : urlLink parseUrl lookup scope (trim value) with
  | none =>
    exact Scan.replace_of_finds_nil _ (finds_nil (h.of_infix (urlText_within hlink)) before)
  | some ref =>
    rw [urlText_of_link hlink, replace_ref hb (urlLink_wellMade hlink).parse]
    rfl

theorem urlText_again (h : urlLink parseUrl lookup scope (trim value) = none) :
    urlText parseUrl lookup scope (urlText parseUrl lookup scope value) = urlText parseUrl lookup scope value := by
  rw [urlText_of_none h]
  split
  · rename_i htrimmed
    have h' : urlLink parseUrl lookup scope (trim (trim value)) = none := by rwa [trim_trim]
    rw [urlText_of_none h', trim_trim, ite_self]
  · rename_i hkept
    rw [urlText_of_none h, if_neg hkept]

theorem urlText_shownUrl (site : SameSite lookup human) (scope : Scope) (value : List Char) :
    urlText parseUrl lookup scope (shownUrl parseUrl lookup human scope value) = urlText parseUrl lookup scope value ↔
      ∀ ref, urlLink parseUrl lookup scope (trim value) = some ref → NotAnId human ref := by
  unfold shownUrl
  cases hlink : urlLink parseUrl lookup scope (trim value) with
  | none => exact iff_of_true (urlText_again hlink) fun ref href => by cases href
  | some ref =>
    rw [urlText_of_link hlink, urlText_shown_iff site (urlLink_linked hlink)]
    constructor
    · intro hnot ref' heq
      cases heq
      exact hnot
    · intro hall
      exact hall ref rfl

theorem not_space_of_isUrlChar {c : Char} (h : isUrlChar c = true) : isSpace c = false := by
  have hnot := isUrlChar_not_delimiter h
  unfold isDelimiter at hnot
  rw [Bool.or_eq_false_iff] at hnot
  exact hnot.1

/-! ### The URLs of a `srcset` -/

/-- A change of URLs that leaves the candidates of a `srcset` apart. -/
structure Tame (f : List Char → List Char) : Prop where
  space : ∀ u, (∀ c ∈ u, isSpace c = false) → ∀ c ∈ f u, isSpace c = false
  comma : ∀ u, ',' ∉ u → ',' ∉ f u
  empty : ∀ u, f u = [] → u = []

theorem Tame.comp (hg : Tame g) (hf : Tame f) : Tame fun u => g (f u) where
  space u hu := hg.space (f u) (hf.space u hu)
  comma u hu := hg.comma (f u) (hf.comma u hu)
  empty u hu := hf.empty u (hg.empty (f u) hu)

/-- Text of the characters of a link, that is not empty, is tame to put for any URL. -/
theorem tame_of_chars
    (h : ∀ u, f u <:+: u ∧ (f u = [] → u = []) ∨ (∀ c ∈ f u, isUrlChar c = true) ∧ f u ≠ []) : Tame f where
  space u hu c hc := by
    rcases h u with ⟨hwithin, -⟩ | ⟨hchars, -⟩
    · exact hu c (hwithin.subset hc)
    · exact not_space_of_isUrlChar (hchars c hc)
  comma u hu hc := by
    rcases h u with ⟨hwithin, -⟩ | ⟨hchars, -⟩
    · exact hu (hwithin.subset hc)
    · have := hchars ',' hc
      revert this
      decide
  empty u hnil := by
    rcases h u with ⟨-, hempty⟩ | ⟨-, hne⟩
    · exact hempty hnil
    · exact absurd hnil hne

theorem refText_ne_nil (ref : LinkRef) : refText ref ≠ [] := by
  have hpage : "caelo:page/".toList ≠ [] := by decide
  have hmedia : "caelo:media/".toList ≠ [] := by decide
  cases ref with
  | page pageId query anchor =>
    unfold refText
    exact List.append_ne_nil_of_left_ne_nil (List.append_ne_nil_of_left_ne_nil
      (List.append_ne_nil_of_left_ne_nil hpage _) _) _
  | media mediaId variant =>
    unfold refText
    exact List.append_ne_nil_of_left_ne_nil (List.append_ne_nil_of_left_ne_nil hmedia _) _

theorem shownText_ne_nil (site : SameSite lookup human) (ref : LinkRef) : shownText human ref ≠ [] := by
  unfold shownText humaniseRef
  cases ref with
  | page pageId query anchor =>
    dsimp only
    cases hpath : human.pagePath pageId with
    | none =>
      rw [Option.map_none, Option.getD_none]
      exact refText_ne_nil _
    | some path =>
      obtain ⟨⟨rest, rfl, -⟩, -⟩ := pagePathOk_spec (site.pagePaths pageId path hpath)
      exact List.cons_ne_nil _ _
  | media mediaId variant =>
    dsimp only
    cases hslug : human.mediaSlug mediaId with
    | none =>
      rw [Option.map_none, Option.getD_none]
      exact refText_ne_nil _
    | some slug =>
      have hstart : "/_caelo/media/".toList ≠ [] := by decide
      rw [Option.map_some, Option.getD_some]
      unfold buildMediaUrl
      exact List.append_ne_nil_of_left_ne_nil (List.append_ne_nil_of_left_ne_nil hstart _) _

theorem urlText_empty (h : urlLink parseUrl lookup scope (trim value) = none)
    (hnil : urlText parseUrl lookup scope value = []) : value = [] := by
  rw [urlText_of_none h] at hnil
  split at hnil
  · rename_i htrimmed
    rw [hnil] at htrimmed
    cases htrimmed
  · exact hnil

theorem tame_urlText (scope : Scope) : Tame (urlText parseUrl lookup scope) := by
  apply tame_of_chars
  intro u
  cases hlink : urlLink parseUrl lookup scope (trim u) with
  | none => exact Or.inl ⟨urlText_within hlink, urlText_empty hlink⟩
  | some ref =>
    rw [urlText_of_link hlink]
    exact Or.inr ⟨fun c hc => isUrlChar_refText (urlLink_wellMade hlink) hc, refText_ne_nil ref⟩

theorem tame_shownUrl (site : SameSite lookup human) (scope : Scope) : Tame (shownUrl parseUrl lookup human scope) := by
  apply tame_of_chars
  intro u
  unfold shownUrl
  cases hlink : urlLink parseUrl lookup scope (trim u) with
  | none => exact Or.inl ⟨urlText_within hlink, urlText_empty hlink⟩
  | some ref =>
    exact Or.inr ⟨fun c hc => isUrlChar_shownText site (urlLink_linked hlink) hc, shownText_ne_nil site ref⟩

def candidateUrl (entry : List Char) : List Char := (entry.dropWhile isSpace).takeWhile fun c => !isSpace c

theorem candidate_split (entry : List Char) : ∃ lead rest, entry = lead ++ (candidateUrl entry ++ rest) ∧
    (∀ c ∈ lead, isSpace c = true) ∧ (∀ c ∈ candidateUrl entry, isSpace c = false) ∧
    (∀ c, rest.head? = some c → isSpace c = true) ∧ (candidateUrl entry = [] → rest = []) ∧
    ∀ f, mapCandidate f entry = lead ++ (f (candidateUrl entry) ++ rest) := by
  refine ⟨entry.takeWhile isSpace, (entry.dropWhile isSpace).dropWhile fun c => !isSpace c, ?_, ?_, ?_, ?_, ?_, ?_⟩
  · unfold candidateUrl
    rw [List.takeWhile_append_dropWhile, List.takeWhile_append_dropWhile]
  · exact fun c hc => List.mem_takeWhile_imp hc
  · intro c hc
    simpa using List.mem_takeWhile_imp hc
  · intro c hc
    simpa using head?_dropWhile_space hc
  · unfold candidateUrl
    intro hnil
    cases hd : entry.dropWhile isSpace with
    | nil => rfl
    | cons c cs =>
      have hc : isSpace c = false := head?_dropWhile_space (by rw [hd]; rfl)
      rw [hd, List.takeWhile_cons, hc] at hnil
      cases hnil
  · intro f
    unfold mapCandidate candidateUrl
    rw [List.append_assoc]

theorem cut_candidate {url : List Char} (hlead : ∀ c ∈ lead, isSpace c = true)
    (hurl : ∀ c ∈ url, isSpace c = false) (hrest : ∀ c, rest.head? = some c → isSpace c = true)
    (hempty : url = [] → rest = []) :
    (lead ++ (url ++ rest)).takeWhile isSpace = lead ∧ candidateUrl (lead ++ (url ++ rest)) = url ∧
      (((lead ++ (url ++ rest)).dropWhile isSpace).dropWhile fun c => !isSpace c) = rest := by
  have hbody : ∀ c, (url ++ rest).head? = some c → isSpace c = false := by
    intro c hc
    cases url with
    | nil =>
      rw [hempty rfl] at hc
      cases hc
    | cons e url =>
      rw [List.cons_append, List.head?_cons, Option.some.injEq] at hc
      exact hc ▸ hurl e List.mem_cons_self
  have htake : (lead ++ (url ++ rest)).takeWhile isSpace = lead := by
    rw [List.takeWhile_append_of_pos hlead]
    cases hb : url ++ rest with
    | nil => simp
    | cons c body => simp [hbody c (by rw [hb]; rfl)]
  have hdrop : (lead ++ (url ++ rest)).dropWhile isSpace = url ++ rest := by
    rw [List.dropWhile_append_of_pos hlead]
    cases hb : url ++ rest with
    | nil => rfl
    | cons c body => simp [hbody c (by rw [hb]; rfl)]
  have hnot : ∀ c ∈ url, (!isSpace c) = true := by
    intro c hc
    rw [hurl c hc]
    rfl
  have htake' : (url ++ rest).takeWhile (fun c => !isSpace c) = url := by
    rw [List.takeWhile_append_of_pos hnot]
    cases rest with
    | nil => simp
    | cons c rest => simp [hrest c rfl]
  have hdrop' : (url ++ rest).dropWhile (fun c => !isSpace c) = rest := by
    rw [List.dropWhile_append_of_pos hnot]
    cases rest with
    | nil => rfl
    | cons c rest => simp [hrest c rfl]
  unfold candidateUrl
  rw [hdrop]
  exact ⟨htake, htake', hdrop'⟩

theorem mapCandidate_of_split {url : List Char} (hlead : ∀ c ∈ lead, isSpace c = true)
    (hurl : ∀ c ∈ url, isSpace c = false) (hrest : ∀ c, rest.head? = some c → isSpace c = true) (hempty : url = [] → rest = [])
    (f : List Char → List Char) : mapCandidate f (lead ++ (url ++ rest)) = lead ++ (f url ++ rest) := by
  obtain ⟨htake, hcut, hdrop⟩ := cut_candidate hlead hurl hrest hempty
  unfold candidateUrl at hcut
  unfold mapCandidate
  rw [htake, hcut, hdrop, List.append_assoc]

theorem candidateUrl_mapCandidate (hf : Tame f) (entry : List Char) :
    candidateUrl (mapCandidate f entry) = f (candidateUrl entry) := by
  obtain ⟨lead, rest, -, hlead, hurl, hrest, hempty, hmap⟩ := candidate_split entry
  rw [hmap f]
  exact (cut_candidate hlead (hf.space _ hurl) hrest fun hnil => hempty (hf.empty _ hnil)).2.1

theorem mapCandidate_mapCandidate (hf : Tame f) (g : List Char → List Char) (entry : List Char) :
    mapCandidate g (mapCandidate f entry) = mapCandidate (fun u => g (f u)) entry := by
  obtain ⟨lead, rest, -, hlead, hurl, hrest, hempty, hmap⟩ := candidate_split entry
  rw [hmap f, hmap fun u => g (f u)]
  exact mapCandidate_of_split hlead (hf.space _ hurl) hrest (fun hnil => hempty (hf.empty _ hnil)) g

theorem mapCandidate_eq_iff (entry : List Char) :
    mapCandidate f entry = mapCandidate g entry ↔ f (candidateUrl entry) = g (candidateUrl entry) := by
  unfold mapCandidate candidateUrl
  rw [List.append_left_inj, List.append_right_inj]

theorem comma_mapCandidate (hf : Tame f) {entry : List Char} (h : ',' ∉ entry) :
    ',' ∉ mapCandidate f entry := by
  obtain ⟨lead, rest, hentry, -, -, -, -, hmap⟩ := candidate_split entry
  rw [hentry, List.mem_append, List.mem_append, not_or, not_or] at h
  rw [hmap f, List.mem_append, List.mem_append, not_or, not_or]
  exact ⟨h.1, hf.comma _ h.2.1, h.2.2⟩

theorem splitOn_mapSrcset (hf : Tame f) (srcset : List Char) :
    (mapSrcset f srcset).splitOn ',' = (srcset.splitOn ',').map (mapCandidate f) := by
  unfold mapSrcset
  apply List.splitOn_intercalate
  · intro l hl
    obtain ⟨e, he, rfl⟩ := List.mem_map.1 hl
    apply comma_mapCandidate hf
    intro hc
    simpa using Words.splitOnP_clean he ',' hc
  · simp [List.splitOn, List.splitOnP_ne_nil]

theorem mapSrcset_mapSrcset (hf : Tame f) (g : List Char → List Char) (srcset : List Char) :
    mapSrcset g (mapSrcset f srcset) = mapSrcset (fun u => g (f u)) srcset := by
  have hsplit := splitOn_mapSrcset hf srcset
  unfold mapSrcset at hsplit ⊢
  rw [hsplit, List.map_map]
  congr 2
  funext entry
  exact mapCandidate_mapCandidate hf g entry

theorem mapSrcset_eq_iff (hf : Tame f) (hg : Tame g) (srcset : List Char) :
    mapSrcset f srcset = mapSrcset g srcset ↔
      ∀ e ∈ srcset.splitOn ',', f (candidateUrl e) = g (candidateUrl e) := by
  constructor
  · intro heq e he
    have hsplit := congrArg (List.splitOn ',') heq
    rw [splitOn_mapSrcset hf, splitOn_mapSrcset hg, List.map_inj_left] at hsplit
    exact (mapCandidate_eq_iff e).1 (hsplit e he)
  · intro hall
    unfold mapSrcset
    rw [List.map_congr_left fun e he => (mapCandidate_eq_iff e).2 (hall e he)]

/-! ### References in a `srcset` -/

theorem replace_space (h : ∀ c ∈ lead, isSpace c = true) (f : Option LinkRef → List Char → List Char)
    (before s : List Char) :
    Scan.replace matchRef f before (lead ++ s) = lead ++ Scan.replace matchRef f (lead.reverse ++ before) s := by
  induction lead generalizing before with
  | nil => rfl
  | cons c lead ih =>
    have hd := matchRef_delimits (isDelimiter_of_isSpace (h c List.mem_cons_self))
    have hc := Scan.replace_append hd f before [] (lead ++ s)
    rw [List.nil_append] at hc
    rw [List.cons_append, hc, List.reverse_nil, List.nil_append, ih fun e he => h e (List.mem_cons_of_mem _ he)]
    simp [Scan.replace]

theorem replace_rest (hrest : ∀ c, rest.head? = some c → isSpace c = true) (hclean : NoScheme rest)
    (f : Option LinkRef → List Char → List Char) (before url : List Char) :
    Scan.replace matchRef f before (url ++ rest) = Scan.replace matchRef f before url ++ rest := by
  cases rest with
  | nil => rw [List.append_nil, List.append_nil]
  | cons w rest =>
    have hd := matchRef_delimits (isDelimiter_of_isSpace (hrest w rfl))
    have htail : NoScheme rest := hclean.of_infix (List.infix_cons List.infix_rfl)
    rw [Scan.replace_append hd, Scan.replace_of_finds_nil f (finds_nil htail _)]

theorem candidate_scan (parseUrl : List Char → Option Url) (lookup : LinkTargetLookup) (human : LinkHumaniseLookup)
    {entry : List Char} (hb : Starts before) (h : NoScheme entry) :
    Scan.replace matchRef (showRef human) before (mapCandidate (urlText parseUrl lookup .media) entry) =
        mapCandidate (shownUrl parseUrl lookup human .media) entry ∧
      Scan.finds matchRef before (mapCandidate (urlText parseUrl lookup .media) entry) =
        (urlLink parseUrl lookup .media (trim (candidateUrl entry))).toList.map fun ref => (some ref, refText ref) := by
  obtain ⟨lead, rest, hentry, hlead, -, hrest, -, hmap⟩ := candidate_split entry
  have hurl : NoScheme (candidateUrl entry) := by
    apply h.of_infix
    conv_rhs => rw [hentry]
    exact (List.prefix_append _ _).isInfix.trans (List.suffix_append _ _).isInfix
  have hclean : NoScheme rest := by
    apply h.of_infix
    rw [hentry]
    exact (List.suffix_append _ _).isInfix.trans (List.suffix_append _ _).isInfix
  have hstart := starts_append hlead hb
  rw [hmap, hmap]
  constructor
  · rw [replace_space hlead, replace_rest hrest hclean, replace_urlText hstart hurl]
  · rw [finds_space hlead, finds_url_rest hrest, finds_nil hclean, List.append_nil, finds_urlText hstart hurl]

theorem replace_intercalate (f : Option LinkRef → List Char → List Char) (before x y : List Char) (l : List (List Char)) :
    Scan.replace matchRef f before ([','].intercalate (x :: y :: l)) =
      Scan.replace matchRef f before x ++ ',' :: Scan.replace matchRef f [','] ([','].intercalate (y :: l)) := by
  rw [intercalate_cons_cons, Scan.replace_append (matchRef_delimits (by decide))]
  rw [replace_alike (alike_comma (x.reverse ++ before) [])]

theorem candidates_scan (parseUrl : List Char → Option Url) (lookup : LinkTargetLookup) (human : LinkHumaniseLookup)
    (hb : Starts before) {entries : List (List Char)}
    (h : ∀ e ∈ entries, NoScheme e) :
    Scan.replace matchRef (showRef human) before
        ([','].intercalate (entries.map (mapCandidate (urlText parseUrl lookup .media)))) =
        [','].intercalate (entries.map (mapCandidate (shownUrl parseUrl lookup human .media))) ∧
      Scan.finds matchRef before ([','].intercalate (entries.map (mapCandidate (urlText parseUrl lookup .media)))) =
        entries.flatMap fun e =>
          (urlLink parseUrl lookup .media (trim (candidateUrl e))).toList.map fun ref => (some ref, refText ref) := by
  induction entries generalizing before with
  | nil =>
    have hnil : ([','].intercalate [] : List Char) = [] := rfl
    rw [List.map_nil, List.map_nil, hnil]
    exact ⟨rfl, rfl⟩
  | cons e entries ih =>
    obtain ⟨hreplace, hfinds⟩ := candidate_scan parseUrl lookup human hb
      (h e List.mem_cons_self)
    cases entries with
    | nil =>
      have hone : ∀ x : List Char, [','].intercalate [x] = x := by
        intro x
        simp [List.intercalate]
      rw [List.map_singleton, List.map_singleton, hone, hone, List.flatMap_singleton]
      exact ⟨hreplace, hfinds⟩
    | cons e' entries =>
      have hcomma : Starts [','] := starts_of_delimiter (by decide) []
      obtain ⟨ihreplace, ihfinds⟩ := ih hcomma fun e he => h e (List.mem_cons_of_mem _ he)
      rw [List.map_cons, List.map_cons, List.map_cons, List.map_cons, replace_intercalate, finds_intercalate,
        intercalate_cons_cons, hreplace, hfinds, List.flatMap_cons]
      rw [List.map_cons] at ihreplace ihfinds
      rw [List.map_cons] at ihreplace
      exact ⟨by rw [ihreplace], by rw [ihfinds]⟩

/-! ### One attribute -/

def urlsIn (a : Attr) : List (Scope × List Char) :=
  match a.name with
  | .href => [(.pagesAndMedia, a.value)]
  | .srcset => (a.value.splitOn ',').map fun e => (.media, candidateUrl e)
  | .src => [(.media, a.value)]
  | .poster => [(.media, a.value)]

theorem mapUrls_eq_iff {f g : Scope → List Char → List Char} (hf : ∀ scope, Tame (f scope)) (hg : ∀ scope, Tame (g scope))
    (a : Attr) : mapUrls f a = mapUrls g a ↔ ∀ u ∈ urlsIn a, f u.1 u.2 = g u.1 u.2 := by
  unfold mapUrls urlsIn
  cases a.name with
  | href => simp
  | src => simp
  | poster => simp
  | srcset =>
    dsimp only
    rw [mapSrcset_eq_iff (hf .media) (hg .media), List.forall_mem_map]

theorem mapUrls_mapUrls {f : Scope → List Char → List Char} (hf : ∀ scope, Tame (f scope))
    (g : Scope → List Char → List Char) (a : Attr) :
    mapUrls g { a with value := mapUrls f a } = mapUrls (fun scope u => g scope (f scope u)) a := by
  unfold mapUrls
  cases a.name with
  | href => rfl
  | src => rfl
  | poster => rfl
  | srcset => exact mapSrcset_mapSrcset (hf .media) (g .media) a.value

theorem marks_append (s t : List Char) : marks (s ++ t) = marks s ++ marks t := List.filter_append ..

theorem marks_mapUrls {f g : Scope → List Char → List Char} (h : ∀ scope u, marks (f scope u) = marks (g scope u)) (a : Attr) :
    marks (mapUrls f a) = marks (mapUrls g a) := by
  have hcandidate : ∀ entry, marks (mapCandidate (f .media) entry) = marks (mapCandidate (g .media) entry) := by
    intro entry
    unfold mapCandidate
    rw [marks_append, marks_append, marks_append, marks_append, h]
  have hentries : ∀ entries : List (List Char), marks ([','].intercalate (entries.map (mapCandidate (f .media)))) =
      marks ([','].intercalate (entries.map (mapCandidate (g .media)))) := by
    intro entries
    induction entries with
    | nil => rfl
    | cons e entries ih =>
      cases entries with
      | nil => simpa [List.intercalate] using hcandidate e
      | cons e' entries =>
        have hcomma : ∀ t : List Char, marks (',' :: t) = marks t := fun t => List.filter_cons_of_neg (by decide)
        rw [List.map_cons, List.map_cons, List.map_cons, List.map_cons, intercalate_cons_cons, intercalate_cons_cons,
          marks_append, marks_append, hcandidate, hcomma, hcomma]
        rw [List.map_cons, List.map_cons] at ih
        rw [ih]
  unfold mapUrls
  cases a.name with
  | href => exact h ..
  | src => exact h ..
  | poster => exact h ..
  | srcset => exact hentries (a.value.splitOn ',')

theorem attr_scan (human : LinkHumaniseLookup) (hq : isQuote a.quote = true) (h : NoScheme a.value) :
    Scan.replace matchRef (showRef human) [a.quote] (attrText parseUrl lookup a) =
        mapUrls (shownUrl parseUrl lookup human) a ∧
      Scan.finds matchRef [a.quote] (attrText parseUrl lookup a) = (urlsIn a).flatMap fun u =>
        (urlLink parseUrl lookup u.1 (trim u.2)).toList.map fun ref => (some ref, refText ref) := by
  have hb : Starts [a.quote] := starts_of_delimiter (isDelimiter_of_isQuote hq) []
  unfold attrText mapUrls urlsIn
  cases a.name with
  | href => exact ⟨replace_urlText hb h, by rw [finds_urlText hb h, List.flatMap_singleton]⟩
  | src => exact ⟨replace_urlText hb h, by rw [finds_urlText hb h, List.flatMap_singleton]⟩
  | poster => exact ⟨replace_urlText hb h, by rw [finds_urlText hb h, List.flatMap_singleton]⟩
  | srcset =>
    have hentries : ∀ e ∈ a.value.splitOn ',', NoScheme e := by
      intro e he
      apply h.of_infix
      have hjoin : [','].intercalate (a.value.splitOn ',') = a.value := List.intercalate_splitOn ','
      rw [← hjoin]
      obtain ⟨es, es', hes⟩ := List.append_of_mem he
      rw [hes]
      clear hes hjoin he
      induction es with
      | nil =>
        cases es' with
        | nil => simp [List.intercalate]
        | cons e' es' =>
          rw [List.nil_append, intercalate_cons_cons]
          exact (List.prefix_append _ _).isInfix
      | cons x es ih =>
        obtain ⟨y, ys, hy⟩ : ∃ y ys, es ++ e :: es' = y :: ys := by cases es <;> exact ⟨_, _, rfl⟩
        rw [List.cons_append, hy, intercalate_cons_cons]
        rw [hy] at ih
        exact ih.trans ((List.infix_cons List.infix_rfl).trans (List.suffix_append _ _).isInfix)
    obtain ⟨hreplace, hfinds⟩ := candidates_scan parseUrl lookup human hb hentries
    refine ⟨hreplace, hfinds.trans ?_⟩
    rw [List.flatMap_map]

theorem attr_finds (hq : isQuote a.quote = true) (h : NoScheme a.value) :
    Scan.finds matchRef [a.quote] (attrText parseUrl lookup a) = (urlsIn a).flatMap fun u =>
      (urlLink parseUrl lookup u.1 (trim u.2)).toList.map fun ref => (some ref, refText ref) :=
  (attr_scan ⟨fun _ => none, fun _ => none⟩ hq h).2

def shownAttr (parseUrl : List Char → Option Url) (lookup : LinkTargetLookup) (human : LinkHumaniseLookup) (a : Attr) :
    List Char := mapUrls (shownUrl parseUrl lookup human) a

/-- The references an attribute stores. -/
def LinksOf (parseUrl : List Char → Option Url) (lookup : LinkTargetLookup) (a : Attr) (ref : LinkRef) : Prop :=
  ∃ u ∈ urlsIn a, urlLink parseUrl lookup u.1 (trim u.2) = some ref

theorem attrText_shownAttr (site : SameSite lookup human) (a : Attr) :
    attrText parseUrl lookup { a with value := shownAttr parseUrl lookup human a } = attrText parseUrl lookup a ↔
      ∀ ref, LinksOf parseUrl lookup a ref → NotAnId human ref := by
  have hshown : ∀ scope, Tame (shownUrl parseUrl lookup human scope) := tame_shownUrl site
  have htext : ∀ scope, Tame (urlText parseUrl lookup scope) := tame_urlText
  unfold attrText shownAttr
  rw [mapUrls_mapUrls hshown, mapUrls_eq_iff (fun scope => (htext scope).comp (hshown scope)) htext]
  constructor
  · rintro hall ref ⟨u, hu, hlink⟩
    exact (urlText_shownUrl site u.1 u.2).1 (hall u hu) ref hlink
  · intro hall u hu
    exact (urlText_shownUrl site u.1 u.2).2 fun ref hlink => hall ref ⟨u, hu, hlink⟩

theorem marks_of_isUrlChar {s : List Char} (h : ∀ c ∈ s, isUrlChar c = true) : marks s = [] := by
  unfold marks
  rw [List.filter_eq_nil_iff]
  intro c hc hmark
  have hnot := isUrlChar_not_delimiter (h c hc)
  unfold isMark at hmark
  rw [Bool.or_eq_true, beq_iff_eq] at hmark
  rcases hmark with hquote | rfl
  · rw [isDelimiter_of_isQuote hquote] at hnot
    cases hnot
  · revert hnot
    decide

theorem marks_shownUrl (site : SameSite lookup human) (scope : Scope) (u : List Char) :
    marks (shownUrl parseUrl lookup human scope u) = marks (urlText parseUrl lookup scope u) := by
  unfold shownUrl
  cases hlink : urlLink parseUrl lookup scope (trim u) with
  | none => rfl
  | some ref =>
    have hwell := (urlLink_wellMade hlink)
    rw [urlText_of_link hlink, marks_of_isUrlChar fun c hc => isUrlChar_shownText site (urlLink_linked hlink) hc,
      marks_of_isUrlChar fun c hc => isUrlChar_refText hwell hc]

theorem marks_urlText_shownUrl (site : SameSite lookup human) (scope : Scope) (u : List Char) :
    marks (urlText parseUrl lookup scope (shownUrl parseUrl lookup human scope u)) =
      marks (shownUrl parseUrl lookup human scope u) := by
  unfold shownUrl
  cases hlink : urlLink parseUrl lookup scope (trim u) with
  | none => rw [urlText_again hlink]
  | some ref =>
    have hchars : ∀ c ∈ shownText human ref, isUrlChar c = true :=
      fun c hc => isUrlChar_shownText site (urlLink_linked hlink) hc
    dsimp only
    rw [urlText_shown hchars, marks_of_isUrlChar hchars]
    cases hagain : urlLink parseUrl lookup scope (shownText human ref) with
    | none => exact marks_of_isUrlChar hchars
    | some ref' => exact marks_of_isUrlChar fun c hc => isUrlChar_refText (urlLink_wellMade hagain) hc

/-! ### HTML -/

/-- The stored text is cut into the same attributes as the text it was made of. -/
def Aligned (parseUrl : List Char → Option Url) (lookup : LinkTargetLookup) (html : List Char) : Prop :=
  htmlPieces (savedHtml parseUrl lookup html) = mapValues (attrText parseUrl lookup) (htmlPieces html)

theorem mapValues_mapValues (f g : Attr → List Char) (ps : List HtmlPiece) :
    mapValues g (mapValues f ps) = mapValues (fun a => g { a with value := f a }) ps := by
  unfold mapValues
  rw [List.map_map]
  apply List.map_congr_left
  intro p hp
  cases p <;> rfl

theorem mapValues_eq_iff (f g : Attr → List Char) (ps : List HtmlPiece) :
    mapValues f ps = mapValues g ps ↔ ∀ a, .attr a ∈ ps → f a = g a := by
  unfold mapValues
  rw [List.map_inj_left]
  constructor
  · intro h a ha
    have heq := h (.attr a) ha
    rw [HtmlPiece.attr.injEq] at heq
    exact congrArg Attr.value heq
  · intro h p hp
    cases p with
    | text c => rfl
    | attr a =>
      dsimp only
      rw [h a hp]

theorem mem_mapValues {f : Attr → List Char} {ps : List HtmlPiece} (h : .attr a ∈ mapValues f ps) :
    ∃ a₀, .attr a₀ ∈ ps ∧ a = { a₀ with value := f a₀ } := by
  obtain ⟨p, hp, heq⟩ := List.mem_map.1 h
  cases p with
  | text c => cases heq
  | attr a₀ =>
    cases heq
    exact ⟨a₀, hp, rfl⟩

theorem quoted_mapValues {f : Attr → List Char} {ps : List HtmlPiece} (h : Quoted ps) : Quoted (mapValues f ps) := by
  intro a ha
  obtain ⟨a₀, ha₀, rfl⟩ := mem_mapValues ha
  exact h a₀ ha₀

theorem skeleton_mapValues (f : Attr → List Char) (ps : List HtmlPiece) : skeleton (mapValues f ps) = skeleton ps := by
  unfold skeleton mapValues
  rw [List.map_map]
  apply List.map_congr_left
  intro p hp
  cases p <;> rfl

theorem quoted_htmlPieces (html : List Char) : Quoted (htmlPieces html) := fun _ ha => (wellFormed_of_mem ha).quote

theorem noScheme_value (h : NoScheme html) (ha : .attr a ∈ htmlPieces html) :
    NoScheme a.value := by
  apply h.of_infix
  have hraw : a.raw <:+: html := by
    obtain ⟨ps, ps', hps⟩ := List.append_of_mem ha
    have htext := htmlText_htmlPieces html
    rw [hps, htmlText_append, htmlText_cons] at htext
    exact ⟨htmlText ps, htmlText ps', by rw [List.append_assoc]; exact htext⟩
  refine List.IsInfix.trans ?_ hraw
  exact ⟨a.lead ++ [a.quote], [a.quote], by simp [Attr.raw]⟩

theorem skeleton_clean (h : NoScheme html) :
    Scan.finds matchRef [] (htmlText (skeleton (htmlPieces html))) = [] := by
  rw [List.eq_nil_iff_forall_not_mem]
  intro x hx
  have hmem := (mem_finds_pieces (quoted_htmlPieces html) [] [] x).2 (Or.inl hx)
  rw [List.nil_append, htmlText_htmlPieces, finds_nil h] at hmem
  cases hmem

theorem humaniseText_savedHtml (h : NoScheme html) :
    humaniseText human (savedHtml parseUrl lookup html) =
      htmlText (mapValues (shownAttr parseUrl lookup human) (htmlPieces html)) := by
  have hquoted : Quoted (mapValues (attrText parseUrl lookup) (htmlPieces html)) := quoted_mapValues (quoted_htmlPieces html)
  have hclean : Scan.finds matchRef [] ([] ++ htmlText (skeleton (mapValues (attrText parseUrl lookup) (htmlPieces html)))) =
      [] := by
    rw [skeleton_mapValues]
    exact skeleton_clean h
  have hreplace := replace_pieces (showRef human) hquoted [] [] hclean
  rw [List.nil_append, List.nil_append, mapValues_mapValues] at hreplace
  have hvalues : mapValues (fun a => Scan.replace matchRef (showRef human) [a.quote] (attrText parseUrl lookup a))
      (htmlPieces html) = mapValues (shownAttr parseUrl lookup human) (htmlPieces html) := by
    rw [mapValues_eq_iff]
    intro a ha
    exact (attr_scan human (quoted_htmlPieces html a ha) (noScheme_value h ha)).1
  rw [hvalues] at hreplace
  exact hreplace

theorem mem_findLinkRefs_savedHtml (h : NoScheme html) (ref : LinkRef) :
    ref ∈ findLinkRefs (savedHtml parseUrl lookup html) ↔ ∃ a, .attr a ∈ htmlPieces html ∧ LinksOf parseUrl lookup a ref := by
  have hquoted : Quoted (mapValues (attrText parseUrl lookup) (htmlPieces html)) := quoted_mapValues (quoted_htmlPieces html)
  have hmem := fun x => mem_finds_pieces hquoted [] [] x
  rw [skeleton_mapValues, List.nil_append, List.nil_append, skeleton_clean h] at hmem
  unfold findLinkRefs
  rw [List.mem_filterMap]
  constructor
  · rintro ⟨x, hx, href⟩
    rcases (hmem x).1 hx with hx | ⟨a, ha, hx⟩
    · cases hx
    · obtain ⟨a₀, ha₀, rfl⟩ := mem_mapValues ha
      dsimp only at hx
      rw [attr_finds (quoted_htmlPieces html a₀ ha₀) (noScheme_value h ha₀), List.mem_flatMap] at hx
      obtain ⟨u, hu, hx⟩ := hx
      obtain ⟨ref', href', rfl⟩ := List.mem_map.1 hx
      cases href
      exact ⟨a₀, ha₀, u, hu, Option.mem_toList.1 href'⟩
  · rintro ⟨a, ha, u, hu, hlink⟩
    refine ⟨(some ref, refText ref), (hmem _).2 (Or.inr ⟨{ a with value := attrText parseUrl lookup a }, ?_, ?_⟩), rfl⟩
    · exact List.mem_map.2 ⟨.attr a, ha, rfl⟩
    · dsimp only
      rw [attr_finds (quoted_htmlPieces html a ha) (noScheme_value h ha), List.mem_flatMap]
      exact ⟨u, hu, List.mem_map.2 ⟨ref, Option.mem_toList.2 hlink, rfl⟩⟩

theorem htmlPieces_shown (site : SameSite lookup human) (h : NoScheme html)
    (haligned : Aligned parseUrl lookup html) :
    htmlPieces (htmlText (mapValues (shownAttr parseUrl lookup human) (htmlPieces html))) =
      mapValues (shownAttr parseUrl lookup human) (htmlPieces html) := by
  have hvalues : mapValues (fun a => Scan.replace matchRef (showRef human) [a.quote] a.value)
      (mapValues (attrText parseUrl lookup) (htmlPieces html)) =
      mapValues (shownAttr parseUrl lookup human) (htmlPieces html) := by
    rw [mapValues_mapValues, mapValues_eq_iff]
    intro a ha
    exact (attr_scan human (quoted_htmlPieces html a ha) (noScheme_value h ha)).1
  have hmarks : SameMarks (fun a => Scan.replace matchRef (showRef human) [a.quote] a.value)
      (htmlPieces (savedHtml parseUrl lookup html)) := by
    intro a ha
    rw [haligned] at ha
    obtain ⟨a₀, ha₀, rfl⟩ := mem_mapValues ha
    dsimp only
    rw [(attr_scan human (quoted_htmlPieces html a₀ ha₀) (noScheme_value h ha₀)).1]
    exact marks_mapUrls (marks_shownUrl site) a₀
  have hpieces := htmlPieces_mapValues hmarks
  rw [haligned, hvalues] at hpieces
  exact hpieces

theorem savedHtml_shown (site : SameSite lookup human) (h : NoScheme html)
    (haligned : Aligned parseUrl lookup html) :
    savedHtml parseUrl lookup (humaniseText human (savedHtml parseUrl lookup html)) = savedHtml parseUrl lookup html ↔
      ∀ ref ∈ findLinkRefs (savedHtml parseUrl lookup html), NotAnId human ref := by
  have hpieces := htmlPieces_shown site h haligned
  have hlinks : (∀ ref ∈ findLinkRefs (savedHtml parseUrl lookup html), NotAnId human ref) ↔
      ∀ a, .attr a ∈ htmlPieces html → ∀ ref, LinksOf parseUrl lookup a ref → NotAnId human ref := by
    constructor
    · intro hall a ha ref href
      exact hall ref ((mem_findLinkRefs_savedHtml h ref).2 ⟨a, ha, href⟩)
    · intro hall ref href
      obtain ⟨a, ha, hlink⟩ := (mem_findLinkRefs_savedHtml h ref).1 href
      exact hall a ha ref hlink
  have hvalues : mapValues (attrText parseUrl lookup) (mapValues (shownAttr parseUrl lookup human) (htmlPieces html)) =
      mapValues (attrText parseUrl lookup) (htmlPieces html) ↔
        ∀ a, .attr a ∈ htmlPieces html → ∀ ref, LinksOf parseUrl lookup a ref → NotAnId human ref := by
    rw [mapValues_mapValues, mapValues_eq_iff]
    exact forall_congr' fun a => imp_congr_right fun _ => attrText_shownAttr site a
  rw [hlinks, ← hvalues, humaniseText_savedHtml h]
  have hsaved : savedHtml parseUrl lookup (htmlText (mapValues (shownAttr parseUrl lookup human) (htmlPieces html))) =
      htmlText (mapValues (attrText parseUrl lookup) (mapValues (shownAttr parseUrl lookup human) (htmlPieces html))) := by
    unfold savedHtml
    rw [hpieces]
  constructor
  · intro heq
    -- both texts are cut into their attributes again
    have hmarks : SameMarks (attrText parseUrl lookup)
        (htmlPieces (htmlText (mapValues (shownAttr parseUrl lookup human) (htmlPieces html)))) := by
      intro a ha
      rw [hpieces] at ha
      obtain ⟨a₀, -, rfl⟩ := mem_mapValues ha
      have hshown : ∀ scope, Tame (shownUrl parseUrl lookup human scope) := tame_shownUrl site
      unfold attrText shownAttr
      rw [mapUrls_mapUrls hshown]
      exact marks_mapUrls (marks_urlText_shownUrl site) a₀
    have hcut := htmlPieces_mapValues hmarks
    rw [hpieces, ← hsaved, heq, haligned] at hcut
    exact hcut.symm
  · intro heq
    rw [hsaved, heq]
    rfl

/-! ### JSON -/

theorem lt_mem_of_attr (ha : .attr a ∈ htmlPieces html) : .text '<' ∈ htmlPieces html := by
  obtain ⟨p, hp, ha⟩ := List.mem_flatMap.1 ha
  cases p with
  | plain c => simp at ha
  | found u tag =>
    obtain ⟨before, s, n, hmatch, rfl⟩ := Scan.mem_scan_found hp
    obtain ⟨c, rest, rfl, hletter, hn⟩ := matchTag_some hmatch
    obtain ⟨k, rfl⟩ : ∃ k, n = k + 1 := ⟨tagLength none rest, by omega⟩
    refine List.mem_flatMap.2 ⟨_, hp, ?_⟩
    dsimp only
    rw [List.take_succ_cons, List.take_succ_cons, tagPieces_cons hletter]
    exact List.mem_cons_self

theorem lt_mem_mapValues (f : Attr → List Char) (h : '<' ∈ html) :
    '<' ∈ htmlText (mapValues f (htmlPieces html)) := by
  by_cases hattr : ∃ a, .attr a ∈ htmlPieces html
  · obtain ⟨a, ha⟩ := hattr
    refine List.mem_flatMap.2 ⟨.text '<', List.mem_map.2 ⟨.text '<', lt_mem_of_attr ha, rfl⟩, ?_⟩
    exact List.mem_singleton.2 rfl
  · have hsame : mapValues f (htmlPieces html) = htmlPieces html := by
      unfold mapValues
      conv_rhs => rw [← List.map_id (htmlPieces html)]
      apply List.map_congr_left
      intro p hp
      cases p with
      | text c => rfl
      | attr a => exact absurd ⟨a, hp⟩ hattr
    rw [hsame, htmlText_htmlPieces]
    exact h

theorem savedString_shown (site : SameSite lookup human) {asUrl : Bool} {s : List Char} (h : NoScheme s)
    (haligned : asUrl = false → Aligned parseUrl lookup s) :
    savedString parseUrl lookup asUrl (humaniseText human (savedString parseUrl lookup asUrl s)) =
        savedString parseUrl lookup asUrl s ↔
      ∀ ref ∈ findLinkRefs (savedString parseUrl lookup asUrl s), NotAnId human ref := by
  unfold savedString
  cases asUrl with
  | true =>
    rw [if_pos rfl, if_pos rfl]
    have hb : Starts [] := rfl
    have hreplace : humaniseText human (urlText parseUrl lookup .pagesAndMedia s) =
        shownUrl parseUrl lookup human .pagesAndMedia s := replace_urlText hb h
    have hfinds : findLinkRefs (urlText parseUrl lookup .pagesAndMedia s) =
        (urlLink parseUrl lookup .pagesAndMedia (trim s)).toList := by
      unfold findLinkRefs
      rw [finds_urlText hb h]
      cases urlLink parseUrl lookup .pagesAndMedia (trim s) <;> rfl
    rw [hreplace, urlText_shownUrl site, hfinds]
    exact forall_congr' fun ref => by rw [Option.mem_toList]
  | false =>
    rw [if_neg Bool.false_ne_true, if_neg Bool.false_ne_true]
    by_cases hlt : '<' ∈ s
    · have hshown : '<' ∈ humaniseText human (savedHtml parseUrl lookup s) := by
        rw [humaniseText_savedHtml h]
        exact lt_mem_mapValues _ hlt
      rw [if_pos hlt, if_pos hshown]
      exact savedHtml_shown site h (haligned rfl)
    · have hsame : humaniseText human s = s := Scan.replace_of_finds_nil _ (finds_nil h [])
      rw [if_neg hlt, hsame, if_neg hlt]
      refine iff_of_true rfl fun ref href => ?_
      unfold findLinkRefs at href
      rw [finds_nil h] at href
      cases href

mutual

def jsonStrings (value : Json) (asUrl : Bool) : List (Bool × List Char) :=
  match value with
  | .str s => [(asUrl, s.toList)]
  | .arr items => itemStrings items asUrl
  | .obj fields => fieldStrings fields
  | .null => []
  | .bool _ => []
  | .num _ => []

def itemStrings (items : List Json) (asUrl : Bool) : List (Bool × List Char) :=
  match items with
  | [] => []
  | v :: vs => jsonStrings v asUrl ++ itemStrings vs asUrl

def fieldStrings (fields : List (String × Json)) : List (Bool × List Char) :=
  match fields with
  | [] => []
  | (k, v) :: fs => jsonStrings v (isLinkKeyName k) ++ fieldStrings fs

end

/-- No string of the value has the start of a reference, and each is cut as it was once stored. -/
def Writable (parseUrl : List Char → Option Url) (lookup : LinkTargetLookup) (strings : List (Bool × List Char)) : Prop :=
  ∀ x ∈ strings, NoScheme x.2 ∧ (x.1 = false → Aligned parseUrl lookup x.2)

theorem writable_append {xs ys : List (Bool × List Char)} (h : Writable parseUrl lookup (xs ++ ys)) :
    Writable parseUrl lookup xs ∧ Writable parseUrl lookup ys := List.forall_mem_append.1 h

theorem forall_refs_append {P : LinkRef → Prop} (xs ys : List LinkRef) :
    (∀ ref ∈ xs ++ ys, P ref) ↔ (∀ ref ∈ xs, P ref) ∧ ∀ ref ∈ ys, P ref := List.forall_mem_append

mutual

theorem savedJson_shown (site : SameSite lookup human) (value : Json) (asUrl : Bool)
    (h : Writable parseUrl lookup (jsonStrings value asUrl)) :
    savedJson parseUrl lookup (humaniseLinkRefs human (savedJson parseUrl lookup value asUrl)) asUrl =
        savedJson parseUrl lookup value asUrl ↔
      ∀ ref ∈ collectLinkRefsDeep (savedJson parseUrl lookup value asUrl), NotAnId human ref := by
  cases value with
  | str s =>
    obtain ⟨hscheme, haligned⟩ := h (asUrl, s.toList) (List.mem_singleton.2 rfl)
    have hstring := savedString_shown site hscheme haligned
    unfold humaniseText at hstring
    unfold humaniseLinkRefs
    rw [savedJson, mapLinkRefsDeep, savedJson, String.toList_ofList, String.toList_ofList, collectLinkRefsDeep,
      String.toList_ofList, Json.str.injEq, String.ofList_inj]
    exact hstring
  | arr items =>
    have hitems := savedItems_shown site items asUrl h
    unfold humaniseLinkRefs
    rw [savedJson, mapLinkRefsDeep, savedJson, collectLinkRefsDeep, Json.arr.injEq]
    exact hitems
  | obj fields =>
    have hfields := savedFields_shown site fields h
    unfold humaniseLinkRefs
    rw [savedJson, mapLinkRefsDeep, savedJson, collectLinkRefsDeep, Json.obj.injEq]
    exact hfields
  | null => exact iff_of_true rfl fun ref href => by cases href
  | bool b => exact iff_of_true rfl fun ref href => by cases href
  | num t => exact iff_of_true rfl fun ref href => by cases href

theorem savedItems_shown (site : SameSite lookup human) (items : List Json) (asUrl : Bool)
    (h : Writable parseUrl lookup (itemStrings items asUrl)) :
    savedItems parseUrl lookup (mapLinkRefsItems (humaniseRef human) (savedItems parseUrl lookup items asUrl)) asUrl =
        savedItems parseUrl lookup items asUrl ↔
      ∀ ref ∈ collectLinkRefsItems (savedItems parseUrl lookup items asUrl), NotAnId human ref := by
  cases items with
  | nil => exact iff_of_true rfl fun ref href => by cases href
  | cons v vs =>
    rw [itemStrings] at h
    obtain ⟨hone, hrest⟩ := writable_append h
    have ihone := savedJson_shown site v asUrl hone
    have ihrest := savedItems_shown site vs asUrl hrest
    unfold humaniseLinkRefs at ihone
    rw [savedItems, mapLinkRefsItems, savedItems, collectLinkRefsItems, List.cons_eq_cons, forall_refs_append, ihone, ihrest]

theorem savedFields_shown (site : SameSite lookup human) (fields : List (String × Json))
    (h : Writable parseUrl lookup (fieldStrings fields)) :
    savedFields parseUrl lookup (mapLinkRefsFields (humaniseRef human) (savedFields parseUrl lookup fields)) =
        savedFields parseUrl lookup fields ↔
      ∀ ref ∈ collectLinkRefsFields (savedFields parseUrl lookup fields), NotAnId human ref := by
  match fields with
  | [] => exact iff_of_true rfl fun ref href => by cases href
  | (k, v) :: fs =>
    rw [fieldStrings] at h
    obtain ⟨hone, hrest⟩ := writable_append h
    have ihone := savedJson_shown site v (isLinkKeyName k) hone
    have ihrest := savedFields_shown site fs hrest
    unfold humaniseLinkRefs at ihone
    rw [savedFields, mapLinkRefsFields, savedFields, collectLinkRefsFields, List.cons_eq_cons, forall_refs_append, ← ihone,
      ← ihrest, Prod.mk.injEq]
    exact and_congr_left' (and_iff_right rfl)

end

/-! ### The round trip -/

end Spec

/-! ### A file named like an id -/

def photoId : String := "00000000-0000-4000-8000-000000000002"

def photoSlug : List Char := "123e4567-e89b-42d3-a456-426614174000".toList

theorem photo_noPage (id : String) (h : false = true) : isUuid id.toList = true := by
  cases h

def photoSite : LinkTargetLookup where
  pageIdForPath _ := none
  mediaIdForSlug slug := if slug = photoSlug then some photoId else none
  pageExists _ := false
  mediaExists id := id == photoId
  isOwnHost _ := false
  isPendingPagePath _ := false
  pageIds := photo_noPage
  mediaIds id h := by
    rw [eq_of_beq h]
    decide
  served path id h := by cases h

def photoHuman : LinkHumaniseLookup where
  pagePath _ := none
  mediaSlug id := if id = photoId then some photoSlug else none

theorem photo_sameSite : SameSite photoSite photoHuman where
  pages path id := by simp [photoSite, photoHuman]
  media slug id := by
    unfold photoSite photoHuman
    dsimp only
    rw [Option.ite_none_right_eq_some, Option.ite_none_right_eq_some, Option.some.injEq, Option.some.injEq]
    exact ⟨fun h => ⟨h.2.symm, h.1.symm⟩, fun h => ⟨h.2.symm, h.1.symm⟩⟩
  pagePaths id path h := by cases h
  mediaSlugs id slug h := by
    unfold photoHuman at h
    dsimp only at h
    rw [Option.ite_none_right_eq_some, Option.some.injEq] at h
    rw [← h.2]
    decide

end CaeloCms.Link
