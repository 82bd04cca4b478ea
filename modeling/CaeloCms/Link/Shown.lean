import CaeloCms.Link.Stored

/-!
# The links that are shown

A read shows a reference as the path or media URL an author writes.  Saved again it becomes the same reference, but for
one kind: a variant of a media asset whose slug has the form of an id, which the save takes for the asset with that id
(`urlText_shown_iff`).
-/

namespace CaeloCms.Link

open Redirect (isSpace Url)

/-! ### The two lookups -/

/-- The characters of page paths, which are made of slugs. -/
def isPathChar (c : Char) : Bool := isAnchorChar c || c == '/'

def pagePathOk (path : List Char) : Bool := path.head? == some '/' && path[1]? != some '/' && path.all isPathChar

structure SameSite (lookup : LinkTargetLookup) (human : LinkHumaniseLookup) : Prop where
  pages : ∀ path id, lookup.pageIdForPath path = some id ↔ human.pagePath id = some path
  media : ∀ slug id, lookup.mediaIdForSlug slug = some id ↔ human.mediaSlug id = some slug
  pagePaths : ∀ id path, human.pagePath id = some path → pagePathOk path = true
  mediaSlugs : ∀ id slug, human.mediaSlug id = some slug → isMediaSegment slug = true

/-- No variant of the asset is taken for that of another one. -/
def NotAnId (human : LinkHumaniseLookup) : LinkRef → Prop
  | .media mediaId (some _) => ∀ slug, human.mediaSlug mediaId = some slug → isUuid slug = true → String.ofList slug = mediaId
  | _ => True

/-! ### Characters -/

/-- The characters of a link that is shown. -/
def isUrlChar (c : Char) : Bool := isAlphanum c || "_-.~%=&;+/:@!$()*?#".toList.contains c

variable {c : Char} {s : List Char}

theorem isUrlChar_of_class {chars : List Char} (hchars : (chars.all isUrlChar) = true)
    (h : (isAlphanum c || chars.contains c) = true) : isUrlChar c = true := by
  rw [Bool.or_eq_true, List.contains_iff_mem] at h
  rcases h with h | h
  · unfold isUrlChar
    rw [h, Bool.true_or]
  · exact List.all_eq_true.1 hchars c h

theorem isUrlChar_not_delimiter (h : isUrlChar c = true) : isDelimiter c = false :=
  isDelimiter_of_class (by decide) h

theorem isUrlChar_ne_brace (h : isUrlChar c = true) : c ≠ '\x7b' := by
  rintro rfl
  revert h
  decide

theorem isAlphanum_of_isVariantChar (h : isVariantChar c = true) : (isAlphanum c || "-".toList.contains c) = true := by
  unfold isVariantChar at h
  unfold isAlphanum
  simp only [Bool.or_eq_true, beq_iff_eq] at h ⊢
  rcases h with (h | h) | rfl
  · exact Or.inl (Or.inl (Or.inl h))
  · exact Or.inl (Or.inl (Or.inr h))
  · exact Or.inr (by decide)

theorem isUrlChar_path (h : isPathChar c = true) : isUrlChar c = true := by
  unfold isPathChar at h
  rw [Bool.or_eq_true, beq_iff_eq] at h
  rcases h with h | rfl
  · exact isUrlChar_of_class (by decide) h
  · decide

theorem isUrlChar_part {ok : List Char → Bool} {part : Option String} (h : PartOk ok part)
    (hok : ∀ s, ok s = true → ∀ c ∈ s, isUrlChar c = true) {mark : Char} (hmark : isUrlChar mark = true)
    (hc : c ∈ formatPart mark part) : isUrlChar c = true := by
  cases part with
  | none => cases hc
  | some s =>
    unfold formatPart at hc
    dsimp only at hc
    split at hc
    · cases hc
    · rcases List.mem_cons.1 hc with rfl | hc
      · exact hmark
      · exact hok s.toList (h s rfl) c hc

theorem isUrlChar_query (h : queryOk s = true) (hc : c ∈ s) : isUrlChar c = true := by
  unfold queryOk at h
  simp only [Bool.and_eq_true, List.all_eq_true] at h
  exact isUrlChar_of_class (by decide) (h.1.1 c hc)

theorem isUrlChar_anchor (h : anchorOk s = true) (hc : c ∈ s) : isUrlChar c = true := by
  unfold anchorOk at h
  simp only [Bool.and_eq_true, List.all_eq_true] at h
  exact isUrlChar_of_class (by decide) (h.1.1 c hc)

theorem isUrlChar_variant (h : variantOk s = true) (hc : c ∈ s) : isUrlChar c = true := by
  unfold variantOk at h
  simp only [Bool.and_eq_true, List.all_eq_true] at h
  exact isUrlChar_of_class (by decide) (isAlphanum_of_isVariantChar (h.1.2 c hc))

theorem isUrlChar_segment (h : isMediaSegment s = true) (hc : c ∈ s) : isUrlChar c = true := by
  unfold isMediaSegment at h
  simp only [Bool.and_eq_true, List.all_eq_true] at h
  exact isUrlChar_of_class (by decide) (isAlphanum_of_isVariantChar (h.1.2 c hc))

/-! ### Trimming -/

theorem trim_eq (s : List Char) : trim s = (s.dropWhile isSpace).rdropWhile isSpace := rfl

theorem trim_of_no_space (h : ∀ c ∈ s, isSpace c = false) : trim s = s := by
  rw [trim_eq, List.dropWhile_eq_self_iff.2, List.rdropWhile_eq_self_iff.2]
  · intro hne
    rw [h _ (List.getLast_mem hne)]
    exact Bool.false_ne_true
  · intro hpos
    rw [h _ (List.getElem_mem hpos)]
    exact Bool.false_ne_true

theorem trim_trim (s : List Char) : trim (trim s) = trim s := by
  rw [trim_eq, trim_eq]
  have hfirst : ((s.dropWhile isSpace).rdropWhile isSpace).dropWhile isSpace = (s.dropWhile isSpace).rdropWhile isSpace := by
    apply List.dropWhile_eq_self_iff.2
    intro hpos hspace
    have hstarts := List.rdropWhile_prefix isSpace (s.dropWhile isSpace)
    have hlt := Nat.lt_of_lt_of_le hpos hstarts.length_le
    have hget := hstarts.getElem hpos
    rw [hget] at hspace
    have hhead := List.head?_dropWhile_not isSpace s
    rw [List.head?_eq_getElem?, List.getElem?_eq_getElem hlt] at hhead
    rw [hhead] at hspace
    cases hspace
  rw [hfirst, List.rdropWhile_idempotent]

/-! ### Paths -/

theorem normaliseLinkPath_eq (path : List Char) : normaliseLinkPath path =
    if path.rdropWhile (fun c => c == '/') = [] then ['/'] else path.rdropWhile fun c => c == '/' := rfl

theorem normaliseLinkPath_idem (path : List Char) : normaliseLinkPath (normaliseLinkPath path) = normaliseLinkPath path := by
  rw [normaliseLinkPath_eq path]
  split
  · rfl
  · rename_i hne
    rw [normaliseLinkPath_eq, List.rdropWhile_idempotent, if_neg hne]

theorem isReservedPath_normalise {path : List Char} (h : isReservedPath path = false) :
    isReservedPath (normaliseLinkPath path) = false := by
  rw [normaliseLinkPath_eq]
  split
  · decide
  · obtain ⟨t, ht⟩ := List.rdropWhile_prefix (fun c => c == '/') path
    have hslashes : ∀ c ∈ t, c = '/' := by
      intro c hc
      have hsuffix : t = path.rtakeWhile fun c => c == '/' := by
        have hboth : (path.rdropWhile fun c => c == '/') ++ (path.rtakeWhile fun c => c == '/') = path :=
          List.rdropWhile_append_rtakeWhile
        exact List.append_cancel_left (ht.trans hboth.symm)
      rw [hsuffix] at hc
      simpa using List.mem_rtakeWhile_imp hc
    generalize (path.rdropWhile fun c => c == '/') = s at ht
    unfold isReservedPath at h ⊢
    simp only [Bool.or_eq_false_iff] at h ⊢
    obtain ⟨⟨hunder, hapi⟩, hslash⟩ := h
    have hstarts : ∀ {pre : List Char}, pre.isPrefixOf path = false → pre.isPrefixOf s = false := by
      intro pre hpre
      by_contra hs
      rw [Bool.not_eq_false, List.isPrefixOf_iff_prefix] at hs
      have hpath := List.isPrefixOf_iff_prefix.2 (hs.trans ⟨t, ht⟩)
      rw [hpre] at hpath
      cases hpath
    refine ⟨⟨hstarts hunder, ?_⟩, hstarts hslash⟩
    by_contra hs
    rw [Bool.not_eq_false, beq_iff_eq] at hs
    cases t with
    | nil =>
      rw [List.append_nil] at ht
      rw [← ht, hs] at hapi
      revert hapi
      decide
    | cons c t =>
      have hc := hslashes c List.mem_cons_self
      rw [← ht, hs, hc] at hslash
      have hpre : "/api/".toList.isPrefixOf ("/api".toList ++ '/' :: t) = true :=
        List.isPrefixOf_iff_prefix.2 ⟨t, by simp⟩
      rw [hpre] at hslash
      cases hslash

theorem mediaSegments_reserved {path : List Char} (h : isReservedPath path = false) : mediaSegments path = none := by
  unfold mediaSegments
  split
  · rfl
  · rename_i rest hrest
    have hstarts := eq_append_of_isPrefixOf hrest
    unfold isReservedPath at h
    simp only [Bool.or_eq_false_iff] at h
    rw [hstarts] at h
    have hstart : mediaUrlPrefix ++ ['/'] = "/_".toList ++ "caelo/media/".toList := by decide
    have hunder : "/_".toList.isPrefixOf (mediaUrlPrefix ++ ['/'] ++ rest) = true := by
      rw [hstart, List.append_assoc]
      exact List.isPrefixOf_iff_prefix.2 (List.prefix_append _ _)
    rw [hunder] at h
    cases h.1.1

/-! ### One URL -/

section Spec

variable {parseUrl : List Char → Option Url} {lookup : LinkTargetLookup} {human : LinkHumaniseLookup}

/-- What a save knows of a reference it stores. -/
def Linked (lookup : LinkTargetLookup) (scope : Scope) : LinkRef → Prop
  | .page pageId query anchor => scope = .pagesAndMedia ∧
      (∃ path, lookup.pageIdForPath path = some pageId ∧ normaliseLinkPath path = path ∧ isReservedPath path = false) ∧
      PartOk queryOk query ∧ PartOk anchorOk anchor
  | .media mediaId variant => lookup.mediaExists mediaId = true ∧ PartOk variantOk variant ∧ variant ≠ some "orig"

variable {scope : Scope} {ref : LinkRef} {variant part : Option String} {mediaId : String} {v s slug : List Char}
  {c : Char}

theorem mediaLink_linked {first : List Char} {variant : Option (List Char)} {hasSuffix : Bool}
    (hvariant : variant.all variantOk = true) (h : mediaLink lookup first variant hasSuffix = some ref) :
    Linked lookup scope ref := by
  have hwell := mediaLink_wellMade hvariant h
  unfold mediaLink at h
  obtain ⟨id, -, h⟩ := Option.bind_eq_some_iff.1 h
  rw [Option.ite_none_right_eq_some, Option.some.injEq] at h
  obtain ⟨-, rfl⟩ := h
  refine ⟨hwell.1, hwell.2, ?_⟩
  split
  · intro heq
    cases heq
  · rename_i hne
    intro heq
    obtain ⟨v, rfl, hv⟩ := Option.map_eq_some_iff.1 heq
    apply hne
    rw [← hv, String.toList_ofList]

theorem urlLink_linked
    (h : urlLink parseUrl lookup scope v = some ref) : Linked lookup scope ref := by
  obtain ⟨-, path, -, h⟩ := urlLink_some h
  unfold pathLink at h
  dsimp only at h
  split at h
  · rename_i first variant hsegs
    exact mediaLink_linked (mediaSegments_variant hsegs) h
  · rw [Option.ite_none_left_eq_some, not_or, Bool.not_eq_true] at h
    obtain ⟨⟨hscope, hreserved⟩, h⟩ := h
    have hwell := pageLink_wellMade h
    unfold pageLink at h
    rw [Option.ite_none_right_eq_some] at h
    obtain ⟨id, hid, rfl⟩ := Option.map_eq_some_iff.1 h.2
    refine ⟨?_, ⟨_, hid, normaliseLinkPath_idem _, isReservedPath_normalise hreserved⟩, hwell.2⟩
    cases scope with
    | pagesAndMedia => rfl
    | media => exact absurd rfl hscope

theorem Linked.wellMade (h : Linked lookup scope ref) : WellMade lookup ref := by
  cases ref with
  | page pageId query anchor =>
    obtain ⟨-, ⟨path, hpath, -⟩, hparts⟩ := h
    exact ⟨lookup.served path pageId hpath, hparts⟩
  | media mediaId variant => exact ⟨h.1, h.2.1⟩

def shownText (human : LinkHumaniseLookup) (ref : LinkRef) : List Char := humaniseRef human ref (refText ref)

theorem isUrlChar_refText (h : WellMade lookup ref) (hc : c ∈ refText ref) :
    isUrlChar c = true := by
  have huuid : ∀ {id : String}, isUuid id.toList = true → ∀ c ∈ id.toList, isUrlChar c = true := by
    intro id hid c hc
    rcases isUuid_mem hid hc with hhex | rfl
    · refine isUrlChar_of_class (by decide) (?_ : (isAlphanum c || "_/-".toList.contains c) = true)
      exact isIdChar_of_isHex hhex
    · decide
  have hpage : ("caelo:page/".toList.all isUrlChar) = true := by decide
  have hmedia : ("caelo:media/".toList.all isUrlChar) = true := by decide
  cases ref with
  | page pageId query anchor =>
    obtain ⟨hexists, hquery, hanchor⟩ := h
    unfold refText at hc
    rw [List.mem_append, List.mem_append, List.mem_append] at hc
    rcases hc with ((hc | hc) | hc) | hc
    · exact List.all_eq_true.1 hpage c hc
    · exact huuid (lookup.pageIds pageId hexists) c hc
    · exact isUrlChar_part hquery (fun s hs c hc => isUrlChar_query hs hc) (by decide) hc
    · exact isUrlChar_part hanchor (fun s hs c hc => isUrlChar_anchor hs hc) (by decide) hc
  | media mediaId variant =>
    obtain ⟨hexists, hvariant⟩ := h
    unfold refText at hc
    rw [List.mem_append, List.mem_append] at hc
    rcases hc with (hc | hc) | hc
    · exact List.all_eq_true.1 hmedia c hc
    · exact huuid (lookup.mediaIds mediaId hexists) c hc
    · exact isUrlChar_part hvariant (fun s hs c hc => isUrlChar_variant hs hc) (by decide) hc

theorem pagePathOk_spec {path : List Char} (h : pagePathOk path = true) :
    (∃ rest, path = '/' :: rest ∧ rest.head? ≠ some '/') ∧ ∀ c ∈ path, isPathChar c = true := by
  unfold pagePathOk at h
  simp only [Bool.and_eq_true, beq_iff_eq, bne_iff_ne, List.all_eq_true] at h
  obtain ⟨⟨hhead, hsecond⟩, hall⟩ := h
  refine ⟨?_, hall⟩
  cases path with
  | nil => cases hhead
  | cons c rest =>
    rw [List.head?_cons, Option.some.injEq] at hhead
    refine ⟨rest, by rw [hhead], ?_⟩
    rwa [List.head?_eq_getElem?]

theorem isUrlChar_shownText (site : SameSite lookup human) (h : Linked lookup scope ref)
    (hc : c ∈ shownText human ref) : isUrlChar c = true := by
  have hraw : ∀ c ∈ refText ref, isUrlChar c = true := fun c hc => isUrlChar_refText h.wellMade hc
  unfold shownText humaniseRef at hc
  cases ref with
  | page pageId query anchor =>
    obtain ⟨-, -, hquery, hanchor⟩ := h
    dsimp only at hc
    cases hpath : human.pagePath pageId with
    | none =>
      rw [hpath] at hc
      exact hraw c hc
    | some path =>
      rw [hpath, Option.map_some, Option.getD_some, List.mem_append, List.mem_append] at hc
      rcases hc with (hc | hc) | hc
      · exact isUrlChar_path ((pagePathOk_spec (site.pagePaths pageId path hpath)).2 c hc)
      · exact isUrlChar_part hquery (fun s hs c hc => isUrlChar_query hs hc) (by decide) hc
      · exact isUrlChar_part hanchor (fun s hs c hc => isUrlChar_anchor hs hc) (by decide) hc
  | media mediaId variant =>
    obtain ⟨-, hvariant, -⟩ := h
    dsimp only at hc
    cases hslug : human.mediaSlug mediaId with
    | none =>
      rw [hslug] at hc
      exact hraw c hc
    | some slug =>
      rw [hslug, Option.map_some, Option.getD_some] at hc
      unfold buildMediaUrl at hc
      rw [List.mem_append, List.mem_append] at hc
      rcases hc with (hc | hc) | hc
      · have hstart : ("/_caelo/media/".toList.all isUrlChar) = true := by decide
        exact List.all_eq_true.1 hstart c hc
      · exact isUrlChar_segment (site.mediaSlugs mediaId slug hslug) hc
      · split at hc
        · cases hc
        · cases variant with
          | none =>
            rename_i hne
            exact absurd rfl hne
          | some v =>
            rcases List.mem_cons.1 hc with rfl | hc
            · decide
            · exact isUrlChar_variant (hvariant v rfl) hc

theorem urlLink_path {rest : List Char} (hrest : rest.head? ≠ some '/')
    (hchars : ∀ c ∈ '/' :: rest, isUrlChar c = true) :
    urlLink parseUrl lookup scope ('/' :: rest) = pathLink lookup scope ('/' :: rest) := by
  have hlike : refLike ('/' :: rest) = false := by simp [refLike, List.isPrefixOf]
  have hplaceholder : hasPlaceholder ('/' :: rest) = false := by
    unfold hasPlaceholder
    rw [decide_eq_false_iff_not]
    intro hwithin
    have hmem : '\x7b' ∈ '/' :: rest := hwithin.subset List.mem_cons_self
    exact isUrlChar_ne_brace (hchars _ hmem) rfl
  have hlocal : localPart parseUrl lookup ('/' :: rest) = some ('/' :: rest) := by
    have hhttp : isHttp ('/' :: rest) = false := by
      have hslash : Char.toLower '/' = '/' := by decide
      simp [isHttp, List.isPrefixOf, hslash]
    have hdouble : "//".toList.isPrefixOf ('/' :: rest) = false := by
      cases rest with
      | nil => rfl
      | cons c rest =>
        have hne : c ≠ '/' := fun heq => hrest (by rw [heq]; rfl)
        simp [List.isPrefixOf, Ne.symm hne]
    unfold localPart
    rw [hhttp, hdouble]
    rfl
  unfold urlLink skipped
  rw [hlike, hplaceholder, hlocal]
  rfl

theorem urlText_shown (hchars : ∀ c ∈ v, isUrlChar c = true) :
    urlText parseUrl lookup scope v = (urlLink parseUrl lookup scope v).elim v refText := by
  have htrim : trim v = v := by
    apply trim_of_no_space
    intro c hc
    have hnot := isUrlChar_not_delimiter (hchars c hc)
    unfold isDelimiter at hnot
    rw [Bool.or_eq_false_iff] at hnot
    exact hnot.1
  unfold urlText
  rw [htrim, ite_self]
  cases urlLink parseUrl lookup scope v <;> rfl

/-! ### Shown pages -/

theorem takeWhile_part {rest : List Char} {mark : Char} (hs : mark ∉ s) (hrest : ∀ c, rest.head? = some c → c = mark) :
    ((s ++ rest).takeWhile fun c => c != mark) = s ∧ ((s ++ rest).dropWhile fun c => c != mark) = rest := by
  have hall : ∀ c ∈ s, (c != mark) = true := by
    intro c hc
    rw [bne_iff_ne]
    rintro rfl
    exact hs hc
  rw [List.takeWhile_append_of_pos hall, List.dropWhile_append_of_pos hall]
  cases rest with
  | nil => simp
  | cons c rest =>
    have hc : c = mark := hrest c rfl
    simp [hc]

theorem formatPart_head {mark : Char} (h : (formatPart mark part).head? = some c) : c = mark := by
  cases part with
  | none => cases h
  | some s =>
    unfold formatPart at h
    dsimp only at h
    split at h
    · cases h
    · exact (Option.some.inj h).symm

theorem nonEmpty_formatPart {ok : List Char → Bool} (h : PartOk ok part) (hok : ok [] = false)
    (mark : Char) : nonEmpty (formatPart mark part).tail = part.map String.toList := by
  rw [formatPart_of_ok h hok]
  cases part with
  | none => rfl
  | some s =>
    have hne : s.toList ≠ [] := by
      intro hnil
      have hs := h s rfl
      rw [hnil, hok] at hs
      cases hs
    exact if_neg hne

theorem splitPathTail_page {path : List Char} {query anchor : Option String} (hpath : ∀ c ∈ path, isPathChar c = true)
    (hquery : PartOk queryOk query) (hanchor : PartOk anchorOk anchor) :
    splitPathTail (path ++ formatPart '?' query ++ formatPart '#' anchor) =
      ⟨path, query.map String.toList, anchor.map String.toList⟩ := by
  have hnot : ∀ mark, isPathChar mark = false → mark ∉ path := by
    intro mark hmark hmem
    rw [hpath mark hmem] at hmark
    cases hmark
  have hhash : '#' ∉ path ++ formatPart '?' query := by
    intro hmem
    rcases List.mem_append.1 hmem with hmem | hmem
    · exact hnot '#' (by decide) hmem
    · cases query with
      | none => cases hmem
      | some q =>
        have hq := hquery q rfl
        unfold queryOk at hq
        simp only [Bool.and_eq_true, List.all_eq_true] at hq
        unfold formatPart at hmem
        dsimp only at hmem
        split at hmem
        · cases hmem
        · rcases List.mem_cons.1 hmem with heq | hmem
          · revert heq
            decide
          · have := hq.1.1 '#' hmem
            revert this
            decide
  have hanchorHead : ∀ c, (formatPart '#' anchor).head? = some c → c = '#' := fun _ h => formatPart_head h
  have hqueryHead : ∀ c, (formatPart '?' query).head? = some c → c = '?' := fun _ h => formatPart_head h
  obtain ⟨hbefore, hafter⟩ := takeWhile_part hhash hanchorHead
  obtain ⟨hbefore', hafter'⟩ := takeWhile_part (hnot '?' (by decide)) hqueryHead
  unfold splitPathTail
  dsimp only
  rw [hbefore, hafter, hbefore', hafter', nonEmpty_formatPart hquery rfl, nonEmpty_formatPart hanchor rfl]

theorem map_ofList_toList (part : Option String) : (part.map String.toList).map String.ofList = part := by
  cases part with
  | none => rfl
  | some s => simp

theorem all_toList {ok : List Char → Bool} (h : PartOk ok part) :
    (part.map String.toList).all ok = true := by
  cases part with
  | none => rfl
  | some s => exact h s rfl

theorem urlText_page (site : SameSite lookup human) {pageId : String} {query anchor : Option String}
    (h : Linked lookup scope (.page pageId query anchor)) :
    urlText parseUrl lookup scope (shownText human (.page pageId query anchor)) = refText (.page pageId query anchor) := by
  rw [urlText_shown fun c hc => isUrlChar_shownText site h hc]
  have hchars : ∀ c ∈ shownText human (.page pageId query anchor), isUrlChar c = true :=
    fun c hc => isUrlChar_shownText site h hc
  obtain ⟨rfl, ⟨path, hid, hnormal, hreserved⟩, hquery, hanchor⟩ := h
  have hpath := (site.pages path pageId).1 hid
  obtain ⟨⟨rest, rfl, hrest⟩, hall⟩ := pagePathOk_spec (site.pagePaths pageId path hpath)
  have hshown : shownText human (.page pageId query anchor) = '/' :: rest ++ formatPart '?' query ++ formatPart '#' anchor := by
    unfold shownText humaniseRef
    dsimp only
    rw [hpath]
    rfl
  rw [hshown] at hchars ⊢
  have hsecond : (rest ++ (formatPart '?' query ++ formatPart '#' anchor)).head? ≠ some '/' := by
    cases rest with
    | cons c rest => exact hrest
    | nil =>
      intro hhead
      rw [List.nil_append, List.head?_append, Option.or_eq_some_iff] at hhead
      rcases hhead with hhead | ⟨-, hhead⟩ <;> exact absurd (formatPart_head hhead) (by decide)
  have hsplit := splitPathTail_page hall hquery hanchor
  rw [List.append_assoc, List.cons_append] at hchars hsplit ⊢
  have hlink : pathLink lookup .pagesAndMedia ('/' :: (rest ++ (formatPart '?' query ++ formatPart '#' anchor))) =
      some (.page pageId query anchor) := by
    have hok : suffixOk ⟨'/' :: rest, query.map String.toList, anchor.map String.toList⟩ = true := by
      unfold suffixOk
      rw [all_toList hquery, all_toList hanchor]
      rfl
    have hkept : ¬(Scope.pagesAndMedia = .media ∨ isReservedPath ('/' :: rest) = true) := by
      rw [hreserved]
      simp
    unfold pathLink
    dsimp only
    rw [hsplit, mediaSegments_reserved hreserved]
    dsimp only
    rw [if_neg hkept]
    unfold pageLink
    rw [if_pos hok]
    dsimp only
    rw [hnormal, hid, Option.map_some, map_ofList_toList, map_ofList_toList]
  rw [urlLink_path hsecond hchars, hlink]
  rfl

/-! ### Shown media -/

theorem splitPathTail_plain (hhash : '#' ∉ v) (hmark : '?' ∉ v) : splitPathTail v = ⟨v, none, none⟩ := by
  have hnil : ∀ mark : Char, ∀ c, ([] : List Char).head? = some c → c = mark := by
    intro mark c hc
    cases hc
  obtain ⟨hbefore, hafter⟩ := takeWhile_part hhash (hnil '#')
  obtain ⟨hbefore', hafter'⟩ := takeWhile_part hmark (hnil '?')
  rw [List.append_nil] at hbefore hafter hbefore' hafter'
  unfold splitPathTail
  dsimp only
  rw [hbefore, hafter, hbefore', hafter']
  rfl

/-- The part of a media URL after its slug. -/
def variantPart (variant : Option String) : List Char := (variant.map fun v => '/' :: v.toList).getD []

theorem isVariantChar_segment (h : isMediaSegment s = true) : ∀ c ∈ s, isVariantChar c = true := by
  unfold isMediaSegment at h
  simp only [Bool.and_eq_true, List.all_eq_true] at h
  exact h.1.2

theorem isVariantChar_variant (h : variantOk s = true) : ∀ c ∈ s, isVariantChar c = true := by
  unfold variantOk at h
  simp only [Bool.and_eq_true, List.all_eq_true] at h
  exact h.1.2

theorem mediaSegments_shown (hslug : isMediaSegment slug = true)
    (hvariant : PartOk variantOk variant) :
    mediaSegments ("/_caelo/media/".toList ++ (slug ++ variantPart variant)) = some (slug, variant.map String.toList) := by
  have hstart : mediaUrlPrefix ++ ['/'] = "/_caelo/media/".toList := by decide
  have hstarts : ("/_caelo/media/".toList).isPrefixOf? ("/_caelo/media/".toList ++ (slug ++ variantPart variant)) =
      some (slug ++ variantPart variant) := by
    generalize "/_caelo/media/".toList = pre
    induction pre with
    | nil => cases slug ++ variantPart variant <;> rfl
    | cons c pre ih => simp [List.isPrefixOf?]
  have hnot : ∀ {s : List Char}, (∀ c ∈ s, isVariantChar c = true) → '/' ∉ s := by
    intro s hs hmem
    have := hs '/' hmem
    revert this
    decide
  have hfirst := hnot (isVariantChar_segment hslug)
  unfold mediaSegments
  rw [hstart, hstarts]
  dsimp only
  cases variant with
  | none =>
    have hsplit : (slug ++ variantPart none).splitOn '/' = [slug] := by
      have hone : [slug] ≠ [] := List.cons_ne_nil _ _
      have := List.splitOn_intercalate '/' (fun l hl => by rwa [List.mem_singleton.1 hl]) hone
      simpa [List.intercalate, variantPart] using this
    rw [hsplit]
    simp [hslug]
  | some v =>
    have hv := hvariant v rfl
    have hsecond := hnot (isVariantChar_variant hv)
    have hsplit : (slug ++ variantPart (some v)).splitOn '/' = [slug, v.toList] := by
      have htwo : [slug, v.toList] ≠ [] := List.cons_ne_nil _ _
      have hclean : ∀ l ∈ [slug, v.toList], '/' ∉ l := by
        intro l hl
        rcases List.mem_cons.1 hl with rfl | hl
        · exact hfirst
        · rwa [List.mem_singleton.1 hl]
      have := List.splitOn_intercalate '/' hclean htwo
      simpa [List.intercalate, variantPart] using this
    have hne : v.toList ≠ [] := by
      intro hnil
      rw [hnil] at hv
      cases hv
    rw [hsplit]
    simp [hslug, hv, nonEmpty, hne]

theorem shownText_media
    (hslug : human.mediaSlug mediaId = some slug) (horig : variant ≠ some "orig") :
    shownText human (.media mediaId variant) = "/_caelo/media/".toList ++ (slug ++ variantPart variant) := by
  unfold shownText humaniseRef
  dsimp only
  rw [hslug, Option.map_some, Option.getD_some]
  unfold buildMediaUrl
  rw [List.append_assoc]
  cases variant with
  | none => rfl
  | some v =>
    have hv : v ≠ "orig" := fun heq => horig (by rw [heq])
    rw [Option.getD_some, if_neg hv]
    rfl

theorem urlLink_media (site : SameSite lookup human) (hslug : human.mediaSlug mediaId = some slug)
    (h : Linked lookup scope (.media mediaId variant)) :
    urlLink parseUrl lookup scope (shownText human (.media mediaId variant)) =
      mediaLink lookup slug (variant.map String.toList) false := by
  have hchars : ∀ c ∈ shownText human (.media mediaId variant), isUrlChar c = true :=
    fun c hc => isUrlChar_shownText site h hc
  obtain ⟨-, hvariant, horig⟩ := h
  have hsegment := site.mediaSlugs mediaId slug hslug
  have hslash : ∀ c ∈ "/_caelo/media/".toList ++ (slug ++ variantPart variant), isVariantChar c = true ∨ c = '/' ∨ c = '_' := by
    intro c hc
    rcases List.mem_append.1 hc with hc | hc
    · have hstart : ("/_caelo/media/".toList.all fun c => isVariantChar c || c == '/' || c == '_') = true := by decide
      have := List.all_eq_true.1 hstart c hc
      simpa [or_assoc] using this
    · rcases List.mem_append.1 hc with hc | hc
      · exact Or.inl (isVariantChar_segment hsegment c hc)
      · cases variant with
        | none => cases hc
        | some v =>
          rcases List.mem_cons.1 hc with rfl | hc
          · exact Or.inr (Or.inl rfl)
          · exact Or.inl (isVariantChar_variant (hvariant v rfl) c hc)
  have hnot : ∀ mark, isVariantChar mark = false → mark ≠ '/' → mark ≠ '_' →
      mark ∉ "/_caelo/media/".toList ++ (slug ++ variantPart variant) := by
    intro mark hmark hne hne' hmem
    rcases hslash mark hmem with hv | heq | heq
    · rw [hmark] at hv
      cases hv
    · exact hne heq
    · exact hne' heq
  have hsplit := splitPathTail_plain (hnot '#' (by decide) (by decide) (by decide)) (hnot '?' (by decide) (by decide) (by decide))
  have hsegs := mediaSegments_shown hsegment hvariant
  rw [shownText_media hslug horig] at hchars ⊢
  have hstart : "/_caelo/media/".toList = '/' :: "_caelo/media/".toList := by decide
  have hpath : pathLink lookup scope ("/_caelo/media/".toList ++ (slug ++ variantPart variant)) =
      mediaLink lookup slug (variant.map String.toList) false := by
    unfold pathLink
    dsimp only
    rw [hsplit]
    dsimp only
    rw [hsegs]
    rfl
  rw [hstart, List.cons_append] at hchars hpath ⊢
  have hsecond : "_caelo/media/".toList = '_' :: "caelo/media/".toList := by decide
  rw [urlLink_path _ hchars, hpath]
  intro hhead
  rw [hsecond, List.cons_append, List.head?_cons, Option.some.injEq] at hhead
  revert hhead
  decide

theorem refText_inj {ref' : LinkRef} (h : WellMade lookup ref) (h' : WellMade lookup ref')
    (heq : refText ref = refText ref') : ref = ref' := by
  have hparse := h.parse
  rw [heq, h'.parse, Option.some.injEq] at hparse
  exact hparse.symm

theorem notAnId_variant {v : String} : NotAnId human (.media mediaId (some v)) ↔
    ∀ slug, human.mediaSlug mediaId = some slug → isUuid slug = true → String.ofList slug = mediaId := Iff.rfl

/-- A media asset that is shown is stored as it was, unless its slug is taken for an id. -/
theorem urlText_media (site : SameSite lookup human)
    (h : Linked lookup scope (.media mediaId variant)) :
    urlText parseUrl lookup scope (shownText human (.media mediaId variant)) = refText (.media mediaId variant) ↔
      NotAnId human (.media mediaId variant) := by
  have hwell := h.wellMade
  rw [urlText_shown fun c hc => isUrlChar_shownText site h hc]
  cases hslug : human.mediaSlug mediaId with
  | none =>
    -- the reference is broken, and stays
    have hshown : shownText human (.media mediaId variant) = refText (.media mediaId variant) := by
      unfold shownText humaniseRef
      dsimp only
      rw [hslug]
      rfl
    have hnone : urlLink parseUrl lookup scope (refText (.media mediaId variant)) = none := by
      unfold urlLink skipped
      rw [refLike_of_parseRef hwell.parse, Bool.or_true]
      rfl
    rw [hshown, hnone]
    refine iff_of_true rfl ?_
    cases variant with
    | none => trivial
    | some v =>
      intro slug hslug'
      rw [hslug] at hslug'
      cases hslug'
  | some slug =>
    rw [urlLink_media site hslug h]
    obtain ⟨hexists, hvariant, horig⟩ := h
    have hid := (site.media slug mediaId).2 hslug
    cases variant with
    | none =>
      have hlink : mediaLink lookup slug none false = some (.media mediaId none) := by
        unfold mediaLink
        simp [hid, hexists]
      rw [Option.map_none, hlink]
      exact iff_of_true rfl trivial
    | some v =>
      have hkept : ¬(some v.toList = some "orig".toList) := by
        intro heq
        apply horig
        rw [Option.some.injEq, String.toList_inj] at heq
        rw [heq]
      have hlink : mediaLink lookup slug (some v.toList) false =
          (if isUuid slug then some (String.ofList slug) else some mediaId).bind fun id =>
            if lookup.mediaExists id then some (.media id (some v)) else none := by
        unfold mediaLink
        dsimp only
        rw [if_neg hkept, hid, Option.isSome_some, Bool.and_true, Option.map_some, String.ofList_toList]
        simp
      rw [Option.map_some, hlink, notAnId_variant]
      by_cases huuid : isUuid slug = true
      · rw [if_pos huuid, Option.bind_some]
        constructor
        · intro heq slug' hslug' _
          rw [hslug, Option.some.injEq] at hslug'
          subst hslug'
          by_cases hother : lookup.mediaExists (String.ofList slug) = true
          · rw [if_pos hother] at heq
            have hother' : WellMade lookup (.media (String.ofList slug) (some v)) := ⟨hother, hvariant⟩
            have href := refText_inj hother' hwell heq
            cases href
            rfl
          · rw [if_neg hother] at heq
            have hhead := congrArg List.head? heq
            rw [Option.elim_none, shownText_media hslug horig] at hhead
            cases hhead
        · intro hnot
          rw [hnot slug hslug huuid, if_pos hexists]
          rfl
      · rw [if_neg huuid, Option.bind_some, if_pos hexists]
        refine iff_of_true rfl fun slug' hslug' huuid' => ?_
        rw [hslug, Option.some.injEq] at hslug'
        exact absurd (hslug' ▸ huuid') huuid

theorem urlText_shown_iff (site : SameSite lookup human) (h : Linked lookup scope ref) :
    urlText parseUrl lookup scope (shownText human ref) = refText ref ↔ NotAnId human ref := by
  cases ref with
  | page pageId query anchor => exact iff_of_true (urlText_page site h) trivial
  | media mediaId variant => exact urlText_media site h

end Spec

end CaeloCms.Link
