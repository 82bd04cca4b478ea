import CaeloCms.Shared.WebForm
import CaeloCms.Shared.WebUrl

/-!
# Where a sign-in to staging goes on

`safeStagingNextPath`: the gateway redirects to the `next` of an "Open staging" link, read by the URL parser against a
host of its own.  A header can carry what it returns, and a browser stays at the host with it unless the dot segments
of the path leave two slashes at the front (`safeStagingNextPath_stays_iff`).
-/

namespace CaeloCms.Staging

open Web (WebUrl Parsed parse readPath partsOf cleanInput percentEncode)

variable (parseHost : List Char → Option (List Char))

/-- `https://staging.invalid` -/
def nextBase : WebUrl := ⟨.https, [], [], "staging.invalid".toList, none, [[]], none, none⟩

/-- `[\u0000-\u001f\u007f]` -/
def isNextControl (c : Char) : Bool := c.toNat ≤ 0x1F || c.toNat == 0x7F

def refusesNext (next : List Char) : Bool :=
  next.head? != some '/' || "//".toList.isPrefixOf next || next.contains '\\' || next.any isNextControl

/-- `${url.pathname}${url.search}${url.hash}` -/
def urlPath (url : WebUrl) : List Char := url.pathname ++ Web.markedText '?' url.query ++ Web.markedText '#' url.fragment

/-- `none` where the parser throws. -/
def safeStagingNextPath (next : Option (List Char)) : Option (List Char) :=
  match next with
  | none => some ['/']
  | some next =>
    if refusesNext next then some ['/']
    else
      match parse parseHost (some nextBase) next with
      | none => none
      | some (.other _) => some ['/']
      | some (.web url) => if url.origin ≠ nextBase.origin then some ['/'] else some (urlPath url)

/-- The segments of the path, as the parser leaves them. -/
def nextSegments (next : List Char) : List (List Char) := readPath [] [] (partsOf (cleanInput next).tail).hier

/-! ### Visible texts -/

/-- A character that a header can carry and that no URL parser takes away. -/
def Visible (c : Char) : Prop := 0x21 ≤ c.toNat ∧ c.toNat ≤ 0x7E

instance (c : Char) : Decidable (Visible c) := inferInstanceAs (Decidable (0x21 ≤ c.toNat ∧ c.toNat ≤ 0x7E))

theorem visible_of_isFormChar {c : Char} (h : Web.isFormChar c = true) : Visible c := by
  have hlt : c.toNat < 128 := by
    simp only [Web.isFormChar, Bool.or_eq_true, Bool.and_eq_true, decide_eq_true_eq, Char.le_def,
      UInt32.le_iff_toNat_le] at h
    rcases h with ((h | h) | h) | h
    · exact Nat.lt_of_le_of_lt h.2 (by decide)
    · exact Nat.lt_of_le_of_lt h.2 (by decide)
    · exact Nat.lt_of_le_of_lt h.2 (by decide)
    · have hall : ("*-._".toList.all fun d => d.toNat < 128) = true := by decide
      exact of_decide_eq_true (List.all_eq_true.1 hall c (List.contains_iff_mem.1 h))
  have hall : ∀ n < 128, Web.isFormChar (Char.ofNat n) = true → Visible (Char.ofNat n) := by decide +kernel
  have hc := hall c.toNat hlt
  rw [Char.ofNat_toNat] at hc
  exact hc h

/-- No encoded character is a blank, a control or another character of its set. -/
theorem mem_percentEncode {set : Char → Bool} {s : List Char} {c : Char} (h : c ∈ percentEncode set s) :
    (c ∈ s ∧ set c = false) ∨ c = '%' ∨ Web.isFormChar c = true := by
  obtain ⟨d, hd, hc⟩ := List.mem_flatMap.1 h
  split at hc
  next hset =>
    obtain ⟨b, hb, hc⟩ := List.mem_flatMap.1 hc
    exact Or.inr (Web.mem_escapeByte (Web.utf8_lt hb) hc)
  next hset =>
    obtain rfl := List.mem_singleton.1 hc
    exact Or.inl ⟨hd, Bool.eq_false_iff.2 hset⟩

/-- Outside of a set with the controls and the blank all characters are visible. -/
theorem visible_of_notMem {chars : List Char} (hblank : ' ' ∈ chars) {c : Char}
    (h : (Web.c0Set c || chars.contains c) = false) : Visible c := by
  simp only [Web.c0Set, Bool.or_eq_false_iff, decide_eq_false_iff_not] at h
  have hne : c.toNat ≠ 0x20 := by
    intro heq
    obtain rfl : c = ' ' := Char.toNat_inj.1 heq
    simp [hblank] at h
  unfold Visible
  omega

theorem visible_percentEncode {set : Char → Bool} (hset : ∀ c, set c = false → Visible c) {s : List Char} {c : Char}
    (h : c ∈ percentEncode set s) : Visible c := by
  rcases mem_percentEncode h with ⟨-, hc⟩ | rfl | hc
  · exact hset c hc
  · decide
  · exact visible_of_isFormChar hc

/-! ### The path of the parsed URL -/

theorem eq_of_isSlash {c : Char} (h : Web.isSlash c = true) : c = '/' ∨ c = '\\' := by simpa [Web.isSlash] using h

def SegmentOk (segment : List Char) : Prop := ∀ c ∈ segment, Visible c ∧ Web.isSlash c = false

theorem segmentOk_encoded {segment : List Char} (h : ∀ c ∈ segment, Web.isSlash c = false) :
    SegmentOk (percentEncode Web.pathSet segment) := by
  intro c hc
  refine ⟨visible_percentEncode (fun c hc => visible_of_notMem (by decide) hc) hc, ?_⟩
  rcases mem_percentEncode hc with ⟨hmem, -⟩ | rfl | hform
  · exact h c hmem
  · decide
  · rw [Bool.eq_false_iff]
    intro hslash
    rcases eq_of_isSlash hslash with rfl | rfl <;> exact absurd hform (by decide)

theorem addSegment_ok {path : List (List Char)} {segment : List Char} (hpath : ∀ t ∈ path, SegmentOk t)
    (h : ∀ c ∈ segment, Web.isSlash c = false) (last : Bool) :
    (∀ t ∈ Web.addSegment path segment last, SegmentOk t) ∧ (last = true → Web.addSegment path segment last ≠ []) := by
  have hempty : ∀ t ∈ (if last then [[]] else [] : List (List Char)), SegmentOk t := by
    intro t ht
    split at ht
    · rw [List.mem_singleton.1 ht]
      exact fun c hc => absurd hc List.not_mem_nil
    · cases ht
  unfold Web.addSegment
  dsimp only
  split
  · exact ⟨fun t ht => (List.mem_append.1 ht).elim (fun ht => hpath t (List.dropLast_subset _ ht)) (hempty t),
      fun hlast => by simp [hlast]⟩
  split
  · exact ⟨fun t ht => (List.mem_append.1 ht).elim (hpath t) (hempty t), fun hlast => by simp [hlast]⟩
  · refine ⟨fun t ht => (List.mem_append.1 ht).elim (hpath t) fun ht => ?_, fun _ => by simp⟩
    rw [List.mem_singleton.1 ht]
    exact segmentOk_encoded h

theorem readPath_ok {path : List (List Char)} {segment : List Char} (hpath : ∀ t ∈ path, SegmentOk t)
    (h : ∀ c ∈ segment, Web.isSlash c = false) (s : List Char) :
    (∀ t ∈ readPath path segment s, SegmentOk t) ∧ readPath path segment s ≠ [] := by
  induction s generalizing path segment with
  | nil => exact ⟨(addSegment_ok hpath h true).1, (addSegment_ok hpath h true).2 rfl⟩
  | cons c s ih =>
    rw [readPath]
    split
    · exact ih (addSegment_ok hpath h false).1 (by simp)
    · rename_i hc
      refine ih hpath fun d hd => ?_
      rcases List.mem_append.1 hd with hd | hd
      · exact h d hd
      · rw [List.mem_singleton.1 hd]
        exact Bool.eq_false_iff.2 hc

theorem nextSegments_ok (next : List Char) : (∀ t ∈ nextSegments next, SegmentOk t) ∧ nextSegments next ≠ [] :=
  readPath_ok (by simp) (by simp) _

/-- What follows the path: nothing, a query or a fragment. -/
def IsSuffix (tail : List Char) : Prop := (∀ c ∈ tail.head?, Web.isSlash c = false) ∧ ∀ c ∈ tail, Visible c

theorem isSuffix_marked (s : List Char) :
    IsSuffix (Web.markedText '?' (partsOf s).query ++ Web.markedText '#' (partsOf s).fragment) := by
  have hmarked : ∀ (mark : Char) (set : Char → Bool) (text : Option (List Char)), Visible mark → Web.isSlash mark = false →
      (∀ c, set c = false → Visible c) →
      IsSuffix (Web.markedText mark (text.map (percentEncode set))) := by
    intro mark set text hvisible hmark hset
    cases text with
    | none => exact ⟨by simp [Web.markedText], by simp [Web.markedText]⟩
    | some text =>
      rw [Option.map_some, Web.markedText]
      split
      · exact ⟨by simp, by simp⟩
      · refine ⟨by simpa using hmark, fun c hc => ?_⟩
        rcases List.mem_cons.1 hc with rfl | hc
        · exact hvisible
        · exact visible_percentEncode hset hc
  have hq := hmarked '?' Web.specialQuerySet (Web.cutAt '?' (Web.cutAt '#' s).1).2 (by decide) (by decide)
    fun c hc => visible_of_notMem (by decide) hc
  have hf := hmarked '#' Web.fragmentSet (Web.cutAt '#' s).2 (by decide) (by decide)
    fun c hc => visible_of_notMem (by decide) hc
  refine ⟨?_, fun c hc => (List.mem_append.1 hc).elim (hq.2 c) (hf.2 c)⟩
  rw [partsOf]
  cases hempty : Web.markedText '?' ((Web.cutAt '?' (Web.cutAt '#' s).1).2.map (percentEncode Web.specialQuerySet)) with
  | nil => exact hf.1
  | cons c rest =>
    have hhead := hq.1
    rw [hempty] at hhead
    exact hhead

/-! ### What is returned -/

variable {parseHost}

theorem clean_next {next : List Char} (h : refusesNext next = false) :
    ∃ s, cleanInput next = '/' :: s ∧ ∀ c ∈ s.head?, Web.isSlash c = false := by
  simp only [refusesNext, Bool.or_eq_false_iff, bne_eq_false_iff_eq] at h
  obtain ⟨⟨⟨hhead, hslashes⟩, hback⟩, hcontrol⟩ := h
  obtain ⟨s, rfl⟩ : ∃ s, next = '/' :: s := by
    cases next with
    | nil => cases hhead
    | cons c s => exact ⟨s, by rw [Option.some.inj hhead]⟩
  have hsub : s.rdropWhile Web.isC0OrSpace <+: s := List.rdropWhile_prefix _ _
  have hplain : (s.rdropWhile Web.isC0OrSpace).filter (fun c => !Web.isTabOrNewline c) = s.rdropWhile Web.isC0OrSpace := by
    refine List.filter_eq_self.2 fun c hc => ?_
    have hc : isNextControl c = false := by
      rw [List.any_eq_false] at hcontrol
      simpa using hcontrol c (List.mem_cons_of_mem _ (hsub.subset hc))
    rw [Bool.not_eq_true', Bool.eq_false_iff]
    intro htab
    simp only [Web.isTabOrNewline, Bool.or_eq_true, beq_iff_eq] at htab
    rcases htab with (rfl | rfl) | rfl <;> exact absurd hc (by decide)
  have hfirst : ∀ c ∈ ['/'], Web.isC0OrSpace c = false := by
    intro c hc
    rw [List.mem_singleton.1 hc]
    decide
  refine ⟨_, (Web.cleanInput_append (List.cons_ne_nil _ _) hfirst s).trans (by rw [hplain]; rfl), ?_⟩
  intro c hc
  cases s with
  | nil => cases hc
  | cons d s =>
    obtain rfl : d = c := by
      cases hdrop : (d :: s).rdropWhile Web.isC0OrSpace with
      | nil => rw [hdrop] at hc; cases hc
      | cons e rest =>
        rw [hdrop] at hc hsub
        exact (List.cons_prefix_cons.1 hsub).1.symm.trans (Option.some.inj hc)
    rw [Bool.eq_false_iff]
    intro hslash
    rcases eq_of_isSlash hslash with rfl | rfl
    · simp at hslashes
    · simp at hback

/-- What is returned for a text that is not refused: its segments, and what follows the path. -/
theorem next_eq {next : List Char} (h : refusesNext next = false) :
    ∃ tail, IsSuffix tail ∧
      safeStagingNextPath parseHost (some next) = some ((nextSegments next).flatMap (fun t => '/' :: t) ++ tail) := by
  obtain ⟨s, hclean, hs⟩ := clean_next h
  refine ⟨_, isSuffix_marked ('/' :: s), ?_⟩
  rw [safeStagingNextPath, h, if_neg Bool.false_ne_true, Web.parse_slash_eq parseHost nextBase hclean hs]
  dsimp only
  rw [if_neg (by simp [WebUrl.origin, nextBase]), nextSegments, hclean, List.tail_cons, ← List.append_assoc]
  rfl

/-- A text is read at every `https` host as a URL of that host. -/
def StaysAtHost (parseHost : List Char → Option (List Char)) (location : List Char) : Prop :=
  ∀ site : WebUrl, site.scheme = .https →
    ∃ r, parse parseHost (some site) location = some (.web r) ∧ r.origin = site.origin

theorem cleanInput_visible {location : List Char} (hne : location ≠ []) (h : ∀ c ∈ location, Visible c) :
    cleanInput location = location := by
  refine Web.cleanInput_plain hne fun c hc => ?_
  have hvisible := (h c hc).1
  simp only [Web.isC0OrSpace, decide_eq_false_iff_not]
  omega

theorem stays_of_one_slash {s : List Char} (h : ∀ c ∈ '/' :: s, Visible c) (hs : ∀ c ∈ s.head?, Web.isSlash c = false) :
    StaysAtHost parseHost ('/' :: s) := fun site _ =>
  Web.parse_of_slash parseHost site (cleanInput_visible (List.cons_ne_nil _ _) h) hs

/-- What is read after two slashes does not depend on the host the browser is at. -/
theorem leaves_of_two_slashes {s : List Char} (h : ∀ c ∈ '/' :: '/' :: s, Visible c) :
    ¬StaysAtHost parseHost ('/' :: '/' :: s) := by
  intro hstays
  have hread : ∀ site : WebUrl, site.scheme = .https → parse parseHost (some site) ('/' :: '/' :: s) =
      (Web.readAbsolute parseHost .https ('/' :: '/' :: s)).map Parsed.web := by
    intro site hsite
    have hhier : (partsOf ('/' :: '/' :: s)).hier = '/' :: '/' :: (partsOf s).hier := by
      rw [Web.hier_cons, if_neg (by decide), Web.hier_cons, if_neg (by decide)]
    unfold parse
    dsimp only
    rw [cleanInput_visible (List.cons_ne_nil _ _) h, Web.schemeOf_slash]
    dsimp only
    rw [Option.bind_some, Web.readRelative, hhier]
    dsimp only
    rw [if_pos (by decide)]
    show Option.map Parsed.web (Web.readAbsolute parseHost site.scheme _) = _
    rw [hsite]
  obtain ⟨r, hr, horigin⟩ := hstays ⟨.https, [], [], ['a'], none, [], none, none⟩ rfl
  obtain ⟨r', hr', horigin'⟩ := hstays ⟨.https, [], [], ['b'], none, [], none, none⟩ rfl
  rw [hread _ rfl] at hr hr'
  obtain rfl : r = r' := by simpa using hr.symm.trans hr'
  exact absurd (horigin.symm.trans horigin') (by decide)

/-- What a sign-in goes on with is visible ASCII, and every browser stays at its host with it exactly when the link's
path does not come to an empty segment followed by another. -/
theorem safeStagingNextPath_stays_iff (next : Option (List Char)) :
    ∃ location, safeStagingNextPath parseHost next = some location ∧ (∀ c ∈ location, Visible c) ∧
      (StaysAtHost parseHost location ↔
        ∀ text, next = some text → refusesNext text = false →
          ∀ segment rest, nextSegments text ≠ [] :: segment :: rest) := by
  have hroot : ∀ c ∈ ['/'], Visible c := by
    intro c hc
    rw [List.mem_singleton.1 hc]
    decide
  have hstays : StaysAtHost parseHost ['/'] := stays_of_one_slash hroot (by simp)
  cases next with
  | none => exact ⟨['/'], rfl, hroot, iff_of_true hstays nofun⟩
  | some next =>
    cases hrefused : refusesNext next with
    | true =>
      refine ⟨['/'], by rw [safeStagingNextPath, hrefused, if_pos rfl], hroot, iff_of_true hstays ?_⟩
      intro text htext hnot
      rw [← Option.some.inj htext, hrefused] at hnot
      cases hnot
    | false =>
      obtain ⟨tail, htail, hlocation⟩ := @next_eq parseHost next hrefused
      obtain ⟨hok, hne⟩ := nextSegments_ok next
      have hvisible : ∀ c ∈ (nextSegments next).flatMap (fun t => '/' :: t) ++ tail, Visible c := by
        intro c hc
        rcases List.mem_append.1 hc with hc | hc
        · obtain ⟨t, ht, hc⟩ := List.mem_flatMap.1 hc
          rcases List.mem_cons.1 hc with rfl | hc
          · decide
          · exact (hok t ht c hc).1
        · exact htail.2 c hc
      refine ⟨_, hlocation, hvisible, ?_⟩
      obtain ⟨segment, rest, hsegments⟩ := List.exists_cons_of_ne_nil hne
      rw [hsegments, List.flatMap_cons, List.cons_append, List.cons_append] at hvisible ⊢
      by_cases hslashes : segment = [] ∧ rest ≠ []
      · obtain ⟨rfl, hrest⟩ := hslashes
        obtain ⟨second, rest, rfl⟩ := List.exists_cons_of_ne_nil hrest
        refine iff_of_false (leaves_of_two_slashes hvisible) fun hall => ?_
        exact hall next rfl hrefused second rest hsegments
      · refine iff_of_true (stays_of_one_slash hvisible ?_) ?_
        · intro c hc
          cases segment with
          | cons d segment =>
            obtain rfl : d = c := Option.some.inj hc
            exact (hok _ (hsegments ▸ List.mem_cons_self) d List.mem_cons_self).2
          | nil =>
            obtain rfl : rest = [] := by simpa using hslashes
            exact htail.1 c hc
        · intro text htext _ second rest' heq
          rw [← Option.some.inj htext, hsegments] at heq
          obtain ⟨rfl, rfl⟩ := List.cons.inj heq
          exact hslashes ⟨rfl, List.cons_ne_nil _ _⟩

/-- A dot segment at the front leaves two slashes. -/
example : safeStagingNextPath (fun host => some host) (some "/.//evil.example/".toList) =
    some "//evil.example/".toList := by decide +kernel

end CaeloCms.Staging
