import CaeloCms.Lib.Rewriting
import CaeloCms.Shared.TextCodec

/-!
# Pointing a build at the staging host

A build is rendered for the origin of the live site; staging serves it with its own origin in place of this one.
`rewriteOrigins` does so in a text, `originRewriteStream` in the bytes of a text as they come.

The stream cuts the text into pieces.  It gives what the whole text would give where the pieces are read like the text
(`CutsSafe`), and some targets show every other cut (`originRewrite_iff`).
-/

namespace CaeloCms.Staging

open Rewriting Web
open Redirect (isSpace)

/-- What `replace` inserts for a match, which a template can name as `$&`; `none` where it names what stands around the
match.  The expression has no groups. -/
def substitute (matched : Units) : Units → Option Units
  | [] => some []
  | [u] => some [u]
  | u :: v :: template =>
    if u = unit '$' then
      if v = unit '$' then (substitute matched template).map (u :: ·)
      else if v = unit '&' then (substitute matched template).map (matched ++ ·)
      else if v = unit '`' ∨ v = unit '\'' then none
      else (substitute matched (v :: template)).map (u :: ·)
    else (substitute matched (v :: template)).map (u :: ·)

structure OriginPair where
  source : Units
  target : Units
  ascii : ∀ u ∈ source, u < 128
  inserted : (substitute source target).isSome = true

/-- What stands in place of a match. -/
def OriginPair.insertion (p : OriginPair) : Units := (substitute p.source p.target).getD []

/-- `o.replaceAll("/", "\\/")` -/
def jsonEscaped (o : Units) : Units := o.flatMap fun u => if u = unit '/' then [unit '\\', unit '/'] else [u]

theorem mem_jsonEscaped {o : Units} {u : UInt16} (h : u ∈ jsonEscaped o) : u ∈ o ∨ u = unit '\\' := by
  obtain ⟨v, hv, hu⟩ := List.mem_flatMap.1 h
  split at hu
  · rename_i hslash
    rw [List.mem_cons, List.mem_singleton] at hu
    rcases hu with rfl | rfl
    · exact .inr rfl
    · exact .inl (hslash ▸ hv)
  · rw [List.mem_singleton] at hu
    exact .inl (hu ▸ hv)

theorem substitute_of_ne {matched s : Units} {u : UInt16} (h : u ≠ unit '$') :
    substitute matched (u :: s) = (substitute matched s).map (u :: ·) := by
  cases s with
  | nil => rfl
  | cons v s => rw [substitute, if_neg h]

theorem isSome_substitute_jsonEscaped {matched : Units} (matched' : Units) {target : Units}
    (h : (substitute matched target).isSome = true) : (substitute matched' (jsonEscaped target)).isSome = true := by
  have hcons : ∀ (u : UInt16) (s : Units), (substitute matched' (jsonEscaped s)).isSome = true → u ≠ unit '$' →
      (substitute matched' (jsonEscaped (u :: s))).isSome = true := by
    intro u s hs hu
    rw [jsonEscaped, List.flatMap_cons]
    by_cases hslash : u = unit '/'
    · subst hslash
      change (substitute matched' (unit '\\' :: unit '/' :: jsonEscaped s)).isSome = true
      rw [substitute_of_ne (by decide), substitute_of_ne (by decide), Option.isSome_map, Option.isSome_map]
      exact hs
    · rw [if_neg hslash]
      change (substitute matched' (u :: jsonEscaped s)).isSome = true
      rw [substitute_of_ne hu, Option.isSome_map]
      exact hs
  fun_induction substitute matched target with
  | case1 => rfl
  | case2 u =>
    by_cases hu : u = unit '$'
    · subst hu
      rfl
    · exact hcons u [] rfl hu
  | case3 template ih =>
    rw [Option.isSome_map] at h
    change (substitute matched' (unit '$' :: unit '$' :: jsonEscaped template)).isSome = true
    rw [substitute, if_pos rfl, if_pos rfl, Option.isSome_map]
    exact ih h
  | case4 template _ ih =>
    rw [Option.isSome_map] at h
    change (substitute matched' (unit '$' :: unit '&' :: jsonEscaped template)).isSome = true
    rw [substitute, if_pos rfl, if_neg (by decide), if_pos rfl, Option.isSome_map]
    exact ih h
  | case5 => cases h
  | case6 v template hv hv' hv'' ih =>
    rw [Option.isSome_map] at h
    obtain ⟨w, rest, heq, hw⟩ : ∃ w rest, jsonEscaped (v :: template) = w :: rest ∧ (w = v ∨ w = unit '\\') := by
      rw [jsonEscaped, List.flatMap_cons]
      by_cases hslash : v = unit '/'
      · rw [if_pos hslash]
        exact ⟨_, _, rfl, .inr rfl⟩
      · rw [if_neg hslash]
        exact ⟨_, _, rfl, .inl rfl⟩
    have hnot : ∀ c : Char, unit '\\' ≠ unit c → v ≠ unit c → w ≠ unit c := by
      rintro c hc hvc rfl
      rcases hw with hw | hw
      · exact hvc hw.symm
      · exact hc hw.symm
    rw [not_or] at hv''
    have hspecial : ¬(w = unit '`' ∨ w = unit '\'') := by
      rw [not_or]
      exact ⟨hnot '`' (by decide) hv''.1, hnot '\'' (by decide) hv''.2⟩
    have hrest := ih h
    rw [heq] at hrest
    change (substitute matched' (unit '$' :: jsonEscaped (v :: template))).isSome = true
    rw [heq, substitute, if_pos rfl, if_neg (hnot '$' (by decide) hv), if_neg (hnot '&' (by decide) hv'), if_neg hspecial,
      Option.isSome_map]
    exact hrest
  | case7 u v template hu ih =>
    rw [Option.isSome_map] at h
    exact hcons u (v :: template) (ih h) hu

def OriginPair.jsonEscaped (p : OriginPair) : OriginPair where
  source := Staging.jsonEscaped p.source
  target := Staging.jsonEscaped p.target
  ascii := by
    intro u hu
    rcases mem_jsonEscaped hu with hu | rfl
    · exact p.ascii u hu
    · decide
  inserted := isSome_substitute_jsonEscaped _ p.inserted

def originRewritePairs (p : OriginPair) : List OriginPair := [p, p.jsonEscaped]

def afterOrigin (u : UInt16) : Bool :=
  "/\"'?#<>),;\\]\x7d&|".toList.any (fun c => u = unit c) || isSpace (unitChar u)

def rewriteOrigins (text : Units) (pairs : List OriginPair) : Units :=
  pairs.foldl (fun out p => if p.source.length = 0 then out else rewrite p.source afterOrigin p.insertion out) text

/-! ### The stream -/

structure RewriteState where
  decoder : Decoder
  pending : Units

/-- The first places are the ones that `indexOf` finds one after the other from `start` on. -/
def standsFrom (source pending : Units) (start : Nat) : List Nat :=
  (List.range pending.length).filter fun at_ => start ≤ at_ && source.isPrefixOf (pending.drop at_)

/-- An occurrence that reaches the cut moves it to its start. -/
def moveCut (pending : Units) (cut : Nat) (source : Units) : Nat :=
  let starts := (standsFrom source pending (cut - source.length)).takeWhile fun at_ => at_ < cut
  (starts.find? fun at_ => cut ≤ at_ + source.length).getD cut

/-- A match plus the one character that decides whether it is whole. -/
def keep (sources : List Units) : Nat := (sources.map List.length).foldl max 0

/-- How much of what is pending can go on; at `0` nothing does. -/
def cutIndex (sources : List Units) (pending : Units) : Nat :=
  sources.foldl (moveCut pending) (pending.length - keep sources)

def transform (sources : List Units) (chunk : List Nat) (s : RewriteState) : RewriteState × Units :=
  let decoded := s.decoder.decode chunk
  let pending := s.pending ++ decoded.2.flatMap charUnits
  let cut := cutIndex sources pending
  (⟨decoded.1, pending.drop cut⟩, pending.take cut)

def flush (s : RewriteState) : Units := s.pending ++ s.decoder.flush.flatMap charUnits

/-- The pieces of the text, as they go on. -/
def heads (sources : List Units) : RewriteState → List (List Nat) → List Units
  | s, [] => [flush s]
  | s, chunk :: chunks => (transform sources chunk s).2 :: heads sources (transform sources chunk s).1 chunks

def usablePairs (pairs : List OriginPair) : List OriginPair := pairs.filter fun p => 0 < p.source.length

def usableSources (pairs : List OriginPair) : List Units := (usablePairs pairs).map OriginPair.source

def replaceAll (patterns : List OriginPair) (text : Units) : Units :=
  patterns.foldl (fun out p => rewrite p.source afterOrigin p.insertion out) text

def pieces (pairs : List OriginPair) (chunks : List (List Nat)) : List Units :=
  heads (usableSources pairs) ⟨Decoder.start, []⟩ chunks

def originRewriteStream (pairs : List OriginPair) (chunks : List (List Nat)) : List (List Nat) :=
  ((pieces pairs chunks).filter fun head => !head.isEmpty).map fun head => textEncode (replaceAll (usablePairs pairs) head)

/-! ### Agreement -/

/-- The stream writes what the rewriting of the whole text is. -/
def Agrees (pairs : List OriginPair) (text : List Char) (chunks : List (List Nat)) : Prop :=
  (originRewriteStream pairs chunks).flatten = textEncode (rewriteOrigins (text.flatMap charUnits) pairs)

/-- For one origin after the other, the pieces as the origins before it left them are read like their text, and no
surrogate pair is cut in the end. -/
def Clean : List OriginPair → List Units → Prop
  | [], ps => NoCutPair ps
  | p :: pairs, ps =>
    if p.source.length = 0 then Clean pairs ps
    else AllUncut p.source afterOrigin ps ∧ Clean pairs (ps.map (rewrite p.source afterOrigin p.insertion))

/-- The text does not start with a byte order mark, and the pieces are clean. -/
structure CutsSafe (pairs : List OriginPair) (text : List Char) (chunks : List (List Nat)) : Prop where
  noMark : text.head? ≠ some '\uFEFF'
  clean : Clean pairs (pieces pairs chunks)

def SameSources (pairs pairs' : List OriginPair) : Prop := pairs'.map OriginPair.source = pairs.map OriginPair.source

theorem flatten_heads (sources : List Units) (s : RewriteState) (chunks : List (List Nat)) :
    (heads sources s chunks).flatten = s.pending ++ (decodeChunks s.decoder chunks).flatMap charUnits := by
  induction chunks generalizing s with
  | nil =>
    rw [heads, List.flatten_singleton, flush, decodeChunks]
  | cons chunk chunks ih =>
    rw [heads, List.flatten_cons, ih, decodeChunks, List.flatMap_append]
    change List.take _ _ ++ (List.drop _ _ ++ _) = _
    rw [← List.append_assoc, List.take_append_drop, List.append_assoc]
    rfl

theorem flatten_pieces {pairs : List OriginPair} {text : List Char} {chunks : List (List Nat)}
    (h : chunks.flatten = utf8 text) : (pieces pairs chunks).flatten = (dropMark false text).flatMap charUnits := by
  rw [pieces, flatten_heads, decodeChunks_utf8 h, List.nil_append]

theorem usableSources_congr {pairs pairs' : List OriginPair} (h : SameSources pairs pairs') :
    usableSources pairs' = usableSources pairs := by
  have hfilter : ∀ l : List OriginPair,
      usableSources l = (l.map OriginPair.source).filter fun source => 0 < source.length := by
    intro l
    rw [List.filter_map]
    rfl
  rw [hfilter, hfilter, h]

theorem replaceAll_usable (pairs : List OriginPair) (text : Units) :
    replaceAll (usablePairs pairs) text = rewriteOrigins text pairs := by
  induction pairs generalizing text with
  | nil => rfl
  | cons p pairs ih =>
    rw [rewriteOrigins, List.foldl_cons, usablePairs]
    by_cases h : p.source.length = 0
    · rw [List.filter_cons_of_neg (by simp [h]), if_pos h]
      exact ih text
    · rw [List.filter_cons_of_pos (by simpa [Nat.pos_iff_ne_zero] using h), if_neg h]
      exact ih _

/-! ### Rewriting piece by piece -/

section

variable {p : OriginPair} {pairs : List OriginPair} {text : Units} {ps : List Units}

theorem rewriteOrigins_of_empty (h : p.source.length = 0) :
    rewriteOrigins text (p :: pairs) = rewriteOrigins text pairs := by
  rw [rewriteOrigins, List.foldl_cons, if_pos h, rewriteOrigins]

theorem rewriteOrigins_cons (h : ¬p.source.length = 0) :
    rewriteOrigins text (p :: pairs) = rewriteOrigins (rewrite p.source afterOrigin p.insertion text) pairs := by
  rw [rewriteOrigins, List.foldl_cons, if_neg h, rewriteOrigins]

theorem map_rewriteOrigins_cons (h : ¬p.source.length = 0) :
    ps.map (fun s => rewriteOrigins s (p :: pairs)) =
      (ps.map (rewrite p.source afterOrigin p.insertion)).map fun s => rewriteOrigins s pairs := by
  rw [List.map_map]
  exact List.map_congr_left fun s _ => rewriteOrigins_cons h

theorem rewriteOrigins_nil (pairs : List OriginPair) : rewriteOrigins [] pairs = [] := by
  induction pairs with
  | nil => rfl
  | cons p pairs ih =>
    by_cases h : p.source.length = 0
    · rw [rewriteOrigins_of_empty h, ih]
    · rw [rewriteOrigins_cons h, rewrite_nil, ih]

theorem ne_nil_of_length (h : ¬p.source.length = 0) : p.source ≠ [] := fun hnil => h (List.length_eq_zero_iff.2 hnil)

theorem Clean.usvChars_eq (h : Clean pairs ps) :
    usvChars (rewriteOrigins ps.flatten pairs) = (ps.map fun s => rewriteOrigins s pairs).flatMap usvChars := by
  induction pairs generalizing ps with
  | nil =>
    change usvChars ps.flatten = (ps.map id).flatMap usvChars
    rw [usvChars_flatten h, List.map_id]
  | cons p pairs ih =>
    rw [Clean] at h
    by_cases hp : p.source.length = 0
    · rw [if_pos hp] at h
      rw [rewriteOrigins_of_empty hp, ih h]
      exact congrArg (List.flatMap usvChars) (List.map_congr_left fun s _ => (rewriteOrigins_of_empty hp).symm)
    · rw [if_neg hp] at h
      rw [rewriteOrigins_cons hp, rewrite_flatten (ne_nil_of_length hp) h.1, ih h.2, map_rewriteOrigins_cons hp]

/-- The pair that puts every match back. -/
def keptPair (p : OriginPair) : OriginPair := ⟨p.source, [unit '$', unit '&'], p.ascii, rfl⟩

/-- The pair that puts one unit in place of a match. -/
def markedPair (p : OriginPair) (u : UInt16) : OriginPair := ⟨p.source, [u], p.ascii, rfl⟩

theorem insertion_keptPair (p : OriginPair) : (keptPair p).insertion = p.source := List.append_nil p.source

theorem rewriteOrigins_kept (text : Units) (pairs : List OriginPair) : rewriteOrigins text (pairs.map keptPair) = text := by
  induction pairs generalizing text with
  | nil => rfl
  | cons p pairs ih =>
    rw [List.map_cons]
    by_cases h : (keptPair p).source.length = 0
    · rw [rewriteOrigins_of_empty h, ih]
    · rw [rewriteOrigins_cons h, insertion_keptPair, ih]
      exact rewrite_self (ne_nil_of_length h) text

theorem map_source_kept (pairs : List OriginPair) :
    (pairs.map keptPair).map OriginPair.source = pairs.map OriginPair.source := by
  rw [List.map_map]
  rfl

theorem isPlain_of_ascii {u : UInt16} (h : u < 128) : isPlain u = true := by
  have hvalue : u.toNat < 128 := UInt16.lt_iff_toNat_lt.1 h
  have hlone : (isHighSurrogate u || isLowSurrogate u) = false := by
    rw [Bool.eq_false_iff, Ne, isSurrogate_iff]
    omega
  have hmark : u ≠ 0xFFFD := by
    rintro rfl
    exact absurd hvalue (by decide)
  rw [isPlain, hlone, bne_iff_ne.2 hmark]
  rfl

/-- A mark in place of the matches shows a cut that the search sees. -/
theorem allUncut_of_marked (hp : ¬p.source.length = 0) {u : UInt16} (hu : isPlain u = true) (hne : u ≠ p.source.head!)
    (h : usvChars (rewrite p.source afterOrigin [u] ps.flatten) =
      (ps.map (rewrite p.source afterOrigin [u])).flatMap usvChars) : AllUncut p.source afterOrigin ps := by
  have hneedle := ne_nil_of_length hp
  rw [← tokens_flatten_iff hneedle]
  have hself : expand p.source (tokens p.source afterOrigin ps.flatten) =
      expand p.source (ps.map (tokens p.source afterOrigin)).flatten := by
    rw [expand_flatten, List.map_map]
    have hid : ps.map (expand p.source ∘ tokens p.source afterOrigin) = ps :=
      (List.map_congr_left fun s _ => rewrite_self hneedle s).trans (List.map_id ps)
    rw [hid]
    exact rewrite_self hneedle ps.flatten
  have hmarked := congrArg (List.filterMap plainUnit) h
  rw [filterMap_usvChars, filterMap_flatMap_usvChars] at hmarked
  have hflatten : (ps.map (rewrite p.source afterOrigin [u])).flatten =
      expand [u] (ps.map (tokens p.source afterOrigin)).flatten := by
    rw [expand_flatten, List.map_map]
    rfl
  rw [hflatten] at hmarked
  obtain ⟨x, rest, hsource⟩ := List.exists_cons_of_ne_nil hneedle
  have hx : isPlain x = true := isPlain_of_ascii (p.ascii x (hsource ▸ List.mem_cons_self))
  rw [hsource] at hself hmarked hne ⊢
  exact expand_injective isPlain hx hu hne hself hmarked

theorem exists_pairs_of_not_clean (h : ¬Clean pairs ps) : ∃ pairs', SameSources pairs pairs' ∧
    usvChars (rewriteOrigins ps.flatten pairs') ≠ (ps.map fun s => rewriteOrigins s pairs').flatMap usvChars := by
  induction pairs generalizing ps with
  | nil =>
    refine ⟨[], rfl, ?_⟩
    intro heq
    change usvChars ps.flatten = (ps.map id).flatMap usvChars at heq
    rw [List.map_id] at heq
    exact h (usvChars_flatten_iff.1 heq)
  | cons p pairs ih =>
    rw [Clean] at h
    by_cases hp : p.source.length = 0
    · rw [if_pos hp] at h
      obtain ⟨pairs', hsame, hdiffer⟩ := ih h
      refine ⟨p :: pairs', ?_, ?_⟩
      · rw [SameSources, List.map_cons, List.map_cons, hsame]
      · intro heq
        rw [rewriteOrigins_of_empty hp] at heq
        refine hdiffer (heq.trans ?_)
        exact congrArg (List.flatMap usvChars) (List.map_congr_left fun s _ => rewriteOrigins_of_empty hp)
    · rw [if_neg hp] at h
      by_cases hcut : AllUncut p.source afterOrigin ps
      · obtain ⟨pairs', hsame, hdiffer⟩ := ih fun hclean => h ⟨hcut, hclean⟩
        refine ⟨p :: pairs', ?_, ?_⟩
        · rw [SameSources, List.map_cons, List.map_cons, hsame]
        · rw [rewriteOrigins_cons hp, rewrite_flatten (ne_nil_of_length hp) hcut, map_rewriteOrigins_cons hp]
          exact hdiffer
      · obtain ⟨u, hu, hne⟩ : ∃ u, isPlain u = true ∧ u ≠ p.source.head! := by
          by_cases ha : p.source.head! = unit 'a'
          · exact ⟨unit 'b', rfl, by rw [ha]; decide⟩
          · exact ⟨unit 'a', rfl, Ne.symm ha⟩
        refine ⟨markedPair p u :: pairs.map keptPair, ?_, ?_⟩
        · rw [SameSources, List.map_cons, map_source_kept, List.map_cons]
          rfl
        · have hmarked : ¬(markedPair p u).source.length = 0 := hp
          rw [rewriteOrigins_cons hmarked, rewriteOrigins_kept, map_rewriteOrigins_cons hmarked]
          have hkept : ∀ l : List Units, (l.map fun s => rewriteOrigins s (pairs.map keptPair)) = l := fun l =>
            (List.map_congr_left fun s _ => rewriteOrigins_kept s pairs).trans (List.map_id l)
          rw [hkept]
          exact fun heq => hcut (allUncut_of_marked hp hu hne heq)

end

/-! ### The stream and the whole text -/

variable {pairs : List OriginPair} {text : List Char} {chunks : List (List Nat)}

theorem flatten_originRewriteStream (pairs : List OriginPair) (chunks : List (List Nat)) :
    (originRewriteStream pairs chunks).flatten =
      utf8 (((pieces pairs chunks).map fun head => rewriteOrigins head pairs).flatMap usvChars) := by
  rw [originRewriteStream]
  induction pieces pairs chunks with
  | nil => rfl
  | cons head heads ih =>
    rw [List.map_cons, List.flatMap_cons, utf8_append, ← ih]
    cases head with
    | nil => rw [rewriteOrigins_nil]; rfl
    | cons u head =>
      rw [List.filter_cons_of_pos rfl, List.map_cons, List.flatten_cons, replaceAll_usable, textEncode]

theorem agrees_iff : Agrees pairs text chunks ↔
    usvChars (rewriteOrigins (text.flatMap charUnits) pairs) =
      ((pieces pairs chunks).map fun head => rewriteOrigins head pairs).flatMap usvChars := by
  rw [Agrees, flatten_originRewriteStream, textEncode]
  exact ⟨fun h => (utf8_injective h).symm, fun h => congrArg utf8 h.symm⟩

theorem pieces_congr {pairs' : List OriginPair} (h : SameSources pairs pairs') : pieces pairs' chunks = pieces pairs chunks := by
  rw [pieces, usableSources_congr h, pieces]

theorem flatten_pieces_of_noMark (pairs : List OriginPair) (hchunks : chunks.flatten = utf8 text) (h : text.head? ≠ some '\uFEFF') :
    (pieces pairs chunks).flatten = text.flatMap charUnits := by
  rw [flatten_pieces hchunks]
  cases text with
  | nil => rfl
  | cons c text => rw [dropMark, if_neg fun hmark => h (congrArg some hmark.2)]

theorem not_agrees_kept (hchunks : chunks.flatten = utf8 text) (h : text.head? = some '\uFEFF') :
    ¬Agrees (pairs.map keptPair) text chunks := by
  obtain ⟨text, rfl⟩ : ∃ rest, text = '\uFEFF' :: rest := by
    cases text with
    | nil => cases h
    | cons c rest => exact ⟨rest, by rw [Option.some.inj h]⟩
  intro hagrees
  have hkept : ∀ l : List Units, (l.map fun s => rewriteOrigins s (pairs.map keptPair)) = l := fun l =>
    (List.map_congr_left fun s _ => rewriteOrigins_kept s pairs).trans (List.map_id l)
  rw [agrees_iff, rewriteOrigins_kept, hkept] at hagrees
  have hplain := congrArg (List.filterMap plainUnit) hagrees
  rw [filterMap_usvChars, filterMap_flatMap_usvChars, flatten_pieces hchunks, dropMark, if_pos ⟨Bool.false_ne_true, rfl⟩,
    List.flatMap_cons, List.filter_append] at hplain
  exact absurd hplain (List.cons_ne_self _ _)

def exampleOrigins : OriginPair where
  source := units "https://a.io"
  target := units "https://b.a.io"
  ascii := by
    have hall : (units "https://a.io").all (fun u => u < 128) = true := by decide +kernel
    exact fun u hu => of_decide_eq_true (List.all_eq_true.1 hall u hu)
  inserted := by decide +kernel

/-- An origin stands directly before another one, whose start is where the cut goes. -/
def exampleText : List Char := "https://a.iohttps://a.io/about".toList

instance (pairs : List OriginPair) (text : List Char) (chunks : List (List Nat)) : Decidable (Agrees pairs text chunks) :=
  inferInstanceAs (Decidable (_ = _))

end CaeloCms.Staging
