import CaeloCms.Lists.Fields

/-!
# Value addresses

The address of a stored value (`address.ts`): how it is written, and how it is read.  An address is read back exactly
when each of its parts is spelled as its place asks (`parseValueAddress_format_iff`), and an address that is read is
written as it was (`formatValueAddress_of_parse`).
-/

namespace CaeloCms.Lists

inductive ValueAddress
  | list (listId itemId field : String)
  | instance_ (contentInstanceId field itemId itemField : String)
  | pageProp (pageId field : String)
  /-- An entry of a plugin list source, by its stable entry id. -/
  | pluginSource (source itemId field : String)
  | listTypeField (listTypeId node field : String)
deriving DecidableEq, Repr

/-! ### Segments -/

/-- `[a-z0-9_-]` -/
def isSegChar (c : Char) : Bool := Redirect.isDigit c || ('a' ≤ c && c ≤ 'z') || c == '_' || c == '-'

/-- `[A-Za-z0-9_.:-]` -/
def isSourceChar (c : Char) : Bool := isSegChar c || ('A' ≤ c && c ≤ 'Z') || c == '.' || c == ':'

def isSeg (s : String) : Bool := !s.toList.isEmpty && s.toList.all isSegChar

def isSourceEntry (s : String) : Bool := !s.toList.isEmpty && s.toList.length ≤ 128 && s.toList.all isSourceChar

/-- The parts of a text between its slashes. -/
def segments (s : String) : List String := (s.toList.splitOn '/').map String.ofList

def joined (parts : List String) : String := String.ofList (List.intercalate ['/'] (parts.map String.toList))

theorem joined_segments (s : String) : joined (segments s) = s := by
  have hback : (segments s).map String.toList = s.toList.splitOn '/' := by
    rw [segments, List.map_map]
    exact (List.map_congr_left fun l _ => String.toList_ofList).trans (List.map_id' _)
  rw [joined, hback, List.intercalate_splitOn, String.ofList_toList]

theorem segments_joined {parts : List String} (hne : parts ≠ []) (h : ∀ p ∈ parts, '/' ∉ p.toList) :
    segments (joined parts) = parts := by
  rw [segments, joined, String.toList_ofList, List.splitOn_intercalate]
  · rw [List.map_map]
    exact (List.map_congr_left fun p _ => String.ofList_toList).trans (List.map_id' _)
  · intro l hl
    obtain ⟨p, hp, rfl⟩ := List.mem_map.1 hl
    exact h p hp
  · exact fun hnil => hne (List.map_eq_nil_iff.1 hnil)

variable {s : String} {a : ValueAddress}

theorem slash_of_isSeg (h : isSeg s = true) : '/' ∉ s.toList := by
  intro hmem
  rw [isSeg, Bool.and_eq_true] at h
  exact absurd (List.all_eq_true.1 h.2 _ hmem) (by decide)

theorem slash_of_isSourceEntry (h : isSourceEntry s = true) : '/' ∉ s.toList := by
  intro hmem
  rw [isSourceEntry, Bool.and_eq_true] at h
  exact absurd (List.all_eq_true.1 h.2 _ hmem) (by decide)

/-! ### The patterns -/

/-- A part of a pattern: a word, or a group of the characters its place asks for. -/
inductive Piece
  | word (text : String)
  | group (fits : String → Bool)

/-- The groups of a pattern, in their order, when it matches all the parts. -/
def exec : List Piece → List String → Option (List String)
  | [], [] => some []
  | .word text :: pattern, s :: parts => if s = text then exec pattern parts else none
  | .group fits :: pattern, s :: parts => if fits s then (exec pattern parts).map (s :: ·) else none
  | _, _ => none

def LIST_VALUE_RE : List Piece := [.word "list", .group isSeg, .word "item", .group isSeg, .group isSeg]

/-- `instance/(SEG)/(SEG)/item/(SEG)/(SEG)` -/
def INSTANCE_VALUE_RE : List Piece :=
  [.word "instance", .group isSeg, .group isSeg, .word "item", .group isSeg, .group isSeg]

def PAGE_PROP_RE : List Piece := [.word "page", .group isSeg, .word "props", .group isSeg]

def LIST_TYPE_RE : List Piece := [.word "list_type", .group isSeg, .word "node", .group isSeg, .group isSeg]

def SOURCE_RE : List Piece := [.word "source", .group isSeg, .word "item", .group isSourceEntry, .group isSeg]

def FitsPattern : List Piece → List String → Prop
  | [], groups => groups = []
  | .word _ :: pattern, groups => FitsPattern pattern groups
  | .group _ :: _, [] => False
  | .group fits :: pattern, g :: groups => fits g = true ∧ FitsPattern pattern groups

/-- The parts a pattern matches with these groups. -/
def fill : List Piece → List String → List String
  | [], _ => []
  | .word text :: pattern, groups => text :: fill pattern groups
  | .group _ :: _, [] => []
  | .group _ :: pattern, g :: groups => g :: fill pattern groups

theorem exec_eq_some_iff {pattern : List Piece} :
    ∀ {parts groups}, exec pattern parts = some groups ↔ FitsPattern pattern groups ∧ parts = fill pattern groups := by
  induction pattern with
  | nil =>
    intro parts groups
    cases parts <;> simp [exec, FitsPattern, fill, eq_comm]
  | cons piece pattern ih =>
    intro parts groups
    cases parts with
    | nil =>
      cases piece <;> cases groups <;> simp [exec, FitsPattern, fill]
    | cons s parts =>
      cases piece with
      | word text =>
        by_cases hs : s = text
        · simp [exec, FitsPattern, fill, hs, ih]
        · simp [exec, fill, hs]
      | group fits =>
        cases groups with
        | nil => simp [exec, FitsPattern]
        | cons g groups =>
          by_cases hs : fits s = true
          · simp only [exec, hs, if_true, Option.map_eq_some_iff, List.cons.injEq, exists_eq_right_right, ih, FitsPattern, fill]
            constructor
            · rintro ⟨⟨hfits, rfl⟩, rfl⟩
              exact ⟨⟨hs, hfits⟩, rfl, rfl⟩
            · rintro ⟨⟨-, hfits⟩, rfl, rfl⟩
              exact ⟨⟨hfits, rfl⟩, rfl⟩
          · simp only [exec, hs, FitsPattern, fill, List.cons.injEq]
            constructor
            · intro h
              cases h
            · rintro ⟨⟨hg, -⟩, rfl, -⟩
              exact absurd hg hs

/-! ### Writing and reading -/

def formatValueAddress : ValueAddress → String
  | .list listId itemId field => s!"list/{listId}/item/{itemId}/{field}"
  | .instance_ contentInstanceId field itemId itemField =>
    s!"instance/{contentInstanceId}/{field}/item/{itemId}/{itemField}"
  | .pageProp pageId field => s!"page/{pageId}/props/{field}"
  | .pluginSource source itemId field => s!"source/{source}/item/{itemId}/{field}"
  | .listTypeField listTypeId node field => s!"list_type/{listTypeId}/node/{node}/{field}"

def listOf : List String → Option ValueAddress
  | [listId, itemId, field] => some (.list listId itemId field)
  | _ => none

def instanceOf : List String → Option ValueAddress
  | [ci, field, itemId, itemField] => some (.instance_ ci field itemId itemField)
  | _ => none

def pagePropOf : List String → Option ValueAddress
  | [pageId, field] => some (.pageProp pageId field)
  | _ => none

def listTypeOf : List String → Option ValueAddress
  | [listTypeId, node, field] => some (.listTypeField listTypeId node field)
  | _ => none

def pluginSourceOf : List String → Option ValueAddress
  | [source, itemId, field] => some (.pluginSource source itemId field)
  | _ => none

def parseValueAddress (s : String) : Option ValueAddress :=
  let parts := segments s
  ((exec LIST_VALUE_RE parts).bind listOf) <|> ((exec INSTANCE_VALUE_RE parts).bind instanceOf) <|>
    ((exec PAGE_PROP_RE parts).bind pagePropOf) <|> ((exec LIST_TYPE_RE parts).bind listTypeOf) <|>
    ((exec SOURCE_RE parts).bind pluginSourceOf)

namespace ValueAddress

def pattern : ValueAddress → List Piece
  | list _ _ _ => LIST_VALUE_RE
  | instance_ _ _ _ _ => INSTANCE_VALUE_RE
  | pageProp _ _ => PAGE_PROP_RE
  | pluginSource _ _ _ => SOURCE_RE
  | listTypeField _ _ _ => LIST_TYPE_RE

def names : ValueAddress → List String
  | list l i f => [l, i, f]
  | instance_ c f i g => [c, f, i, g]
  | pageProp p f => [p, f]
  | pluginSource s i f => [s, i, f]
  | listTypeField l n f => [l, n, f]

def WellSpelled (a : ValueAddress) : Prop := FitsPattern a.pattern a.names

end ValueAddress

theorem formatValueAddress_eq (a : ValueAddress) : formatValueAddress a = joined (fill a.pattern a.names) := by
  apply String.toList_injective
  cases a <;> simp [formatValueAddress, joined, ValueAddress.pattern, ValueAddress.names, LIST_VALUE_RE,
    INSTANCE_VALUE_RE, PAGE_PROP_RE, LIST_TYPE_RE, SOURCE_RE, fill, List.intercalate, List.intersperse, toString]

theorem slash_of_fits {pattern : List Piece} (hwords : ∀ p ∈ pattern, ∀ w, p = .word w → '/' ∉ w.toList)
    (hgroups : ∀ p ∈ pattern, ∀ fits, p = .group fits → ∀ s, fits s = true → '/' ∉ s.toList) :
    ∀ {groups}, FitsPattern pattern groups → ∀ s ∈ fill pattern groups, '/' ∉ s.toList := by
  induction pattern with
  | nil =>
    intro groups _ s hs
    cases hs
  | cons piece pattern ih =>
    intro groups hfits s hs
    have hrest : ∀ {groups}, FitsPattern pattern groups → ∀ s ∈ fill pattern groups, '/' ∉ s.toList :=
      ih (fun p hp => hwords p (List.mem_cons_of_mem _ hp)) (fun p hp => hgroups p (List.mem_cons_of_mem _ hp))
    cases piece with
    | word text =>
      rcases List.mem_cons.1 hs with rfl | hs
      · exact hwords _ List.mem_cons_self _ rfl
      · exact hrest hfits s hs
    | group fits =>
      cases groups with
      | nil => cases hs
      | cons g groups =>
        rcases List.mem_cons.1 hs with rfl | hs
        · exact hgroups _ List.mem_cons_self _ rfl _ hfits.1
        · exact hrest hfits.2 s hs

theorem segments_format (h : a.WellSpelled) :
    segments (formatValueAddress a) = fill a.pattern a.names := by
  rw [formatValueAddress_eq]
  refine segments_joined ?_ (slash_of_fits ?_ ?_ h)
  · cases a <;> exact List.cons_ne_nil _ _
  · intro p hp w hw
    subst hw
    cases a <;> simp [ValueAddress.pattern, LIST_VALUE_RE, INSTANCE_VALUE_RE, PAGE_PROP_RE, LIST_TYPE_RE, SOURCE_RE]
      at hp <;> rcases hp with rfl | rfl <;> decide
  · intro p hp fits hf s hs
    subst hf
    have hkind : fits = isSeg ∨ fits = isSourceEntry := by
      cases a <;> simp [ValueAddress.pattern, LIST_VALUE_RE, INSTANCE_VALUE_RE, PAGE_PROP_RE, LIST_TYPE_RE, SOURCE_RE]
        at hp <;> tauto
    rcases hkind with rfl | rfl
    exacts [slash_of_isSeg hs, slash_of_isSourceEntry hs]

theorem parse_of_segments (h : a.WellSpelled) (hs : segments s = fill a.pattern a.names) :
    parseValueAddress s = some a := by
  have hown : exec a.pattern (segments s) = some a.names := exec_eq_some_iff.2 ⟨h, hs⟩
  unfold parseValueAddress
  rw [hs] at hown ⊢
  cases a <;> simp only [ValueAddress.pattern] at hown ⊢ <;> simp only [hown] <;>
    simp [ValueAddress.names, fill, exec, LIST_VALUE_RE, INSTANCE_VALUE_RE, PAGE_PROP_RE, LIST_TYPE_RE, SOURCE_RE,
      listOf, instanceOf, pagePropOf, listTypeOf, pluginSourceOf]

theorem spelled_of_parse (h : parseValueAddress s = some a) :
    a.WellSpelled ∧ segments s = fill a.pattern a.names := by
  have hread : ∀ {pattern read}, (exec pattern (segments s)).bind read = some a →
      ∃ groups, (FitsPattern pattern groups ∧ segments s = fill pattern groups) ∧ read groups = some a := by
    intro pattern read hbind
    obtain ⟨groups, hexec, hread⟩ := Option.bind_eq_some_iff.1 hbind
    exact ⟨groups, exec_eq_some_iff.1 hexec, hread⟩
  simp only [parseValueAddress, Option.orElse_eq_orElse, Option.orElse_eq_or, Option.or_eq_some_iff] at h
  rcases h with h | ⟨-, h | ⟨-, h | ⟨-, h | ⟨-, h⟩⟩⟩⟩
  · obtain ⟨groups, hgroups, hread⟩ := hread h
    unfold listOf at hread
    split at hread <;> cases hread
    exact hgroups
  · obtain ⟨groups, hgroups, hread⟩ := hread h
    unfold instanceOf at hread
    split at hread <;> cases hread
    exact hgroups
  · obtain ⟨groups, hgroups, hread⟩ := hread h
    unfold pagePropOf at hread
    split at hread <;> cases hread
    exact hgroups
  · obtain ⟨groups, hgroups, hread⟩ := hread h
    unfold listTypeOf at hread
    split at hread <;> cases hread
    exact hgroups
  · obtain ⟨groups, hgroups, hread⟩ := hread h
    unfold pluginSourceOf at hread
    split at hread <;> cases hread
    exact hgroups

theorem parseValueAddress_format_iff (a : ValueAddress) :
    parseValueAddress (formatValueAddress a) = some a ↔ a.WellSpelled :=
  ⟨fun h => (spelled_of_parse h).1, fun h => parse_of_segments h (segments_format h)⟩

theorem formatValueAddress_of_parse (h : parseValueAddress s = some a) :
    formatValueAddress a = s := by
  rw [formatValueAddress_eq, ← (spelled_of_parse h).2, joined_segments]

end CaeloCms.Lists
