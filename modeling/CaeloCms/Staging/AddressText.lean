import CaeloCms.Staging.Address

/-!
# The spellings of an address

An IPv4 address is four decimal numbers with dots between them (`Quad`), an IPv6 address eight hexadecimal groups with colons
between them, of which one run of zeros may be left out at a `::` and the last two may be given as an IPv4 address (`Six`).
`parseIpv4` and `parseIpv6` accept these spellings and no others (`parseIpv4_iff`, `parseIpv6_iff`): the source puts two
zero groups for a dotted tail and then puts the tail's bytes for theirs, so both readings are compared on the parts between
the colons (`Parts`).
-/

namespace CaeloCms.Staging

/-! ### Spellings -/

/-- A decimal number of at most three digits that fits a byte. -/
structure Octet (s : List Char) (n : Nat) : Prop where
  short : isShortNumber s = true
  value : n = digitsNumber s
  le : n ≤ 255

inductive Quad : List Char → List Nat → Prop
  | mk {a b c d : List Char} {w x y z : Nat} (ha : Octet a w) (hb : Octet b x) (hc : Octet c y) (hd : Octet d z) :
      Quad (a ++ '.' :: (b ++ '.' :: (c ++ '.' :: d))) [w, x, y, z]

/-- At most four hexadecimal digits and the two bytes they stand for. -/
def Group (g : List Char) (bytes : List Nat) : Prop :=
  1 ≤ g.length ∧ g.length ≤ 4 ∧ ∃ digits, g.mapM Web.hexDigitValue = some digits ∧
    bytes = [digits.foldl (fun n d => 16 * n + d) 0 / 256, digits.foldl (fun n d => 16 * n + d) 0 % 256]

abbrev Run (gs : List (List Char)) (bs : List (List Nat)) : Prop := List.Forall₂ Group gs bs

def joined (parts : List (List Char)) : List Char := [':'].intercalate parts

/-- The bytes of groups that are zero. -/
def zeros (n : Nat) : List Nat := List.replicate (2 * n) 0

inductive Six : List Char → List Nat → Prop
  | full {gs : List (List Char)} {bs : List (List Nat)} (h : Run gs bs) (hlength : gs.length = 8) :
      Six (joined gs) bs.flatten
  | compressed {hs rs : List (List Char)} {hb rb : List (List Nat)} (hhead : Run hs hb) (hrest : Run rs rb)
      (hlength : hs.length + rs.length ≤ 7) :
      Six (joined hs ++ ':' :: ':' :: joined rs) (hb.flatten ++ zeros (8 - (hs.length + rs.length)) ++ rb.flatten)
  | fullQuad {gs : List (List Char)} {bs : List (List Nat)} {q : List Char} {tail : List Nat} (h : Run gs bs)
      (hq : Quad q tail) (hlength : gs.length = 6) : Six (joined (gs ++ [q])) (bs.flatten ++ tail)
  | compressedQuad {hs rs : List (List Char)} {hb rb : List (List Nat)} {q : List Char} {tail : List Nat}
      (hhead : Run hs hb) (hrest : Run rs rb) (hq : Quad q tail) (hlength : hs.length + rs.length ≤ 5) :
      Six (joined hs ++ ':' :: ':' :: joined (rs ++ [q]))
        (hb.flatten ++ zeros (6 - (hs.length + rs.length)) ++ rb.flatten ++ tail)

/-! ### IPv4 -/

variable {bs : List (List Nat)} {s g text q : List Char} {bytes : List Nat} {gs xs : List (List Char)} {c : Char}
  {n : Nat}

theorem octet_iff {p : List Char} :
    (if isShortNumber p && decide (digitsNumber p ≤ 255) then some (digitsNumber p) else none) = some n ↔ Octet p n := by
  constructor
  · intro h
    split at h
    · rename_i hcond
      rw [Bool.and_eq_true, decide_eq_true_eq] at hcond
      obtain rfl := Option.some.inj h
      exact ⟨hcond.1, rfl, hcond.2⟩
    · cases h
  · rintro ⟨hshort, rfl, hle⟩
    rw [hshort, decide_eq_true hle]
    rfl

theorem Octet.isDigit (h : Octet s n) (hc : c ∈ s) : isDigit c = true := by
  have hall := h.short
  unfold isShortNumber at hall
  rw [Bool.and_eq_true, List.all_eq_true] at hall
  exact hall.2 c hc

theorem Octet.notMem (h : Octet s n) (hc : Staging.isDigit c = false) : c ∉ s := by
  intro hmem
  rw [h.isDigit hmem] at hc
  cases hc

theorem parseIpv4_iff : parseIpv4 s = some bytes ↔ Quad s bytes := by
  unfold parseIpv4
  constructor
  · intro h
    dsimp only at h
    split at h
    · rename_i hlength
      rw [Words.mapM_eq_some_iff] at h
      have hjoin : ['.'].intercalate (s.splitOn '.') = s := List.intercalate_splitOn '.'
      generalize s.splitOn '.' = parts at h hlength hjoin
      obtain ⟨a, b, c, d, rfl⟩ := List.length_eq_four.1 hlength
      simp only [List.forall₂_cons_left_iff, List.forall₂_nil_left_iff] at h
      obtain ⟨w, _, ha, ⟨x, _, hb, ⟨y, _, hc, ⟨z, _, hd, rfl, rfl⟩, rfl⟩, rfl⟩, rfl⟩ := h
      have htext : ['.'].intercalate [a, b, c, d] = a ++ '.' :: (b ++ '.' :: (c ++ '.' :: d)) := by simp [List.intercalate]
      rw [← hjoin, htext]
      exact .mk (octet_iff.1 ha) (octet_iff.1 hb) (octet_iff.1 hc) (octet_iff.1 hd)
    · cases h
  · rintro ⟨ha, hb, hc, hd⟩
    have hdot : isDigit '.' = false := by decide
    rw [List.splitOn_append_cons_self_of_not_mem (ha.notMem hdot), List.splitOn_append_cons_self_of_not_mem (hb.notMem hdot),
      List.splitOn_append_cons_self_of_not_mem (hc.notMem hdot), List.splitOn_eq_singleton (hd.notMem hdot)]
    dsimp only
    rw [if_pos (List.length_eq_four.2 ⟨_, _, _, _, rfl⟩), Words.mapM_eq_some_iff]
    exact .cons (octet_iff.2 ha) (.cons (octet_iff.2 hb) (.cons (octet_iff.2 hc) (.cons (octet_iff.2 hd) .nil)))

theorem Quad.notMem (h : Quad s bytes) : ':' ∉ s := by
  obtain ⟨ha, hb, hc, hd⟩ := h
  have hcolon : isDigit ':' = false := by decide
  simp [ha.notMem hcolon, hb.notMem hcolon, hc.notMem hcolon, hd.notMem hcolon]

theorem Quad.dot_mem (h : Quad s bytes) : '.' ∈ s := by
  obtain ⟨ha, hb, hc, hd⟩ := h
  simp

/-! ### Groups -/

theorem groupBytes_iff : groupBytes g = some bytes ↔ Group g bytes := by
  unfold groupBytes Group
  constructor
  · intro h
    split at h
    · rename_i hlength
      obtain ⟨digits, hdigits, hbytes⟩ := Option.map_eq_some_iff.1 h
      exact ⟨hlength.1, hlength.2, digits, hdigits, hbytes.symm⟩
    · cases h
  · rintro ⟨hlow, hhigh, digits, hdigits, rfl⟩
    rw [if_pos ⟨hlow, hhigh⟩, hdigits]
    rfl

theorem mapM_groupBytes : gs.mapM groupBytes = some bs ↔ Run gs bs := by
  rw [Words.mapM_eq_some_iff]
  exact ⟨fun h => h.imp fun _ _ => groupBytes_iff.1, fun h => h.imp fun _ _ => groupBytes_iff.2⟩

theorem Group.ne_nil (h : Group g bytes) : g ≠ [] := by
  rintro rfl
  exact absurd h.1 (by decide)

theorem Group.isSome (h : Group g bytes) (hc : c ∈ g) :
    (Web.hexDigitValue c).isSome = true := by
  obtain ⟨-, -, digits, hdigits, -⟩ := h
  rw [Words.mapM_eq_some_iff] at hdigits
  obtain ⟨i, hi, rfl⟩ := List.getElem_of_mem hc
  have hget := hdigits.get hi (hdigits.length_eq ▸ hi)
  rw [List.get_eq_getElem] at hget
  rw [hget]
  rfl

theorem Group.notMem (h : Group g bytes)
    (hc : Web.hexDigitValue c = none) : c ∉ g := by
  intro hmem
  have hsome := h.isSome hmem
  rw [hc] at hsome
  cases hsome

theorem group_zero : Group ['0'] [0, 0] := ⟨by decide, by decide, [0], rfl, rfl⟩

theorem run_replicate (n : Nat) : Run (List.replicate n ['0']) (List.replicate n [0, 0]) := by
  induction n with
  | zero => exact .nil
  | succ n ih => exact .cons group_zero ih

theorem flatten_replicate (n : Nat) : (List.replicate n [0, 0]).flatten = zeros n := by
  induction n with
  | zero => rfl
  | succ n ih =>
    rw [List.replicate_succ, List.flatten_cons, ih, zeros, zeros, Nat.mul_succ, Nat.add_comm, List.replicate_add]
    rfl

theorem Run.mem (h : Run gs bs) (hg : g ∈ gs) :
    ∃ bytes, Group g bytes := by
  obtain ⟨i, hi, rfl⟩ := List.getElem_of_mem hg
  exact ⟨_, h.get hi (h.length_eq ▸ hi)⟩

theorem Run.length_flatten (h : Run gs bs) :
    bs.flatten.length = 2 * gs.length := by
  induction h with
  | nil => rfl
  | cons hg _ ih =>
    obtain ⟨-, -, digits, -, rfl⟩ := hg
    rw [List.flatten_cons, List.length_append, ih]
    simp only [List.length_cons, List.length_nil]
    omega

/-! ### Joining and splitting -/

theorem joined_append {ys : List (List Char)} (hx : xs ≠ []) (hy : ys ≠ []) :
    joined (xs ++ ys) = joined xs ++ ':' :: joined ys := by
  induction xs with
  | nil => exact absurd rfl hx
  | cons x xs ih =>
    unfold joined at ih ⊢
    by_cases hxs : xs = []
    · subst hxs
      rw [List.singleton_append, List.intercalate_cons_of_ne_nil hy, List.intercalate_singleton, List.append_assoc]
      rfl
    · rw [List.cons_append, List.intercalate_cons_of_ne_nil (by simp [hxs]), ih hxs,
        List.intercalate_cons_of_ne_nil hxs, List.append_assoc (x ++ [':'])]

theorem joined_singleton (x : List Char) : joined [x] = x := List.intercalate_singleton

theorem splitOn_joined {parts : List (List Char)} (hne : parts ≠ []) (h : ∀ p ∈ parts, ':' ∉ p) :
    (joined parts).splitOn ':' = parts := List.splitOn_intercalate ':' h hne

theorem Run.clean (h : Run gs bs) : ∀ g ∈ gs, ':' ∉ g := by
  intro g hg
  obtain ⟨bytes, hgroup⟩ := h.mem hg
  exact hgroup.notMem rfl

theorem joined_ne_nil (h : Run gs bs) (hne : gs ≠ []) : joined gs ≠ [] := by
  intro hnil
  have hsplit := splitOn_joined hne h.clean
  rw [hnil, List.splitOn_nil] at hsplit
  obtain ⟨bytes, hgroup⟩ := h.mem (hsplit ▸ List.mem_cons_self : [] ∈ gs)
  exact hgroup.ne_nil rfl

theorem groups_joined (h : Run gs bs) : groups (joined gs) = gs := by
  unfold groups
  by_cases hne : gs = []
  · subst hne
    rfl
  · have hempty : (joined gs).isEmpty = false := by simpa using joined_ne_nil h hne
    rw [hempty, splitOn_joined hne h.clean]
    rfl

theorem joined_groups (s : List Char) : joined (groups s) = s := by
  unfold groups
  cases hs : s.isEmpty with
  | true =>
    rw [List.isEmpty_iff.1 hs]
    rfl
  | false => exact List.intercalate_splitOn ':'

/-- There is no `::` in the text and no `:` at its end. -/
def Tame : List Char → Prop
  | [] => True
  | c :: s => (c = ':' → s ≠ [] ∧ s.head? ≠ some ':') ∧ Tame s

theorem tame_append (hg : ':' ∉ g) (hs : Tame s) : Tame (g ++ s) := by
  induction g with
  | nil => exact hs
  | cons c g ih =>
    rw [List.mem_cons, not_or] at hg
    exact ⟨fun hc => absurd hc.symm hg.1, ih hg.2⟩

theorem tame_joined (h : Run gs bs) : Tame (joined gs) := by
  induction h with
  | nil => trivial
  | @cons g b gs bs hgroup hrun ih =>
    have hclean : ':' ∉ g := hgroup.notMem rfl
    by_cases hne : gs = []
    · subst hne
      rw [joined_singleton, ← List.append_nil g]
      exact tame_append hclean trivial
    · rw [← List.singleton_append, joined_append (List.cons_ne_nil g []) hne, joined_singleton]
      refine tame_append hclean ⟨fun _ => ⟨joined_ne_nil hrun hne, ?_⟩, ih⟩
      -- the next group has a first digit
      cases hrun with
      | nil => exact absurd rfl hne
      | @cons g' b' gs' bs' hgroup' hrun' =>
        obtain ⟨c, cs, hg'⟩ := List.exists_cons_of_ne_nil hgroup'.ne_nil
        have hcolon : ':' ∉ g' := hgroup'.notMem rfl
        rw [hg', List.mem_cons, not_or] at hcolon
        have hhead : (joined (g' :: gs')).head? = some c := by
          by_cases hgs : gs' = []
          · rw [hgs, joined_singleton, hg']
            rfl
          · rw [← List.singleton_append, joined_append (List.cons_ne_nil g' []) hgs, joined_singleton, hg']
            rfl
        rw [hhead]
        exact fun heq => hcolon.1 (Option.some.inj heq).symm

theorem splitDouble_ne_nil (s : List Char) : splitDouble s ≠ [] := by
  fun_cases splitDouble s <;> simp_all

theorem splitDouble_cons (h : c = ':' → s.head? ≠ some ':') :
    splitDouble (c :: s) = (splitDouble s).modifyHead (c :: ·) := by
  rw [splitDouble]
  · cases hs : splitDouble s with
    | nil => exact absurd hs (splitDouble_ne_nil s)
    | cons part parts => rfl
  · rintro rest rfl rfl
    exact h rfl rfl

theorem splitDouble_append {a : List Char} (ha : Tame a) (b : List Char) :
    splitDouble (a ++ ':' :: ':' :: b) = a :: splitDouble b := by
  induction a with
  | nil => rw [List.nil_append, splitDouble]
  | cons c a ih =>
    have hhead : c = ':' → (a ++ ':' :: ':' :: b).head? ≠ some ':' := by
      intro hc
      obtain ⟨hne, hhead⟩ := ha.1 hc
      rwa [List.head?_append_of_ne_nil _ hne]
    rw [List.cons_append, splitDouble_cons hhead, ih ha.2]
    rfl

theorem splitDouble_of_tame {a : List Char} (ha : Tame a) : splitDouble a = [a] := by
  induction a with
  | nil => rfl
  | cons c a ih =>
    rw [splitDouble_cons fun hc => (ha.1 hc).2, ih ha.2]
    rfl

theorem join_splitDouble (s : List Char) : [':', ':'].intercalate (splitDouble s) = s := by
  induction hlen : s.length using Nat.strong_induction_on generalizing s with
  | _ n ih =>
    cases s with
    | nil => rfl
    | cons c s =>
      by_cases h : c = ':' ∧ s.head? = some ':'
      · obtain ⟨rfl, hhead⟩ := h
        cases s with
        | nil => cases hhead
        | cons d s =>
          obtain rfl := Option.some.inj hhead
          have hrest := ih s.length (by rw [← hlen, List.length_cons, List.length_cons]; omega) s rfl
          rw [splitDouble, List.intercalate_cons_of_ne_nil (splitDouble_ne_nil s), hrest]
          rfl
      · have hrest := ih s.length (by rw [← hlen, List.length_cons]; omega) s rfl
        rw [splitDouble_cons fun hc hs => h ⟨hc, hs⟩]
        cases hs : splitDouble s with
        | nil => exact absurd hs (splitDouble_ne_nil s)
        | cons part parts =>
          rw [hs] at hrest
          rw [List.modifyHead_cons]
          by_cases hparts : parts = []
          · subst hparts
            rw [List.intercalate_singleton] at hrest ⊢
            rw [hrest]
          · rw [List.intercalate_cons_of_ne_nil hparts] at hrest ⊢
            rw [List.cons_append, List.cons_append, hrest]

/-! ### IPv6 without a dotted tail -/

/-- Eight groups, or two runs of groups with zeros put between them. -/
inductive Filled : List Char → List (List Nat) → Prop
  | full {gs : List (List Char)} {bs : List (List Nat)} (h : Run gs bs) (hlength : gs.length = 8) : Filled (joined gs) bs
  | compressed {hs rs : List (List Char)} {hb rb : List (List Nat)} (hhead : Run hs hb) (hrest : Run rs rb)
      (hlength : hs.length + rs.length ≤ 7) :
      Filled (joined hs ++ ':' :: ':' :: joined rs) (hb ++ List.replicate (8 - (hs.length + rs.length)) [0, 0] ++ rb)

theorem run_append_iff {ys : List (List Char)} :
    Run (xs ++ ys) bs ↔ ∃ xb yb, Run xs xb ∧ Run ys yb ∧ bs = xb ++ yb := by
  constructor
  · intro h
    have htake := List.forall₂_take xs.length h
    have hdrop := List.forall₂_drop xs.length h
    rw [List.take_left' rfl] at htake
    rw [List.drop_left' rfl] at hdrop
    exact ⟨_, _, htake, hdrop, (List.take_append_drop _ _).symm⟩
  · rintro ⟨xb, yb, hx, hy, rfl⟩
    exact List.rel_append hx hy

theorem filled_iff :
    ((allGroups text).bind fun all => all.mapM groupBytes) = some bs ↔ Filled text bs := by
  unfold allGroups
  constructor
  · intro h
    have hjoin := join_splitDouble text
    split at h
    · rename_i whole hsplit
      rw [hsplit, List.intercalate_singleton] at hjoin
      split at h
      · rename_i hlength
        rw [← hjoin, ← joined_groups whole]
        exact .full (mapM_groupBytes.1 h) hlength
      · cases h
    · rename_i first last hsplit
      have htext : text = joined (groups first) ++ ':' :: ':' :: joined (groups last) := by
        rw [hsplit] at hjoin
        rw [joined_groups, joined_groups, ← hjoin]
        simp [List.intercalate]
      dsimp only at h
      split at h
      · rename_i hlength
        rw [Option.bind_some, mapM_groupBytes, run_append_iff] at h
        obtain ⟨xb, rb, hx, hrest, rfl⟩ := h
        obtain ⟨hb, zb, hhead, hzeros, rfl⟩ := run_append_iff.1 hx
        have hzb : zb = List.replicate (8 - ((groups first).length + (groups last).length)) [0, 0] := by
          have hsome := mapM_groupBytes.2 hzeros
          rw [mapM_groupBytes.2 (run_replicate _), Option.some.injEq] at hsome
          rw [← hsome, Nat.sub_sub]
        rw [htext, hzb]
        exact .compressed hhead hrest (by omega)
      · cases h
    · cases h
  · intro h
    cases h with
    | @full gs _ h hlength =>
      rw [splitDouble_of_tame (tame_joined h)]
      dsimp only
      rw [groups_joined h, if_pos hlength]
      exact mapM_groupBytes.2 h
    | @compressed hs rs hb rb hhead hrest hlength =>
      rw [splitDouble_append (tame_joined hhead), splitDouble_of_tame (tame_joined hrest)]
      dsimp only
      rw [groups_joined hhead, groups_joined hrest, if_pos (by omega), Option.bind_some, Nat.sub_sub]
      exact mapM_groupBytes.2 (List.rel_append (List.rel_append hhead (run_replicate _)) hrest)

/-! ### A dotted tail -/

/-- A run as parts of a text; no groups are one empty part. -/
def Parts (gs : List (List Char)) : List (List Char) := if gs = [] then [[]] else gs

theorem joined_parts (gs : List (List Char)) : joined (Parts gs) = joined gs := by
  unfold Parts
  by_cases hgs : gs = []
  · rw [if_pos hgs, hgs]
    rfl
  · rw [if_neg hgs]

theorem parts_ne_nil (gs : List (List Char)) : Parts gs ≠ [] := by
  unfold Parts
  split
  · exact List.cons_ne_nil _ _
  · assumption

theorem joined_double (hs rs : List (List Char)) :
    joined hs ++ ':' :: ':' :: joined rs = joined (Parts hs ++ [] :: Parts rs) := by
  have hrest : joined ([] :: Parts rs) = ':' :: joined (Parts rs) := joined_append (List.cons_ne_nil [] []) (parts_ne_nil rs)
  rw [joined_append (parts_ne_nil hs) (List.cons_ne_nil _ _), hrest, joined_parts, joined_parts]

theorem parts_clean (h : Run gs bs) : ∀ p ∈ Parts gs, ':' ∉ p := by
  unfold Parts
  split
  · simp
  · exact h.clean

/-- Two zero groups, which the source reads in the place of a dotted tail. -/
def twoZeros : List (List Char) := [['0'], ['0']]

theorem splitLastColon_joined (xs : List (List Char)) (hq : ':' ∉ q) :
    (splitLastColon (joined (xs ++ [q]))).2 = q ∧
      (splitLastColon (joined (xs ++ [q]))).1 ++ "0:0".toList = joined (xs ++ twoZeros) := by
  have hreverse : ∀ s : List Char, (q.reverse ++ s).takeWhile (fun c => c != ':') =
      q.reverse ++ s.takeWhile fun c => c != ':' := by
    intro s
    apply List.takeWhile_append_of_pos
    intro c hc
    rw [List.mem_reverse] at hc
    exact bne_iff_ne.2 fun heq => hq (heq ▸ hc)
  unfold splitLastColon
  by_cases hxs : xs = []
  · subst hxs
    have hafter : q.reverse.takeWhile (fun c => c != ':') = q.reverse := by simpa using hreverse []
    rw [List.nil_append, joined_singleton, hafter, List.reverse_reverse]
    dsimp only
    rw [Nat.sub_self]
    exact ⟨rfl, rfl⟩
  · have hafter : (joined xs ++ ':' :: q).reverse.takeWhile (fun c => c != ':') = q.reverse := by
      rw [List.reverse_append, List.reverse_cons, List.append_assoc, hreverse]
      simp
    have htake : (joined xs ++ ':' :: q).take ((joined xs ++ ':' :: q).length - q.length) = joined xs ++ [':'] := by
      have hsplit : joined xs ++ ':' :: q = (joined xs ++ [':']) ++ q := by simp
      have hlength : ((joined xs ++ [':']) ++ q).length - q.length = (joined xs ++ [':']).length := by
        rw [List.length_append, Nat.add_sub_cancel]
      rw [hsplit, hlength, List.take_left' rfl]
    rw [joined_append hxs (List.cons_ne_nil q []), joined_singleton, hafter, List.reverse_reverse]
    have hne : twoZeros ≠ [] := List.cons_ne_nil _ _
    dsimp only
    rw [htake, joined_append hxs hne, List.append_assoc]
    exact ⟨rfl, rfl⟩

theorem run_twoZeros : Run twoZeros [[0, 0], [0, 0]] := run_replicate 2

theorem Run.twoZeros_eq (h : Run twoZeros bs) : bs = [[0, 0], [0, 0]] := by
  have hsome := mapM_groupBytes.2 h
  rw [mapM_groupBytes.2 run_twoZeros, Option.some.injEq] at hsome
  exact hsome.symm

/-- Where the parts of a text with `::` end in two zero groups, the run after the `::` does. -/
theorem parts_twoZeros {hs rs : List (List Char)} (h : Parts hs ++ [] :: Parts rs = xs ++ twoZeros) :
    ∃ rs', rs = rs' ++ twoZeros ∧ xs = Parts hs ++ [] :: rs' := by
  rcases List.eq_nil_or_concat rs with rfl | ⟨rs, b, rfl⟩
  · have hlast : Parts hs ++ [[], []] = xs ++ twoZeros := h
    have htail := (List.append_inj' hlast rfl).2
    cases htail
  · rcases List.eq_nil_or_concat rs with rfl | ⟨rs, a, rfl⟩
    · have hlast : Parts hs ++ [[], b] = xs ++ twoZeros := h
      have htail := (List.append_inj' hlast rfl).2
      cases htail
    · have hlast : (Parts hs ++ [] :: rs) ++ [a, b] = xs ++ twoZeros := by
        rw [← h]
        simp [Parts]
      obtain ⟨hxs, htail⟩ := List.append_inj' hlast rfl
      cases htail
      exact ⟨rs, by simp [twoZeros], hxs.symm⟩

theorem flatten_twoZeros (bs : List (List Nat)) :
    (bs ++ [[0, 0], [0, 0]]).flatten = bs.flatten ++ zeros 2 := by
  rw [List.flatten_append]
  rfl

theorem six_of_filled (hclean : ∀ x ∈ xs, ':' ∉ x) {tail : List Nat}
    (hq : Quad q tail) (h : Filled (joined (xs ++ twoZeros)) bs) :
    Six (joined (xs ++ [q])) (bs.flatten.take 12 ++ tail) := by
  have hparts : (joined (xs ++ twoZeros)).splitOn ':' = xs ++ twoZeros := by
    apply splitOn_joined (by simp [twoZeros])
    intro p hp
    rcases List.mem_append.1 hp with hp | hp
    · exact hclean p hp
    · exact run_twoZeros.clean p hp
  generalize joined (xs ++ twoZeros) = text at h hparts
  cases h with
  | @full gs _ h hlength =>
    have hne : gs ≠ [] := List.ne_nil_of_length_pos (by omega)
    rw [splitOn_joined hne h.clean] at hparts
    subst hparts
    obtain ⟨xb, zb, hx, hz, rfl⟩ := run_append_iff.1 h
    obtain rfl := hz.twoZeros_eq
    have hxs : xs.length = 6 := by simpa [twoZeros] using hlength
    have htake : (xb.flatten ++ zeros 2).take 12 = xb.flatten := List.take_left' (by rw [hx.length_flatten, hxs])
    rw [flatten_twoZeros, htake]
    exact .fullQuad hx hq hxs
  | @compressed hs rs hb rb hhead hrest hlength =>
    rw [joined_double, splitOn_joined (by simp) ?_] at hparts
    · obtain ⟨rs', rfl, rfl⟩ := parts_twoZeros hparts
      obtain ⟨rb', zb, hrest', hz, rfl⟩ := run_append_iff.1 hrest
      obtain rfl := hz.twoZeros_eq
      have htext : joined (Parts hs ++ [] :: rs' ++ [q]) = joined hs ++ ':' :: ':' :: joined (rs' ++ [q]) := by
        rw [joined_double hs (rs' ++ [q])]
        simp [Parts]
      have hlength' : hs.length + rs'.length ≤ 5 := by
        simp only [List.length_append, twoZeros, List.length_cons, List.length_nil] at hlength
        omega
      have hbytes : (hb ++ List.replicate (8 - (hs.length + (rs' ++ twoZeros).length)) [0, 0] ++
          (rb' ++ [[0, 0], [0, 0]])).flatten.take 12 =
          hb.flatten ++ zeros (6 - (hs.length + rs'.length)) ++ rb'.flatten := by
        have hzeros : 8 - (hs.length + (rs' ++ twoZeros).length) = 6 - (hs.length + rs'.length) := by
          simp only [List.length_append, twoZeros, List.length_cons, List.length_nil]
          omega
        rw [hzeros, ← List.append_assoc, flatten_twoZeros, List.flatten_append, List.flatten_append, flatten_replicate]
        apply List.take_left'
        rw [List.length_append, List.length_append, hhead.length_flatten, hrest'.length_flatten, zeros,
          List.length_replicate]
        omega
      rw [htext, hbytes]
      exact .compressedQuad hhead hrest' hq hlength'
    · intro p hp
      rcases List.mem_append.1 hp with hp | hp
      · exact parts_clean hhead p hp
      · rcases List.mem_cons.1 hp with rfl | hp
        · simp
        · exact parts_clean hrest p hp

/-! ### IPv6 -/

theorem dot_notMem_joined (h : Run gs bs) : '.' ∉ joined gs := by
  induction h with
  | nil => simp [joined]
  | @cons g b gs bs hgroup hrun ih =>
    have hdot : '.' ∉ g := hgroup.notMem rfl
    by_cases hgs : gs = []
    · rwa [hgs, joined_singleton]
    · rw [← List.singleton_append, joined_append (List.cons_ne_nil g []) hgs, joined_singleton]
      simp [hdot, ih]

theorem dot_notMem_filled (h : Filled text bs) : '.' ∉ text := by
  cases h with
  | full h hlength => exact dot_notMem_joined h
  | compressed hhead hrest hlength => simp [dot_notMem_joined hhead, dot_notMem_joined hrest]

/-- A text with a dotted tail is read as the one with two zero groups for it. -/
theorem parseIpv6_quad {tail : List Nat} (hq : Quad q tail)
    (h : Filled (joined (xs ++ twoZeros)) bs) : parseIpv6 (joined (xs ++ [q])) = some (bs.flatten.take 12 ++ tail) := by
  obtain ⟨htail, hhead⟩ := splitLastColon_joined xs hq.notMem
  have hdot : (joined (xs ++ [q])).contains '.' = true := by
    rw [List.contains_iff_mem]
    by_cases hxs : xs = []
    · rw [hxs, List.nil_append, joined_singleton]
      exact hq.dot_mem
    · rw [joined_append hxs (List.cons_ne_nil q []), joined_singleton]
      exact List.mem_append_right _ (List.mem_cons_of_mem _ hq.dot_mem)
  have hbytes := filled_iff.2 h
  rw [Option.bind_eq_some_iff] at hbytes
  obtain ⟨all, hall, hmap⟩ := hbytes
  rw [parseIpv6, if_pos hdot]
  dsimp only
  rw [htail, hhead, parseIpv4_iff.2 hq, Option.bind_some, hall, Option.bind_some, hmap]
  rfl

theorem parseIpv6_filled (h : Filled text bs) :
    parseIpv6 text = some bs.flatten := by
  have hdot : text.contains '.' = false := by
    rw [← Bool.not_eq_true, List.contains_iff_mem]
    exact dot_notMem_filled h
  have hbytes := filled_iff.2 h
  rw [Option.bind_eq_some_iff] at hbytes
  obtain ⟨all, hall, hmap⟩ := hbytes
  rw [parseIpv6, if_neg (by rw [hdot]; exact Bool.false_ne_true), hall, Option.bind_some, hmap]
  rfl

theorem six_of_parse (h : parseIpv6 s = some bytes) : Six s bytes := by
  unfold parseIpv6 at h
  split at h
  · have hparts : ∃ xs q, s = joined (xs ++ [q]) ∧ (∀ x ∈ xs, ':' ∉ x) ∧ ':' ∉ q := by
      have hjoin : joined (s.splitOn ':') = s := List.intercalate_splitOn ':'
      have hclean : ∀ p ∈ s.splitOn ':', ':' ∉ p := by
        intro p hp hcolon
        simpa using Words.splitOnP_clean hp ':' hcolon
      rcases List.eq_nil_or_concat (s.splitOn ':') with hnil | ⟨xs, q, hsplit⟩
      · exact absurd hnil (List.splitOn_ne_nil ':' s)
      · rw [hsplit, List.concat_eq_append] at hjoin hclean
        exact ⟨xs, q, hjoin.symm, fun x hx => hclean x (List.mem_append_left _ hx),
          hclean q (List.mem_append_right _ List.mem_cons_self)⟩
    obtain ⟨xs, q, rfl, hclean, hq⟩ := hparts
    obtain ⟨htail, hhead⟩ := splitLastColon_joined xs hq
    dsimp only at h
    rw [htail, hhead, Option.bind_eq_some_iff] at h
    obtain ⟨tail, hquad, h⟩ := h
    rw [Option.bind_eq_some_iff] at h
    obtain ⟨all, hall, h⟩ := h
    obtain ⟨bs, hbs, rfl⟩ := Option.map_eq_some_iff.1 h
    refine six_of_filled hclean (parseIpv4_iff.1 hquad) (filled_iff.1 ?_)
    rw [hall, Option.bind_some, hbs]
  · rw [Option.bind_eq_some_iff] at h
    obtain ⟨all, hall, h⟩ := h
    obtain ⟨bs, hbs, rfl⟩ := Option.map_eq_some_iff.1 h
    have hfilled : Filled s bs := filled_iff.1 (by rw [hall, Option.bind_some, hbs])
    cases hfilled with
    | full h hlength => exact .full h hlength
    | compressed hhead hrest hlength =>
      rw [List.flatten_append, List.flatten_append, flatten_replicate]
      exact .compressed hhead hrest hlength

theorem parseIpv6_iff : parseIpv6 s = some bytes ↔ Six s bytes := by
  refine ⟨six_of_parse, ?_⟩
  intro h
  cases h with
  | full h hlength => exact parseIpv6_filled (.full h hlength)
  | compressed hhead hrest hlength =>
    rw [parseIpv6_filled (.compressed hhead hrest hlength), List.flatten_append, List.flatten_append, flatten_replicate]
  | @fullQuad gs bs q tail h hq hlength =>
    have hfilled : Filled (joined (gs ++ twoZeros)) (bs ++ [[0, 0], [0, 0]]) :=
      .full (List.rel_append h run_twoZeros) (by rw [List.length_append, hlength]; rfl)
    rw [parseIpv6_quad hq hfilled, flatten_twoZeros, List.take_left' (by rw [h.length_flatten, hlength])]
  | @compressedQuad hs rs hb rb q tail hhead hrest hq hlength =>
    have hlength' : hs.length + (rs ++ twoZeros).length = hs.length + rs.length + 2 := by
      rw [List.length_append]
      rfl
    have hfilled : Filled (joined hs ++ ':' :: ':' :: joined (rs ++ twoZeros))
        (hb ++ List.replicate (8 - (hs.length + (rs ++ twoZeros).length)) [0, 0] ++ (rb ++ [[0, 0], [0, 0]])) :=
      .compressed hhead (List.rel_append hrest run_twoZeros) (by rw [hlength']; omega)
    have htext : ∀ last : List (List Char), last ≠ [] → joined hs ++ ':' :: ':' :: joined (rs ++ last) =
        joined (Parts hs ++ [] :: rs ++ last) := by
      intro last hlast
      rw [joined_double, List.append_assoc]
      simp [Parts, hlast]
    rw [htext twoZeros (List.cons_ne_nil _ _)] at hfilled
    have htake : (hb.flatten ++ zeros (6 - (hs.length + rs.length)) ++ rb.flatten).length = 12 := by
      rw [List.length_append, List.length_append, hhead.length_flatten, hrest.length_flatten, zeros, List.length_replicate]
      omega
    rw [htext [q] (List.cons_ne_nil _ _), parseIpv6_quad hq hfilled, ← List.append_assoc, flatten_twoZeros,
      List.flatten_append, List.flatten_append, flatten_replicate, hlength', Nat.sub_add_eq 8 _ 2, Nat.sub_right_comm,
      List.take_left' htake]

end CaeloCms.Staging
