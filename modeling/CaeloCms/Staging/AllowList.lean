import CaeloCms.Staging.AddressText

/-!
# The IP allowlist and the spellings of its networks

`ipMatchesCidr` holds of an address and a network of one family whose first bits agree.  Every spelling of an address is
accepted (`matches_of_strict`), and besides blanks around it, a `[` before it, a `]` behind it, each without the other, and
a zone behind an IPv6 address (`allowList_iff`).
-/

namespace CaeloCms.Staging

open CaeloCms.Redirect (isSpace)

/-! ### Addresses and networks -/

/-- The bytes of an IPv6 address that stands for an IPv4 one. -/
def mappedBytes (v4 : List Nat) : List Nat := List.replicate 10 0 ++ 0xFF :: 0xFF :: v4

/-- The bytes of a spelled IPv6 address; one that stands for an IPv4 address has that one's. -/
inductive SixDenotes (s : List Char) : List Nat → Prop
  | six {bytes : List Nat} (h : Six s bytes) (hmapped : ∀ v4, bytes ≠ mappedBytes v4) : SixDenotes s bytes
  | mapped {v4 : List Nat} (h : Six s (mappedBytes v4)) : SixDenotes s v4

def Denotes (s : List Char) (bytes : List Nat) : Prop := Quad s bytes ∨ SixDenotes s bytes

/-- A spelled network; a bare address is one of full length. -/
inductive Network : List Char → List Nat → Nat → Prop
  | host {s : List Char} {bytes : List Nat} (h : Denotes s bytes) : Network s bytes (8 * bytes.length)
  | bits {s len : List Char} {bytes : List Nat} (h : Denotes s bytes) (hlen : isShortNumber len = true)
      (hle : digitsNumber len ≤ 8 * bytes.length) : Network (s ++ '/' :: len) bytes (digitsNumber len)

def Lies (addr net : List Nat) (bits : Nat) : Prop :=
  addr.length = net.length ∧ ∀ i < bits, addressBit addr i = addressBit net i

/-- The two texts are an address and a network that it lies in, with nothing around them. -/
def StrictMatch (ip cidr : List Char) : Prop :=
  ∃ addr net bits, Denotes ip addr ∧ Network cidr net bits ∧ Lies addr net bits

/-! ### What is read -/

def bare (raw : List Char) : List Char := withoutBrackets (Words.trim isSpace raw)

/-- The bare text is an IPv4 address, or an IPv6 address and a zone. -/
def Reads (raw : List Char) (bytes : List Nat) : Prop :=
  Quad (bare raw) bytes ∨ SixDenotes ((bare raw).takeWhile fun c => c != '%') bytes

inductive ReadsNetwork (raw : List Char) : List Nat → Nat → Prop
  | host {bytes : List Nat} (hslash : '/' ∉ Words.trim isSpace raw) (h : Reads (Words.trim isSpace raw) bytes) :
      ReadsNetwork raw bytes (8 * bytes.length)
  | bits {a len : List Char} {bytes : List Nat} (htext : Words.trim isSpace raw = a ++ '/' :: len) (hslash : '/' ∉ a)
      (h : Reads a bytes) (hlen : isShortNumber len = true) (hle : digitsNumber len ≤ 8 * bytes.length) :
      ReadsNetwork raw bytes (digitsNumber len)

/-! ### The source reads these -/

variable {bytes : List Nat} {s cidr : List Char} {c : Char} {bits : Nat}

theorem isMapped_iff : isMapped bytes = true ↔ ∃ v4, bytes = mappedBytes v4 := by
  unfold isMapped mappedBytes
  constructor
  · intro h
    rw [Bool.and_eq_true, Bool.and_eq_true, List.all_eq_true, beq_iff_eq, beq_iff_eq] at h
    obtain ⟨⟨hzero, hten⟩, heleven⟩ := h
    refine ⟨bytes.drop 12, ?_⟩
    obtain ⟨hlength, hten⟩ := List.getElem?_eq_some_iff.1 hten
    obtain ⟨hlength', heleven⟩ := List.getElem?_eq_some_iff.1 heleven
    have htake : bytes.take 10 = List.replicate 10 0 := by
      rw [List.eq_replicate_iff]
      refine ⟨by rw [List.length_take]; omega, fun b hb => ?_⟩
      simpa using hzero b hb
    have hdrop : bytes.drop 10 = 0xFF :: 0xFF :: bytes.drop 12 := by
      rw [List.drop_eq_getElem_cons hlength, List.drop_eq_getElem_cons hlength', hten, heleven]
    rw [← hdrop, ← htake, List.take_append_drop]
  · rintro ⟨v4, rfl⟩
    rfl

theorem Six.colon_mem (h : Six s bytes) : ':' ∈ s := by
  have hjoined : ∀ {xs : List (List Char)} {y : List Char}, xs ≠ [] → ':' ∈ joined (xs ++ [y]) := by
    intro xs y hxs
    rw [joined_append hxs (List.cons_ne_nil y [])]
    simp
  cases h with
  | @full gs bs h hlength =>
    rcases List.eq_nil_or_concat gs with rfl | ⟨xs, y, rfl⟩
    · cases hlength
    · rw [List.concat_eq_append] at hlength ⊢
      refine hjoined ?_
      rintro rfl
      cases hlength
  | compressed => simp
  | fullQuad h hq hlength =>
    refine hjoined ?_
    rintro rfl
    cases hlength
  | compressedQuad => simp

theorem sixDenotes_iff :
    ((parseIpv6 s).map fun v6 => if isMapped v6 then v6.drop 12 else v6) = some bytes ↔ SixDenotes s bytes := by
  rw [Option.map_eq_some_iff]
  constructor
  · rintro ⟨v6, hparse, hbytes⟩
    rw [parseIpv6_iff] at hparse
    by_cases hmapped : isMapped v6 = true
    · obtain ⟨v4, rfl⟩ := isMapped_iff.1 hmapped
      rw [if_pos hmapped] at hbytes
      subst hbytes
      exact .mapped hparse
    · rw [if_neg hmapped] at hbytes
      subst hbytes
      exact .six hparse fun v4 heq => hmapped (isMapped_iff.2 ⟨v4, heq⟩)
  · intro h
    cases h with
    | six h hmapped =>
      refine ⟨bytes, parseIpv6_iff.2 h, if_neg fun hmap => ?_⟩
      obtain ⟨v4, heq⟩ := isMapped_iff.1 hmap
      exact hmapped v4 heq
    | mapped h => exact ⟨_, parseIpv6_iff.2 h, if_pos (isMapped_iff.2 ⟨bytes, rfl⟩)⟩

theorem SixDenotes.colon_mem (h : SixDenotes s bytes) : ':' ∈ s := by
  cases h with
  | six h hmapped => exact h.colon_mem
  | mapped h => exact h.colon_mem

theorem parseIp_iff {raw : List Char} : parseIp raw = some bytes ↔ Reads raw bytes := by
  unfold parseIp Reads bare
  dsimp only
  generalize withoutBrackets (Words.trim isSpace raw) = s
  by_cases hcolon : ':' ∈ s
  · rw [if_pos (List.contains_iff_mem.2 hcolon), sixDenotes_iff]
    exact ⟨Or.inr, fun h => h.resolve_left fun hquad => hquad.notMem hcolon⟩
  · rw [if_neg (by simpa using hcolon), parseIpv4_iff]
    refine ⟨Or.inl, fun h => h.resolve_right fun hsix => hcolon ?_⟩
    exact (List.takeWhile_sublist _).subset hsix.colon_mem

theorem notMem_of_isShortNumber {len : List Char} (h : isShortNumber len = true) : '/' ∉ len := by
  intro hmem
  unfold isShortNumber at h
  rw [Bool.and_eq_true, List.all_eq_true] at h
  exact absurd (h.2 '/' hmem) (by decide)

theorem parseCidr_iff :
    parseCidr cidr = some ⟨bytes, bits⟩ ↔ ReadsNetwork cidr bytes bits := by
  unfold parseCidr
  have hjoin : ['/'].intercalate ((Words.trim isSpace cidr).splitOn '/') = Words.trim isSpace cidr :=
    List.intercalate_splitOn '/'
  have hclean : ∀ p ∈ (Words.trim isSpace cidr).splitOn '/', '/' ∉ p := by
    intro p hp hslash
    simpa using Words.splitOnP_clean hp '/' hslash
  constructor
  · intro h
    split at h
    · rename_i addr hsplit
      rw [hsplit] at hjoin hclean
      obtain ⟨bytes', hparse, heq⟩ := Option.map_eq_some_iff.1 h
      rw [Cidr.mk.injEq] at heq
      obtain ⟨rfl, rfl⟩ := heq
      rw [List.intercalate_singleton] at hjoin
      rw [Nat.mul_comm]
      exact .host (hjoin ▸ hclean addr List.mem_cons_self) (hjoin ▸ parseIp_iff.1 hparse)
    · rename_i addr len hsplit
      rw [hsplit] at hjoin hclean
      obtain ⟨bytes', hparse, h⟩ := Option.bind_eq_some_iff.1 h
      split at h
      · rename_i hcond
        rw [Bool.and_eq_true, decide_eq_true_eq, Nat.mul_comm] at hcond
        rw [Option.some.injEq, Cidr.mk.injEq] at h
        obtain ⟨rfl, rfl⟩ := h
        refine .bits ?_ (hclean addr List.mem_cons_self) (parseIp_iff.1 hparse) hcond.1 hcond.2
        rw [← hjoin]
        simp [List.intercalate]
      · cases h
    · cases h
  · intro h
    cases h with
    | host hslash h =>
      rw [List.splitOn_eq_singleton hslash]
      dsimp only
      rw [parseIp_iff.2 h, Option.map_some, Nat.mul_comm]
    | bits htext hslash h hlen hle =>
      rw [htext, List.splitOn_append_cons_self_of_not_mem hslash, List.splitOn_eq_singleton (notMem_of_isShortNumber hlen)]
      dsimp only
      rw [parseIp_iff.2 h, Option.bind_some, hlen, decide_eq_true (by omega)]
      rfl

theorem ReadsNetwork.le (h : ReadsNetwork cidr bytes bits) :
    bits ≤ 8 * bytes.length := by
  cases h with
  | host => exact Nat.le_refl _
  | bits htext hslash h hlen hle => exact hle

theorem matches_iff (ip cidr : List Char) : ipMatchesCidr ip cidr = true ↔
    ∃ addr net bits, Reads ip addr ∧ ReadsNetwork cidr net bits ∧ Lies addr net bits := by
  rw [ipMatchesCidr_iff]
  constructor
  · rintro ⟨addr, ⟨net, bits⟩, haddr, hnet, hlength, hbits⟩
    have hreads := parseCidr_iff.1 hnet
    have hle := hreads.le
    exact ⟨addr, net, bits, parseIp_iff.1 haddr, hreads, hlength,
      fun i hi => hbits i hi (by rw [hlength]; exact Nat.lt_of_lt_of_le hi hle)⟩
  · rintro ⟨addr, net, bits, haddr, hnet, hlength, hbits⟩
    exact ⟨addr, ⟨net, bits⟩, parseIp_iff.2 haddr, parseCidr_iff.2 hnet, hlength, fun i hi _ => hbits i hi⟩

/-! ### Spelled addresses are read as they are -/

def isAddressChar (c : Char) : Bool := (Web.hexDigitValue c).isSome || c == ':' || c == '.'

theorem isAddressChar_of_isDigit (h : isDigit c = true) : isAddressChar c = true := by
  unfold isDigit at h
  rw [Bool.and_eq_true, decide_eq_true_eq, decide_eq_true_eq] at h
  unfold isAddressChar Web.hexDigitValue
  rw [if_pos h]
  rfl

theorem Quad.isAddressChar (h : Quad s bytes) (hc : c ∈ s) :
    isAddressChar c = true := by
  obtain ⟨ha, hb, hc', hd⟩ := h
  simp only [List.mem_append, List.mem_cons] at hc
  rcases hc with hc | rfl | hc | rfl | hc | rfl | hc
  · exact isAddressChar_of_isDigit (ha.isDigit hc)
  · rfl
  · exact isAddressChar_of_isDigit (hb.isDigit hc)
  · rfl
  · exact isAddressChar_of_isDigit (hc'.isDigit hc)
  · rfl
  · exact isAddressChar_of_isDigit (hd.isDigit hc)

theorem mem_joined {parts : List (List Char)} (h : c ∈ joined parts) : c = ':' ∨ ∃ p ∈ parts, c ∈ p := by
  induction parts with
  | nil => simp [joined] at h
  | cons p parts ih =>
    by_cases hparts : parts = []
    · rw [hparts, joined_singleton] at h
      exact Or.inr ⟨p, List.mem_cons_self, h⟩
    · rw [← List.singleton_append, joined_append (List.cons_ne_nil p []) hparts, joined_singleton, List.mem_append,
        List.mem_cons] at h
      rcases h with h | h | h
      · exact Or.inr ⟨p, List.mem_cons_self, h⟩
      · exact Or.inl h
      · rcases ih h with h | ⟨q, hq, hc⟩
        · exact Or.inl h
        · exact Or.inr ⟨q, List.mem_cons_of_mem p hq, hc⟩

theorem Run.isAddressChar {gs : List (List Char)} {bs : List (List Nat)} (h : Run gs bs) (hc : c ∈ joined gs) :
    isAddressChar c = true := by
  rcases mem_joined hc with rfl | ⟨g, hg, hc⟩
  · rfl
  · obtain ⟨bytes, hgroup⟩ := h.mem hg
    rw [Staging.isAddressChar, hgroup.isSome hc]
    rfl

theorem Run.isAddressChar_quad {gs : List (List Char)} {bs : List (List Nat)} {q : List Char} {tail : List Nat}
    (h : Run gs bs) (hq : Quad q tail) (hc : c ∈ joined (gs ++ [q])) : Staging.isAddressChar c = true := by
  by_cases hgs : gs = []
  · rw [hgs, List.nil_append, joined_singleton] at hc
    exact hq.isAddressChar hc
  · rw [joined_append hgs (List.cons_ne_nil q []), joined_singleton, List.mem_append, List.mem_cons] at hc
    rcases hc with hc | rfl | hc
    · exact h.isAddressChar hc
    · rfl
    · exact hq.isAddressChar hc

theorem Six.isAddressChar (h : Six s bytes) (hc : c ∈ s) :
    isAddressChar c = true := by
  cases h with
  | full h hlength => exact h.isAddressChar hc
  | compressed hhead hrest hlength =>
    simp only [List.mem_append, List.mem_cons] at hc
    rcases hc with hc | rfl | rfl | hc
    · exact hhead.isAddressChar hc
    · rfl
    · rfl
    · exact hrest.isAddressChar hc
  | fullQuad h hq hlength => exact h.isAddressChar_quad hq hc
  | compressedQuad hhead hrest hq hlength =>
    simp only [List.mem_append, List.mem_cons] at hc
    rcases hc with hc | rfl | rfl | hc
    · exact hhead.isAddressChar hc
    · rfl
    · rfl
    · exact hrest.isAddressChar_quad hq hc

theorem Denotes.isAddressChar (h : Denotes s bytes) (hc : c ∈ s) :
    isAddressChar c = true := by
  rcases h with h | h
  · exact h.isAddressChar hc
  · cases h with
    | six h hmapped => exact h.isAddressChar hc
    | mapped h => exact h.isAddressChar hc

theorem not_isSpace_of_isAddressChar (h : isAddressChar c = true) : isSpace c = false := by
  have hrange : 46 ≤ c.toNat ∧ c.toNat ≤ 102 := by
    have hle : ∀ a b : Char, a ≤ b ↔ a.toNat ≤ b.toNat := fun a b => UInt32.le_iff_toNat_le
    unfold isAddressChar at h
    rw [Bool.or_eq_true, Bool.or_eq_true, beq_iff_eq, beq_iff_eq] at h
    rcases h with (h | rfl) | rfl
    · unfold Web.hexDigitValue at h
      simp only [hle] at h
      have hdigits : '0'.toNat = 48 ∧ '9'.toNat = 57 ∧ 'a'.toNat = 97 ∧ 'f'.toNat = 102 ∧ 'A'.toNat = 65 ∧ 'F'.toNat = 70 :=
        ⟨rfl, rfl, rfl, rfl, rfl, rfl⟩
      split at h
      · omega
      · split at h
        · omega
        · split at h
          · omega
          · cases h
    · decide
    · decide
  unfold isSpace
  simp only [Bool.or_eq_false_iff, Bool.and_eq_false_iff, decide_eq_false_iff_not]
  omega

theorem trim_eq_of_forall (h : ∀ c ∈ s, isSpace c = false) : Words.trim isSpace s = s :=
  Words.trim_eq_self (fun c hc => h c (List.mem_of_mem_head? hc)) fun c hc => h c (List.mem_of_getLast? hc)

theorem withoutBrackets_eq (hopen : '[' ∉ s) (hclose : ']' ∉ s) : withoutBrackets s = s := by
  have hlast : s.getLast? ≠ some ']' := fun h => hclose (List.mem_of_getLast? h)
  unfold withoutBrackets
  dsimp only
  split
  · exact absurd List.mem_cons_self hopen
  · exact if_neg hlast

theorem reads_of_denotes (h : Denotes s bytes) : Reads s bytes := by
  have hchar : ∀ c, isAddressChar c = false → c ∉ s := by
    intro c hc hmem
    rw [h.isAddressChar hmem] at hc
    cases hc
  have hbare : bare s = s := by
    unfold bare
    rw [trim_eq_of_forall fun c hc => not_isSpace_of_isAddressChar (h.isAddressChar hc)]
    exact withoutBrackets_eq (hchar '[' rfl) (hchar ']' rfl)
  have htake : (s.takeWhile fun c => c != '%') = s := by
    rw [List.takeWhile_eq_self_iff]
    intro c hc
    exact bne_iff_ne.2 fun heq => hchar '%' rfl (heq ▸ hc)
  unfold Reads
  rw [hbare, htake]
  exact h

theorem readsNetwork_of_network (h : Network s bytes bits) :
    ReadsNetwork s bytes bits := by
  have hchars : ∀ {a : List Char} {bytes : List Nat}, Denotes a bytes → '/' ∉ a ∧ ∀ c ∈ a, isSpace c = false := by
    intro a bytes ha
    refine ⟨fun hmem => ?_, fun c hc => not_isSpace_of_isAddressChar (ha.isAddressChar hc)⟩
    have hslash : isAddressChar '/' = true := ha.isAddressChar hmem
    cases hslash
  cases h with
  | host h =>
    obtain ⟨hslash, hspace⟩ := hchars h
    have htrim := trim_eq_of_forall hspace
    exact .host (htrim.symm ▸ hslash) (htrim.symm ▸ reads_of_denotes h)
  | @bits a len _ h hlen hle =>
    obtain ⟨hslash, hspace⟩ := hchars h
    have hdigits : ∀ c ∈ len, isDigit c = true := by
      unfold isShortNumber at hlen
      rw [Bool.and_eq_true, List.all_eq_true] at hlen
      exact hlen.2
    refine .bits (trim_eq_of_forall fun c hc => ?_) hslash (reads_of_denotes h) hlen hle
    rcases List.mem_append.1 hc with hc | hc
    · exact hspace c hc
    · rcases List.mem_cons.1 hc with rfl | hc
      · rfl
      · exact not_isSpace_of_isAddressChar (isAddressChar_of_isDigit (hdigits c hc))

theorem matches_of_strict {ip : List Char} (h : StrictMatch ip cidr) : ipMatchesCidr ip cidr = true := by
  obtain ⟨addr, net, bits, haddr, hnet, hlies⟩ := h
  exact (matches_iff ip cidr).2 ⟨addr, net, bits, reads_of_denotes haddr, readsNetwork_of_network hnet, hlies⟩

theorem trim_trim (s : List Char) : Words.trim isSpace (Words.trim isSpace s) = Words.trim isSpace s := by
  apply Words.trim_eq_self
  · intro c hc
    unfold Words.trim at hc
    have hhead : (s.dropWhile isSpace).head? = some c := by
      obtain ⟨t, ht⟩ := List.rdropWhile_prefix isSpace (s.dropWhile isSpace)
      rw [← ht, List.head?_append, hc]
      rfl
    have hnot := List.head?_dropWhile_not isSpace s
    rw [hhead] at hnot
    simpa using hnot
  · intro c hc
    unfold Words.trim at hc
    have hne : (s.dropWhile isSpace).rdropWhile isSpace ≠ [] := by
      intro hnil
      rw [hnil] at hc
      cases hc
    have hlast := List.rdropWhile_last_not isSpace _ hne
    rw [List.getLast?_eq_some_getLast hne, Option.some.injEq] at hc
    rw [← hc]
    simpa using hlast

theorem matches_self {ip : List Char} (hip : Reads ip bytes) (hcidr : Reads cidr bytes)
    (hslash : '/' ∉ cidr) : ipMatchesCidr ip cidr = true := by
  have hnet : Reads (Words.trim isSpace cidr) bytes := by
    unfold Reads bare at hcidr ⊢
    rwa [trim_trim]
  exact (matches_iff ip cidr).2 ⟨bytes, bytes, _, hip,
    .host (fun hmem => hslash (Words.mem_of_mem_trim hmem)) hnet, rfl, fun _ _ => rfl⟩

/-! ### The allowlist -/

/-- An address is in a network as the two texts are read, every spelling is read, and an address matches itself. -/
theorem allowList_iff (ip cidr : List Char) :
    (ipMatchesCidr ip cidr = true ↔
      ∃ addr net bits, Reads ip addr ∧ ReadsNetwork cidr net bits ∧ Lies addr net bits) ∧
      (StrictMatch ip cidr → ipMatchesCidr ip cidr = true) ∧
      ∀ bytes, Reads ip bytes → Reads cidr bytes → '/' ∉ cidr → ipMatchesCidr ip cidr = true :=
  ⟨matches_iff ip cidr, matches_of_strict, fun _ hip hcidr hslash => matches_self hip hcidr hslash⟩

/-- A bracket that nothing closes is read, and no address is spelled with one. -/
theorem allowList_not_strict : ¬(ipMatchesCidr "[::1".toList "::1".toList = true ↔ StrictMatch "[::1".toList "::1".toList) := by
  intro h
  obtain ⟨addr, net, bits, haddr, -⟩ := h.1 (by decide +kernel)
  have hbracket : isAddressChar '[' = true := haddr.isAddressChar (by decide)
  cases hbracket

end CaeloCms.Staging
