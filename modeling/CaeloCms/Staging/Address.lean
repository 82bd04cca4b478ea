import CaeloCms.Staging.SessionCookie

/-!
# The IP allowlist

Addresses and CIDRs of `staging-gate.ts` as bytes.  An address lies in a network of the same family when their first bits
agree (`ipMatchesCidr_iff`); the loop of the source compares them byte by byte under a mask.
-/

namespace CaeloCms.Staging

open CaeloCms.Redirect (isSpace)

/-! ### Addresses -/

/-- `/^\d{1,3}$/` -/
def isShortNumber (s : List Char) : Bool := 1 ≤ s.length && s.length ≤ 3 && s.all isDigit

def parseIpv4 (s : List Char) : Option (List Nat) :=
  let parts := s.splitOn '.'
  if parts.length = 4 then
    parts.mapM fun p => if isShortNumber p && digitsNumber p ≤ 255 then some (digitsNumber p) else none
  else none

/-- `/^[0-9a-fA-F]{1,4}$/`, as the two bytes that the group stands for. -/
def groupBytes (g : List Char) : Option (List Nat) :=
  if 1 ≤ g.length ∧ g.length ≤ 4 then
    (g.mapM Web.hexDigitValue).map fun digits =>
      let n := digits.foldl (fun n d => 16 * n + d) 0
      [n / 256, n % 256]
  else none

/-- `text.split("::")` -/
def splitDouble : List Char → List (List Char)
  | [] => [[]]
  | ':' :: ':' :: rest => [] :: splitDouble rest
  | c :: rest =>
    match splitDouble rest with
    | [] => [[c]]
    | part :: parts => (c :: part) :: parts

def groups (h : List Char) : List (List Char) := if h.isEmpty then [] else h.splitOn ':'

/-- The eight groups of the text, the gap at its `::` filled with zeros. -/
def allGroups (text : List Char) : Option (List (List Char)) :=
  match splitDouble text with
  | [whole] => if (groups whole).length = 8 then some (groups whole) else none
  | [first, last] =>
    let head := groups first
    let rest := groups last
    if head.length + rest.length < 8 then
      some (head ++ List.replicate (8 - head.length - rest.length) ['0'] ++ rest)
    else none
  | _ => none

/-- What is after the last `:` and what is before it, with the `:`. -/
def splitLastColon (s : List Char) : List Char × List Char :=
  let after := (s.reverse.takeWhile fun c => c != ':').reverse
  (s.take (s.length - after.length), after)

def parseIpv6 (s : List Char) : Option (List Nat) :=
  if s.contains '.' then
    let halves := splitLastColon s
    (parseIpv4 halves.2).bind fun tail =>
      (allGroups (halves.1 ++ "0:0".toList)).bind fun all =>
        (all.mapM groupBytes).map fun bytes => bytes.flatten.take 12 ++ tail
  else (allGroups s).bind fun all => (all.mapM groupBytes).map fun bytes => bytes.flatten

/-- `s.replace(/^\[|\]$/g, "")` -/
def withoutBrackets (s : List Char) : List Char :=
  let s := match s with
    | '[' :: rest => rest
    | s => s
  if s.getLast? = some ']' then s.dropLast else s

/-- An IPv6 address that stands for an IPv4 one. -/
def isMapped (bytes : List Nat) : Bool :=
  (bytes.take 10).all (fun b => b = 0) && bytes[10]? == some 0xFF && bytes[11]? == some 0xFF

def parseIp (raw : List Char) : Option (List Nat) :=
  let s := withoutBrackets (Words.trim isSpace raw)
  if s.contains ':' then
    (parseIpv6 (s.takeWhile fun c => c != '%')).map fun v6 => if isMapped v6 then v6.drop 12 else v6
  else parseIpv4 s

structure Cidr where
  bytes : List Nat
  bits : Nat
deriving DecidableEq, Repr

def parseCidr (cidr : List Char) : Option Cidr :=
  match (Words.trim isSpace cidr).splitOn '/' with
  | [addr] => (parseIp addr).map fun bytes => ⟨bytes, bytes.length * 8⟩
  | [addr, len] =>
    (parseIp addr).bind fun bytes =>
      if isShortNumber len && digitsNumber len ≤ bytes.length * 8 then some ⟨bytes, digitsNumber len⟩ else none
  | _ => none

/-! ### Networks -/

/-- The loop of `ipMatchesCidr`, with the bits that are still to be compared. -/
def matchesBits : Nat → List Nat → List Nat → Bool
  | bits, a :: addr, n :: net =>
    if bits = 0 then true
    else
      let take := min 8 bits
      let mask := (0xFF <<< (8 - take)) &&& 0xFF
      if a &&& mask ≠ n &&& mask then false else matchesBits (bits - take) addr net
  | _, _, _ => true

/-- True when `ip` lies inside `cidr` (same address family only). -/
def ipMatchesCidr (ip cidr : List Char) : Bool :=
  match parseIp ip, parseCidr cidr with
  | some addr, some net => addr.length = net.bytes.length && matchesBits net.bits addr net.bytes
  | _, _ => false

/-- The bit at place `i` of an address. -/
def addressBit (bytes : List Nat) (i : Nat) : Bool := (bytes.getD (i / 8) 0).testBit (7 - i % 8)

theorem testBit_mask (take i : Nat) :
    ((0xFF <<< (8 - take)) &&& 0xFF).testBit i = decide (8 - take ≤ i ∧ i < 8) := by
  have h255 : ∀ j, Nat.testBit 0xFF j = decide (j < 8) := fun j => Nat.testBit_two_pow_sub_one 8 j
  rw [Nat.testBit_and, Nat.testBit_shiftLeft, h255, h255]
  by_cases hi : 8 - take ≤ i <;> by_cases hlt : i < 8 <;> simp [hi, hlt]
  omega

theorem and_mask_eq_iff {take a n : Nat} (h : take ≤ 8) :
    a &&& ((0xFF <<< (8 - take)) &&& 0xFF) = n &&& ((0xFF <<< (8 - take)) &&& 0xFF) ↔
      ∀ i < take, a.testBit (7 - i) = n.testBit (7 - i) := by
  constructor
  · intro heq i hi
    have hbit := congrArg (fun m => m.testBit (7 - i)) heq
    rw [Nat.testBit_and a, Nat.testBit_and n, testBit_mask, decide_eq_true (by omega)] at hbit
    rwa [Bool.and_true, Bool.and_true] at hbit
  · intro hall
    refine Nat.eq_of_testBit_eq fun j => ?_
    rw [Nat.testBit_and a, Nat.testBit_and n, testBit_mask]
    by_cases hj : 8 - take ≤ j ∧ j < 8
    · have hbit := hall (7 - j) (by omega)
      have hback : 7 - (7 - j) = j := by omega
      rw [hback] at hbit
      rw [hbit]
    · rw [decide_eq_false hj, Bool.and_false, Bool.and_false]

theorem matchesBits_iff : ∀ {addr net : List Nat} {bits : Nat}, addr.length = net.length →
    (matchesBits bits addr net = true ↔ ∀ i < bits, i < 8 * addr.length → addressBit addr i = addressBit net i) := by
  intro addr
  induction addr with
  | nil =>
    intro net bits hlen
    unfold matchesBits
    simp
  | cons a addr ih =>
    intro net bits hlen
    cases net with
    | nil => cases hlen
    | cons n net =>
      have hlen' : addr.length = net.length := by simpa using hlen
      unfold matchesBits
      by_cases hbits : bits = 0
      · simp [hbits]
      · rw [if_neg hbits]
        dsimp only
        have hbyte := and_mask_eq_iff (a := a) (n := n) (Nat.min_le_left 8 bits)
        have hfirst : ∀ i < 8, addressBit (a :: addr) i = a.testBit (7 - i) := by
          intro i hi
          unfold addressBit
          rw [Nat.div_eq_of_lt hi, Nat.mod_eq_of_lt hi]
          rfl
        have hfirst' : ∀ i < 8, addressBit (n :: net) i = n.testBit (7 - i) := by
          intro i hi
          unfold addressBit
          rw [Nat.div_eq_of_lt hi, Nat.mod_eq_of_lt hi]
          rfl
        have hlater : ∀ (c : Nat) (l : List Nat) i, addressBit (c :: l) (i + 8) = addressBit l i := by
          intro c l i
          unfold addressBit
          rw [Nat.add_div_right i (by omega), Nat.add_mod_right]
          rfl
        by_cases heq : a &&& ((0xFF <<< (8 - min 8 bits)) &&& 0xFF) = n &&& ((0xFF <<< (8 - min 8 bits)) &&& 0xFF)
        · rw [if_neg (by simpa using heq), ih hlen']
          have hall := hbyte.1 heq
          constructor
          · intro hrest i hi hin
            by_cases hlt : i < 8
            · rw [hfirst i hlt, hfirst' i hlt]
              exact hall i (by omega)
            · obtain ⟨j, rfl⟩ := Nat.exists_eq_add_of_le' (Nat.le_of_not_lt hlt)
              rw [hlater, hlater]
              rw [List.length_cons] at hin
              exact hrest j (by omega) (by omega)
          · intro hrest j hj hin
            have hbit := hrest (j + 8) (by omega) (by rw [List.length_cons]; omega)
            rwa [hlater, hlater] at hbit
        · rw [if_pos heq]
          refine ⟨fun h => (by cases h), fun hall => absurd (hbyte.2 fun i hi => ?_) heq⟩
          have hbit := hall i (by omega) (by rw [List.length_cons]; omega)
          rwa [hfirst i (by omega), hfirst' i (by omega)] at hbit

/-- An address lies in a network when both are of one family and the network's bits are the address's first bits. -/
theorem ipMatchesCidr_iff {ip cidr : List Char} :
    ipMatchesCidr ip cidr = true ↔ ∃ addr net, parseIp ip = some addr ∧ parseCidr cidr = some net ∧
      addr.length = net.bytes.length ∧
        ∀ i < net.bits, i < 8 * addr.length → addressBit addr i = addressBit net.bytes i := by
  unfold ipMatchesCidr
  constructor
  · intro h
    split at h
    · rename_i addr net haddr hnet
      rw [Bool.and_eq_true, decide_eq_true_eq] at h
      exact ⟨addr, net, haddr, hnet, h.1, (matchesBits_iff h.1).1 h.2⟩
    · cases h
  · rintro ⟨addr, net, haddr, hnet, hlen, hbits⟩
    rw [haddr, hnet]
    dsimp only
    rw [(matchesBits_iff hlen).2 hbits, decide_eq_true hlen]
    rfl

example : ipMatchesCidr "::ffff:203.0.113.7".toList " 203.0.113.0/29".toList = true := by decide +kernel
example : ipMatchesCidr "[2001:db8::1]".toList "2001:db8::/48".toList = true := by decide +kernel
example : ipMatchesCidr "203.0.113.8".toList "203.0.113.0/29".toList = false := by decide +kernel

end CaeloCms.Staging
