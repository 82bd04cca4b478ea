import Mathlib

/-!
# Pages of a table in key order

`ORDER BY key LIMIT n`, read with one row more than the page holds to learn whether there are more.  What a reader
needs of it: without more rows the page is everything, and with more rows everything up to its last key is on it.
-/

namespace Page

open scoped List

variable {α κ : Type*} [LinearOrder κ]

def ordered (key : α → κ) (rows : List α) : List α := rows.insertionSort fun a b => key a ≤ key b

theorem mem_ordered {key : α → κ} {rows : List α} {a : α} : a ∈ ordered key rows ↔ a ∈ rows :=
  List.mem_insertionSort _

theorem pairwise_ordered (key : α → κ) (rows : List α) :
    (ordered key rows).Pairwise fun a b => key a ≤ key b := by
  have htotal : Std.Total fun a b : α => key a ≤ key b := ⟨fun a b => le_total (key a) (key b)⟩
  have htrans : IsTrans α fun a b => key a ≤ key b := ⟨fun a b c hab hbc => hab.trans hbc⟩
  exact List.pairwise_insertionSort _ rows

def page (key : α → κ) (limit : Nat) (rows : List α) : List α × Bool :=
  let raw := (ordered key rows).take (limit + 1)
  (raw.take limit, decide (limit < raw.length))

theorem page_fst (key : α → κ) (limit : Nat) (rows : List α) :
    (page key limit rows).1 = (ordered key rows).take limit := by
  simp [page, List.take_take]

variable {limit : Nat}

theorem mem_of_mem_page {key : α → κ} {rows : List α} {a : α} (h : a ∈ (page key limit rows).1) :
    a ∈ rows := by
  rw [page_fst] at h
  exact mem_ordered.1 (List.mem_of_mem_take h)

theorem mem_page_of_not_more {key : α → κ} {rows : List α} (hm : (page key limit rows).2 = false)
    {a : α} (ha : a ∈ rows) : a ∈ (page key limit rows).1 := by
  have hlen : (ordered key rows).length ≤ limit := by
    simp only [page, List.length_take, decide_eq_false_iff_not, not_lt] at hm
    omega
  rw [page_fst, List.take_of_length_le hlen]
  exact mem_ordered.2 ha

theorem key_mem_page_of_le {key : α → κ} {rows : List α} {a b : α} (ha : a ∈ rows)
    (hb : b ∈ (page key limit rows).1) (hle : key a ≤ key b) : key a ∈ (page key limit rows).1.map key := by
  rw [page_fst] at hb ⊢
  have hsorted := pairwise_ordered key rows
  rw [← List.take_append_drop limit (ordered key rows), List.pairwise_append] at hsorted
  rcases List.mem_append.1 ((List.take_append_drop limit (ordered key rows)).symm ▸ mem_ordered.2 ha) with ht | hd
  · exact List.mem_map_of_mem ht
  · have hge := hsorted.2.2 b hb a hd
    rw [le_antisymm hle hge]
    exact List.mem_map_of_mem hb

theorem key_le_last {key : α → κ} {rows : List α} {a b : α} (ha : a ∈ (page key limit rows).1)
    (hb : (page key limit rows).1.getLast? = some b) : key a ≤ key b := by
  rw [page_fst] at ha hb
  have hsorted : ((ordered key rows).take limit).Pairwise fun a b => key a ≤ key b :=
    (pairwise_ordered key rows).sublist (List.take_sublist ..)
  obtain ⟨pre, hpre⟩ := List.getLast?_eq_some_iff.1 hb
  rw [hpre] at ha hsorted
  rcases List.mem_append.1 ha with ha | ha
  · exact (List.pairwise_append.1 hsorted).2.2 a ha b (List.mem_singleton_self b)
  · rw [List.mem_singleton.1 ha]

theorem nodup_page {key : α → κ} {rows : List α} (h : (rows.map key).Nodup) :
    ((page key limit rows).1.map key).Nodup := by
  rw [page_fst]
  have hperm : (ordered key rows).map key ~ rows.map key := (List.perm_insertionSort _ rows).map key
  exact (hperm.nodup_iff.2 h).sublist ((List.take_sublist ..).map key)

theorem exists_last_of_more {key : α → κ} (hlimit : 0 < limit) {rows : List α}
    (hm : (page key limit rows).2 = true) : ∃ b, (page key limit rows).1.getLast? = some b := by
  have hlen : limit < (ordered key rows).length := by
    simp only [page, List.length_take, decide_eq_true_eq] at hm
    omega
  rw [page_fst]
  cases h : ((ordered key rows).take limit).getLast? with
  | some b => exact ⟨b, rfl⟩
  | none =>
    rw [List.getLast?_eq_none_iff] at h
    have := congrArg List.length h
    rw [List.length_take, List.length_nil] at this
    omega

end Page
