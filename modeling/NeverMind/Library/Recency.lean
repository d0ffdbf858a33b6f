import Mathlib.Data.List.Dedup
import Mathlib.Data.List.Nodup
import Mathlib.Data.List.Perm.Basic

/-! # Recency order

A history of uses of keys, the last use first. The recency order has every key once, at its last
use; a cache that evicts the least recently used key holds a beginning of it. -/

namespace NeverMind.Recency

open List

variable {κ ν : Type*} [DecidableEq κ]

/-- The last use of every key, the most recent first. -/
def recents : List (κ × ν) → List (κ × ν)
  | [] => []
  | a :: h => a :: (recents h).filter fun b => b.1 ≠ a.1

/-- The keys used since the last use of `k`. -/
def since (k : κ) (h : List (κ × ν)) : List κ := (h.takeWhile fun a => a.1 ≠ k).map Prod.fst

/-- The last use of `k`. -/
def lastUse (k : κ) (h : List (κ × ν)) : Option ν := (h.find? fun a => a.1 = k).map Prod.snd

variable {k : κ} {v : ν} {h : List (κ × ν)} {n : ℕ}

theorem nodup_recents (h : List (κ × ν)) : ((recents h).map Prod.fst).Nodup := by
  induction h with
  | nil => exact nodup_nil
  | cons a h ih =>
    rw [recents, map_cons, nodup_cons]
    refine ⟨?_, ih.sublist (filter_sublist.map _)⟩
    simp

/-- A key stands behind the distinct keys that were used since. -/
theorem recents_split (h : List (κ × ν)) (hk : lastUse k h = some v) :
    ∃ front back, recents h = front ++ (k, v) :: back ∧
      (front.map Prod.fst).Nodup ∧ ∀ x, x ∈ front.map Prod.fst ↔ x ∈ since k h := by
  induction h with
  | nil => cases hk
  | cons a h ih =>
    by_cases ha : a.1 = k
    · refine ⟨[], (recents h).filter fun b => b.1 ≠ a.1, ?_, nodup_nil, ?_⟩
      · simp only [lastUse, ha, find?_cons, decide_true, Option.map_some, Option.some_inj] at hk
        rw [recents, nil_append, ← ha, ← hk]
      · simp [since, ha]
    · have hk' : lastUse k h = some v := by simpa [lastUse, ha] using hk
      obtain ⟨front, back, hsplit, hnodup, hmem⟩ := ih hk'
      refine ⟨a :: front.filter fun b => b.1 ≠ a.1, back.filter fun b => b.1 ≠ a.1, ?_, ?_, ?_⟩
      · have hka : k ≠ a.1 := fun heq => ha heq.symm
        rw [recents, hsplit, filter_append, filter_cons_of_pos (by simpa using hka)]
        rfl
      · rw [map_cons, nodup_cons]
        refine ⟨?_, hnodup.sublist (filter_sublist.map _)⟩
        simp
      · intro x
        have hsince : since k (a :: h) = a.1 :: since k h := by simp [since, ha]
        rw [hsince, mem_cons, ← hmem, map_cons, mem_cons]
        by_cases hx : x = a.1
        · simp [hx]
        · simp [hx]

theorem lastUse_of_mem_recents (hmem : (k, v) ∈ recents h) : lastUse k h = some v := by
  induction h with
  | nil => cases hmem
  | cons a h ih =>
    rw [recents, mem_cons, mem_filter] at hmem
    obtain rfl | ⟨hold, hne⟩ := hmem
    · simp [lastUse]
    · have hka : ¬ a.1 = k := by
        intro heq
        simp [heq] at hne
      simpa [lastUse, hka] using ih hold

theorem not_mem_since (k : κ) (h : List (κ × ν)) : k ∉ since k h := by
  simp only [since, mem_map, not_exists, not_and]
  intro a ha
  have hall := all_eq_true.mp (all_takeWhile (l := h) (p := fun a => a.1 ≠ k)) a ha
  simpa using hall

theorem length_front {front : List (κ × ν)} (hnodup : (front.map Prod.fst).Nodup)
    (hkeys : ∀ x, x ∈ front.map Prod.fst ↔ x ∈ since k h) :
    front.length = (since k h).dedup.length := by
  have hperm := (perm_ext_iff_of_nodup hnodup (nodup_dedup (since k h))).mpr fun x =>
    (hkeys x).trans mem_dedup.symm
  rw [← hperm.length_eq, length_map]

/-- The most recent `n` keys are those with fewer than `n` distinct keys used since. -/
theorem mem_take_recents :
    (k, v) ∈ (recents h).take n ↔ lastUse k h = some v ∧ (since k h).dedup.length < n := by
  constructor
  · intro hmem
    have hlast := lastUse_of_mem_recents (mem_of_mem_take hmem)
    obtain ⟨front, back, hsplit, hnodup, hkeys⟩ := recents_split h hlast
    refine ⟨hlast, ?_⟩
    rw [← length_front hnodup hkeys]
    by_contra hge
    rw [hsplit, take_append_of_le_length (Nat.not_lt.mp hge)] at hmem
    exact not_mem_since k h ((hkeys k).mp (mem_map_of_mem (mem_of_mem_take hmem)))
  · rintro ⟨hlast, hlt⟩
    obtain ⟨front, back, hsplit, hnodup, hkeys⟩ := recents_split h hlast
    rw [← length_front hnodup hkeys] at hlt
    obtain ⟨m, hm⟩ : ∃ m, n = front.length + (m + 1) := ⟨n - front.length - 1, by omega⟩
    rw [hsplit, hm, take_length_add_append, take_succ_cons]
    simp

/-- Keys that occur once lose at most one entry to a filter that removes a key. -/
theorem length_le_filter_add_one {l : List (κ × ν)} (hl : (l.map Prod.fst).Nodup) (k : κ) :
    l.length ≤ (l.filter fun b => b.1 ≠ k).length + 1 := by
  have hone : l.countP (fun b => b.1 = k) ≤ 1 := by
    have hcount := nodup_iff_count_le_one.mp hl k
    rwa [count, countP_map] at hcount
  have hsum := length_eq_countP_add_countP (fun b : κ × ν => decide (b.1 = k)) (l := l)
  rw [← countP_eq_length_filter]
  simp only [decide_eq_true_eq] at hsum
  simp only [ne_eq]
  omega

/-- One more use: the key comes first, and the cut falls on the others. -/
theorem take_recents_cons (a : κ × ν) (h : List (κ × ν)) (n : ℕ) :
    (recents (a :: h)).take (n + 1) =
      a :: ((((recents h).take (n + 1)).filter fun b => b.1 ≠ a.1).take n) := by
  rw [recents, take_succ_cons]
  congr 1
  by_cases hlen : (recents h).length ≤ n + 1
  · rw [take_of_length_le hlen]
  · have hcut := length_le_filter_add_one
      ((nodup_recents h).sublist ((take_sublist (n + 1) (recents h)).map _)) a.1
    rw [length_take] at hcut
    conv_lhs => rw [← take_append_drop (n + 1) (recents h), filter_append]
    rw [take_append_of_le_length (by omega)]

end NeverMind.Recency
