import Mathlib.Data.List.FinRange
import Mathlib.Data.List.Rotate

/-! # Cyclic scans

A scan of a table of `n` cells starts at a cursor, goes once around and stops at the first
cell that satisfies a test; the next scan starts behind it. Repeated scans with the same test
visit the cells that satisfy it in turn. -/

namespace NeverMind.Rotation

open List

variable {n : ℕ} {test : Fin n → Bool} {c : ℕ} {x : Fin n}

/-- The cells in the order of a scan from `c`. -/
def cells (n c : ℕ) : List (Fin n) := (finRange n).rotate c

@[simp] theorem length_cells (n c : ℕ) : (cells n c).length = n := by
  simp [cells]

theorem mem_cells (c : ℕ) (x : Fin n) : x ∈ cells n c := mem_rotate.mpr (mem_finRange x)

theorem nodup_cells (n c : ℕ) : (cells n c).Nodup := nodup_rotate.mpr (nodup_finRange n)

theorem val_getElem_cells {k : ℕ} (h : k < (cells n c).length) :
    ((cells n c)[k]).val = (c + k) % n := by
  simp [cells, getElem_rotate, Nat.add_comm]

/-- A scan once around reaches every cell. -/
theorem exists_add_mod_eq (c : ℕ) {x : ℕ} (h : x < n) : ∃ k < n, (c + k) % n = x := by
  obtain ⟨k, hk, hget⟩ := getElem_of_mem (mem_cells c ⟨x, h⟩)
  refine ⟨k, by simpa using hk, ?_⟩
  rw [← val_getElem_cells hk, hget]

/-- Cells depend on the cursor modulo the size of the table. -/
theorem cells_congr {c c' : ℕ} (h : c % n = c' % n) : cells n c = cells n c' := by
  have hlen : (finRange n).length = n := length_finRange
  unfold cells
  rw [← rotate_mod _ c, ← rotate_mod _ c', hlen, h]

/-- The cells that satisfy the test, in the order of a scan. -/
def hits (test : Fin n → Bool) (c : ℕ) : List (Fin n) := (cells n c).filter test

theorem nodup_hits (test : Fin n → Bool) (c : ℕ) : (hits test c).Nodup :=
  (nodup_cells n c).filter test

theorem mem_hits : x ∈ hits test c ↔ test x = true := by
  simp [hits, mem_cells]

/-- The scan that starts behind the first hit has this hit last. -/
theorem hits_succ {rest : List (Fin n)} (h : hits test c = x :: rest) :
    hits test ((x.val + 1) % n) = rest ++ [x] := by
  obtain ⟨front, back, hcells, hfront, hx, hback⟩ := filter_eq_cons_iff.mp h
  have hlen : front.length < (cells n c).length := by simp [hcells]
  -- the first hit is the cell number `front.length` of the scan
  have hval : x.val = (c + front.length) % n := by
    rw [← val_getElem_cells hlen]
    simp [hcells]
  have hcongr : (x.val + 1) % n % n = (c + (front.length + 1)) % n := by
    rw [Nat.mod_mod, hval, Nat.mod_add_mod, Nat.add_assoc]
  have hsplit : cells n ((x.val + 1) % n) = back ++ (front ++ [x]) := by
    have hrotate : cells n (c + (front.length + 1)) =
        ((front ++ [x]) ++ back).rotate (front ++ [x]).length := by
      rw [append_assoc, singleton_append, ← hcells, cells, cells, rotate_rotate,
        length_append, length_singleton]
    rw [cells_congr hcongr, hrotate, rotate_append_length_eq]
  have hnone : front.filter test = [] := filter_eq_nil_iff.mpr hfront
  rw [hits, hsplit, filter_append, filter_append, hnone, hback, nil_append,
    filter_cons_of_pos hx, filter_nil]

end NeverMind.Rotation
