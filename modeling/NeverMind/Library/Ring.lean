import Mathlib.Data.List.Basic
import Mathlib.Logic.Function.Basic
import Mathlib.Data.Nat.ModEq

/-! # Ring buffers

A ring of `n` cells is read and written at positions that only grow; a position falls into
the cell of its residue. The queue is what lies between the two positions.

Where only the two cells are kept, full and empty rings are told apart by a cell that is
never used, and the queue is what lies between the cells. -/

namespace NeverMind.Ring

open List

variable {α : Type*} {n : ℕ} [NeZero n]

/-- The queue between the read position `r` and the write position `w`. -/
def contents (buf : Fin n → α) (r w : ℕ) : List α :=
  (range (w - r)).map fun i => buf (Fin.ofNat n (r + i))

@[simp] theorem length_contents (buf : Fin n → α) (r w : ℕ) :
    (contents buf r w).length = w - r := by
  simp [contents]

theorem contents_of_le (buf : Fin n → α) {r w : ℕ} (h : w ≤ r) : contents buf r w = [] := by
  simp [contents, Nat.sub_eq_zero_of_le h]

/-- The front of a queue that is not empty is in the cell of the read position. -/
theorem contents_pop (buf : Fin n → α) {r w : ℕ} (h : r < w) :
    contents buf r w = buf (Fin.ofNat n r) :: contents buf (r + 1) w := by
  obtain ⟨m, rfl⟩ : ∃ m, w = r + 1 + m := ⟨w - (r + 1), by omega⟩
  have hlen : r + 1 + m - r = m + 1 := by omega
  have hrest : r + 1 + m - (r + 1) = m := by omega
  simp only [contents, hlen, hrest, range_succ_eq_map, map_cons, map_map,
    Nat.add_zero]
  congr 1
  refine map_congr_left fun i _ => ?_
  simp only [Function.comp_apply]
  congr 2
  omega

/-- Positions less than a whole ring apart fall into different cells. -/
theorem ofNat_ne_of_lt {a b : ℕ} (hab : a < b) (hba : b - a < n) :
    Fin.ofNat n a ≠ Fin.ofNat n b := by
  intro he
  have hmod : a % n = b % n := congrArg Fin.val he
  have hdvd : n ∣ b - a := (Nat.modEq_iff_dvd' (Nat.le_of_lt hab)).mp hmod
  have hle := Nat.le_of_dvd (by omega) hdvd
  omega

/-- Writing to the cell of the write position of a ring with room adds to the queue. -/
theorem contents_push (buf : Fin n → α) {r w : ℕ} (hrw : r ≤ w) (hroom : w - r < n) (x : α) :
    contents (Function.update buf (Fin.ofNat n w) x) r (w + 1) = contents buf r w ++ [x] := by
  have hlen : w + 1 - r = w - r + 1 := by omega
  rw [contents, hlen, range_succ, map_append, contents]
  congr 1
  · refine map_congr_left fun i hi => ?_
    rw [mem_range] at hi
    rw [Function.update_of_ne]
    exact ofNat_ne_of_lt (by omega) (by omega)
  · have hlast : r + (w - r) = w := by omega
    simp [hlast]

/-! ## Rings with a cell to spare -/

/-- The cell after `i`. -/
def next (i : Fin n) : Fin n := Fin.ofNat n (i.val + 1)

/-- The number of cells from `head` up to `tail`. -/
def dist (head tail : Fin n) : ℕ := (tail.val + n - head.val) % n

/-- The queue in the cells from `head` up to `tail`. -/
def between (buf : Fin n → α) (head tail : Fin n) : List α :=
  contents buf head.val (head.val + dist head tail)

theorem val_next (i : Fin n) : (next i).val = if i.val + 1 = n then 0 else i.val + 1 := by
  have hi := i.isLt
  split
  · rename_i hlast
    simp [next, Fin.ofNat, hlast]
  · exact Nat.mod_eq_of_lt (by omega)

omit [NeZero n] in
theorem dist_eq (head tail : Fin n) :
    dist head tail =
      if head.val ≤ tail.val then tail.val - head.val else tail.val + n - head.val := by
  have hh := head.isLt
  have ht := tail.isLt
  unfold dist
  split
  · rw [show tail.val + n - head.val = tail.val - head.val + n by omega, Nat.add_mod_right,
      Nat.mod_eq_of_lt (by omega)]
  · exact Nat.mod_eq_of_lt (by omega)

theorem dist_lt (head tail : Fin n) : dist head tail < n := Nat.mod_lt _ (Nat.pos_of_neZero n)

omit [NeZero n] in
theorem dist_eq_zero_iff (head tail : Fin n) : dist head tail = 0 ↔ head = tail := by
  have hh := head.isLt
  rw [dist_eq, Fin.ext_iff]
  split <;> omega

/-- The ring is full when the cell after `tail` is `head`. -/
theorem next_eq_iff (head tail : Fin n) : next tail = head ↔ dist head tail + 1 = n := by
  have hh := head.isLt
  have ht := tail.isLt
  rw [Fin.ext_iff, val_next, dist_eq]
  split <;> split <;> omega

theorem dist_next_tail {head tail : Fin n} (h : next tail ≠ head) :
    dist head (next tail) = dist head tail + 1 := by
  have hh := head.isLt
  have ht := tail.isLt
  rw [Ne, Fin.ext_iff, val_next] at h
  rw [dist_eq, dist_eq, val_next]
  by_cases hlast : tail.val + 1 = n
  · rw [if_pos hlast] at h ⊢
    split <;> split <;> omega
  · rw [if_neg hlast] at h ⊢
    split <;> split <;> omega

theorem dist_next_head {head tail : Fin n} (h : head ≠ tail) :
    dist (next head) tail + 1 = dist head tail := by
  have hh := head.isLt
  have ht := tail.isLt
  rw [Ne, Fin.ext_iff] at h
  rw [dist_eq, dist_eq, val_next]
  by_cases hlast : head.val + 1 = n
  · rw [if_pos hlast]
    split <;> split <;> omega
  · rw [if_neg hlast]
    split <;> split <;> omega

theorem ofNat_add_dist (head tail : Fin n) : Fin.ofNat n (head.val + dist head tail) = tail := by
  have hh := head.isLt
  have ht := tail.isLt
  rw [Fin.ext_iff, dist_eq]
  split
  · exact Nat.mod_eq_of_lt (by omega) |>.trans (by omega)
  · rw [show head.val + (tail.val + n - head.val) = tail.val + n by omega]
    exact (Nat.add_mod_right _ _).trans (Nat.mod_eq_of_lt ht)

/-- Only the residues of the positions matter. -/
theorem contents_congr (buf : Fin n → α) {r r' : ℕ} (h : r % n = r' % n) (k : ℕ) :
    contents buf r (r + k) = contents buf r' (r' + k) := by
  simp only [contents, Nat.add_sub_cancel_left]
  refine map_congr_left fun i _ => ?_
  congr 1
  exact Fin.ext (Nat.ModEq.add_right i h)

@[simp] theorem length_between (buf : Fin n → α) (head tail : Fin n) :
    (between buf head tail).length = dist head tail := by
  simp [between]

theorem between_self (buf : Fin n → α) (head : Fin n) : between buf head head = [] := by
  rw [← length_eq_zero_iff, length_between, dist_eq_zero_iff]

/-- Taking the item at `head`. -/
theorem between_pop (buf : Fin n → α) {head tail : Fin n} (h : head ≠ tail) :
    between buf head tail = buf head :: between buf (next head) tail := by
  have hdist := dist_next_head h
  rw [between, contents_pop buf (by omega), between]
  congr 1
  · congr 1
    exact Fin.ext (Nat.mod_eq_of_lt head.isLt)
  · rw [show head.val + dist head tail = head.val + 1 + dist (next head) tail by omega]
    exact contents_congr buf (Nat.mod_mod _ _).symm _

/-- Adding an item at `tail` of a ring that is not full. -/
theorem between_push (buf : Fin n → α) {head tail : Fin n} (h : next tail ≠ head) (x : α) :
    between (Function.update buf tail x) head (next tail) = between buf head tail ++ [x] := by
  have hlt := dist_lt head tail
  have hpush := contents_push (r := head.val) (w := head.val + dist head tail) buf
    (Nat.le_add_right _ _) (by omega) x
  rw [ofNat_add_dist] at hpush
  rw [between, dist_next_tail h, ← Nat.add_assoc]
  exact hpush

end NeverMind.Ring
