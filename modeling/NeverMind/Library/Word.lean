import Mathlib.Algebra.Order.Ring.Nat
import Mathlib.Tactic.Ring

/-! Machine words as residues: an unsigned register of 32 or 64 bits keeps a
natural number modulo its width, and a signed one keeps the balanced residue. -/

namespace NeverMind

/-- The value a 64-bit register keeps of `n`. -/
def u64 (n : ℕ) : ℕ := n % 2 ^ 64

/-- The value a 32-bit register keeps of `n`. -/
def u32 (n : ℕ) : ℕ := n % 2 ^ 32

/-- Subtraction of 64-bit registers, with the borrow discarded. -/
def u64Sub (a b : ℕ) : ℕ := u64 (a + (2 ^ 64 - u64 b))

/-- The value a signed 32-bit register keeps of `n`. -/
def i32 (n : ℤ) : ℤ := Int.bmod n (2 ^ 32)

/-- The value a signed 64-bit register keeps of `n`. -/
def i64 (n : ℤ) : ℤ := Int.bmod n (2 ^ 64)

theorem u64_of_lt {n : ℕ} (h : n < 2 ^ 64) : u64 n = n := Nat.mod_eq_of_lt h

theorem u32_of_lt {n : ℕ} (h : n < 2 ^ 32) : u32 n = n := Nat.mod_eq_of_lt h

variable {n : ℤ}

theorem i32_of_lt (h : 0 ≤ n) (hlt : n < 2 ^ 31) : i32 n = n := by
  unfold i32
  rw [Int.bmod_def]
  omega

theorem i32_lt (n : ℤ) : i32 n < 2 ^ 31 := by
  unfold i32
  rw [Int.bmod_def]
  omega

/-- A counter that is still positive after a step has not wrapped around. -/
theorem lt_of_i32_pos (hlt : n < 2 ^ 32) (hpos : 0 < i32 n) (h : 0 ≤ n) : n < 2 ^ 31 := by
  unfold i32 at hpos
  rw [Int.bmod_def] at hpos
  omega

theorem i64_of_lt (h : -2 ^ 63 ≤ n) (hlt : n < 2 ^ 63) : i64 n = n := by
  unfold i64
  rw [Int.bmod_def]
  omega

theorem i64_lt (n : ℤ) : i64 n < 2 ^ 63 := by
  unfold i64
  rw [Int.bmod_def]
  omega

theorem i64_natCast_le (n : ℕ) : i64 n ≤ n := by
  unfold i64
  rw [Int.bmod_def]
  omega

/-- A sum of two signed numbers that is too large wraps to a negative one. -/
theorem i64_neg_of_le (h : 2 ^ 63 ≤ n) (hlt : n < 2 ^ 64) : i64 n < 0 := by
  unfold i64
  rw [Int.bmod_def]
  omega

theorem u64Sub_of_le {a b : ℕ} (h : b ≤ a) (ha : a < 2 ^ 64) : u64Sub a b = a - b := by
  have hb : u64 b = b := u64_of_lt (by omega)
  unfold u64Sub u64 at *
  omega

end NeverMind
