import Mathlib.Algebra.Order.Ring.Nat
import Mathlib.Tactic.Ring

/-! Little-endian words in a memory of bytes. -/

namespace NeverMind

/-- The word of `n` bytes at `addr`. -/
def loadWord : ℕ → ℕ → (ℕ → BitVec 8) → ℕ
  | 0, _, _ => 0
  | n + 1, addr, mem => (mem addr).toNat + 256 * loadWord n (addr + 1) mem

/-- The memory after a word of `n` bytes is stored at `addr`. -/
def storeWord (n addr value : ℕ) (mem : ℕ → BitVec 8) : ℕ → BitVec 8 := fun x =>
  if addr ≤ x ∧ x < addr + n then BitVec.ofNat 8 (value / 256 ^ (x - addr)) else mem x

variable {n k a b v : ℕ} {mem mem' : ℕ → BitVec 8}

theorem loadWord_congr (h : ∀ x, a ≤ x → x < a + n → mem x = mem' x) :
    loadWord n a mem = loadWord n a mem' := by
  induction n generalizing a with
  | zero => rfl
  | succ n ih =>
    have hrest : loadWord n (a + 1) mem = loadWord n (a + 1) mem' := by
      apply ih
      intro x hlow hhigh
      exact h x (by omega) (by omega)
    rw [loadWord, loadWord, h a (le_refl a) (by omega), hrest]

theorem loadWord_lt (n a : ℕ) (mem : ℕ → BitVec 8) : loadWord n a mem < 256 ^ n := by
  induction n generalizing a with
  | zero => simp [loadWord]
  | succ n ih =>
    have hhead : (mem a).toNat < 256 := (mem a).isLt
    have hrest := ih (a + 1)
    rw [loadWord, pow_succ]
    omega

/-- A store is seen by a load of the same word. -/
theorem loadWord_storeWord_self (n a v : ℕ) (mem : ℕ → BitVec 8) :
    loadWord n a (storeWord n a v mem) = v % 256 ^ n := by
  induction n generalizing a v with
  | zero => simp [loadWord, Nat.mod_one]
  | succ n ih =>
    -- after its first byte the word is a shorter word of the quotient
    have hrest : loadWord n (a + 1) (storeWord (n + 1) a v mem) =
        loadWord n (a + 1) (storeWord n (a + 1) (v / 256) mem) := by
      apply loadWord_congr
      intro x hlow hhigh
      have hexp : x - a = x - (a + 1) + 1 := by omega
      rw [storeWord, storeWord, if_pos ⟨by omega, by omega⟩, if_pos ⟨hlow, hhigh⟩, hexp,
        Nat.div_div_eq_div_mul, pow_succ, mul_comm]
    have hhead : (storeWord (n + 1) a v mem a).toNat = v % 256 := by
      simp [storeWord]
    rw [loadWord, hhead, hrest, ih, pow_succ, mul_comm (256 ^ n), Nat.mod_mul]

/-- A store is not seen by a load of other bytes. -/
theorem loadWord_storeWord_of_disjoint (h : a + n ≤ b ∨ b + k ≤ a) (v : ℕ)
    (mem : ℕ → BitVec 8) : loadWord n a (storeWord k b v mem) = loadWord n a mem := by
  apply loadWord_congr
  intro x hlow hhigh
  rw [storeWord, if_neg (by omega)]

end NeverMind
