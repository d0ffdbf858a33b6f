import NeverMind.Library.Buffer

/-! Programs that read memory through pointers, with a record of the addresses they read. -/

namespace NeverMind

universe u

/-- A result with the addresses that were read on the way to it. -/
structure Reads (β : Type u) where
  addrs : List ℕ
  val : β

namespace Reads

variable {β γ : Type u} {n : ℕ}

instance : Monad Reads where
  pure x := ⟨[], x⟩
  bind m f := ⟨m.addrs ++ (f m.val).addrs, (f m.val).val⟩

@[simp] theorem val_pure (x : β) : (pure x : Reads β).val = x := rfl

@[simp] theorem val_bind (m : Reads β) (f : β → Reads γ) : (m >>= f).val = (f m.val).val := rfl

theorem val_ite (c : Prop) [Decidable c] (m m' : Reads β) :
    (if c then m else m').val = if c then m.val else m'.val := by
  split <;> rfl

/-- All reads are below `n`. -/
def Within (n : ℕ) (m : Reads β) : Prop := ∀ k ∈ m.addrs, k < n

theorem within_pure (x : β) : Within n (pure x) := by
  intro k hk
  cases hk

theorem Within.bind {m : Reads β} {f : β → Reads γ} (hm : Within n m) (hf : Within n (f m.val)) :
    Within n (m >>= f) := by
  intro k hk
  cases List.mem_append.mp hk with
  | inl hk => exact hm k hk
  | inr hk => exact hf k hk

theorem Within.ite {c : Prop} [Decidable c] {m m' : Reads β} (hm : c → Within n m)
    (hm' : ¬ c → Within n m') : Within n (if c then m else m') := by
  split
  · next h => exact hm h
  · next h => exact hm' h

end Reads

/-- A pointer into a memory. -/
structure Pointer (α : Type u) where
  mem : ℕ → α
  addr : ℕ

namespace Pointer

variable {α : Type u} {m n : ℕ} (p : Pointer α)

def read (i : ℕ) : Reads α := ⟨[p.addr + i], p.mem (p.addr + i)⟩

/-- The pointer `p + n`. -/
def advance (n : ℕ) : Pointer α := ⟨p.mem, p.addr + n⟩

/-- The memory as it is seen from the pointer. -/
def view (i : ℕ) : α := p.mem (p.addr + i)

/-- The loop `dst[i] = p[i]` for `i < n`. -/
def copyTo (n : ℕ) (dst : Fin m → α) : Reads (Fin m → α) :=
  ⟨(List.range n).map (p.addr + ·), copyFirst n p.view dst⟩

variable {p} {i : ℕ}

@[simp] theorem val_read : (p.read i).val = p.view i := rfl

@[simp] theorem addr_advance : (p.advance n).addr = p.addr + n := rfl

theorem view_advance : (p.advance n).view = fun j => p.view (n + j) := by
  funext j
  simp [view, advance, Nat.add_assoc]

theorem within_read (h : p.addr + i < n) : Reads.Within n (p.read i) := by
  intro k hk
  rw [List.mem_singleton.mp hk]
  exact h

theorem within_copyTo {k : ℕ} {dst : Fin m → α} (h : p.addr + k ≤ n) :
    Reads.Within n (p.copyTo k dst) := by
  intro l hl
  obtain ⟨i, hi, rfl⟩ := List.mem_map.mp hl
  have hik := List.mem_range.mp hi
  omega

end Pointer

end NeverMind
