import Mathlib.Data.List.FinRange

/-! Fixed buffers that are filled and read from the front. -/

namespace NeverMind

open List

variable {α : Type*} {m : ℕ}

/-- The loop `buf[i] = data[i]` for `i < n`. -/
def copyFirst (n : ℕ) (data : ℕ → α) (buf : Fin m → α) : Fin m → α :=
  fun i => if i.val < n then data i.val else buf i

/-- The first `n` elements of a buffer. -/
def readFirst (n : ℕ) (buf : Fin m → α) : List α := ((finRange m).take n).map buf

@[simp] theorem readFirst_zero (buf : Fin m → α) : readFirst 0 buf = [] := by
  simp [readFirst]

theorem take_readFirst {n k : ℕ} (h : k ≤ n) (buf : Fin m → α) :
    (readFirst n buf).take k = readFirst k buf := by
  rw [readFirst, ← map_take, take_take, Nat.min_eq_left h, readFirst]

theorem prefix_readFirst {n k : ℕ} (h : k ≤ n) (buf : Fin m → α) :
    readFirst k buf <+: readFirst n buf := by
  rw [← take_readFirst h]
  exact take_prefix _ _

/-- What was copied to the front is read from there. -/
theorem readFirst_copyFirst {n : ℕ} (h : n ≤ m) (data : ℕ → α) (buf : Fin m → α) :
    readFirst n (copyFirst n data buf) = (range n).map data := by
  apply ext_getElem
  · simp [readFirst, h]
  · intro i hi hi'
    have hlt : i < n := by simpa using hi'
    simp [readFirst, copyFirst, hlt]

/-- The memory starts with the elements of a list. -/
def StartsWith (mem : ℕ → α) (l : List α) : Prop := (range l.length).map mem = l

section StartsWith

variable {mem : ℕ → α} {l l' : List α}

theorem startsWith_append :
    StartsWith mem (l ++ l') ↔ StartsWith mem l ∧ StartsWith (fun i => mem (l.length + i)) l' := by
  unfold StartsWith
  rw [length_append, range_add, map_append, map_map]
  constructor
  · intro h
    exact append_inj h (by simp)
  · rintro ⟨hl, hl'⟩
    rw [hl]
    exact congrArg (l ++ ·) hl'

theorem startsWith_cons {x : α} :
    StartsWith mem (x :: l) ↔ mem 0 = x ∧ StartsWith (fun i => mem (1 + i)) l := by
  have h := @startsWith_append α mem [x] l
  simpa [StartsWith] using h

/-- A list in memory that is 0 after it. -/
theorem startsWith_getD [Zero α] : StartsWith (fun i => l.getD i 0) l := by
  apply ext_getElem
  · simp
  · intro i hi hi'
    simp [hi']

end StartsWith

end NeverMind
