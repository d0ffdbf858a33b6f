import NeverMind.Model.Tmpfs
import NeverMind.Verification.Fs.Steps

/-! # Buffers of files

What a write does to the buffer of a file, for both file systems: a comparison of the capacity with
the sum of the offset and the length, kept in 64 bits, and then the stores. A sum that wraps passes
the comparison, and the stores go outside. -/

namespace NeverMind

/-- The buffer of a file. -/
structure FileBuffer where
  data : Option (ℕ → Byte)
  size : ℕ
  capacity : ℕ

/-- The indices `offset + i`, for `i < len`, at which the loop of a write stores. -/
def storeIndices (offset len : ℕ) : List ℕ := (List.range len).map fun i => u64 (offset + i)

namespace FileBuffer

def byte (b : FileBuffer) (k : ℕ) : Byte := b.data.getD (fun _ => 0) k

def store (src : ℕ → Byte) (offset len : ℕ) (b : FileBuffer) : FileBuffer where
  data := b.data.map (Tmpfs.storeBytes offset len src)
  size := if u64 (offset + len) > b.size then u64 (offset + len) else b.size
  capacity := b.capacity

/-- The file has the bytes of `src` already, and no others. -/
def Equals (src : ℕ → Byte) (len : ℕ) (b : FileBuffer) : Prop :=
  b.size = len ∧ ∀ k < len, b.byte k = src k

/-- A write of the buffer stays inside, and has no effect if it returns an error. -/
structure Inside (before after : FileBuffer) (stores : List ℕ) (ret : ℤ) : Prop where
  stores : ∀ k ∈ stores, k < after.capacity
  fits : after.size ≤ after.capacity
  grows : before.size ≤ after.size
  failed : ret < 0 → after.size = before.size ∧ ∀ k < before.size, after.byte k = before.byte k

variable {b b' : FileBuffer} {src : ℕ → Byte} {offset len : ℕ}

theorem inside_self (h : b.size ≤ b.capacity) (ret : ℤ) : Inside b b [] ret where
  stores := by simp
  fits := h
  grows := Nat.le_refl _
  failed := fun _ => ⟨rfl, fun _ _ => rfl⟩

variable {k : ℕ}

/-- The indices of the stores are those that `storeBytes` changes. -/
theorem mem_storeIndices (hk : k < 2 ^ 64) (hlen : len ≤ 2 ^ 64) :
    k ∈ storeIndices offset len ↔ u64Sub k offset < len := by
  simp only [storeIndices, List.mem_map, List.mem_range]
  unfold u64Sub u64
  constructor
  · rintro ⟨i, hi, rfl⟩
    omega
  · intro hlt
    exact ⟨(k + (2 ^ 64 - offset % 2 ^ 64)) % 2 ^ 64, hlt, by omega⟩

theorem last_mem_storeIndices (hoffset : offset < 2 ^ 64) (hlen : len < 2 ^ 64)
    (hwraps : 2 ^ 64 ≤ offset + len) : 2 ^ 64 - 1 ∈ storeIndices offset len := by
  rw [mem_storeIndices (by decide) (by omega), u64Sub_of_le (by omega) (by decide)]
  omega

theorem lt_of_mem_storeIndices (hend : offset + len < 2 ^ 64) (hk : k ∈ storeIndices offset len) :
    k < offset + len := by
  simp only [storeIndices, List.mem_map, List.mem_range] at hk
  obtain ⟨i, hi, rfl⟩ := hk
  rw [u64_of_lt (by omega)]
  omega

theorem byte_store_zero (hdata : b.data.isSome) (hk : k < len) (hlen : len < 2 ^ 64) :
    (b.store src 0 len).byte k = src k := by
  obtain ⟨data, hsome⟩ := Option.isSome_iff_exists.mp hdata
  have hindex : u64Sub k 0 = k := u64Sub_of_le (Nat.zero_le k) (by omega)
  rw [byte, store, hsome, Option.map_some, Option.getD_some, Tmpfs.storeBytes, hindex, if_pos hk]

/-- What stands in front of the stores of a write: the bytes of the file in a buffer that the
comparison finds large enough. -/
structure Reserved (need : ℕ) (b b' : FileBuffer) : Prop where
  size : b'.size = b.size
  bytes : ∀ k < b.size, b'.byte k = b.byte k
  fits : b.size ≤ b'.capacity
  need : need ≤ b'.capacity
  bounded : b'.capacity ≤ 2 ^ 63
  present : b'.capacity ≠ 0 → b'.data.isSome

/-- Only a write of `2 ^ 63` bytes at the start of a file returns a negative length. -/
theorem Reserved.start_of_large (h : Reserved (u64 (offset + len)) b b')
    (hend : offset + len < 2 ^ 64) (hlarge : 2 ^ 63 ≤ len) : offset = 0 ∧ len = 2 ^ 63 := by
  have hneed := h.need
  have hbounded := h.bounded
  rw [u64_of_lt hend] at hneed
  omega

theorem Reserved.size_store (h : Reserved (u64 (offset + len)) b b')
    (hend : offset + len < 2 ^ 64) :
    (b'.store src offset len).size = max b.size (offset + len) := by
  unfold store
  rw [h.size, u64_of_lt hend]
  dsimp only
  split <;> omega

/-- The stores of a write stay inside exactly if the end does not wrap around, and, for the one
length that is returned as a negative number, if they change nothing. -/
theorem Reserved.inside_iff (h : Reserved (u64 (offset + len)) b b') (src : ℕ → Byte)
    (hoffset : offset < 2 ^ 64) (hlen : len < 2 ^ 64) :
    Inside b (b'.store src offset len) (storeIndices offset len) (i64 len) ↔
      offset + len < 2 ^ 64 ∧ (len < 2 ^ 63 ∨ b.Equals src len) := by
  have hbounded := h.bounded
  have hcapacity : (b'.store src offset len).capacity = b'.capacity := rfl
  constructor
  · intro hin
    have hend : offset + len < 2 ^ 64 := by
      by_contra hwraps
      have hlast := hin.stores _ (last_mem_storeIndices hoffset hlen (by omega))
      omega
    refine ⟨hend, ?_⟩
    by_cases hsmall : len < 2 ^ 63
    · exact .inl hsmall
    · obtain ⟨rfl, hmost⟩ := h.start_of_large hend (by omega)
      obtain ⟨hsize, hbytes⟩ := hin.failed (i64_neg_of_le (by omega) (by omega))
      have hfits := h.fits
      rw [h.size_store hend] at hsize
      have hfull : b.size = len := by omega
      refine .inr ⟨hfull, ?_⟩
      intro k hk
      rw [← hbytes k (by omega)]
      exact byte_store_zero (h.present (by omega)) hk hlen
  · rintro ⟨hend, hreturned⟩
    have hneed := h.need
    rw [u64_of_lt hend] at hneed
    refine ⟨?_, ?_, ?_, ?_⟩
    · intro k hk
      have hlt := lt_of_mem_storeIndices hend hk
      omega
    · rw [h.size_store hend, hcapacity]
      exact Nat.max_le.mpr ⟨h.fits, hneed⟩
    · rw [h.size_store hend]
      exact Nat.le_max_left _ _
    · intro hret
      rcases hreturned with hsmall | ⟨hsize, hbytes⟩
      · rw [i64_of_lt (by omega) (by omega)] at hret
        omega
      · by_cases hsmall : len < 2 ^ 63
        · rw [i64_of_lt (by omega) (by omega)] at hret
          omega
        · obtain ⟨rfl, -⟩ := h.start_of_large hend (by omega)
          refine ⟨by rw [h.size_store hend]; omega, ?_⟩
          intro k hk
          rw [hsize] at hk
          rw [hbytes k hk]
          exact byte_store_zero (h.present (by omega)) hk hlen

end FileBuffer

/-! ## A file system with buffers -/

/-- A file system with the buffers of its files, the indices at which a write stores, and the
states in which it stores nothing. -/
structure BufferedFs (T R : Type*) where
  fs : Filesystem T R
  type : R → T → NodeType
  buffer : R → T → FileBuffer
  stores : ℕ → NmAlloc → R → ℕ → ℕ → T → List ℕ
  Refuses : NmAlloc → ℕ → R → T → Prop

namespace BufferedFs

variable {T R : Type*}

/-- What a write of a regular file can have done, and the indices of its stores. -/
inductive Writes (v : BufferedFs T R) (alloc : NmAlloc) (r : R) (src : ℕ → Byte)
    (offset len : ℕ) (t : T) : Option (ℤ × T) → List ℕ → Prop where
  | running : Writes v alloc r src offset len t none []
  | refused (hrefuses : v.Refuses alloc (u64 (offset + len)) r t) :
      Writes v alloc r src offset len t (some (nmErr nmEfail, t)) []
  | stored {t' : T} {b : FileBuffer} (hgranted : ¬ v.Refuses alloc (u64 (offset + len)) r t)
      (hreserved : FileBuffer.Reserved (u64 (offset + len)) (v.buffer r t) b)
      (hbuffer : v.buffer r t' = b.store src offset len) :
      Writes v alloc r src offset len t (some (i64 len, t')) (storeIndices offset len)

/-- The writes of a file system are as `Writes` says, and one that is not refused returns. -/
structure Lawful (v : BufferedFs T R) (I : T → Prop) : Prop where
  fits : ∀ {t} r, I t → (v.buffer r t).size ≤ (v.buffer r t).capacity
  writes : ∀ {t r}, I t → v.type r t = .file → ∀ fuel alloc src offset len,
    v.Writes alloc r src offset len t (v.fs.write fuel alloc r src offset len t)
      (v.stores fuel alloc r offset len t)
  returns : ∀ {t r}, I t → v.type r t = .file → ∀ alloc src offset len,
    ¬ v.Refuses alloc (u64 (offset + len)) r t →
      ∃ fuel, (v.fs.write fuel alloc r src offset len t).isSome

variable {v : BufferedFs T R} {I : T → Prop} {alloc : NmAlloc} {r : R} {src : ℕ → Byte}
  {offset len : ℕ} {t : T} {w : Option (ℤ × T)} {stores : List ℕ}

/-- A write has stored nothing as long as it has not returned, and stays inside when it does. -/
def StaysInside (v : BufferedFs T R) (r : R) (t : T) (w : Option (ℤ × T)) (stores : List ℕ) :
    Prop :=
  (w = none → stores = []) ∧
    ∀ ret t', w = some (ret, t') → (v.buffer r t).Inside (v.buffer r t') stores ret

/-- The end of a write does not wrap around, and its length is returned as it is unless the file
has these bytes already. -/
def EndFits (offset : ℕ) (src : ℕ → Byte) (len : ℕ) (b : FileBuffer) : Prop :=
  offset + len < 2 ^ 64 ∧ (len < 2 ^ 63 ∨ b.Equals src len)

theorem Writes.staysInside_iff (h : v.Writes alloc r src offset len t w stores)
    (hfits : (v.buffer r t).size ≤ (v.buffer r t).capacity) (hoffset : offset < 2 ^ 64)
    (hlen : len < 2 ^ 64) :
    v.StaysInside r t w stores ↔ w = none ∨ v.Refuses alloc (u64 (offset + len)) r t ∨
        EndFits offset src len (v.buffer r t) := by
  cases h with
  | running =>
    refine ⟨fun _ => .inl rfl, fun _ => ⟨fun _ => rfl, ?_⟩⟩
    rintro ret t' ⟨⟩
  | refused hrefuses =>
    refine ⟨fun _ => .inr (.inl hrefuses), fun _ => ⟨fun _ => rfl, ?_⟩⟩
    rintro ret t' ⟨⟩
    exact FileBuffer.inside_self hfits _
  | @stored t' b hgranted hreserved hbuffer =>
    have hinside := hreserved.inside_iff src hoffset hlen
    rw [← hbuffer] at hinside
    constructor
    · intro hin
      exact .inr (.inr (hinside.mp (hin.2 _ _ rfl)))
    · rintro (hnone | hrefuses | hend)
      · cases hnone
      · exact absurd hrefuses hgranted
      · refine ⟨fun hnone => absurd hnone (Option.some_ne_none _), ?_⟩
        intro ret t₁ hreturned
        obtain ⟨rfl, rfl⟩ := Prod.mk.inj (Option.some.inj hreturned)
        exact hinside.mpr hend

/-- The writes at every fuel stay inside exactly if the write is refused or its end fits. -/
theorem Lawful.staysInside_iff (h : v.Lawful I) (hI : I t) (htype : v.type r t = .file)
    (hoffset : offset < 2 ^ 64) (hlen : len < 2 ^ 64) :
    (∀ fuel, v.StaysInside r t (v.fs.write fuel alloc r src offset len t)
        (v.stores fuel alloc r offset len t)) ↔
      v.Refuses alloc (u64 (offset + len)) r t ∨ EndFits offset src len (v.buffer r t) := by
  have hstep := fun fuel =>
    (h.writes hI htype fuel alloc src offset len).staysInside_iff (h.fits r hI) hoffset hlen
  constructor
  · intro hin
    by_cases hrefuses : v.Refuses alloc (u64 (offset + len)) r t
    · exact .inl hrefuses
    · obtain ⟨fuel, hreturns⟩ := h.returns hI htype alloc src offset len hrefuses
      rcases (hstep fuel).mp (hin fuel) with hnone | hcondition
      · rw [hnone] at hreturns
        cases hreturns
      · exact hcondition
  · intro hcondition fuel
    exact (hstep fuel).mpr (.inr hcondition)

end BufferedFs

namespace Vfs

variable {T R : Type*} {s : Vfs T R} {fd : ℤ} {i : FileRef} {r : R}

/-- A write to a descriptor stays inside the buffer of its file. As long as it has not returned it
has stored nothing. -/
def WritesInside (v : BufferedFs T R) (alloc : NmAlloc) (fd : ℤ) (i : FileRef) (r : R)
    (src : ℕ → Byte) (len : ℕ) (s : Vfs T R) : Prop :=
  ∀ fuel, (s.fsWrite v.fs fuel alloc fd (some src) len = none →
      v.stores fuel alloc r (s.fdTable i).offset len s.nodes = []) ∧
    ∀ ret s', s.fsWrite v.fs fuel alloc fd (some src) len = some (ret, s') →
      (v.buffer r s.nodes).Inside (v.buffer r s'.nodes)
        (v.stores fuel alloc r (s.fdTable i).offset len s.nodes) ret

/-- A regular file that is open in a state that can be reached. -/
structure OpenFile (v : BufferedFs T R) (boot s : Vfs T R) (fd : ℤ) (i : FileRef) (r : R) :
    Prop where
  reached : Reached v.fs boot s
  opened : s.getVnode v.fs fd = some (i, r)
  regular : v.type r s.nodes = .file

theorem writesInside_iff {v : BufferedFs T R} (hopen : s.getVnode v.fs fd = some (i, r))
    (alloc : NmAlloc) (src : ℕ → Byte) (len : ℕ) :
    WritesInside v alloc fd i r src len s ↔ ∀ fuel, v.StaysInside r s.nodes
        (v.fs.write fuel alloc r src (s.fdTable i).offset len s.nodes)
        (v.stores fuel alloc r (s.fdTable i).offset len s.nodes) := by
  unfold WritesInside BufferedFs.StaysInside
  refine forall_congr' fun fuel => ?_
  rw [fsWrite_eq hopen]
  cases v.fs.write fuel alloc r src (s.fdTable i).offset len s.nodes with
  | none => simp
  | some w =>
    obtain ⟨ret, t'⟩ := w
    simp [nodes_advance]

end Vfs

end NeverMind
