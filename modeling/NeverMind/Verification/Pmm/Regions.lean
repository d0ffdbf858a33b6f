import NeverMind.Verification.Pmm.Init

/-! # Frames and byte ranges

The allocator rounds available ranges inwards and reserved ranges outwards. Read in
bytes, a cleared frame lies inside its range and a reserved frame overlaps its range. -/

namespace NeverMind.Pmm

def FrameInside (f lo hi : ℕ) : Prop := lo ≤ pageSize * f ∧ pageSize * f + pageSize ≤ hi

def FrameOverlaps (f lo hi : ℕ) : Prop :=
  ∃ a, (lo ≤ a ∧ a < hi) ∧ pageSize * f ≤ a ∧ a < pageSize * f + pageSize

theorem frameOverlaps_iff {f lo hi : ℕ} (h : lo < hi) :
    FrameOverlaps f lo hi ↔ lo < pageSize * f + pageSize ∧ pageSize * f < hi := by
  simp only [FrameOverlaps, pageSize]
  constructor
  · rintro ⟨a, ha⟩
    omega
  · intro hf
    exact ⟨max lo (4096 * f), by omega⟩

theorem mem_innerFrames {f base length : ℕ} (h : base + length < 2 ^ 52) :
    f ∈ innerFrames base length ↔ FrameInside f base (base + length) := by
  simp only [innerFrames, FrameInside, pageSize, Finset.mem_Ico]
  rw [u64_of_lt (by omega), u64_of_lt (by omega)]
  omega

theorem mem_outerFrames {base length : ℕ} (f : ℕ) (hpos : 0 < length)
    (h : base + length + pageSize ≤ 2 ^ 64) :
    f ∈ outerFrames base length ↔ FrameOverlaps f base (base + length) := by
  rw [frameOverlaps_iff (by omega)]
  simp only [outerFrames, pageSize, Finset.mem_Ico] at *
  rw [u64_of_lt (by omega)]
  omega

/-! ## The regions reserved on every path -/

/-- The frame overlaps the low MiB, the kernel image or the bitmap of `q`. -/
def KernelReserved (k : KernelImage) (q : Pmm) (f : ℕ) : Prop :=
  FrameOverlaps f 0 0x100000 ∨ FrameOverlaps f k.start k.stop ∨
    FrameOverlaps f q.bitmapPhysBase (q.bitmapPhysBase + q.bitmapBytes)

theorem bitmapBaseFor_bounds (k : KernelImage) {minPhysBase : ℕ} (h : minPhysBase < 2 ^ 52) :
    minPhysBase ≤ bitmapBaseFor k minPhysBase ∧ k.stop ≤ bitmapBaseFor k minPhysBase ∧
      bitmapBaseFor k minPhysBase < 2 ^ 53 := by
  have hk := k.stop_lt
  unfold bitmapBaseFor alignUpU64
  rw [u64_of_lt (by simp only [pageSize]; omega)]
  simp only [pageSize]
  omega

theorem bitmapBytesFor_bounds {limit : ℕ} (hpos : 0 < limit) (h : limit ≤ 2 ^ 25) :
    0 < bitmapBytesFor limit ∧ bitmapBytesFor limit ≤ 2 ^ 22 := by
  unfold bitmapBytesFor
  omega

section

variable {k : KernelImage} {events : List Mb2Event} {high minPhysBase : ℕ}
  {info : Finset ℕ} {q : Pmm}

theorem Booted.mem_kernelFrames (h : Booted k events high minPhysBase info q)
    (hmin : minPhysBase < 2 ^ 52) (f : ℕ) :
    f ∈ kernelFrames k q.bitmapPhysBase q.bitmapBytes ↔ KernelReserved k q f := by
  have hstart := k.start_lt_stop
  have hstop := k.stop_lt
  have hbase := bitmapBaseFor_bounds k hmin
  have hbytes := bitmapBytesFor_bounds h.accounting.limit_pos h.accounting.limit_lt
  rw [← h.base_eq] at hbase
  rw [← h.bytes_eq] at hbytes
  have hsub : u64Sub k.stop k.start = k.stop - k.start := u64Sub_of_le hstart.le (by omega)
  have hlow : f ∈ outerFrames 0 0x100000 ↔ FrameOverlaps f 0 0x100000 := by
    have h := mem_outerFrames f (by decide : 0 < 0x100000)
      (by decide : 0 + 0x100000 + pageSize ≤ 2 ^ 64)
    simpa using h
  have himage : f ∈ outerFrames k.start (k.stop - k.start) ↔ FrameOverlaps f k.start k.stop := by
    rw [mem_outerFrames f (by omega) (by simp only [pageSize]; omega),
      Nat.add_sub_cancel' hstart.le]
  have hroom : q.bitmapPhysBase + q.bitmapBytes + pageSize ≤ 2 ^ 64 := by
    simp only [pageSize]
    omega
  have hbitmap := mem_outerFrames f hbytes.1 hroom
  rw [kernelFrames, hsub, Finset.mem_union, Finset.mem_union, hlow, himage, hbitmap, or_assoc]
  rfl

theorem Booted.zero_notMem_free (h : Booted k events high minPhysBase info q) : 0 ∉ q.free := by
  intro hmem
  obtain ⟨-, -, hkernel, -⟩ := (h.mem_free_iff 0).mp hmem
  apply hkernel
  have hzero : 0 ∈ outerFrames 0 0x100000 := by decide
  simp [kernelFrames, hzero]

end

end NeverMind.Pmm
