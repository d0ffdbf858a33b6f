import NeverMind.Verification.Pmm.MemoryMap

/-! # Ranges at the top of the address space

`mark_range_available` rounds the base of a range up in 64-bit arithmetic. For a base in the last
page of the address space the sum wraps, and the marked frames start at 0. -/

namespace NeverMind.Pmm

def BaseFits (r : MemRange) : Prop := r.base + pageSize ≤ 2 ^ 64

variable {r : MemRange}

theorem mem_innerFrames_of_baseFits (hend : r.base + r.length < 2 ^ 64) (hbase : BaseFits r)
    {f : ℕ} : f ∈ innerFrames r.base r.length ↔ FrameInside f r.base (r.base + r.length) := by
  simp only [BaseFits, innerFrames, FrameInside, pageSize, Finset.mem_Ico] at *
  rw [u64_of_lt (by omega), u64_of_lt (by omega)]
  omega

theorem mem_innerFrames_of_not_baseFits (hend : r.base + r.length < 2 ^ 64) (hbase : ¬ BaseFits r)
    {f : ℕ} (hf : f < maxFrames) : f ∈ innerFrames r.base r.length := by
  have hmax : maxFrames = 2 ^ 25 := by decide
  have hwrap : u64 (r.base + pageSize - 1) = r.base + pageSize - 1 - 2 ^ 64 := by
    simp only [BaseFits, u64, pageSize] at *
    omega
  rw [innerFrames, hwrap, u64_of_lt hend, Finset.mem_Ico]
  simp only [BaseFits, pageSize] at *
  omega

/-- Such a range also raises the limit to its maximum. -/
theorem limitFor_of_not_baseFits {ranges : List MemRange} (hr : r ∈ ranges)
    (htype : r.type = nmMemAvailable) (hend : r.base + r.length < 2 ^ 64) (hbase : ¬ BaseFits r) :
    limitFor (highestEnd (ranges.map rangeEvent)) = maxFrames := by
  have hmem : .entry ⟨r.base, r.length, r.type⟩ ∈ ranges.map rangeEvent :=
    List.mem_map.mpr ⟨r, hr, rfl⟩
  have hhigh := (highestEnd_le_iff.mp le_rfl).1 _ hmem htype
  have hmax : maxFrames = 2 ^ 25 := by decide
  rw [u64_of_lt hend] at hhigh
  simp only [BaseFits, limitFor, pageSize] at *
  omega

/-- The frames that no initialisation from ranges gives away when it manages all 128 GiB. -/
def kernelFramesAtMost (k : KernelImage) : Finset ℕ :=
  kernelFrames k (bitmapBaseFor k k.stop) (bitmapBytesFor maxFrames)

/-- Only frames of available ranges are free exactly if no available range has its base in the
last page of the address space, or the available ranges contain every frame that is not the
kernel's own. -/
theorem free_only_available_iff (k : KernelImage) (p₀ : Pmm) (ranges : List MemRange)
    (hranges : ∀ r ∈ ranges, r.base + r.length < 2 ^ 64) :
    (∀ f ∈ (p₀.pmmInitFromRanges k ranges).free, AvailableIn ranges f) ↔
      (∀ r ∈ ranges, r.type = nmMemAvailable → BaseFits r) ∨
        ∀ f < maxFrames, f ∉ kernelFramesAtMost k → AvailableIn ranges f := by
  have hb := pmmInitFromRanges_booted k ranges p₀
  have hfree (f : ℕ) := hb.mem_free_iff f
  simp only [freed_rangeEvent] at hfree
  by_cases hfits : ∀ r ∈ ranges, r.type = nmMemAvailable → BaseFits r
  · refine iff_of_true (fun f hf => ?_) (.inl hfits)
    obtain ⟨-, ⟨r, hr, htype, hin⟩, -⟩ := (hfree f).mp hf
    exact ⟨r, hr, htype, (mem_innerFrames_of_baseFits (hranges r hr) (hfits r hr htype)).mp hin⟩
  · rw [or_iff_right hfits]
    push Not at hfits
    obtain ⟨r, hr, htype, hbase⟩ := hfits
    -- the limit is the maximum, and every frame below it is marked
    have hlimit := hb.limit_eq.trans (limitFor_of_not_baseFits hr htype (hranges r hr) hbase)
    have hkernel : kernelFrames k (p₀.pmmInitFromRanges k ranges).bitmapPhysBase
        (p₀.pmmInitFromRanges k ranges).bitmapBytes = kernelFramesAtMost k := by
      rw [hb.base_eq, hb.bytes_eq, hlimit, kernelFramesAtMost]
    constructor
    · intro hall f hf hout
      refine hall f ((hfree f).mpr ⟨hlimit ▸ hf, ⟨r, hr, htype, ?_⟩, hkernel ▸ hout, by simp⟩)
      exact mem_innerFrames_of_not_baseFits (hranges r hr) hbase hf
    · intro hall f hf
      obtain ⟨hlt, -, hout, -⟩ := (hfree f).mp hf
      exact hall f (hlimit ▸ hlt) (hkernel ▸ hout)

/-- A range of 2 MiB that ends 4 KiB below the top of the address space is harmless. -/
theorem free_only_available_highRange :
    (∀ r ∈ [(⟨0, 0x400000, nmMemAvailable⟩ : MemRange),
        ⟨0xFFFFFFFFFFDFF000, 0x200000, nmMemAvailable⟩], r.base + r.length < 2 ^ 64) ∧
    ∀ f ∈ (zeroed.pmmInitFromRanges .atOneMiB
        [⟨0, 0x400000, nmMemAvailable⟩, ⟨0xFFFFFFFFFFDFF000, 0x200000, nmMemAvailable⟩]).free,
      AvailableIn [⟨0, 0x400000, nmMemAvailable⟩, ⟨0xFFFFFFFFFFDFF000, 0x200000, nmMemAvailable⟩]
        f := by
  refine ⟨by decide, (free_only_available_iff .atOneMiB zeroed _ (by decide)).mpr (.inl ?_)⟩
  simp [BaseFits, pageSize]

/-- An empty range in the last page makes the frame at 256 MiB free. -/
theorem top_range_frees_low_frame :
    (∀ r ∈ [(⟨0xFFFFFFFFFFFFF001, 0, nmMemAvailable⟩ : MemRange)], r.base + r.length < 2 ^ 64) ∧
    0x10000 ∈ (zeroed.pmmInitFromRanges .atOneMiB
      [⟨0xFFFFFFFFFFFFF001, 0, nmMemAvailable⟩]).free ∧
    ¬ AvailableIn [⟨0xFFFFFFFFFFFFF001, 0, nmMemAvailable⟩] 0x10000 := by
  have hb := pmmInitFromRanges_booted .atOneMiB [⟨0xFFFFFFFFFFFFF001, 0, nmMemAvailable⟩] zeroed
  have hlimit := hb.limit_eq.trans (by decide : _ = maxFrames)
  have hbase := hb.base_eq.trans (by decide : _ = 0x180000)
  have hbytes := hb.bytes_eq.trans (congrArg bitmapBytesFor hlimit)
  refine ⟨by decide, (hb.mem_free_iff _).mpr ⟨?_, ?_, ?_, by simp⟩, ?_⟩
  · rw [hlimit]
    decide
  · rw [freed_rangeEvent]
    refine ⟨_, List.mem_singleton_self _, rfl, ?_⟩
    exact mem_innerFrames_of_not_baseFits (by decide) (by simp [BaseFits, pageSize]) (by decide)
  · rw [hb.mem_kernelFrames (by decide), KernelReserved, hbase, hbytes,
      frameOverlaps_iff (by decide), frameOverlaps_iff (by decide), frameOverlaps_iff (by decide)]
    decide
  · simp [AvailableIn, FrameInside, pageSize]

end NeverMind.Pmm
