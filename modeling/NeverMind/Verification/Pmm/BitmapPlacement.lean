import NeverMind.Verification.Pmm.Modules
import Mathlib.Order.CompletePartialOrder
import Mathlib.Order.Interval.Set.Disjoint

/-! # Where the bitmap is placed

`init_runtime_bitmap` puts the bitmap on the first page above the information block and the
kernel image. It does not look at the modules, and `mark_all_used` overwrites the bitmap's bytes
before any module is reserved. -/

namespace NeverMind.Pmm

def bitmapRegion (q : Pmm) : Set ℕ := Set.Ico q.bitmapPhysBase (q.bitmapPhysBase + q.bitmapBytes)

/-- The bitmap overwrites nothing of the kernel, the block and the modules. -/
structure BitmapClear (k : KernelImage) (mem : Memory) (ptr : ℕ) (tags : List BootTag) (q : Pmm) :
    Prop where
  image : Disjoint q.bitmapRegion (Set.Ico k.start k.stop)
  info : Disjoint q.bitmapRegion (Set.Ico ptr (ptr + mem.load32 ptr))
  modules : ∀ m n, .module m n ∈ tags → Disjoint q.bitmapRegion (Set.Ico m.modStart m.modEnd)

/-- The first page boundary at or above an address and the end of the kernel image. -/
def firstPageAbove (k : KernelImage) (a : ℕ) : ℕ := (max a k.stop + 4095) / 4096 * 4096

/-- Every nonempty module ends below the first page above the block and the kernel, or starts
behind a bitmap on that page. -/
def ModulesAside (k : KernelImage) (mem : Memory) (ptr : ℕ) (tags : List BootTag) : Prop :=
  let first := firstPageAbove k (ptr + mem.load32 ptr)
  ∀ m n, .module m n ∈ tags → m.modStart < m.modEnd →
    m.modEnd ≤ first ∨
      first + bitmapBytesFor (limitFor (highestEnd (tagListEvents tags))) ≤ m.modStart

theorem bitmapBaseFor_eq (k : KernelImage) {a : ℕ} (h : a < 2 ^ 52) :
    bitmapBaseFor k a = firstPageAbove k a := by
  have hk := k.stop_lt
  rw [bitmapBaseFor, alignUpU64, u64_of_lt (by simp only [pageSize]; omega)]
  simp only [firstPageAbove, pageSize]
  omega

theorem Ico_disjoint_of_lt {a b c d : ℕ} (hab : a < b) (hcd : c < d) :
    Disjoint (Set.Ico a b) (Set.Ico c d) ↔ d ≤ a ∨ b ≤ c := by
  rw [Set.Ico_disjoint_Ico]
  omega

section

variable {k : KernelImage} {mem : Memory} {ptr : ℕ} {tags : List BootTag} {q : Pmm}

/-- The bitmap lies above the block and the kernel image, so only a module can collide. -/
theorem bitmapClear_iff (h : WellFormedInfo mem ptr tags)
    (hb : Booted k (tagListEvents tags) (highestEnd (tagListEvents tags)) (ptr + mem.load32 ptr)
      (outerFrames ptr (mem.load32 ptr)) q) :
    BitmapClear k mem ptr tags q ↔ ModulesAside k mem ptr tags := by
  have habove := bitmapBaseFor_bounds k h.below
  have hpos := (bitmapBytesFor_bounds hb.accounting.limit_pos hb.accounting.limit_lt).1
  have hbase := hb.base_eq.trans (bitmapBaseFor_eq k h.below)
  rw [← hb.base_eq] at habove
  rw [← hb.bytes_eq] at hpos
  have hregion {c d : ℕ} (hcd : c < d) : Disjoint q.bitmapRegion (Set.Ico c d) ↔
      d ≤ q.bitmapPhysBase ∨ q.bitmapPhysBase + q.bitmapBytes ≤ c :=
    Ico_disjoint_of_lt (by omega) hcd
  have hsize := h.usable.2
  simp only [mb2InfoHeaderSize] at hsize
  have himage := (hregion k.start_lt_stop).mpr (.inl habove.2.1)
  have hinfo := (hregion (c := ptr) (by omega)).mpr (.inl habove.1)
  simp only [ModulesAside, ← hbase, ← hb.limit_eq, ← hb.bytes_eq]
  constructor
  · intro hclear m n hm hne
    exact (hregion hne).mp (hclear.modules m n hm)
  · intro haside
    refine ⟨himage, hinfo, fun m n hm => ?_⟩
    rcases lt_or_ge m.modStart m.modEnd with hne | hempty
    · exact (hregion hne).mpr (haside m n hm hne)
    · rw [Set.Ico_eq_empty_of_le hempty]
      exact Set.disjoint_empty _

end

/-- The bitmap of a well-formed block overwrites nothing in use exactly if no module
overlaps the bytes a bitmap needs on the first page above the block and the kernel. -/
theorem bitmap_placement_iff (k : KernelImage) (p₀ : Pmm) (mem : Memory) (ptr : ℕ)
    (tags : List BootTag) (h : WellFormedInfo mem ptr tags) :
    (∃ q, p₀.pmmInitFromMultiboot2 k mem ptr = some q ∧ BitmapClear k mem ptr tags q) ↔
      ModulesAside k mem ptr tags := by
  obtain ⟨q, hq, hb⟩ := h.booted k p₀
  rw [← bitmapClear_iff h hb]
  constructor
  · rintro ⟨q', hq', hclear⟩
    obtain rfl : q = q' := Option.some.inj (hq.symm.trans hq')
    exact hclear
  · exact fun hclear => ⟨q, hq, hclear⟩

theorem bitmap_placement_mapFirst :
    ∃ q, zeroed.pmmInitFromMultiboot2 .atOneMiB mapFirst 0x10000 = some q ∧
      BitmapClear .atOneMiB mapFirst 0x10000 [fourMiBTag, ramdiskTag] q := by
  refine (bitmap_placement_iff .atOneMiB zeroed mapFirst 0x10000 _ mapFirst_wellFormed).mpr ?_
  rintro m n hm -
  obtain ⟨rfl, -⟩ : m = ⟨0x300000, 0x301000⟩ ∧ n = 16 := by
    simpa [fourMiBTag, ramdiskTag] using hm
  exact .inr (by decide)

def moduleBehindKernel : Memory :=
  wordsAt 0x10000 [72, 0, 6, 40, 24, 0, 0, 0, 0x400000, 0, 1, 0, 3, 16, 0x180000, 0x181000, 0, 8]

/-- The bitmap overwrites the first bytes of that module. -/
theorem bitmap_overwrites_moduleBehindKernel :
    ∃ q, WellFormedInfo moduleBehindKernel 0x10000
        [fourMiBTag, .module ⟨0x180000, 0x181000⟩ 16] ∧
      zeroed.pmmInitFromMultiboot2 .atOneMiB moduleBehindKernel 0x10000 = some q ∧
      0x180000 ∈ q.bitmapRegion ∩ Set.Ico 0x180000 0x181000 := by
  have hwell : WellFormedInfo moduleBehindKernel 0x10000
      [fourMiBTag, .module ⟨0x180000, 0x181000⟩ 16] :=
    ⟨by decide, by decide, by decide⟩
  obtain ⟨q, hq, hb⟩ := hwell.booted .atOneMiB zeroed
  have hbase := hb.base_eq.trans (by decide : _ = 0x180000)
  have hpos := (bitmapBytesFor_bounds hb.accounting.limit_pos hb.accounting.limit_lt).1
  rw [← hb.bytes_eq] at hpos
  refine ⟨q, hwell, hq, ?_, by simp⟩
  rw [bitmapRegion, hbase, Set.mem_Ico]
  omega

end NeverMind.Pmm
