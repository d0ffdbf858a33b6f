import NeverMind.Library.Run
import NeverMind.Verification.Boot.BootMap
import NeverMind.Verification.Kheap.Runs
import NeverMind.Verification.Pmm.MemoryMap
import NeverMind.Verification.Pmm.Ownership

/-! # Frames used through physical pointers

`alloc_table` and `kmalloc` use the address of a frame as a pointer. The frames are those that the
memory map offers, wherever they lie, and the boot page tables map the first GiB. -/

namespace NeverMind

open Finset Kheap

namespace Pmm

/-! ## The frames that an input offers -/

/-- The frames that a list of records offers, with a bitmap at or above `minPhysBase` and with
`info` reserved besides the kernel's own frames. -/
def Offered (k : KernelImage) (events : List Mb2Event) (minPhysBase : ℕ) (info : Finset ℕ)
    (f : ℕ) : Prop :=
  f < limitFor (highestEnd events) ∧ Freed f events ∧
    f ∉ kernelFrames k (bitmapBaseFor k minPhysBase)
      (bitmapBytesFor (limitFor (highestEnd events))) ∧
    f ∉ info

def BootInput.Offers (k : KernelImage) (f : ℕ) : BootInput → Prop
  | .ranges rs => Offered k (rs.map rangeEvent) k.stop ∅ f
  | .multiboot2 mem ptr =>
    Usable mem ptr ∧ ∃ events, infoEvents mem ptr = some events ∧
      Offered k events (u64 (ptr + mem.load32 ptr)) (outerFrames ptr (mem.load32 ptr)) f

theorem Booted.mem_free_iff_offered {k : KernelImage} {events : List Mb2Event} {minPhysBase : ℕ}
    {info : Finset ℕ} {q : Pmm} (h : Booted k events (highestEnd events) minPhysBase info q)
    (f : ℕ) : f ∈ q.free ↔ Offered k events minPhysBase info f := by
  rw [h.mem_free_iff f, Offered, h.bytes_eq, h.base_eq, h.limit_eq]

theorem BootInput.mem_free_iff {k : KernelImage} {p₀ p : Pmm} {input : BootInput}
    (h : input.boot k p₀ = some p) (f : ℕ) : f ∈ p.free ↔ input.Offers k f := by
  cases input with
  | ranges rs =>
    obtain rfl : p₀.pmmInitFromRanges k rs = p := by simpa [BootInput.boot] using h
    exact (pmmInitFromRanges_booted k rs p₀).mem_free_iff_offered f
  | multiboot2 mem ptr =>
    by_cases hu : Usable mem ptr
    · obtain ⟨events, hevents, hb⟩ := pmmInitFromMultiboot2_booted hu h
      rw [hb.mem_free_iff_offered f, BootInput.Offers, hevents]
      simp [hu]
    · rw [BootInput.boot, pmmInitFromMultiboot2_of_not_usable hu] at h
      obtain rfl := Option.some.inj h
      simp [(initWithoutInfo_free k p₀).2, BootInput.Offers, hu]

theorem pmmAllocPages_free_subset {p : Pmm} (h : Accounting p) (count : ℕ) :
    (p.pmmAllocPages count).2.free ⊆ p.free := by
  rcases pmmAllocPages_spec h count with ⟨f, -, -, -, hfrees⟩ | ⟨heq, -⟩
  · rw [hfrees.free_eq]
    exact sdiff_subset
  · rw [heq]

end Pmm

/-- The page tables and the heap over one allocator of frames. -/
structure KernelMemory where
  vmm : Vmm Pmm
  heapMem : ℕ → BitVec 8
  freeList : ℕ

/-- The calls that obtain and give back memory, and what other code stores. -/
inductive MemoryCall where
  | allocTable
  | freeTable (table : ℕ)
  | kmalloc (fuel wanted : ℕ)
  | kfree (ptr : ℕ)
  | store (mem : ℕ → BitVec 8)

namespace KernelMemory

def heap (s : KernelMemory) : Kheap := ⟨s.heapMem, s.freeList, s.vmm.pmm⟩

def setHeap (h : Kheap) (s : KernelMemory) : KernelMemory :=
  ⟨{ s.vmm with pmm := h.pmm }, h.mem, h.freeList⟩

def step (c : MemoryCall) (s : KernelMemory) : KernelMemory :=
  match c with
  | .allocTable => { s with vmm := (s.vmm.allocTable Pmm.pages).2 }
  | .freeTable table => { s with vmm := s.vmm.freeTable Pmm.pages table }
  | .kmalloc fuel wanted =>
    match s.heap.kmalloc fuel wanted with
    | none => s
    | some r => s.setHeap r.2
  | .kfree ptr => s.setHeap (s.heap.kfree ptr)
  | .store mem => { s with heapMem := mem }

/-- The frames that a call obtains and uses through a pointer. -/
def dereferences (c : MemoryCall) (s : KernelMemory) : List ℕ :=
  match c with
  | .allocTable =>
    let table := (s.vmm.allocTable Pmm.pages).1
    if table = 0 then [] else Pmm.framesOf table 1
  | .kmalloc fuel wanted =>
    match obtained fuel wanted s.heap with
    | none => []
    | some run => List.range' run.first run.pages
  | .freeTable _ | .kfree _ | .store _ => []

/-- Tables that are given back were obtained before. -/
def Allowed (c : MemoryCall) (s : KernelMemory) : Prop :=
  match c with
  | .freeTable table => table ∈ s.vmm.tables
  | .allocTable | .kmalloc _ _ | .kfree _ | .store _ => True

def BelowGiB (c : MemoryCall) (s : KernelMemory) : Prop :=
  ∀ f ∈ dereferences c s, f * pageSize < 2 ^ 30

variable {s : KernelMemory} {p : Pmm}

/-! ## What a call obtains -/

theorem allocTable_fst (s : Vmm Pmm) : (s.allocTable Pmm.pages).1 = s.pmm.pmmAllocPage.1 := by
  unfold Vmm.allocTable
  dsimp only [Pmm.pages]
  split
  · rename_i hzero
    exact hzero.symm
  · rfl

theorem allocTable_pmm (s : Vmm Pmm) : (s.allocTable Pmm.pages).2.pmm = s.pmm.pmmAllocPage.2 := by
  unfold Vmm.allocTable
  dsimp only [Pmm.pages]
  split
  · rfl
  · rfl

theorem mem_tables_allocTable {s : Vmm Pmm} {t : ℕ} (h : t ∈ (s.allocTable Pmm.pages).2.tables) :
    t ∈ s.tables ∨ s.pmm.pmmAllocPage.1 ≠ 0 ∧ t = s.pmm.pmmAllocPage.1 := by
  unfold Vmm.allocTable at h
  dsimp only [Pmm.pages, physToPtr] at h
  split at h
  · exact .inl h
  · rename_i hne
    rcases mem_insert.mp h with rfl | hmem
    · exact .inr ⟨hne, rfl⟩
    · exact .inl hmem

theorem allocFrames_pmm (n wanted : ℕ) (heap : Kheap) :
    (heap.allocFrames n wanted).2.pmm = (heap.pmm.pmmAllocPages n).2 := by
  unfold allocFrames
  split
  · rfl
  · rw [carve_eq]
    split
    · rfl
    · rfl

/-- A call of `kmalloc` leaves the allocator, or takes a run from it. -/
theorem kmalloc_pmm {heap : Kheap} {fuel wanted : ℕ} {r : ℕ × Kheap}
    (h : heap.kmalloc fuel wanted = some r) :
    r.2.pmm = heap.pmm ∨ ∃ count, r.2.pmm = (heap.pmm.pmmAllocPages count).2 := by
  rcases kmalloc_cases h with ⟨-, -, rfl⟩ | ⟨prev, cur, -, -, rfl⟩ | ⟨-, -, rfl⟩
  · exact .inl rfl
  · exact .inl (by rw [pmm_setNext, pmm_setLink])
  · exact .inr ⟨pagesFor wanted, allocFrames_pmm _ _ _⟩

theorem kfree_pmm (heap : Kheap) (ptr : ℕ) : (heap.kfree ptr).pmm = heap.pmm := by
  unfold kfree
  split
  · rfl
  · dsimp only
    split
    · rfl
    · rfl

theorem dereferences_allocTable (s : KernelMemory) :
    dereferences .allocTable s =
      if s.vmm.pmm.pmmAllocPage.1 = 0 then [] else Pmm.framesOf s.vmm.pmm.pmmAllocPage.1 1 := by
  rw [← allocTable_fst]
  rfl

theorem obtained_free {heap : Kheap} (hacc : Pmm.Accounting heap.pmm) {fuel wanted : ℕ}
    {run : Run} (h : heap.obtained fuel wanted = some run) :
    Ico run.first (run.first + run.pages) ⊆ heap.pmm.free := by
  unfold obtained at h
  split at h
  · cases h
  · split at h
    · rcases Pmm.pmmAllocPages_spec hacc (pagesFor wanted) with
        ⟨g, -, hfree, haddr, -⟩ | ⟨heq, -⟩
      · rw [haddr] at h
        dsimp only at h
        split at h
        · cases h
        · cases h
          rwa [Nat.mul_div_cancel g (by decide)]
      · rw [heq] at h
        cases h
    · cases h

theorem mem_free_of_dereferences (hs : Pmm.Sound s.vmm.pmm) {c : MemoryCall} {f : ℕ}
    (h : f ∈ dereferences c s) : f ∈ s.vmm.pmm.free := by
  cases c with
  | allocTable =>
    rw [dereferences_allocTable] at h
    split at h
    · cases h
    · rcases Pmm.pmmAllocPage_spec hs with ⟨g, hg, haddr, -⟩ | ⟨heq, -⟩
      · rw [haddr, Pmm.mem_framesOf, Nat.Ico_succ_singleton, mem_singleton] at h
        rwa [h]
      · rename_i hne
        exact absurd (congrArg Prod.fst heq) hne
  | kmalloc fuel wanted =>
    rw [dereferences] at h
    split at h
    · cases h
    · rename_i run hrun
      apply obtained_free hs.toAccounting hrun
      rwa [List.mem_range'_1, ← mem_Ico] at h
  | freeTable table => cases h
  | kfree ptr => cases h
  | store mem => cases h

/-! ## Runs -/

/-- The allocator never holds a frame that was not free at the start, and neither do the tables. -/
structure Within (p : Pmm) (s : KernelMemory) : Prop where
  sound : Pmm.Sound s.vmm.pmm
  free : s.vmm.pmm.free ⊆ p.free
  tables : ∀ t ∈ s.vmm.tables, t / pageSize ∈ p.free

theorem Within.setHeap {h : Kheap} (hw : Within p s) (hsound : Pmm.Sound h.pmm)
    (hfree : h.pmm.free ⊆ s.vmm.pmm.free) : Within p (s.setHeap h) :=
  ⟨hsound, hfree.trans hw.free, hw.tables⟩

theorem Within.allocTable (h : Within p s) : Within p (step .allocTable s) := by
  refine ⟨?_, ?_, ?_⟩
  · rw [KernelMemory.step, allocTable_pmm]
    exact h.sound.pmmAllocPages 1
  · rw [KernelMemory.step, allocTable_pmm]
    exact (Pmm.pmmAllocPages_free_subset h.sound.toAccounting 1).trans h.free
  · intro t ht
    rcases mem_tables_allocTable ht with ht | ⟨hne, rfl⟩
    · exact h.tables t ht
    · exact h.free (Pmm.pageFree_of_pmmAllocPage h.sound hne).2

theorem Within.freeTable {table : ℕ} (hmem : table ∈ s.vmm.tables) (h : Within p s) :
    Within p (step (.freeTable table) s) := by
  have hfrees := Pmm.pmmFreePage_frees h.sound.toAccounting table
  refine ⟨h.sound.pmmFreePage table, ?_, ?_⟩
  · intro f hf
    change f ∈ (s.vmm.pmm.pmmFreePage table).free at hf
    rw [hfrees.free_eq] at hf
    split at hf
    · rcases mem_insert.mp hf with rfl | hf
      · exact h.tables table hmem
      · exact h.free hf
    · exact h.free hf
  · intro t ht
    exact h.tables t (mem_of_mem_erase ht)

theorem Within.kmalloc {fuel wanted : ℕ} (h : Within p s) :
    Within p (step (.kmalloc fuel wanted) s) := by
  rw [KernelMemory.step]
  split
  · exact h
  · rename_i r hr
    rcases kmalloc_pmm hr with heq | ⟨count, heq⟩
    · exact h.setHeap (heq ▸ h.sound) (heq ▸ Subset.rfl)
    · exact h.setHeap (heq ▸ h.sound.pmmAllocPages count)
        (heq ▸ Pmm.pmmAllocPages_free_subset h.sound.toAccounting count)

theorem Within.step {c : MemoryCall} (hc : Allowed c s) (h : Within p s) : Within p (step c s) := by
  cases c with
  | allocTable => exact h.allocTable
  | freeTable table => exact h.freeTable hc
  | kmalloc fuel wanted => exact h.kmalloc
  | kfree ptr =>
    have hpmm : (s.heap.kfree ptr).pmm = s.vmm.pmm := kfree_pmm s.heap ptr
    exact h.setHeap (hpmm ▸ h.sound) (hpmm ▸ Subset.rfl)
  | store mem => exact ⟨h.sound, h.free, h.tables⟩

theorem exists_allocTable_run {f : ℕ} (hs : Pmm.Sound s.vmm.pmm) (hf : f ∈ s.vmm.pmm.free)
    (habove : ¬ f * pageSize < 2 ^ 30) :
    ∃ n, ¬ EachStep step BelowGiB (List.replicate n .allocTable) s := by
  -- each call takes a free frame, so the induction is on how many there are
  induction hn : s.vmm.pmm.free.card generalizing s with
  | zero => simp [card_eq_zero.mp hn] at hf
  | succ n ih =>
    rcases Pmm.pmmAllocPage_spec hs with ⟨g, hg, haddr, hfrees⟩ | ⟨-, hempty⟩
    · by_cases hgf : f = g
      · subst hgf
        refine ⟨1, fun hall => habove (hall.1 f ?_)⟩
        have hne : f * pageSize ≠ 0 := by omega
        rw [dereferences_allocTable, haddr, if_neg hne, Pmm.mem_framesOf, Nat.Ico_succ_singleton]
        exact mem_singleton_self f
      · have hpmm : (step .allocTable s).vmm.pmm = s.vmm.pmm.pmmAllocPage.2 := allocTable_pmm s.vmm
        have hfree : f ∈ (step .allocTable s).vmm.pmm.free := by
          rw [hpmm, hfrees.free_eq]
          exact mem_erase.mpr ⟨hgf, hf⟩
        have hsound : Pmm.Sound (step .allocTable s).vmm.pmm := by
          rw [hpmm]
          exact hs.pmmAllocPages 1
        have hcard : (step .allocTable s).vmm.pmm.free.card = n := by
          rw [hpmm, hfrees.free_eq, card_erase_of_mem hg, hn]
          rfl
        obtain ⟨m, hm⟩ := ih hsound hfree hcard
        exact ⟨m + 1, fun hall => hm hall.2⟩
    · simp [hempty] at hf

theorem allowed_allocTable_run (n : ℕ) (s : KernelMemory) :
    EachStep step Allowed (List.replicate n .allocTable) s := by
  induction n generalizing s with
  | zero => trivial
  | succ n ih => exact ⟨trivial, ih (step .allocTable s)⟩

/-- With the boot page tables, physical memory is mapped up to 1 GiB and no further. After any
initialisation of the allocator, every run uses frames below 1 GiB exactly when the memory map
offers no frame above. -/
theorem dereferences_belowGiB_iff (k : KernelImage) (p₀ p : Pmm) (input : Pmm.BootInput)
    (hboot : input.boot k p₀ = some p) (s : KernelMemory) (hpmm : s.vmm.pmm = p)
    (htables : s.vmm.tables = ∅) (b : BootTables) (mem : ℕ → BitVec 64) :
    (∀ a < maxPhysMemBytes, hardwareWalk (b.setupPageTables mem) b.bootPml4 a =
      if a < 2 ^ 30 then some ⟨a, true, false⟩ else none) ∧
    ((∀ calls, EachStep step Allowed calls s → EachStep step BelowGiB calls s) ↔
      ∀ f, input.Offers k f → f * pageSize < 2 ^ 30) := by
  subst hpmm
  have hsound := Pmm.BootInput.boot_sound hboot
  refine ⟨fun a ha => b.hardwareWalk_phys mem ha, ?_, ?_⟩
  · intro hall f hf
    by_contra habove
    have hfree := (Pmm.BootInput.mem_free_iff hboot f).mpr hf
    obtain ⟨n, hn⟩ := exists_allocTable_run hsound hfree habove
    exact hn (hall _ (allowed_allocTable_run n s))
  · intro hoffers calls hallowed
    have hstart : Within s.vmm.pmm s := ⟨hsound, Subset.rfl, by simp [htables]⟩
    refine hallowed.eachStep (I := Within s.vmm.pmm) (fun c t hc ht => ht.step hc) ?_ hstart
    intro c t _ ht f hf
    have hfree := ht.free (mem_free_of_dereferences ht.sound hf)
    exact hoffers f ((Pmm.BootInput.mem_free_iff hboot f).mp hfree)

def afterBoot (ranges : List MemRange) : KernelMemory :=
  ⟨⟨Pmm.zeroed.pmmInitFromRanges .atOneMiB ranges, fun _ => 0, 0, ∅, []⟩, fun _ => 0, 0⟩

theorem boot_afterBoot (ranges : List MemRange) :
    (Pmm.BootInput.ranges ranges).boot .atOneMiB Pmm.zeroed = some (afterBoot ranges).vmm.pmm :=
  rfl

/-- The boot tables behind the first pages of an image at 1 MiB. -/
def bootTables : BootTables := ⟨0x105000, rfl, Nat.le_of_ble_eq_true rfl⟩

/-- On a machine of 4 MiB every run stays below 1 GiB. -/
theorem dereferences_belowGiB_fourMiB :
    ((Pmm.BootInput.ranges [⟨0, 0x400000, nmMemAvailable⟩]).boot .atOneMiB Pmm.zeroed =
        some (afterBoot [⟨0, 0x400000, nmMemAvailable⟩]).vmm.pmm ∧
      (afterBoot [⟨0, 0x400000, nmMemAvailable⟩]).vmm.tables = ∅) ∧
    EachStep step BelowGiB [.allocTable, .kmalloc 1 100, .kfree 0]
      (afterBoot [⟨0, 0x400000, nmMemAvailable⟩]) := by
  have hboot := boot_afterBoot [⟨0, 0x400000, nmMemAvailable⟩]
  have hiff := dereferences_belowGiB_iff .atOneMiB Pmm.zeroed _ _ hboot
    (afterBoot [⟨0, 0x400000, nmMemAvailable⟩]) rfl rfl bootTables fun _ => 0
  refine ⟨⟨hboot, rfl⟩, hiff.2.mpr ?_ _ ⟨trivial, trivial, trivial, trivial⟩⟩
  rintro f ⟨hlt, -⟩
  have hlimit : Pmm.limitFor (Pmm.highestEnd
      ([⟨0, 0x400000, nmMemAvailable⟩].map Pmm.rangeEvent)) = 0x400 := by decide
  rw [hlimit] at hlt
  simp only [pageSize]
  omega

/-! ## A machine with 2 GiB -/

theorem mem_free_afterBoot {ranges : List MemRange}
    (h : ∀ r ∈ ranges, r.base + r.length < 2 ^ 52) (f : ℕ) :
    f ∈ (afterBoot ranges).vmm.pmm.free ↔ f < (afterBoot ranges).vmm.pmm.frameLimit ∧
      Pmm.AvailableIn ranges f ∧ ¬ Pmm.KernelReserved .atOneMiB (afterBoot ranges).vmm.pmm f := by
  have hb := Pmm.pmmInitFromRanges_booted .atOneMiB ranges Pmm.zeroed
  simpa [afterBoot] using hb.mem_free_ranges h KernelImage.atOneMiB.stop_lt f

theorem free_afterBoot_twoGiB :
    Ico 0x200 0x80000 ⊆ (afterBoot [⟨0, 0x80000000, nmMemAvailable⟩]).vmm.pmm.free := by
  have hb := Pmm.pmmInitFromRanges_booted .atOneMiB [⟨0, 0x80000000, nmMemAvailable⟩] Pmm.zeroed
  have hlimit := hb.limit_eq.trans (by decide : _ = 0x80000)
  have hbase := hb.base_eq.trans (by decide : _ = 0x180000)
  have hbytes := hb.bytes_eq.trans (congrArg Pmm.bitmapBytesFor hlimit)
  intro f hf
  rw [mem_Ico] at hf
  rw [mem_free_afterBoot (by decide)]
  dsimp only [afterBoot]
  refine ⟨?_, ?_, ?_⟩
  · rw [hlimit]
    exact hf.2
  · refine ⟨⟨0, 0x80000000, nmMemAvailable⟩, List.mem_singleton_self _, rfl, ?_, ?_⟩
    · dsimp only
      omega
    · dsimp only [pageSize]
      omega
  · have hstop : KernelImage.atOneMiB.stop = 0x180000 := by decide
    have hstart : KernelImage.atOneMiB.start = 0x100000 := by decide
    rw [Pmm.KernelReserved, hbase, hbytes, hstart, hstop, Pmm.frameOverlaps_iff (by decide),
      Pmm.frameOverlaps_iff (by decide), Pmm.frameOverlaps_iff (by decide)]
    simp only [pageSize, Pmm.bitmapBytesFor]
    omega

theorem obtained_of_empty {heap : Kheap} {wanted g : ℕ} (hlist : heap.freeList = 0)
    (hwanted : wanted ≠ 0) (hg : g ≠ 0)
    (haddr : (heap.pmm.pmmAllocPages (pagesFor wanted)).1 = g * pageSize) :
    heap.obtained 1 wanted = some ⟨g, pagesFor wanted⟩ := by
  have hne : g * pageSize ≠ 0 := Nat.mul_ne_zero hg (by decide)
  rw [obtained, if_neg hwanted, hlist, scan, if_pos rfl]
  dsimp only
  rw [haddr, if_neg hne, Nat.mul_div_cancel g (by decide)]

/-- On that machine the first `kmalloc`, of 1.25 GiB, obtains a frame that is not mapped. -/
theorem kmalloc_dereferences_unmapped :
    ∃ f ∈ dereferences (.kmalloc 1 0x50000000) (afterBoot [⟨0, 0x80000000, nmMemAvailable⟩]),
      ¬ f * pageSize < 2 ^ 30 ∧
        hardwareWalk (bootTables.setupPageTables fun _ => 0) bootTables.bootPml4 (f * pageSize) =
          none := by
  have hsound := Pmm.BootInput.boot_sound (boot_afterBoot [⟨0, 0x80000000, nmMemAvailable⟩])
  have hfree := free_afterBoot_twoGiB
  generalize hs : afterBoot [⟨0, 0x80000000, nmMemAvailable⟩] = s at hsound hfree ⊢
  have hlist : s.heap.freeList = 0 := by
    rw [← hs]
    rfl
  have hpages : pagesFor 0x50000000 = 0x50001 := by decide
  rcases Pmm.pmmAllocPages_spec hsound.toAccounting (pagesFor 0x50000000) with
    ⟨g, -, hrun, haddr, -⟩ | ⟨-, hnone⟩
  · -- the run is longer than the map, so its last frame lies above 1 GiB
    rw [hpages] at hrun
    have hmem (f : ℕ) (hf : g ≤ f ∧ f < g + 0x50001) : f ∈ s.vmm.pmm.free := hrun (mem_Ico.mpr hf)
    have hlimit := Pmm.lt_limit_of_mem_free (hmem (g + 0x50000) (by omega))
    have hmax : s.vmm.pmm.frameLimit ≤ 0x2000000 := hsound.limit_le
    have hg : g ≠ 0 := by
      rintro rfl
      exact hsound.zero_used (hmem 0 (by omega))
    have habove : ¬ (g + 0x50000) * pageSize < 2 ^ 30 := by
      simp only [pageSize]
      omega
    have hbelow : (g + 0x50000) * pageSize < maxPhysMemBytes := by
      have hframes : maxPhysMemBytes = 0x2000000 * pageSize := by decide
      rw [hframes]
      exact Nat.mul_lt_mul_of_pos_right (hlimit.trans_le hmax) (by decide)
    refine ⟨g + 0x50000, ?_, habove, ?_⟩
    · rw [dereferences, obtained_of_empty hlist (by decide) hg haddr]
      dsimp only
      rw [hpages, List.mem_range'_1]
      omega
    · rw [bootTables.hardwareWalk_phys _ hbelow, if_neg habove]
  · rw [hpages] at hnone
    have hsub : Ico 0x200 (0x200 + 0x50001) ⊆ Ico 0x200 0x80000 := Ico_subset_Ico_right (by omega)
    rcases hnone with hzero | hnone
    · omega
    · exact absurd (hsub.trans hfree) (hnone 0x200)

end KernelMemory

end NeverMind
