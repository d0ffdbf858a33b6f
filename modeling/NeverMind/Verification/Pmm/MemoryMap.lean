import NeverMind.Verification.Pmm.Accounting
import NeverMind.Verification.Pmm.InfoBlock

/-! # The memory map is read exactly

Without modules a frame is free after the initialisation exactly when one available
range contains it and no reserved region overlaps it, on both paths. Neither the order
of the ranges nor their repetition matters. -/

namespace NeverMind.Pmm

open List

/-! ## The end of the available memory -/

theorem raise_le_iff {a h x : ℕ} : (if a > h then a else h) ≤ x ↔ h ≤ x ∧ a ≤ x := by
  split <;> omega

theorem runEvents_highestEnd_le (events : List Mb2Event) (h x : ℕ) :
    runEvents (fun e h => raiseHighestEnd h e.addr e.len e.type)
        (fun m h => if m.modEnd > h then m.modEnd else h) events h ≤ x ↔
      h ≤ x ∧ (∀ e, .entry e ∈ events → e.type = nmMemAvailable → u64 (e.addr + e.len) ≤ x) ∧
        ∀ m, .module m ∈ events → m.modEnd ≤ x := by
  induction events generalizing h with
  | nil => simp
  | cons ev events ih =>
    rw [runEvents_cons, ih]
    cases ev with
    | entry e =>
      simp only [Mb2Event.act, raiseHighestEnd, mem_cons, Mb2Event.entry.injEq,
        reduceCtorEq, false_or, forall_eq_or_imp]
      split
      · rename_i ht
        simp only [ht, forall_const, raise_le_iff, and_assoc]
      · rename_i ht
        simp only [ht, false_implies, true_and]
    | module m =>
      simp only [Mb2Event.act, mem_cons, Mb2Event.module.injEq, reduceCtorEq, false_or,
        forall_eq_or_imp, raise_le_iff]
      tauto

theorem highestEnd_le_iff {events : List Mb2Event} {x : ℕ} :
    highestEnd events ≤ x ↔
      (∀ e, .entry e ∈ events → e.type = nmMemAvailable → u64 (e.addr + e.len) ≤ x) ∧
        ∀ m, .module m ∈ events → m.modEnd ≤ x := by
  rw [highestEnd, runEvents_highestEnd_le]
  simp

theorem highestEnd_congr {xs ys : List Mb2Event} (h : ∀ ev, ev ∈ xs ↔ ev ∈ ys) :
    highestEnd xs = highestEnd ys := by
  refine eq_of_forall_ge_iff fun x => ?_
  simp only [highestEnd_le_iff, h]

/-! ## The free frames of a list of ranges -/

theorem not_covered_rangeEvent (f : ℕ) (ranges : List MemRange) :
    ¬ Covered f (ranges.map rangeEvent) := by
  rintro ⟨m, hm, -⟩
  obtain ⟨r, -, hr⟩ := mem_map.mp hm
  cases hr

theorem freed_rangeEvent (f : ℕ) (ranges : List MemRange) :
    Freed f (ranges.map rangeEvent) ↔
      ∃ r ∈ ranges, r.type = nmMemAvailable ∧ f ∈ innerFrames r.base r.length := by
  induction ranges with
  | nil => simp [Freed]
  | cons r ranges ih =>
    rw [map_cons, freed_cons, ih, exists_mem_cons_iff]
    have hcov := not_covered_rangeEvent f ranges
    simp only [rangeEvent, Mb2Event.entry.injEq, exists_eq_left', hcov, not_false_eq_true, and_true]

def AvailableIn (ranges : List MemRange) (f : ℕ) : Prop :=
  ∃ r ∈ ranges, r.type = nmMemAvailable ∧ FrameInside f r.base (r.base + r.length)

section

variable {k : KernelImage} {ranges : List MemRange} {high minPhysBase : ℕ} {info : Finset ℕ}
  {q : Pmm}

theorem Booted.mem_free_ranges (h : Booted k (ranges.map rangeEvent) high minPhysBase info q)
    (hranges : ∀ r ∈ ranges, r.base + r.length < 2 ^ 52) (hmin : minPhysBase < 2 ^ 52) (f : ℕ) :
    f ∈ q.free ↔ f < q.frameLimit ∧ AvailableIn ranges f ∧ ¬ KernelReserved k q f ∧ f ∉ info := by
  have havail : Freed f (ranges.map rangeEvent) ↔ AvailableIn ranges f := by
    rw [freed_rangeEvent]
    refine exists_congr fun r => and_congr_right fun hr => and_congr_right fun _ => ?_
    exact mem_innerFrames (hranges r hr)
  rw [h.mem_free_iff f, havail, h.mem_kernelFrames hmin f]

end

/-! ## Independence of the order -/

/-- Two allocators manage the same memory: the same frames, the same bitmap placement,
the same free frames and the same counts. -/
structure SameMemory (q q' : Pmm) : Prop where
  limit_eq : q.frameLimit = q'.frameLimit
  base_eq : q.bitmapPhysBase = q'.bitmapPhysBase
  bytes_eq : q.bitmapBytes = q'.bitmapBytes
  free_eq : q.free = q'.free
  freeFrames_eq : q.mmStats.freeFrames = q'.mmStats.freeFrames
  usedFrames_eq : q.mmStats.usedFrames = q'.mmStats.usedFrames
  totalFrames_eq : q.mmStats.totalFrames = q'.mmStats.totalFrames

theorem Booted.sameMemory {k : KernelImage} {xs ys : List MemRange} {minPhysBase : ℕ}
    {info : Finset ℕ} {q q' : Pmm}
    (h : Booted k (xs.map rangeEvent) (highestEnd (xs.map rangeEvent)) minPhysBase info q)
    (h' : Booted k (ys.map rangeEvent) (highestEnd (ys.map rangeEvent)) minPhysBase info q')
    (hsame : ∀ r, r ∈ xs ↔ r ∈ ys) : SameMemory q q' := by
  have hlimit : q.frameLimit = q'.frameLimit := by
    rw [h.limit_eq, h'.limit_eq, highestEnd_congr]
    simp [hsame]
  have hbase : q.bitmapPhysBase = q'.bitmapPhysBase := by rw [h.base_eq, h'.base_eq]
  have hbytes : q.bitmapBytes = q'.bitmapBytes := by rw [h.bytes_eq, h'.bytes_eq, hlimit]
  have hfree : q.free = q'.free := by
    ext f
    rw [h.mem_free_iff, h'.mem_free_iff, freed_rangeEvent, freed_rangeEvent, hlimit, hbase, hbytes]
    simp only [hsame]
  have ha := h.accounting
  have ha' := h'.accounting
  refine ⟨hlimit, hbase, hbytes, hfree, ?_, ?_, ?_⟩
  · rw [ha.free_eq, ha'.free_eq, hfree]
  · rw [ha.used_eq, ha'.used_eq, hfree, hlimit]
  · rw [ha.total_eq, ha'.total_eq, hlimit]

/-! ## Blocks without modules -/

def mapRanges (tags : List BootTag) : List MemRange :=
  (tags.flatMap BootTag.entries).map fun e => ⟨e.addr, e.len, e.type⟩

def NoModules (tags : List BootTag) : Prop := ∀ m n, .module m n ∉ tags

theorem tagListEvents_of_noModules {tags : List BootTag} (h : NoModules tags) :
    tagListEvents tags = (mapRanges tags).map rangeEvent := by
  induction tags with
  | nil => rfl
  | cons t ts ih =>
    have hrest : NoModules ts := fun m n hmem => h m n (mem_cons_of_mem _ hmem)
    have hmod : t.modules = [] := by
      cases t with
      | mmap entrySize es => rfl
      | module m n => exact absurd mem_cons_self (h m n)
      | other type n => rfl
    have hev : t.events =
        (t.entries.map fun e => (⟨e.addr, e.len, e.type⟩ : MemRange)).map rangeEvent := by
      simp [BootTag.events, hmod, rangeEvent, Function.comp_def]
    have hts := ih hrest
    simp only [tagListEvents, mapRanges, flatMap_cons, map_append] at hts ⊢
    rw [hev, hts]

/-- Both initialisation paths read the memory map exactly, and the result depends only on
the set of ranges. -/
theorem memory_map_exact (k : KernelImage) (p₀ : Pmm) (ranges : List MemRange)
    (hranges : ∀ r ∈ ranges, r.base + r.length < 2 ^ 52) :
    (∀ f, f ∈ (p₀.pmmInitFromRanges k ranges).free ↔
      f < (p₀.pmmInitFromRanges k ranges).frameLimit ∧ AvailableIn ranges f ∧
        ¬ KernelReserved k (p₀.pmmInitFromRanges k ranges) f) ∧
    (∀ ranges', (∀ r, r ∈ ranges' ↔ r ∈ ranges) →
      SameMemory (p₀.pmmInitFromRanges k ranges') (p₀.pmmInitFromRanges k ranges)) ∧
    ∀ mem ptr tags, WellFormedInfo mem ptr tags → NoModules tags → mapRanges tags = ranges →
      ∃ q, p₀.pmmInitFromMultiboot2 k mem ptr = some q ∧
        (∀ f, f ∈ q.free ↔ f < q.frameLimit ∧ AvailableIn ranges f ∧ ¬ KernelReserved k q f ∧
          ¬ FrameOverlaps f ptr (ptr + mem.load32 ptr)) ∧
        ∀ mem' tags', WellFormedInfo mem' ptr tags' → NoModules tags' →
          mem'.load32 ptr = mem.load32 ptr → (∀ r, r ∈ mapRanges tags' ↔ r ∈ ranges) →
          ∃ q', p₀.pmmInitFromMultiboot2 k mem' ptr = some q' ∧ SameMemory q' q := by
  have hb := pmmInitFromRanges_booted k ranges p₀
  refine ⟨fun f => ?_, fun ranges' hsame => ?_, ?_⟩
  · simpa using hb.mem_free_ranges hranges k.stop_lt f
  · exact (pmmInitFromRanges_booted k ranges' p₀).sameMemory hb hsame
  · rintro mem ptr tags hinfo hno rfl
    obtain ⟨q, hq, hbq⟩ := hinfo.booted k p₀
    rw [tagListEvents_of_noModules hno] at hbq
    refine ⟨q, hq, fun f => ?_, fun mem' tags' hinfo' hno' hsize hsame => ?_⟩
    · have hsize := hinfo.usable.2
      have hbelow := hinfo.below
      simp only [mb2InfoHeaderSize] at hsize
      rw [hbq.mem_free_ranges hranges hbelow f,
        mem_outerFrames f (by omega) (by simp only [pageSize]; omega)]
    · obtain ⟨q', hq', hbq'⟩ := hinfo'.booted k p₀
      rw [tagListEvents_of_noModules hno', hsize] at hbq'
      exact ⟨q', hq', hbq'.sameMemory hbq hsame⟩

def wordsAt (base : ℕ) (words : List ℕ) : Memory := fun a =>
  if a < base then 0#8
  else BitVec.ofNat 8 (words.getD ((a - base) / 4) 0 / 256 ^ ((a - base) % 4))

/-- A block with two overlapping ranges of a 4 MiB machine. -/
def overlappingMap : Memory :=
  wordsAt 0x10000 [80, 0, 6, 64, 24, 0, 0, 0, 0x280000, 0, 1, 0, 0x200000, 0, 0x200000, 0, 1, 0,
    0, 8]

/-- The two ranges in either order and with one repeated, and in the block. -/
theorem memory_map_exact_overlapping :
    SameMemory
      (zeroed.pmmInitFromRanges .atOneMiB
        [⟨0x200000, 0x200000, 1⟩, ⟨0, 0x280000, 1⟩, ⟨0x200000, 0x200000, 1⟩])
      (zeroed.pmmInitFromRanges .atOneMiB [⟨0, 0x280000, 1⟩, ⟨0x200000, 0x200000, 1⟩]) ∧
    0x300 ∈ (zeroed.pmmInitFromRanges .atOneMiB
      [⟨0, 0x280000, 1⟩, ⟨0x200000, 0x200000, 1⟩]).free ∧
    ∃ q, zeroed.pmmInitFromMultiboot2 .atOneMiB overlappingMap 0x10000 = some q ∧
      ∀ f, f ∈ q.free ↔ f < q.frameLimit ∧
        AvailableIn [⟨0, 0x280000, 1⟩, ⟨0x200000, 0x200000, 1⟩] f ∧
          ¬ KernelReserved .atOneMiB q f ∧
            ¬ FrameOverlaps f 0x10000 (0x10000 + overlappingMap.load32 0x10000) := by
  have h := memory_map_exact .atOneMiB zeroed [⟨0, 0x280000, 1⟩, ⟨0x200000, 0x200000, 1⟩]
    (by decide)
  have hb := pmmInitFromRanges_booted .atOneMiB
    [⟨0, 0x280000, 1⟩, ⟨0x200000, 0x200000, 1⟩] zeroed
  have hlimit := hb.limit_eq.trans (by decide : _ = 0x400)
  have hbase := hb.base_eq.trans (by decide : _ = 0x180000)
  have hbytes := hb.bytes_eq.trans (congrArg bitmapBytesFor hlimit)
  obtain ⟨q, hq, hfree, -⟩ := h.2.2 overlappingMap 0x10000
    [.mmap 24 [⟨0, 0x280000, 1⟩, ⟨0x200000, 0x200000, 1⟩]]
    ⟨by decide, by decide, by decide⟩ (by simp [NoModules]) rfl
  refine ⟨h.2.1 _ (by simp), (h.1 0x300).mpr ⟨?_, ?_, ?_⟩, q, hq, hfree⟩
  · rw [hlimit]
    decide
  · exact ⟨⟨0x200000, 0x200000, 1⟩, by simp, rfl, by decide, by decide⟩
  · rw [KernelReserved, hbase, hbytes, frameOverlaps_iff (by decide), frameOverlaps_iff (by decide),
      frameOverlaps_iff (by decide)]
    decide

end NeverMind.Pmm
