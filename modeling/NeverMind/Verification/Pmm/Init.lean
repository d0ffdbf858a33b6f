import NeverMind.Verification.Pmm.Walk

/-! # Initialisation

Both initialisation paths clear the bits of the available entries, set those of the
modules in the order in which the records are visited, and reserve the fixed regions at
the end. A frame is therefore free when the last record that touches it is an available
entry and no fixed region overlaps it. -/

namespace NeverMind.Pmm

open Bitmap Finset

/-! ## The empty allocator -/

def limitFor (highestEnd : ℕ) : ℕ := min (max (highestEnd / pageSize) 1) maxFrames

/-- Where the bitmap is placed: the first page at or above both bounds. -/
def bitmapBaseFor (k : KernelImage) (minPhysBase : ℕ) : ℕ :=
  alignUpU64 (max minPhysBase k.stop) pageSize

def bitmapBytesFor (limit : ℕ) : ℕ := (limit + 63) / 64 * 8

/-- Right after `mark_all_used` no frame is free. -/
structure Fresh (k : KernelImage) (highestEnd minPhysBase : ℕ) (q : Pmm) : Prop where
  accounting : Accounting q
  free_eq : q.free = ∅
  limit_eq : q.frameLimit = limitFor highestEnd
  base_eq : q.bitmapPhysBase = bitmapBaseFor k minPhysBase
  bytes_eq : q.bitmapBytes = bitmapBytesFor q.frameLimit

theorem markAllUsed_fresh (k : KernelImage) (highestEnd minPhysBase : ℕ) (p : Pmm) :
    Fresh k highestEnd minPhysBase
      (p.initRuntimeBitmap k (highestEnd / pageSize) minPhysBase).markAllUsed := by
  set q := (p.initRuntimeBitmap k (highestEnd / pageSize) minPhysBase).markAllUsed with hq
  have hlimit : q.frameLimit = limitFor highestEnd := by
    change (if (if highestEnd / pageSize = 0 then 1 else highestEnd / pageSize) > maxFrames
      then maxFrames else (if highestEnd / pageSize = 0 then 1 else highestEnd / pageSize)) = _
    unfold limitFor
    generalize highestEnd / pageSize = n
    split <;> split at * <;> omega
  have hpos : 0 < q.frameLimit := by
    rw [hlimit, limitFor]
    have : 0 < maxFrames := by decide
    omega
  have hwords : q.bitmapWords = (q.frameLimit + 63) / 64 := rfl
  have hbit : ∀ f, f < q.bitmapWords * 64 → testBit q.frameBitmap f = true := by
    intro f hf
    have hlt : f / 64 < q.bitmapWords := by omega
    have hword : q.frameBitmap (f / 64) = BitVec.allOnes 64 := if_pos hlt
    unfold testBit
    rw [hword, BitVec.getLsbD_allOnes]
    simpa using Nat.mod_lt f (by decide)
  have hfree : q.free = ∅ := by
    apply eq_empty_of_forall_notMem
    intro f hf
    obtain ⟨hlt, hclear⟩ := mem_free.mp hf
    rw [hbit f (by omega)] at hclear
    cases hclear
  have hbase : q.bitmapPhysBase = bitmapBaseFor k minPhysBase := by
    change alignUpU64 (if minPhysBase < k.stop then k.stop else minPhysBase) pageSize = _
    unfold bitmapBaseFor
    congr 1
    split <;> omega
  refine ⟨⟨hpos, ?_, hwords, fun f _ hf => hbit f hf, ?_, ?_, rfl, Nat.zero_le _⟩,
    hfree, hlimit, hbase, rfl⟩
  · rw [hlimit]
    exact Nat.min_le_right _ _
  · rw [hfree]
    rfl
  · rw [hfree]
    rfl

/-! ## The records of the memory map -/

def eventFrees (limit : ℕ) : Mb2Event → Finset ℕ → Finset ℕ
  | .entry e, s =>
    if e.type = nmMemAvailable then s ∪ (innerFrames e.addr e.len).filter (· < limit) else s
  | .module m, s => s \ outerFrames m.modStart (m.modEnd - m.modStart)

def markEvents (events : List Mb2Event) (p : Pmm) : Pmm :=
  runEvents (fun e p => p.markIfAvailable e.addr e.len e.type)
    (fun m p => p.reserveRange m.modStart (m.modEnd - m.modStart)) events p

variable {p : Pmm}

theorem markEvents_frees (h : Accounting p) (events : List Mb2Event) :
    Frees p (p.markEvents events)
      (events.foldl (fun s ev => eventFrees p.frameLimit ev s) p.free) := by
  induction events generalizing p with
  | nil => exact h.frees_self
  | cons ev events ih =>
    have hev : Frees p (ev.act (fun e p => p.markIfAvailable e.addr e.len e.type)
        (fun m p => p.reserveRange m.modStart (m.modEnd - m.modStart)) p)
        (eventFrees p.frameLimit ev p.free) := by
      cases ev with
      | entry e =>
        by_cases ht : e.type = nmMemAvailable
        · simpa [Mb2Event.act, markIfAvailable, eventFrees, ht] using
            markRangeAvailable_frees h e.addr e.len
        · simpa [Mb2Event.act, markIfAvailable, eventFrees, ht] using h.frees_self
      | module m => exact reserveRange_frees h _ _
    have hrest := ih hev.accounting
    rw [hev.limit_eq, hev.free_eq] at hrest
    exact hev.trans hrest

/-- Some module of the list reserves frame `f`. -/
def Covered (f : ℕ) (events : List Mb2Event) : Prop :=
  ∃ m, .module m ∈ events ∧ f ∈ outerFrames m.modStart (m.modEnd - m.modStart)

/-- The last record that touches frame `f` is an available entry containing it. -/
def Freed (f : ℕ) (events : List Mb2Event) : Prop :=
  ∃ front e back, events = front ++ .entry e :: back ∧ e.type = nmMemAvailable ∧
    f ∈ innerFrames e.addr e.len ∧ ¬ Covered f back

variable {events : List Mb2Event}

theorem covered_cons {f : ℕ} {ev : Mb2Event} :
    Covered f (ev :: events) ↔
      (∃ m, ev = .module m ∧ f ∈ outerFrames m.modStart (m.modEnd - m.modStart)) ∨
        Covered f events := by
  constructor
  · rintro ⟨m, hm, hf⟩
    rcases List.mem_cons.mp hm with rfl | hm
    · exact Or.inl ⟨m, rfl, hf⟩
    · exact Or.inr ⟨m, hm, hf⟩
  · rintro (⟨m, rfl, hf⟩ | ⟨m, hm, hf⟩)
    · exact ⟨m, List.mem_cons_self, hf⟩
    · exact ⟨m, List.mem_cons_of_mem _ hm, hf⟩

theorem freed_cons {f : ℕ} {ev : Mb2Event} :
    Freed f (ev :: events) ↔
      (∃ e, ev = .entry e ∧ e.type = nmMemAvailable ∧ f ∈ innerFrames e.addr e.len ∧
        ¬ Covered f events) ∨ Freed f events := by
  constructor
  · rintro ⟨front, e, back, heq, ht, hf, hback⟩
    cases front with
    | nil =>
      obtain ⟨rfl, rfl⟩ := List.cons.inj heq
      exact Or.inl ⟨e, rfl, ht, hf, hback⟩
    | cons x front =>
      obtain ⟨rfl, rfl⟩ := List.cons.inj heq
      exact Or.inr ⟨front, e, back, rfl, ht, hf, hback⟩
  · rintro (⟨e, rfl, ht, hf, hback⟩ | ⟨front, e, back, rfl, ht, hf, hback⟩)
    · exact ⟨[], e, events, rfl, ht, hf, hback⟩
    · exact ⟨ev :: front, e, back, rfl, ht, hf, hback⟩

theorem mem_foldl_eventFrees {limit f : ℕ} (hf : f < limit) (events : List Mb2Event)
    (s : Finset ℕ) :
    f ∈ events.foldl (fun s ev => eventFrees limit ev s) s ↔
      Freed f events ∨ (f ∈ s ∧ ¬ Covered f events) := by
  induction events generalizing s with
  | nil => simp [Freed, Covered]
  | cons ev events ih =>
    rw [List.foldl_cons, ih, freed_cons, covered_cons]
    cases ev with
    | entry e =>
      by_cases ht : e.type = nmMemAvailable
      · simp only [eventFrees, ht, if_true, mem_union, mem_filter, hf, and_true,
          Mb2Event.entry.injEq, exists_eq_left', reduceCtorEq, false_and, exists_false, false_or]
        tauto
      · simp [eventFrees, ht]
    | module m =>
      simp only [eventFrees, mem_sdiff, reduceCtorEq, false_and, exists_false, false_or,
        Mb2Event.module.injEq, exists_eq_left']
      tauto

/-! ## The reservations at the end -/

theorem reserveKernel_frees (h : Accounting p) (k : KernelImage) :
    Frees p (p.reserveKernel k)
      (((p.free \ outerFrames 0 0x100000) \ outerFrames k.start (u64Sub k.stop k.start)) \
        outerFrames p.bitmapPhysBase p.bitmapBytes) := by
  have h1 := reserveRange_frees h 0 0x100000
  have h2 := reserveRange_frees h1.accounting k.start (u64Sub k.stop k.start)
  have h3 := reserveRange_frees h2.accounting
    ((p.reserveRange 0 0x100000).reserveRange k.start (u64Sub k.stop k.start)).bitmapPhysBase
    ((p.reserveRange 0 0x100000).reserveRange k.start (u64Sub k.stop k.start)).bitmapBytes
  rw [h2.free_eq, h1.free_eq, h2.base_eq, h1.base_eq, h2.bytes_eq, h1.bytes_eq] at h3
  have h4 := (h1.trans h2).trans h3
  simpa only [reserveKernel, h2.base_eq, h1.base_eq, h2.bytes_eq, h1.bytes_eq] using h4

def kernelFrames (k : KernelImage) (bitmapBase bitmapBytes : ℕ) : Finset ℕ :=
  outerFrames 0 0x100000 ∪ outerFrames k.start (u64Sub k.stop k.start) ∪
    outerFrames bitmapBase bitmapBytes

/-- What an initialisation path establishes: it visited `events`, placed the bitmap at or
above `minPhysBase`, and reserved `info` besides the kernel's own frames. -/
structure Booted (k : KernelImage) (events : List Mb2Event) (highestEnd minPhysBase : ℕ)
    (info : Finset ℕ) (q : Pmm) : Prop where
  accounting : Accounting q
  limit_eq : q.frameLimit = limitFor highestEnd
  base_eq : q.bitmapPhysBase = bitmapBaseFor k minPhysBase
  bytes_eq : q.bitmapBytes = bitmapBytesFor q.frameLimit
  mem_free_iff : ∀ f, f ∈ q.free ↔ f < q.frameLimit ∧ Freed f events ∧
    f ∉ kernelFrames k q.bitmapPhysBase q.bitmapBytes ∧ f ∉ info

variable {k : KernelImage}

theorem Booted.of_fresh {highestEnd minPhysBase : ℕ} (hp : Fresh k highestEnd minPhysBase p)
    (events : List Mb2Event) :
    Booted k events highestEnd minPhysBase ∅ ((p.markEvents events).reserveKernel k) := by
  have hm := markEvents_frees hp.accounting events
  have hr := reserveKernel_frees hm.accounting k
  have hall := hm.trans hr
  refine ⟨hr.accounting, hall.limit_eq.trans hp.limit_eq, hall.base_eq.trans hp.base_eq, ?_, ?_⟩
  · rw [hall.bytes_eq, hall.limit_eq]
    exact hp.bytes_eq
  · intro f
    rw [hr.free_eq, hr.base_eq, hr.bytes_eq, hall.limit_eq]
    constructor
    · intro hf
      have hmem : f ∈ (p.markEvents events).free := by
        simp only [mem_sdiff] at hf
        exact hf.1.1.1
      have hlt : f < p.frameLimit := hm.limit_eq ▸ lt_limit_of_mem_free hmem
      rw [hm.free_eq, mem_foldl_eventFrees hlt, hp.free_eq] at hmem
      simp only [notMem_empty, false_and, or_false] at hmem
      refine ⟨hlt, hmem, ?_, notMem_empty f⟩
      simp only [mem_sdiff] at hf
      simp only [kernelFrames, mem_union]
      tauto
    · rintro ⟨hlt, hfreed, hkernel, -⟩
      have hmem : f ∈ (p.markEvents events).free := by
        rw [hm.free_eq, mem_foldl_eventFrees hlt]
        exact Or.inl hfreed
      simp only [kernelFrames, mem_union] at hkernel
      simp only [mem_sdiff]
      tauto

theorem Booted.reserveRange {highestEnd minPhysBase : ℕ} {q : Pmm}
    (h : Booted k events highestEnd minPhysBase ∅ q) (base length : ℕ) :
    Booted k events highestEnd minPhysBase (outerFrames base length)
      (q.reserveRange base length) := by
  have hr := reserveRange_frees h.accounting base length
  refine ⟨hr.accounting, hr.limit_eq.trans h.limit_eq, hr.base_eq.trans h.base_eq, ?_, ?_⟩
  · rw [hr.bytes_eq, hr.limit_eq]
    exact h.bytes_eq
  · intro f
    rw [hr.free_eq, hr.base_eq, hr.bytes_eq, hr.limit_eq, mem_sdiff, h.mem_free_iff f]
    simp only [notMem_empty, not_false_eq_true, and_true, and_assoc]

/-! ## The two entry points -/

def rangeEvent (r : MemRange) : Mb2Event := .entry ⟨r.base, r.length, r.type⟩

/-- The end of the available memory named by a list of records. -/
def highestEnd (events : List Mb2Event) : ℕ :=
  runEvents (fun e h => raiseHighestEnd h e.addr e.len e.type)
    (fun m h => if m.modEnd > h then m.modEnd else h) events 0

theorem pmmInitFromRanges_booted (k : KernelImage) (ranges : List MemRange) (p : Pmm) :
    Booted k (ranges.map rangeEvent) (highestEnd (ranges.map rangeEvent)) k.stop ∅
      (p.pmmInitFromRanges k ranges) := by
  have hhigh : ranges.foldl (fun h r => raiseHighestEnd h r.base r.length r.type) 0 =
      highestEnd (ranges.map rangeEvent) := by
    simp only [highestEnd, runEvents, List.foldl_map, rangeEvent, Mb2Event.act]
  have hmark : ∀ q : Pmm, ranges.foldl
      (fun p r => p.markIfAvailable r.base r.length r.type) q =
        q.markEvents (ranges.map rangeEvent) := by
    intro q
    simp only [markEvents, runEvents, List.foldl_map, rangeEvent, Mb2Event.act]
  simp only [pmmInitFromRanges, hhigh, hmark]
  exact Booted.of_fresh (markAllUsed_fresh k _ k.stop p) _

theorem initWithoutInfo_free (k : KernelImage) (p : Pmm) :
    Accounting (p.initWithoutInfo k) ∧ (p.initWithoutInfo k).free = ∅ := by
  have hmax : maxFrames = maxPhysMemBytes / pageSize := rfl
  have hfresh := markAllUsed_fresh k maxPhysMemBytes k.stop p
  have hr := reserveKernel_frees hfresh.accounting k
  unfold initWithoutInfo
  rw [hmax]
  refine ⟨hr.accounting, ?_⟩
  rw [hr.free_eq, hfresh.free_eq]
  simp

def infoEvents (mem : Memory) (mb2InfoPtr : ℕ) : Option (List Mb2Event) :=
  tagEvents mem pointerCount (u64 (mb2InfoPtr + mem.load32 mb2InfoPtr)) pointerCount
    (u64 (mb2InfoPtr + 8))

/-- A usable block has a header, so the walk is entered. -/
def Usable (mem : Memory) (mb2InfoPtr : ℕ) : Prop :=
  mb2InfoPtr ≠ 0 ∧ mb2InfoHeaderSize ≤ mem.load32 mb2InfoPtr

variable {mem : Memory} {ptr : ℕ}

theorem pmmInitFromMultiboot2_of_not_usable (h : ¬ Usable mem ptr) (k : KernelImage) (p : Pmm) :
    p.pmmInitFromMultiboot2 k mem ptr = some (p.initWithoutInfo k) := by
  unfold pmmInitFromMultiboot2
  split
  · rfl
  · rename_i hptr
    have hsmall : mem.load32 ptr < mb2InfoHeaderSize := by
      by_contra hge
      exact h ⟨hptr, Nat.le_of_not_lt hge⟩
    simp [hsmall]

theorem pmmInitFromMultiboot2_of_usable (h : Usable mem ptr) (k : KernelImage) (p : Pmm) :
    p.pmmInitFromMultiboot2 k mem ptr = (infoEvents mem ptr).map (fun events =>
      (((p.initRuntimeBitmap k (highestEnd events / pageSize)
        (u64 (ptr + mem.load32 ptr))).markAllUsed.markEvents events).reserveKernel k).reserveRange
          ptr (mem.load32 ptr)) := by
  obtain ⟨hptr, hsize⟩ := h
  simp only [pmmInitFromMultiboot2, hptr, if_false, Nat.not_lt.mpr hsize, highestEndWalk, markWalk,
    walkTags_eq, infoEvents]
  cases tagEvents mem pointerCount (u64 (ptr + mem.load32 ptr)) pointerCount (u64 (ptr + 8)) with
  | none => rfl
  | some events => rfl

/-- A run of the second entry point on a usable block. -/
theorem pmmInitFromMultiboot2_booted (h : Usable mem ptr) {q : Pmm}
    (hq : p.pmmInitFromMultiboot2 k mem ptr = some q) :
    ∃ events, infoEvents mem ptr = some events ∧
      Booted k events (highestEnd events) (u64 (ptr + mem.load32 ptr))
        (outerFrames ptr (mem.load32 ptr)) q := by
  rw [pmmInitFromMultiboot2_of_usable h, Option.map_eq_some_iff] at hq
  obtain ⟨events, hevents, rfl⟩ := hq
  exact ⟨events, hevents, (Booted.of_fresh (markAllUsed_fresh k _ _ p) events).reserveRange _ _⟩

/-- The walk of a block that ends below `2 ^ 52` terminates. -/
theorem infoEvents_isSome (h : ptr + mem.load32 ptr < 2 ^ 52) :
    (infoEvents mem ptr).isSome = true := by
  unfold infoEvents
  rw [u64_of_lt (by omega), u64_of_lt (by omega)]
  have hcount : pointerCount = 2 ^ 64 := rfl
  exact tagEvents_isSome mem (by omega) h _ _ (by omega) (by omega) (by omega)

theorem pmmInitFromMultiboot2_isSome (h : ptr + mem.load32 ptr < 2 ^ 52) (k : KernelImage)
    (p : Pmm) : (p.pmmInitFromMultiboot2 k mem ptr).isSome = true := by
  by_cases hu : Usable mem ptr
  · rw [pmmInitFromMultiboot2_of_usable hu, Option.isSome_map]
    exact infoEvents_isSome h
  · rw [pmmInitFromMultiboot2_of_not_usable hu]
    rfl

end NeverMind.Pmm
