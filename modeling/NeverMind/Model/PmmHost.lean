import NeverMind.Model.Pmm

/-! # The host-test build of the physical memory manager

Under `NEVERMIND_HOST_TEST` `kernel/mm/pmm.c` has no bitmap: an allocation is a block of the C
library, entered in a table under a made-up key. Whether `calloc` finds memory is an input here;
the pointer it returns has no part in the counters and is left out. -/

namespace NeverMind

/-- `HOST_MAX_ALLOCS`. -/
def hostMaxAllocs : ℕ := 32768

/-- `struct host_alloc_entry`, without the pointer. -/
structure HostAllocEntry where
  key : ℕ
  pages : ℕ
  used : Bool
  deriving Repr, DecidableEq

/-- The static variables of the host build. -/
structure HostPmm where
  mmStats : MmStats
  hostAllocs : ℕ → HostAllocEntry
  hostAllocKeySeed : ℕ

namespace HostPmm

/-- The static variables before any initialisation. -/
def zeroed : HostPmm := ⟨⟨0, 0, 0, 0⟩, fun _ => ⟨0, 0, false⟩, 0⟩

def hostMakeKey (p : HostPmm) : ℕ × HostPmm :=
  let seed := u64 (p.hostAllocKeySeed + pageSize)
  (seed ||| 1, { p with hostAllocKeySeed := seed })

def pmmInitFromRanges (ranges : List MemRange) (p : HostPmm) : HostPmm :=
  let total := ranges.foldl
    (fun total r => if r.type = nmMemAvailable then u64 (total + r.length / pageSize) else total) 0
  let reserved := 256
  let free := if total > reserved then total - reserved else 0
  { mmStats := ⟨total, free, total - free, reserved⟩
    hostAllocs := fun i => if i < hostMaxAllocs then ⟨0, 0, false⟩ else p.hostAllocs i
    hostAllocKeySeed := 0x1000 }

/-- The default map, whatever the boot loader passes. -/
def pmmInitFromMultiboot2 (p : HostPmm) : HostPmm :=
  p.pmmInitFromRanges [⟨0x00100000, 64 * 1024 * 1024, nmMemAvailable⟩]

/-- The first entry of the table that is not in use. -/
def unusedEntry (p : HostPmm) : Option ℕ :=
  (List.range hostMaxAllocs).find? fun i => !(p.hostAllocs i).used

/-- The first entry in use under `key`. -/
def entryOf (key : ℕ) (p : HostPmm) : Option ℕ :=
  (List.range hostMaxAllocs).find? fun i => (p.hostAllocs i).used && (p.hostAllocs i).key == key

def pmmAllocPages (callocOk : Bool) (count : ℕ) (p : HostPmm) : ℕ × HostPmm :=
  if count = 0 ∨ p.mmStats.freeFrames < count then (0, p)
  else
    match p.unusedEntry with
    | some i =>
      if callocOk then
        let (key, p) := p.hostMakeKey
        (key, { p with
          hostAllocs := Function.update p.hostAllocs i ⟨key, count, true⟩
          mmStats := Pmm.countTaken count p.mmStats })
      else (0, p)
    | none => (0, p)

/-- `mm_stats.free_frames += pages; mm_stats.used_frames -= pages;` -/
def countReturned (pages : ℕ) (s : MmStats) : MmStats :=
  { s with freeFrames := u64 (s.freeFrames + pages), usedFrames := u64Sub s.usedFrames pages }

def pmmFreePage (physAddr : ℕ) (p : HostPmm) : HostPmm :=
  if physAddr = 0 then p
  else
    match p.entryOf physAddr with
    | some i =>
      { p with
        hostAllocs := Function.update p.hostAllocs i ⟨0, 0, false⟩
        mmStats := countReturned (p.hostAllocs i).pages p.mmStats }
    | none => p

/-- The pages recorded for a key in use. -/
def pagesOf (key : ℕ) (p : HostPmm) : Option ℕ :=
  (p.entryOf key).map fun i => (p.hostAllocs i).pages

end HostPmm

end NeverMind
