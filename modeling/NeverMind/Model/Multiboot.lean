import NeverMind.Model.Pmm

/-! # Reading the multiboot2 information block

The records of `include/nm/multiboot2.h`, the tag walk that
`pmm_init_from_multiboot2` performs twice, and the initialisation built on it.
Pointers are 64-bit registers, so every pointer sum is reduced. The walks are bounded
by a number of iterations and have no result when it does not suffice; the
initialisation runs them with `2 ^ 64`. The loop variable of each walk is one pointer,
so a loop that is still running then never stops. -/

namespace NeverMind

/-- Physical memory, byte by byte. -/
abbrev Memory := ℕ → BitVec 8

namespace Memory

def load32 (mem : Memory) (addr : ℕ) : ℕ :=
  (mem (u64 addr)).toNat + (mem (u64 (addr + 1))).toNat * 2 ^ 8 +
    (mem (u64 (addr + 2))).toNat * 2 ^ 16 + (mem (u64 (addr + 3))).toNat * 2 ^ 24

def load64 (mem : Memory) (addr : ℕ) : ℕ := mem.load32 addr + mem.load32 (addr + 4) * 2 ^ 32

end Memory

/-- `sizeof(struct mb2_info_header)`. -/
def mb2InfoHeaderSize : ℕ := 8

/-- `sizeof(struct mb2_tag)`. -/
def mb2TagSize : ℕ := 8

/-- `sizeof(struct mb2_tag_mmap)`. -/
def mb2TagMmapSize : ℕ := 16

/-- `sizeof(struct mb2_mmap_entry)`. -/
def mb2MmapEntrySize : ℕ := 24

/-- `sizeof(struct mb2_tag_module)`. -/
def mb2TagModuleSize : ℕ := 16

def mb2TagEnd : ℕ := 0

def mb2TagModule : ℕ := 3

def mb2TagMmap : ℕ := 6

/-- `struct mb2_tag`. -/
structure Mb2Tag where
  type : ℕ
  size : ℕ
  deriving Repr, DecidableEq

/-- `struct mb2_mmap_entry`, without its reserved word. -/
structure Mb2MmapEntry where
  addr : ℕ
  len : ℕ
  type : ℕ
  deriving Repr, DecidableEq

/-- The address range of `struct mb2_tag_module`. -/
structure Mb2Module where
  modStart : ℕ
  modEnd : ℕ
  deriving Repr, DecidableEq

namespace Memory

def loadTag (mem : Memory) (cursor : ℕ) : Mb2Tag := ⟨mem.load32 cursor, mem.load32 (cursor + 4)⟩

/-- `mmap_tag->entry_size`. -/
def loadEntrySize (mem : Memory) (cursor : ℕ) : ℕ := mem.load32 (cursor + 8)

def loadMmapEntry (mem : Memory) (entryPtr : ℕ) : Mb2MmapEntry :=
  ⟨mem.load64 entryPtr, mem.load64 (entryPtr + 8), mem.load32 (entryPtr + 16)⟩

def loadModule (mem : Memory) (cursor : ℕ) : Mb2Module :=
  ⟨mem.load32 (cursor + 8), mem.load32 (cursor + 12)⟩

end Memory

/-- `(size + 7) & ~7` for a 32-bit size. -/
def alignTag (size : ℕ) : ℕ := (size + 7) / 8 * 8

section Walk

variable {σ : Type*} (mem : Memory) (onEntry : Mb2MmapEntry → σ → σ)
  (onModule : Mb2Module → σ → σ) (bound : ℕ)

/-- The inner loop over the entries of one memory-map tag. -/
def walkEntries (entrySize entryEnd : ℕ) : ℕ → ℕ → σ → Option σ
  | 0, _, _ => none
  | fuel + 1, entryPtr, s =>
    if u64 (entryPtr + mb2MmapEntrySize) ≤ entryEnd then
      walkEntries entrySize entryEnd fuel (u64 (entryPtr + entrySize))
        (onEntry (mem.loadMmapEntry entryPtr) s)
    else some s

/-- The part of the loop body that reads a memory-map tag. -/
def walkMmapTag (tag : Mb2Tag) (cursor : ℕ) (s : σ) : Option σ :=
  if tag.type = mb2TagMmap ∧ tag.size ≥ mb2TagMmapSize ∧
      mem.loadEntrySize cursor ≥ mb2MmapEntrySize then
    walkEntries mem onEntry (mem.loadEntrySize cursor) (u64 (cursor + tag.size))
      bound (u64 (cursor + mb2TagMmapSize)) s
  else some s

/-- The part of the loop body that reads a module tag. -/
def walkModuleTag (tag : Mb2Tag) (cursor : ℕ) (s : σ) : σ :=
  if tag.type = mb2TagModule ∧ tag.size ≥ mb2TagModuleSize then
    let module := mem.loadModule cursor
    if module.modEnd > module.modStart then onModule module s else s
  else s

/-- The walk over all tags from `cursor` on. -/
def walkTags (stop : ℕ) : ℕ → ℕ → σ → Option σ
  | 0, _, _ => none
  | fuel + 1, cursor, s =>
    if u64 (cursor + mb2TagSize) ≤ stop then
      let tag := mem.loadTag cursor
      if tag.type = mb2TagEnd then some s
      else if tag.size < mb2TagSize then some s
      else
        let next := u64 (cursor + alignTag tag.size)
        if next ≤ cursor ∨ next > stop then some s
        else
          (walkMmapTag mem onEntry bound tag cursor s).bind fun s =>
            walkTags stop fuel next (walkModuleTag mem onModule tag cursor s)
    else some s

end Walk

namespace Pmm

/-- The number of values a 64-bit pointer can take. -/
def pointerCount : ℕ := 2 ^ 64

/-- First walk: the highest end of an available entry or of a module. -/
def highestEndWalk (mem : Memory) (stop cursor : ℕ) : Option ℕ :=
  walkTags mem (fun e h => raiseHighestEnd h e.addr e.len e.type)
    (fun m h => if m.modEnd > h then m.modEnd else h) pointerCount stop pointerCount cursor 0

/-- Second walk: mark the available entries and reserve the modules. -/
def markWalk (mem : Memory) (stop cursor : ℕ) (p : Pmm) : Option Pmm :=
  walkTags mem (fun e p => p.markIfAvailable e.addr e.len e.type)
    (fun m p => p.reserveRange m.modStart (m.modEnd - m.modStart)) pointerCount stop
    pointerCount cursor p

/-- The fallback taken without a usable information block: nothing is free. -/
def initWithoutInfo (k : KernelImage) (p : Pmm) : Pmm :=
  (p.initRuntimeBitmap k maxFrames k.stop).markAllUsed.reserveKernel k

def pmmInitFromMultiboot2 (k : KernelImage) (mem : Memory) (mb2InfoPtr : ℕ) (p : Pmm) :
    Option Pmm :=
  if mb2InfoPtr = 0 then some (p.initWithoutInfo k)
  else
    let totalSize := mem.load32 mb2InfoPtr
    if totalSize < mb2InfoHeaderSize then some (p.initWithoutInfo k)
    else
      let stop := u64 (mb2InfoPtr + totalSize)
      let cursor := u64 (mb2InfoPtr + 8)
      (highestEndWalk mem stop cursor).bind fun highestEnd =>
        let p := (p.initRuntimeBitmap k (highestEnd / pageSize) stop).markAllUsed
        (markWalk mem stop cursor p).map fun p =>
          (p.reserveKernel k).reserveRange mb2InfoPtr totalSize

end Pmm

end NeverMind
