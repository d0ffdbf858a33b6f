import NeverMind.Model.Pmm
import Mathlib.Data.List.FinRange

/-! # The virtual memory manager

`kernel/mm/vmm.c`: four levels of page tables of 512 entries, built from frames of the
physical allocator and edited through the identity mapping of low memory. The spin lock
leaves no trace in the sequential state, and `invlpg` only concerns the TLB. -/

namespace NeverMind

def pageFlagPresent : BitVec 64 := 0x1

def pageFlagRw : BitVec 64 := 0x2

def pageFlagUs : BitVec 64 := 0x4

def pageFlagPs : BitVec 64 := 0x80

/-- The mask of the low 12 bits. -/
def pageOffsetMask : BitVec 64 := 0xFFF

/-- The mask of the low 21 bits. -/
def largeOffsetMask : BitVec 64 := 0x1FFFFF

/-- The two calls into the physical allocator. -/
structure PageAllocator (α : Type*) where
  pmmAllocPage : α → ℕ × α
  pmmFreePage : ℕ → α → α

/-- The allocator of the kernel. -/
def Pmm.pages : PageAllocator Pmm := ⟨Pmm.pmmAllocPage, Pmm.pmmFreePage⟩

/-- The allocator, the memory seen as 64-bit words by address, and the kernel's root
table. Two ghost variables that no code reads record how frames are used: `tables` holds
the frames obtained as tables and not freed since, and `foreign` every frame whose words
were read or written as table entries while it was not among them. -/
structure Vmm (α : Type*) where
  pmm : α
  mem : ℕ → BitVec 64
  kernelPml4 : ℕ
  tables : Finset ℕ
  foreign : List ℕ

def ptrToPhys (ptr : ℕ) : ℕ := if ptr ≥ kernelVirtBase then ptr - kernelVirtBase else ptr

def physToPtr (phys : ℕ) : ℕ := phys

/-- `phys_to_ptr(entry & ~0xFFF)`. -/
def entryPtr (entry : BitVec 64) : ℕ := physToPtr (entry &&& ~~~pageOffsetMask).toNat

def tableFlagsFromLeaf (flags : BitVec 64) : BitVec 64 :=
  let out := 0#64
  let out := if flags &&& pageFlagRw ≠ 0#64 then out ||| pageFlagRw else out
  if flags &&& pageFlagUs ≠ 0#64 then out ||| pageFlagUs else out

/-- `(virt_addr >> shift) & 0x1FF`. -/
def tableIndex (shift virtAddr : ℕ) : Fin 512 :=
  ⟨virtAddr / 2 ^ shift % 512, Nat.mod_lt _ (by decide)⟩

def pml4Index (virtAddr : ℕ) : Fin 512 := tableIndex 39 virtAddr

def pdptIndex (virtAddr : ℕ) : Fin 512 := tableIndex 30 virtAddr

def pdIndex (virtAddr : ℕ) : Fin 512 := tableIndex 21 virtAddr

def ptIndex (virtAddr : ℕ) : Fin 512 := tableIndex 12 virtAddr

/-- The address of `table[index]`. -/
def entrySlot (table : ℕ) (index : Fin 512) : ℕ := table + 8 * index

namespace Vmm

variable {α : Type*} (A : PageAllocator α)

/-- Record that the words of `table` are about to be used as table entries. -/
def touch (table : ℕ) (s : Vmm α) : Vmm α :=
  if table ∈ s.tables then s else { s with foreign := table :: s.foreign }

/-- `table[index]`. -/
def entry (s : Vmm α) (table : ℕ) (index : Fin 512) : BitVec 64 := s.mem (entrySlot table index)

/-- `table[index] = value`. -/
def setEntry (table : ℕ) (index : Fin 512) (value : BitVec 64) (s : Vmm α) : Vmm α :=
  { s with mem := Function.update s.mem (entrySlot table index) value }

/-- `pmm_free_page(phys)` for a frame used as a table. -/
def freeTable (phys : ℕ) (s : Vmm α) : Vmm α :=
  { s with pmm := A.pmmFreePage phys s.pmm, tables := s.tables.erase phys }

def tableEmpty (s : Vmm α) (table : ℕ) : Bool :=
  (List.finRange 512).all fun i => s.entry table i &&& pageFlagPresent == 0#64

/-- The loop that clears the 512 words of a table. -/
def clearTable (table : ℕ) (mem : ℕ → BitVec 64) : ℕ → BitVec 64 :=
  (List.finRange 512).foldl (fun mem i => Function.update mem (entrySlot table i) 0#64) mem

def allocTable (s : Vmm α) : ℕ × Vmm α :=
  let (phys, pmm) := A.pmmAllocPage s.pmm
  let s := { s with pmm := pmm }
  if phys = 0 then (0, s)
  else
    let table := physToPtr phys
    (table, { s with mem := clearTable table s.mem, tables := insert table s.tables })

def freeTablePool (pool : List ℕ) (s : Vmm α) : Vmm α :=
  pool.foldl (fun s table => if table ≠ 0 then s.freeTable A (ptrToPhys table) else s) s

/-- Fill the pool with `count` more tables behind those in `pool`; when one cannot be had
the tables taken so far are given back. -/
def allocTablePoolFrom (pool : List ℕ) : ℕ → Vmm α → Option (List ℕ) × Vmm α
  | 0, s => (some pool, s)
  | count + 1, s =>
    let (table, s) := s.allocTable A
    if table = 0 then (none, s.freeTablePool A pool)
    else allocTablePoolFrom (pool ++ [table]) count s

def allocTablePool (count : ℕ) (s : Vmm α) : Option (List ℕ) × Vmm α :=
  allocTablePoolFrom A [] count s

/-- The first table left in the pool, which is replaced by a null pointer. -/
def takePrealloc : List ℕ → ℕ × List ℕ
  | [] => (0, [])
  | table :: pool =>
    if table ≠ 0 then (table, 0 :: pool)
    else
      let (next, pool) := takePrealloc pool
      (next, table :: pool)

def getOrCreateNext (table : ℕ) (index : Fin 512) (flags : BitVec 64) (pool : List ℕ)
    (s : Vmm α) : ℕ × List ℕ × Vmm α :=
  let s := s.touch table
  let entry := s.entry table index
  if entry &&& pageFlagPresent ≠ 0#64 then
    let want := flags &&& (pageFlagRw ||| pageFlagUs)
    let s := if entry &&& want ≠ want then s.setEntry table index (entry ||| want) else s
    (entryPtr entry, pool, s)
  else
    let (next, pool) := takePrealloc pool
    if next = 0 then (0, pool, s)
    else
      let entry := BitVec.ofNat 64 (ptrToPhys next) ||| flags ||| pageFlagPresent
      (next, pool, s.setEntry table index entry)

/-- The leaf that `vmm_map_page_in` writes. -/
def pageLeaf (physAddr flags : BitVec 64) : BitVec 64 :=
  (physAddr &&& ~~~pageOffsetMask) ||| (flags &&& pageOffsetMask) ||| pageFlagPresent

/-- The leaf that `vmm_map_2m_in` writes. -/
def largeLeaf (physAddr flags : BitVec 64) : BitVec 64 :=
  (physAddr &&& ~~~largeOffsetMask) ||| (flags &&& pageOffsetMask) ||| pageFlagPresent |||
    pageFlagPs

def vmmMapPageIn (pml4 virtAddr : ℕ) (physAddr flags : BitVec 64) (s : Vmm α) : Bool × Vmm α :=
  if pml4 = 0 then (false, s)
  else
    match allocTablePool A 3 s with
    | (none, s) => (false, s)
    | (some pool, s) =>
      let tableFlags := tableFlagsFromLeaf flags
      let (pdpt, pool, s) := getOrCreateNext pml4 (pml4Index virtAddr) tableFlags pool s
      if pdpt = 0 then (false, s.freeTablePool A pool)
      else
        let (pd, pool, s) := getOrCreateNext pdpt (pdptIndex virtAddr) tableFlags pool s
        if pd = 0 then (false, s.freeTablePool A pool)
        else
          let (pt, pool, s) := getOrCreateNext pd (pdIndex virtAddr) tableFlags pool s
          if pt = 0 then (false, s.freeTablePool A pool)
          else
            let s := (s.touch pt).setEntry pt (ptIndex virtAddr) (pageLeaf physAddr flags)
            (true, s.freeTablePool A pool)

def vmmMap2mIn (pml4 virtAddr : ℕ) (physAddr flags : BitVec 64) (s : Vmm α) : Bool × Vmm α :=
  if pml4 = 0 then (false, s)
  else
    match allocTablePool A 2 s with
    | (none, s) => (false, s)
    | (some pool, s) =>
      let tableFlags := tableFlagsFromLeaf flags
      let (pdpt, pool, s) := getOrCreateNext pml4 (pml4Index virtAddr) tableFlags pool s
      if pdpt = 0 then (false, s.freeTablePool A pool)
      else
        let (pd, pool, s) := getOrCreateNext pdpt (pdptIndex virtAddr) tableFlags pool s
        if pd = 0 then (false, s.freeTablePool A pool)
        else
          let s := (s.touch pd).setEntry pd (pdIndex virtAddr) (largeLeaf physAddr flags)
          (true, s.freeTablePool A pool)

/-- Clear the entry of the page and unlink the tables that became empty; the list holds
the frames to free. -/
def unlinkEmpty (pml4 pdpt pd pt virtAddr : ℕ) (s : Vmm α) : List ℕ × Vmm α :=
  let s := s.setEntry pt (ptIndex virtAddr) 0#64
  if s.tableEmpty pt then
    let s := s.setEntry pd (pdIndex virtAddr) 0#64
    if s.tableEmpty pd then
      let s := s.setEntry pdpt (pdptIndex virtAddr) 0#64
      if s.tableEmpty pdpt then
        ([pt, pd, pdpt], s.setEntry pml4 (pml4Index virtAddr) 0#64)
      else ([pt, pd], s)
    else ([pt], s)
  else ([], s)

def vmmUnmapPageIn (pml4 virtAddr : ℕ) (s : Vmm α) : Bool × Vmm α :=
  if pml4 = 0 then (false, s)
  else
    let s := s.touch pml4
    let pml4e := s.entry pml4 (pml4Index virtAddr)
    if pml4e &&& pageFlagPresent = 0#64 then (false, s)
    else
      let pdpt := entryPtr pml4e
      let s := s.touch pdpt
      let pdpte := s.entry pdpt (pdptIndex virtAddr)
      if pdpte &&& pageFlagPresent = 0#64 then (false, s)
      else
        let pd := entryPtr pdpte
        let s := s.touch pd
        let pde := s.entry pd (pdIndex virtAddr)
        if pde &&& pageFlagPresent = 0#64 ∨ pde &&& pageFlagPs ≠ 0#64 then (false, s)
        else
          let pt := entryPtr pde
          let (toFree, s) := unlinkEmpty pml4 pdpt pd pt virtAddr (s.touch pt)
          (true, toFree.foldl (fun s phys => s.freeTable A phys) s)

/-! ## The kernel's own hierarchy -/

def vmmInit (cr3 : BitVec 64) (s : Vmm α) : Vmm α := { s with kernelPml4 := entryPtr cr3 }

def vmmKernelRoot (s : Vmm α) : ℕ := s.kernelPml4

def vmmMapPage (virtAddr : ℕ) (physAddr flags : BitVec 64) (s : Vmm α) : Bool × Vmm α :=
  s.vmmMapPageIn A s.kernelPml4 virtAddr physAddr flags

def vmmMap2m (virtAddr : ℕ) (physAddr flags : BitVec 64) (s : Vmm α) : Bool × Vmm α :=
  s.vmmMap2mIn A s.kernelPml4 virtAddr physAddr flags

def vmmUnmapPage (virtAddr : ℕ) (s : Vmm α) : Bool × Vmm α :=
  s.vmmUnmapPageIn A s.kernelPml4 virtAddr

end Vmm

end NeverMind
