import NeverMind.Library.ByteMemory
import NeverMind.Model.Pmm

/-! # The kernel heap

`kernel/mm/kheap.c`, in the kernel build: blocks with a header of 16 bytes in the memory they
manage, and a list of free blocks that is searched from its head. The list is followed through
memory, so the search takes fuel; without fuel it has not returned. -/

namespace NeverMind

def kmallocMagic : ℕ := 0x4D4E564B

/-- `sizeof(struct kmalloc_header)`: the magic at 0, the size at 4 and the link at 8. -/
def kmallocHeaderSize : ℕ := 16

/-- `free_list`, the memory, and the allocator of frames. -/
structure Kheap where
  mem : ℕ → BitVec 8
  freeList : ℕ
  pmm : Pmm

namespace Kheap

def magic (s : Kheap) (h : ℕ) : ℕ := loadWord 4 h s.mem

def size (s : Kheap) (h : ℕ) : ℕ := loadWord 4 (h + 4) s.mem

def next (s : Kheap) (h : ℕ) : ℕ := loadWord 8 (h + 8) s.mem

def setMagic (h value : ℕ) (s : Kheap) : Kheap := { s with mem := storeWord 4 h value s.mem }

def setSize (h value : ℕ) (s : Kheap) : Kheap := { s with mem := storeWord 4 (h + 4) value s.mem }

def setNext (h value : ℕ) (s : Kheap) : Kheap := { s with mem := storeWord 8 (h + 8) value s.mem }

/-- `*prev = value`, where `prev` points to `free_list` or to the link of a header. -/
def setLink (prev : Option ℕ) (value : ℕ) (s : Kheap) : Kheap :=
  match prev with
  | none => { s with freeList := value }
  | some h => s.setNext h value

/-- The search for a free block that is large enough: `some none` when the list has ended, and
`some (some (prev, cur))` at the first such block. -/
def scan (s : Kheap) (wanted : ℕ) : ℕ → Option ℕ → ℕ → Option (Option (Option ℕ × ℕ))
  | 0, _, _ => none
  | fuel + 1, prev, cur =>
    if cur = 0 then some none
    else if wanted ≤ s.size cur then some (some (prev, cur))
    else scan s wanted fuel (some cur) (s.next cur)

/-- The pages of a new run for a request, computed in `size_t`. -/
def pagesFor (wanted : ℕ) : ℕ := u64 (u64 (kmallocHeaderSize + wanted) + pageSize - 1) / pageSize

/-- The payload of a new run, as the header stores it in a `uint32_t`. -/
def runSize (pages : ℕ) : ℕ := u32 (u64Sub (u64 (pages * pageSize)) kmallocHeaderSize)

/-- A new run is split if what is left of it is larger than a header and 32 bytes. -/
def splits (pages wanted : ℕ) : Bool :=
  decide (wanted < runSize pages) && decide (kmallocHeaderSize + 32 < runSize pages - wanted)

/-- Set up the headers of a new run. -/
def carve (header pages wanted : ℕ) (s : Kheap) : Kheap :=
  let s := ((s.setMagic header kmallocMagic).setSize header (runSize pages)).setNext header 0
  if splits pages wanted then
    let split := header + kmallocHeaderSize + wanted
    let s := s.setMagic split kmallocMagic
    let s := s.setSize split (u32 (runSize pages - wanted - kmallocHeaderSize))
    let s := s.setNext split s.freeList
    let s := { s with freeList := split }
    s.setSize header (u32 wanted)
  else s

def kmalloc (fuel wanted : ℕ) (s : Kheap) : Option (ℕ × Kheap) :=
  if wanted = 0 then some (0, s)
  else
    match s.scan wanted fuel none s.freeList with
    | none => none
    | some (some (prev, cur)) =>
      some (cur + kmallocHeaderSize, (s.setLink prev (s.next cur)).setNext cur 0)
    | some none =>
      let r := s.pmm.pmmAllocPages (pagesFor wanted)
      let s := { s with pmm := r.2 }
      if r.1 = 0 then some (0, s)
      else some (r.1 + kmallocHeaderSize, s.carve r.1 (pagesFor wanted) wanted)

def kfree (ptr : ℕ) (s : Kheap) : Kheap :=
  if ptr = 0 then s
  else
    let header := ptr - kmallocHeaderSize
    if s.magic header ≠ kmallocMagic then s
    else { s.setNext header s.freeList with freeList := header }

end Kheap

end NeverMind
