import NeverMind.Library.Word
import NeverMind.Library.Loop
import NeverMind.Library.Bitmap

/-! # The physical memory manager

The kernel build of `kernel/mm/pmm.c`: a bitmap with one bit for each 4 KiB frame,
set when the frame is in use, the counters of `mm_stats`, and a word cursor from
which the next search starts. The spin lock is taken and released inside every
operation and leaves no trace in the sequential state. -/

namespace NeverMind

open Bitmap

def pageSize : ℕ := 4096

def kernelVirtBase : ℕ := 0xFFFFFFFF80000000

def maxPhysMemBytes : ℕ := 128 * 1024 * 1024 * 1024

def maxFrames : ℕ := maxPhysMemBytes / pageSize

def bitmapWordBits : ℕ := 64

/-- `NM_MEM_AVAILABLE`. -/
def nmMemAvailable : ℕ := 1

/-- `struct nm_mem_range`. -/
structure MemRange where
  base : ℕ
  length : ℕ
  type : ℕ
  deriving Repr, DecidableEq

/-- `struct nm_mm_stats`. -/
structure MmStats where
  totalFrames : ℕ
  freeFrames : ℕ
  usedFrames : ℕ
  reservedFrames : ℕ
  deriving Repr, DecidableEq

/-- The static variables of the allocator. `frameBitmap` holds the words found
behind the bitmap pointer. -/
structure Pmm where
  mmStats : MmStats
  frameBitmap : ℕ → BitVec 64
  frameLimit : ℕ
  bitmapWords : ℕ
  bitmapPhysBase : ℕ
  bitmapBytes : ℕ
  allocWordCursor : ℕ

/-- Round up to a multiple of a power of two; masking off the low bits is a floor
division. -/
def alignUpU64 (value align : ℕ) : ℕ := u64 (value + align - 1) / align * align

def kernelSymbolToPhys (addr : ℕ) : ℕ :=
  if addr ≥ kernelVirtBase then addr - kernelVirtBase else addr

/-- The linker symbols that delimit the kernel image. The linker script places the
image at a nonempty range of physical addresses. -/
structure KernelImage where
  kernelPhysStart : ℕ
  kernelPhysEnd : ℕ
  nonempty : kernelSymbolToPhys kernelPhysStart < kernelSymbolToPhys kernelPhysEnd
  end_lt : kernelSymbolToPhys kernelPhysEnd < 2 ^ 52

namespace KernelImage

/-- First physical address of the image. -/
def start (k : KernelImage) : ℕ := kernelSymbolToPhys k.kernelPhysStart

/-- First physical address after the image. -/
def stop (k : KernelImage) : ℕ := kernelSymbolToPhys k.kernelPhysEnd

theorem start_lt_stop (k : KernelImage) : k.start < k.stop := k.nonempty

theorem stop_lt (k : KernelImage) : k.stop < 2 ^ 52 := k.end_lt

/-- An image of 512 KiB at the load address of `linker.ld`. -/
def atOneMiB : KernelImage := ⟨0x100000, 0x180000, by decide, by decide⟩

end KernelImage

namespace Pmm

/-- The static variables before any initialisation. -/
def zeroed : Pmm := ⟨⟨0, 0, 0, 0⟩, fun _ => 0#64, 0, 0, 0, 0, 0⟩

/-! ## Bitmap primitives -/

def initRuntimeBitmap (k : KernelImage) (frames minPhysBase : ℕ) (p : Pmm) : Pmm :=
  let frames := if frames = 0 then 1 else frames
  let frames := if frames > maxFrames then maxFrames else frames
  let words := (frames + bitmapWordBits - 1) / bitmapWordBits
  let minPhysBase := if minPhysBase < k.stop then k.stop else minPhysBase
  { p with
    frameLimit := frames
    bitmapWords := words
    bitmapBytes := words * 8
    bitmapPhysBase := alignUpU64 minPhysBase pageSize }

def frameValid (p : Pmm) (frame : ℕ) : Bool := decide (frame < p.frameLimit)

def setFrame (frame : ℕ) (p : Pmm) : Pmm :=
  if p.frameValid frame then { p with frameBitmap := setBit p.frameBitmap frame } else p

def clearFrame (frame : ℕ) (p : Pmm) : Pmm :=
  if p.frameValid frame then { p with frameBitmap := clearBit p.frameBitmap frame } else p

def testFrame (p : Pmm) (frame : ℕ) : Bool :=
  if p.frameValid frame then
    p.frameBitmap (frame / bitmapWordBits) &&& 1#64 <<< (frame % bitmapWordBits) != 0#64
  else true

def markAllUsed (p : Pmm) : Pmm :=
  { p with
    frameBitmap := fun i => if i < p.bitmapWords then BitVec.allOnes 64 else p.frameBitmap i
    mmStats := ⟨p.frameLimit, 0, p.frameLimit, 0⟩
    allocWordCursor := 0 }

/-- `mm_stats.free_frames++; mm_stats.used_frames--;` -/
def countFreed (s : MmStats) : MmStats :=
  { s with freeFrames := u64 (s.freeFrames + 1), usedFrames := u64Sub s.usedFrames 1 }

/-- `mm_stats.free_frames -= count; mm_stats.used_frames += count;` -/
def countTaken (count : ℕ) (s : MmStats) : MmStats :=
  { s with freeFrames := u64Sub s.freeFrames count, usedFrames := u64 (s.usedFrames + count) }

/-! ## Initialisation from a memory map -/

def markFrameAvailable (frame : ℕ) (p : Pmm) : Pmm :=
  if p.testFrame frame then
    let p := p.clearFrame frame
    { p with mmStats := countFreed p.mmStats }
  else p

def markRangeAvailable (base length : ℕ) (p : Pmm) : Pmm :=
  let start := u64 (base + pageSize - 1) / pageSize
  let stop := u64 (base + length) / pageSize
  let stop := if stop > p.frameLimit then p.frameLimit else stop
  forRange start stop markFrameAvailable p

def reserveFrame (frame : ℕ) (p : Pmm) : Pmm :=
  if p.testFrame frame then p
  else
    let p := p.setFrame frame
    let stats := countTaken 1 p.mmStats
    { p with mmStats := { stats with reservedFrames := u64 (stats.reservedFrames + 1) } }

def reserveRange (base length : ℕ) (p : Pmm) : Pmm :=
  let start := base / pageSize
  let stop := u64 (base + length + pageSize - 1) / pageSize
  let stop := if stop > p.frameLimit then p.frameLimit else stop
  forRange start stop reserveFrame p

/-- The three reservations every initialisation path makes: the low MiB, the kernel
image and the bitmap. -/
def reserveKernel (k : KernelImage) (p : Pmm) : Pmm :=
  let p := p.reserveRange 0 0x100000
  let p := p.reserveRange k.start (u64Sub k.stop k.start)
  p.reserveRange p.bitmapPhysBase p.bitmapBytes

/-- One iteration of the scan for the highest available address. -/
def raiseHighestEnd (highestEnd base length type : ℕ) : ℕ :=
  if type = nmMemAvailable then
    let stop := u64 (base + length)
    if stop > highestEnd then stop else highestEnd
  else highestEnd

/-- One iteration of the marking loop. -/
def markIfAvailable (base length type : ℕ) (p : Pmm) : Pmm :=
  if type = nmMemAvailable then p.markRangeAvailable base length else p

def pmmInitFromRanges (k : KernelImage) (ranges : List MemRange) (p : Pmm) : Pmm :=
  let highestEnd := ranges.foldl (fun h r => raiseHighestEnd h r.base r.length r.type) 0
  let detectedFrames := highestEnd / pageSize
  let p := (p.initRuntimeBitmap k detectedFrames k.stop).markAllUsed
  let p := ranges.foldl (fun p r => p.markIfAvailable r.base r.length r.type) p
  p.reserveKernel k

/-! ## Allocation -/

/-- One pass of the word scan: the word index and the first clear frame of that word. -/
def probeWord (p : Pmm) (pass : ℕ) : Option (ℕ × ℕ) :=
  let wordIdx := u64 (p.allocWordCursor + pass) % p.bitmapWords
  let word := p.frameBitmap wordIdx
  if word = BitVec.allOnes 64 then none
  else if ~~~word = 0#64 then none
  else
    let bit := (BitVec.ctz (~~~word)).toNat
    let frame := wordIdx * bitmapWordBits + bit
    if p.frameValid frame then some (wordIdx, frame) else none

def allocSinglePageUnlocked (p : Pmm) : ℕ × Pmm :=
  match (List.range p.bitmapWords).findSome? p.probeWord with
  | some (wordIdx, frame) =>
    let p := p.setFrame frame
    (u64 (frame * pageSize),
      { p with mmStats := countTaken 1 p.mmStats, allocWordCursor := wordIdx })
  | none => (0, p)

/-- The test made at each pass of the run scan: the run fits and all its frames are free. -/
def runFree (p : Pmm) (frame count : ℕ) : Bool :=
  decide (frame + count ≤ p.frameLimit) &&
    (List.range count).all (fun i => !p.testFrame (frame + i))

/-- Set the bits of a run and account for it. -/
def takeRun (frame count : ℕ) (p : Pmm) : Pmm :=
  let p := forRange 0 count (fun i p => p.setFrame (frame + i)) p
  { p with
    mmStats := countTaken count p.mmStats
    allocWordCursor := (frame + count) / bitmapWordBits }

def pmmAllocPages (count : ℕ) (p : Pmm) : ℕ × Pmm :=
  if count = 0 ∨ count > p.frameLimit then (0, p)
  else if p.mmStats.freeFrames < count then (0, p)
  else if count = 1 then p.allocSinglePageUnlocked
  else
    let startFrame := u64 (p.allocWordCursor * bitmapWordBits) % p.frameLimit
    let frameAt := fun pass => (startFrame + pass) % p.frameLimit
    match (List.range p.frameLimit).find? (fun pass => p.runFree (frameAt pass) count) with
    | some pass => (u64 (frameAt pass * pageSize), p.takeRun (frameAt pass) count)
    | none => (0, p)

def pmmAllocPage (p : Pmm) : ℕ × Pmm := p.pmmAllocPages 1

def pmmFreePage (physAddr : ℕ) (p : Pmm) : Pmm :=
  if physAddr = 0 ∨ physAddr % pageSize ≠ 0 then p
  else
    let frame := physAddr / pageSize
    if !p.frameValid frame || !p.testFrame frame then p
    else
      let p := p.clearFrame frame
      { p with
        mmStats := countFreed p.mmStats
        allocWordCursor := frame / bitmapWordBits }

end Pmm

end NeverMind
