import NeverMind.Model.Vmm

/-! # The boot page tables

`setup_page_tables` of `boot/entry.S`: three zeroed pages become a root, a table of 1 GiB slots and
a table of 512 large pages. The code runs in 32 bits and stores the low half of each entry; memory
is seen as 64-bit words by address, as in `Vmm`. -/

namespace NeverMind

def pteP : BitVec 32 := 0x1

def pteRw : BitVec 32 := 0x2

def ptePs : BitVec 32 := 0x80

/-- The three pages of `.boot.bss`, one after the other, below 4 GiB. -/
structure BootTables where
  bootPml4 : ℕ
  aligned : bootPml4 % 4096 = 0
  below : bootPml4 + 3 * 4096 ≤ 2 ^ 32

namespace BootTables

def bootPdpt (b : BootTables) : ℕ := b.bootPml4 + 4096

def bootPd (b : BootTables) : ℕ := b.bootPml4 + 2 * 4096

/-- `mov %eax, (%edi)`: a store to the low half of an entry. -/
def storeLow (edi : ℕ) (eax : BitVec 32) (mem : ℕ → BitVec 64) : ℕ → BitVec 64 :=
  Function.update mem edi (mem edi &&& 0xFFFFFFFF00000000#64 ||| eax.setWidth 64)

/-- `rep stosl` with 0 over pairs of double words. -/
def clearWords : ℕ → ℕ → (ℕ → BitVec 64) → ℕ → BitVec 64
  | 0, _, mem => mem
  | words + 1, edi, mem => clearWords words (edi + 8) (Function.update mem edi 0#64)

/-- The loop `.map_2m`. -/
def map2m : ℕ → ℕ → BitVec 32 → (ℕ → BitVec 64) → ℕ → BitVec 64
  | 0, _, _, mem => mem
  | ecx + 1, edi, ebx, mem =>
    map2m ecx (edi + 8) (ebx + 0x200000#32)
      (storeLow edi (ebx ||| (pteP ||| pteRw ||| ptePs)) mem)

def setupPageTables (b : BootTables) (mem : ℕ → BitVec 64) : ℕ → BitVec 64 :=
  let mem := clearWords (3072 / 2) b.bootPml4 mem
  let eax := BitVec.ofNat 32 b.bootPdpt ||| (pteP ||| pteRw)
  let mem := storeLow b.bootPml4 eax mem
  let mem := storeLow (b.bootPml4 + 511 * 8) eax mem
  let eax := BitVec.ofNat 32 b.bootPd ||| (pteP ||| pteRw)
  let mem := storeLow b.bootPdpt eax mem
  let mem := storeLow (b.bootPdpt + 510 * 8) eax mem
  map2m 512 b.bootPd 0#32 mem

end BootTables

end NeverMind
