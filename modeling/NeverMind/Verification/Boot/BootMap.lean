import NeverMind.Model.Boot
import NeverMind.Verification.Vmm.Translation

/-! # What the boot page tables map

The processor finds the first GiB of physical memory at the addresses of two slots of the root and
two slots of the next table, and nothing else. -/

namespace NeverMind

open BitVec Nat

namespace BootTables

/-! ## Entries -/

/-- The entry that a 32-bit store of an address and flags leaves over a zero. -/
def bootEntry (addr flags : ℕ) : BitVec 64 :=
  (BitVec.ofNat 32 addr ||| BitVec.ofNat 32 flags).setWidth 64

variable {addr : ℕ}

theorem toNat_bootEntry {flags : ℕ} (hpage : addr % 4096 = 0) (hlt : addr < 2 ^ 32)
    (hflags : flags < 4096) : (bootEntry addr flags).toNat = addr + flags := by
  have hor := two_pow_add_eq_or_of_lt (i := 12) (b := flags) (by omega) (addr / 4096)
  have hmul : 2 ^ 12 * (addr / 4096) = addr := by omega
  rw [hmul] at hor
  have hsmall : flags % 2 ^ 32 = flags := mod_eq_of_lt (by omega)
  rw [bootEntry, toNat_setWidth, toNat_or, toNat_ofNat, toNat_ofNat,
    mod_eq_of_lt hlt, hsmall, ← hor, mod_eq_of_lt (by omega)]

theorem getLsbD_bootEntry {flags i : ℕ} (hpage : addr % 4096 = 0) (hi : i < 12) :
    (bootEntry addr flags).getLsbD i = flags.testBit i := by
  have haddr : addr.testBit i = false := by
    rw [← div_add_mod addr 4096, hpage, Nat.add_zero, show 4096 = 2 ^ 12 from rfl,
      testBit_two_pow_mul]
    simp [not_le.mpr hi]
  have hlow : i < 32 := by omega
  have hwide : i < 64 := by omega
  rw [bootEntry, getLsbD_setWidth, getLsbD_or, getLsbD_ofNat, getLsbD_ofNat, haddr]
  simp [hlow, hwide]

theorem flags_bootEntry (hpage : addr % 4096 = 0) (flags : ℕ) :
    present (bootEntry addr flags) = flags.testBit 0 ∧
      large (bootEntry addr flags) = flags.testBit 7 ∧
      writable (bootEntry addr flags) = flags.testBit 1 ∧
      userAccess (bootEntry addr flags) = flags.testBit 2 :=
  ⟨getLsbD_bootEntry hpage (by decide), getLsbD_bootEntry hpage (by decide),
    getLsbD_bootEntry hpage (by decide), getLsbD_bootEntry hpage (by decide)⟩

theorem bootEntry_table (hpage : addr % 4096 = 0) :
    present (bootEntry addr 3) = true ∧ large (bootEntry addr 3) = false ∧
      writable (bootEntry addr 3) = true ∧ userAccess (bootEntry addr 3) = false :=
  flags_bootEntry hpage 3

theorem bootEntry_large (hpage : addr % 4096 = 0) :
    present (bootEntry addr 0x83) = true ∧ large (bootEntry addr 0x83) = true ∧
      writable (bootEntry addr 0x83) = true ∧ userAccess (bootEntry addr 0x83) = false :=
  flags_bootEntry hpage 0x83

theorem frameBits_bootEntry {flags shift : ℕ} (hpage : addr % 4096 = 0)
    (halign : addr % 2 ^ shift = 0) (hlt : addr < 2 ^ 32) (hflags : flags < 4096)
    (hshift : 12 ≤ shift) : frameBits shift (bootEntry addr flags) = addr := by
  have hpow : 2 ^ 12 ≤ 2 ^ shift := Nat.pow_le_pow_right (by decide) hshift
  rw [frameBits, toNat_bootEntry hpage hlt hflags, mod_eq_of_lt (by omega)]
  obtain ⟨q, rfl⟩ := dvd_of_mod_eq_zero halign
  rw [mul_add_div (by omega), div_eq_of_lt (by omega), Nat.add_zero, mul_comm]

/-! ## The loops -/

variable {mem : ℕ → BitVec 64} {words edi a j : ℕ}

theorem clearWords_of_lt (h : a < edi) : clearWords words edi mem a = mem a := by
  induction words generalizing edi mem with
  | zero => rfl
  | succ words ih => rw [clearWords, ih (by omega), Function.update_of_ne (by omega)]

theorem clearWords_apply (h : j < words) : clearWords words edi mem (edi + 8 * j) = 0#64 := by
  induction words generalizing edi mem j with
  | zero => omega
  | succ words ih =>
    rw [clearWords]
    cases j with
    | zero => rw [clearWords_of_lt (by omega), Nat.mul_zero, Nat.add_zero, Function.update_self]
    | succ j => rw [show edi + 8 * (j + 1) = edi + 8 + 8 * j by omega, ih (by omega)]

theorem storeLow_self {eax : BitVec 32} (h : mem edi = 0#64) :
    storeLow edi eax mem edi = eax.setWidth 64 := by
  rw [storeLow, Function.update_self, h]
  simp

theorem storeLow_of_ne {eax : BitVec 32} (h : a ≠ edi) : storeLow edi eax mem a = mem a := by
  rw [storeLow, Function.update_of_ne h]

theorem storeLow_twice {table last i : ℕ} {eax : BitVec 32}
    (hzero : ∀ n < 512, mem (table + 8 * n) = 0#64) (hlast : last < 512) (hpos : 0 < last)
    (hi : i < 512) :
    storeLow (table + last * 8) eax (storeLow table eax mem) (table + 8 * i) =
      if i = 0 ∨ i = last then eax.setWidth 64 else 0#64 := by
  have hslot : table + last * 8 = table + 8 * last := by omega
  by_cases hil : i = last
  · have hbefore : storeLow table eax mem (table + 8 * last) = 0#64 := by
      rw [storeLow_of_ne (by omega), hzero last hlast]
    rw [if_pos (.inr hil), hil, hslot, storeLow_self hbefore]
  · rw [storeLow_of_ne (by omega)]
    by_cases hfirst : i = 0
    · have hbefore : mem table = 0#64 := hzero 0 (by decide)
      have hstart : table + 8 * 0 = table := rfl
      rw [if_pos (.inl hfirst), hfirst, hstart, storeLow_self hbefore]
    · rw [if_neg (by omega), storeLow_of_ne (by omega), hzero i hi]

theorem map2m_of_lt {ebx : BitVec 32} (h : a < edi) : map2m words edi ebx mem a = mem a := by
  induction words generalizing edi ebx mem with
  | zero => rfl
  | succ words ih => rw [map2m, ih (by omega), storeLow_of_ne (by omega)]

theorem map2m_apply {n : ℕ} (hzero : ∀ j < words, mem (edi + 8 * j) = 0#64) (h : j < words) :
    map2m words edi (BitVec.ofNat 32 n) mem (edi + 8 * j) = bootEntry (n + j * 0x200000) 0x83 := by
  induction words generalizing edi n mem j with
  | zero => omega
  | succ words ih =>
    have hflags : pteP ||| pteRw ||| ptePs = BitVec.ofNat 32 0x83 := by decide
    have hnext : BitVec.ofNat 32 n + 0x200000#32 = BitVec.ofNat 32 (n + 0x200000) := by
      rw [ofNat_add]
    rw [map2m, hflags, hnext]
    cases j with
    | zero =>
      have hfirst : mem edi = 0#64 := by simpa using hzero 0 (by omega)
      rw [map2m_of_lt (by omega), Nat.mul_zero, Nat.add_zero, storeLow_self hfirst]
      simp [bootEntry]
    | succ j =>
      have hrest : ∀ j < words,
          storeLow edi (BitVec.ofNat 32 n ||| BitVec.ofNat 32 0x83) mem (edi + 8 + 8 * j) =
            0#64 := by
        intro j hj
        rw [storeLow_of_ne (by omega), show edi + 8 + 8 * j = edi + 8 * (j + 1) by omega,
          hzero (j + 1) (by omega)]
      rw [show edi + 8 * (j + 1) = edi + 8 + 8 * j by omega, ih hrest (by omega),
        show n + 0x200000 + j * 0x200000 = n + (j + 1) * 0x200000 by omega]

/-! ## The tables -/

variable (b : BootTables) (mem : ℕ → BitVec 64)

/-- The state of the tables before the large pages are entered. -/
def upperTables : ℕ → BitVec 64 :=
  storeLow (b.bootPdpt + 510 * 8) (BitVec.ofNat 32 b.bootPd ||| BitVec.ofNat 32 3)
    (storeLow b.bootPdpt (BitVec.ofNat 32 b.bootPd ||| BitVec.ofNat 32 3)
      (storeLow (b.bootPml4 + 511 * 8) (BitVec.ofNat 32 b.bootPdpt ||| BitVec.ofNat 32 3)
        (storeLow b.bootPml4 (BitVec.ofNat 32 b.bootPdpt ||| BitVec.ofNat 32 3)
          (clearWords 1536 b.bootPml4 mem))))

theorem setupPageTables_eq :
    b.setupPageTables mem = map2m 512 b.bootPd (BitVec.ofNat 32 0) (b.upperTables mem) :=
  rfl

theorem clearWords_word {i : ℕ} (hi : i < 1536) :
    clearWords 1536 b.bootPml4 mem (b.bootPml4 + 8 * i) = 0#64 :=
  clearWords_apply hi

theorem setupPageTables_pml4 (i : Fin 512) :
    b.setupPageTables mem (entrySlot b.bootPml4 i) =
      if i.val = 0 ∨ i.val = 511 then bootEntry b.bootPdpt 3 else 0#64 := by
  have hi := i.isLt
  have hclear : ∀ n < 512, clearWords 1536 b.bootPml4 mem (b.bootPml4 + 8 * n) = 0#64 :=
    fun n hn => b.clearWords_word mem (by omega)
  -- the later stores go to the tables behind the root
  rw [setupPageTables_eq, entrySlot, map2m_of_lt (by unfold bootPd; omega), upperTables,
    storeLow_of_ne (by unfold bootPdpt; omega), storeLow_of_ne (by unfold bootPdpt; omega)]
  exact storeLow_twice hclear (by decide) (by decide) hi

theorem setupPageTables_pdpt (i : Fin 512) :
    b.setupPageTables mem (entrySlot b.bootPdpt i) =
      if i.val = 0 ∨ i.val = 510 then bootEntry b.bootPd 3 else 0#64 := by
  have hi := i.isLt
  have hpdpt : b.bootPdpt = b.bootPml4 + 4096 := rfl
  -- the entries of this table before its own two stores
  have hclear : ∀ n < 512, storeLow (b.bootPml4 + 511 * 8)
      (BitVec.ofNat 32 b.bootPdpt ||| BitVec.ofNat 32 3)
      (storeLow b.bootPml4 (BitVec.ofNat 32 b.bootPdpt ||| BitVec.ofNat 32 3)
        (clearWords 1536 b.bootPml4 mem)) (b.bootPdpt + 8 * n) = 0#64 := by
    intro n hn
    rw [storeLow_of_ne (by omega), storeLow_of_ne (by omega),
      show b.bootPdpt + 8 * n = b.bootPml4 + 8 * (512 + n) by omega]
    exact b.clearWords_word mem (by omega)
  rw [setupPageTables_eq, entrySlot, map2m_of_lt (by unfold bootPd; omega), upperTables]
  exact storeLow_twice hclear (by decide) (by decide) hi

theorem setupPageTables_pd (i : Fin 512) :
    b.setupPageTables mem (entrySlot b.bootPd i) = bootEntry (i.val * 0x200000) 0x83 := by
  have hpd : b.bootPd = b.bootPml4 + 2 * 4096 := rfl
  have hpdpt : b.bootPdpt = b.bootPml4 + 4096 := rfl
  have hzero : ∀ j < 512, b.upperTables mem (b.bootPd + 8 * j) = 0#64 := by
    intro j hj
    rw [upperTables, storeLow_of_ne (by omega), storeLow_of_ne (by omega),
      storeLow_of_ne (by omega), storeLow_of_ne (by omega),
      show b.bootPd + 8 * j = b.bootPml4 + 8 * (1024 + j) by omega]
    exact b.clearWords_word mem (by omega)
  rw [setupPageTables_eq, entrySlot, map2m_apply hzero i.isLt, zero_add]

/-! ## The walk -/

/-- The slots of the root and of the next table that lead to the large pages. -/
def Covers (a : ℕ) : Prop :=
  ((pml4Index a).val = 0 ∨ (pml4Index a).val = 511) ∧
    ((pdptIndex a).val = 0 ∨ (pdptIndex a).val = 510)

instance (a : ℕ) : Decidable (Covers a) := inferInstanceAs (Decidable (_ ∧ _))

theorem present_zero : present 0#64 = false := rfl

theorem walkFrom_bootPd (a : ℕ) :
    walkFrom (b.setupPageTables mem) a 1 b.bootPd true false = some ⟨a % 2 ^ 30, true, false⟩ := by
  have hpage : (tableIndex 21 a).val * 0x200000 % 4096 = 0 := by omega
  have halign : (tableIndex 21 a).val * 0x200000 % 2 ^ 21 = 0 := by omega
  have hi := (tableIndex 21 a).isLt
  obtain ⟨hpresent, hlarge, hwritable, -⟩ := bootEntry_large hpage
  have hframe : frameBits 21 (bootEntry ((tableIndex 21 a).val * 0x200000) 0x83) =
      (tableIndex 21 a).val * 0x200000 :=
    frameBits_bootEntry hpage halign (by omega) (by decide) (by decide)
  have hphys : (tableIndex 21 a).val * 0x200000 + a % 2 ^ 21 = a % 2 ^ 30 := by
    unfold tableIndex
    dsimp only
    omega
  rw [walkFrom]
  simpa [setupPageTables_pd, hpresent, hlarge, hwritable, hframe] using hphys

theorem walkFrom_bootPdpt (a : ℕ) :
    walkFrom (b.setupPageTables mem) a 2 b.bootPdpt true false =
      if (pdptIndex a).val = 0 ∨ (pdptIndex a).val = 510 then some ⟨a % 2 ^ 30, true, false⟩
      else none := by
  have halign := b.aligned
  have hbelow := b.below
  have hpage : b.bootPd % 4096 = 0 := by
    unfold bootPd
    omega
  have hlt : b.bootPd < 2 ^ 32 := by
    unfold bootPd
    omega
  obtain ⟨hpresent, hlarge, hwritable, -⟩ := bootEntry_table hpage
  have hframe : frameBits 12 (bootEntry b.bootPd 3) = b.bootPd :=
    frameBits_bootEntry hpage hpage hlt (by decide) (by decide)
  have hentry := b.setupPageTables_pdpt mem (pdptIndex a)
  rw [pdptIndex] at hentry ⊢
  rw [walkFrom]
  by_cases hslot : (tableIndex 30 a).val = 0 ∨ (tableIndex 30 a).val = 510
  · rw [if_pos hslot] at hentry ⊢
    simp [hentry, hpresent, hlarge, hwritable, hframe, walkFrom_bootPd]
  · rw [if_neg hslot] at hentry ⊢
    simp [hentry, present_zero]

theorem hardwareWalk_boot (a : ℕ) :
    hardwareWalk (b.setupPageTables mem) b.bootPml4 a =
      if Covers a then some ⟨a % 2 ^ 30, true, false⟩ else none := by
  have halign := b.aligned
  have hbelow := b.below
  have hpage : b.bootPdpt % 4096 = 0 := by
    unfold bootPdpt
    omega
  have hlt : b.bootPdpt < 2 ^ 32 := by
    unfold bootPdpt
    omega
  obtain ⟨hpresent, hlarge, hwritable, huser⟩ := bootEntry_table hpage
  have hframe : frameBits 12 (bootEntry b.bootPdpt 3) = b.bootPdpt :=
    frameBits_bootEntry hpage hpage hlt (by decide) (by decide)
  have hentry := b.setupPageTables_pml4 mem (tableIndex 39 a)
  rw [hardwareWalk, walkFrom]
  by_cases hslot : (tableIndex 39 a).val = 0 ∨ (tableIndex 39 a).val = 511
  · have hcovers : Covers a ↔ (pdptIndex a).val = 0 ∨ (pdptIndex a).val = 510 := and_iff_right hslot
    rw [if_pos hslot] at hentry
    rw [if_congr hcovers rfl rfl, ← b.walkFrom_bootPdpt mem]
    simp [hentry, hpresent, hlarge, hwritable, huser, hframe]
  · rw [if_neg hslot] at hentry
    have hcovers : ¬ Covers a := fun h => hslot h.1
    rw [if_neg hcovers]
    simp [hentry, present_zero]

theorem hardwareWalk_phys {a : ℕ} (h : a < maxPhysMemBytes) :
    hardwareWalk (b.setupPageTables mem) b.bootPml4 a =
      if a < 2 ^ 30 then some ⟨a, true, false⟩ else none := by
  unfold maxPhysMemBytes at h
  have hroot : (pml4Index a).val = 0 := by
    unfold pml4Index tableIndex
    dsimp only
    omega
  have hslot : (pdptIndex a).val = a / 2 ^ 30 := by
    unfold pdptIndex tableIndex
    dsimp only
    omega
  have hcovers : Covers a ↔ a < 2 ^ 30 := by
    unfold Covers
    rw [hroot, hslot]
    omega
  rw [hardwareWalk_boot]
  by_cases hlow : a < 2 ^ 30
  · rw [if_pos hlow, if_pos (hcovers.mpr hlow), mod_eq_of_lt hlow]
  · rw [if_neg hlow, if_neg fun h => hlow (hcovers.mp h)]

end BootTables

end NeverMind
