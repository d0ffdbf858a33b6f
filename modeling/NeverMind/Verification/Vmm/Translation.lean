import NeverMind.Verification.Vmm.Mapping
import NeverMind.Verification.Vmm.PmmFrames
import Mathlib.Logic.Relation

/-! # Address translation

The walk of the processor through the four levels, the abstract map from virtual
addresses to physical ones, and the refinement between them: whatever calls are made,
the processor translates every address as the map does. -/

namespace NeverMind

/-- The result of a translation: the physical address and the effective rights. -/
structure Translation where
  phys : ℕ
  rw : Bool
  us : Bool
  deriving Repr, DecidableEq

/-- Bits 51 down to `shift` of an entry. -/
def frameBits (shift : ℕ) (e : BitVec 64) : ℕ := e.toNat % 2 ^ 52 / 2 ^ shift * 2 ^ shift

/-- The walk of the processor from a table at `level`, 3 for the root and 0 for a page
table, with the rights granted so far. A large entry above level 0 maps a page of the size
that its level covers. -/
def walkFrom (mem : ℕ → BitVec 64) (virtAddr : ℕ) : ℕ → ℕ → Bool → Bool → Option Translation
  | 0, table, rw, us =>
    let e := mem (entrySlot table (tableIndex 12 virtAddr))
    if present e then
      some ⟨frameBits 12 e + virtAddr % 2 ^ 12, rw && writable e, us && userAccess e⟩
    else none
  | level + 1, table, rw, us =>
    let shift := 12 + 9 * (level + 1)
    let e := mem (entrySlot table (tableIndex shift virtAddr))
    let rw := rw && writable e
    let us := us && userAccess e
    if present e then
      if large e ∧ level < 2 then some ⟨frameBits shift e + virtAddr % 2 ^ shift, rw, us⟩
      else walkFrom mem virtAddr level (frameBits 12 e) rw us
    else none

def hardwareWalk (mem : ℕ → BitVec 64) (root virtAddr : ℕ) : Option Translation :=
  walkFrom mem virtAddr 3 root true true

/-- An abstract page map: what each virtual address translates to. -/
abbrev PageMap := ℕ → Option Translation

namespace PageMap

/-- Two 48-bit addresses lie in the same naturally aligned page of `2 ^ shift` bytes. -/
def SamePage (shift a b : ℕ) : Prop := a % 2 ^ 48 / 2 ^ shift = b % 2 ^ 48 / 2 ^ shift

instance (shift a b : ℕ) : Decidable (SamePage shift a b) := inferInstanceAs (Decidable (_ = _))

def map (shift virtAddr : ℕ) (physAddr flags : BitVec 64) (m : PageMap) : PageMap := fun a =>
  if SamePage shift virtAddr a then
    some ⟨physAddr.toNat / 2 ^ shift * 2 ^ shift + a % 2 ^ shift, writable flags, userAccess flags⟩
  else m a

def unmap (virtAddr : ℕ) (m : PageMap) : PageMap := fun a =>
  if SamePage 12 virtAddr a then none else m a

end PageMap

/-! ## Calls -/

/-- A call on one hierarchy. -/
inductive VmmCall where
  | mapPage (virtAddr : ℕ) (physAddr flags : BitVec 64)
  | map2m (virtAddr : ℕ) (physAddr flags : BitVec 64)
  | unmapPage (virtAddr : ℕ)

namespace VmmCall

variable {α : Type*}

def run (A : PageAllocator α) (root : ℕ) : VmmCall → Vmm α → Bool × Vmm α
  | mapPage v p f, s => s.vmmMapPageIn A root v p f
  | map2m v p f, s => s.vmmMap2mIn A root v p f
  | unmapPage v, s => s.vmmUnmapPageIn A root v

def apply : VmmCall → PageMap → PageMap
  | mapPage v p f, m => m.map 12 v p f
  | map2m v p f, m => m.map 21 v p f
  | unmapPage v, m => m.unmap v

def Targets (a : ℕ) : VmmCall → Prop
  | mapPage v _ _ => PageMap.SamePage 12 v a
  | map2m v _ _ => PageMap.SamePage 21 v a
  | unmapPage v => PageMap.SamePage 12 v a

def Addressable : VmmCall → Prop
  | mapPage _ p _ => p.toNat < 2 ^ 52
  | map2m _ p _ => p.toNat < 2 ^ 52
  | unmapPage _ => True

/-- The call does not mix page sizes: no 4 KiB map into a slot that holds a large page and
no 2 MiB map over a slot that holds a page table. -/
def Fits (root : ℕ) (s : Vmm α) : VmmCall → Prop
  | mapPage v _ _ => s.leafAt root (Vmm.largePath v) = none
  | map2m v _ _ => s.tableAt root (Vmm.largePath v) = none
  | unmapPage _ => True

theorem apply_of_not_targets {c : VmmCall} {a : ℕ} (h : ¬ c.Targets a) (m : PageMap) :
    c.apply m a = m a := by
  cases c with
  | mapPage v p f => exact if_neg h
  | map2m v p f => exact if_neg h
  | unmapPage v => exact if_neg h

end VmmCall

/-! ## The walk reads the leaves -/

namespace Vmm

open Radix PageMap Option Nat Pmm

variable {α : Type*} {A : PageAllocator α} {F : FrameSource A} {root : ℕ} {s : Vmm α}

/-- What a leaf for a page of `2 ^ shift` bytes makes of an address. -/
def leafTranslation (shift virtAddr : ℕ) (e : BitVec 64) : Translation :=
  ⟨frameBits shift e + virtAddr % 2 ^ shift, writable e, userAccess e⟩

/-- The translation of an address by the leaves of the hierarchy. -/
def leafWalk (s : Vmm α) (root virtAddr : ℕ) : Option Translation :=
  match s.leafAt root (largePath virtAddr) with
  | some e => some (leafTranslation 21 virtAddr e)
  | none => (s.leafAt root (pagePath virtAddr)).map (leafTranslation 12 virtAddr)

theorem leafAt_of_tableAt_none {path : List (Fin 512)} (h : s.tableAt root path = none)
    (i : Fin 512) : s.leafAt root (i :: path) = none := by
  rw [leafAt, entryAt, Radix.entryAt, ← tableAt, h]
  rfl

theorem tableAt_of_leafAt {i : Fin 512} {path : List (Fin 512)} {e : BitVec 64}
    (h : s.leafAt root (i :: path) = some e) : ∃ t, s.tableAt root path = some t := by
  cases ht : s.tableAt root path with
  | none =>
    rw [leafAt_of_tableAt_none ht] at h
    cases h
  | some t => exact ⟨t, rfl⟩

theorem tableAt_of_tableAt_none {path : List (Fin 512)} (h : s.tableAt root path = none)
    (i : Fin 512) : s.tableAt root (i :: path) = none := by
  rw [tableAt, Radix.tableAt, ← tableAt, h]
  rfl

theorem tableAt_of_absent {path : List (Fin 512)} {t : ℕ} {i : Fin 512}
    (hpath : s.tableAt root path = some t) (h : present (s.entry t i) = false) :
    s.tableAt root (i :: path) = none := by
  rw [tableAt, tableAt_cons hpath]
  exact nextTable_of_not_present h _

theorem leafAt_of_absent {path : List (Fin 512)} {t : ℕ} {i : Fin 512}
    (hpath : s.tableAt root path = some t) (h : present (s.entry t i) = false) :
    s.leafAt root (i :: path) = none := by
  rw [leafAt_cons hpath, filter_some, isLeaf_of_not_present h]
  rfl

theorem leafAt_of_isLeaf {path : List (Fin 512)} {t : ℕ} {i : Fin 512}
    (hpath : s.tableAt root path = some t) (h : isLeaf path.length (s.entry t i) = true) :
    s.leafAt root (i :: path) = some (s.entry t i) := by
  rw [leafAt_cons hpath, filter_some, if_pos h]

theorem Hierarchy.frameBits_link (h : Hierarchy F root [] s) {path : List (Fin 512)} {t : ℕ}
    {i : Fin 512} (hnext : s.tableAt root (i :: path) = some (entryPtr (s.entry t i))) :
    frameBits 12 (s.entry t i) = entryPtr (s.entry t i) := by
  have hlt := (h.page _ _ hnext).2.2
  rw [entryPtr_eq] at *
  rw [frameBits]
  omega

theorem Hierarchy.grants_above (h : Hierarchy F root [] s) {path : List (Fin 512)} {t n : ℕ}
    {i j : Fin 512} (hpath : s.tableAt root path = some t)
    (hnext : s.tableAt root (i :: path) = some n) (hpres : present (s.entry n j) = true) :
    Grants (s.entry t i) (s.entry n j) :=
  h.rights j (i :: path) _ _ (entryAt_cons hnext j) hpres (entryAt_cons hpath i)

theorem Grants.and_writable {e f : BitVec 64} (h : Grants e f) :
    (writable e && writable f) = writable f := by
  cases hf : writable f with
  | false => simp
  | true => simp [h.1 hf]

theorem Grants.and_userAccess {e f : BitVec 64} (h : Grants e f) :
    (userAccess e && userAccess f) = userAccess f := by
  cases hf : userAccess f with
  | false => simp
  | true => simp [h.2 hf]

section

variable {virtAddr t : ℕ} {rw us : Bool}

theorem walkFrom_absent (s : Vmm α) (level : ℕ)
    (h : present (s.entry t (tableIndex (12 + 9 * level) virtAddr)) = false) :
    walkFrom s.mem virtAddr level t rw us = none := by
  rw [entry] at h
  cases level with
  | zero => simp only [walkFrom, h, Bool.false_eq_true, if_false]
  | succ level => simp only [walkFrom, h, Bool.false_eq_true, if_false]

theorem walkFrom_link (s : Vmm α) (level : ℕ) {e : BitVec 64}
    (he : s.entry t (tableIndex (12 + 9 * (level + 1)) virtAddr) = e) (h : present e = true)
    (hsmall : large e = false) :
    walkFrom s.mem virtAddr (level + 1) t rw us =
      walkFrom s.mem virtAddr level (frameBits 12 e) (rw && writable e) (us && userAccess e) := by
  rw [entry] at he
  simp only [walkFrom, he, h, hsmall, Bool.false_eq_true, false_and, if_false, if_true]

theorem walkFrom_page (s : Vmm α) {e : BitVec 64} (he : s.entry t (ptIndex virtAddr) = e)
    (h : present e = true) :
    walkFrom s.mem virtAddr 0 t rw us =
      some ⟨frameBits 12 e + virtAddr % 2 ^ 12, rw && writable e, us && userAccess e⟩ := by
  rw [entry, ptIndex] at he
  simp only [walkFrom, he, h, if_true]

theorem walkFrom_large (s : Vmm α) {e : BitVec 64} (he : s.entry t (pdIndex virtAddr) = e)
    (h : present e = true) (hlarge : large e = true) :
    walkFrom s.mem virtAddr 1 t rw us =
      some ⟨frameBits 21 e + virtAddr % 2 ^ 21, rw && writable e, us && userAccess e⟩ := by
  rw [entry, pdIndex] at he
  simp [walkFrom, he, h, hlarge]

end

theorem large_of_leafAt_none {path : List (Fin 512)} {i : Fin 512} {t : ℕ}
    (hpath : s.tableAt root path = some t) (hleaf : s.leafAt root (i :: path) = none)
    (hpres : present (s.entry t i) = true) : large (s.entry t i) = false := by
  have h := isLeaf_of_leafAt_eq_none hpath hleaf
  rw [isLeaf, hpres, Bool.true_and, Bool.or_eq_false_iff] at h
  exact h.2

/-- The walk goes from a table to the table that an entry links, with the rights of the entry. -/
theorem Hierarchy.walkFrom_down (h : Hierarchy F root [] s) (level virtAddr : ℕ)
    {path : List (Fin 512)} {i : Fin 512} {t : ℕ} {rw us : Bool}
    (hi : tableIndex (12 + 9 * (level + 1)) virtAddr = i)
    (hnext : s.tableAt root (i :: path) = some (entryPtr (s.entry t i)))
    (hpres : present (s.entry t i) = true) (hsmall : large (s.entry t i) = false)
    (hrw : (rw && writable (s.entry t i)) = writable (s.entry t i))
    (hus : (us && userAccess (s.entry t i)) = userAccess (s.entry t i)) :
    walkFrom s.mem virtAddr (level + 1) t rw us =
      walkFrom s.mem virtAddr level (entryPtr (s.entry t i)) (writable (s.entry t i))
        (userAccess (s.entry t i)) := by
  subst hi
  rw [walkFrom_link s level rfl hpres hsmall, h.frameBits_link hnext, hrw, hus]

section

variable {path : List (Fin 512)} {i : Fin 512} {t n virtAddr : ℕ}

/-- The walk from a page table on, with the rights of the entry that links it. -/
theorem Hierarchy.walkFrom_pt (h : Hierarchy F root [] s) (hlength : path.length = 2)
    (hpath : s.tableAt root path = some t) (hnext : s.tableAt root (i :: path) = some n) :
    walkFrom s.mem virtAddr 0 n (writable (s.entry t i)) (userAccess (s.entry t i)) =
      (s.leafAt root (ptIndex virtAddr :: i :: path)).map (leafTranslation 12 virtAddr) := by
  cases hpres : present (s.entry n (ptIndex virtAddr)) with
  | false =>
    rw [walkFrom_absent s 0 hpres, leafAt_of_absent hnext hpres]
    rfl
  | true =>
    have hg := h.grants_above hpath hnext hpres
    have hleaf := leafAt_of_isLeaf hnext (i := ptIndex virtAddr)
      (by simp [isLeaf, hpres, hlength])
    rw [walkFrom_page s rfl hpres, hleaf, Grants.and_writable hg, Grants.and_userAccess hg]
    rfl

theorem Hierarchy.walkFrom_pd (h : Hierarchy F root [] s) (hlength : path.length = 1)
    (hpath : s.tableAt root path = some t) (hnext : s.tableAt root (i :: path) = some n) :
    walkFrom s.mem virtAddr 1 n (writable (s.entry t i)) (userAccess (s.entry t i)) =
      match s.leafAt root (pdIndex virtAddr :: i :: path) with
      | some e => some (leafTranslation 21 virtAddr e)
      | none => (s.leafAt root (ptIndex virtAddr :: pdIndex virtAddr :: i :: path)).map
          (leafTranslation 12 virtAddr) := by
  cases hpres : present (s.entry n (pdIndex virtAddr)) with
  | false =>
    have hpt := tableAt_of_absent hnext hpres
    rw [walkFrom_absent s 1 hpres, leafAt_of_absent hnext hpres, leafAt_of_tableAt_none hpt]
    rfl
  | true =>
    have hg := h.grants_above hpath hnext hpres
    cases hlarge : large (s.entry n (pdIndex virtAddr)) with
    | true =>
      have hleaf := leafAt_of_isLeaf hnext (i := pdIndex virtAddr)
        (by simp [isLeaf, hpres, hlarge])
      rw [walkFrom_large s rfl hpres hlarge, hleaf, Grants.and_writable hg,
        Grants.and_userAccess hg]
      rfl
    | false =>
      have hnoleaf : s.leafAt root (pdIndex virtAddr :: i :: path) = none := by
        rw [leafAt_cons hnext, filter_some]
        simp [isLeaf, hlarge, hlength]
      have hpt := tableAt_of_present hnext hnoleaf hpres
      rw [h.walkFrom_down 0 virtAddr (i := pdIndex virtAddr) rfl hpt hpres hlarge
        (Grants.and_writable hg) (Grants.and_userAccess hg), hnoleaf]
      exact h.walkFrom_pt (by simp [hlength]) hnext hpt

end

theorem Hierarchy.hardwareWalk_eq (h : Hierarchy F root [] s) (virtAddr : ℕ) :
    hardwareWalk s.mem root virtAddr = s.leafWalk root virtAddr := by
  have hroot := tableAt_nil s root
  rw [hardwareWalk, leafWalk, pagePath, largePath, pdPath]
  -- the two upper levels hold no leaves
  cases hp₄ : present (s.entry root (pml4Index virtAddr)) with
  | false =>
    have hpd := tableAt_of_tableAt_none (tableAt_of_absent hroot hp₄) (pdptIndex virtAddr)
    have hpt := tableAt_of_tableAt_none hpd (pdIndex virtAddr)
    rw [walkFrom_absent s 3 hp₄, leafAt_of_tableAt_none hpd, leafAt_of_tableAt_none hpt]
    rfl
  | true =>
    have hhuge₄ := h.no_huge [pml4Index virtAddr] (by simp)
    have hpdpt := tableAt_of_present hroot hhuge₄ hp₄
    rw [h.walkFrom_down 2 virtAddr (i := pml4Index virtAddr) rfl hpdpt hp₄
      (large_of_leafAt_none hroot hhuge₄ hp₄) (Bool.true_and _) (Bool.true_and _)]
    set e₄ := s.entry root (pml4Index virtAddr)
    cases hp₃ : present (s.entry (entryPtr e₄) (pdptIndex virtAddr)) with
    | false =>
      have hpd := tableAt_of_absent hpdpt hp₃
      have hpt := tableAt_of_tableAt_none hpd (pdIndex virtAddr)
      rw [walkFrom_absent s 2 hp₃, leafAt_of_tableAt_none hpd, leafAt_of_tableAt_none hpt]
      rfl
    | true =>
      have hhuge₃ := h.no_huge [pdptIndex virtAddr, pml4Index virtAddr] (by simp)
      have hpd := tableAt_of_present hpdpt hhuge₃ hp₃
      have hg := h.grants_above hroot hpdpt hp₃
      rw [h.walkFrom_down 1 virtAddr (i := pdptIndex virtAddr) rfl hpd hp₃
        (large_of_leafAt_none hpdpt hhuge₃ hp₃) (Grants.and_writable hg)
        (Grants.and_userAccess hg)]
      exact h.walkFrom_pd rfl hpdpt hpd

/-! ## One call -/

theorem samePage_iff_tableIndex {shift : ℕ} (hshift : shift + 9 ≤ 48) (a b : ℕ) :
    SamePage shift a b ↔ tableIndex shift a = tableIndex shift b ∧ SamePage (shift + 9) a b := by
  have hlevel (c : ℕ) : c % 2 ^ 48 / 2 ^ shift / 512 = c % 2 ^ 48 / 2 ^ (shift + 9) := by
    rw [Nat.div_div_eq_div_mul, Nat.pow_add]
  have hindex (c : ℕ) : c % 2 ^ 48 / 2 ^ shift % 512 = c / 2 ^ shift % 512 := by
    have hsplit : 2 ^ 48 = 2 ^ shift * 2 ^ (48 - shift) := by
      rw [← Nat.pow_add, Nat.add_sub_cancel' (by omega)]
    have hdvd : 512 ∣ 2 ^ (48 - shift) := pow_dvd_pow 2 (by omega : 9 ≤ 48 - shift)
    rw [hsplit, mod_mul_right_div_self, mod_mod_of_dvd _ hdvd]
  rw [SamePage, SamePage, ← hlevel a, ← hlevel b, tableIndex, tableIndex, Fin.mk.injEq,
    ← hindex a, ← hindex b]
  omega

theorem samePage_top (a b : ℕ) : SamePage 39 a b ↔ pml4Index a = pml4Index b := by
  rw [SamePage, pml4Index, pml4Index, tableIndex, tableIndex, Fin.mk.injEq]
  omega

theorem pdPath_eq_iff (a b : ℕ) : pdPath a = pdPath b ↔ SamePage 30 a b := by
  rw [samePage_iff_tableIndex (by decide), samePage_top]
  simp [pdPath, pdptIndex]

theorem largePath_eq_iff (a b : ℕ) : largePath a = largePath b ↔ SamePage 21 a b := by
  rw [samePage_iff_tableIndex (by decide), ← pdPath_eq_iff]
  simp [largePath, pdIndex]

theorem pagePath_eq_iff (a b : ℕ) : pagePath a = pagePath b ↔ SamePage 12 a b := by
  rw [samePage_iff_tableIndex (by decide), ← largePath_eq_iff]
  simp [pagePath, ptIndex]

theorem largePath_ne_pagePath (a b : ℕ) : largePath a ≠ pagePath b := by
  intro h
  have := congrArg List.length h
  simp [largePath, pagePath, pdPath] at this

variable {phys : BitVec 64}

theorem frameBits_of_bits {n : ℕ} {e : BitVec 64} (h : ∀ i, n ≤ i → e.getLsbD i = phys.getLsbD i)
    (hlt : phys.toNat < 2 ^ 52) : frameBits n e = phys.toNat / 2 ^ n * 2 ^ n := by
  have hdiv : e.toNat % 2 ^ 52 / 2 ^ n = phys.toNat / 2 ^ n := by
    apply eq_of_testBit_eq
    intro i
    rw [testBit_div_two_pow, testBit_div_two_pow, testBit_mod_two_pow,
      BitVec.testBit_toNat, h (i + n) (by omega), ← BitVec.testBit_toNat]
    by_cases hi : i + n < 52
    · simp [hi]
    · have hbig : phys.toNat < 2 ^ (i + n) :=
        Nat.lt_of_lt_of_le hlt (Nat.pow_le_pow_right (by decide) (by omega))
      simp [hi, testBit_lt_two_pow hbig]
  rw [frameBits, hdiv]

theorem leafTranslation_of_leafFor {n : ℕ} {flags e : BitVec 64} (h : LeafFor n phys flags e)
    (hlt : phys.toNat < 2 ^ 52) (a : ℕ) : leafTranslation n a e =
      ⟨phys.toNat / 2 ^ n * 2 ^ n + a % 2 ^ n, writable flags, userAccess flags⟩ := by
  rw [leafTranslation, frameBits_of_bits h.high hlt, h.writable_eq, h.userAccess_eq]

variable {s' : Vmm α}

theorem leafWalk_setPage {v : ℕ} {x : Option (BitVec 64)}
    (hleaf : ∀ p, s'.leafAt root p = if p = pagePath v then x else s.leafAt root p)
    (hslot : s.leafAt root (largePath v) = none) (a : ℕ) :
    s'.leafWalk root a =
      if SamePage 12 v a then x.map (leafTranslation 12 a) else s.leafWalk root a := by
  rw [leafWalk, leafWalk, hleaf, hleaf, if_neg (largePath_ne_pagePath a v)]
  by_cases hsame : SamePage 12 v a
  · have hpage := (pagePath_eq_iff v a).mpr hsame
    have hlarge : largePath a = largePath v := (List.cons.inj hpage).2.symm
    rw [if_pos hpage.symm, if_pos hsame, hlarge, hslot]
  · rw [if_neg (fun heq => hsame ((pagePath_eq_iff v a).mp heq.symm)), if_neg hsame]

theorem leafWalk_setLarge {v : ℕ} {e : BitVec 64}
    (hleaf : ∀ p, s'.leafAt root p = if p = largePath v then some e else s.leafAt root p) (a : ℕ) :
    s'.leafWalk root a =
      if SamePage 21 v a then some (leafTranslation 21 a e) else s.leafWalk root a := by
  rw [leafWalk, leafWalk, hleaf, hleaf, if_neg (largePath_ne_pagePath v a).symm]
  by_cases hsame : SamePage 21 v a
  · rw [if_pos ((largePath_eq_iff v a).mpr hsame).symm, if_pos hsame]
  · rw [if_neg (fun heq => hsame ((largePath_eq_iff v a).mp heq.symm)), if_neg hsame]

theorem Hierarchy.leafWalk_same (h : Hierarchy F root [] s) (hsame : SameEntries s s') (a : ℕ) :
    s'.leafWalk root a = s.leafWalk root a := by
  simp only [leafWalk, h.leafAt_same hsame]

/-- A call that fails or writes a leaf acts on the translation as `f` if writing the leaf does. -/
theorem Hierarchy.acts (h : Hierarchy F root [] s) {r : Bool × Vmm α} {path : List (Fin 512)}
    {leaf : Option (BitVec 64)} {P : Prop} {f : PageMap → PageMap}
    (hr : FailsUnchanged F root s r ∨ SetsLeaf F root s path leaf r)
    (hwalk : P → ∀ s' : Vmm α,
      (∀ p, s'.leafAt root p = if p = path then leaf else s.leafAt root p) →
        ∀ a, s'.leafWalk root a = f (s.leafWalk root) a) :
    Hierarchy F root [] r.2 ∧ r.2.foreign = s.foreign ∧ (r.1 = false → Unchanged F s r.2) ∧
      (P → ∀ a, r.2.leafWalk root a =
        if r.1 then f (s.leafWalk root) a else s.leafWalk root a) := by
  rcases hr with ⟨hfalse, hier, hsame⟩ | ⟨htrue, hier, hforeign, hleaf⟩
  · refine ⟨hier, hsame.foreign, fun _ => hsame, fun _ a => ?_⟩
    rw [hfalse, if_neg (by decide), h.leafWalk_same hsame.entries]
  · refine ⟨hier, hforeign, fun hfalse => ?_, fun hp a => ?_⟩
    · rw [htrue] at hfalse
      cases hfalse
    · rw [htrue, if_pos rfl, hwalk hp _ hleaf]

/-- A fitting call keeps the hierarchy and acts on the translation as on the abstract map. -/
theorem Hierarchy.run_call (h : Hierarchy F root [] s) {c : VmmCall} (hfits : c.Fits root s) :
    Hierarchy F root [] (c.run A root s).2 ∧ (c.run A root s).2.foreign = s.foreign ∧
      ((c.run A root s).1 = false → Unchanged F s (c.run A root s).2) ∧
      (c.Addressable → ∀ a, (c.run A root s).2.leafWalk root a =
        if (c.run A root s).1 then c.apply (s.leafWalk root) a else s.leafWalk root a) := by
  cases c with
  | mapPage v p f =>
    refine h.acts (vmmMapPageIn_outcome h v p f hfits).setsLeaf fun hp s' hleaf a => ?_
    rw [leafWalk_setPage hleaf hfits, map_some,
      leafTranslation_of_leafFor (leafFor_pageLeaf p f) hp]
    rfl
  | map2m v p f =>
    refine h.acts (vmmMap2mIn_outcome h v p f hfits).setsLeaf fun hp s' hleaf a => ?_
    rw [leafWalk_setLarge hleaf, leafTranslation_of_leafFor (leafFor_largeLeaf p f) hp]
    rfl
  | unmapPage v =>
    rcases vmmUnmapPageIn_spec h v with hfalse | ⟨hslot, hsets⟩
    · rw [VmmCall.run, hfalse]
      exact ⟨h, rfl, fun _ => Unchanged.refl F s, fun _ a => rfl⟩
    · refine h.acts (.inr hsets) fun _ s' hleaf a => ?_
      rw [leafWalk_setPage hleaf hslot]
      rfl

/-! ## Runs from a zeroed root -/

/-- The root is a cleared page that the allocator does not hold free, and no other table
is in use. -/
structure ZeroedRoot (F : FrameSource A) (root : ℕ) (s : Vmm α) : Prop where
  inv : F.Inv s.pmm
  page : root ≠ 0 ∧ root % 4096 = 0 ∧ root < 2 ^ 52
  not_free : ¬ F.Free s.pmm root
  tables_eq : s.tables = {root}
  foreign_eq : s.foreign = []
  cleared : ∀ i, s.entry root i = 0#64

theorem ZeroedRoot.tableAt_eq (h : ZeroedRoot F root s) {path : List (Fin 512)} {t : ℕ}
    (hpath : s.tableAt root path = some t) : path = [] ∧ t = root := by
  induction path generalizing t with
  | nil => exact ⟨rfl, (some.inj hpath).symm⟩
  | cons i path ih =>
    obtain ⟨t', hpath', hnext⟩ := tableAt_of_cons hpath
    obtain ⟨-, rfl⟩ := ih hpath'
    rw [h.cleared, nextTable_of_not_present present_zero] at hnext
    cases hnext

theorem ZeroedRoot.hierarchy (h : ZeroedRoot F root s) : Hierarchy F root [] s := by
  have hentry : ∀ j path e, s.entryAt root (j :: path) = some e → e = 0#64 := by
    intro j path e he
    obtain ⟨t, hpath, rfl⟩ := entryAt_of_cons he
    obtain ⟨-, rfl⟩ := h.tableAt_eq hpath
    exact h.cleared j
  refine ⟨h.inv, ?_, ?_, ?_, ?_, ?_, by simp, by simp, List.nodup_nil, ?_, ?_⟩
  · intro p p' t hp hp'
    rw [(h.tableAt_eq hp).1, (h.tableAt_eq hp').1]
  · intro p t hp
    rw [(h.tableAt_eq hp).2]
    exact h.page
  · intro t
    rw [h.tables_eq, Finset.mem_singleton]
    constructor
    · rintro rfl
      exact Or.inl ⟨[], rfl⟩
    · rintro (⟨p, hp⟩ | hnil)
      · exact (h.tableAt_eq hp).2
      · cases hnil
  · intro t ht
    rw [h.tables_eq, Finset.mem_singleton] at ht
    exact ht ▸ h.not_free
  · intro t ht hne
    rw [h.tables_eq, Finset.mem_singleton] at ht
    exact absurd ht hne
  · intro p _
    cases p with
    | nil => rfl
    | cons j p =>
      rw [leafAt]
      cases he : s.entryAt root (j :: p) with
      | none => rfl
      | some e =>
        rw [hentry j p e he, filter_some, isLeaf_of_not_present present_zero]
        rfl
  · intro j p e e' he hpres _
    rw [hentry j p e he] at hpres
    cases hpres

theorem ZeroedRoot.leafWalk_eq (h : ZeroedRoot F root s) (a : ℕ) : s.leafWalk root a = none := by
  have hpdpt : s.tableAt root [pml4Index a] = none := by
    cases ht : s.tableAt root [pml4Index a] with
    | none => rfl
    | some t => cases (h.tableAt_eq ht).1
  have hpd := tableAt_of_tableAt_none hpdpt (pdptIndex a)
  have hpt := tableAt_of_tableAt_none hpd (pdIndex a)
  rw [leafWalk, pagePath, largePath, pdPath, leafAt_of_tableAt_none hpd, leafAt_of_tableAt_none hpt]
  rfl

/-- One call next to the abstract map, which follows the calls that succeed. -/
def MappingStep (A : PageAllocator α) (root : ℕ) (x y : Vmm α × PageMap) : Prop :=
  ∃ c : VmmCall, c.Fits root x.1 ∧ c.Addressable ∧ y.1 = (c.run A root x.1).2 ∧
    y.2 = if (c.run A root x.1).1 then c.apply x.2 else x.2

theorem mappingRun_invariant {x y : Vmm α × PageMap}
    (hrun : Relation.ReflTransGen (MappingStep A root) x y) (hx : Hierarchy F root [] x.1)
    (hmap : x.1.leafWalk root = x.2) : Hierarchy F root [] y.1 ∧ y.1.leafWalk root = y.2 := by
  induction hrun with
  | refl => exact ⟨hx, hmap⟩
  | tail _ hstep ih =>
    obtain ⟨c, hfits, haddr, hstate, hmap'⟩ := hstep
    obtain ⟨hier, -, -, hwalk⟩ := ih.1.run_call hfits
    rw [hstate, hmap', ← ih.2]
    refine ⟨hier, funext fun a => ?_⟩
    rw [hwalk haddr a]
    split <;> rfl

/-- From a zeroed root the processor translates every address as the abstract map does,
after any calls that do not mix page sizes in one slot, and a call affects no page that it
does not name. -/
theorem hardware_walk_refines_page_map (F : FrameSource A) (root : ℕ) (s₀ s : Vmm α) (m : PageMap)
    (h₀ : ZeroedRoot F root s₀)
    (hrun : Relation.ReflTransGen (MappingStep A root) (s₀, fun _ => none) (s, m)) :
    (∀ a, hardwareWalk s.mem root a = m a) ∧
      ∀ c : VmmCall, c.Fits root s → c.Addressable → ∀ a, ¬ c.Targets a →
        hardwareWalk (c.run A root s).2.mem root a = hardwareWalk s.mem root a := by
  obtain ⟨hier, hwalk⟩ := mappingRun_invariant hrun h₀.hierarchy (funext h₀.leafWalk_eq)
  refine ⟨fun a => ?_, fun c hfits haddr a hnot => ?_⟩
  · rw [hier.hardwareWalk_eq]
    exact congrFun hwalk a
  · obtain ⟨hier', -, -, hwalk'⟩ := hier.run_call hfits
    rw [hier'.hardwareWalk_eq, hier.hardwareWalk_eq, hwalk' haddr a, c.apply_of_not_targets hnot,
      ite_self]

def bootPmm : Pmm := zeroed.pmmInitFromRanges .atOneMiB [⟨0x200000, 0x10000, nmMemAvailable⟩]

def atBoot : Vmm Pmm := ⟨bootPmm, fun _ => 0#64, 0x1000, {0x1000}, []⟩

theorem bootPmm_sound : Sound bootPmm :=
  have hb := pmmInitFromRanges_booted .atOneMiB [⟨0x200000, 0x10000, nmMemAvailable⟩] zeroed
  ⟨hb.accounting, hb.zero_notMem_free⟩

theorem bootPmm_root : ¬ bootPmm.PageFree 0x1000 := by
  have hb := pmmInitFromRanges_booted .atOneMiB [⟨0x200000, 0x10000, nmMemAvailable⟩] zeroed
  rintro ⟨-, hmem⟩
  obtain ⟨-, -, hkernel, -⟩ := (hb.mem_free_iff 1).mp hmem
  apply hkernel
  have hlow : 1 ∈ outerFrames 0 0x100000 := by decide
  simp [kernelFrames, hlow]

theorem atBoot_pmm : atBoot.pmm = bootPmm := by rw [atBoot]

theorem atBoot_zeroedRoot : ZeroedRoot frameSource 0x1000 atBoot := by
  refine ⟨?_, by decide, ?_, ?_, ?_, fun i => ?_⟩
  · rw [atBoot_pmm]
    exact bootPmm_sound
  · rw [atBoot_pmm]
    exact bootPmm_root
  · rw [atBoot]
  · rw [atBoot]
  · rw [entry, atBoot]

theorem atBoot_tableAt (i : Fin 512) (path : List (Fin 512)) :
    atBoot.tableAt 0x1000 (i :: path) = none := by
  cases h : atBoot.tableAt 0x1000 (i :: path) with
  | none => rfl
  | some t => cases (atBoot_zeroedRoot.tableAt_eq h).1

theorem atBoot_fits (v : ℕ) (p f : BitVec 64) : (VmmCall.mapPage v p f).Fits 0x1000 atBoot :=
  leafAt_of_tableAt_none (atBoot_tableAt _ _) _

/-- The theorem after one call on this machine: a page at 1 GiB, writable for the kernel. -/
theorem hardware_walk_refines_page_map_atBoot :
    hardwareWalk ((VmmCall.mapPage 0x40000000 0x5000 0x3).run pages 0x1000 atBoot).2.mem
      0x1000 0x40000123 = some ⟨0x5123, true, false⟩ := by
  obtain ⟨r, hr⟩ : ∃ r, r = (VmmCall.mapPage 0x40000000 0x5000 0x3).run pages 0x1000 atBoot :=
    ⟨_, rfl⟩
  have hok : r.1 = true := by
    rw [hr]
    decide +kernel
  have hstep : MappingStep pages 0x1000 (atBoot, fun _ => none)
      (r.2, (VmmCall.mapPage 0x40000000 0x5000 0x3).apply fun _ => none) :=
    ⟨_, atBoot_fits _ 0x5000 0x3, by simp [VmmCall.Addressable], by rw [hr],
      by rw [← hr, hok, if_pos rfl]⟩
  rw [← hr]
  exact (hardware_walk_refines_page_map frameSource 0x1000 atBoot _ _ atBoot_zeroedRoot
    (.single hstep)).1 0x40000123

end Vmm

end NeverMind
