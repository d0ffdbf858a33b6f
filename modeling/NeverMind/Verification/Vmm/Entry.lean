import NeverMind.Model.Vmm

/-! # Page-table entries bit by bit

The flags of an entry are its bits 0, 1, 2 and 7 and the address is what remains above
bit 12. Every entry the manager writes is described by these. -/

namespace NeverMind

open Bitmap BitVec

def present (e : BitVec 64) : Bool := e.getLsbD 0

def writable (e : BitVec 64) : Bool := e.getLsbD 1

def userAccess (e : BitVec 64) : Bool := e.getLsbD 2

def large (e : BitVec 64) : Bool := e.getLsbD 7

/-- `e` permits whatever `f` permits. -/
def Grants (e f : BitVec 64) : Prop :=
  (writable f = true → writable e = true) ∧ (userAccess f = true → userAccess e = true)

theorem Grants.trans {e f g : BitVec 64} (h : Grants e f) (h' : Grants f g) : Grants e g :=
  ⟨h.1 ∘ h'.1, h.2 ∘ h'.2⟩

/-! ## Constants -/

theorem and_present_ne_zero (e : BitVec 64) : e &&& pageFlagPresent ≠ 0#64 ↔ present e = true :=
  and_one_shiftLeft_ne_zero e 0 (by decide)

theorem and_rw_ne_zero (e : BitVec 64) : e &&& pageFlagRw ≠ 0#64 ↔ writable e = true :=
  and_one_shiftLeft_ne_zero e 1 (by decide)

theorem and_us_ne_zero (e : BitVec 64) : e &&& pageFlagUs ≠ 0#64 ↔ userAccess e = true :=
  and_one_shiftLeft_ne_zero e 2 (by decide)

theorem and_ps_ne_zero (e : BitVec 64) : e &&& pageFlagPs ≠ 0#64 ↔ large e = true :=
  and_one_shiftLeft_ne_zero e 7 (by decide)

theorem and_present_eq_zero (e : BitVec 64) : e &&& pageFlagPresent = 0#64 ↔ present e = false := by
  rw [← not_iff_not, ← ne_eq, and_present_ne_zero, Bool.not_eq_false]

theorem getLsbD_flag (k : ℕ) (hk : k < 64) (i : ℕ) : (1#64 <<< k).getLsbD i = decide (i = k) := by
  by_cases hi : i < 64
  · exact getLsbD_one_shiftLeft k i hi
  · rw [getLsbD_of_ge _ _ (by omega)]
    simp
    omega

@[simp] theorem getLsbD_pageFlagPresent (i : ℕ) : pageFlagPresent.getLsbD i = decide (i = 0) :=
  getLsbD_flag 0 (by decide) i

@[simp] theorem getLsbD_pageFlagRw (i : ℕ) : pageFlagRw.getLsbD i = decide (i = 1) :=
  getLsbD_flag 1 (by decide) i

@[simp] theorem getLsbD_pageFlagUs (i : ℕ) : pageFlagUs.getLsbD i = decide (i = 2) :=
  getLsbD_flag 2 (by decide) i

@[simp] theorem getLsbD_pageFlagPs (i : ℕ) : pageFlagPs.getLsbD i = decide (i = 7) :=
  getLsbD_flag 7 (by decide) i

theorem getLsbD_lowMask (n i : ℕ) (hn : n ≤ 64) :
    (BitVec.ofNat 64 (2 ^ n - 1)).getLsbD i = decide (i < n) := by
  rw [getLsbD_ofNat, Nat.testBit_two_pow_sub_one]
  by_cases hi : i < n
  · simp [hi, Nat.lt_of_lt_of_le hi hn]
  · simp [hi]

@[simp] theorem getLsbD_pageOffsetMask (i : ℕ) : pageOffsetMask.getLsbD i = decide (i < 12) :=
  getLsbD_lowMask 12 i (by decide)

@[simp] theorem getLsbD_largeOffsetMask (i : ℕ) : largeOffsetMask.getLsbD i = decide (i < 21) :=
  getLsbD_lowMask 21 i (by decide)

/-! ## Addresses -/

theorem toNat_and_not_lowMask (e : BitVec 64) (n : ℕ) (hn : n ≤ 64) :
    (e &&& ~~~(BitVec.ofNat 64 (2 ^ n - 1))).toNat = e.toNat / 2 ^ n * 2 ^ n := by
  apply Nat.eq_of_testBit_eq
  intro i
  rw [testBit_toNat, getLsbD_and, getLsbD_not, getLsbD_lowMask n i hn,
    Nat.testBit_mul_two_pow, Nat.testBit_div_two_pow]
  by_cases hi : n ≤ i
  · have hsub : i - n + n = i := by omega
    by_cases hlt : i < 64
    · simp [hi, hlt, hsub, testBit_toNat]
    · rw [hsub, testBit_toNat, getLsbD_of_ge e i (by omega)]
      simp
  · have hlt : i < n := by omega
    simp [hi, hlt]

theorem entryPtr_eq (e : BitVec 64) : entryPtr e = e.toNat / 4096 * 4096 :=
  toNat_and_not_lowMask e 12 (by decide)

theorem entryPtr_congr {e f : BitVec 64} (h : ∀ i, 12 ≤ i → e.getLsbD i = f.getLsbD i) :
    entryPtr e = entryPtr f := by
  have heq : e &&& ~~~pageOffsetMask = f &&& ~~~pageOffsetMask := by
    apply eq_of_getLsbD_eq
    intro i hi
    by_cases hlow : i < 12
    · simp [hlow]
    · simp [h i (by omega)]
  simp only [entryPtr, heq]

/-! ## The entries the manager writes -/

@[simp] theorem getLsbD_tableFlagsFromLeaf (flags : BitVec 64) (i : ℕ) :
    (tableFlagsFromLeaf flags).getLsbD i =
      (decide (i = 1) && writable flags || decide (i = 2) && userAccess flags) := by
  unfold tableFlagsFromLeaf
  simp only [and_rw_ne_zero, and_us_ne_zero]
  cases writable flags <;> cases userAccess flags <;> simp

theorem writable_tableFlagsFromLeaf (flags : BitVec 64) :
    writable (tableFlagsFromLeaf flags) = writable flags := by
  simp [-getLsbD_eq_getElem, writable]

theorem userAccess_tableFlagsFromLeaf (flags : BitVec 64) :
    userAccess (tableFlagsFromLeaf flags) = userAccess flags := by
  simp [-getLsbD_eq_getElem, userAccess]

/-- Flags that only ask for access rights. -/
def OnlyRights (flags : BitVec 64) : Prop := ∀ i, flags.getLsbD i = true → i = 1 ∨ i = 2

theorem onlyRights_tableFlagsFromLeaf (flags : BitVec 64) :
    OnlyRights (tableFlagsFromLeaf flags) := by
  intro i hi
  rw [getLsbD_tableFlagsFromLeaf] at hi
  simp only [Bool.or_eq_true, Bool.and_eq_true, decide_eq_true_eq] at hi
  tauto

/-- An entry with its rights widened to those of `flags`. -/
def widen (e flags : BitVec 64) : BitVec 64 := e ||| (flags &&& (pageFlagRw ||| pageFlagUs))

theorem getLsbD_widen (e flags : BitVec 64) (i : ℕ) :
    (widen e flags).getLsbD i =
      (e.getLsbD i || flags.getLsbD i && (decide (i = 1) || decide (i = 2))) := by
  simp [widen]

theorem widen_of_and_eq {e flags : BitVec 64}
    (h : e &&& (flags &&& (pageFlagRw ||| pageFlagUs)) = flags &&& (pageFlagRw ||| pageFlagUs)) :
    widen e flags = e := by
  rw [widen, ← h]
  apply eq_of_getLsbD_eq
  intro i hi
  simp only [getLsbD_or, getLsbD_and]
  cases e.getLsbD i <;> simp

theorem present_widen (e flags : BitVec 64) : present (widen e flags) = present e := by
  simp [-getLsbD_eq_getElem, present, getLsbD_widen]

theorem large_widen (e flags : BitVec 64) : large (widen e flags) = large e := by
  simp [-getLsbD_eq_getElem, large, getLsbD_widen]

theorem entryPtr_widen (e flags : BitVec 64) : entryPtr (widen e flags) = entryPtr e := by
  apply entryPtr_congr
  intro i hi
  have h1 : i ≠ 1 := by omega
  have h2 : i ≠ 2 := by omega
  simp [getLsbD_widen, h1, h2]

theorem widen_grants_entry (e flags : BitVec 64) : Grants (widen e flags) e := by
  constructor <;> intro h <;>
    simp_all [-getLsbD_eq_getElem, writable, userAccess, getLsbD_widen]

theorem widen_grants_flags (e flags : BitVec 64) : Grants (widen e flags) flags := by
  constructor <;> intro h <;>
    simp_all [-getLsbD_eq_getElem, writable, userAccess, getLsbD_widen]

theorem grants_widen {e f flags : BitVec 64} (h : Grants e f) (h' : Grants e flags) :
    Grants e (widen f flags) := by
  simp only [Grants, writable, userAccess, getLsbD_widen] at *
  simp only [Bool.or_eq_true, Bool.and_eq_true]
  tauto

def linkEntry (n : ℕ) (flags : BitVec 64) : BitVec 64 :=
  BitVec.ofNat 64 n ||| flags ||| pageFlagPresent

section

variable {n : ℕ} {flags : BitVec 64}

theorem present_linkEntry (n : ℕ) (flags : BitVec 64) : present (linkEntry n flags) = true := by
  simp [-getLsbD_eq_getElem, present, linkEntry]

theorem getLsbD_ofNat_page (hn : n % 4096 = 0) {i : ℕ} (hi : i < 12) :
    (BitVec.ofNat 64 n).getLsbD i = false := by
  have hmul : n = n / 2 ^ 12 * 2 ^ 12 := by omega
  rw [getLsbD_ofNat, hmul, Nat.testBit_mul_two_pow]
  simp [Nat.not_le.mpr hi]

theorem large_linkEntry (hn : n % 4096 = 0) (hflags : OnlyRights flags) :
    large (linkEntry n flags) = false := by
  have h7 : flags.getLsbD 7 = false := by
    by_contra h
    rcases hflags 7 (by simpa using h) with h | h <;> cases h
  rw [large, linkEntry, getLsbD_or, getLsbD_or, getLsbD_ofNat_page hn (by decide), h7]
  simp [-getLsbD_eq_getElem]

theorem entryPtr_linkEntry (hn : n % 4096 = 0) (hlt : n < 2 ^ 64) (hflags : OnlyRights flags) :
    entryPtr (linkEntry n flags) = n := by
  have hbits : entryPtr (linkEntry n flags) = entryPtr (BitVec.ofNat 64 n) := by
    apply entryPtr_congr
    intro i hi
    have hf : flags.getLsbD i = false := by
      by_contra h
      rcases hflags i (by simpa using h) with h | h <;> omega
    have h0 : i ≠ 0 := by omega
    simp [linkEntry, hf, h0]
  rw [hbits, entryPtr_eq, toNat_ofNat, Nat.mod_eq_of_lt hlt]
  omega

theorem linkEntry_grants (n : ℕ) (flags : BitVec 64) : Grants (linkEntry n flags) flags := by
  constructor <;> intro h <;> simp_all [-getLsbD_eq_getElem, writable, userAccess, linkEntry]

theorem grants_linkEntry {e : BitVec 64} (hn : n % 4096 = 0) (h : Grants e flags) :
    Grants e (linkEntry n flags) := by
  have h1 : writable (linkEntry n flags) = writable flags := by
    rw [writable, linkEntry, getLsbD_or, getLsbD_or, getLsbD_ofNat_page hn (by decide)]
    simp [-getLsbD_eq_getElem, writable]
  have h2 : userAccess (linkEntry n flags) = userAccess flags := by
    rw [userAccess, linkEntry, getLsbD_or, getLsbD_or, getLsbD_ofNat_page hn (by decide)]
    simp [-getLsbD_eq_getElem, userAccess]
  rwa [Grants, h1, h2]

end

/-! ## Leaves -/

/-- An entry for the page of `2 ^ n` bytes at `phys`, with the rights of `flags`. -/
structure LeafFor (n : ℕ) (phys flags e : BitVec 64) : Prop where
  present_eq : present e = true
  writable_eq : writable e = writable flags
  userAccess_eq : userAccess e = userAccess flags
  high : ∀ i, n ≤ i → e.getLsbD i = phys.getLsbD i

theorem LeafFor.grants {n : ℕ} {phys flags e : BitVec 64} (h : LeafFor n phys flags e) :
    Grants flags e :=
  ⟨by simp [h.writable_eq], by simp [h.userAccess_eq]⟩

theorem leafFor_pageLeaf (phys flags : BitVec 64) :
    LeafFor 12 phys flags (Vmm.pageLeaf phys flags) := by
  refine ⟨by simp [-getLsbD_eq_getElem, present, Vmm.pageLeaf],
    by simp [-getLsbD_eq_getElem, writable, Vmm.pageLeaf],
    by simp [-getLsbD_eq_getElem, userAccess, Vmm.pageLeaf], fun i hi => ?_⟩
  have h0 : i ≠ 0 := by omega
  have hlow : ¬ i < 12 := by omega
  by_cases hbig : i < 64
  · simp [-getLsbD_eq_getElem, Vmm.pageLeaf, h0, hlow, hbig]
  · rw [getLsbD_of_ge _ _ (by omega), getLsbD_of_ge _ _ (by omega)]

theorem leafFor_largeLeaf (phys flags : BitVec 64) :
    LeafFor 21 phys flags (Vmm.largeLeaf phys flags) := by
  refine ⟨by simp [-getLsbD_eq_getElem, present, Vmm.largeLeaf],
    by simp [-getLsbD_eq_getElem, writable, Vmm.largeLeaf],
    by simp [-getLsbD_eq_getElem, userAccess, Vmm.largeLeaf], fun i hi => ?_⟩
  have h0 : i ≠ 0 := by omega
  have h7 : i ≠ 7 := by omega
  have hlow : ¬ i < 12 := by omega
  have hlow' : ¬ i < 21 := by omega
  by_cases hbig : i < 64
  · simp [-getLsbD_eq_getElem, Vmm.largeLeaf, h0, h7, hlow, hlow', hbig]
  · rw [getLsbD_of_ge _ _ (by omega), getLsbD_of_ge _ _ (by omega)]

theorem large_largeLeaf (phys flags : BitVec 64) : large (Vmm.largeLeaf phys flags) = true := by
  simp [-getLsbD_eq_getElem, large, Vmm.largeLeaf]

end NeverMind
