import NeverMind.Model.PmmHost
import NeverMind.Library.Run
import NeverMind.Verification.Pmm.MemoryMap
import NeverMind.Verification.Pmm.Search
import Mathlib.Algebra.BigOperators.Group.Finset.Piecewise
import Mathlib.Algebra.Order.BigOperators.Group.Finset

/-! # The host-test double beside the kernel allocator

Both builds run the same calls side by side. An allocation that succeeds in both moves the
counters of both alike. A free returns one frame in the kernel, and in the double all pages of the
allocation that is recorded under the key. -/

namespace NeverMind

open Pmm Finset Option Function

/-! ## The counters of the double -/

namespace HostPmm

def held (p : HostPmm) (i : ℕ) : ℕ := if (p.hostAllocs i).used then (p.hostAllocs i).pages else 0

/-- The counters add up, cover what the table holds, and an entry in use holds a page. -/
structure Sound (p : HostPmm) : Prop where
  total_eq : p.mmStats.freeFrames + p.mmStats.usedFrames = p.mmStats.totalFrames
  total_lt : p.mmStats.totalFrames < 2 ^ 64
  held_le : ∑ i ∈ range hostMaxAllocs, p.held i ≤ p.mmStats.usedFrames
  pages_pos : ∀ i < hostMaxAllocs, (p.hostAllocs i).used = true → 0 < (p.hostAllocs i).pages

theorem foldl_total_lt (ranges : List MemRange) (total : ℕ) (h : total < 2 ^ 64) :
    ranges.foldl (fun total r => if r.type = nmMemAvailable then
      u64 (total + r.length / pageSize) else total) total < 2 ^ 64 := by
  induction ranges generalizing total with
  | nil => exact h
  | cons r ranges ih =>
    rw [List.foldl_cons]
    apply ih
    split
    · exact Nat.mod_lt _ (by decide)
    · exact h

theorem pmmInitFromRanges_sound (ranges : List MemRange) (p : HostPmm) :
    Sound (p.pmmInitFromRanges ranges) := by
  have hunused : ∀ i < hostMaxAllocs,
      (p.pmmInitFromRanges ranges).hostAllocs i = ⟨0, 0, false⟩ := fun i hi => if_pos hi
  refine ⟨?_, foldl_total_lt ranges 0 (by decide), ?_, ?_⟩
  · simp only [pmmInitFromRanges]
    split <;> omega
  · rw [sum_eq_zero]
    · exact Nat.zero_le _
    · intro i hi
      simp [held, hunused i (mem_range.mp hi)]
  · intro i hi hused
    simp [hunused i hi] at hused

section

variable {p : HostPmm}

theorem entryOf_some {key i : ℕ} (h : p.entryOf key = some i) :
    i < hostMaxAllocs ∧ (p.hostAllocs i).used = true := by
  have hmem := List.mem_of_find?_eq_some h
  have hp := List.find?_some h
  simp only [Bool.and_eq_true] at hp
  exact ⟨List.mem_range.mp hmem, hp.1⟩

theorem unusedEntry_some {i : ℕ} (h : p.unusedEntry = some i) :
    i < hostMaxAllocs ∧ (p.hostAllocs i).used = false := by
  have hmem := List.mem_of_find?_eq_some h
  have hp := List.find?_some h
  exact ⟨List.mem_range.mp hmem, by simpa using hp⟩

/-- Rewriting entry `i` replaces its share of the pages held. -/
theorem sum_held_update {q : HostPmm} {i : ℕ} {e : HostAllocEntry} (hi : i < hostMaxAllocs)
    (hq : q.hostAllocs = update p.hostAllocs i e) :
    ∑ j ∈ range hostMaxAllocs, q.held j + p.held i =
      ∑ j ∈ range hostMaxAllocs, p.held j + if e.used then e.pages else 0 := by
  have hmem := mem_range.mpr hi
  have hheld : q.held = update p.held i (if e.used then e.pages else 0) := by
    funext j
    by_cases hj : j = i
    · subst hj
      simp [held, hq]
    · simp [held, hq, hj]
  rw [hheld, sum_update_of_mem hmem, ← sum_erase_add _ _ hmem, sdiff_singleton_eq_erase]
  omega

theorem Sound.of_update (h : Sound p) {q : HostPmm} {i : ℕ} {e : HostAllocEntry}
    (hi : i < hostMaxAllocs) (hq : q.hostAllocs = update p.hostAllocs i e)
    (htotal : q.mmStats.totalFrames = p.mmStats.totalFrames)
    (hfree : q.mmStats.freeFrames + q.mmStats.usedFrames = p.mmStats.totalFrames)
    (hused : q.mmStats.usedFrames + p.held i = p.mmStats.usedFrames + if e.used then e.pages else 0)
    (hpos : e.used = true → 0 < e.pages) : Sound q := by
  have hsum := sum_held_update hi hq
  have hheld := h.held_le
  refine ⟨by omega, htotal ▸ h.total_lt, by omega, ?_⟩
  intro j hj hjused
  by_cases hji : j = i
  · subst hji
    simp only [hq, update_self] at hjused ⊢
    exact hpos hjused
  · simp only [hq, update_of_ne hji] at hjused ⊢
    exact h.pages_pos j hj hjused

theorem Sound.held_le_used (h : Sound p) {i : ℕ} (hi : i < hostMaxAllocs) :
    p.held i ≤ p.mmStats.usedFrames :=
  (single_le_sum (fun _ _ => Nat.zero_le _) (mem_range.mpr hi)).trans h.held_le

/-- An allocation that returns a key has entered it in an unused entry. -/
theorem pmmAllocPages_inv {ok : Bool} {count : ℕ} (hkey : (p.pmmAllocPages ok count).1 ≠ 0) :
    ∃ i key, i < hostMaxAllocs ∧ (p.hostAllocs i).used = false ∧ 0 < count ∧
      count ≤ p.mmStats.freeFrames ∧
      (p.pmmAllocPages ok count).2.mmStats = countTaken count p.mmStats ∧
      (p.pmmAllocPages ok count).2.hostAllocs =
        update p.hostAllocs i ⟨key, count, true⟩ := by
  by_cases hbad : count = 0 ∨ p.mmStats.freeFrames < count
  · simp [HostPmm.pmmAllocPages, hbad] at hkey
  · cases hentry : p.unusedEntry with
    | none => simp [HostPmm.pmmAllocPages, hbad, hentry] at hkey
    | some i =>
      cases ok with
      | false => simp [HostPmm.pmmAllocPages, hbad, hentry] at hkey
      | true =>
        obtain ⟨hi, hunused⟩ := unusedEntry_some hentry
        refine ⟨i, p.hostMakeKey.1, hi, hunused, by omega, by omega, ?_, ?_⟩ <;>
          simp [HostPmm.pmmAllocPages, hbad, hentry, hostMakeKey]

theorem Sound.pmmAllocPages (h : Sound p) {ok : Bool} {count : ℕ}
    (hkey : (p.pmmAllocPages ok count).1 ≠ 0) :
    Sound (p.pmmAllocPages ok count).2 ∧
      (p.pmmAllocPages ok count).2.mmStats.freeFrames + count = p.mmStats.freeFrames ∧
      (p.pmmAllocPages ok count).2.mmStats.usedFrames = p.mmStats.usedFrames + count := by
  obtain ⟨i, key, hi, hunused, hpos, hle, hstats, hallocs⟩ := pmmAllocPages_inv hkey
  have htotal := h.total_eq
  have hlt := h.total_lt
  have hfree : (p.pmmAllocPages ok count).2.mmStats.freeFrames = p.mmStats.freeFrames - count := by
    rw [hstats]
    exact u64Sub_of_le hle (by omega)
  have hused : (p.pmmAllocPages ok count).2.mmStats.usedFrames = p.mmStats.usedFrames + count := by
    rw [hstats]
    exact u64_of_lt (by omega)
  have hzero : p.held i = 0 := by simp [held, hunused]
  refine ⟨h.of_update hi hallocs (by rw [hstats]; rfl) (by omega) ?_ fun _ => hpos, by omega, hused⟩
  rw [hused, hzero]
  rfl

theorem Sound.pmmFreePage (h : Sound p) {key : ℕ} (hkey : key ≠ 0) :
    Sound (p.pmmFreePage key) ∧
      (p.pmmFreePage key).mmStats.freeFrames = p.mmStats.freeFrames + (p.pagesOf key).getD 0 ∧
      (p.pmmFreePage key).mmStats.usedFrames + (p.pagesOf key).getD 0 = p.mmStats.usedFrames := by
  have htotal := h.total_eq
  have hlt := h.total_lt
  unfold HostPmm.pmmFreePage pagesOf
  rw [if_neg hkey]
  cases hentry : p.entryOf key with
  | none => exact ⟨h, rfl, rfl⟩
  | some i =>
    obtain ⟨hi, hin⟩ := entryOf_some hentry
    have hshare : p.held i = (p.hostAllocs i).pages := by simp [held, hin]
    have hle := h.held_le_used hi
    have hfree : (countReturned (p.hostAllocs i).pages p.mmStats).freeFrames =
        p.mmStats.freeFrames + (p.hostAllocs i).pages := u64_of_lt (by omega)
    have hused : (countReturned (p.hostAllocs i).pages p.mmStats).usedFrames =
        p.mmStats.usedFrames - (p.hostAllocs i).pages := u64Sub_of_le (by omega) (by omega)
    simp only [map_some, getD_some]
    refine ⟨h.of_update hi rfl rfl ?_ ?_ (fun hno => Bool.noConfusion hno), hfree, by omega⟩
    · simp only [hfree, hused]
      omega
    · simp only [hused, Bool.false_eq_true, if_false]
      omega

theorem Sound.pagesOf_pos (h : Sound p) {key n : ℕ} (hn : p.pagesOf key = some n) : 0 < n := by
  obtain ⟨i, hi, rfl⟩ := map_eq_some_iff.mp hn
  obtain ⟨hlt, hused⟩ := entryOf_some hi
  exact h.pages_pos i hlt hused

end

end HostPmm

/-! ## Both builds side by side -/

/-- The two allocators, and the values their successful allocations returned: the address from
the kernel build and the key from the host build. -/
structure Twins where
  kernel : Pmm
  host : HostPmm
  returned : List (ℕ × ℕ)

/-- A call made in both builds; a page is freed by the position of its allocation. -/
inductive TwinCall where
  | allocPages (count : ℕ) (callocOk : Bool)
  | freePage (j : ℕ)
  deriving Repr, DecidableEq

def TwinCall.run : TwinCall → Twins → Twins
  | allocPages count callocOk, t =>
    let a := t.kernel.pmmAllocPages count
    let b := t.host.pmmAllocPages callocOk count
    ⟨a.2, b.2, t.returned ++ [(a.1, b.1)]⟩
  | freePage j, t =>
    let value := t.returned.getD j (0, 0)
    { t with
      kernel := t.kernel.pmmFreePage value.1
      host := t.host.pmmFreePage value.2 }

/-- Allocations succeed in both builds, and only values returned earlier are freed. -/
def TwinCall.Corresponds : TwinCall → Twins → Prop
  | allocPages count callocOk, t =>
    (t.kernel.pmmAllocPages count).1 ≠ 0 ∧ (t.host.pmmAllocPages callocOk count).1 ≠ 0
  | freePage j, t => j < t.returned.length

def change (before after : ℕ) : ℤ := after - before

/-- The call changes `free_frames` and `used_frames` by the same amount in both builds. -/
def TwinCall.Agrees (c : TwinCall) (t : Twins) : Prop :=
  change t.kernel.mmStats.freeFrames (c.run t).kernel.mmStats.freeFrames =
      change t.host.mmStats.freeFrames (c.run t).host.mmStats.freeFrames ∧
    change t.kernel.mmStats.usedFrames (c.run t).kernel.mmStats.usedFrames =
      change t.host.mmStats.usedFrames (c.run t).host.mmStats.usedFrames

/-- A page is freed while its frame is in use and its key stands for one page, or while its frame
is free and its key stands for nothing. -/
def TwinCall.FreesOnePage : TwinCall → Twins → Prop
  | allocPages _ _, _ => True
  | freePage j, t =>
    let value := t.returned.getD j (0, 0)
    t.host.pagesOf value.2 = if t.kernel.testFrame (value.1 / pageSize) then some 1 else none

/-- Both builds are sound, and what was returned can be freed. -/
structure Twins.Sound (t : Twins) : Prop where
  kernel : t.kernel.Sound
  host : t.host.Sound
  returned : ∀ value ∈ t.returned, t.kernel.Freeable value.1 ∧ value.2 ≠ 0

section

variable {t : Twins}

theorem Pmm.Sound.freePage_counters {p : Pmm} (h : p.Sound) {a : ℕ} (ha : p.Freeable a) :
    (p.pmmFreePage a).mmStats.freeFrames =
        p.mmStats.freeFrames + (if p.testFrame (a / pageSize) then 1 else 0) ∧
      (p.pmmFreePage a).mmStats.usedFrames + (if p.testFrame (a / pageSize) then 1 else 0) =
        p.mmStats.usedFrames := by
  have hfrees := pmmFreePage_frees h.toAccounting a
  rw [if_pos ha] at hfrees
  have hacc := hfrees.accounting
  have hle := card_free_le p
  rw [hacc.free_eq, hacc.used_eq, hfrees.free_eq, hfrees.limit_eq, h.free_eq, h.used_eq]
  by_cases hmem : a / pageSize ∈ p.free
  · rw [testFrame_eq_false.mpr hmem, insert_eq_of_mem hmem]
    exact ⟨rfl, rfl⟩
  · have hlt := card_free_lt ha.2.2 hmem
    rw [testFrame_eq_true.mpr hmem, card_insert_of_notMem hmem]
    exact ⟨rfl, by simp only [if_true]; omega⟩

theorem Pmm.Sound.freeable_of_allocated {p : Pmm} (h : p.Sound) {count : ℕ}
    (hne : (p.pmmAllocPages count).1 ≠ 0) :
    (p.pmmAllocPages count).2.Freeable (p.pmmAllocPages count).1 ∧
      (p.pmmAllocPages count).2.frameLimit = p.frameLimit := by
  rcases pmmAllocPages_spec h.toAccounting count with ⟨f, hpos, hsub, haddr, hfrees⟩ | ⟨heq, -⟩
  · have hf := lt_limit_of_mem_free (hsub (mem_Ico.mpr ⟨le_rfl, by omega⟩))
    refine ⟨⟨hne, ?_, ?_⟩, hfrees.limit_eq⟩
    · rw [haddr]
      exact Nat.mul_mod_left f pageSize
    · rw [haddr, hfrees.limit_eq, Nat.mul_div_cancel _ (by decide)]
      exact hf
  · exact absurd (congrArg Prod.fst heq) hne

theorem Twins.Sound.getD (h : t.Sound) {j : ℕ} (hj : j < t.returned.length) :
    t.kernel.Freeable (t.returned.getD j (0, 0)).1 ∧ (t.returned.getD j (0, 0)).2 ≠ 0 := by
  rw [List.getD_eq_getElem?_getD, List.getElem?_eq_getElem hj]
  exact h.returned _ (List.getElem_mem hj)

theorem Twins.Sound.run {c : TwinCall} (h : t.Sound) (hc : c.Corresponds t) : (c.run t).Sound := by
  cases c with
  | allocPages count ok =>
    obtain ⟨hnew, hlimit⟩ := h.kernel.freeable_of_allocated hc.1
    refine ⟨h.kernel.pmmAllocPages count, (h.host.pmmAllocPages hc.2).1, ?_⟩
    simp only [TwinCall.run, List.forall_mem_append, List.forall_mem_singleton]
    refine ⟨fun value hmem => ?_, hnew, hc.2⟩
    obtain ⟨⟨hne, hmod, hlt⟩, hkey⟩ := h.returned value hmem
    exact ⟨⟨hne, hmod, hlimit ▸ hlt⟩, hkey⟩
  | freePage j =>
    obtain ⟨-, hkey⟩ := h.getD hc
    have hlimit := (pmmFreePage_frees h.kernel.toAccounting (t.returned.getD j (0, 0)).1).limit_eq
    refine ⟨h.kernel.pmmFreePage _, (h.host.pmmFreePage hkey).1, fun value hmem => ?_⟩
    obtain ⟨⟨hne, hmod, hlt⟩, hkey'⟩ := h.returned value hmem
    exact ⟨⟨hne, hmod, hlimit.symm ▸ hlt⟩, hkey'⟩

theorem Twins.Sound.agrees_alloc (h : t.Sound) {count : ℕ} {ok : Bool}
    (hc : (TwinCall.allocPages count ok).Corresponds t) :
    (TwinCall.allocPages count ok).Agrees t := by
  obtain ⟨f, -, -, -, hfree, hused⟩ := (h.kernel.completeSearch_pmmAllocPages count).taken hc.1
  obtain ⟨-, hfree', hused'⟩ := h.host.pmmAllocPages hc.2
  simp only [TwinCall.Agrees, TwinCall.run, change]
  omega

/-- A free moves the counters alike exactly if it frees one page in both builds or none. -/
theorem Twins.Sound.agrees_free_iff (h : t.Sound) {j : ℕ} (hj : j < t.returned.length) :
    (TwinCall.freePage j).Agrees t ↔ (TwinCall.freePage j).FreesOnePage t := by
  obtain ⟨ha, hkey⟩ := h.getD hj
  obtain ⟨hfree, hused⟩ := h.kernel.freePage_counters ha
  obtain ⟨-, hfree', hused'⟩ := h.host.pmmFreePage hkey
  simp only [TwinCall.Agrees, TwinCall.FreesOnePage, TwinCall.run, change]
  generalize t.returned.getD j (0, 0) = value at *
  cases hpages : t.host.pagesOf value.2 with
  | none =>
    rw [hpages, getD_none] at hfree' hused'
    cases hbit : t.kernel.testFrame (value.1 / pageSize) with
    | false =>
      simp only [hbit, Bool.false_eq_true, if_false] at hfree hused ⊢
      exact iff_of_true (by omega) trivial
    | true =>
      simp only [hbit, if_true] at hfree hused ⊢
      exact iff_of_false (by omega) (by simp)
  | some n =>
    have hn := h.host.pagesOf_pos hpages
    rw [hpages, getD_some] at hfree' hused'
    cases hbit : t.kernel.testFrame (value.1 / pageSize) with
    | false =>
      simp only [hbit, Bool.false_eq_true, if_false] at hfree hused ⊢
      exact iff_of_false (by omega) (by simp)
    | true =>
      simp only [hbit, if_true, some.injEq] at hfree hused ⊢
      omega

theorem Twins.Sound.agrees_iff {c : TwinCall} (h : t.Sound) (hc : c.Corresponds t) :
    c.Agrees t ↔ c.FreesOnePage t := by
  cases c with
  | allocPages count ok => exact iff_of_true (h.agrees_alloc hc) trivial
  | freePage j => exact h.agrees_free_iff hc

end

def twinsStart (p : Pmm) (h₀ : HostPmm) (ranges : List MemRange) : Twins :=
  ⟨p, h₀.pmmInitFromRanges ranges, []⟩

@[simp] theorem twinsStart_kernel (p : Pmm) (h₀ : HostPmm) (ranges : List MemRange) :
    (twinsStart p h₀ ranges).kernel = p := rfl

@[simp] theorem twinsStart_returned (p : Pmm) (h₀ : HostPmm) (ranges : List MemRange) :
    (twinsStart p h₀ ranges).returned = [] := rfl

theorem twinsStart_sound {k : KernelImage} {p₀ p : Pmm} {input : BootInput}
    (hboot : input.boot k p₀ = some p) (h₀ : HostPmm) (ranges : List MemRange) :
    (twinsStart p h₀ ranges).Sound :=
  ⟨BootInput.boot_sound hboot, HostPmm.pmmInitFromRanges_sound ranges h₀, by simp [twinsStart]⟩

/-- Along every run of corresponding calls, all calls change the counters alike exactly if every
free is made while the frame is in use and the key stands for one page, or while the frame is
free and the key stands for nothing. -/
theorem twins_agree_iff (k : KernelImage) (p₀ p : Pmm) (input : BootInput)
    (hboot : input.boot k p₀ = some p) (h₀ : HostPmm) (ranges : List MemRange)
    (calls : List TwinCall)
    (hcalls : EachStep TwinCall.run TwinCall.Corresponds calls (twinsStart p h₀ ranges)) :
    EachStep TwinCall.run TwinCall.Agrees calls (twinsStart p h₀ ranges) ↔
      EachStep TwinCall.run TwinCall.FreesOnePage calls (twinsStart p h₀ ranges) := by
  have hstart := twinsStart_sound hboot h₀ ranges
  constructor
  · intro hagree
    exact (hcalls.and hagree).eachStep (fun _ _ hc hs => hs.run hc.1)
      (fun _ _ hc hs => (hs.agrees_iff hc.1).mp hc.2) hstart
  · intro hone
    exact (hcalls.and hone).eachStep (fun _ _ hc hs => hs.run hc.1)
      (fun _ _ hc hs => (hs.agrees_iff hc.1).mpr hc.2) hstart

/-! ## The first allocation of a run -/

section

variable {h₀ : HostPmm} {ranges : List MemRange} {count : ℕ}

theorem HostPmm.unusedEntry_init (h₀ : HostPmm) (ranges : List MemRange) :
    (h₀.pmmInitFromRanges ranges).unusedEntry = some 0 := by
  rw [HostPmm.unusedEntry, List.find?_range_eq_some]
  exact ⟨rfl, by simp [hostMaxAllocs], by simp⟩

theorem HostPmm.pagesOf_of_first {q : HostPmm} {key : ℕ}
    (h : q.hostAllocs 0 = ⟨key, count, true⟩) : q.pagesOf key = some count := by
  have hentry : q.entryOf key = some 0 := by
    rw [entryOf, List.find?_range_eq_some]
    exact ⟨by simp [h], by simp [hostMaxAllocs], by simp⟩
  rw [pagesOf, hentry, map_some, h]

theorem HostPmm.first_alloc (hpos : 0 < count)
    (hle : count ≤ (h₀.pmmInitFromRanges ranges).mmStats.freeFrames) :
    ((h₀.pmmInitFromRanges ranges).pmmAllocPages true count).1 = 0x2001 ∧
      ((h₀.pmmInitFromRanges ranges).pmmAllocPages true count).2.pagesOf 0x2001 = some count := by
  have hgood : ¬ (count = 0 ∨ (h₀.pmmInitFromRanges ranges).mmStats.freeFrames < count) := by omega
  have hkey : (h₀.pmmInitFromRanges ranges).hostMakeKey.1 = 0x2001 := by
    simp only [hostMakeKey, pmmInitFromRanges]
    decide
  simp only [pmmAllocPages, if_neg hgood, unusedEntry_init, if_true, hkey, true_and]
  exact pagesOf_of_first (by simp)

theorem Pmm.Sound.testFrame_allocated {p : Pmm} (h : p.Sound)
    (hne : (p.pmmAllocPages count).1 ≠ 0) :
    (p.pmmAllocPages count).2.testFrame ((p.pmmAllocPages count).1 / pageSize) = true := by
  rw [testFrame_eq_true]
  rcases pmmAllocPages_spec h.toAccounting count with ⟨f, hpos, hsub, haddr, hfrees⟩ | ⟨heq, -⟩
  · rw [hfrees.free_eq, haddr, Nat.mul_div_cancel _ (by decide)]
    simp [hpos]
  · exact absurd (congrArg Prod.fst heq) hne

variable {t : Twins}

theorem corresponds_first (hret : t.returned = [])
    (hcorr : (TwinCall.allocPages count true).Corresponds t) :
    EachStep TwinCall.run TwinCall.Corresponds [.allocPages count true, .freePage 0] t :=
  ⟨hcorr, by simp [TwinCall.Corresponds, TwinCall.run, hret], trivial⟩

theorem getD_first (hret : t.returned = []) :
    ((TwinCall.allocPages count true).run t).returned.getD 0 (0, 0) =
      ((t.kernel.pmmAllocPages count).1, (t.host.pmmAllocPages true count).1) := by
  simp [TwinCall.run, hret]

theorem Twins.Sound.freesOnePage_first (h : t.Sound) (hret : t.returned = [])
    (hcorr : (TwinCall.allocPages 1 true).Corresponds t)
    (hpages : (t.host.pmmAllocPages true 1).2.pagesOf (t.host.pmmAllocPages true 1).1 = some 1) :
    (TwinCall.freePage 0).FreesOnePage ((TwinCall.allocPages 1 true).run t) := by
  simp only [TwinCall.FreesOnePage, getD_first hret]
  simp only [TwinCall.run, hpages, h.kernel.testFrame_allocated hcorr.1, if_true]

/-- Freeing the first allocation returns one frame in the kernel and all its pages in the
double. -/
theorem Twins.Sound.change_first (h : t.Sound) (hret : t.returned = [])
    (hcorr : (TwinCall.allocPages count true).Corresponds t)
    (hpages : (t.host.pmmAllocPages true count).2.pagesOf (t.host.pmmAllocPages true count).1 =
      some count) :
    change ((TwinCall.allocPages count true).run t).kernel.mmStats.freeFrames
        (runCalls TwinCall.run [.allocPages count true, .freePage 0] t).kernel.mmStats.freeFrames =
          1 ∧
      change ((TwinCall.allocPages count true).run t).host.mmStats.freeFrames
        (runCalls TwinCall.run [.allocPages count true, .freePage 0] t).host.mmStats.freeFrames =
          count := by
  have hkernel := ((h.kernel.pmmAllocPages count).freePage_counters
    (h.kernel.freeable_of_allocated hcorr.1).1).1
  have hhost := ((h.host.pmmAllocPages hcorr.2).1.pmmFreePage hcorr.2).2.1
  rw [h.kernel.testFrame_allocated hcorr.1, if_pos rfl] at hkernel
  rw [hpages, getD_some] at hhost
  simp only [runCalls_cons, runCalls_nil, TwinCall.run, hret, List.nil_append, List.getD_cons_zero,
    hkernel, hhost, change]
  omega

end

def fourMiBRanges : List MemRange := [⟨0, 0x400000, nmMemAvailable⟩]

theorem mem_free_fourMiB {f : ℕ} (hlow : 0x200 ≤ f) (hhigh : f < 0x400) :
    f ∈ (Pmm.zeroed.pmmInitFromRanges .atOneMiB fourMiBRanges).free := by
  have hb := pmmInitFromRanges_booted .atOneMiB fourMiBRanges Pmm.zeroed
  have hlimit := hb.limit_eq.trans (by decide : _ = 0x400)
  have hbase := hb.base_eq.trans (by decide : _ = 0x180000)
  have hbytes := hb.bytes_eq.trans (congrArg bitmapBytesFor hlimit)
  refine (hb.mem_free_iff _).mpr ⟨hlimit ▸ hhigh, ?_, ?_, by simp⟩
  · rw [freed_rangeEvent]
    refine ⟨_, List.mem_singleton_self _, rfl, (mem_innerFrames (by decide)).mpr ⟨?_, ?_⟩⟩
    · exact Nat.zero_le _
    · simp only [pageSize]
      omega
  · have himage : KernelImage.atOneMiB.start = 0x100000 ∧ KernelImage.atOneMiB.stop = 0x180000 := by
      decide
    have hsize : bitmapBytesFor 0x400 = 128 := by decide
    rw [hb.mem_kernelFrames (by decide), KernelReserved, hbase, hbytes, himage.1, himage.2, hsize,
      frameOverlaps_iff (by decide), frameOverlaps_iff (by decide), frameOverlaps_iff (by decide)]
    simp only [pageSize]
    omega

def fourMiBTwins : Twins :=
  twinsStart (Pmm.zeroed.pmmInitFromRanges .atOneMiB fourMiBRanges) HostPmm.zeroed fourMiBRanges

theorem fourMiBTwins_sound : fourMiBTwins.Sound := by
  have hboot : (BootInput.ranges fourMiBRanges).boot .atOneMiB Pmm.zeroed =
      some (Pmm.zeroed.pmmInitFromRanges .atOneMiB fourMiBRanges) := rfl
  exact twinsStart_sound hboot _ _

theorem fourMiBTwins_alloc {count : ℕ} (hpos : 0 < count) (hle : count ≤ 2) :
    (TwinCall.allocPages count true).Corresponds fourMiBTwins ∧
      (fourMiBTwins.host.pmmAllocPages true count).2.pagesOf
        (fourMiBTwins.host.pmmAllocPages true count).1 = some count := by
  have hfree : fourMiBTwins.host.mmStats.freeFrames = 768 := by decide
  have hhost : (fourMiBTwins.host.pmmAllocPages true count).1 = 0x2001 ∧
      (fourMiBTwins.host.pmmAllocPages true count).2.pagesOf 0x2001 = some count :=
    HostPmm.first_alloc hpos (show count ≤ fourMiBTwins.host.mmStats.freeFrames by omega)
  refine ⟨⟨?_, by rw [hhost.1]; decide⟩, by rw [hhost.1]; exact hhost.2⟩
  have hrun : fourMiBTwins.kernel.FreeRun count 0x200 := by
    rw [freeRun_iff hpos, fourMiBTwins, twinsStart_kernel]
    intro f hf
    rw [mem_Ico] at hf
    exact mem_free_fourMiB hf.1 (by omega)
  exact (fourMiBTwins_sound.kernel.completeSearch_pmmAllocPages count).found_iff.mpr
    ⟨hpos, 0x200, hrun⟩

/-- One page, freed while it is live: both builds agree. -/
theorem twins_agree_onePage :
    EachStep TwinCall.run TwinCall.Agrees [.allocPages 1 true, .freePage 0] fourMiBTwins := by
  obtain ⟨hcorr, hpages⟩ := fourMiBTwins_alloc Nat.one_pos (by decide)
  have hret : fourMiBTwins.returned = [] := twinsStart_returned _ _ _
  have hone := fourMiBTwins_sound.freesOnePage_first hret hcorr hpages
  exact (twins_agree_iff .atOneMiB Pmm.zeroed _ (.ranges fourMiBRanges) rfl HostPmm.zeroed
    fourMiBRanges _ (corresponds_first hret hcorr)).mpr ⟨trivial, hone, trivial⟩

/-- Two pages, freed once: one frame comes back in the kernel, both pages in the double. -/
theorem two_pages_freed_in_double :
    EachStep TwinCall.run TwinCall.Corresponds [.allocPages 2 true, .freePage 0] fourMiBTwins ∧
      change ((TwinCall.allocPages 2 true).run fourMiBTwins).kernel.mmStats.freeFrames
        (runCalls TwinCall.run [.allocPages 2 true, .freePage 0]
          fourMiBTwins).kernel.mmStats.freeFrames = 1 ∧
      change ((TwinCall.allocPages 2 true).run fourMiBTwins).host.mmStats.freeFrames
        (runCalls TwinCall.run [.allocPages 2 true, .freePage 0]
          fourMiBTwins).host.mmStats.freeFrames = 2 := by
  obtain ⟨hcorr, hpages⟩ := fourMiBTwins_alloc Nat.two_pos le_rfl
  have hret : fourMiBTwins.returned = [] := twinsStart_returned _ _ _
  exact ⟨corresponds_first hret hcorr, fourMiBTwins_sound.change_first hret hcorr hpages⟩

end NeverMind
