import NeverMind.Verification.Kheap.Blocks
import Mathlib.Logic.Relation

/-! # Runs of the heap

Over every sequence of allocations, releases and writes of clients inside the size they
requested, the blocks stay disjoint and intact. A request within 15 bytes of `2 ^ 64` is the
exception: with the header it wraps to a few bytes, and the caller receives one page. -/

namespace NeverMind.Kheap

open Finset List Block Option Pmm Relation

variable {s s' : Kheap} {runs : List Run} {used : List (Block × ℕ)} {free : List Block}
  {wanted pages : ℕ}

/-! ## New runs -/

/-- The run that a call obtains from the allocator of frames. -/
def obtained (fuel wanted : ℕ) (s : Kheap) : Option Run :=
  if wanted = 0 then none
  else
    match s.scan wanted fuel none s.freeList with
    | some none =>
      let first := (s.pmm.pmmAllocPages (pagesFor wanted)).1
      if first = 0 then none else some ⟨first / pageSize, pagesFor wanted⟩
    | _ => none

def headers (wanted : ℕ) (r : Run) : List ℕ :=
  if splits r.pages wanted then [r.first * 4096, r.first * 4096 + 16 + wanted]
  else [r.first * 4096]

theorem pagesFor_spec (hwanted : wanted ≤ 2 ^ 64 - 16) (hpos : 0 < pagesFor wanted) :
    16 + wanted ≤ pagesFor wanted * 4096 := by
  unfold pagesFor u64 kmallocHeaderSize pageSize at *
  omega

theorem runSize_le (hpos : 0 < pages) (hle : pages ≤ 2 ^ 25) :
    runSize pages ≤ pages * 4096 - 16 := by
  have hlt : pages * 4096 < 2 ^ 64 := by omega
  unfold runSize kmallocHeaderSize pageSize
  rw [u64_of_lt hlt, u64Sub_of_le (by omega) hlt]
  exact Nat.mod_le _ _

theorem runSize_lt (pages : ℕ) : runSize pages < 2 ^ 32 := Nat.mod_lt _ (by decide)

theorem splits_iff : splits pages wanted = true ↔ wanted + 48 < runSize pages := by
  have hsize : kmallocHeaderSize = 16 := rfl
  rw [splits, Bool.and_eq_true, decide_eq_true_eq, decide_eq_true_eq, hsize]
  omega

def startRun (header pages : ℕ) (s : Kheap) : Kheap :=
  ((s.setMagic header kmallocMagic).setSize header (runSize pages)).setNext header 0

theorem magic_startRun (header pages : ℕ) (s : Kheap) :
    (s.startRun header pages).magic header = kmallocMagic := by
  rw [startRun, magic_setNext, magic_setSize, magic_setMagic]
  rfl

theorem size_startRun (header pages : ℕ) (s : Kheap) :
    (s.startRun header pages).size header = runSize pages := by
  rw [startRun, size_setNext, size_setSize]
  exact Nat.mod_eq_of_lt (runSize_lt pages)

theorem SameHeader.startRun {header h : ℕ} (hsep : Separate header h) (pages : ℕ) (s : Kheap) :
    SameHeader s (s.startRun header pages) h :=
  ((SameHeader.setMagic hsep _ _).trans (SameHeader.setSize hsep _ _)).trans
    (SameHeader.setNext hsep _ _)

def splitRun (header pages wanted : ℕ) (s : Kheap) : Kheap :=
  let split := header + 16 + wanted
  let s := ((s.setMagic split kmallocMagic).setSize split
    (u32 (runSize pages - wanted - 16))).setNext split s.freeList
  ({ s with freeList := split }).setSize header (u32 wanted)

theorem carve_eq (header pages wanted : ℕ) (s : Kheap) :
    s.carve header pages wanted =
      if splits pages wanted then (s.startRun header pages).splitRun header pages wanted
      else s.startRun header pages :=
  rfl

/-- What splitting a run writes: the second header, the head of the list, and the size in the
first header. -/
structure SplitFacts (s s' : Kheap) (header wanted rest : ℕ) : Prop where
  magic : s'.magic header = s.magic header
  size : s'.size header = wanted
  magic_split : s'.magic (header + 16 + wanted) = kmallocMagic
  size_split : s'.size (header + 16 + wanted) = rest
  link_split : s'.link (header + 16 + wanted) = ptr s.freeList
  freeList : s'.freeList = header + 16 + wanted
  pmm : s'.pmm = s.pmm
  other : ∀ h, Separate header h → Separate (header + 16 + wanted) h → SameHeader s s' h

theorem splitRun_facts (header : ℕ) (hsplits : splits pages wanted = true)
    (hlist : s.freeList < 2 ^ 64) :
    SplitFacts s (s.splitRun header pages wanted) header wanted (runSize pages - wanted - 16) := by
  have hrun := runSize_lt pages
  rw [splits_iff] at hsplits
  have hsep : Separate header (header + 16 + wanted) := .inl (by omega)
  obtain ⟨t, ht⟩ : ∃ t : Kheap, t =
      ((s.setMagic (header + 16 + wanted) kmallocMagic).setSize (header + 16 + wanted)
        (u32 (runSize pages - wanted - 16))).setNext (header + 16 + wanted) s.freeList := ⟨_, rfl⟩
  obtain ⟨t', ht'⟩ : ∃ t' : Kheap, t' = { t with freeList := header + 16 + wanted } := ⟨_, rfl⟩
  have hmem : t'.mem = t.mem := by rw [ht']
  have hfinal : s.splitRun header pages wanted = t'.setSize header (u32 wanted) := by
    rw [ht', ht]
    rfl
  -- the second header is written first, and then only the first one changes
  have hsame : ∀ h, Separate (header + 16 + wanted) h → SameHeader s t h := by
    intro h hsep'
    rw [ht]
    exact ((SameHeader.setMagic hsep' _ _).trans (SameHeader.setSize hsep' _ _)).trans
      (SameHeader.setNext hsep' _ _)
  have hsplit : SameHeader t (t'.setSize header (u32 wanted)) (header + 16 + wanted) :=
    (SameHeader.of_mem_eq hmem _).trans (SameHeader.setSize hsep _ _)
  rw [hfinal]
  refine ⟨?_, ?_, ?_, ?_, ?_, ?_, ?_, ?_⟩
  · rw [magic_setSize, (SameHeader.of_mem_eq hmem _).magic, (hsame header hsep.symm).magic]
  · rw [size_setSize, u32_of_lt (by omega)]
    exact Nat.mod_eq_of_lt (by norm_num; omega)
  · rw [hsplit.magic, ht, magic_setNext, magic_setSize, magic_setMagic]
    rfl
  · rw [hsplit.size, ht, size_setNext, size_setSize, u32_of_lt (by omega)]
    exact Nat.mod_eq_of_lt (by norm_num; omega)
  · rw [hsplit.link, ht, link_setNext _ hlist]
  · rw [ht']
    rfl
  · rw [ht', ht]
    rfl
  · intro h hsep₁ hsep₂
    exact ((hsame h hsep₂).trans (SameHeader.of_mem_eq hmem h)).trans
      (SameHeader.setSize hsep₁ _ _)

/-- The allocator of frames hands out a run. -/
structure NewRun (s s' : Kheap) (r : Run) : Prop where
  pos : 0 < r.pages
  free : Finset.Ico r.first (r.first + r.pages) ⊆ s.pmm.free
  frees : Frees s.pmm s'.pmm (s.pmm.free \ Finset.Ico r.first (r.first + r.pages))
  mem : s'.mem = s.mem
  freeList : s'.freeList = s.freeList

theorem NewRun.bounds {r : Run} (h : NewRun s s' r) (hsound : Sound s.pmm) :
    0 < r.first ∧ r.first + r.pages ≤ s.pmm.frameLimit := by
  have hpos := h.pos
  have hlast : r.first + r.pages - 1 ∈ s.pmm.free := by
    apply h.free
    rw [mem_Ico]
    omega
  have hlt := lt_limit_of_mem_free hlast
  have hfirst : r.first ≠ 0 := by
    intro hzero
    apply hsound.zero_used
    apply h.free
    rw [mem_Ico]
    omega
  omega

theorem NewRun.apart {r q : Run} (h : NewRun s s' r)
    (hq : Disjoint (Finset.Ico q.first (q.first + q.pages)) s.pmm.free) (hpos : 0 < q.pages) :
    r.Apart q := by
  by_contra hnot
  have hrpos := h.pos
  unfold Run.Apart at hnot
  -- the larger of the two first frames is in both runs
  have hr : max r.first q.first ∈ Finset.Ico r.first (r.first + r.pages) := by
    rw [mem_Ico]
    omega
  have hq' : max r.first q.first ∈ Finset.Ico q.first (q.first + q.pages) := by
    rw [mem_Ico]
    omega
  exact disjoint_left.mp hq hq' (h.free hr)

theorem Runs.add {r : Run} (h : Runs s runs) (hr : NewRun s s' r) : Runs s' (r :: runs) where
  sound := by
    refine ⟨hr.frees.accounting, ?_⟩
    rw [hr.frees.free_eq, mem_sdiff]
    exact fun hmem => h.sound.zero_used hmem.1
  pos := by
    intro q hq
    rcases mem_cons.mp hq with rfl | hq
    · exact hr.pos
    · exact h.pos q hq
  bounded := by
    intro q hq
    rw [hr.frees.limit_eq]
    rcases mem_cons.mp hq with rfl | hq
    · exact hr.bounds h.sound
    · exact h.bounded q hq
  taken := by
    intro q hq
    rw [hr.frees.free_eq]
    rcases mem_cons.mp hq with rfl | hq
    · exact disjoint_sdiff
    · exact (h.taken q hq).mono_right sdiff_subset
  apart := by
    refine pairwise_cons.mpr ⟨?_, h.apart⟩
    intro q hq
    exact hr.apart (h.taken q hq) (h.pos q hq)

theorem Blocks.add {t : Kheap} {r : Run} {bs news : List Block} (h : Blocks s runs bs)
    (hruns : Runs s runs) (hr : NewRun s t r) (hnew : Blocks s' [r] news)
    (hsame : ∀ b ∈ bs, SameHeader s s' b.hdr) : Blocks s' (r :: runs) (news ++ bs) where
  magic := by
    intro b hb
    rcases mem_append.mp hb with hb | hb
    · exact hnew.magic b hb
    · exact (hsame b hb).magic.trans (h.magic b hb)
  size_le := by
    intro b hb
    rcases mem_append.mp hb with hb | hb
    · exact hnew.size_le b hb
    · exact (hsame b hb).size.trans_le (h.size_le b hb)
  apart := by
    refine pairwise_append.mpr ⟨hnew.apart, h.apart, ?_⟩
    intro b hb c hc
    obtain ⟨q, hq, hbq⟩ := hnew.inside b hb
    obtain ⟨q', hq', hcq⟩ := h.inside c hc
    obtain rfl := List.mem_singleton.mp hq
    exact hbq.apart hcq (hr.apart (hruns.taken q' hq') (hruns.pos q' hq'))
  inside := by
    intro b hb
    rcases mem_append.mp hb with hb | hb
    · obtain ⟨q, hq, hbq⟩ := hnew.inside b hb
      exact ⟨q, List.mem_cons.mpr (.inl (List.mem_singleton.mp hq)), hbq⟩
    · obtain ⟨q, hq, hbq⟩ := h.inside b hb
      exact ⟨q, mem_cons_of_mem r hq, hbq⟩

theorem NewRun.separate {t : Kheap} {r : Run} {bs : List Block} (hr : NewRun s t r)
    (h : Blocks s runs bs) (hruns : Runs s runs) {c : Block} (hc : c.Inside r) {b : Block}
    (hb : b ∈ bs) : Separate c.hdr b.hdr := by
  obtain ⟨q, hq, hbq⟩ := h.inside b hb
  exact (hc.apart hbq (hr.apart (hruns.taken q hq) (hruns.pos q hq))).separate

theorem Layout.whole_run {t : Kheap} {r : Run} (h : Layout s runs used free)
    (hr : NewRun s t r) (hfit : 16 + wanted ≤ r.pages * 4096) :
    Layout (t.startRun (r.first * 4096) r.pages) (r :: runs)
      ((⟨r.first * 4096, r.pages * 4096 - 16⟩, wanted) :: used) free := by
  obtain ⟨b, hb⟩ : ∃ b : Block, b = ⟨r.first * 4096, r.pages * 4096 - 16⟩ := ⟨_, rfl⟩
  have hhdr : b.hdr = r.first * 4096 := by rw [hb]
  have hroom : b.room = r.pages * 4096 - 16 := by rw [hb]
  have hpos := hr.pos
  have hlimit := h.runs_ok.sound.limit_lt
  have hbounds := hr.bounds h.runs_ok.sound
  have hinside : b.Inside r := by
    unfold Inside
    omega
  rw [← hb, ← hhdr]
  have hsame : ∀ c ∈ used.map Prod.fst ++ free, SameHeader s (t.startRun b.hdr r.pages) c.hdr := by
    intro c hc
    have hsep := hr.separate h.blocks h.runs_ok hinside hc
    exact (SameHeader.of_mem_eq hr.mem c.hdr).trans (SameHeader.startRun hsep r.pages t)
  have hnew : Blocks (t.startRun b.hdr r.pages) [r] [b] := by
    refine ⟨?_, ?_, pairwise_singleton _ _, ?_⟩
    · simp [magic_startRun]
    · simp only [List.mem_singleton, forall_eq, size_startRun]
      rw [hroom]
      exact runSize_le hpos (by omega)
    · simpa using hinside
  refine ⟨h.blocks.add h.runs_ok hr hnew hsame, (h.runs_ok.add hr).of_pmm_eq rfl, ?_, ?_⟩
  · have hlist : (t.startRun b.hdr r.pages).freeList = s.freeList := hr.freeList
    rw [hlist]
    exact h.chain_of_sameHeader hsame
  · have hwanted : wanted ≤ b.room := by
      rw [hroom]
      omega
    exact forall_mem_cons.mpr ⟨hwanted, h.requested⟩

theorem splits_inside {r : Run} (hpos : 0 < r.pages) (hle : r.pages ≤ 2 ^ 25)
    (hsplits : splits r.pages wanted = true) :
    Inside ⟨r.first * 4096, wanted⟩ r ∧
      Inside ⟨r.first * 4096 + 16 + wanted, runSize r.pages - wanted - 16⟩ r := by
  have hsize := runSize_le hpos hle
  have hlong := splits_iff.mp hsplits
  simp only [Inside]
  omega

section

variable {t s' : Kheap} {r : Run} {header rest : ℕ}

theorem SplitFacts.blocks (h : SplitFacts (t.startRun header r.pages) s' header wanted rest)
    (hfirst : Inside ⟨header, wanted⟩ r)
    (hrest : Inside ⟨header + 16 + wanted, rest⟩ r) :
    Blocks s' [r] [⟨header, wanted⟩, ⟨header + 16 + wanted, rest⟩] := by
  refine ⟨?_, ?_, pairwise_pair.mpr (.inl le_rfl), ?_⟩
  · simp only [List.mem_cons, List.not_mem_nil, or_false, forall_eq_or_imp, forall_eq]
    exact ⟨by rw [h.magic, magic_startRun], h.magic_split⟩
  · simp only [List.mem_cons, List.not_mem_nil, or_false, forall_eq_or_imp, forall_eq]
    exact ⟨h.size.le, h.size_split.le⟩
  · simp only [List.mem_cons, List.not_mem_nil, or_false, forall_eq_or_imp, forall_eq,
      exists_eq_left]
    exact ⟨hfirst, hrest⟩

theorem SplitFacts.sameHeader (h : SplitFacts (t.startRun header r.pages) s' header wanted rest)
    (hr : NewRun s t r) {d : ℕ} (hsep : Separate header d)
    (hsep' : Separate (header + 16 + wanted) d) : SameHeader s s' d :=
  ((SameHeader.of_mem_eq hr.mem d).trans (SameHeader.startRun hsep r.pages t)).trans
    (h.other d hsep hsep')

end

/-- A new run becomes a block of the requested size, and the rest goes to the free list. -/
theorem Layout.split_run {t : Kheap} {r : Run} (h : Layout s runs used free)
    (hr : NewRun s t r) (hsplits : splits r.pages wanted = true) :
    Layout ((t.startRun (r.first * 4096) r.pages).splitRun (r.first * 4096) r.pages wanted)
      (r :: runs) ((⟨r.first * 4096, wanted⟩, wanted) :: used)
      (⟨r.first * 4096 + 16 + wanted, runSize r.pages - wanted - 16⟩ :: free) := by
  have hlimit := h.runs_ok.sound.limit_lt
  have hbounds := hr.bounds h.runs_ok.sound
  obtain ⟨hfirst, hrest⟩ := splits_inside hr.pos (by omega) hsplits
  have hlist : (t.startRun (r.first * 4096) r.pages).freeList = s.freeList := hr.freeList
  have hfacts := splitRun_facts (s := t.startRun (r.first * 4096) r.pages) (r.first * 4096)
    hsplits (hlist ▸ h.freeList_lt)
  generalize (t.startRun (r.first * 4096) r.pages).splitRun (r.first * 4096) r.pages wanted = s'
    at hfacts ⊢
  have hsame : ∀ d ∈ used.map Prod.fst ++ free, SameHeader s s' d.hdr := by
    intro d hd
    exact hfacts.sameHeader hr (hr.separate h.blocks h.runs_ok hfirst hd)
      (hr.separate h.blocks h.runs_ok hrest hd)
  have hblocks := h.blocks.add h.runs_ok hr (hfacts.blocks hfirst hrest) hsame
  refine ⟨hblocks.perm ?_, (h.runs_ok.add hr).of_pmm_eq hfacts.pmm, ?_, ?_⟩
  · rw [List.map_cons, List.cons_append, List.cons_append, List.cons_append, List.nil_append]
    exact perm_middle.symm.cons _
  · rw [hfacts.freeList, List.map_cons]
    refine Chain.cons_iff.mpr ⟨ptr_of_ne (by omega), ?_⟩
    rw [hfacts.link_split, hlist]
    exact h.chain_of_sameHeader hsame
  · exact forall_mem_cons.mpr ⟨le_rfl, h.requested⟩

/-! ## One call -/

/-- What an allocation does to the layout. -/
inductive Allocates (s : Kheap) (runs : List Run) (used : List (Block × ℕ)) (free : List Block)
    (wanted : ℕ) : Option Run → ℕ × Kheap → Prop where
  | refused : Allocates s runs used free wanted none (0, s)
  | reused {s' : Kheap} {b : Block} {free' : List Block}
      (hperm : (b :: used.map Prod.fst ++ free').Perm (used.map Prod.fst ++ free))
      (hlayout : Layout s' runs ((b, wanted) :: used) free') :
      Allocates s runs used free wanted none (b.hdr + 16, s')
  | fresh {s' : Kheap} {r : Run} {b : Block} {free' : List Block}
      (hperm : ((b :: used.map Prod.fst ++ free').map hdr).Perm
        (headers wanted r ++ (used.map Prod.fst ++ free).map hdr))
      (hlayout : Layout s' (r :: runs) ((b, wanted) :: used) free') :
      Allocates s runs used free wanted (some r) (b.hdr + 16, s')

theorem Layout.scan_spec (h : Layout s runs used free) {fuel : ℕ} {found : Option (Option ℕ × ℕ)}
    (hscan : s.scan wanted fuel none s.freeList = some found) :
    Scanned s wanted none (free.map hdr) found := by
  have hfuel : (free.map hdr).length < fuel + free.length + 1 := by
    rw [length_map]
    omega
  obtain ⟨found', hscan', hspec⟩ := Kheap.scan_spec wanted none h.chain hfuel
  have hmore := scan_mono hscan (show fuel ≤ fuel + free.length + 1 by omega)
  rw [hmore] at hscan'
  rw [some.inj hscan']
  exact hspec

theorem Layout.reuse (h : Layout s runs used free) {prev : Option ℕ} {cur : ℕ}
    (hspec : Scanned s wanted none (free.map hdr) (some (prev, cur))) :
    Allocates s runs used free wanted none
      (cur + 16, (s.setLink prev (s.next cur)).setNext cur 0) := by
  cases hspec with
  | head hl hsize =>
    obtain ⟨b, back, rfl, rfl, -⟩ := map_eq_cons_iff.mp hl
    exact .reused (perm_take (used.map Prod.fst) [] back b).symm (h.reuse_head hsize)
  | after front back a cur hl hsize =>
    obtain ⟨front, rest, rfl, -, hrest⟩ := map_eq_append_iff.mp hl
    obtain ⟨a, tail, rfl, rfl, htail⟩ := map_eq_cons_iff.mp hrest
    obtain ⟨b, back, rfl, rfl, -⟩ := map_eq_cons_iff.mp htail
    refine .reused ?_ (h.reuse_after hsize)
    have hperm := perm_take (used.map Prod.fst) (front ++ [a]) back b
    simpa using hperm.symm

theorem Layout.carve_run {t : Kheap} {r : Run} (h : Layout s runs used free) (hr : NewRun s t r)
    (hfit : 16 + wanted ≤ r.pages * 4096) :
    Allocates s runs used free wanted (some r)
      (r.first * 4096 + 16, t.carve (r.first * 4096) r.pages wanted) := by
  rw [carve_eq]
  split
  · rename_i hsplits
    refine .fresh ?_ (h.split_run hr hsplits)
    rw [headers, if_pos hsplits, List.map_append, List.map_append, List.map_cons, List.map_cons]
    exact perm_middle.cons (r.first * 4096)
  · rename_i hsplits
    refine .fresh ?_ (h.whole_run hr hfit)
    rw [headers, if_neg hsplits]
    exact Perm.refl _

/-- The run of a call that asks the allocator of frames for `n` frames. -/
def runOf (n : ℕ) (s : Kheap) : Option Run :=
  if (s.pmm.pmmAllocPages n).1 = 0 then none
  else some ⟨(s.pmm.pmmAllocPages n).1 / pageSize, n⟩

def allocFrames (n wanted : ℕ) (s : Kheap) : ℕ × Kheap :=
  if (s.pmm.pmmAllocPages n).1 = 0 then (0, { s with pmm := (s.pmm.pmmAllocPages n).2 })
  else ((s.pmm.pmmAllocPages n).1 + kmallocHeaderSize,
    { s with pmm := (s.pmm.pmmAllocPages n).2 }.carve (s.pmm.pmmAllocPages n).1 n wanted)

/-- An allocation refuses, hands out a block of the list, or asks for frames. -/
theorem kmalloc_cases {fuel : ℕ} {result : ℕ × Kheap} (hk : s.kmalloc fuel wanted = some result) :
    (wanted = 0 ∧ obtained fuel wanted s = none ∧ result = (0, s)) ∨
    (∃ prev cur, s.scan wanted fuel none s.freeList = some (some (prev, cur)) ∧
      obtained fuel wanted s = none ∧
      result = (cur + 16, (s.setLink prev (s.next cur)).setNext cur 0)) ∨
    (s.scan wanted fuel none s.freeList = some none ∧
      obtained fuel wanted s = s.runOf (pagesFor wanted) ∧
      result = s.allocFrames (pagesFor wanted) wanted) := by
  unfold Kheap.kmalloc at hk
  unfold obtained
  by_cases hzero : wanted = 0
  · rw [if_pos hzero] at hk ⊢
    exact .inl ⟨hzero, rfl, (some.inj hk).symm⟩
  · rw [if_neg hzero] at hk ⊢
    cases hscan : s.scan wanted fuel none s.freeList with
    | none =>
      rw [hscan] at hk
      cases hk
    | some found =>
      rw [hscan] at hk
      cases found with
      | some found => exact .inr (.inl ⟨found.1, found.2, rfl, rfl, (some.inj hk).symm⟩)
      | none =>
        refine .inr (.inr ⟨rfl, rfl, ?_⟩)
        dsimp only at hk
        unfold allocFrames
        split at hk <;> rename_i hret
        · rw [if_pos hret]
          exact (some.inj hk).symm
        · rw [if_neg hret]
          exact (some.inj hk).symm

theorem Layout.allocFrames (h : Layout s runs used free) {n : ℕ}
    (hfit : 0 < n → 16 + wanted ≤ n * 4096) :
    Allocates s runs used free wanted (s.runOf n) (s.allocFrames n wanted) := by
  unfold runOf Kheap.allocFrames
  rcases pmmAllocPages_spec h.runs_ok.sound.toAccounting n with
    ⟨f, hpos, hsub, hret, hfrees⟩ | ⟨hfail, -⟩
  · -- frame 0 is never handed out, so the address is not null
    have hf : f ≠ 0 := by
      rintro rfl
      exact h.runs_ok.sound.zero_used (hsub (mem_Ico.mpr (by omega)))
    have hne : f * pageSize ≠ 0 := by
      unfold pageSize
      omega
    have hnew : NewRun s { s with pmm := (s.pmm.pmmAllocPages n).2 } ⟨f, n⟩ :=
      ⟨hpos, hsub, hfrees, rfl, rfl⟩
    rw [hret, if_neg hne, if_neg hne, Nat.mul_div_cancel f (by decide)]
    exact h.carve_run hnew (hfit hpos)
  · rw [hfail, if_pos rfl, if_pos rfl]
    exact .refused

theorem Layout.kmalloc (h : Layout s runs used free) (hwanted : wanted ≤ 2 ^ 64 - 16)
    {fuel : ℕ} {result : ℕ × Kheap} (hk : s.kmalloc fuel wanted = some result) :
    Allocates s runs used free wanted (obtained fuel wanted s) result := by
  rcases kmalloc_cases hk with ⟨-, hobtained, rfl⟩ | ⟨prev, cur, hscan, hobtained, rfl⟩ |
    ⟨-, hobtained, rfl⟩
  · rw [hobtained]
    exact .refused
  · rw [hobtained]
    exact h.reuse (h.scan_spec hscan)
  · rw [hobtained]
    exact h.allocFrames (pagesFor_spec hwanted)

/-! ## Whole runs -/

/-- The heap, the pointers in use with the sizes requested for them, all headers that were
carved, and the runs that were obtained. -/
structure Client where
  heap : Kheap
  live : List (ℕ × ℕ)
  carved : List ℕ
  runs : List Run

def Client.atStart (mem : ℕ → BitVec 8) (p : Pmm) : Client := ⟨⟨mem, 0, p⟩, [], [], []⟩

/-- A call that returns, or a write, of clients whose requests are at most `limit`. A pointer is
freed while it is in use, and written inside the size that was requested for it. -/
inductive Step (limit : ℕ) : Client → Client → Prop where
  | kmalloc (c : Client) (fuel wanted ptr : ℕ) (heap : Kheap) (hlimit : wanted ≤ limit)
      (hk : c.heap.kmalloc fuel wanted = some (ptr, heap)) :
      Step limit c
        { heap := heap
          live := if ptr = 0 then c.live else (ptr, wanted) :: c.live
          carved := (obtained fuel wanted c.heap).elim [] (headers wanted) ++ c.carved
          runs := (obtained fuel wanted c.heap).toList ++ c.runs }
  | kfree (c : Client) (ptr wanted : ℕ) (front back : List (ℕ × ℕ))
      (hlive : c.live = front ++ (ptr, wanted) :: back) :
      Step limit c { c with heap := c.heap.kfree ptr, live := front ++ back }
  | write (c : Client) (ptr wanted addr : ℕ) (byte : BitVec 8) (hlive : (ptr, wanted) ∈ c.live)
      (hlow : ptr ≤ addr) (hhigh : addr < ptr + wanted) :
      Step limit c
        { c with heap := { c.heap with mem := Function.update c.heap.mem addr byte } }

def pointer (u : Block × ℕ) : ℕ × ℕ := (u.1.hdr + 16, u.2)

/-- The records of the client describe the layout. -/
structure Describes (c : Client) (used : List (Block × ℕ)) (free : List Block) : Prop where
  layout : Layout c.heap c.runs used free
  live : c.live = used.map pointer
  carved : ((used.map Prod.fst ++ free).map hdr).Perm c.carved

theorem Describes.atStart {p : Pmm} (hp : Sound p) (mem : ℕ → BitVec 8) :
    Describes (Client.atStart mem p) [] [] where
  layout := by
    refine ⟨⟨by simp, by simp, Pairwise.nil, by simp⟩,
      ⟨hp, by simp [Client.atStart], by simp [Client.atStart], by simp [Client.atStart],
        Pairwise.nil⟩, ?_, by simp⟩
    exact Chain.nil_iff.mpr rfl
  live := rfl
  carved := Perm.refl _

/-- The records after an allocation for which `wanted` bytes were reserved. -/
theorem Describes.allocates {c : Client} (h : Describes c used free) {r : Option Run} {ptr : ℕ}
    {heap : Kheap} (hspec : Allocates c.heap c.runs used free wanted r (ptr, heap)) :
    ∃ used' free', Describes
      { heap := heap
        live := if ptr = 0 then c.live else (ptr, wanted) :: c.live
        carved := r.elim [] (headers wanted) ++ c.carved
        runs := r.toList ++ c.runs } used' free' := by
  generalize hresult : (ptr, heap) = result at hspec
  cases hspec with
  | refused =>
    cases hresult
    exact ⟨used, free, h.layout, h.live, h.carved⟩
  | @reused _ b free' hperm hlayout =>
    cases hresult
    refine ⟨(b, wanted) :: used, free', hlayout, ?_, (hperm.map hdr).trans h.carved⟩
    rw [if_neg (by omega), h.live]
    rfl
  | @fresh _ r b free' hperm hlayout =>
    cases hresult
    have hcarved := hperm.trans (h.carved.append_left (headers wanted r))
    refine ⟨(b, wanted) :: used, free', hlayout, ?_, ?_⟩
    · rw [if_neg (by omega), h.live]
      rfl
    · rw [elim_some, List.map_cons]
      exact hcarved

theorem Describes.kmalloc {c : Client} (h : Describes c used free) {fuel ptr : ℕ} {heap : Kheap}
    (hwanted : wanted ≤ 2 ^ 64 - 16) (hk : c.heap.kmalloc fuel wanted = some (ptr, heap)) :
    ∃ used' free', Describes
      { heap := heap
        live := if ptr = 0 then c.live else (ptr, wanted) :: c.live
        carved := (obtained fuel wanted c.heap).elim [] (headers wanted) ++ c.carved
        runs := (obtained fuel wanted c.heap).toList ++ c.runs } used' free' :=
  h.allocates (h.layout.kmalloc hwanted hk)

theorem Describes.kfree {c : Client} (h : Describes c used free) {ptr wanted : ℕ}
    {front back : List (ℕ × ℕ)} (hlive : c.live = front ++ (ptr, wanted) :: back) :
    ∃ used' free',
      Describes { c with heap := c.heap.kfree ptr, live := front ++ back } used' free' := by
  obtain ⟨ufront, rest, rfl, rfl, hrest⟩ := map_eq_append_iff.mp (h.live.symm.trans hlive)
  obtain ⟨u, uback, rfl, hu, rfl⟩ := map_eq_cons_iff.mp hrest
  obtain ⟨b, w⟩ := u
  cases hu
  have hlayout : Layout (c.heap.kfree (b.hdr + 16)) c.runs (ufront ++ uback) (b :: free) :=
    h.layout.release
  have hpointers : ufront.map pointer ++ uback.map pointer = (ufront ++ uback).map pointer := by
    rw [List.map_append]
  refine ⟨ufront ++ uback, b :: free, hlayout, hpointers, ?_⟩
  refine Perm.trans (Perm.map hdr ?_) h.carved
  simp only [List.map_append, List.map_cons, List.append_assoc, List.cons_append]
  exact Perm.append_left _ perm_middle

theorem Describes.write {c : Client} (h : Describes c used free) {ptr wanted addr : ℕ}
    (byte : BitVec 8) (hlive : (ptr, wanted) ∈ c.live) (hlow : ptr ≤ addr)
    (hhigh : addr < ptr + wanted) :
    Describes { c with heap := { c.heap with mem := Function.update c.heap.mem addr byte } }
      used free := by
  rw [h.live] at hlive
  obtain ⟨u, hu, hptr⟩ := mem_map.mp hlive
  cases hptr
  exact ⟨h.layout.write hu hlow hhigh byte, h.live, h.carved⟩

theorem Describes.step {c c' : Client} (h : Describes c used free)
    (hstep : Step (2 ^ 64 - 16) c c') : ∃ used' free', Describes c' used' free' := by
  cases hstep with
  | kmalloc fuel wanted ptr heap hlimit hk => exact h.kmalloc hlimit hk
  | kfree ptr wanted front back hlive => exact h.kfree hlive
  | write ptr wanted addr byte hlive hlow hhigh => exact ⟨used, free, h.write byte hlive hlow hhigh⟩

theorem describes_of_run {p : Pmm} (hp : Sound p) {mem : ℕ → BitVec 8} {c : Client}
    (hrun : ReflTransGen (Step (2 ^ 64 - 16)) (Client.atStart mem p) c) :
    ∃ used free, Describes c used free := by
  induction hrun with
  | refl => exact ⟨[], [], .atStart hp mem⟩
  | tail _ hstep ih =>
    obtain ⟨used, free, h⟩ := ih
    exact h.step hstep

theorem Layout.kmalloc_isSome (h : Layout s runs used free) (wanted : ℕ) {fuel : ℕ}
    (hfuel : free.length < fuel) : (s.kmalloc fuel wanted).isSome := by
  obtain ⟨found, hscan, -⟩ :=
    Kheap.scan_spec wanted none h.chain
      (show (free.map hdr).length < fuel by simpa using hfuel)
  unfold Kheap.kmalloc
  split
  · rfl
  · rw [hscan]
    cases found with
    | some found => rfl
    | none =>
      dsimp only
      split <;> rfl

/-- The state that the heap has to keep: each carved block is in use or on the free list exactly
once, the headers are intact, the headers with their payloads are disjoint and inside runs of
frames that the allocator of frames does not hand out again, and the search of the list ends. -/
def Intact (c : Client) : Prop :=
  ∃ free : List ℕ, Chain c.heap.link (ptr c.heap.freeList) free ∧
    (c.live.map (fun u : ℕ × ℕ => u.1 - 16) ++ free).Perm c.carved ∧ c.carved.Nodup ∧
    (∀ h ∈ c.carved, c.heap.magic h = kmallocMagic ∧ ∃ r ∈ c.runs, Inside ⟨h, c.heap.size h⟩ r) ∧
    c.carved.Pairwise (fun h h' => Apart ⟨h, c.heap.size h⟩ ⟨h', c.heap.size h'⟩) ∧
    c.runs.Pairwise Run.Apart ∧
    (∀ r ∈ c.runs, Disjoint (Finset.Ico r.first (r.first + r.pages)) c.heap.pmm.free) ∧
    ∀ wanted fuel, free.length < fuel → (c.heap.kmalloc fuel wanted).isSome

theorem Describes.intact {c : Client} (h : Describes c used free) : Intact c := by
  have hbs := h.layout.blocks
  have hheaders : c.live.map (fun u : ℕ × ℕ => u.1 - 16) = (used.map Prod.fst).map hdr := by
    rw [h.live, List.map_map, List.map_map]
    rfl
  have hcarved : ∀ a ∈ c.carved, ∃ b ∈ used.map Prod.fst ++ free, b.hdr = a := by
    intro a ha
    exact mem_map.mp (h.carved.mem_iff.mpr ha)
  refine ⟨free.map hdr, h.layout.chain, ?_, h.carved.nodup_iff.mp hbs.nodup, ?_, ?_,
    h.layout.runs_ok.apart, h.layout.runs_ok.taken, ?_⟩
  · rw [hheaders, ← List.map_append]
    exact h.carved
  · intro a ha
    obtain ⟨b, hb, rfl⟩ := hcarved a ha
    obtain ⟨r, hr, hinside⟩ := hbs.inside b hb
    have hsize := hbs.size_le b hb
    refine ⟨hbs.magic b hb, r, hr, ?_⟩
    unfold Inside at hinside ⊢
    dsimp only
    omega
  · refine (h.carved.pairwise_iff fun hab => hab.symm).mp ?_
    rw [pairwise_map]
    refine hbs.apart.imp_of_mem ?_
    intro b b' hb hb' hapart
    have hsize := hbs.size_le b hb
    have hsize' := hbs.size_le b' hb'
    unfold Apart at hapart ⊢
    dsimp only
    omega
  · intro wanted fuel hfuel
    exact h.layout.kmalloc_isSome wanted (by simpa using hfuel)

/-- Runs whose requests are below the wrap keep the heap intact. -/
theorem heap_intact_below_wrap {p : Pmm} (hp : Sound p) (mem : ℕ → BitVec 8) {c : Client}
    (hrun : ReflTransGen (Step (2 ^ 64 - 16)) (Client.atStart mem p) c) : Intact c := by
  obtain ⟨used, free, h⟩ := describes_of_run hp hrun
  exact h.intact

/-! ## A machine with two free frames -/

def twoFrames : Pmm := zeroed.pmmInitFromRanges .atOneMiB [⟨0x181000, 0x2000, nmMemAvailable⟩]

theorem sound_twoFrames : Sound twoFrames := by
  have hboot : (BootInput.ranges [⟨0x181000, 0x2000, nmMemAvailable⟩]).boot .atOneMiB
      zeroed = some twoFrames := rfl
  exact BootInput.boot_sound hboot

def allocated (wanted : ℕ) (s : Kheap) : ℕ × Kheap := (s.kmalloc 1 wanted).getD (0, s)

theorem kmalloc_eq_allocated (h : (s.kmalloc 1 wanted).isSome) :
    s.kmalloc 1 wanted = some (s.allocated wanted) := by
  obtain ⟨r, hr⟩ := isSome_iff_exists.mp h
  simp [allocated, hr]

def twoFramesHeap : Kheap := ⟨fun _ => 0, 0, twoFrames⟩

theorem Step.of_kmalloc (limit wanted : ℕ) (c : Client) {ptr : ℕ} {heap : Kheap}
    (hlimit : wanted ≤ limit) (hk : c.heap.kmalloc 1 wanted = some (ptr, heap)) (hptr : ptr ≠ 0) :
    ∃ c', Step limit c c' ∧ c'.heap = heap ∧ c'.live = (ptr, wanted) :: c.live :=
  ⟨_, .kmalloc c 1 wanted ptr heap hlimit hk, rfl, if_neg hptr⟩

theorem heap_intact_twoFrames :
    ∃ c, ReflTransGen (Step (2 ^ 64 - 16)) (Client.atStart (fun _ => 0) twoFrames) c ∧
      c.live = [(385 * 4096 + 16, 100)] ∧ Intact c := by
  obtain ⟨s₁, hs₁⟩ : ∃ s, s = (twoFramesHeap.allocated 100).2 := ⟨_, rfl⟩
  have hk : twoFramesHeap.kmalloc 1 100 = some (385 * 4096 + 16, s₁) := by
    have hptr : (twoFramesHeap.allocated 100).1 = 385 * 4096 + 16 := by decide +kernel
    rw [kmalloc_eq_allocated (by decide +kernel), hs₁, ← hptr]
  obtain ⟨c, hstep, -, hlive⟩ :=
    Step.of_kmalloc (2 ^ 64 - 16) 100 (Client.atStart (fun _ => 0) twoFrames) (by decide) hk
      (by decide)
  have hrun := ReflTransGen.single hstep
  exact ⟨c, hrun, hlive, heap_intact_below_wrap sound_twoFrames (fun _ => 0) hrun⟩

/-- A request of `2 ^ 64 - 15` bytes is answered with one page, and the owner of the pointer may
then overwrite the header of the next block. -/
theorem wrapped_request_breaks_header :
    ∃ c, ReflTransGen (Step (2 ^ 64 - 1)) (Client.atStart (fun _ => 0) twoFrames) c ∧
      c.live = [(386 * 4096 + 16, 100), (385 * 4096 + 16, 2 ^ 64 - 15)] ∧
      c.heap.magic (386 * 4096) ≠ kmallocMagic ∧ ¬ Intact c := by
  obtain ⟨s₁, hs₁⟩ : ∃ s, s = (twoFramesHeap.allocated (2 ^ 64 - 15)).2 := ⟨_, rfl⟩
  obtain ⟨s₂, hs₂⟩ : ∃ s, s = (s₁.allocated 100).2 := ⟨_, rfl⟩
  have hk₁ : twoFramesHeap.kmalloc 1 (2 ^ 64 - 15) = some (385 * 4096 + 16, s₁) := by
    have hptr : (twoFramesHeap.allocated (2 ^ 64 - 15)).1 = 385 * 4096 + 16 := by decide +kernel
    rw [kmalloc_eq_allocated (by decide +kernel), hs₁, ← hptr]
  have hk₂ : s₁.kmalloc 1 100 = some (386 * 4096 + 16, s₂) := by
    have hptr : (s₁.allocated 100).1 = 386 * 4096 + 16 := by
      rw [hs₁]
      decide +kernel
    rw [kmalloc_eq_allocated (by rw [hs₁]; decide +kernel), hs₂, ← hptr]
  have hbroken : Kheap.magic { s₂ with mem := Function.update s₂.mem (386 * 4096) 0 }
      (386 * 4096) ≠ kmallocMagic := by
    rw [hs₂, hs₁]
    decide +kernel
  obtain ⟨c₁, hstep₁, hheap₁, hlive₁⟩ :=
    Step.of_kmalloc (2 ^ 64 - 1) (2 ^ 64 - 15) (Client.atStart (fun _ => 0) twoFrames) (by decide)
      hk₁ (by decide)
  obtain ⟨c₂, hstep₂, hheap₂, hlive₂⟩ :=
    Step.of_kmalloc (2 ^ 64 - 1) 100 c₁ (by decide) (hheap₁.symm ▸ hk₂) (by decide)
  have hlive : c₂.live = [(386 * 4096 + 16, 100), (385 * 4096 + 16, 2 ^ 64 - 15)] := by
    rw [hlive₂, hlive₁]
    rfl
  -- the byte is inside the first request, and is the first byte of the second header
  have hstep₃ : Step (2 ^ 64 - 1) c₂ _ := Step.write c₂ (385 * 4096 + 16) (2 ^ 64 - 15)
    (386 * 4096) 0 (by simp [hlive]) (by decide) (by decide)
  rw [← hheap₂] at hbroken
  refine ⟨_, ((ReflTransGen.single hstep₁).tail hstep₂).tail hstep₃, hlive, hbroken, ?_⟩
  rintro ⟨free, -, hperm, -, hheaders, -⟩
  have hmem : 386 * 4096 ∈ c₂.carved := hperm.mem_iff.mp (by simp [hlive])
  exact hbroken (hheaders _ hmem).1

end NeverMind.Kheap
