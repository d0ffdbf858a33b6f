import NeverMind.Verification.Kheap.Extent

/-! # Alignment

The header of a new run is at the start of a frame. What is left of the run gets a header right
behind the bytes requested, without rounding, so that its alignment is that of the request. -/

namespace NeverMind.Kheap

open List

variable {s : Kheap} {used : List (Block × ℕ)} {free : List Block} {wanted fuel addr h : ℕ}
  {c c' : Client}

def OnFreeList (s : Kheap) (h : ℕ) : Prop := ∃ l, Chain s.link (ptr s.freeList) l ∧ h ∈ l

/-- The headers on the free list and the pointers in use are multiples of 8, the alignment of
`struct kmalloc_header`. -/
structure Aligned (c : Client) : Prop where
  listed : ∀ h, OnFreeList c.heap h → 8 ∣ h
  live : ∀ u ∈ c.live, 8 ∣ u.1

theorem Describes.onFreeList_iff (hc : Describes c used free) :
    OnFreeList c.heap h ↔ h ∈ free.map Block.hdr := by
  constructor
  · rintro ⟨l, hchain, hmem⟩
    rwa [hchain.unique hc.layout.chain] at hmem
  · intro hmem
    exact ⟨_, hc.layout.chain, hmem⟩

theorem Describes.aligned_iff (hc : Describes c used free) : Aligned c ↔ ∀ h ∈ c.carved, 8 ∣ h := by
  constructor
  · intro haligned h hcarved
    rw [← hc.carved.mem_iff, map_append, mem_append] at hcarved
    rcases hcarved with hused | hfree
    · obtain ⟨b, hb, rfl⟩ := mem_map.mp hused
      obtain ⟨u, hu, rfl⟩ := mem_map.mp hb
      have hlive : pointer u ∈ c.live := hc.live ▸ mem_map_of_mem hu
      have hdvd : 8 ∣ u.1.hdr + 16 := haligned.live _ hlive
      omega
    · exact haligned.listed h (hc.onFreeList_iff.mpr hfree)
  · intro hcarved
    have hblock : ∀ b ∈ used.map Prod.fst ++ free, 8 ∣ b.hdr := by
      intro b hb
      exact hcarved _ (hc.carved.mem_iff.mp (mem_map_of_mem hb))
    constructor
    · intro h hlisted
      obtain ⟨b, hb, rfl⟩ := mem_map.mp (hc.onFreeList_iff.mp hlisted)
      exact hblock b (mem_append_right _ hb)
    · intro u hu
      rw [hc.live] at hu
      obtain ⟨v, hv, rfl⟩ := mem_map.mp hu
      have hdvd := hblock v.1 (mem_append_left _ (mem_map_of_mem hv))
      unfold pointer
      omega

/-! ## Requests that split a run -/

/-- A request finds no block on the free list that is large enough, the allocator of frames has a
run for it, and more than a header and 32 bytes of the run are left. -/
structure SplitsRun (s : Kheap) (wanted : ℕ) : Prop where
  unserved : ∀ h, OnFreeList s h → s.size h < wanted
  found : ∃ f, s.pmm.FreeRun (pagesFor wanted) f
  rest : splits (pagesFor wanted) wanted = true

theorem splits_pagesFor_pos (h : splits (pagesFor wanted) wanted = true) : 1 ≤ pagesFor wanted := by
  by_contra hzero
  have hpages : pagesFor wanted = 0 := by omega
  have hsize : runSize 0 < 2 ^ 32 := runSize_lt 0
  rw [hpages, splits_iff] at h
  unfold pagesFor u64 kmallocHeaderSize pageSize at hpages
  omega

variable {heap : Kheap}

theorem Describes.splitsRun_iff (hc : Describes c used free) (hpos : wanted ≠ 0)
    (hk : c.heap.kmalloc fuel wanted = some (addr, heap)) :
    SplitsRun c.heap wanted ↔
      ∃ r, obtained fuel wanted c.heap = some r ∧ splits r.pages wanted = true := by
  have hsearch := hc.layout.runs_ok.sound.completeSearch_pmmAllocPages (pagesFor wanted)
  rcases kmalloc_cases hk with ⟨hzero, -⟩ | ⟨prev, cur, hscan, hobtained, -⟩ |
    ⟨hscan, hobtained, -⟩
  · exact absurd hzero hpos
  · -- a block of the list serves the request
    rw [hobtained]
    refine iff_of_false (fun hsplit => ?_) (by simp)
    have hlisted : OnFreeList c.heap cur := by
      refine ⟨_, hc.layout.chain, ?_⟩
      cases hc.layout.scan_spec hscan with
      | head hl hsize => simp [hl]
      | after front back a cur hl hsize => simp [hl]
    exact absurd (scan_found hscan) (Nat.not_le.mpr (hsplit.unserved cur hlisted))
  · rw [hobtained, runOf]
    have hsmall : ∀ h, OnFreeList c.heap h → c.heap.size h < wanted := by
      intro h hlisted
      cases hc.layout.scan_spec hscan with
      | absent hsmall => exact hsmall h (hc.onFreeList_iff.mp hlisted)
    constructor
    · intro hsplit
      have hret := hsearch.found_iff.mpr ⟨splits_pagesFor_pos hsplit.rest, hsplit.found⟩
      exact ⟨_, if_neg hret, hsplit.rest⟩
    · rintro ⟨r, hr, hrest⟩
      split at hr
      · cases hr
      · rename_i hret
        cases hr
        exact ⟨hsmall, (hsearch.found_iff.mp hret).2, hrest⟩

/-- The headers of a run are aligned unless a request that is not a multiple of 8 splits it. -/
theorem headers_aligned_iff {r : Run} :
    (∀ h ∈ headers wanted r, 8 ∣ h) ↔ (splits r.pages wanted = true → 8 ∣ wanted) := by
  unfold headers
  split
  · rename_i hsplits
    simp only [mem_cons, not_mem_nil, or_false, forall_eq_or_imp, forall_eq, hsplits, forall_const]
    omega
  · rename_i hsplits
    simp only [mem_cons, not_mem_nil, or_false, forall_eq]
    refine iff_of_true (by omega) fun hyes => absurd hyes hsplits

/-! ## Runs -/

def Client.allocated (c : Client) (fuel wanted addr : ℕ) (heap : Kheap) : Client where
  heap := heap
  live := if addr = 0 then c.live else (addr, granted wanted) :: c.live
  carved := (obtained fuel wanted c.heap).elim [] (headers wanted) ++ c.carved
  runs := (obtained fuel wanted c.heap).toList ++ c.runs

/-- If the step is an allocation that splits a run, its size is a multiple of 8. -/
def Careful (c c' : Client) : Prop :=
  ∀ fuel wanted addr heap, c.heap.kmalloc fuel wanted = some (addr, heap) →
    c' = c.allocated fuel wanted addr heap → SplitsRun c.heap wanted → 8 ∣ wanted

theorem carved_allocated (c : Client) (fuel wanted addr : ℕ) (heap : Kheap) :
    (c.allocated fuel wanted addr heap).carved =
      (obtained fuel wanted c.heap).elim [] (headers wanted) ++ c.carved := rfl

theorem Describes.carved_obtained_iff (hc : Describes c used free)
    (hk : c.heap.kmalloc fuel wanted = some (addr, heap)) :
    (∀ h ∈ (obtained fuel wanted c.heap).elim [] (headers wanted), 8 ∣ h) ↔
      (SplitsRun c.heap wanted → 8 ∣ wanted) := by
  by_cases hpos : wanted = 0
  · have hnone : obtained fuel wanted c.heap = none := by rw [obtained, if_pos hpos]
    rw [hnone, Option.elim_none]
    exact iff_of_true (by simp) fun _ => hpos ▸ dvd_zero 8
  · rw [hc.splitsRun_iff hpos hk]
    cases hrun : obtained fuel wanted c.heap with
    | none => simp
    | some r =>
      rw [Option.elim_some, headers_aligned_iff]
      simp only [Option.some.injEq, exists_eq_left']

theorem Describes.carved_allocated_iff (hc : Describes c used free)
    (hk : c.heap.kmalloc fuel wanted = some (addr, heap)) :
    (∀ h ∈ (c.allocated fuel wanted addr heap).carved, 8 ∣ h) ↔
      (∀ h ∈ c.carved, 8 ∣ h) ∧ (SplitsRun c.heap wanted → 8 ∣ wanted) := by
  rw [← hc.carved_obtained_iff hk, carved_allocated, forall_mem_append, and_comm]

/-- A step leads to an aligned heap exactly if it starts from one and is careful. -/
theorem Describes.aligned_use_iff (hc : Describes c used free) (huse : Use c c') :
    Aligned c' ↔ Aligned c ∧ Careful c c' := by
  obtain ⟨used', free', hc'⟩ := hc.use huse
  rw [hc.aligned_iff, hc'.aligned_iff]
  constructor
  · intro haligned
    refine ⟨?_, fun fuel wanted addr heap hk heq => ?_⟩
    · cases huse with
      | kmalloc fuel wanted addr heap hword hk => exact ((hc.carved_allocated_iff hk).mp haligned).1
      | kfree => exact haligned
      | write => exact haligned
    · rw [heq] at haligned
      exact ((hc.carved_allocated_iff hk).mp haligned).2
  · rintro ⟨haligned, hcareful⟩
    cases huse with
    | kmalloc fuel wanted addr heap hword hk =>
      exact (hc.carved_allocated_iff hk).mpr ⟨haligned, hcareful fuel wanted addr heap hk rfl⟩
    | kfree => exact haligned
    | write => exact haligned

theorem Describes.aligned_run_iff {path : List Client} (hc : Describes c used free)
    (haligned : Aligned c) (hrun : (c :: path).IsChain Use) :
    (∀ d ∈ path, Aligned d) ↔ (c :: path).IsChain Careful := by
  induction path generalizing c used free with
  | nil => simp
  | cons d path ih =>
    obtain ⟨huse, hrest⟩ := isChain_cons_cons.mp hrun
    obtain ⟨used', free', hd⟩ := hc.use huse
    have hstep := hc.aligned_use_iff huse
    rw [forall_mem_cons, isChain_cons_cons, hstep]
    constructor
    · rintro ⟨⟨-, hcareful⟩, hall⟩
      exact ⟨hcareful, (ih hd (hstep.mpr ⟨haligned, hcareful⟩) hrest).mp hall⟩
    · rintro ⟨hcareful, hall⟩
      exact ⟨⟨haligned, hcareful⟩, (ih hd (hstep.mpr ⟨haligned, hcareful⟩) hrest).mpr hall⟩

/-- All headers on the free list and all pointers in use stay aligned along a run exactly if each
allocation that splits a run of frames is for a multiple of 8 bytes. -/
theorem heap_aligned_iff {p : Pmm} (hp : Pmm.Sound p) (mem : ℕ → BitVec 8) {path : List Client}
    (hrun : (Client.atStart mem p :: path).IsChain Use) :
    (∀ c ∈ path, Aligned c) ↔ (Client.atStart mem p :: path).IsChain Careful := by
  have hstart := Describes.atStart hp mem
  exact hstart.aligned_run_iff (hstart.aligned_iff.mpr (by simp [Client.atStart])) hrun

theorem careful_of_dvd (haddr : addr ≠ 0) (hdvd : 8 ∣ granted wanted) :
    Careful c (c.allocated fuel wanted addr heap) := by
  intro fuel' wanted' addr' heap' hk heq hsplit
  have hlive := congrArg Client.live heq
  simp only [Client.allocated, if_neg haddr] at hlive
  split at hlive
  · have hlength := congrArg length hlive
    simp at hlength
  · have hgranted : granted wanted = granted wanted' := (Prod.mk.inj (cons.inj hlive).1).2
    have hsize := splits_iff.mp hsplit.rest
    have hlt := runSize_lt (pagesFor wanted')
    rwa [hgranted, granted, if_pos (by omega)] at hdvd

def twoFramesClient : Client := Client.atStart (fun _ => 0) twoFrames

theorem heap_aligned_twoFrames :
    ∃ c, [twoFramesClient, c].IsChain Use ∧ [twoFramesClient, c].IsChain Careful ∧
      c.live = [(385 * 4096 + 16, 104)] ∧ Aligned c := by
  have hptr : (twoFramesHeap.allocated 104).1 = 385 * 4096 + 16 := by decide +kernel
  have hk : twoFramesHeap.kmalloc 1 104 =
      some (385 * 4096 + 16, (twoFramesHeap.allocated 104).2) := by
    rw [kmalloc_eq_allocated (by decide +kernel), ← hptr]
  have huse : [twoFramesClient, _].IsChain Use :=
    isChain_pair.mpr (.kmalloc twoFramesClient 1 104 _ _ (by decide) hk)
  have hcareful : [twoFramesClient, twoFramesClient.allocated 1 104 (385 * 4096 + 16)
      (twoFramesHeap.allocated 104).2].IsChain Careful :=
    isChain_pair.mpr (careful_of_dvd (by decide) (by decide))
  have haligned := (heap_aligned_iff sound_twoFrames (fun _ => 0) huse).mpr hcareful
  exact ⟨_, huse, hcareful, rfl, haligned _ (by simp)⟩

/-- A request of 100 bytes leaves a header at `385 * 4096 + 116` on the free list, and the next
small request is answered with the pointer behind it. -/
theorem odd_request_misaligns :
    ∃ c d, [twoFramesClient, c, d].IsChain Use ∧ OnFreeList c.heap (385 * 4096 + 116) ∧
      d.live = [(385 * 4096 + 132, 50), (385 * 4096 + 16, 100)] ∧ ¬ Aligned c ∧ ¬ Aligned d := by
  obtain ⟨s₁, hs₁⟩ : ∃ s, s = (twoFramesHeap.allocated 100).2 := ⟨_, rfl⟩
  obtain ⟨s₂, hs₂⟩ : ∃ s, s = (s₁.allocated 50).2 := ⟨_, rfl⟩
  have hk₁ : twoFramesHeap.kmalloc 1 100 = some (385 * 4096 + 16, s₁) := by
    have hptr : (twoFramesHeap.allocated 100).1 = 385 * 4096 + 16 := by decide +kernel
    rw [kmalloc_eq_allocated (by decide +kernel), hs₁, ← hptr]
  have hk₂ : s₁.kmalloc 1 50 = some (385 * 4096 + 132, s₂) := by
    have hptr : (s₁.allocated 50).1 = 385 * 4096 + 132 := by
      rw [hs₁]
      decide +kernel
    rw [kmalloc_eq_allocated (by rw [hs₁]; decide +kernel), hs₂, ← hptr]
  have hlisted : OnFreeList s₁ (385 * 4096 + 116) := by
    have hhead : s₁.freeList = 385 * 4096 + 116 := by
      rw [hs₁]
      decide +kernel
    have hnext : s₁.next (385 * 4096 + 116) = 0 := by
      rw [hs₁]
      decide +kernel
    refine ⟨[385 * 4096 + 116], ?_, mem_singleton_self _⟩
    rw [Chain.cons_iff, Chain.nil_iff, hhead, link_eq, hnext]
    exact ⟨rfl, rfl⟩
  have huse₁ : Use twoFramesClient (twoFramesClient.allocated 1 100 (385 * 4096 + 16) s₁) :=
    .kmalloc twoFramesClient 1 100 _ _ (by decide) hk₁
  have huse₂ := Use.kmalloc (twoFramesClient.allocated 1 100 (385 * 4096 + 16) s₁) 1 50 _ _
    (by decide) hk₂
  refine ⟨_, _, isChain_cons_cons.mpr ⟨huse₁, isChain_pair.mpr huse₂⟩, hlisted, rfl,
    fun haligned => ?_, fun haligned => ?_⟩
  · exact absurd (haligned.listed _ hlisted) (by decide)
  · exact absurd (haligned.live (385 * 4096 + 132, 50) mem_cons_self) (by decide)

end NeverMind.Kheap
