import NeverMind.Library.Tally
import NeverMind.Model.Fd

/-! # Reference counts of descriptor objects

`Counted refs` says that the tables of `fd.c` account for `refs i` references to each
object `i`. Taking a reference adds one to `refs` and giving it up takes one away. -/

namespace NeverMind

open Function Nat Finset

@[simp] theorem fdIndex_eq_some {fd : ℤ} {i : Fin 32} : fdIndex fd = some i ↔ fd = (i.val : ℤ) := by
  unfold fdIndex
  split
  · rw [Option.some.injEq, Fin.ext_iff]
    dsimp only
    omega
  · simp only [reduceCtorEq, false_iff]
    omega

@[simp] theorem fdobjIndex_eq_some {id : ℤ} {i : Fin 128} :
    fdobjIndex id = some i ↔ id = (i.val : ℤ) := by
  unfold fdobjIndex
  split
  · rw [Option.some.injEq, Fin.ext_iff]
    dsimp only
    omega
  · simp only [reduceCtorEq, false_iff]
    omega

@[simp] theorem pipeIndex_eq_some {id : ℤ} {k : Fin 16} :
    pipeIndex id = some k ↔ id = (k.val : ℤ) := by
  unfold pipeIndex
  split
  · rw [Option.some.injEq, Fin.ext_iff]
    dsimp only
    omega
  · simp only [reduceCtorEq, false_iff]
    omega

/-- Whether an object is an end of a pipe, as a number. -/
def Fdobj.ends (obj : Fdobj) (kind : FdobjKind) (k : Fin 16) : ℕ :=
  if obj.kind = kind ∧ obj.pipeId = (k.val : ℤ) then 1 else 0

namespace FdLayer

variable {F : Type*} {L L' : FdLayer F} {refs : Fin 128 → ℕ}

@[simp] theorem fdobjTable_setPipe (k : Fin 16) (pipe : Pipe) (L : FdLayer F) :
    (L.setPipe k pipe).fdobjTable = L.fdobjTable :=
  rfl

@[simp] theorem pipeTable_setPipe (k : Fin 16) (pipe : Pipe) (L : FdLayer F) :
    (L.setPipe k pipe).pipeTable = update L.pipeTable k pipe :=
  rfl

@[simp] theorem fdobjTable_setFdobj (i : Fin 128) (obj : Fdobj) (L : FdLayer F) :
    (L.setFdobj i obj).fdobjTable = update L.fdobjTable i obj :=
  rfl

@[simp] theorem pipeTable_setFdobj (i : Fin 128) (obj : Fdobj) (L : FdLayer F) :
    (L.setFdobj i obj).pipeTable = L.pipeTable :=
  rfl

def endRefs (kind : FdobjKind) (k : Fin 16) (L : FdLayer F) : ℕ :=
  ∑ i with (L.fdobjTable i).kind = kind ∧ (L.fdobjTable i).pipeId = (k.val : ℤ),
    (L.fdobjTable i).refcnt

theorem endRefs_eq (kind : FdobjKind) (k : Fin 16) (L : FdLayer F) :
    L.endRefs kind k = ∑ i, (L.fdobjTable i).refcnt * (L.fdobjTable i).ends kind k := by
  simp only [endRefs, Fdobj.ends, sum_filter, mul_ite, mul_one, mul_zero]

/-- Every object of the tables has the references `refs` and every pipe is accounted for. -/
structure Counted (refs : Fin 128 → ℕ) (L : FdLayer F) : Prop where
  used_iff : ∀ i, (L.fdobjTable i).used = true ↔ 0 < refs i
  refcnt_eq : ∀ i, (L.fdobjTable i).refcnt = refs i
  readers_eq : ∀ k, (L.pipeTable k).readers = L.endRefs .pipeR k
  writers_eq : ∀ k, (L.pipeTable k).writers = L.endRefs .pipeW k
  pipe_used : ∀ k,
    (L.pipeTable k).used = true ↔ 0 < (L.pipeTable k).readers + (L.pipeTable k).writers

theorem Counted.refs_eq_zero {refs : Fin 128 → ℕ} {L : FdLayer F} (hc : Counted refs L)
    {i : Fin 128} (hfree : (L.fdobjTable i).used = false) : refs i = 0 := by
  by_contra hpos
  have hused := (hc.used_iff i).mpr (pos_of_ne_zero hpos)
  rw [hfree] at hused
  cases hused

theorem Counted.ends_eq_zero {refs : Fin 128 → ℕ} {L : FdLayer F} (hc : Counted refs L)
    {k : Fin 16} (hfree : (L.pipeTable k).used = false) :
    (L.pipeTable k).readers = 0 ∧ (L.pipeTable k).writers = 0 := by
  have hnone : ¬ 0 < (L.pipeTable k).readers + (L.pipeTable k).writers := by
    rw [← hc.pipe_used, hfree]
    decide
  omega

theorem endRefs_setFdobj (kind : FdobjKind) (k : Fin 16) (i : Fin 128) (obj : Fdobj)
    (L : FdLayer F) :
    (L.setFdobj i obj).endRefs kind k + (L.fdobjTable i).refcnt * (L.fdobjTable i).ends kind k =
      L.endRefs kind k + obj.refcnt * obj.ends kind k := by
  have htrade := Tally.sum_update_add (fun o : Fdobj => o.refcnt * o.ends kind k) L.fdobjTable i obj
  rw [endRefs_eq, endRefs_eq, fdobjTable_setFdobj]
  exact htrade

theorem share_le_endRefs (kind : FdobjKind) (k : Fin 16) (i : Fin 128) (L : FdLayer F) :
    (L.fdobjTable i).refcnt * (L.fdobjTable i).ends kind k ≤ L.endRefs kind k := by
  rw [endRefs_eq]
  exact single_le_sum
    (f := fun j => (L.fdobjTable j).refcnt * (L.fdobjTable j).ends kind k)
    (fun _ _ => zero_le _) (mem_univ i)

theorem Counted.endRefs_le (h : Counted refs L) (kind : FdobjKind) (k : Fin 16) :
    L.endRefs kind k ≤ ∑ i, refs i := by
  rw [endRefs_eq]
  refine sum_le_sum fun i _ => ?_
  rw [h.refcnt_eq i, Fdobj.ends]
  split <;> simp

theorem Counted.pipe_used_of_end (h : Counted refs L) {i : Fin 128} (hi : 0 < refs i) {k : Fin 16}
    (hend : 0 < (L.fdobjTable i).ends .pipeR k + (L.fdobjTable i).ends .pipeW k) :
    (L.pipeTable k).used = true := by
  rw [h.pipe_used, h.readers_eq, h.writers_eq]
  have hr := share_le_endRefs .pipeR k i L
  have hw := share_le_endRefs .pipeW k i L
  rw [h.refcnt_eq i] at hr hw
  have hpos : 0 < refs i * (L.fdobjTable i).ends .pipeR k +
      refs i * (L.fdobjTable i).ends .pipeW k := by
    rw [← mul_add]
    exact mul_pos hi hend
  omega

/-! ## Ends of pipes -/

/-- An object that is no end of `k` has an identifier of another pipe or another kind. -/
theorem ends_eq_zero_of_pipeIndex {obj : Fdobj} (h : pipeIndex obj.pipeId = none)
    (kind : FdobjKind) (k : Fin 16) : obj.ends kind k = 0 := by
  rw [Fdobj.ends, if_neg]
  intro hend
  have hsome : pipeIndex obj.pipeId = some k := pipeIndex_eq_some.mpr hend.2
  rw [h] at hsome
  exact absurd hsome.symm (Option.some_ne_none k)

theorem ends_eq_of_pipeIndex {obj : Fdobj} {k : Fin 16} (h : pipeIndex obj.pipeId = some k)
    (kind : FdobjKind) (j : Fin 16) :
    obj.ends kind j = if obj.kind = kind ∧ j = k then 1 else 0 := by
  rw [pipeIndex_eq_some] at h
  rw [Fdobj.ends, h]
  by_cases hj : j = k
  · simp [hj]
  · have hne : ¬ ((k.val : ℤ) = (j.val : ℤ)) := by
      intro he
      exact hj (Fin.ext (by omega))
    simp [hj, hne]

@[simp] theorem fdobjTable_pipeOnEndpointAcquire (kind : FdobjKind) (id : ℤ) (L : FdLayer F) :
    (L.pipeOnEndpointAcquire kind id).fdobjTable = L.fdobjTable := by
  unfold pipeOnEndpointAcquire
  split
  · rfl
  · dsimp only
    split
    · rfl
    · split <;> rfl

@[simp] theorem fdobjTable_pipeOnEndpointRelease (kind : FdobjKind) (id : ℤ) (L : FdLayer F) :
    (L.pipeOnEndpointRelease kind id).fdobjTable = L.fdobjTable := by
  unfold pipeOnEndpointRelease
  split
  · rfl
  · dsimp only
    split
    · rfl
    · split <;> rfl

theorem pipeTable_pipeOnEndpointAcquire {obj : Fdobj}
    (hused : ∀ k, 0 < obj.ends .pipeR k + obj.ends .pipeW k → (L.pipeTable k).used = true)
    (hr : ∀ k, (L.pipeTable k).readers + 1 < 2 ^ 32)
    (hw : ∀ k, (L.pipeTable k).writers + 1 < 2 ^ 32) (k : Fin 16) :
    (L.pipeOnEndpointAcquire obj.kind obj.pipeId).pipeTable k = { L.pipeTable k with
        readers := (L.pipeTable k).readers + obj.ends .pipeR k
        writers := (L.pipeTable k).writers + obj.ends .pipeW k } := by
  unfold pipeOnEndpointAcquire
  split
  · next hnone => simp [ends_eq_zero_of_pipeIndex hnone]
  · rename_i j hj
    have hends := ends_eq_of_pipeIndex hj
    have hused' := hused j
    simp only [hends, and_true] at hused' ⊢
    cases hkind : obj.kind with
    | none => simp
    | fs => simp
    | pipeR =>
      simp only [hkind] at hused'
      have hu := hused' (by decide)
      by_cases hk : k = j
      · subst hk
        simp [hu, u32_of_lt (hr k)]
      · simp [hu, hk]
    | pipeW =>
      simp only [hkind] at hused'
      have hu := hused' (by decide)
      by_cases hk : k = j
      · subst hk
        simp [hu, u32_of_lt (hw k)]
      · simp [hu, hk]

theorem dropEnd_eq {obj : Fdobj} {k : Fin 16} (h : pipeIndex obj.pipeId = some k) (pipe : Pipe) :
    dropEnd obj.kind pipe = { pipe with
        readers := pipe.readers - obj.ends .pipeR k
        writers := pipe.writers - obj.ends .pipeW k } := by
  have hends := ends_eq_of_pipeIndex h
  simp only [hends, and_true]
  unfold dropEnd
  cases obj.kind with
  | none => simp
  | fs => simp
  | pipeR =>
    by_cases hpos : pipe.readers > 0
    · simp [hpos]
    · obtain ⟨used, buf, readPos, writePos, readers, writers⟩ := pipe
      have hzero : readers = 0 := Nat.eq_zero_of_not_pos hpos
      simp [hzero]
  | pipeW =>
    by_cases hpos : pipe.writers > 0
    · simp [hpos]
    · obtain ⟨used, buf, readPos, writePos, readers, writers⟩ := pipe
      have hzero : writers = 0 := Nat.eq_zero_of_not_pos hpos
      simp [hzero]

theorem pipeTable_pipeOnEndpointRelease_of_ne {kind : FdobjKind} {id : ℤ} {k : Fin 16}
    (hne : id ≠ (k.val : ℤ)) : (L.pipeOnEndpointRelease kind id).pipeTable k = L.pipeTable k := by
  unfold pipeOnEndpointRelease
  split
  · rfl
  · rename_i j hj
    have hk : k ≠ j := by
      rintro rfl
      exact hne (pipeIndex_eq_some.mp hj)
    dsimp only
    split
    · rfl
    · split <;> simp [hk]

/-- Releasing an end takes one from the counter of this end, and the pipe is in use while a
counter is left. -/
theorem counts_pipeOnEndpointRelease (obj : Fdobj) (hused : ∀ k, (L.pipeTable k).used = true ↔
      0 < (L.pipeTable k).readers + (L.pipeTable k).writers) (k : Fin 16) :
    ((L.pipeOnEndpointRelease obj.kind obj.pipeId).pipeTable k).readers =
        (L.pipeTable k).readers - obj.ends .pipeR k ∧
      ((L.pipeOnEndpointRelease obj.kind obj.pipeId).pipeTable k).writers =
        (L.pipeTable k).writers - obj.ends .pipeW k ∧
      (((L.pipeOnEndpointRelease obj.kind obj.pipeId).pipeTable k).used = true ↔
        0 < (L.pipeTable k).readers - obj.ends .pipeR k +
          ((L.pipeTable k).writers - obj.ends .pipeW k)) := by
  by_cases hk : obj.pipeId = (k.val : ℤ)
  · have hindex : pipeIndex obj.pipeId = some k := pipeIndex_eq_some.mpr hk
    have hiff := hused k
    unfold pipeOnEndpointRelease
    rw [hindex]
    dsimp only
    rw [dropEnd_eq hindex]
    cases hbusy : (L.pipeTable k).used with
    | false =>
      -- an unused pipe has no counts to take from
      rw [hbusy] at hiff
      have hzero : (L.pipeTable k).readers = 0 ∧ (L.pipeTable k).writers = 0 := by
        simp only [Bool.false_eq_true, false_iff] at hiff
        omega
      simp [hzero, hbusy]
    | true =>
      simp only [Bool.not_true, Bool.false_eq_true, if_false]
      split
      · next hlast => simp [hlast]
      · rename_i hleft
        simp only [pipeTable_setPipe, update_self, true_and, true_iff]
        omega
  · have hends : ∀ kind, obj.ends kind k = 0 := by
      intro kind
      rw [Fdobj.ends, if_neg fun hend => hk hend.2]
    rw [pipeTable_pipeOnEndpointRelease_of_ne hk, hends, hends]
    exact ⟨rfl, rfl, hused k⟩

/-! ## Taking and giving up references -/

theorem endRefs_congr (h : L'.fdobjTable = L.fdobjTable) (kind : FdobjKind) (k : Fin 16) :
    L'.endRefs kind k = L.endRefs kind k := by
  rw [endRefs, endRefs, h]

/-- Tables whose objects and counters agree account for the same references. -/
theorem Counted.congr (h : Counted refs L)
    (hobj : ∀ i, (L'.fdobjTable i).used = (L.fdobjTable i).used ∧
      (L'.fdobjTable i).refcnt = (L.fdobjTable i).refcnt ∧
      (0 < refs i → L'.fdobjTable i = L.fdobjTable i))
    (hpipe : ∀ k, (L'.pipeTable k).used = (L.pipeTable k).used ∧
      (L'.pipeTable k).readers = (L.pipeTable k).readers ∧
      (L'.pipeTable k).writers = (L.pipeTable k).writers) : Counted refs L' := by
  have hends : ∀ kind k, L'.endRefs kind k = L.endRefs kind k := by
    intro kind k
    rw [endRefs_eq, endRefs_eq]
    refine sum_congr rfl fun i _ => ?_
    by_cases hi : 0 < refs i
    · rw [(hobj i).2.2 hi]
    · have hzero : (L.fdobjTable i).refcnt = 0 := by
        rw [h.refcnt_eq]
        omega
      rw [(hobj i).2.1, hzero, Nat.zero_mul, Nat.zero_mul]
  constructor
  · intro i
    rw [(hobj i).1]
    exact h.used_iff i
  · intro i
    rw [(hobj i).2.1]
    exact h.refcnt_eq i
  · intro k
    rw [(hpipe k).2.1, hends]
    exact h.readers_eq k
  · intro k
    rw [(hpipe k).2.2, hends]
    exact h.writers_eq k
  · intro k
    rw [(hpipe k).1, (hpipe k).2.1, (hpipe k).2.2]
    exact h.pipe_used k

theorem Counted.fdobjGet_eq (h : Counted refs L) {i : Fin 128} (hi : 0 < refs i) :
    L.fdobjGet i.val = some i := by
  have hindex : fdobjIndex (i.val : ℤ) = some i := fdobjIndex_eq_some.mpr rfl
  simp only [fdobjGet, hindex, (h.used_iff i).mpr hi, if_true]

/-- The tables with one more reference to an object. -/
def withRef (i : Fin 128) (L : FdLayer F) : FdLayer F :=
  (L.setFdobj i { L.fdobjTable i with refcnt := (L.fdobjTable i).refcnt + 1 }).pipeOnEndpointAcquire
    (L.fdobjTable i).kind (L.fdobjTable i).pipeId

theorem fdobjTable_withRef (i : Fin 128) (L : FdLayer F) :
    (L.withRef i).fdobjTable = update L.fdobjTable i
      { L.fdobjTable i with refcnt := (L.fdobjTable i).refcnt + 1 } := by
  simp [withRef]

theorem endRefs_withRef (i : Fin 128) (L : FdLayer F) (kind : FdobjKind) (k : Fin 16) :
    (L.withRef i).endRefs kind k = L.endRefs kind k + (L.fdobjTable i).ends kind k := by
  have htrade := endRefs_setFdobj kind k i
    { L.fdobjTable i with refcnt := (L.fdobjTable i).refcnt + 1 } L
  have hends : ({ L.fdobjTable i with refcnt := (L.fdobjTable i).refcnt + 1 } : Fdobj).ends kind k =
      (L.fdobjTable i).ends kind k := rfl
  rw [hends, Nat.succ_mul] at htrade
  rw [withRef, endRefs_congr (fdobjTable_pipeOnEndpointAcquire _ _ _)]
  omega

theorem Counted.pipeTable_withRef (h : Counted refs L) {i : Fin 128} (hi : 0 < refs i)
    (hsum : ∑ j, refs j + 1 < 2 ^ 32) (k : Fin 16) :
    (L.withRef i).pipeTable k = { L.pipeTable k with
        readers := (L.pipeTable k).readers + (L.fdobjTable i).ends .pipeR k
        writers := (L.pipeTable k).writers + (L.fdobjTable i).ends .pipeW k } := by
  refine pipeTable_pipeOnEndpointAcquire (fun j hend => ?_) (fun j => ?_) (fun j => ?_) k
  · exact h.pipe_used_of_end hi hend
  · have hr := h.endRefs_le .pipeR j
    rw [← h.readers_eq] at hr
    exact lt_of_le_of_lt (succ_le_succ hr) hsum
  · have hw := h.endRefs_le .pipeW j
    rw [← h.writers_eq] at hw
    exact lt_of_le_of_lt (succ_le_succ hw) hsum

theorem Counted.withRef (h : Counted refs L) {i : Fin 128} (hi : 0 < refs i)
    (hsum : ∑ j, refs j + 1 < 2 ^ 32) : Counted (refs + Pi.single i 1) (L.withRef i) := by
  have hpipe := h.pipeTable_withRef hi hsum
  constructor
  · intro j
    rw [fdobjTable_withRef]
    by_cases hj : j = i
    · subst hj
      have hu := (h.used_iff j).mpr hi
      simp [hu]
    · simp [hj, h.used_iff]
  · intro j
    rw [fdobjTable_withRef]
    by_cases hj : j = i
    · subst hj
      simp [h.refcnt_eq]
    · simp [hj, h.refcnt_eq]
  · intro k
    rw [hpipe, endRefs_withRef, ← h.readers_eq]
  · intro k
    rw [hpipe, endRefs_withRef, ← h.writers_eq]
  · intro k
    have hiff := h.pipe_used k
    rw [hpipe]
    dsimp only
    constructor
    · intro hbusy
      have := hiff.mp hbusy
      omega
    · intro hpos
      by_cases hend : 0 < (L.fdobjTable i).ends .pipeR k + (L.fdobjTable i).ends .pipeW k
      · exact h.pipe_used_of_end hi hend
      · exact hiff.mpr (by omega)

theorem Counted.retain (h : Counted refs L) {i : Fin 128} (hi : 0 < refs i)
    (hsum : ∑ j, refs j + 1 < 2 ^ 32) :
    ∃ L', L.fdobjRetain i.val = (0, L') ∧ Counted (refs + Pi.single i 1) L' := by
  have hle : refs i ≤ ∑ j, refs j :=
    single_le_sum (fun _ _ => zero_le _) (mem_univ i)
  have hcnt := h.refcnt_eq i
  have hnowrap : u32 ((L.fdobjTable i).refcnt + 1) = (L.fdobjTable i).refcnt + 1 :=
    u32_of_lt (by omega)
  refine ⟨L.withRef i, ?_, h.withRef hi hsum⟩
  simp only [fdobjRetain, h.fdobjGet_eq hi, hnowrap, FdLayer.withRef]

/-- An object after it lost a reference: without any left it is emptied. -/
def releasedObj (obj : Fdobj) : Fdobj :=
  if obj.refcnt - 1 > 0 then { obj with refcnt := obj.refcnt - 1 } else ⟨false, 0, .none, -1, -1⟩

theorem refcnt_releasedObj (obj : Fdobj) : (releasedObj obj).refcnt = obj.refcnt - 1 := by
  unfold releasedObj
  split
  · rfl
  · next hlast => exact (Nat.eq_zero_of_not_pos hlast).symm

theorem used_releasedObj {obj : Fdobj} (h : obj.used = true) :
    (releasedObj obj).used = true ↔ 0 < obj.refcnt - 1 := by
  unfold releasedObj
  split
  · next hmore => simp [h, hmore]
  · next hlast => simpa using hlast

theorem share_releasedObj (obj : Fdobj) (kind : FdobjKind) (k : Fin 16) :
    (releasedObj obj).refcnt * (releasedObj obj).ends kind k =
      (obj.refcnt - 1) * obj.ends kind k := by
  rw [refcnt_releasedObj]
  unfold releasedObj
  split
  · rfl
  · next hlast => rw [Nat.eq_zero_of_not_pos hlast, Nat.zero_mul, Nat.zero_mul]

theorem fdobjRelease_tables (ops : FsOps F) {i : Fin 128} (hget : L.fdobjGet i.val = some i)
    (hpos : (L.fdobjTable i).refcnt ≠ 0) :
    ∃ L', L.fdobjRelease ops i.val = (0, L') ∧
      L'.fdobjTable = update L.fdobjTable i (releasedObj (L.fdobjTable i)) ∧
      L'.pipeTable = (L.pipeOnEndpointRelease (L.fdobjTable i).kind
        (L.fdobjTable i).pipeId).pipeTable := by
  simp only [fdobjRelease, hget, hpos, if_false]
  split
  · rename_i hmore
    refine ⟨_, rfl, ?_, rfl⟩
    rw [releasedObj, if_pos hmore]
    simp
  · rename_i hlast
    refine ⟨_, rfl, ?_, ?_⟩
    · rw [releasedObj, if_neg hlast]
      split <;> simp
    · split <;> rfl

theorem Counted.release {i : Fin 128} (ops : FsOps F) (h : Counted (refs + Pi.single i 1) L) :
    ∃ L', L.fdobjRelease ops i.val = (0, L') ∧ Counted refs L' := by
  have hcnt : (L.fdobjTable i).refcnt = refs i + 1 := by simp [h.refcnt_eq]
  have hi : 0 < (refs + Pi.single i 1 : Fin 128 → ℕ) i := by simp
  obtain ⟨L', hrun, hobjs, hpipes⟩ := fdobjRelease_tables ops (h.fdobjGet_eq hi)
    (by omega : (L.fdobjTable i).refcnt ≠ 0)
  have hends : ∀ kind k, L'.endRefs kind k + (L.fdobjTable i).ends kind k = L.endRefs kind k := by
    intro kind k
    have htrade := endRefs_setFdobj kind k i (releasedObj (L.fdobjTable i)) L
    rw [endRefs_congr (L := L') (hobjs.symm ▸ rfl), share_releasedObj, hcnt,
      Nat.add_sub_cancel, Nat.succ_mul] at htrade
    omega
  have hcounts := counts_pipeOnEndpointRelease (L.fdobjTable i) h.pipe_used
  rw [← hpipes] at hcounts
  refine ⟨L', hrun, ?_⟩
  constructor
  · intro j
    rw [hobjs]
    by_cases hj : j = i
    · subst hj
      rw [update_self, used_releasedObj ((h.used_iff j).mpr hi), hcnt]
      simp
    · rw [update_of_ne hj, h.used_iff]
      simp [hj]
  · intro j
    rw [hobjs]
    by_cases hj : j = i
    · subst hj
      rw [update_self, refcnt_releasedObj, hcnt, Nat.add_sub_cancel]
    · rw [update_of_ne hj, h.refcnt_eq]
      simp [hj]
  · intro k
    have hk := hends .pipeR k
    rw [(hcounts k).1, h.readers_eq]
    omega
  · intro k
    have hk := hends .pipeW k
    rw [(hcounts k).2.1, h.writers_eq]
    omega
  · intro k
    rw [(hcounts k).1, (hcounts k).2.1]
    exact (hcounts k).2.2

end FdLayer

end NeverMind
