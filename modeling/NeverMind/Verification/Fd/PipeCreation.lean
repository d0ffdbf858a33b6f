import NeverMind.Verification.Fd.Calls

/-! # Creating a pipe

`nm_fd_pipe` either installs two ends of an empty pipe or leaves the books as they were,
also when it fails after the first end was made. -/

namespace NeverMind

open Function List NeverMind.Task

theorem allocTaskFd_free {task : Task} {fd : Fin 32} (h : allocTaskFd task = some fd) :
    task.fdTable fd = -1 := by
  have hfound := find?_some h
  simpa using hfound

theorem allocTaskFd_none {task : Task} (h : allocTaskFd task = none) (fd : Fin 32) :
    task.fdTable fd ≠ -1 := by
  have hnone := find?_eq_none.mp h fd (mem_finRange fd)
  simpa using hnone

namespace FdLayer

variable {F : Type*} (ops : FsOps F) {L L' : FdLayer F} {task : Task} {others : Fin 128 → ℕ}

def endObj (kind : FdobjKind) (k : Fin 16) : Fdobj := ⟨true, 1, kind, -1, k.val⟩

theorem createPipeEndpointObj_spec (kind : FdobjKind) (k : Fin 16) (L : FdLayer F) :
    (L.createPipeEndpointObj kind k.val = (none, L) ∧ ∀ i, (L.fdobjTable i).used = true) ∨
      ∃ i, (L.fdobjTable i).used = false ∧
        L.createPipeEndpointObj kind k.val = (some i, L.setFdobj i (endObj kind k)) := by
  unfold createPipeEndpointObj allocFdobj
  cases hfind : (finRange 128).find? fun i => !(L.fdobjTable i).used with
  | none =>
    refine .inl ⟨rfl, fun i => ?_⟩
    simpa using find?_eq_none.mp hfind i (mem_finRange i)
  | some i =>
    have hfree := find?_some hfind
    refine .inr ⟨i, by simpa using hfree, ?_⟩
    simp [setFdobj, endObj]

theorem createEnds_cases (k : Fin 16) (L : FdLayer F) :
    (L.createPipeEndpointObj .pipeR k.val = (none, L) ∧ ∀ i, (L.fdobjTable i).used = true) ∨
      ∃ i, (L.fdobjTable i).used = false ∧
        L.createPipeEndpointObj .pipeR k.val = (some i, L.setFdobj i (endObj .pipeR k)) ∧
        (((L.setFdobj i (endObj .pipeR k)).createPipeEndpointObj .pipeW k.val =
            (none, L.setFdobj i (endObj .pipeR k)) ∧
            ∀ j, (L.fdobjTable j).used = false → j = i) ∨
          ∃ j, (L.fdobjTable j).used = false ∧ j ≠ i ∧
            (L.setFdobj i (endObj .pipeR k)).createPipeEndpointObj .pipeW k.val =
              (some j, (L.setFdobj i (endObj .pipeR k)).setFdobj j (endObj .pipeW k))) := by
  obtain hnone | ⟨i, hi, hread⟩ := createPipeEndpointObj_spec .pipeR k L
  · exact .inl hnone
  · refine .inr ⟨i, hi, hread, ?_⟩
    obtain ⟨hnone, hall⟩ | ⟨j, hj, hwrite⟩ :=
      createPipeEndpointObj_spec .pipeW k (L.setFdobj i (endObj .pipeR k))
    · refine .inl ⟨hnone, fun j hj => ?_⟩
      by_contra hji
      have hused := hall j
      rw [fdobjTable_setFdobj, update_of_ne hji, hj] at hused
      cases hused
    · have hji : j ≠ i := by
        rintro rfl
        simp [endObj] at hj
      rw [fdobjTable_setFdobj, update_of_ne hji] at hj
      exact .inr ⟨j, hj, hji, hwrite⟩

/-- The pipe that a call opens: empty, with one end of each kind. -/
def openedPipe (pipe : Pipe) : Pipe :=
  { pipe with used := true, readPos := 0, writePos := 0, readers := 1, writers := 1 }

/-- Nothing that is in use changed, and nothing new is in use. -/
structure NothingMade (L L' : FdLayer F) : Prop where
  obj_used : ∀ i, (L.fdobjTable i).used = true → L'.fdobjTable i = L.fdobjTable i
  obj_free : ∀ i, (L.fdobjTable i).used = false → (L'.fdobjTable i).used = false ∧
    ((L'.fdobjTable i).refcnt = 0 ∨ L'.fdobjTable i = L.fdobjTable i)
  pipe_used : ∀ k, (L.pipeTable k).used = true → L'.pipeTable k = L.pipeTable k
  pipe_free : ∀ k, (L.pipeTable k).used = false → (L'.pipeTable k).used = false ∧
    ((L'.pipeTable k).readers = 0 ∧ (L'.pipeTable k).writers = 0 ∨ L'.pipeTable k = L.pipeTable k)

theorem NothingMade.refl (L : FdLayer F) : NothingMade L L :=
  ⟨fun _ _ => rfl, fun _ hfree => ⟨hfree, .inr rfl⟩, fun _ _ => rfl,
    fun _ hfree => ⟨hfree, .inr rfl⟩⟩

/-- Two objects and a pipe that were free are in use, behind two free descriptors. -/
structure PipeMade (task : Task) (L : FdLayer F) (k : Fin 16) (rd wr : Fin 32) (task' : Task)
    (L' : FdLayer F) : Prop where
  pipe_free : (L.pipeTable k).used = false
  rd_free : task.fdTable rd = -1
  wr_free : task.fdTable wr = -1
  fds_ne : wr ≠ rd
  made : ∃ i j : Fin 128, (L.fdobjTable i).used = false ∧ (L.fdobjTable j).used = false ∧ j ≠ i ∧
    task' = (task.setFd rd i.val).setFd wr j.val ∧
    L' = ((L.setPipe k (openedPipe (L.pipeTable k))).setFdobj i (endObj .pipeR k)).setFdobj j
      (endObj .pipeW k)

variable {k : Fin 16}

theorem nothingMade_clearPipe (hfree : (L.pipeTable k).used = false)
    (hobj : ∀ i, (L.fdobjTable i).used = true → L'.fdobjTable i = L.fdobjTable i)
    (hobj' : ∀ i, (L.fdobjTable i).used = false → (L'.fdobjTable i).used = false ∧
      ((L'.fdobjTable i).refcnt = 0 ∨ L'.fdobjTable i = L.fdobjTable i))
    (hpipe : ∀ j, j ≠ k → L'.pipeTable j = L.pipeTable j) :
    NothingMade L
      (L'.setPipe k { L'.pipeTable k with used := false, readers := 0, writers := 0 }) := by
  refine ⟨hobj, hobj', fun j hj => ?_, fun j hj => ?_⟩
  · have hne : j ≠ k := by
      rintro rfl
      exact absurd hj (by simp [hfree])
    simp [hne, hpipe j hne]
  · by_cases hjk : j = k
    · subst hjk
      simp
    · simp [hjk, hpipe j hjk, hj]

theorem nothingMade_undoEnd {i : Fin 128} (hfree : (L.pipeTable k).used = false)
    (hi : (L.fdobjTable i).used = false) (hpipes : ∀ j, j ≠ k → L'.pipeTable j = L.pipeTable j)
    (hobjs : L'.fdobjTable = update L.fdobjTable i (endObj .pipeR k)) :
    NothingMade L ((L'.fdobjRelease ops i.val).2.setPipe k
      { (L'.fdobjRelease ops i.val).2.pipeTable k with
        used := false, readers := 0, writers := 0 }) := by
  have hobj : L'.fdobjTable i = endObj .pipeR k := by rw [hobjs, update_self]
  have hget : L'.fdobjGet i.val = some i := by
    have hindex : fdobjIndex (i.val : ℤ) = some i := fdobjIndex_eq_some.mpr rfl
    simp [fdobjGet, hindex, hobj, endObj]
  obtain ⟨L'', hrun, hobjs', hpipes'⟩ := fdobjRelease_tables ops hget
    (by simp [hobj, endObj])
  rw [hobj, hobjs, update_idem] at hobjs'
  rw [hrun]
  refine nothingMade_clearPipe hfree ?_ ?_ ?_
  · intro j hj
    have hne : j ≠ i := by
      rintro rfl
      exact absurd hj (by simp [hi])
    rw [hobjs', update_of_ne hne]
  · intro j hj
    by_cases hji : j = i
    · subst hji
      rw [hobjs', update_self]
      exact ⟨rfl, .inl rfl⟩
    · rw [hobjs', update_of_ne hji]
      exact ⟨hj, .inr rfl⟩
  · intro j hj
    have hid : (L'.fdobjTable i).pipeId ≠ (j.val : ℤ) := by
      rw [hobj]
      intro he
      exact hj (Fin.ext (by simpa [endObj] using he.symm))
    rw [hpipes', pipeTable_pipeOnEndpointRelease_of_ne hid, hpipes j hj]

/-- No free pipe, or at most one free descriptor, or at most one free object. -/
def Short (task : Task) (L : FdLayer F) : Prop :=
  (∀ k, (L.pipeTable k).used = true) ∨ (∀ a b, task.fdTable a = -1 → task.fdTable b = -1 → a = b) ∨
    ∀ i j, (L.fdobjTable i).used = false → (L.fdobjTable j).used = false → i = j

/-- From the two descriptors on, the call makes both ends or undoes what it made. -/
theorem nmFdPipe_ends {rd wr : Fin 32}
    (hk : (finRange 16).find? (fun k => !(L.pipeTable k).used) = some k)
    (hrd : allocTaskFd task = some rd) (hwr : allocTaskFd (task.setFd rd (-2)) = some wr) :
    (∃ L', L.nmFdPipe ops task = ((nmErr nmEnomem, none), task, L') ∧ NothingMade L L' ∧
      Short task L) ∨
      ∃ task' L', L.nmFdPipe ops task = ((0, some (rd, wr)), task', L') ∧
        PipeMade task L k rd wr task' L' := by
  have hfree : (L.pipeTable k).used = false := by
    have hfound := find?_some hk
    simpa using hfound
  have hrd' := allocTaskFd_free hrd
  have hrestore : (task.setFd rd (-2)).setFd rd (-1) = task := by
    rw [setFd_setFd, setFd_of_eq hrd']
  have hwr' := allocTaskFd_free hwr
  have hne : wr ≠ rd := by
    rintro rfl
    simp at hwr'
  rw [fdTable_setFd, update_of_ne hne] at hwr'
  obtain ⟨L₁, hL₁⟩ : ∃ L₁, L₁ = L.setPipe k (openedPipe (L.pipeTable k)) := ⟨_, rfl⟩
  have hopen : L.setPipe k { L.pipeTable k with
      used := true, readPos := 0, writePos := 0, readers := 1, writers := 1 } = L₁ := hL₁.symm
  have hpipes : ∀ j, j ≠ k → L₁.pipeTable j = L.pipeTable j := by
    intro j hj
    simp [hL₁, hj]
  have hobjs : L₁.fdobjTable = L.fdobjTable := by rw [hL₁, fdobjTable_setPipe]
  unfold nmFdPipe
  rw [hk, hrd]
  dsimp only
  rw [hwr, hrestore, hopen]
  obtain ⟨hnone, hall⟩ | ⟨i, hi, hread, ⟨hnone, hall⟩ | ⟨j, hj, hji, hwrite⟩⟩ :=
    createEnds_cases k L₁
  · rw [hobjs] at hall
    rw [hnone]
    refine .inl ⟨_, rfl, nothingMade_clearPipe hfree ?_ ?_ hpipes, .inr (.inr ?_)⟩
    · intro i _
      rw [hobjs]
    · intro i hi
      rw [hobjs]
      exact ⟨hi, .inr rfl⟩
    · intro i j hi
      rw [hall i] at hi
      cases hi
  · rw [hobjs] at hi hall
    rw [hread]
    dsimp only
    rw [hnone]
    refine .inl ⟨_, rfl, nothingMade_undoEnd ops hfree hi hpipes ?_, .inr (.inr ?_)⟩
    · rw [fdobjTable_setFdobj, hobjs]
    · intro a b ha hb
      rw [hall a ha, hall b hb]
  · rw [hobjs] at hi hj
    rw [hread]
    dsimp only
    rw [hwrite]
    refine .inr ⟨_, _, rfl, hfree, hrd', hwr', hne, i, j, hi, hj, hji, ?_, ?_⟩
    · rw [setFd_setFd]
    · rw [hL₁]

theorem nmFdPipe_spec (task : Task) (L : FdLayer F) :
    (∃ L', L.nmFdPipe ops task = ((nmErr nmEnomem, none), task, L') ∧ NothingMade L L' ∧
      Short task L) ∨
      ∃ k rd wr task' L', L.nmFdPipe ops task = ((0, some (rd, wr)), task', L') ∧
        PipeMade task L k rd wr task' L' := by
  cases hk : (finRange 16).find? fun k => !(L.pipeTable k).used with
  | none =>
    refine .inl ⟨L, by rw [nmFdPipe, hk], .refl L, .inl fun k => ?_⟩
    simpa using find?_eq_none.mp hk k (mem_finRange k)
  | some k =>
    cases hrd : allocTaskFd task with
    | none =>
      refine .inl ⟨L, by rw [nmFdPipe, hk, hrd], .refl L, .inr (.inl fun a b ha => ?_)⟩
      exact absurd ha (allocTaskFd_none hrd a)
    | some rd =>
      cases hwr : allocTaskFd (task.setFd rd (-2)) with
      | none =>
        have honly : ∀ a, task.fdTable a = -1 → a = rd := by
          intro a ha
          by_contra hne
          have hopen := allocTaskFd_none hwr a
          rw [fdTable_setFd, update_of_ne hne] at hopen
          exact hopen ha
        refine .inl ⟨L, ?_, .refl L, .inr (.inl fun a b ha hb => ?_)⟩
        · rw [nmFdPipe, hk, hrd]
          dsimp only
          rw [hwr, setFd_setFd, setFd_of_eq (allocTaskFd_free hrd)]
        · rw [honly a ha, honly b hb]
      | some wr =>
        obtain hfail | ⟨task', L', hrun, hmade⟩ := nmFdPipe_ends ops hk hrd hwr
        · exact .inl hfail
        · exact .inr ⟨k, rd, wr, task', L', hrun, hmade⟩

theorem NothingMade.counted {refs : Fin 128 → ℕ} (h : NothingMade L L') (hc : Counted refs L) :
    Counted refs L' := by
  refine hc.congr (fun i => ?_) (fun k => ?_)
  · cases hi : (L.fdobjTable i).used with
    | true =>
      rw [h.obj_used i hi]
      exact ⟨hi, rfl, fun _ => rfl⟩
    | false =>
      have hnone := hc.refs_eq_zero hi
      obtain ⟨hused, hcnt⟩ := h.obj_free i hi
      refine ⟨hused, ?_, fun hpos => absurd hnone hpos.ne'⟩
      cases hcnt with
      | inl hzero => rw [hzero, hc.refcnt_eq, hnone]
      | inr hsame => rw [hsame]
  · cases hk : (L.pipeTable k).used with
    | true =>
      rw [h.pipe_used k hk]
      exact ⟨hk, rfl, rfl⟩
    | false =>
      have hnone := hc.ends_eq_zero hk
      obtain ⟨hused, hcnt⟩ := h.pipe_free k hk
      refine ⟨hused, ?_⟩
      cases hcnt with
      | inl hzero =>
        rw [hzero.1, hzero.2, hnone.1, hnone.2]
        exact ⟨rfl, rfl⟩
      | inr hsame => exact ⟨by rw [hsame], by rw [hsame]⟩

theorem endRefs_setFdobj_endObj {i : Fin 128} (hcnt : (L.fdobjTable i).refcnt = 0)
    (kind kind' : FdobjKind) (k k' : Fin 16) :
    (L.setFdobj i (endObj kind k)).endRefs kind' k' =
      L.endRefs kind' k' + if kind = kind' ∧ k' = k then 1 else 0 := by
  have htrade := endRefs_setFdobj kind' k' i (endObj kind k) L
  rw [hcnt, Nat.zero_mul, Nat.add_zero] at htrade
  have hindex : pipeIndex (endObj kind k).pipeId = some k := pipeIndex_eq_some.mpr rfl
  rw [htrade, ends_eq_of_pipeIndex hindex]
  exact congrArg _ (Nat.one_mul _)

/-- The two new references of a new pipe are counted. -/
theorem counted_openedPipe {refs : Fin 128 → ℕ} (hc : Counted refs L)
    (hk : (L.pipeTable k).used = false) {i j : Fin 128} (hi : (L.fdobjTable i).used = false)
    (hj : (L.fdobjTable j).used = false) (hne : j ≠ i) :
    Counted (refs + Pi.single i 1 + Pi.single j 1)
      (((L.setPipe k (openedPipe (L.pipeTable k))).setFdobj i (endObj .pipeR k)).setFdobj j
        (endObj .pipeW k)) := by
  have hi0 : (L.fdobjTable i).refcnt = 0 := by rw [hc.refcnt_eq, hc.refs_eq_zero hi]
  have hj0 : (L.fdobjTable j).refcnt = 0 := by rw [hc.refcnt_eq, hc.refs_eq_zero hj]
  have hends : ∀ kind k', (((L.setPipe k (openedPipe (L.pipeTable k))).setFdobj i
      (endObj .pipeR k)).setFdobj j (endObj .pipeW k)).endRefs kind k' =
      L.endRefs kind k' + (if FdobjKind.pipeR = kind ∧ k' = k then 1 else 0) +
        (if FdobjKind.pipeW = kind ∧ k' = k then 1 else 0) := by
    intro kind k'
    rw [endRefs_setFdobj_endObj (by simp [hne, hj0]), endRefs_setFdobj_endObj (by simp [hi0]),
      endRefs_congr (fdobjTable_setPipe _ _ _)]
  -- the pipe was free, so no end of it was referred to
  have hpipe := hc.ends_eq_zero hk
  constructor
  · intro o
    by_cases hoj : o = j
    · subst hoj
      simp [endObj]
    · by_cases hoi : o = i
      · subst hoi
        simp [endObj, hoj]
      · simp [hoj, hoi, hc.used_iff]
  · intro o
    by_cases hoj : o = j
    · subst hoj
      simp [endObj, hne, hc.refs_eq_zero hj]
    · by_cases hoi : o = i
      · subst hoi
        simp [endObj, hoj, hc.refs_eq_zero hi]
      · simp [hoj, hoi, hc.refcnt_eq]
  · intro k'
    rw [hends, ← hc.readers_eq]
    by_cases hk' : k' = k
    · subst hk'
      simp [openedPipe, hpipe.1]
    · simp [hk']
  · intro k'
    rw [hends, ← hc.writers_eq]
    by_cases hk' : k' = k
    · subst hk'
      simp [openedPipe, hpipe.2]
    · simp [hk']
  · intro k'
    by_cases hk' : k' = k
    · subst hk'
      simp [openedPipe]
    · simp [hk', hc.pipe_used]

variable {task' : Task}

theorem PipeMade.sameButFds {rd wr : Fin 32} (h : PipeMade task L k rd wr task' L') :
    task.SameButFds task' := by
  obtain ⟨i, j, -, -, -, rfl, -⟩ := h.made
  exact (task.sameButFds_setFd rd i.val).trans (sameButFds_setFd wr j.val _)

theorem PipeMade.balanced {rd wr : Fin 32} (h : PipeMade task L k rd wr task' L')
    (hb : Balanced others task L) : Balanced others task' L' := by
  obtain ⟨i, j, hi, hj, hne, rfl, rfl⟩ := h.made
  have hrd := holds_setFd rd (i.val : ℤ) task
  have hwr := holds_setFd wr (j.val : ℤ) (task.setFd rd i.val)
  rw [h.rd_free, idRefs_neg_one, add_zero, idRefs_val] at hrd
  rw [fdTable_setFd, update_of_ne h.fds_ne, h.wr_free, idRefs_neg_one, add_zero,
    idRefs_val, hrd] at hwr
  refine ⟨?_, (hb.valid.setFd rd (.inr ⟨i, rfl⟩)).setFd wr (.inr ⟨j, rfl⟩)⟩
  rw [hwr, ← add_assoc, ← add_assoc]
  exact counted_openedPipe hb.counted h.pipe_free hi hj hne

theorem Balanced.nmFdPipe (h : Balanced others task L) :
    Balanced others (L.nmFdPipe ops task).2.1 (L.nmFdPipe ops task).2.2 ∧
      task.SameButFds (L.nmFdPipe ops task).2.1 := by
  cases nmFdPipe_spec ops task L with
  | inl hfail =>
    obtain ⟨L', hrun, hnothing, -⟩ := hfail
    rw [hrun]
    exact ⟨⟨hnothing.counted h.counted, h.valid⟩, .refl task⟩
  | inr hok =>
    obtain ⟨k, rd, wr, task', L', hrun, hmade⟩ := hok
    rw [hrun]
    exact ⟨hmade.balanced h, hmade.sameButFds⟩

/-! ## All or nothing -/

theorem PipeMade.not_short {rd wr : Fin 32} (h : PipeMade task L k rd wr task' L') :
    ¬ Short task L := by
  rintro (hpipes | hfds | hobjs)
  · have hused := hpipes k
    rw [h.pipe_free] at hused
    cases hused
  · exact h.fds_ne (hfds wr rd h.wr_free h.rd_free)
  · obtain ⟨i, j, hi, hj, hne, -⟩ := h.made
    exact hne (hobjs j i hj hi)

/-- The end of a pipe that a descriptor refers to. -/
def endOf (task : Task) (fd : ℤ) (L : FdLayer F) : Option (FdobjKind × Fin 16) :=
  match L.fdobjGet (taskFdobjId task fd) with
  | none => none
  | some i =>
    match pipeIndex (L.fdobjTable i).pipeId with
    | none => none
    | some k => some ((L.fdobjTable i).kind, k)

theorem PipeMade.endOf_ends {rd wr : Fin 32} (h : PipeMade task L k rd wr task' L') :
    L'.endOf task' rd.val = some (.pipeR, k) ∧ L'.endOf task' wr.val = some (.pipeW, k) := by
  obtain ⟨i, j, -, -, hne, rfl, rfl⟩ := h.made
  have hrd : fdIndex (rd.val : ℤ) = some rd := fdIndex_eq_some.mpr rfl
  have hwr : fdIndex (wr.val : ℤ) = some wr := fdIndex_eq_some.mpr rfl
  have hi : fdobjIndex (i.val : ℤ) = some i := fdobjIndex_eq_some.mpr rfl
  have hj : fdobjIndex (j.val : ℤ) = some j := fdobjIndex_eq_some.mpr rfl
  have hpipe : pipeIndex (k.val : ℤ) = some k := pipeIndex_eq_some.mpr rfl
  constructor
  · simp [endOf, taskFdobjId, hrd, h.fds_ne.symm, fdobjGet, hi, hne.symm, endObj, hpipe]
  · simp [endOf, taskFdobjId, hwr, fdobjGet, hj, endObj, hpipe]

/-- An error leaves the task as it was and makes nothing. Success gives two descriptors that were
free, for the ends of a pipe that was free and is empty. -/
structure AllOrNothing (task : Task) (L : FdLayer F)
    (r : (ℤ × Option (Fin 32 × Fin 32)) × Task × FdLayer F) : Prop where
  failed_iff : r.1.1 ≠ 0 ↔ Short task L
  failed : r.1.1 ≠ 0 → r.2.1 = task ∧ NothingMade L r.2.2
  made : r.1.1 = 0 → ∃ k rd wr, r.1.2 = some (rd, wr) ∧ rd ≠ wr ∧
    task.fdTable rd = -1 ∧ task.fdTable wr = -1 ∧
    r.2.2.endOf r.2.1 rd.val = some (.pipeR, k) ∧ r.2.2.endOf r.2.1 wr.val = some (.pipeW, k) ∧
    (L.pipeTable k).used = false ∧ (r.2.2.pipeTable k).used = true ∧
    (r.2.2.pipeTable k).readPos = 0 ∧ (r.2.2.pipeTable k).writePos = 0

/-- A pipe call makes both ends of a fresh pipe, or nothing when a slot is missing. -/
theorem nmFdPipe_all_or_nothing (task : Task) (L : FdLayer F) :
    AllOrNothing task L (L.nmFdPipe ops task) := by
  obtain ⟨L', hrun, hnothing, hshort⟩ | ⟨k, rd, wr, task', L', hrun, hmade⟩ :=
    nmFdPipe_spec ops task L
  · have hret : nmErr nmEnomem ≠ 0 := by decide
    rw [hrun]
    exact ⟨iff_of_true hret hshort, fun _ => ⟨rfl, hnothing⟩, fun hzero => absurd hzero hret⟩
  · rw [hrun]
    refine ⟨iff_of_false (by simp) hmade.not_short, fun hne => absurd rfl hne, fun _ => ?_⟩
    obtain ⟨hread, hwrite⟩ := hmade.endOf_ends
    refine ⟨k, rd, wr, rfl, hmade.fds_ne.symm, hmade.rd_free, hmade.wr_free, hread, hwrite,
      hmade.pipe_free, ?_⟩
    obtain ⟨i, j, -, -, -, -, rfl⟩ := hmade.made
    simp [openedPipe]

end FdLayer

end NeverMind
