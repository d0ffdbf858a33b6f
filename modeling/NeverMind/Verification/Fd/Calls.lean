import NeverMind.Verification.Fd.Counts

/-! # The descriptor calls keep the books

`Balanced others task L` says that the tables account for the references of one task and of
`others`. Each call on the task keeps this, whatever the others hold. -/

namespace NeverMind

open List Function

/-- The calls on the descriptors of a task. -/
inductive FdCall where
  | pipe
  | dup2 (oldfd newfd : ℤ)
  | close (fd : ℤ)
  | read (fd : ℤ) (buf : Bool) (len : ℕ)
  | write (fd : ℤ) (buf : Option (ℕ → Byte)) (len : ℕ)
  | setCloexec (fd : ℤ) (enabled : Bool)
  | closeOnExec

/-- The result of a call, the bytes it returns, and what it leaves. -/
def FdLayer.fdCall {F : Type*} (ops : FsOps F) (call : FdCall) (task : Task)
    (L : FdLayer F) : (ℤ × List Byte) × Task × FdLayer F :=
  match call with
  | .pipe =>
    let r := L.nmFdPipe ops task
    ((r.1.1, []), r.2)
  | .dup2 oldfd newfd =>
    let r := L.nmFdDup2 ops task oldfd newfd
    ((r.1, []), r.2)
  | .close fd =>
    let r := L.nmFdClose ops task fd
    ((r.1, []), r.2)
  | .read fd buf len => L.nmFdRead ops task fd buf len
  | .write fd buf len =>
    let r := L.nmFdWrite ops task fd buf len
    ((r.1, []), r.2)
  | .setCloexec fd enabled =>
    let r := FdLayer.nmFdSetCloexec task fd enabled
    ((r.1, []), r.2, L)
  | .closeOnExec => ((0, []), L.nmFdCloseOnExec ops task)

/-- The reference that a table entry is. -/
def idRefs (id : ℤ) (i : Fin 128) : ℕ := if id = (i.val : ℤ) then 1 else 0

@[simp] theorem idRefs_neg_one : idRefs (-1) = 0 := by
  funext i
  simp only [idRefs, Pi.zero_apply, ite_eq_right_iff]
  omega

@[simp] theorem idRefs_val (i : Fin 128) : idRefs (i.val : ℤ) = Pi.single i 1 := by
  funext j
  simp only [idRefs, Pi.single_apply]
  by_cases hj : j = i
  · simp [hj]
  · have hne : ¬ ((i.val : ℤ) = (j.val : ℤ)) := fun he => hj (Fin.ext (by omega))
    simp [hj, hne]

namespace Task

def holds (task : Task) (i : Fin 128) : ℕ :=
  (Finset.univ.filter fun fd => task.fdTable fd = (i.val : ℤ)).card

def ValidFds (task : Task) : Prop :=
  ∀ fd, task.fdTable fd = -1 ∨ ∃ i : Fin 128, task.fdTable fd = (i.val : ℤ)

variable {task : Task}

@[simp] theorem fdTable_setFd (fd : Fin 32) (id : ℤ) (task : Task) :
    (task.setFd fd id).fdTable = update task.fdTable fd id :=
  rfl

@[simp] theorem fdTable_clearCloexec (fd : Fin 32) (task : Task) :
    (task.clearCloexec fd).fdTable = task.fdTable :=
  rfl

theorem holds_setFd (fd : Fin 32) (id : ℤ) (task : Task) :
    (task.setFd fd id).holds + idRefs (task.fdTable fd) = task.holds + idRefs id := by
  funext i
  exact Tally.card_filter_update_add (fun id => id = (i.val : ℤ)) task.fdTable fd id

@[simp] theorem holds_clearCloexec (fd : Fin 32) (task : Task) :
    (task.clearCloexec fd).holds = task.holds :=
  rfl

theorem holds_congr {task' : Task} (h : task'.fdTable = task.fdTable) :
    task'.holds = task.holds := by
  funext i
  rw [holds, holds, h]

theorem holds_pos {fd : Fin 32} {i : Fin 128} (h : task.fdTable fd = (i.val : ℤ)) :
    0 < task.holds i :=
  Finset.card_pos.mpr ⟨fd, by simpa using h⟩

theorem sum_holds_le (task : Task) : ∑ i, task.holds i ≤ 32 := by
  have hinj : Injective fun i : Fin 128 => (i.val : ℤ) := by
    intro i j hij
    exact Fin.ext (by simpa using hij)
  have hle := Tally.sum_card_filter_le hinj task.fdTable
  rw [Fintype.card_fin] at hle
  exact hle

theorem sum_idRefs_eq_holds (task : Task) :
    ((finRange 32).map fun fd => idRefs (task.fdTable fd)).sum = task.holds := by
  rw [← Fin.sum_univ_def]
  funext i
  rw [Finset.sum_apply, holds, Finset.card_filter]
  rfl

theorem ValidFds.setFd (h : task.ValidFds) (fd : Fin 32) {id : ℤ}
    (hid : id = -1 ∨ ∃ i : Fin 128, id = (i.val : ℤ)) : (task.setFd fd id).ValidFds := by
  intro fd'
  by_cases hfd : fd' = fd
  · subst hfd
    simpa using hid
  · simpa [hfd] using h fd'

theorem setFd_setFd (fd : Fin 32) (id id' : ℤ) (task : Task) :
    (task.setFd fd id).setFd fd id' = task.setFd fd id' := by
  simp [setFd]

theorem setFd_of_eq {fd : Fin 32} {id : ℤ} (h : task.fdTable fd = id) :
    task.setFd fd id = task := by
  rw [setFd, ← h, update_eq_self]

/-- A call may change the descriptors of a task and their marks only. -/
def SameButFds (task task' : Task) : Prop :=
  ∃ fds mask, task' = { task with fdTable := fds, fdCloexecMask := mask }

theorem SameButFds.refl (task : Task) : SameButFds task task :=
  ⟨task.fdTable, task.fdCloexecMask, rfl⟩

theorem SameButFds.trans {task' task'' : Task} (h : SameButFds task task')
    (h' : SameButFds task' task'') : SameButFds task task'' := by
  obtain ⟨fds, mask, rfl⟩ := h
  obtain ⟨fds', mask', rfl⟩ := h'
  exact ⟨fds', mask', rfl⟩

theorem sameButFds_setFd (fd : Fin 32) (id : ℤ) (task : Task) :
    SameButFds task (task.setFd fd id) :=
  ⟨_, task.fdCloexecMask, rfl⟩

theorem sameButFds_clearCloexec (fd : Fin 32) (task : Task) :
    SameButFds task (task.clearCloexec fd) :=
  ⟨task.fdTable, _, rfl⟩

end Task

namespace FdLayer

variable {F : Type*} (ops : FsOps F) {L L' : FdLayer F} {task task' : Task}
  {others : Fin 128 → ℕ}

/-- The tables account for the references of `task` and of `others`. -/
structure Balanced (others : Fin 128 → ℕ) (task : Task) (L : FdLayer F) : Prop where
  counted : Counted (others + task.holds) L
  valid : task.ValidFds

/-- No counter can overflow while the task fills its descriptors. -/
def Few (others : Fin 128 → ℕ) : Prop := ∑ i, others i + 33 < 2 ^ 32

theorem Balanced.refs_pos (h : Balanced others task L) {fd : Fin 32} (hfd : task.fdTable fd ≠ -1) :
    ∃ i : Fin 128, task.fdTable fd = (i.val : ℤ) ∧ 0 < (others + task.holds) i := by
  cases h.valid fd with
  | inl hempty => exact absurd hempty hfd
  | inr hid =>
    obtain ⟨i, hi⟩ := hid
    refine ⟨i, hi, ?_⟩
    have hpos := Task.holds_pos hi
    rw [Pi.add_apply]
    omega

theorem Balanced.sum_lt (h : Few others) (task : Task) :
    ∑ i, (others + task.holds) i + 1 < 2 ^ 32 := by
  have hle := task.sum_holds_le
  have hfew : ∑ i, others i + 33 < 2 ^ 32 := h
  simp only [Pi.add_apply, Finset.sum_add_distrib]
  omega

/-! ## Closing -/

theorem Balanced.close_slot (h : Balanced others task L) {fd : Fin 32}
    (hfd : task.fdTable fd ≠ -1) :
    ∃ L', L.taskCloseFd ops task fd.val = (0, (task.setFd fd (-1)).clearCloexec fd, L') ∧
      Balanced others ((task.setFd fd (-1)).clearCloexec fd) L' := by
  obtain ⟨i, hi, -⟩ := h.refs_pos hfd
  have htrade := Task.holds_setFd fd (-1) task
  rw [hi, idRefs_val, idRefs_neg_one, add_zero] at htrade
  have hcounted := h.counted
  rw [← htrade, ← add_assoc] at hcounted
  obtain ⟨L', hrun, hcounted'⟩ := hcounted.release ops
  have hindex : fdIndex (fd.val : ℤ) = some fd := fdIndex_eq_some.mpr rfl
  refine ⟨L', ?_, ⟨hcounted', h.valid.setFd fd (.inl rfl)⟩⟩
  simp only [taskCloseFd, hindex, hfd, if_false]
  rw [hi, hrun]
  simp

theorem Balanced.taskCloseFd (h : Balanced others task L) (fd : ℤ) :
    Balanced others (L.taskCloseFd ops task fd).2.1 (L.taskCloseFd ops task fd).2.2 ∧
      task.SameButFds (L.taskCloseFd ops task fd).2.1 := by
  cases hindex : fdIndex fd with
  | none =>
    simp only [FdLayer.taskCloseFd, hindex]
    exact ⟨h, .refl task⟩
  | some i =>
    by_cases hempty : task.fdTable i = -1
    · simp only [FdLayer.taskCloseFd, hindex, hempty, if_true]
      exact ⟨h, .refl task⟩
    · obtain ⟨L', hrun, hbalanced⟩ := h.close_slot ops hempty
      rw [fdIndex_eq_some.mp hindex, hrun]
      exact ⟨hbalanced, (task.sameButFds_setFd i (-1)).trans (Task.sameButFds_clearCloexec i _)⟩

theorem Balanced.adoptForClose_eq (h : Balanced others task L) {fd : ℤ} {i : Fin 32}
    (hindex : fdIndex fd = some i) (hfd : task.fdTable i ≠ -1) :
    L.adoptForClose task fd = (0, task, L) := by
  obtain ⟨o, ho, hpos⟩ := h.refs_pos hfd
  have hget := h.counted.fdobjGet_eq hpos
  simp only [adoptForClose, taskFdobjId, hindex, ho, hget]
  simp

theorem Balanced.nmFdClose (h : Balanced others task L) (fd : ℤ) :
    Balanced others (L.nmFdClose ops task fd).2.1 (L.nmFdClose ops task fd).2.2 ∧
      task.SameButFds (L.nmFdClose ops task fd).2.1 := by
  cases hindex : fdIndex fd with
  | none =>
    simp only [FdLayer.nmFdClose, hindex]
    exact ⟨h, .refl task⟩
  | some i =>
    by_cases hempty : task.fdTable i = -1
    · simp only [FdLayer.nmFdClose, hindex, taskFdobjId, hempty, if_true]
      exact ⟨h, .refl task⟩
    · have hclose : L.nmFdClose ops task fd = L.taskCloseFd ops task fd := by
        simp only [FdLayer.nmFdClose, hindex, taskFdobjId, hempty, if_false,
          h.adoptForClose_eq hindex hempty]
        simp
      rw [hclose]
      exact h.taskCloseFd ops fd

theorem Balanced.closeMarked (h : Balanced others task L) (i : Fin 32) :
    Balanced others (closeMarked ops i (task, L)).1 (closeMarked ops i (task, L)).2 ∧
      task.SameButFds (closeMarked ops i (task, L)).1 := by
  unfold FdLayer.closeMarked
  dsimp only
  split
  · exact ⟨h, .refl task⟩
  · split
    · exact ⟨⟨h.counted, h.valid⟩, task.sameButFds_clearCloexec i⟩
    · rename_i hempty
      rw [h.adoptForClose_eq (fdIndex_eq_some.mpr rfl) hempty]
      exact h.taskCloseFd ops i.val

theorem Balanced.nmFdCloseOnExec (h : Balanced others task L) :
    Balanced others (L.nmFdCloseOnExec ops task).1 (L.nmFdCloseOnExec ops task).2 ∧
      task.SameButFds (L.nmFdCloseOnExec ops task).1 := by
  have hfold : ∀ (is : List (Fin 32)) (st : Task × FdLayer F), Balanced others st.1 st.2 →
      Balanced others (is.foldl (fun st i => FdLayer.closeMarked ops i st) st).1
          (is.foldl (fun st i => FdLayer.closeMarked ops i st) st).2 ∧
        st.1.SameButFds (is.foldl (fun st i => FdLayer.closeMarked ops i st) st).1 := by
    intro is
    induction is with
    | nil => exact fun st hst => ⟨hst, .refl st.1⟩
    | cons i is ih =>
      intro st hst
      obtain ⟨hstep, hrest⟩ := hst.closeMarked ops i
      obtain ⟨hend, hrest'⟩ := ih (FdLayer.closeMarked ops i st) hstep
      exact ⟨hend, hrest.trans hrest'⟩
  exact hfold (finRange 32) (task, L) h

/-! ## Duplicating -/

theorem Balanced.fdobjRetain (h : Balanced others task L) (hfew : Few others) {fd : Fin 32}
    {i : Fin 128} (hfd : task.fdTable fd = (i.val : ℤ)) {slot : Fin 32}
    (hslot : task.fdTable slot = -1) :
    ∃ L', L.fdobjRetain i.val = (0, L') ∧
      Balanced others ((task.setFd slot i.val).clearCloexec slot) L' := by
  have hpos : 0 < (others + task.holds) i := by
    have hholds := Task.holds_pos hfd
    rw [Pi.add_apply]
    omega
  obtain ⟨L', hrun, hcounted⟩ := h.counted.retain hpos (Balanced.sum_lt hfew task)
  have htrade := Task.holds_setFd slot (i.val : ℤ) task
  rw [hslot, idRefs_neg_one, add_zero, idRefs_val] at htrade
  refine ⟨L', hrun, ?_, h.valid.setFd slot (.inr ⟨i, rfl⟩)⟩
  rw [Task.holds_clearCloexec, htrade, ← add_assoc]
  exact hcounted

/-- The new slot is empty before it is filled, whether or not it had to be closed. -/
theorem Balanced.empty_slot (h : Balanced others task L) {newfd : ℤ} {j : Fin 32}
    (hj : fdIndex newfd = some j) :
    ∃ task₁ L₁, (if task.fdTable j ≠ -1 then L.taskCloseFd ops task newfd else (0, task, L)) =
        (0, task₁, L₁) ∧
      Balanced others task₁ L₁ ∧ task₁.fdTable = update task.fdTable j (-1) ∧
      ∀ id, (task₁.setFd j id).clearCloexec j = (task.setFd j id).clearCloexec j := by
  by_cases hempty : task.fdTable j = -1
  · refine ⟨task, L, ?_, h, ?_, fun _ => rfl⟩
    · rw [if_neg (not_not.mpr hempty)]
    · rw [← hempty, update_eq_self]
  · obtain ⟨L₁, hrun, hbalanced⟩ := h.close_slot ops hempty
    rw [fdIndex_eq_some.mp hj, if_pos hempty, hrun]
    refine ⟨_, L₁, rfl, hbalanced, rfl, fun id => ?_⟩
    simp [Task.setFd, Task.clearCloexec, BitVec.and_assoc]

/-- What duplicating a descriptor can do. -/
inductive Dups (others : Fin 128 → ℕ) (task : Task) (oldfd newfd : ℤ) (L : FdLayer F) :
    ℤ × Task × FdLayer F → Prop where
  | refused {ret : ℤ} (hret : ret < 0) : Dups others task oldfd newfd L (ret, task, L)
  | same (heq : oldfd = newfd) : Dups others task oldfd newfd L (newfd, task, L)
  | made {i j : Fin 32} {o : Fin 128} {L' : FdLayer F} (hi : fdIndex oldfd = some i)
      (hj : fdIndex newfd = some j) (hne : oldfd ≠ newfd) (ho : task.fdTable i = (o.val : ℤ))
      (hbalanced : Balanced others ((task.setFd j o.val).clearCloexec j) L') :
      Dups others task oldfd newfd L (newfd, (task.setFd j o.val).clearCloexec j, L')

theorem Balanced.nmFdDup2_dups (h : Balanced others task L) (hfew : Few others)
    (oldfd newfd : ℤ) : Dups others task oldfd newfd L (L.nmFdDup2 ops task oldfd newfd) := by
  unfold FdLayer.nmFdDup2
  split
  · rename_i i j hi hj
    dsimp only
    split
    · exact .refused (by decide)
    · rename_i hopen
      split
      · next heq => exact .same heq
      · rename_i hne
        have hij : i ≠ j := by
          rintro rfl
          exact hne ((fdIndex_eq_some.mp hi).trans (fdIndex_eq_some.mp hj).symm)
        obtain ⟨o, ho, -⟩ := h.refs_pos hopen
        obtain ⟨task₁, L₁, hrun, hbalanced, hfds, hsame⟩ := h.empty_slot ops hj
        have hold : task₁.fdTable i = (o.val : ℤ) := by
          rw [hfds, update_of_ne hij, ho]
        have hslot : task₁.fdTable j = -1 := by rw [hfds, update_self]
        obtain ⟨L₂, hretain, hbalanced₂⟩ := hbalanced.fdobjRetain hfew hold hslot
        rw [hsame] at hbalanced₂
        rw [hrun, ho, hretain]
        simp only [ne_eq, not_true_eq_false, if_false, hsame]
        exact .made hi hj hne ho hbalanced₂
  · exact .refused (by decide)

theorem Balanced.nmFdDup2 (h : Balanced others task L) (hfew : Few others) (oldfd newfd : ℤ) :
    Balanced others (L.nmFdDup2 ops task oldfd newfd).2.1 (L.nmFdDup2 ops task oldfd newfd).2.2 ∧
      task.SameButFds (L.nmFdDup2 ops task oldfd newfd).2.1 := by
  have hdups := h.nmFdDup2_dups ops hfew oldfd newfd
  generalize L.nmFdDup2 ops task oldfd newfd = r at hdups ⊢
  cases hdups with
  | refused hret => exact ⟨h, .refl task⟩
  | same heq => exact ⟨h, .refl task⟩
  | @made i j o L' hi hj hne ho hbalanced =>
    exact ⟨hbalanced, (task.sameButFds_setFd j o.val).trans (Task.sameButFds_clearCloexec j _)⟩

/-! ## Inheriting -/

theorem Counted.inheritFd {refs : Fin 128 → ℕ} (h : Counted refs L) {child : Task} {fd : Fin 32}
    (hfd : child.fdTable fd = -1 ∨ ∃ i : Fin 128, child.fdTable fd = (i.val : ℤ) ∧ 0 < refs i)
    (hsum : ∑ i, refs i + 1 < 2 ^ 32) :
    ∃ L', inheritFd fd (child, L) = (child, L') ∧
      Counted (refs + idRefs (child.fdTable fd)) L' := by
  cases hfd with
  | inl hempty =>
    refine ⟨L, ?_, ?_⟩
    · simp [FdLayer.inheritFd, hempty]
    · rw [hempty, idRefs_neg_one, add_zero]
      exact h
  | inr hid =>
    obtain ⟨i, hi, hpos⟩ := hid
    obtain ⟨L', hrun, hcounted⟩ := h.retain hpos hsum
    have hne : ¬ ((i.val : ℤ) = -1) := by omega
    refine ⟨L', ?_, ?_⟩
    · simp [FdLayer.inheritFd, hi, hne, hrun]
    · rw [hi, idRefs_val]
      exact hcounted

/-- A child keeps every descriptor of its parent and the tables count them. -/
theorem Counted.nmFdOnForkChild {refs : Fin 128 → ℕ} (h : Counted refs L) {child : Task}
    (hfds : ∀ fd, child.fdTable fd = -1 ∨
      ∃ i : Fin 128, child.fdTable fd = (i.val : ℤ) ∧ 0 < refs i) (hsum : Few refs) :
    ∃ L', L.nmFdOnForkChild child = (0, child, L') ∧ Counted (refs + child.holds) L' := by
  -- the references grow with each entry, so the ones needed later are there
  have hfold : ∀ (is : List (Fin 32)) (refs : Fin 128 → ℕ) (L : FdLayer F), Counted refs L →
      (∀ fd, child.fdTable fd = -1 ∨ ∃ i : Fin 128, child.fdTable fd = (i.val : ℤ) ∧ 0 < refs i) →
      ∑ i, refs i + is.length < 2 ^ 32 →
      ∃ L', is.foldl (fun st i => FdLayer.inheritFd i st) (child, L) = (child, L') ∧
        Counted (refs + (is.map fun fd => idRefs (child.fdTable fd)).sum) L' := by
    intro is
    induction is with
    | nil =>
      intro refs L h _ _
      exact ⟨L, rfl, by simpa using h⟩
    | cons fd is ih =>
      intro refs L h hfds hsum
      rw [length_cons] at hsum
      obtain ⟨L₁, hrun, hcounted⟩ := h.inheritFd (hfds fd) (by omega)
      have hone : ∑ i, idRefs (child.fdTable fd) i ≤ 1 := by
        cases hfds fd with
        | inl hempty => simp [hempty]
        | inr hid =>
          obtain ⟨i, hi, -⟩ := hid
          rw [hi, idRefs_val, Finset.sum_pi_single']
          simp
      have hsum' : ∑ i, (refs + idRefs (child.fdTable fd)) i + is.length < 2 ^ 32 := by
        simp only [Pi.add_apply, Finset.sum_add_distrib]
        omega
      have hfds' : ∀ fd', child.fdTable fd' = -1 ∨ ∃ i : Fin 128,
          child.fdTable fd' = (i.val : ℤ) ∧ 0 < (refs + idRefs (child.fdTable fd)) i := by
        intro fd'
        refine (hfds fd').imp id ?_
        rintro ⟨i, hi, hpos⟩
        exact ⟨i, hi, by rw [Pi.add_apply]; omega⟩
      obtain ⟨L₂, hrun₂, hcounted₂⟩ := ih _ L₁ hcounted hfds' hsum'
      refine ⟨L₂, ?_, ?_⟩
      · rw [foldl_cons, hrun, hrun₂]
      · rw [map_cons, sum_cons, ← add_assoc]
        exact hcounted₂
  obtain ⟨L', hrun, hcounted⟩ := hfold (finRange 32) refs L h hfds (by
    have hfew : ∑ i, refs i + 33 < 2 ^ 32 := hsum
    rw [length_finRange]
    omega)
  rw [Task.sum_idRefs_eq_holds] at hcounted
  refine ⟨L', ?_, hcounted⟩
  rw [FdLayer.nmFdOnForkChild, hrun]

/-! ## Reading, writing and marks -/

theorem Balanced.resolveFd_eq (h : Balanced others task L) (fd : ℤ)
    (hfd : taskFdobjId task fd ≠ -1) :
    ∃ found, L.resolveFd task fd = (found, task, L) := by
  cases hindex : fdIndex fd with
  | none =>
    have hnone : fdobjIndex (nmErr nmEinval) = none := by decide
    have hget : L.fdobjGet (nmErr nmEinval) = none := by simp only [fdobjGet, hnone]
    refine ⟨none, ?_⟩
    simp only [resolveFd, taskFdobjId, hindex, hget, adoptLegacyFsFd, hnone]
  | some i =>
    have hopen : task.fdTable i ≠ -1 := by simpa only [taskFdobjId, hindex] using hfd
    obtain ⟨o, ho, hpos⟩ := h.refs_pos hopen
    refine ⟨some o, ?_⟩
    simp only [resolveFd, taskFdobjId, hindex, ho, h.counted.fdobjGet_eq hpos]

/-- What a transfer of bytes leaves as it was: everything but the ring of a pipe. -/
def SameCounts (L L' : FdLayer F) : Prop :=
  L'.fdobjTable = L.fdobjTable ∧ ∀ k, (L'.pipeTable k).used = (L.pipeTable k).used ∧
    (L'.pipeTable k).readers = (L.pipeTable k).readers ∧
    (L'.pipeTable k).writers = (L.pipeTable k).writers

theorem Balanced.of_sameCounts (h : Balanced others task L) (hsame : SameCounts L L') :
    Balanced others task L' := by
  refine ⟨h.counted.congr (fun i => ?_) hsame.2, h.valid⟩
  rw [hsame.1]
  exact ⟨rfl, rfl, fun _ => rfl⟩

theorem readLoop_counts (n : ℕ) (pipe : Pipe) :
    ∃ readPos, (readLoop n pipe).2 = { pipe with readPos := readPos } := by
  induction n generalizing pipe with
  | zero => exact ⟨pipe.readPos, rfl⟩
  | succ n ih =>
    unfold readLoop
    split
    · obtain ⟨readPos, hpos⟩ := ih { pipe with readPos := u64 (pipe.readPos + 1) }
      exact ⟨readPos, hpos⟩
    · exact ⟨pipe.readPos, rfl⟩

theorem writeLoop_counts (data : ℕ → Byte) (n written : ℕ) (pipe : Pipe) :
    ∃ buf writePos, (writeLoop data n written pipe).2 =
      { pipe with buf := buf, writePos := writePos } := by
  induction n generalizing written pipe with
  | zero => exact ⟨pipe.buf, pipe.writePos, rfl⟩
  | succ n ih =>
    unfold writeLoop
    split
    · obtain ⟨buf, writePos, hpos⟩ := ih (written + 1)
        { pipe with
          buf := update pipe.buf (ringSlot pipe.writePos) (data written)
          writePos := u64 (pipe.writePos + 1) }
      exact ⟨buf, writePos, hpos⟩
    · exact ⟨pipe.buf, pipe.writePos, rfl⟩

theorem sameCounts_setPipe {k : Fin 16} {pipe : Pipe}
    (h : pipe.used = (L.pipeTable k).used ∧ pipe.readers = (L.pipeTable k).readers ∧
      pipe.writers = (L.pipeTable k).writers) : SameCounts L (L.setPipe k pipe) := by
  refine ⟨rfl, fun j => ?_⟩
  by_cases hj : j = k
  · subst hj
    simpa using h
  · simp [hj]

theorem sameCounts_readFromFdobj (i : Fin 128) (len : ℕ) (L : FdLayer F) :
    SameCounts L (L.readFromFdobj ops i len).2 := by
  unfold readFromFdobj
  dsimp only
  split
  · split
    · exact ⟨rfl, fun _ => ⟨rfl, rfl, rfl⟩⟩
    · rename_i k hk
      refine sameCounts_setPipe ?_
      unfold readFromPipe
      split
      · exact ⟨rfl, rfl, rfl⟩
      · obtain ⟨readPos, hpos⟩ := readLoop_counts len (L.pipeTable k)
        dsimp only
        rw [hpos]
        exact ⟨rfl, rfl, rfl⟩
  · exact ⟨rfl, fun _ => ⟨rfl, rfl, rfl⟩⟩
  · exact ⟨rfl, fun _ => ⟨rfl, rfl, rfl⟩⟩

theorem sameCounts_writeToFdobj (i : Fin 128) (data : ℕ → Byte) (len : ℕ) (L : FdLayer F) :
    SameCounts L (L.writeToFdobj ops i data len).2 := by
  unfold writeToFdobj
  dsimp only
  split
  · split
    · exact ⟨rfl, fun _ => ⟨rfl, rfl, rfl⟩⟩
    · rename_i k hk
      refine sameCounts_setPipe ?_
      unfold writeToPipe
      split
      · exact ⟨rfl, rfl, rfl⟩
      · obtain ⟨buf, writePos, hpos⟩ := writeLoop_counts data len 0 (L.pipeTable k)
        dsimp only
        rw [hpos]
        exact ⟨rfl, rfl, rfl⟩
  · exact ⟨rfl, fun _ => ⟨rfl, rfl, rfl⟩⟩
  · exact ⟨rfl, fun _ => ⟨rfl, rfl, rfl⟩⟩

theorem Balanced.nmFdRead (h : Balanced others task L) (fd : ℤ) (buf : Bool) (len : ℕ) :
    Balanced others (L.nmFdRead ops task fd buf len).2.1 (L.nmFdRead ops task fd buf len).2.2 ∧
      (L.nmFdRead ops task fd buf len).2.1 = task := by
  unfold FdLayer.nmFdRead
  split
  · exact ⟨h, rfl⟩
  · split
    · exact ⟨h, rfl⟩
    · rename_i hopen
      obtain ⟨found, hfound⟩ := h.resolveFd_eq fd hopen
      rw [hfound]
      cases found with
      | none => exact ⟨h, rfl⟩
      | some i => exact ⟨h.of_sameCounts (sameCounts_readFromFdobj ops i len L), rfl⟩

theorem Balanced.nmFdWrite (h : Balanced others task L) (fd : ℤ) (buf : Option (ℕ → Byte))
    (len : ℕ) :
    Balanced others (L.nmFdWrite ops task fd buf len).2.1
        (L.nmFdWrite ops task fd buf len).2.2 ∧
      (L.nmFdWrite ops task fd buf len).2.1 = task := by
  unfold FdLayer.nmFdWrite
  split
  · exact ⟨h, rfl⟩
  · rename_i data
    split
    · exact ⟨h, rfl⟩
    · rename_i hopen
      obtain ⟨found, hfound⟩ := h.resolveFd_eq fd hopen
      rw [hfound]
      cases found with
      | none => exact ⟨h, rfl⟩
      | some i => exact ⟨h.of_sameCounts (sameCounts_writeToFdobj ops i data len L), rfl⟩

theorem nmFdSetCloexec_sameFds (task : Task) (fd : ℤ) (enabled : Bool) :
    ∃ mask, (nmFdSetCloexec task fd enabled).2 = { task with fdCloexecMask := mask } := by
  unfold nmFdSetCloexec
  split
  · exact ⟨task.fdCloexecMask, rfl⟩
  · split
    · exact ⟨task.fdCloexecMask, rfl⟩
    · split
      · exact ⟨_, rfl⟩
      · exact ⟨_, rfl⟩

theorem Balanced.nmFdSetCloexec (h : Balanced others task L) (fd : ℤ) (enabled : Bool) :
    Balanced others (nmFdSetCloexec task fd enabled).2 L ∧
      task.SameButFds (nmFdSetCloexec task fd enabled).2 := by
  obtain ⟨mask, hmask⟩ := nmFdSetCloexec_sameFds task fd enabled
  rw [hmask]
  exact ⟨⟨h.counted, h.valid⟩, task.fdTable, mask, rfl⟩

end FdLayer

end NeverMind
