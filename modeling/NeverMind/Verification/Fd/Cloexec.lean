import NeverMind.Verification.Fd.PipeCreation

/-! # Marks of close-on-exec

The mask is kept beside the table of descriptors. Each call keeps it in step: only open
descriptors are marked, and closing the marked ones clears the mask. -/

namespace NeverMind

open BitVec

namespace Task

variable {task : Task}

def Marked (fd : Fin 32) (task : Task) : Prop := task.fdCloexecMask.getLsbD fd.val = true

instance (fd : Fin 32) (task : Task) : Decidable (task.Marked fd) :=
  inferInstanceAs (Decidable (task.fdCloexecMask.getLsbD fd.val = true))

def MarksOpen (task : Task) : Prop := ∀ fd, task.Marked fd → task.fdTable fd ≠ -1

theorem getLsbD_fdBit (i fd : Fin 32) : (fdBit i).getLsbD fd.val = decide (fd = i) := by
  rw [fdBit, ← twoPow_eq, getLsbD_twoPow, decide_eq_true i.isLt, Bool.true_and]
  exact decide_eq_decide.mpr ⟨fun h => Fin.ext h.symm, fun h => congrArg Fin.val h.symm⟩

theorem marked_clearCloexec (i : Fin 32) (task : Task) (fd : Fin 32) :
    (task.clearCloexec i).Marked fd ↔ task.Marked fd ∧ fd ≠ i := by
  rw [Marked, clearCloexec, getLsbD_and, getLsbD_not, getLsbD_fdBit]
  simp [Marked]

@[simp] theorem marked_setFd (i : Fin 32) (id : ℤ) (task : Task) (fd : Fin 32) :
    (task.setFd i id).Marked fd ↔ task.Marked fd :=
  Iff.rfl

theorem mask_and_fdBit (fd : Fin 32) (task : Task) :
    task.fdCloexecMask &&& fdBit fd = 0#32 ↔ ¬ task.Marked fd := by
  have hbit : (fdBit fd).getLsbD fd.val = true := by simp [getLsbD_fdBit]
  have hne : fdBit fd ≠ 0#32 := by
    intro hzero
    rw [hzero] at hbit
    simp at hbit
  rw [Marked, Bool.not_eq_true, fdBit, ← twoPow_eq, and_twoPow]
  rw [fdBit, ← twoPow_eq] at hne
  cases task.fdCloexecMask.getLsbD fd.val <;> simp [hne]

/-- No mark is left exactly in the zero mask. -/
theorem mask_eq_zero (h : ∀ fd, ¬ task.Marked fd) : task.fdCloexecMask = 0#32 := by
  apply eq_of_getLsbD_eq
  intro i hi
  have hclear := h ⟨i, hi⟩
  rw [Marked, Bool.not_eq_true] at hclear
  simpa using hclear

def closeFd (i : Fin 32) (task : Task) : Task := (task.setFd i (-1)).clearCloexec i

theorem fdTable_closeFd (i : Fin 32) (task : Task) :
    (task.closeFd i).fdTable = Function.update task.fdTable i (-1) :=
  rfl

theorem marked_closeFd (i : Fin 32) (task : Task) (fd : Fin 32) :
    (task.closeFd i).Marked fd ↔ task.Marked fd ∧ fd ≠ i := by
  rw [closeFd, marked_clearCloexec, marked_setFd]

theorem MarksOpen.of_update {task' : Task} (h : task.MarksOpen) {i : Fin 32} {id : ℤ}
    (hfds : task'.fdTable = Function.update task.fdTable i id)
    (hmarks : ∀ fd, task'.Marked fd → task.Marked fd ∧ fd ≠ i) : task'.MarksOpen := by
  intro fd hmarked
  obtain ⟨hold, hne⟩ := hmarks fd hmarked
  rw [hfds, Function.update_of_ne hne]
  exact h fd hold

theorem MarksOpen.closeFd (h : task.MarksOpen) (i : Fin 32) : (task.closeFd i).MarksOpen :=
  h.of_update (fdTable_closeFd i task) fun fd => (marked_closeFd i task fd).mp

theorem MarksOpen.not_marked (h : task.MarksOpen) {fd : Fin 32} (hfree : task.fdTable fd = -1) :
    ¬ task.Marked fd :=
  fun hmarked => h fd hmarked hfree

/-- The effect of one round of `nm_fd_close_on_exec`. -/
def closeIfMarked (i : Fin 32) (task : Task) : Task :=
  if task.Marked i then task.closeFd i else task

theorem foldl_closeIfMarked (is : List (Fin 32)) (task : Task) (fd : Fin 32) :
    ((is.foldl (fun task i => task.closeIfMarked i) task).Marked fd ↔ task.Marked fd ∧ fd ∉ is) ∧
      (is.foldl (fun task i => task.closeIfMarked i) task).fdTable fd =
        if task.Marked fd ∧ fd ∈ is then -1 else task.fdTable fd := by
  induction is generalizing task with
  | nil => simp
  | cons i is ih =>
    obtain ⟨hmarked, htable⟩ := ih (task.closeIfMarked i)
    rw [List.foldl_cons, hmarked, htable, closeIfMarked]
    by_cases hi : task.Marked i
    · rw [if_pos hi]
      by_cases hfd : fd = i
      · subst hfd
        simp [marked_closeFd, fdTable_closeFd, hi]
      · simp [marked_closeFd, fdTable_closeFd, hfd]
    · rw [if_neg hi]
      by_cases hfd : fd = i
      · subst hfd
        simp [hi]
      · simp [hfd]

end Task

namespace FdLayer

variable {F : Type*} (ops : FsOps F) {L L' : FdLayer F} {task task' : Task}
  {others : Fin 128 → ℕ}

/-! ## Closing on exec -/

theorem Balanced.closeMarked_eq (h : Balanced others task L) (i : Fin 32) :
    ∃ L', FdLayer.closeMarked ops i (task, L) = (task.closeIfMarked i, L') ∧
      Balanced others (task.closeIfMarked i) L' := by
  unfold FdLayer.closeMarked Task.closeIfMarked
  dsimp only
  by_cases hmarked : task.Marked i
  · rw [if_neg (mt (Task.mask_and_fdBit i task).mp (not_not_intro hmarked)), if_pos hmarked]
    by_cases hfree : task.fdTable i = -1
    · refine ⟨L, ?_, ?_⟩
      · rw [if_pos hfree, Task.closeFd, Task.setFd_of_eq hfree]
      · rw [Task.closeFd, Task.setFd_of_eq hfree]
        exact ⟨h.counted, h.valid⟩
    · obtain ⟨L', hclose, hbalanced⟩ := h.close_slot ops hfree
      refine ⟨L', ?_, hbalanced⟩
      rw [if_neg hfree, h.adoptForClose_eq (fdIndex_eq_some.mpr rfl) hfree]
      dsimp only
      rw [hclose]
      rfl
  · rw [if_pos ((Task.mask_and_fdBit i task).mpr hmarked), if_neg hmarked]
    exact ⟨L, rfl, h⟩

/-- The marked descriptors are closed, the others are kept, and no mark is left. -/
theorem Balanced.nmFdCloseOnExec_eq (h : Balanced others task L) :
    ∃ task' L', L.nmFdCloseOnExec ops task = (task', L') ∧ Balanced others task' L' ∧
      (∀ fd, task'.fdTable fd = if task.Marked fd then -1 else task.fdTable fd) ∧
      task'.fdCloexecMask = 0#32 := by
  have hfold : ∀ (is : List (Fin 32)) (task : Task) (L : FdLayer F), Balanced others task L →
      ∃ L', is.foldl (fun st i => FdLayer.closeMarked ops i st) (task, L) =
          (is.foldl (fun task i => task.closeIfMarked i) task, L') ∧
        Balanced others (is.foldl (fun task i => task.closeIfMarked i) task) L' := by
    intro is
    induction is with
    | nil => exact fun task L h => ⟨L, rfl, h⟩
    | cons i is ih =>
      intro task L h
      obtain ⟨L₁, hstep, hbalanced⟩ := h.closeMarked_eq ops i
      rw [List.foldl_cons, List.foldl_cons, hstep]
      exact ih _ L₁ hbalanced
  obtain ⟨L', hrun, hbalanced⟩ := hfold (List.finRange 32) task L h
  have hclosed := Task.foldl_closeIfMarked (List.finRange 32) task
  refine ⟨_, L', hrun, hbalanced, ?_, Task.mask_eq_zero ?_⟩
  · intro fd
    simp [(hclosed fd).2]
  · intro fd
    simp [(hclosed fd).1]

/-! ## The other calls -/

theorem Balanced.task_nmFdClose (h : Balanced others task L) (fd : ℤ) :
    (L.nmFdClose ops task fd).2.1 = task ∨ ∃ i, (L.nmFdClose ops task fd).2.1 = task.closeFd i := by
  cases hindex : fdIndex fd with
  | none =>
    left
    simp only [FdLayer.nmFdClose, hindex]
  | some i =>
    by_cases hfree : task.fdTable i = -1
    · left
      simp only [FdLayer.nmFdClose, hindex, taskFdobjId, hfree, if_true]
    · obtain ⟨L', hclose, -⟩ := h.close_slot ops hfree
      right
      refine ⟨i, ?_⟩
      simp only [FdLayer.nmFdClose, hindex, taskFdobjId, hfree, if_false,
        h.adoptForClose_eq hindex hfree]
      rw [fdIndex_eq_some.mp hindex, hclose]
      rfl

/-- The ends of a new pipe were free, so that they are not marked. -/
theorem PipeMade.marks {k : Fin 16} {rd wr : Fin 32} (h : PipeMade task L k rd wr task' L')
    (hmarks : task.MarksOpen) : task'.MarksOpen ∧ ¬ task'.Marked rd ∧ ¬ task'.Marked wr := by
  obtain ⟨i, j, -, -, -, rfl, -⟩ := h.made
  refine ⟨?_, hmarks.not_marked h.rd_free, hmarks.not_marked h.wr_free⟩
  have hrd : (task.setFd rd i.val).MarksOpen := hmarks.of_update rfl fun fd hmarked =>
    ⟨hmarked, fun hfd => hmarks.not_marked h.rd_free (hfd ▸ hmarked)⟩
  exact hrd.of_update rfl fun fd hmarked =>
    ⟨hmarked, fun hfd => hmarks.not_marked h.wr_free (hfd ▸ hmarked)⟩

theorem Balanced.marks_nmFdDup2 (h : Balanced others task L) (hfew : Few others)
    (oldfd newfd : ℤ) (hmarks : task.MarksOpen) :
    (L.nmFdDup2 ops task oldfd newfd).2.1.MarksOpen ∧
      (oldfd ≠ newfd → 0 ≤ (L.nmFdDup2 ops task oldfd newfd).1 → ∃ j, fdIndex newfd = some j ∧
        ¬ (L.nmFdDup2 ops task oldfd newfd).2.1.Marked j) := by
  have hdups := h.nmFdDup2_dups ops hfew oldfd newfd
  generalize L.nmFdDup2 ops task oldfd newfd = r at hdups ⊢
  cases hdups with
  | refused hret => exact ⟨hmarks, fun _ hge => absurd hge (Int.not_le.mpr hret)⟩
  | same heq => exact ⟨hmarks, fun hne => absurd heq hne⟩
  | @made i j o L' hi hj hne ho hbalanced =>
    have hclear := Task.marked_clearCloexec j (task.setFd j o.val)
    refine ⟨hmarks.of_update (i := j) rfl fun fd => (hclear fd).mp, fun _ _ => ⟨j, hj, ?_⟩⟩
    rw [hclear]
    exact fun hmarked => hmarked.2 rfl

theorem marks_nmFdSetCloexec (fd : ℤ) (enabled : Bool) (hmarks : task.MarksOpen) :
    (nmFdSetCloexec task fd enabled).2.MarksOpen := by
  unfold nmFdSetCloexec
  split
  · exact hmarks
  · rename_i i hi
    split
    · exact hmarks
    · rename_i hopen
      split
      · intro fd' hmarked
        rw [Task.Marked, getLsbD_or, Task.getLsbD_fdBit, Bool.or_eq_true,
          decide_eq_true_iff] at hmarked
        rcases hmarked with hold | rfl
        · exact hmarks fd' hold
        · exact hopen
      · intro fd' hmarked
        exact hmarks fd' ((Task.marked_clearCloexec i task fd').mp hmarked).1

theorem Balanced.marks_fdCall (h : Balanced others task L) (hfew : Few others)
    (hmarks : task.MarksOpen) (call : FdCall) : (L.fdCall ops call task).2.1.MarksOpen := by
  cases call with
  | pipe =>
    rcases nmFdPipe_spec ops task L with ⟨L', hrun, -⟩ | ⟨k, rd, wr, task', L', hrun, hmade⟩
    · rw [FdLayer.fdCall, hrun]
      exact hmarks
    · rw [FdLayer.fdCall, hrun]
      exact (hmade.marks hmarks).1
  | dup2 oldfd newfd => exact (h.marks_nmFdDup2 ops hfew oldfd newfd hmarks).1
  | close fd =>
    rw [FdLayer.fdCall]
    rcases h.task_nmFdClose ops fd with hsame | ⟨i, hclosed⟩
    · rw [hsame]
      exact hmarks
    · rw [hclosed]
      exact hmarks.closeFd i
  | read fd buf len =>
    rw [FdLayer.fdCall, (h.nmFdRead ops fd buf len).2]
    exact hmarks
  | write fd buf len =>
    rw [FdLayer.fdCall, (h.nmFdWrite ops fd buf len).2]
    exact hmarks
  | setCloexec fd enabled => exact marks_nmFdSetCloexec fd enabled hmarks
  | closeOnExec =>
    obtain ⟨task', L', hrun, -, -, hmask⟩ := h.nmFdCloseOnExec_eq ops
    rw [FdLayer.fdCall, hrun]
    intro fd hmarked
    rw [Task.Marked, hmask] at hmarked
    simp at hmarked

end FdLayer

end NeverMind
