import NeverMind.Model.Syscall

/-! # What the task calls change

One specification for each call of `task.c`, as facts about the table it leaves. -/

namespace NeverMind

/-- The calls that create, end and schedule tasks. -/
inductive TaskCall where
  | createKernelThread (trampoline kstack : ℕ) (name : Option (List Char)) (entry arg : ℕ)
  | fork (kstack : ℕ)
  | exit (code : ℕ)
  | waitpid (pid : ℤ)
  | setPolicy (policy : SchedPolicy)
  | tick (ticks : ℕ)
  | yield (rsp : ℕ)

def Kernel.taskCall {F : Type*} (call : TaskCall) (k : Kernel F) : Kernel F :=
  match call with
  | .createKernelThread trampoline kstack name entry arg =>
    { k with proc := (k.proc.taskCreateKernelThread trampoline kstack name entry arg).2 }
  | .fork kstack => (k.sysFork kstack).2
  | .exit code => (k.sysExit code).2
  | .waitpid pid => { k with proc := (k.proc.procWaitpid pid).2 }
  | .setPolicy policy => { k with proc := k.proc.schedSetPolicy policy }
  | .tick ticks => { k with proc := k.proc.schedTick ticks }
  | .yield rsp => { k with proc := k.proc.schedYield rsp }

def noFiles : FsOps Unit where
  fsRead := fun _ _ fs => ((-1, []), fs)
  fsWrite := fun _ _ _ fs => (-1, fs)
  fsClose := fun _ fs => fs

def Kernel.booted : Kernel Unit :=
  { proc := Proc.atStart.procInit, fd := (FdLayer.atStart ()).nmFdInit, console := [] }

namespace Proc

variable {p p' : Proc} {i j : TaskRef}

@[simp] theorem taskTable_modifyTask (i : TaskRef) (f : Task → Task) (p : Proc) :
    (p.modifyTask i f).taskTable = Function.update p.taskTable i (f (p.taskTable i)) :=
  rfl

@[simp] theorem taskTable_setTask (i : TaskRef) (task : Task) (p : Proc) :
    (p.setTask i task).taskTable = Function.update p.taskTable i task :=
  rfl

@[simp] theorem currentTask_modifyTask (i : TaskRef) (f : Task → Task) (p : Proc) :
    (p.modifyTask i f).currentTask = p.currentTask :=
  rfl

theorem get_modifyTask_of_keep {β : Type*} (get : Task → β) {f : Task → Task}
    (hf : ∀ task, get (f task) = get task) (i j : TaskRef) (p : Proc) :
    get ((p.modifyTask i f).taskTable j) = get (p.taskTable j) := by
  by_cases hij : j = i
  · subst hij
    simp [hf]
  · simp [hij]

theorem allocTaskSlot_unused (h : p.allocTaskSlot = some i) : (p.taskTable i).state = .unused := by
  have hfound := List.find?_some h
  simpa using hfound

/-! ## Creating tasks -/

/-- A new kernel thread in a slot that was free. -/
structure Created (kstack : ℕ) (p : Proc) (i : TaskRef) (p' : Proc) : Prop where
  free : (p.taskTable i).state = .unused
  state : (p'.taskTable i).state = .runnable
  fds : (p'.taskTable i).fdTable = fun _ => -1
  others : ∀ j, j ≠ i → p'.taskTable j = p.taskTable j
  current : p'.currentTask = p.currentTask
  kstacks : p'.kstacks = kstack :: p.kstacks

theorem taskCreateKernelThread_spec (trampoline kstack : ℕ) (name : Option (List Char))
    (entry arg : ℕ) (p : Proc) :
    p.taskCreateKernelThread trampoline kstack name entry arg = (none, p) ∨
      ∃ i p', p.taskCreateKernelThread trampoline kstack name entry arg = (some i, p') ∧
        Created kstack p i p' := by
  unfold taskCreateKernelThread
  split
  · exact .inl rfl
  · dsimp only
    split
    · -- the stack is given back
      left
      simp [takeStack, kfree]
    · rename_i i halloc
      right
      refine ⟨i, _, rfl, allocTaskSlot_unused halloc, ?_, ?_, ?_, rfl, rfl⟩
      · simp
      · simp
      · intro j hj
        simp [takeStack, hj]

theorem mask_taskCreateKernelThread {trampoline kstack : ℕ} {name : Option (List Char)}
    {entry arg : ℕ} (h : p.taskCreateKernelThread trampoline kstack name entry arg = (some i, p')) :
    (p'.taskTable i).fdCloexecMask = 0 := by
  unfold taskCreateKernelThread at h
  split at h
  · cases h
  · dsimp only at h
    split at h
    · cases h
    · cases h
      simp

/-- A child in a slot that was free, with the descriptors of its parent. -/
structure Forked (kstack : ℕ) (p : Proc) (parent child : TaskRef) (p' : Proc) : Prop where
  parent_current : p.currentTask = some parent
  free : (p.taskTable child).state = .unused
  state : (p'.taskTable child).state = .runnable
  fds : (p'.taskTable child).fdTable = (p.taskTable parent).fdTable
  others : ∀ j, j ≠ child → p'.taskTable j = p.taskTable j
  current : p'.currentTask = p.currentTask
  kstacks : p'.kstacks = kstack :: p.kstacks

theorem procForkCurrent_spec (kstack : ℕ) (p : Proc) :
    p.procForkCurrent kstack = (none, p) ∨
      ∃ parent child p', p.procForkCurrent kstack = (some child, p') ∧
        Forked kstack p parent child p' := by
  unfold procForkCurrent
  split
  · exact .inl rfl
  · rename_i parent hcur
    split
    · exact .inl rfl
    · rename_i child halloc
      have hfree := allocTaskSlot_unused halloc
      split
      · exact .inl rfl
      · right
        have hfree' : ((p.takeStack kstack).taskTable child).state = .unused := hfree
        dsimp only
        rw [if_neg (not_not.mpr hfree')]
        refine ⟨parent, child, _, rfl, hcur, hfree, ?_, ?_, ?_, rfl, rfl⟩
        · simp
        · simp [takeStack]
        · intro j hj
          simp [takeStack, hj]

theorem mask_procForkCurrent {kstack : ℕ} (h : p.procForkCurrent kstack = (some j, p'))
    (hcur : p.currentTask = some i) :
    (p'.taskTable j).fdCloexecMask = (p.taskTable i).fdCloexecMask := by
  unfold procForkCurrent at h
  rw [hcur] at h
  dsimp only at h
  split at h
  · cases h
  · split at h
    · cases h
    · split at h
      · cases h
      · cases h
        simp [takeStack]

/-! ## Ending tasks -/

/-- A dead child of the current task left the table. -/
structure Reaped (p : Proc) (parent dead : TaskRef) (p' : Proc) : Prop where
  parent_current : p.currentTask = some parent
  zombie : (p.taskTable dead).state = .zombie
  ppid : (p.taskTable dead).ppid = (p.taskTable parent).pid
  table : p'.taskTable = Function.update p.taskTable dead (reapSlot (p.taskTable dead))
  current : p'.currentTask = p.currentTask
  kstacks : p'.kstacks = p.kstacks
  stackMem : p'.stackMem = p.stackMem

theorem procWaitpid_spec (pid : ℤ) (p : Proc) :
    p.procWaitpid pid = ((nmErr nmEfail, none), p) ∨ ∃ parent dead p', p.procWaitpid pid =
          (((p.taskTable dead).pid, some (p.taskTable dead).exitCode), p') ∧
        Reaped p parent dead p' := by
  unfold procWaitpid
  split
  · exact .inl rfl
  · rename_i parent hcur
    split
    · exact .inl rfl
    · rename_i dead hfound
      right
      have htest := List.find?_some hfound
      simp only [reapable, Bool.and_eq_true, beq_iff_eq] at htest
      exact ⟨parent, dead, _, rfl, hcur, htest.1.1, htest.1.2, rfl, rfl, rfl, rfl⟩

end Proc

/-! ## The fork call -/

/-- Inheriting descriptors changes the descriptor table of the child only. -/
theorem FdLayer.nmFdOnForkChild_rest {F : Type*} (child : Task) (L : FdLayer F) :
    ∃ fds, (L.nmFdOnForkChild child).2.1 = { child with fdTable := fds } := by
  have hfold : ∀ (is : List (Fin 32)) (st : Task × FdLayer F),
      ∃ fds, (is.foldl (fun st i => inheritFd i st) st).1 = { st.1 with fdTable := fds } := by
    intro is
    induction is with
    | nil => exact fun st => ⟨st.1.fdTable, rfl⟩
    | cons i is ih =>
      intro st
      obtain ⟨fds, hfds⟩ := ih (inheritFd i st)
      have hstep : ∃ fds, (inheritFd i st).1 = { st.1 with fdTable := fds } := by
        unfold inheritFd
        dsimp only
        split
        · exact ⟨st.1.fdTable, rfl⟩
        · split
          · exact ⟨_, rfl⟩
          · exact ⟨st.1.fdTable, rfl⟩
      obtain ⟨fds', hfds'⟩ := hstep
      refine ⟨fds, ?_⟩
      rw [List.foldl_cons, hfds, hfds']
  exact hfold (List.finRange 32) (child, L)

namespace Kernel

variable {F : Type*} {k k' : Kernel F}

/-- A fork that made a child, which inherits the descriptors of a copy of its parent. Other
tasks change in their registers at most. -/
structure ForkedChild (kstack : ℕ) (k : Kernel F) (parent child : TaskRef) (k' : Kernel F) :
    Prop where
  parent_current : k.proc.currentTask = some parent
  free : (k.proc.taskTable child).state = .unused
  state : (k'.proc.taskTable child).state = .runnable
  inherits : ∃ copy : Task, copy.fdTable = (k.proc.taskTable parent).fdTable ∧
    (k.fd.nmFdOnForkChild copy).2.1.fdTable = (k'.proc.taskTable child).fdTable ∧
    (k.fd.nmFdOnForkChild copy).2.2 = k'.fd
  others : ∀ j, j ≠ child → ∃ regs, k'.proc.taskTable j = { k.proc.taskTable j with regs := regs }
  current : k'.proc.currentTask = k.proc.currentTask
  kstacks : k'.proc.kstacks = kstack :: k.proc.kstacks

/-- The kernel after a fork, once the slot of the child is filled: the child inherits, and the
parent gets the pid. -/
def withChild (parent child : TaskRef) (p : Proc) (k : Kernel F) : Kernel F :=
  let inherited := k.fd.nmFdOnForkChild (p.taskTable child)
  let setRax : Task → Task := fun task =>
    { task with regs := { task.regs with rax := ((p.taskTable child).pid % 2 ^ 64).toNat } }
  { k with proc := (p.setTask child inherited.2.1).modifyTask parent setRax, fd := inherited.2.2 }

theorem task_withChild (parent child : TaskRef) (p : Proc) (k : Kernel F) :
    ∃ regs fds, (k.withChild parent child p).proc.taskTable child =
        { p.taskTable child with regs := regs, fdTable := fds } ∧
      fds = (k.fd.nmFdOnForkChild (p.taskTable child)).2.1.fdTable := by
  obtain ⟨fds, hfds⟩ := FdLayer.nmFdOnForkChild_rest (p.taskTable child) k.fd
  unfold withChild
  dsimp only
  rw [hfds]
  by_cases hpc : child = parent
  · subst hpc
    exact ⟨{ (p.taskTable child).regs with rax := ((p.taskTable child).pid % 2 ^ 64).toNat }, fds,
      by simp, rfl⟩
  · exact ⟨(p.taskTable child).regs, fds, by simp [hpc], rfl⟩

theorem forkedChild_withChild {kstack : ℕ} {parent child : TaskRef} {p : Proc}
    (h : k.proc.Forked kstack parent child p) :
    ForkedChild kstack k parent child (k.withChild parent child p) := by
  obtain ⟨regs, fds, htask, hfds⟩ := k.task_withChild parent child p
  refine ⟨h.parent_current, h.free, ?_, ⟨p.taskTable child, h.fds, ?_, rfl⟩, ?_, h.current,
    h.kstacks⟩
  · rw [htask]
    exact h.state
  · rw [htask, hfds]
  · intro j hj
    unfold withChild
    by_cases hp : j = parent
    · subst hp
      exact ⟨{ (k.proc.taskTable j).regs with rax := ((p.taskTable child).pid % 2 ^ 64).toNat },
        by simp [hj, h.others j hj]⟩
    · exact ⟨(k.proc.taskTable j).regs, by simp [hp, hj, h.others j hj]⟩

theorem sysFork_withChild (kstack : ℕ) (k : Kernel F) :
    k.sysFork kstack = (nmErr nmEfail, k) ∨
      ∃ parent child p, k.proc.procForkCurrent kstack = (some child, p) ∧
        k.proc.Forked kstack parent child p ∧
        k.sysFork kstack =
          (((k.withChild parent child p).proc.taskTable child).pid,
            k.withChild parent child p) := by
  unfold sysFork Proc.taskCurrent
  cases hcur : k.proc.currentTask with
  | none => exact .inl rfl
  | some parent =>
    dsimp only
    cases Proc.procForkCurrent_spec kstack k.proc with
    | inl hfail =>
      rw [hfail]
      exact .inl rfl
    | inr hfork =>
      obtain ⟨parent', child, p, hrun, hforked⟩ := hfork
      obtain rfl : parent' = parent := Option.some.inj (hforked.parent_current.symm.trans hcur)
      obtain ⟨regs, fds, htask, -⟩ := k.task_withChild parent' child p
      obtain ⟨fds', hfds'⟩ := FdLayer.nmFdOnForkChild_rest (p.taskTable child) k.fd
      refine .inr ⟨parent', child, p, hrun, hforked, ?_⟩
      rw [hrun, htask]
      simp [onTask, withChild, hfds']

theorem sysFork_spec (kstack : ℕ) (k : Kernel F) :
    k.sysFork kstack = (nmErr nmEfail, k) ∨
      ∃ parent child k', k.sysFork kstack = ((k'.proc.taskTable child).pid, k') ∧
        ForkedChild kstack k parent child k' := by
  rcases sysFork_withChild kstack k with hfail | ⟨parent, child, p, -, hforked, hrun⟩
  · exact .inl hfail
  · exact .inr ⟨parent, child, _, hrun, forkedChild_withChild hforked⟩

end Kernel

end NeverMind
