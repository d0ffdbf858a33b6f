import NeverMind.Verification.Fd.Cloexec
import NeverMind.Verification.Proc.Lifecycle

/-! # Descriptors across exec

In every run without a reap only open descriptors are marked. An exec that succeeds closes the
marked descriptors of its task and no other, and one that fails changes nothing. -/

namespace NeverMind

open Proc

namespace Task

def markedRefs (task : Task) (o : Fin 128) : ℕ :=
  (Finset.univ.filter fun fd => task.Marked fd ∧ task.fdTable fd = (o.val : ℤ)).card

theorem holds_add_markedRefs {task task' : Task} (o : Fin 128)
    (h : ∀ fd, task'.fdTable fd = if task.Marked fd then -1 else task.fdTable fd) :
    task'.holds o + task.markedRefs o = task.holds o := by
  have hkept : ∀ fd, task'.fdTable fd = (o.val : ℤ) ↔
      task.fdTable fd = (o.val : ℤ) ∧ ¬ task.Marked fd := by
    intro fd
    rw [h fd]
    by_cases hmarked : task.Marked fd
    · have hne : ¬ (-1 : ℤ) = (o.val : ℤ) := by omega
      simp [hmarked, hne]
    · simp [hmarked]
  have hsplit := Finset.card_filter_add_card_filter_not
    (s := Finset.univ.filter fun fd => task.fdTable fd = (o.val : ℤ)) fun fd => task.Marked fd
  rw [Finset.filter_filter, Finset.filter_filter] at hsplit
  simp only [holds, markedRefs, hkept]
  rw [Nat.add_comm]
  simpa [and_comm] using hsplit

end Task

namespace Kernel

variable {F : Type*} (ops : FsOps F) {k k' : Kernel F}

/-- The arguments of an exec, with what the file system and the memory answer. -/
structure ExecCall (F : Type*) where
  fsStat : List Char → F → ℤ
  ptrAt : ℕ → ℕ
  name : Option (List Char)
  argv : ℕ
  envp : ℕ
  a4 : ℕ

def exec (call : ExecCall F) (k : Kernel F) : ℤ × Kernel F :=
  k.sysExec ops call.fsStat call.ptrAt call.name call.argv call.envp call.a4

def closedOnExec (t : TaskRef) (k : Kernel F) : Kernel F :=
  (k.onTask t fun task L => L.fdCall ops .closeOnExec task).2

/-- What an exec can do: nothing, or close the marked descriptors and then change the current
task in what neither descriptors nor scheduling depend on. -/
inductive Execs (k : Kernel F) : ℤ × Kernel F → Prop where
  | refused {ret : ℤ} (hret : ret ≠ 0) : Execs k (ret, k)
  | done {cur : TaskRef} {f : Task → Task} (hcur : k.proc.currentTask = some cur)
      (hfds : ∀ task, (f task).fdTable = task.fdTable)
      (hmask : ∀ task, (f task).fdCloexecMask = task.fdCloexecMask)
      (hstate : ∀ task, (f task).state = task.state) :
      Execs k (0, { k.closedOnExec ops cur with
        proc := (k.closedOnExec ops cur).proc.modifyTask cur f })

theorem execs_exec (call : ExecCall F) (k : Kernel F) : Execs ops k (k.exec ops call) := by
  have hrefused : Execs ops k (nmErr nmEfail, k) := .refused (by decide)
  unfold exec sysExec
  split
  · exact hrefused
  · split
    · exact hrefused
    · extract_lets resolved direct finalEntry closed r
      split
      · exact hrefused
      · cases hcur : k.proc.currentTask with
        | none =>
          have hclosed : closed = k := by simp only [closed, taskCurrent, hcur]
          have hr : r = (nmErr nmEfail, k.proc) := by
            simp only [r, hclosed, procExecCurrent, hcur]
          rw [hr, hclosed]
          exact hrefused
        | some cur =>
          have hclosed : closed = k.closedOnExec ops cur := by
            simp only [closed, taskCurrent, hcur, closedOnExec, onTask, FdLayer.fdCall]
          have hcur' : (k.closedOnExec ops cur).proc.currentTask = some cur := hcur
          simp only [r, hclosed, procExecCurrent, hcur']
          exact .done hcur (fun _ => rfl) (fun _ => rfl) (fun _ => rfl)

/-! ## Marks over whole runs -/

/-- What holds in every state of a run without a reap: the books are right, and only open
descriptors are marked. -/
structure Policed (k : Kernel F) : Prop where
  accounted : k.Accounted
  marks : ∀ t, k.InUse t → (k.proc.taskTable t).MarksOpen

theorem Policed.scheduled (h : k.Policed) {p' : Proc} (hsched : k.proc.Scheduled p')
    (hmask : ∀ t, (p'.taskTable t).fdCloexecMask = (k.proc.taskTable t).fdCloexecMask) :
    ({ k with proc := p' } : Kernel F).Policed := by
  refine ⟨h.accounted.scheduled hsched, fun t ht fd hmarked => ?_⟩
  have hlive : k.InUse t := fun hfree => ht (((hsched.live h.accounted.current).1 t).mpr hfree)
  have hopen := h.marks t hlive fd
  rw [Task.Marked, ← hmask] at hopen
  change (p'.taskTable t).fdTable fd ≠ -1
  rw [hsched.fds]
  exact hopen hmarked

theorem Policed.fdCall (h : k.Policed) {t : TaskRef} (ht : k.InUse t) (call : FdCall) :
    (k.onTask t fun task L => L.fdCall ops call task).2.Policed := by
  have hbalanced := h.accounted.books.balanced ht
  refine ⟨h.accounted.fdCall ops ht call, fun t' ht' => ?_⟩
  by_cases htt : t' = t
  · subst htt
    simpa [onTask] using hbalanced.marks_fdCall ops (few_othersOf k t') (h.marks t' ht) call
  · simp only [onTask, InUse, taskTable_setTask, Function.update_of_ne htt] at ht' ⊢
    exact h.marks t' ht'

theorem Policed.fork (h : k.Policed) (kstack : ℕ) : (k.taskCall (.fork kstack)).Policed := by
  refine ⟨h.accounted.fork kstack, ?_⟩
  rcases sysFork_withChild kstack k with hfail | ⟨parent, child, p, hfork, hforked, hrun⟩
  · simp only [taskCall, hfail]
    exact h.marks
  · have hparent : k.InUse parent := h.accounted.current parent hforked.parent_current
    simp only [taskCall, hrun]
    intro t ht
    by_cases htc : t = child
    · subst htc
      obtain ⟨regs, fds, htask, hfds⟩ := k.task_withChild parent t p
      obtain ⟨L', hinherit, -⟩ := h.accounted.books.inherits hparent hforked.fds
      have hmask := mask_procForkCurrent hfork hforked.parent_current
      rw [hinherit] at hfds
      rw [htask, hfds]
      intro fd hmarked
      rw [Task.Marked, hmask] at hmarked
      rw [hforked.fds]
      exact h.marks parent hparent fd hmarked
    · obtain ⟨regs, hregs⟩ := (forkedChild_withChild hforked).others t htc
      rw [InUse, hregs] at ht
      rw [hregs]
      exact h.marks t ht

theorem Policed.create (h : k.Policed) (trampoline kstack : ℕ) (name : Option (List Char))
    (entry arg : ℕ) :
    (k.taskCall (.createKernelThread trampoline kstack name entry arg)).Policed := by
  refine ⟨h.accounted.create trampoline kstack name entry arg, ?_⟩
  rcases taskCreateKernelThread_spec trampoline kstack name entry arg k.proc with
    hfail | ⟨i, p', hrun, hcreated⟩
  · simp only [taskCall, hfail]
    exact h.marks
  · simp only [taskCall, hrun]
    intro t ht
    by_cases hti : t = i
    · subst hti
      intro fd hmarked
      rw [Task.Marked, mask_taskCreateKernelThread hrun] at hmarked
      simp at hmarked
    · rw [InUse, hcreated.others t hti] at ht
      rw [hcreated.others t hti]
      exact h.marks t ht

theorem Policed.exit (h : k.Policed) (code : ℕ) : (k.taskCall (.exit code)).Policed := by
  simp only [taskCall, sysExit, procExitCurrent]
  cases hcur : k.proc.currentTask with
  | none => exact h
  | some cur =>
    refine h.scheduled (scheduled_modifyTask hcur (fun _ => rfl) (fun _ _ => by simp)) ?_
    intro t
    exact get_modifyTask_of_keep Task.fdCloexecMask
      (f := fun task => { task with exitCode := i32 code, state := .zombie }) (fun _ => rfl) cur t
      k.proc

theorem Policed.taskStep (h : k.Policed) (hstep : TaskStep ops k k') : k'.Policed := by
  have haccounted := h.accounted.step ops hstep
  cases hstep with
  | fdCall t call ht => exact h.fdCall ops ht call
  | setCurrent t ht => exact ⟨haccounted, h.marks⟩
  | taskCall call hcall =>
    cases call with
    | createKernelThread trampoline kstack name entry arg =>
      exact h.create trampoline kstack name entry arg
    | fork kstack => exact h.fork kstack
    | exit code => exact h.exit code
    | waitpid pid => exact absurd rfl (hcall pid)
    | setPolicy policy => exact ⟨haccounted, h.marks⟩
    | tick ticks =>
      exact h.scheduled (scheduled_schedTick ticks k.proc)
        (get_schedTick_of_keep Task.fdCloexecMask (fun _ _ _ => rfl) ticks)
    | yield rsp =>
      exact h.scheduled (scheduled_schedYield rsp k.proc)
        (get_schedYield_of_keep Task.fdCloexecMask (fun _ _ _ => rfl) rsp)

theorem Policed.console (h : k.Policed) (console : List Byte) :
    ({ k with console := console } : Kernel F).Policed :=
  ⟨⟨⟨h.accounted.books.counted, h.accounted.books.valid⟩, h.accounted.current⟩, h.marks⟩

theorem Policed.fdSyscall (h : k.Policed) (call : FdSyscall) : (k.fdSyscall ops call).Policed := by
  obtain ⟨console, hnone | ⟨cur, call', hcur, hcall⟩⟩ := callsOnCurrent_fdSyscall ops call k
  · rw [hnone]
    exact h.console console
  · rw [hcall]
    exact (h.fdCall ops (h.accounted.current cur hcur) call').console console

theorem Policed.exec (h : k.Policed) (call : ExecCall F) : (k.exec ops call).2.Policed := by
  have hexecs := execs_exec ops call k
  generalize k.exec ops call = r at hexecs ⊢
  cases hexecs with
  | refused hret => exact h
  | @done cur f hcur hfds hmask hstate =>
    have hclosed := h.fdCall ops (h.accounted.current cur hcur) .closeOnExec
    refine hclosed.scheduled (scheduled_modifyTask hcur hfds fun task hlive => ?_) fun t =>
      get_modifyTask_of_keep Task.fdCloexecMask hmask cur t _
    rw [hstate]
    exact hlive

/-- One step of a run without a reap: of the tasks, a system call on descriptors, or an exec. -/
inductive ExecStep (k : Kernel F) : Kernel F → Prop where
  | tasks {k' : Kernel F} (hstep : TaskStep ops k k') : ExecStep k k'
  | fdSyscall (call : FdSyscall) : ExecStep k (k.fdSyscall ops call)
  | exec (call : ExecCall F) : ExecStep k (k.exec ops call).2

theorem Policed.step (h : k.Policed) (hstep : ExecStep ops k k') : k'.Policed := by
  cases hstep with
  | tasks hstep => exact h.taskStep ops hstep
  | fdSyscall call => exact h.fdSyscall ops call
  | exec call => exact h.exec ops call

theorem Policed.run (h : k.Policed) (hrun : Relation.ReflTransGen (ExecStep ops) k k') :
    k'.Policed := by
  induction hrun with
  | refl => exact h
  | tail _ hstep ih => exact ih.step ops hstep

/-! ## The policy -/

/-- What an exec does to the descriptors: it closes those that the task has marked, and takes
their references from the counters. -/
structure ClosesMarked (k : Kernel F) (cur : TaskRef) (k' : Kernel F) : Prop where
  fds : ∀ fd, (k'.proc.taskTable cur).fdTable fd =
    if (k.proc.taskTable cur).Marked fd then -1 else (k.proc.taskTable cur).fdTable fd
  mask : (k'.proc.taskTable cur).fdCloexecMask = 0
  refcnt : ∀ o, (k'.fd.fdobjTable o).refcnt + (k.proc.taskTable cur).markedRefs o =
    (k.fd.fdobjTable o).refcnt
  refcounted : k'.Refcounted
  others : ∀ t, t ≠ cur → k'.proc.taskTable t = k.proc.taskTable t

/-- What close-on-exec promises in a state. -/
structure CloexecPolicy (k : Kernel F) : Prop where
  /-- Only open descriptors are marked. -/
  marks : ∀ t, k.InUse t → ∀ fd, (k.proc.taskTable t).Marked fd →
    ∃ o : Fin 128, (k.proc.taskTable t).fdTable fd = (o.val : ℤ) ∧ (k.fd.fdobjTable o).used = true
  /-- The ends of a new pipe are not marked. -/
  pipe : ∀ t, k.InUse t → ∀ rd wr task' L',
    k.fd.nmFdPipe ops (k.proc.taskTable t) = ((0, some (rd, wr)), task', L') →
      ¬ task'.Marked rd ∧ ¬ task'.Marked wr
  /-- A new duplicate is not marked. -/
  dup2 : ∀ t, k.InUse t → ∀ oldfd newfd ret task' L', oldfd ≠ newfd →
    k.fd.nmFdDup2 ops (k.proc.taskTable t) oldfd newfd = (ret, task', L') → 0 ≤ ret →
      ∃ fd, fdIndex newfd = some fd ∧ ¬ task'.Marked fd
  /-- A successful exec closes the marked descriptors of the current task. -/
  exec : ∀ call k', k.exec ops call = (0, k') →
    ∃ cur, k.proc.currentTask = some cur ∧ ClosesMarked k cur k'
  /-- A refused exec changes nothing. -/
  refused : ∀ call ret k', k.exec ops call = (ret, k') → ret ≠ 0 → k' = k

theorem Policed.closesMarked (h : k.Policed) {cur : TaskRef} (hcur : k.proc.currentTask = some cur)
    {f : Task → Task} (hfds : ∀ task, (f task).fdTable = task.fdTable)
    (hmask : ∀ task, (f task).fdCloexecMask = task.fdCloexecMask)
    (hk' : k' = { k.closedOnExec ops cur with
      proc := (k.closedOnExec ops cur).proc.modifyTask cur f })
    (hrefcounted : k'.Refcounted) : ClosesMarked k cur k' := by
  have hbalanced := h.accounted.books.balanced (h.accounted.current cur hcur)
  obtain ⟨task', L', hrun, hbalanced', hfds', hmask'⟩ := hbalanced.nmFdCloseOnExec_eq ops
  have hclosed :
      k.closedOnExec ops cur = { k with proc := k.proc.setTask cur task', fd := L' } := by
    simp only [closedOnExec, onTask, FdLayer.fdCall, hrun]
  have hcurrent : k'.proc.taskTable cur = f task' := by simp [hk', hclosed]
  refine ⟨fun fd => ?_, ?_, fun o => ?_, hrefcounted, fun t ht => ?_⟩
  · rw [hcurrent, hfds, hfds' fd]
  · rw [hcurrent, hmask]
    exact hmask'
  · have hrefs : (k.fd.fdobjTable o).refcnt = k.othersOf cur o + (k.proc.taskTable cur).holds o :=
      hbalanced.counted.refcnt_eq o
    have hrefs' : (L'.fdobjTable o).refcnt = k.othersOf cur o + task'.holds o :=
      hbalanced'.counted.refcnt_eq o
    have hsplit := Task.holds_add_markedRefs o hfds'
    have hfd : k'.fd = L' := by simp [hk', hclosed]
    rw [hfd]
    omega
  · simp [hk', hclosed, ht]

theorem Policed.cloexecPolicy (h : k.Policed) : k.CloexecPolicy ops where
  marks := by
    intro t ht fd hmarked
    exact (h.accounted.books.refcounted.entries t ht fd).resolve_left (h.marks t ht fd hmarked)
  pipe := by
    intro t ht rd wr task' L' hpipe
    rcases FdLayer.nmFdPipe_spec ops (k.proc.taskTable t) k.fd with
      ⟨L₁, hrun, -⟩ | ⟨p, rd₁, wr₁, task₁, L₁, hrun, hmade⟩
    · rw [hrun] at hpipe
      cases hpipe
    · rw [hrun] at hpipe
      cases hpipe
      exact (hmade.marks (h.marks t ht)).2
  dup2 := by
    intro t ht oldfd newfd ret task' L' hne hdup hret
    have hmarks := ((h.accounted.books.balanced ht).marks_nmFdDup2 ops (few_othersOf k t) oldfd
      newfd (h.marks t ht)).2 hne
    rw [hdup] at hmarks
    exact hmarks hret
  exec := by
    intro call k' hcall
    have hexecs := execs_exec ops call k
    have hpoliced := h.exec ops call
    rw [hcall] at hexecs hpoliced
    generalize hr : ((0 : ℤ), k') = r at hexecs
    cases hexecs with
    | refused hret => exact absurd (congrArg Prod.fst hr).symm hret
    | done hcur hfds hmask hstate =>
      exact ⟨_, hcur, h.closesMarked ops hcur hfds hmask (congrArg Prod.snd hr)
        hpoliced.accounted.books.refcounted⟩
  refused := by
    intro call ret k' hcall hret
    have hexecs := execs_exec ops call k
    rw [hcall] at hexecs
    generalize hr : (ret, k') = r at hexecs
    cases hexecs with
    | refused => exact congrArg Prod.snd hr
    | done => exact absurd (congrArg Prod.fst hr) hret

theorem policed_nmFdInit (hfds : ∀ t, k.InUse t → ∀ fd, (k.proc.taskTable t).fdTable fd = -1)
    (hmarks : ∀ t, k.InUse t → (k.proc.taskTable t).fdCloexecMask = 0)
    (hcurrent : k.proc.CurrentLive) : ({ k with fd := k.fd.nmFdInit } : Kernel F).Policed := by
  refine ⟨accounted_nmFdInit hfds hcurrent, fun t ht fd hmarked => ?_⟩
  rw [Task.Marked, hmarks t ht] at hmarked
  simp at hmarked

/-- From `nm_fd_init` with no descriptor open or marked, close-on-exec keeps its promises in
every state of every run in which no task is reaped. -/
theorem cloexec_policy {k k' : Kernel F}
    (hfds : ∀ t, k.InUse t → ∀ fd, (k.proc.taskTable t).fdTable fd = -1)
    (hmarks : ∀ t, k.InUse t → (k.proc.taskTable t).fdCloexecMask = 0)
    (hcurrent : k.proc.CurrentLive)
    (hrun : Relation.ReflTransGen (ExecStep ops) { k with fd := k.fd.nmFdInit } k') :
    k'.CloexecPolicy ops :=
  ((policed_nmFdInit hfds hmarks hcurrent).run ops hrun).cloexecPolicy ops

def plainExec : ExecCall Unit where
  fsStat := fun _ _ => 0
  ptrAt := fun _ => 0
  name := some "/bin/sh".toList
  argv := 0x4000
  envp := 0
  a4 := 0

def markedPipe : Kernel Unit :=
  (booted.fdSyscall noFiles (.pipe true)).fdSyscall noFiles (.fdCloexec 0 1)

theorem cloexec_policy_markedPipe :
    markedPipe.CloexecPolicy noFiles ∧ (markedPipe.proc.taskTable 0).Marked 0 ∧
      (markedPipe.exec noFiles plainExec).1 = 0 ∧
      ((markedPipe.exec noFiles plainExec).2.proc.taskTable 0).fdTable 0 = -1 ∧
      ((markedPipe.exec noFiles plainExec).2.proc.taskTable 0).fdTable 1 = 1 := by
  refine ⟨cloexec_policy noFiles (k := booted) (by decide +kernel) (by decide +kernel)
    currentLive_booted ?_, by decide +kernel, by decide +kernel, by decide +kernel,
    by decide +kernel⟩
  exact .head (.fdSyscall (.pipe true)) (.single (.fdSyscall (.fdCloexec 0 1)))

end Kernel

end NeverMind
