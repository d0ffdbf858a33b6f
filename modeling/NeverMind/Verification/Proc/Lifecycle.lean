import NeverMind.Verification.Fd.Refcounts

/-! # What a process leaves behind

A process is made by a fork and ends with an exit and a wait by its parent. The exit and the
wait give back neither its kernel stack nor its descriptors. -/

namespace NeverMind

open Proc FdLayer

/-- The system calls on descriptors. -/
inductive FdSyscall where
  | write (fd : ℕ) (buf : Option (ℕ → Byte)) (len : ℕ)
  | read (fd : ℕ) (buf : Bool) (len : ℕ)
  | close (fd : ℕ)
  | pipe (fdsPtr : Bool)
  | dup2 (oldfd newfd : ℕ)
  | fdCloexec (fd enabled : ℕ)

namespace Kernel

variable {F : Type*} (ops : FsOps F) {k k' : Kernel F}

def fdSyscall (call : FdSyscall) (k : Kernel F) : Kernel F :=
  match call with
  | .write fd buf len => (k.sysWrite ops fd buf len).2
  | .read fd buf len => (k.sysRead ops fd buf len).2
  | .close fd => (k.sysClose ops fd).2
  | .pipe fdsPtr => (k.sysPipe ops fdsPtr).2
  | .dup2 oldfd newfd => (k.sysDup2 ops oldfd newfd).2
  | .fdCloexec fd enabled => (k.sysFdCloexec fd enabled).2

def fdSyscalls (calls : List FdSyscall) (k : Kernel F) : Kernel F :=
  calls.foldl (fun k call => k.fdSyscall ops call) k

def runAs (t : TaskRef) (k : Kernel F) : Kernel F :=
  { k with proc := k.proc.procSetCurrent (some t) }

def childEnds (child : TaskRef) (calls : List FdSyscall) (code : ℕ) (k : Kernel F) : Kernel F :=
  (((k.runAs child).fdSyscalls ops calls).sysExit code).2

/-- A fork, the calls and the exit of the child, and the wait of the parent that reaps it. -/
structure Cycle (kstack : ℕ) (k : Kernel F) (parent child : TaskRef) (calls : List FdSyscall)
    (code pid : ℕ) (statusPtr : Bool) (k' : Kernel F) : Prop where
  forked : ForkedChild kstack k parent child (k.sysFork kstack).2
  waited : k' = ((((k.sysFork kstack).2.childEnds ops child calls code).runAs parent).sysWaitpid
    pid statusPtr).2
  reaped : (k'.proc.taskTable child).state = .unused

def heldEnds (kind : FdobjKind) (p : Fin 16) (k : Kernel F) : ℕ :=
  ∑ i with (k.fd.fdobjTable i).kind = kind ∧ (k.fd.fdobjTable i).pipeId = (p.val : ℤ), k.holders i

/-- Every counter is the number of descriptors held by the tasks that are left, and a pipe
that none of them holds is free. -/
structure CountsAgree (k : Kernel F) : Prop where
  objects : ∀ i, (k.fd.fdobjTable i).refcnt = k.holders i
  readers : ∀ p, (k.fd.pipeTable p).readers = k.heldEnds .pipeR p
  writers : ∀ p, (k.fd.pipeTable p).writers = k.heldEnds .pipeW p
  pipes : ∀ p, k.heldEnds .pipeR p + k.heldEnds .pipeW p = 0 → (k.fd.pipeTable p).used = false

/-- What a process used is given back. -/
def Conserved (kstack : ℕ) (k : Kernel F) : Prop := k.CountsAgree ∧ kstack ∉ k.proc.kstacks

/-! ## The stack -/

variable {t : TaskRef}

theorem onTask_snd_congr {α β : Type*} {f : Task → FdLayer F → α × Task × FdLayer F}
    {g : Task → FdLayer F → β × Task × FdLayer F}
    (h : (f (k.proc.taskTable t) k.fd).2 = (g (k.proc.taskTable t) k.fd).2) :
    (k.onTask t f).2 = (k.onTask t g).2 := by
  simp only [onTask, h]

/-- The effects of a system call on descriptors: none, or a call on the descriptors of the
current task, and in both cases perhaps output on the console. -/
def CallsOnCurrent (k k' : Kernel F) : Prop :=
  ∃ console, k' = { k with console := console } ∨ ∃ cur call, k.proc.currentTask = some cur ∧
      k' = { (k.onTask cur fun task L => L.fdCall ops call task).2 with console := console }

theorem callsOnCurrent_refl (k : Kernel F) : CallsOnCurrent ops k k := ⟨k.console, .inl rfl⟩

section

variable {cur : TaskRef} (hcur : k.proc.currentTask = some cur)

include hcur

theorem callsOnCurrent_onTask {α : Type*} (call : FdCall)
    {f : Task → FdLayer F → α × Task × FdLayer F} {r : α × Kernel F} (hr : r = k.onTask cur f)
    (h : (f (k.proc.taskTable cur) k.fd).2 = (k.fd.fdCall ops call (k.proc.taskTable cur)).2)
    (console : List Byte) : CallsOnCurrent ops k { r.2 with console := console } := by
  refine ⟨console, .inr ⟨cur, call, hcur, ?_⟩⟩
  rw [hr, onTask_snd_congr h]

theorem callsOnCurrent_write {fd : ℤ} {data : ℕ → Byte} {len : ℕ} {r : ℤ × Kernel F}
    (hr : (k.onTask cur fun task L => L.nmFdWrite ops task fd (some data) len) = r)
    (console : List Byte) : CallsOnCurrent ops k { r.2 with console := console } :=
  callsOnCurrent_onTask ops hcur (.write fd (some data) len) hr.symm
    (by simp only [fdCall]) console

theorem callsOnCurrent_read {fd : ℤ} {buf : Bool} {len : ℕ} {r : (ℤ × List Byte) × Kernel F}
    (hr : (k.onTask cur fun task L => L.nmFdRead ops task fd buf len) = r) :
    CallsOnCurrent ops k r.2 :=
  callsOnCurrent_onTask ops hcur (.read fd buf len) hr.symm (by simp only [fdCall])
    r.2.console

theorem callsOnCurrent_close {fd : ℤ} {r : ℤ × Kernel F}
    (hr : (k.onTask cur fun task L => L.nmFdClose ops task fd) = r) : CallsOnCurrent ops k r.2 :=
  callsOnCurrent_onTask ops hcur (.close fd) hr.symm (by simp only [fdCall]) r.2.console

theorem callsOnCurrent_pipe {r : (ℤ × Option (Fin 32 × Fin 32)) × Kernel F}
    (hr : (k.onTask cur fun task L => L.nmFdPipe ops task) = r) : CallsOnCurrent ops k r.2 :=
  callsOnCurrent_onTask ops hcur .pipe hr.symm (by simp only [fdCall]) r.2.console

theorem callsOnCurrent_dup2 {oldfd newfd : ℤ} {r : ℤ × Kernel F}
    (hr : (k.onTask cur fun task L => L.nmFdDup2 ops task oldfd newfd) = r) :
    CallsOnCurrent ops k r.2 :=
  callsOnCurrent_onTask ops hcur (.dup2 oldfd newfd) hr.symm (by simp only [fdCall])
    r.2.console

theorem callsOnCurrent_setCloexec {fd : ℤ} {enabled : Bool} {r : ℤ × Kernel F}
    (hr : (k.onTask cur fun task L =>
      ((nmFdSetCloexec task fd enabled).1, (nmFdSetCloexec task fd enabled).2, L)) =
      r) : CallsOnCurrent ops k r.2 :=
  callsOnCurrent_onTask ops hcur (.setCloexec fd enabled) hr.symm
    (by simp only [fdCall]) r.2.console

/-- A write, over what the call on the descriptors of the task returned. -/
theorem sysWrite_eq (fd : ℕ) (data : ℕ → Byte) (len : ℕ) {r : ℤ × Kernel F}
    (hr : (k.onTask cur fun task L => L.nmFdWrite ops task (i32 fd) (some data) len) = r) :
    k.sysWrite ops fd (some data) len = if r.1 ≥ 0 then r
      else if fd ≠ 1 then (nmErr nmEfail, r.2)
      else (i64 len, { r.2 with console := r.2.console ++ (List.range len).map data }) := by
  unfold sysWrite taskCurrent
  rw [hcur]
  dsimp only
  rw [hr]

theorem sysRead_eq (fd : ℕ) (buf : Bool) (len : ℕ) {r : (ℤ × List Byte) × Kernel F}
    (hr : (k.onTask cur fun task L => L.nmFdRead ops task (i32 fd) buf len) = r) :
    k.sysRead ops fd buf len = if !buf then ((nmErr nmEinval, []), k) else r := by
  unfold sysRead taskCurrent
  rw [hcur]
  dsimp only
  rw [hr]

theorem sysClose_eq (fd : ℕ) {r : ℤ × Kernel F}
    (hr : (k.onTask cur fun task L => L.nmFdClose ops task (i32 fd)) = r) :
    k.sysClose ops fd = if fd ≥ nmMaxFds then (nmErr nmEfail, k) else r := by
  unfold sysClose taskCurrent
  rw [hcur]
  dsimp only
  rw [hr]

theorem sysDup2_eq (oldfd newfd : ℕ) {r : ℤ × Kernel F}
    (hr : (k.onTask cur fun task L => L.nmFdDup2 ops task (i32 oldfd) (i32 newfd)) = r) :
    k.sysDup2 ops oldfd newfd =
      if oldfd ≥ nmMaxFds ∨ newfd ≥ nmMaxFds then (nmErr nmEfail, k) else r := by
  unfold sysDup2 taskCurrent
  rw [hcur]
  dsimp only
  rw [hr]

theorem sysFdCloexec_eq (fd enabled : ℕ) {r : ℤ × Kernel F} (hr : (k.onTask cur fun task L =>
      ((nmFdSetCloexec task (i32 fd) (enabled != 0)).1,
      (nmFdSetCloexec task (i32 fd) (enabled != 0)).2, L)) = r) :
    k.sysFdCloexec fd enabled = if fd ≥ nmMaxFds then (nmErr nmEfail, k)
      else if enabled = 0 ∨ enabled = 1 then r
      else if enabled = 2 then (nmFdGetCloexec (k.proc.taskTable cur) (i32 fd), k)
      else (nmErr nmEinval, k) := by
  unfold sysFdCloexec taskCurrent
  rw [hcur]
  dsimp only
  rw [hr]

theorem callsOnCurrent_sysWrite (fd : ℕ) (data : ℕ → Byte) (len : ℕ) :
    CallsOnCurrent ops k (k.sysWrite ops fd (some data) len).2 := by
  obtain ⟨r, hr⟩ : ∃ r, (k.onTask cur fun task L =>
    L.nmFdWrite ops task (i32 fd) (some data) len) = r := ⟨_, rfl⟩
  have hcall := callsOnCurrent_write ops hcur hr
  rw [sysWrite_eq ops hcur fd data len hr]
  split
  · exact hcall r.2.console
  · split
    · exact hcall r.2.console
    · exact hcall (r.2.console ++ (List.range len).map data)

theorem callsOnCurrent_sysRead (fd : ℕ) (buf : Bool) (len : ℕ) :
    CallsOnCurrent ops k (k.sysRead ops fd buf len).2 := by
  obtain ⟨r, hr⟩ : ∃ r, (k.onTask cur fun task L =>
    L.nmFdRead ops task (i32 fd) buf len) = r := ⟨_, rfl⟩
  rw [sysRead_eq ops hcur fd buf len hr]
  split
  · exact callsOnCurrent_refl ops k
  · exact callsOnCurrent_read ops hcur hr

theorem callsOnCurrent_sysClose (fd : ℕ) : CallsOnCurrent ops k (k.sysClose ops fd).2 := by
  obtain ⟨r, hr⟩ : ∃ r, (k.onTask cur fun task L => L.nmFdClose ops task (i32 fd)) = r := ⟨_, rfl⟩
  rw [sysClose_eq ops hcur fd hr]
  split
  · exact callsOnCurrent_refl ops k
  · exact callsOnCurrent_close ops hcur hr

theorem callsOnCurrent_sysPipe (fdsPtr : Bool) : CallsOnCurrent ops k (k.sysPipe ops fdsPtr).2 := by
  obtain ⟨r, hr⟩ : ∃ r, (k.onTask cur fun task L => L.nmFdPipe ops task) = r := ⟨_, rfl⟩
  have hcall := callsOnCurrent_pipe ops hcur hr
  unfold sysPipe taskCurrent
  rw [hcur]
  dsimp only
  split
  · exact callsOnCurrent_refl ops k
  · rw [hr]
    split <;> exact hcall

theorem callsOnCurrent_sysDup2 (oldfd newfd : ℕ) :
    CallsOnCurrent ops k (k.sysDup2 ops oldfd newfd).2 := by
  obtain ⟨r, hr⟩ : ∃ r, (k.onTask cur fun task L =>
    L.nmFdDup2 ops task (i32 oldfd) (i32 newfd)) = r := ⟨_, rfl⟩
  rw [sysDup2_eq ops hcur oldfd newfd hr]
  split
  · exact callsOnCurrent_refl ops k
  · exact callsOnCurrent_dup2 ops hcur hr

theorem callsOnCurrent_sysFdCloexec (fd enabled : ℕ) :
    CallsOnCurrent ops k (k.sysFdCloexec fd enabled).2 := by
  obtain ⟨r, hr⟩ : ∃ r, (k.onTask cur fun task L =>
    ((nmFdSetCloexec task (i32 fd) (enabled != 0)).1,
      (nmFdSetCloexec task (i32 fd) (enabled != 0)).2, L)) = r := ⟨_, rfl⟩
  rw [sysFdCloexec_eq hcur fd enabled hr]
  split
  · exact callsOnCurrent_refl ops k
  · split
    · exact callsOnCurrent_setCloexec ops hcur hr
    · split <;> exact callsOnCurrent_refl ops k

end

theorem callsOnCurrent_fdSyscall (call : FdSyscall) (k : Kernel F) :
    CallsOnCurrent ops k (k.fdSyscall ops call) := by
  cases hcur : k.proc.currentTask with
  | some cur =>
    cases call with
    | write fd buf len =>
      cases buf with
      | none => exact callsOnCurrent_refl ops k
      | some data => exact callsOnCurrent_sysWrite ops hcur fd data len
    | read fd buf len => exact callsOnCurrent_sysRead ops hcur fd buf len
    | close fd => exact callsOnCurrent_sysClose ops hcur fd
    | pipe fdsPtr => exact callsOnCurrent_sysPipe ops hcur fdsPtr
    | dup2 oldfd newfd => exact callsOnCurrent_sysDup2 ops hcur oldfd newfd
    | fdCloexec fd enabled => exact callsOnCurrent_sysFdCloexec ops hcur fd enabled
  | none =>
    -- without a current task every handler fails before it reaches `fd.c`
    have hsame : k.fdSyscall ops call = k := by
      cases call with
      | write fd buf len => cases buf <;> simp only [fdSyscall, sysWrite, taskCurrent, hcur]
      | read fd buf len =>
        simp only [fdSyscall, sysRead, taskCurrent, hcur]
        split <;> rfl
      | close fd => simp only [fdSyscall, sysClose, taskCurrent, hcur]
      | pipe fdsPtr => simp only [fdSyscall, sysPipe, taskCurrent, hcur]
      | dup2 oldfd newfd => simp only [fdSyscall, sysDup2, taskCurrent, hcur]
      | fdCloexec fd enabled => simp only [fdSyscall, sysFdCloexec, taskCurrent, hcur]
    rw [hsame]
    exact callsOnCurrent_refl ops k

theorem CallsOnCurrent.proc_keep (h : CallsOnCurrent ops k k') :
    k'.proc.kstacks = k.proc.kstacks ∧ k'.proc.currentTask = k.proc.currentTask := by
  obtain ⟨console, hnone | ⟨cur, call, -, hcall⟩⟩ := h
  · rw [hnone]
    exact ⟨rfl, rfl⟩
  · rw [hcall]
    exact ⟨rfl, rfl⟩

theorem fdSyscalls_keep (calls : List FdSyscall) (k : Kernel F) :
    (k.fdSyscalls ops calls).proc.kstacks = k.proc.kstacks ∧
      (k.fdSyscalls ops calls).proc.currentTask = k.proc.currentTask := by
  induction calls generalizing k with
  | nil => exact ⟨rfl, rfl⟩
  | cons call calls ih =>
    obtain ⟨hstacks, hcurrent⟩ := (callsOnCurrent_fdSyscall ops call k).proc_keep
    obtain ⟨hstacks', hcurrent'⟩ := ih (k.fdSyscall ops call)
    exact ⟨hstacks'.trans hstacks, hcurrent'.trans hcurrent⟩

theorem kstacks_sysExit (code : ℕ) (k : Kernel F) :
    (k.sysExit code).2.proc.kstacks = k.proc.kstacks := by
  simp only [sysExit, procExitCurrent]
  split <;> rfl

theorem sysWaitpid_proc (pid : ℕ) (statusPtr : Bool) (k : Kernel F) :
    (k.sysWaitpid pid statusPtr).2 = { k with proc := (k.proc.procWaitpid (i32 pid)).2 } := by
  obtain ⟨r, hr⟩ : ∃ r, r = k.proc.procWaitpid (i32 pid) := ⟨_, rfl⟩
  unfold sysWaitpid
  rw [← hr]
  obtain ⟨⟨got, status⟩, proc⟩ := r
  dsimp only
  split <;> rfl

theorem kstacks_procWaitpid (pid : ℤ) (p : Proc) : (p.procWaitpid pid).2.kstacks = p.kstacks := by
  cases procWaitpid_spec pid p with
  | inl hfail => rw [hfail]
  | inr hfound =>
    obtain ⟨parent, dead, p', hrun, hreaped⟩ := hfound
    rw [hrun]
    exact hreaped.kstacks

section

variable {kstack : ℕ} {parent child : TaskRef} {calls : List FdSyscall} {code pid : ℕ}
  {statusPtr : Bool}

theorem Cycle.kstacks_eq (h : Cycle ops kstack k parent child calls code pid statusPtr k') :
    k'.proc.kstacks = kstack :: k.proc.kstacks := by
  rw [h.waited, sysWaitpid_proc]
  dsimp only
  rw [kstacks_procWaitpid, runAs, procSetCurrent, childEnds]
  dsimp only
  rw [kstacks_sysExit, (fdSyscalls_keep ops calls _).1]
  exact h.forked.kstacks

/-- No fork, exit and wait of a child gives back what the child used: its kernel stack stays
allocated. -/
theorem cycle_not_conserved (h : Cycle ops kstack k parent child calls code pid statusPtr k') :
    ¬ Conserved kstack k' := by
  intro hconserved
  apply hconserved.2
  rw [h.kstacks_eq]
  exact List.mem_cons_self

end

def pipeOpen : Kernel Unit := (booted.onTask 0 fun task L => L.fdCall noFiles .pipe task).2

def childReaped : Kernel Unit :=
  ((((pipeOpen.sysFork 0x8000).2.childEnds noFiles 1 [] 0).runAs 0).sysWaitpid 2 true).2

theorem cycle_childReaped : Cycle noFiles 0x8000 pipeOpen 0 1 [] 0 2 true childReaped := by
  refine ⟨?_, rfl, by decide +kernel⟩
  have hcur : pipeOpen.proc.currentTask = some 0 := by decide +kernel
  cases sysFork_spec 0x8000 pipeOpen with
  | inl hfail =>
    have hpid : (pipeOpen.sysFork 0x8000).1 = 2 := by decide +kernel
    rw [hfail] at hpid
    exact absurd hpid (by decide)
  | inr hmade =>
    obtain ⟨parent, child, k', hrun, hforked⟩ := hmade
    have hparent : parent = 0 := Option.some.inj (hforked.parent_current.symm.trans hcur)
    have hslot : ∀ j, (pipeOpen.proc.taskTable j).state = .unused →
        ((pipeOpen.sysFork 0x8000).2.proc.taskTable j).state = .runnable → j = 1 := by
      decide +kernel
    have hchild : child = 1 := by
      refine hslot child hforked.free ?_
      rw [hrun]
      exact hforked.state
    subst hparent
    subst hchild
    rw [hrun]
    exact hforked

theorem cycle_not_conserved_childReaped : ¬ Conserved 0x8000 childReaped :=
  cycle_not_conserved noFiles cycle_childReaped

/-- After the cycle the stack of the child is still taken and each end of the pipe counts a
descriptor too many, so the pipe stays in use when the parent has closed both ends. -/
theorem reaped_child_leaks :
    Cycle noFiles 0x8000 pipeOpen 0 1 [] 0 2 true childReaped ∧ 0x8000 ∈ childReaped.proc.kstacks ∧
      (childReaped.fd.fdobjTable 0).refcnt = 2 ∧ childReaped.holders 0 = 1 ∧
      ((childReaped.fdSyscalls noFiles [.close 0, .close 1]).fd.pipeTable 0).used = true ∧
      (childReaped.fdSyscalls noFiles [.close 0, .close 1]).holders 0 = 0 ∧
      (childReaped.fdSyscalls noFiles [.close 0, .close 1]).holders 1 = 0 ∧
      ¬ Conserved 0x8000 childReaped := by
  have hstack : 0x8000 ∈ childReaped.proc.kstacks := by decide +kernel
  -- only the parent is left, so its descriptors are all there are
  have hheld := holders_of_only (k := childReaped) (t := 0) (by decide +kernel) (by decide +kernel)
  have hclosed := holders_of_only (k := childReaped.fdSyscalls noFiles [.close 0, .close 1])
    (t := 0) (by decide +kernel) (by decide +kernel)
  refine ⟨cycle_childReaped, hstack, by decide +kernel, (hheld 0).trans (by decide +kernel),
    by decide +kernel, (hclosed 0).trans (by decide +kernel),
    (hclosed 1).trans (by decide +kernel), ?_⟩
  intro hconserved
  exact hconserved.2 hstack

/-- Any number of fork, exit and wait cycles, each with its own child. -/
inductive Cycles (k : Kernel F) : ℕ → Kernel F → Prop where
  | zero : Cycles k 0 k
  | succ {n : ℕ} {k₁ k₂ : Kernel F} {kstack : ℕ} {parent child : TaskRef}
      {calls : List FdSyscall} {code pid : ℕ} {statusPtr : Bool} (h : Cycles k n k₁)
      (hcycle : Cycle ops kstack k₁ parent child calls code pid statusPtr k₂) :
      Cycles k (n + 1) k₂

theorem Cycles.length_kstacks {n : ℕ} (h : Cycles ops k n k') :
    k'.proc.kstacks.length = k.proc.kstacks.length + n := by
  induction h with
  | zero => rfl
  | succ _ hcycle ih => rw [hcycle.kstacks_eq, List.length_cons, ih, Nat.add_assoc]

/-! ## The descriptors -/

theorem Accounted.fdSyscalls (h : k.Accounted) (calls : List FdSyscall) :
    (k.fdSyscalls ops calls).Accounted := by
  induction calls generalizing k with
  | nil => exact h
  | cons call calls ih =>
    refine ih (k := k.fdSyscall ops call) ?_
    obtain ⟨console, hnone | ⟨cur, call', hcur, hcall⟩⟩ := callsOnCurrent_fdSyscall ops call k
    · rw [hnone]
      exact ⟨h.books.congr rfl fun _ => SameFds.refl _, h.current⟩
    · have hdone := h.fdCall ops (h.current cur hcur) call'
      rw [hcall]
      exact ⟨hdone.books.congr rfl fun _ => SameFds.refl _, hdone.current⟩

theorem Accounted.runAs (h : k.Accounted) (ht : k.InUse t) : (k.runAs t).Accounted := by
  refine ⟨h.books.congr rfl fun _ => SameFds.refl _, fun cur hcur => ?_⟩
  have htc : t = cur := Option.some.inj hcur
  rw [← htc]
  exact ht

theorem Accounted.childEnds (h : k.Accounted) {child : TaskRef} (hchild : k.InUse child)
    (calls : List FdSyscall) (code : ℕ) :
    (k.childEnds ops child calls code).Accounted ∧
      (k.childEnds ops child calls code).InUse child := by
  have hrun := (h.runAs hchild).fdSyscalls ops calls
  have hend := hrun.exit code
  refine ⟨hend, hend.current child ?_⟩
  have hcurrent : ((k.runAs child).fdSyscalls ops calls).proc.currentTask = some child :=
    (fdSyscalls_keep ops calls (k.runAs child)).2
  simp only [taskCall, sysExit, procExitCurrent, hcurrent, currentTask_modifyTask]

theorem Books.countsAgree (h : k.Books) : k.CountsAgree := by
  have hends : ∀ kind p, k.fd.endRefs kind p = k.heldEnds kind p := by
    intro kind p
    exact Finset.sum_congr rfl fun i _ => h.counted.refcnt_eq i
  refine ⟨h.counted.refcnt_eq, fun p => ?_, fun p => ?_, fun p hp => ?_⟩
  · rw [h.counted.readers_eq, hends]
  · rw [h.counted.writers_eq, hends]
  · have hnone : ¬ (k.fd.pipeTable p).used = true := by
      rw [h.counted.pipe_used, h.counted.readers_eq, h.counted.writers_eq, hends, hends, hp]
      exact Nat.lt_irrefl 0
    simpa using hnone

/-- A wait that empties the slot of a task takes its descriptors out of the count. -/
theorem holders_waitpid (ht : k.InUse t) {pid : ℕ} {statusPtr : Bool}
    (hreaped : ((k.sysWaitpid pid statusPtr).2.proc.taskTable t).state = .unused) :
    (k.sysWaitpid pid statusPtr).2.holders + (k.proc.taskTable t).holds = k.holders ∧
      ∀ j, (k.sysWaitpid pid statusPtr).2.InUse j → k.InUse j ∧
        (k.sysWaitpid pid statusPtr).2.proc.taskTable j = k.proc.taskTable j := by
  rw [sysWaitpid_proc] at hreaped ⊢
  cases procWaitpid_spec (i32 pid) k.proc with
  | inl hfail =>
    rw [hfail] at hreaped
    exact absurd hreaped ht
  | inr hfound =>
    obtain ⟨parent, dead, p', hrun, hdead⟩ := hfound
    rw [hrun] at hreaped ⊢
    dsimp only at hreaped ⊢
    have htd : t = dead := by
      by_contra hne
      rw [hdead.table, Function.update_of_ne hne] at hreaped
      exact ht hreaped
    subst htd
    have hothers : ∀ j, j ≠ t → p'.taskTable j = k.proc.taskTable j := by
      intro j hj
      rw [hdead.table, Function.update_of_ne hj]
    constructor
    · funext i
      have htrade := holders_trade k { k with proc := p' } t
        (fun j hj => by
          rw [hothers j hj]
          exact SameFds.refl _) i
      have hnone : taskRefs i (p'.taskTable t) = 0 := by rw [taskRefs, if_pos hreaped]
      rw [hnone, taskRefs_of_inUse ht, Nat.add_zero] at htrade
      exact htrade
    · intro j hj
      have hne : j ≠ t := by
        rintro rfl
        exact hj hreaped
      rw [InUse, hothers j hne] at hj
      exact ⟨hj, hothers j hne⟩

/-- The counters are right after a cycle exactly when the child had closed every descriptor:
neither the exit nor the wait releases any. -/
theorem Cycle.countsAgree_iff {kstack : ℕ} {parent child : TaskRef} {calls : List FdSyscall}
    {code pid : ℕ} {statusPtr : Bool} (hk : k.Accounted)
    (h : Cycle ops kstack k parent child calls code pid statusPtr k') :
    k'.CountsAgree ↔ ∀ fd, (((k.sysFork kstack).2.childEnds ops child calls code).proc.taskTable
      child).fdTable fd = -1 := by
  have hfork : (k.sysFork kstack).2.Accounted := hk.fork kstack
  have hmade : (k.sysFork kstack).2.InUse child := by
    rw [InUse, h.forked.state]
    decide
  obtain ⟨hend, hlive⟩ := hfork.childEnds ops hmade calls code
  obtain ⟨k₃, hk₃⟩ : ∃ k₃, k₃ = (k.sysFork kstack).2.childEnds ops child calls code := ⟨_, rfl⟩
  have hwaited := h.waited
  rw [← hk₃] at hend hlive hwaited ⊢
  have hbooks : (k₃.runAs parent).Books := hend.books.congr rfl fun _ => SameFds.refl _
  have hreaped := h.reaped
  rw [hwaited] at hreaped
  obtain ⟨hholders, hleft⟩ := holders_waitpid (k := k₃.runAs parent) hlive hreaped
  rw [← hwaited] at hholders hleft
  have hfd : k'.fd = (k₃.runAs parent).fd := by rw [hwaited, sysWaitpid_proc]
  constructor
  · intro hagree fd
    cases hend.books.valid child hlive fd with
    | inl hempty => exact hempty
    | inr hid =>
      obtain ⟨i, hi⟩ := hid
      have hpos := Task.holds_pos hi
      have hsum := congrFun hholders i
      have hcnt := hbooks.counted.refcnt_eq i
      rw [← hfd, hagree.objects i] at hcnt
      rw [Pi.add_apply] at hsum
      change k'.holders i + (k₃.proc.taskTable child).holds i = _ at hsum
      omega
  · intro hempty
    have hnone : (k₃.proc.taskTable child).holds = 0 := by
      funext i
      rw [Task.holds, Pi.zero_apply, Finset.card_eq_zero, Finset.filter_eq_empty_iff]
      intro fd _ hid
      have hne : (-1 : ℤ) = (i.val : ℤ) := (hempty fd).symm.trans hid
      omega
    change k'.holders + (k₃.proc.taskTable child).holds = _ at hholders
    rw [hnone, add_zero] at hholders
    refine Books.countsAgree ⟨?_, fun t ht => ?_⟩
    · rw [hholders, hfd]
      exact hbooks.counted
    · obtain ⟨hlive', htask⟩ := hleft t ht
      rw [htask]
      exact hbooks.valid t hlive'

theorem Cycle.countsAgree_iff_pipeOpen : ¬ childReaped.CountsAgree := by
  have hbooted : booted.Accounted :=
    accounted_nmFdInit (k := booted) (by decide +kernel) currentLive_booted
  have hopen : pipeOpen.Accounted := hbooted.fdCall noFiles (by decide +kernel) .pipe
  rw [Cycle.countsAgree_iff noFiles hopen cycle_childReaped]
  decide +kernel

end Kernel

end NeverMind
