import NeverMind.Verification.Fd.Cloexec
import NeverMind.Verification.Fd.Stream
import NeverMind.Verification.Proc.Lifecycle

/-! # Descriptors in system calls

A call acts on the descriptors that its arguments name, and on no others. `sys_read` and
`sys_write` look only at the low 32 bits of the argument, so that they also act on descriptors
that no 64-bit argument names. -/

namespace NeverMind

open Function Proc SyscallNr

namespace Task

def markAt (j : Fin 32) (marked : Bool) (mask : BitVec 32) : BitVec 32 :=
  if marked then mask ||| fdBit j else mask &&& ~~~fdBit j

def withFd (j : Fin 32) (id : ℤ) (marked : Bool) (task : Task) : Task :=
  { task with
    fdTable := update task.fdTable j id
    fdCloexecMask := markAt j marked task.fdCloexecMask }

variable {i j : Fin 32} {id : ℤ} {marked : Bool} {fd : ℤ}

theorem getLsbD_markAt (j : Fin 32) (marked : Bool) (mask : BitVec 32) (fd : Fin 32) :
    (markAt j marked mask).getLsbD fd.val = if fd = j then marked else mask.getLsbD fd.val := by
  unfold markAt
  cases marked
  · simp only [Bool.false_eq_true, if_false, BitVec.getLsbD_and, BitVec.getLsbD_not,
      getLsbD_fdBit, fd.isLt, decide_true, Bool.true_and]
    by_cases hfd : fd = j <;> simp [hfd]
  · simp only [if_true, BitVec.getLsbD_or, getLsbD_fdBit]
    by_cases hfd : fd = j <;> simp [hfd]

theorem markAt_comm (h : i ≠ j) (a b : Bool) (mask : BitVec 32) :
    markAt i a (markAt j b mask) = markAt j b (markAt i a mask) := by
  apply BitVec.eq_of_getLsbD_eq
  intro n hn
  have hbits := fun i a mask => getLsbD_markAt i a mask ⟨n, hn⟩
  dsimp only at hbits
  rw [hbits, hbits, hbits, hbits]
  by_cases hni : (⟨n, hn⟩ : Fin 32) = i
  · have hnj : (⟨n, hn⟩ : Fin 32) ≠ j := hni ▸ h
    rw [if_pos hni, if_neg hnj, if_pos hni]
  · rw [if_neg hni, if_neg hni]

theorem setFd_withFd (h : i ≠ j) (v : ℤ) (task : Task) :
    (task.withFd j id marked).setFd i v = (task.setFd i v).withFd j id marked := by
  unfold setFd withFd
  rw [update_comm h]

theorem clearCloexec_withFd (h : i ≠ j) (task : Task) :
    (task.withFd j id marked).clearCloexec i = (task.clearCloexec i).withFd j id marked :=
  congrArg (fun mask => { task with
    fdTable := update task.fdTable j id, fdCloexecMask := mask })
    (markAt_comm h false marked task.fdCloexecMask)

theorem mark_withFd (h : i ≠ j) (task : Task) :
    { task.withFd j id marked with
      fdCloexecMask := (task.withFd j id marked).fdCloexecMask ||| fdBit i } =
    Task.withFd j id marked { task with fdCloexecMask := task.fdCloexecMask ||| fdBit i } :=
  congrArg (fun mask => { task with
    fdTable := update task.fdTable j id, fdCloexecMask := mask })
    (markAt_comm h true marked task.fdCloexecMask)

theorem fdTable_withFd (h : i ≠ j) (id : ℤ) (marked : Bool) (task : Task) :
    (task.withFd j id marked).fdTable i = task.fdTable i :=
  update_of_ne h _ _

theorem ne_of_fdIndex (h : fdIndex fd ≠ some j) (hi : fdIndex fd = some i) : i ≠ j := by
  rintro rfl
  exact h hi

theorem taskFdobjId_withFd (h : fdIndex fd ≠ some j) (task : Task) :
    taskFdobjId (task.withFd j id marked) fd = taskFdobjId task fd := by
  unfold taskFdobjId
  cases hfd : fdIndex fd with
  | none => rfl
  | some i => exact fdTable_withFd (ne_of_fdIndex h hfd) id marked task

theorem taskInstallFdobj_withFd (h : fdIndex fd ≠ some j) (v : ℤ) (task : Task) :
    (taskInstallFdobj (task.withFd j id marked) fd v).2 =
      (taskInstallFdobj task fd v).2.withFd j id marked := by
  unfold taskInstallFdobj
  cases hfd : fdIndex fd with
  | none => rfl
  | some i => exact setFd_withFd (ne_of_fdIndex h hfd) v task

end Task

namespace FdLayer

variable {F : Type*} (ops : FsOps F) {j : Fin 32} {fd : ℤ}

/-- The call neither reads nor changes the descriptor. -/
def IgnoresFd {α : Type*} (j : Fin 32) (call : Task → FdLayer F → α × Task × FdLayer F) : Prop :=
  ∀ id marked task L, call (task.withFd j id marked) L =
    ((call task L).1, (call task L).2.1.withFd j id marked, (call task L).2.2)

theorem ignoresFd_adoptLegacyFsFd (h : fdIndex fd ≠ some j) :
    IgnoresFd j fun task (L : FdLayer F) => L.adoptLegacyFsFd task fd := by
  intro id marked task L
  simp only [adoptLegacyFsFd, Task.taskFdobjId_withFd h]
  cases fdobjIndex (taskFdobjId task fd) with
  | none => rfl
  | some _ =>
    dsimp only
    cases L.fdobjGet (taskFdobjId task fd) with
    | some _ => rfl
    | none =>
      dsimp only
      rcases L.createFsObj (taskFdobjId task fd) with ⟨_ | i, L'⟩
      · rfl
      · simp only [Task.taskInstallFdobj_withFd h]

theorem ignoresFd_resolveFd (h : fdIndex fd ≠ some j) :
    IgnoresFd j fun task (L : FdLayer F) => L.resolveFd task fd := by
  intro id marked task L
  have hadopt := ignoresFd_adoptLegacyFsFd h id marked task L
  simp only [resolveFd, Task.taskFdobjId_withFd h]
  cases L.fdobjGet (taskFdobjId task fd) with
  | some i => rfl
  | none =>
    dsimp only at hadopt ⊢
    rw [hadopt]

theorem ignoresFd_nmFdRead (h : fdIndex fd ≠ some j) (buf : Bool) (len : ℕ) :
    IgnoresFd j fun task L => L.nmFdRead ops task fd buf len := by
  intro id marked task L
  have hresolve := ignoresFd_resolveFd h id marked task L
  dsimp only at hresolve
  simp only [nmFdRead, Task.taskFdobjId_withFd h, hresolve]
  split
  · rfl
  · split
    · rfl
    · rcases L.resolveFd task fd with ⟨_ | i, task', L'⟩ <;> rfl

theorem ignoresFd_nmFdWrite (h : fdIndex fd ≠ some j) (buf : Option (ℕ → Byte)) (len : ℕ) :
    IgnoresFd j fun task L => L.nmFdWrite ops task fd buf len := by
  intro id marked task L
  have hresolve := ignoresFd_resolveFd h id marked task L
  dsimp only at hresolve
  cases buf with
  | none => rfl
  | some data =>
    simp only [nmFdWrite, Task.taskFdobjId_withFd h, hresolve]
    split
    · rfl
    · rcases L.resolveFd task fd with ⟨_ | i, task', L'⟩ <;> rfl

theorem ignoresFd_taskCloseFd (h : fdIndex fd ≠ some j) :
    IgnoresFd j fun task L => L.taskCloseFd ops task fd := by
  intro id marked task L
  unfold taskCloseFd
  cases hfd : fdIndex fd with
  | none => rfl
  | some i =>
    have hne := Task.ne_of_fdIndex h hfd
    simp only [Task.fdTable_withFd hne]
    split
    · rfl
    · rcases L.fdobjRelease ops (task.fdTable i) with ⟨ret, L'⟩
      dsimp only
      split
      · rfl
      · simp only [Task.setFd_withFd hne, Task.clearCloexec_withFd hne]

theorem ignoresFd_adoptForClose (h : fdIndex fd ≠ some j) :
    IgnoresFd j fun task (L : FdLayer F) => L.adoptForClose task fd := by
  intro id marked task L
  have hadopt := ignoresFd_adoptLegacyFsFd h id marked task L
  dsimp only at hadopt
  simp only [adoptForClose, Task.taskFdobjId_withFd h, hadopt]
  split <;> rfl

theorem ignoresFd_nmFdClose (h : fdIndex fd ≠ some j) :
    IgnoresFd j fun task L => L.nmFdClose ops task fd := by
  intro id marked task L
  have hadopt := ignoresFd_adoptForClose h id marked task L
  dsimp only at hadopt
  simp only [nmFdClose, Task.taskFdobjId_withFd h, hadopt]
  split
  · rfl
  · split
    · rfl
    · rcases L.adoptForClose task fd with ⟨ret, task', L'⟩
      dsimp only
      split
      · rfl
      · exact ignoresFd_taskCloseFd ops h id marked task' L'

theorem ignoresFd_nmFdSetCloexec (h : fdIndex fd ≠ some j) (enabled : Bool) :
    IgnoresFd j fun task (L : FdLayer F) =>
      ((nmFdSetCloexec task fd enabled).1, (nmFdSetCloexec task fd enabled).2, L) := by
  intro id marked task L
  unfold nmFdSetCloexec
  cases hfd : fdIndex fd with
  | none => rfl
  | some i =>
    have hne := Task.ne_of_fdIndex h hfd
    simp only [Task.fdTable_withFd hne]
    split
    · rfl
    · split
      · rw [Task.mark_withFd hne]
      · rw [Task.clearCloexec_withFd hne]

theorem nmFdGetCloexec_withFd (h : fdIndex fd ≠ some j) (id : ℤ) (marked : Bool) (task : Task) :
    nmFdGetCloexec (task.withFd j id marked) fd = nmFdGetCloexec task fd := by
  unfold nmFdGetCloexec
  cases hfd : fdIndex fd with
  | none => rfl
  | some i =>
    have hne := Task.ne_of_fdIndex h hfd
    have hmark : (task.withFd j id marked).Marked i ↔ task.Marked i := by
      unfold Task.Marked
      rw [Task.withFd, Task.getLsbD_markAt, if_neg hne]
    simp only [Task.fdTable_withFd hne, ne_eq, Task.mask_and_fdBit, hmark]

theorem ignoresFd_nmFdDup2 {oldfd newfd : ℤ} (hold : fdIndex oldfd ≠ some j)
    (hnew : fdIndex newfd ≠ some j) :
    IgnoresFd j fun task L => L.nmFdDup2 ops task oldfd newfd := by
  intro id marked task L
  unfold nmFdDup2
  cases ha : fdIndex oldfd with
  | none => rfl
  | some a =>
    cases hb : fdIndex newfd with
    | none => rfl
    | some b =>
      have hane := Task.ne_of_fdIndex hold ha
      have hbne := Task.ne_of_fdIndex hnew hb
      have hclose := ignoresFd_taskCloseFd ops hnew id marked task L
      dsimp only at hclose
      simp only [Task.fdTable_withFd hane, Task.fdTable_withFd hbne, hclose]
      split
      · rfl
      · split
        · rfl
        · -- closing the new descriptor first, if it is open, ignores `j` as well
          have hclosed : (if task.fdTable b ≠ -1 then
              ((L.taskCloseFd ops task newfd).1,
                (L.taskCloseFd ops task newfd).2.1.withFd j id marked,
                (L.taskCloseFd ops task newfd).2.2)
              else (0, task.withFd j id marked, L)) =
              let r := if task.fdTable b ≠ -1 then L.taskCloseFd ops task newfd
                else (0, task, L)
              (r.1, r.2.1.withFd j id marked, r.2.2) := by
            split <;> rfl
          rw [hclosed]
          rcases (if task.fdTable b ≠ -1 then L.taskCloseFd ops task newfd else (0, task, L))
            with ⟨closed, task', L'⟩
          dsimp only
          split
          · rfl
          · rcases L'.fdobjRetain (task.fdTable a) with ⟨ret, L''⟩
            dsimp only
            split
            · rfl
            · rw [Task.setFd_withFd hbne, Task.clearCloexec_withFd hbne]

/-! ## Arguments that are no descriptors -/

variable {task : Task} {L : FdLayer F}

theorem taskFdobjId_of_none (h : fdIndex fd = none) : taskFdobjId task fd = nmErr nmEinval := by
  rw [taskFdobjId, h]

theorem resolveFd_of_none (h : fdIndex fd = none) : L.resolveFd task fd = (none, task, L) := by
  have hindex : fdobjIndex (nmErr nmEinval) = none := by decide
  have hget : L.fdobjGet (nmErr nmEinval) = none := by rw [fdobjGet, hindex]
  simp only [resolveFd, adoptLegacyFsFd, taskFdobjId_of_none h, hget, hindex]

theorem nmFdRead_of_none (h : fdIndex fd = none) (len : ℕ) :
    L.nmFdRead ops task fd true len = ((nmErr nmEnoent, []), task, L) := by
  have hid : taskFdobjId task fd ≠ -1 := by
    rw [taskFdobjId_of_none h]
    decide
  simp only [nmFdRead, Bool.not_true, Bool.false_eq_true, if_false, hid, resolveFd_of_none h]

theorem nmFdWrite_of_none (h : fdIndex fd = none) (data : ℕ → Byte) (len : ℕ) :
    L.nmFdWrite ops task fd (some data) len = (nmErr nmEnoent, task, L) := by
  have hid : taskFdobjId task fd ≠ -1 := by
    rw [taskFdobjId_of_none h]
    decide
  simp only [nmFdWrite, hid, if_false, resolveFd_of_none h]

end FdLayer

theorem fdIndex_i32 (fd : ℕ) (j : Fin 32) : fdIndex (i32 fd) = some j ↔ fd % 2 ^ 32 = j.val := by
  rw [fdIndex_eq_some, i32, Int.bmod_def]
  have hj := j.isLt
  split <;> omega

theorem fdIndex_i32_eq_none (fd : ℕ) : fdIndex (i32 fd) = none ↔ 32 ≤ fd % 2 ^ 32 := by
  rw [Option.eq_none_iff_forall_ne_some]
  constructor
  · intro h
    by_contra hlt
    exact h ⟨fd % 2 ^ 32, by omega⟩ ((fdIndex_i32 fd _).mpr rfl)
  · intro h j hj
    have := (fdIndex_i32 fd j).mp hj
    omega

namespace Kernel

variable {F : Type*} (ops : FsOps F) (u : Surroundings F) {k : Kernel F} {j : Fin 32}
  {cur : TaskRef}

/-- The kernel with another entry and another mark for a descriptor of the current task. -/
def withFd (j : Fin 32) (id : ℤ) (marked : Bool) (k : Kernel F) : Kernel F :=
  match k.proc.taskCurrent with
  | none => k
  | some cur => { k with proc := k.proc.modifyTask cur (Task.withFd j id marked) }

theorem withFd_of_current (hcur : k.proc.currentTask = some cur) (j : Fin 32) (id : ℤ)
    (marked : Bool) : k.withFd j id marked =
      { k with proc := k.proc.modifyTask cur (Task.withFd j id marked) } := by
  unfold withFd taskCurrent
  rw [hcur]

theorem withFd_of_none (hcur : k.proc.currentTask = none) (j : Fin 32) (id : ℤ) (marked : Bool) :
    k.withFd j id marked = k := by
  unfold withFd taskCurrent
  rw [hcur]

theorem currentTask_withFd (j : Fin 32) (id : ℤ) (marked : Bool) (k : Kernel F) :
    (k.withFd j id marked).proc.currentTask = k.proc.currentTask := by
  unfold withFd
  split <;> rfl

theorem onTask_withFd {α : Type*} {call : Task → FdLayer F → α × Task × FdLayer F}
    (hcur : k.proc.currentTask = some cur) (h : FdLayer.IgnoresFd j call) (id : ℤ)
    (marked : Bool) : (k.withFd j id marked).onTask cur call =
      ((k.onTask cur call).1, (k.onTask cur call).2.withFd j id marked) := by
  have hcall := h id marked (k.proc.taskTable cur) k.fd
  rw [withFd_of_current hcur, withFd_of_current (show (k.onTask cur call).2.proc.currentTask =
    some cur from hcur)]
  simp only [onTask, modifyTask, setTask, update_self, hcall, update_idem]

/-- The handler neither reads nor changes a descriptor of the current task. -/
def Ignores {β : Type*} (j : Fin 32) (handler : Kernel F → β × Kernel F) : Prop :=
  ∀ id marked k, handler (k.withFd j id marked) = ((handler k).1, (handler k).2.withFd j id marked)

theorem Ignores.map {β γ : Type*} {handler : Kernel F → β × Kernel F} (h : Ignores j handler)
    (g : β → γ) : Ignores j fun k => (g (handler k).1, (handler k).2) := by
  intro id marked k
  dsimp only
  rw [h id marked k]

theorem withFd_console (j : Fin 32) (id : ℤ) (marked : Bool) (console : List Byte)
    (k : Kernel F) : Kernel.withFd j id marked { k with console := console } =
      { k.withFd j id marked with console := console } := by
  cases hcur : k.proc.currentTask with
  | none => rw [withFd_of_none hcur, withFd_of_none (k := { k with console := console }) hcur]
  | some cur =>
    rw [withFd_of_current hcur, withFd_of_current (k := { k with console := console }) hcur]

theorem console_withFd (j : Fin 32) (id : ℤ) (marked : Bool) (k : Kernel F) :
    (k.withFd j id marked).console = k.console := by
  unfold withFd
  split <;> rfl

theorem ignores_sysWrite {fd : ℕ} (h : fdIndex (i32 fd) ≠ some j) (data : ℕ → Byte) (len : ℕ) :
    Ignores j fun k => k.sysWrite ops fd (some data) len := by
  intro id marked k
  cases hcur : k.proc.currentTask with
  | none => simp only [withFd_of_none hcur, sysWrite, taskCurrent, hcur]
  | some cur =>
    have hcall := onTask_withFd hcur (FdLayer.ignoresFd_nmFdWrite ops h (some data) len) id marked
    obtain ⟨r, hr⟩ : ∃ r, (k.onTask cur fun task L =>
      L.nmFdWrite ops task (i32 fd) (some data) len) = r := ⟨_, rfl⟩
    rw [hr] at hcall
    have hcur' := (currentTask_withFd j id marked k).trans hcur
    simp only [sysWrite_eq ops hcur fd data len hr, sysWrite_eq ops hcur' fd data len hcall]
    split
    · rfl
    · split
      · rfl
      · dsimp only
        rw [withFd_console j id marked (r.2.console ++ (List.range len).map data) r.2,
          console_withFd]

theorem ignores_sysRead {fd : ℕ} (h : fdIndex (i32 fd) ≠ some j) (buf : Bool) (len : ℕ) :
    Ignores j fun k => k.sysRead ops fd buf len := by
  intro id marked k
  cases hcur : k.proc.currentTask with
  | none =>
    simp only [withFd_of_none hcur, sysRead, taskCurrent, hcur]
    split <;> simp only [withFd_of_none hcur]
  | some cur =>
    have hcall := onTask_withFd hcur (FdLayer.ignoresFd_nmFdRead ops h buf len) id marked
    obtain ⟨r, hr⟩ : ∃ r, (k.onTask cur fun task L =>
      L.nmFdRead ops task (i32 fd) buf len) = r := ⟨_, rfl⟩
    rw [hr] at hcall
    have hcur' := (currentTask_withFd j id marked k).trans hcur
    simp only [sysRead_eq ops hcur fd buf len hr, sysRead_eq ops hcur' fd buf len hcall]
    split <;> rfl

theorem fdIndex_i32_ne {fd : ℕ} (hlt : fd < 32) (h : fd ≠ j.val) : fdIndex (i32 fd) ≠ some j := by
  rw [ne_eq, fdIndex_i32]
  omega

theorem ignores_sysClose {fd : ℕ} (h : fd ≠ j.val) : Ignores j fun k => k.sysClose ops fd := by
  intro id marked k
  cases hcur : k.proc.currentTask with
  | none => simp only [withFd_of_none hcur, sysClose, taskCurrent, hcur]
  | some cur =>
    have hcur' := (currentTask_withFd j id marked k).trans hcur
    simp only [sysClose_eq ops hcur fd rfl, sysClose_eq ops hcur' fd rfl]
    split
    · rfl
    · rename_i hlt
      have hfd := fdIndex_i32_ne (Nat.lt_of_not_le hlt) h
      exact onTask_withFd hcur (FdLayer.ignoresFd_nmFdClose ops hfd) id marked

theorem ignores_sysDup2 {oldfd newfd : ℕ} (hold : oldfd ≠ j.val) (hnew : newfd ≠ j.val) :
    Ignores j fun k => k.sysDup2 ops oldfd newfd := by
  intro id marked k
  cases hcur : k.proc.currentTask with
  | none => simp only [withFd_of_none hcur, sysDup2, taskCurrent, hcur]
  | some cur =>
    have hcur' := (currentTask_withFd j id marked k).trans hcur
    simp only [sysDup2_eq ops hcur oldfd newfd rfl, sysDup2_eq ops hcur' oldfd newfd rfl]
    split
    · rfl
    · rename_i hlt
      unfold nmMaxFds at hlt
      have hfd := fdIndex_i32_ne (by omega) hold
      have hfd' := fdIndex_i32_ne (by omega) hnew
      exact onTask_withFd hcur (FdLayer.ignoresFd_nmFdDup2 ops hfd hfd') id marked

theorem ignores_sysFdCloexec {fd : ℕ} (h : fd ≠ j.val) (enabled : ℕ) :
    Ignores j fun (k : Kernel F) => k.sysFdCloexec fd enabled := by
  intro id marked k
  cases hcur : k.proc.currentTask with
  | none => simp only [withFd_of_none hcur, sysFdCloexec, taskCurrent, hcur]
  | some cur =>
    have hcur' := (currentTask_withFd j id marked k).trans hcur
    simp only [sysFdCloexec_eq hcur fd enabled rfl, sysFdCloexec_eq hcur' fd enabled rfl]
    split
    · rfl
    · rename_i hlt
      have hfd := fdIndex_i32_ne (Nat.lt_of_not_le hlt) h
      split
      · exact onTask_withFd hcur (FdLayer.ignoresFd_nmFdSetCloexec hfd (enabled != 0)) id marked
      · split
        · have hentry : (k.withFd j id marked).proc.taskTable cur =
              (k.proc.taskTable cur).withFd j id marked := by
            rw [withFd_of_current hcur]
            exact update_self _ _ _
          rw [hentry, FdLayer.nmFdGetCloexec_withFd hfd]
        · rfl

end Kernel

/-! ## The dispatcher -/

/-- The calls that take descriptors. -/
inductive FdNr where
  | read
  | write
  | close
  | dup2
  | fdCloexec
  deriving Repr, DecidableEq

namespace FdNr

variable {F : Type*} (ops : FsOps F) (u : Surroundings F)

def nr : FdNr → SyscallNr
  | .read => .read
  | .write => .write
  | .close => .close
  | .dup2 => .dup2
  | .fdCloexec => .fdCloexec

def fds (call : FdNr) (a : SyscallArgs) : List ℕ :=
  match call with
  | .dup2 => [a.arg1, a.arg2]
  | _ => [a.arg1]

/-- `syscall_dispatch` of a call with descriptors, over the table that `syscall_init` made. -/
def run (call : FdNr) (a : SyscallArgs) (k : Kernel F) : (ℤ × Stored) × Kernel F :=
  syscallDispatch (syscallInit ops u k).1 call.nr.val a k

theorem run_eq (call : FdNr) (a : SyscallArgs) (k : Kernel F) :
    call.run ops u a k = call.nr.handler ops u a k := by
  cases call <;> rfl

/-- An argument that is no descriptor is refused without any effect, and a descriptor is acted on
only if it is an argument: other tasks keep theirs, and the call neither reads nor changes the
other ones of the current task. -/
structure ChecksFds (call : FdNr) (a : SyscallArgs) (k : Kernel F) : Prop where
  refused : (∃ fd ∈ call.fds a, nmMaxFds ≤ fd) →
    (call.run ops u a k).1.1 < 0 ∧ (call.run ops u a k).2 = k
  others : ∀ t, k.proc.taskCurrent ≠ some t →
    (call.run ops u a k).2.proc.taskTable t = k.proc.taskTable t
  ignored : ∀ j : Fin 32, j.val ∉ call.fds a → ∀ id marked,
    call.run ops u a (k.withFd j id marked) =
      ((call.run ops u a k).1, (call.run ops u a k).2.withFd j id marked)

/-- The argument of a read or a write is a descriptor, or its low 32 bits are none either, or the
buffer is null. -/
def InRange (call : FdNr) (a : SyscallArgs) : Prop :=
  call = .read ∨ call = .write → a.arg2 = 0 ∨ a.arg1 < 32 ∨ 32 ≤ a.arg1 % 2 ^ 32

variable {call : FdNr} {a : SyscallArgs} {k : Kernel F} {cur : TaskRef}

theorem onTask_same {α : Type*} {f : Task → FdLayer F → α × Task × FdLayer F} {ret : α}
    (h : f (k.proc.taskTable cur) k.fd = (ret, k.proc.taskTable cur, k.fd)) :
    k.onTask cur f = (ret, k) := by
  simp only [Kernel.onTask, h, setTask, update_eq_self]

theorem nmErr_neg {code : ℤ} (h : 0 < code) : nmErr code < 0 := by
  unfold nmErr
  omega

theorem onTask_nmFdRead_of_none {fd : ℤ} (h : fdIndex fd = none) (len : ℕ) :
    (k.onTask cur fun task L => L.nmFdRead ops task fd true len) = ((nmErr nmEnoent, []), k) :=
  onTask_same (FdLayer.nmFdRead_of_none ops h len)

theorem onTask_nmFdWrite_of_none {fd : ℤ} (h : fdIndex fd = none) (data : ℕ → Byte) (len : ℕ) :
    (k.onTask cur fun task L => L.nmFdWrite ops task fd (some data) len) = (nmErr nmEnoent, k) :=
  onTask_same (FdLayer.nmFdWrite_of_none ops h data len)

theorem sysRead_null (fd len : ℕ) : k.sysRead ops fd false len = ((nmErr nmEinval, []), k) := rfl

theorem sysRead_refused {fd : ℕ} (h : 32 ≤ fd % 2 ^ 32) (buf : Bool) (len : ℕ) :
    (k.sysRead ops fd buf len).1.1 < 0 ∧ (k.sysRead ops fd buf len).2 = k := by
  cases buf with
  | false =>
    rw [sysRead_null]
    exact ⟨nmErr_neg (by decide), rfl⟩
  | true =>
    cases hcur : k.proc.currentTask with
    | none =>
      have hrun : k.sysRead ops fd true len = ((nmErr nmEfail, []), k) := by
        simp only [Kernel.sysRead, taskCurrent, hcur, Bool.not_true, Bool.false_eq_true, if_false]
      rw [hrun]
      exact ⟨nmErr_neg (by decide), rfl⟩
    | some cur =>
      have hnone := (fdIndex_i32_eq_none fd).mpr h
      rw [Kernel.sysRead_eq ops hcur fd true len (onTask_nmFdRead_of_none ops hnone len),
        if_neg (by decide)]
      exact ⟨nmErr_neg (by decide), rfl⟩

theorem sysWrite_refused {fd : ℕ} (h : 32 ≤ fd % 2 ^ 32) (data : ℕ → Byte) (len : ℕ) :
    (k.sysWrite ops fd (some data) len).1 < 0 ∧ (k.sysWrite ops fd (some data) len).2 = k := by
  have hneg : nmErr nmEfail < 0 := nmErr_neg (by decide)
  cases hcur : k.proc.currentTask with
  | none =>
    have hrun : k.sysWrite ops fd (some data) len = (nmErr nmEfail, k) := by
      simp only [Kernel.sysWrite, taskCurrent, hcur]
    rw [hrun]
    exact ⟨hneg, rfl⟩
  | some cur =>
    have hnone := (fdIndex_i32_eq_none fd).mpr h
    have hfd : fd ≠ 1 := by omega
    rw [Kernel.sysWrite_eq ops hcur fd data len (onTask_nmFdWrite_of_none ops hnone data len),
      if_neg (not_le.mpr (nmErr_neg (by decide))), if_pos hfd]
    exact ⟨hneg, rfl⟩

theorem sysWrite_null (fd len : ℕ) : k.sysWrite ops fd none len = (nmErr nmEinval, k) := rfl

theorem sysClose_refused {fd : ℕ} (h : nmMaxFds ≤ fd) : k.sysClose ops fd = (nmErr nmEfail, k) := by
  cases hcur : k.proc.currentTask with
  | none => simp only [Kernel.sysClose, taskCurrent, hcur]
  | some cur => rw [Kernel.sysClose_eq ops hcur fd rfl, if_pos h]

theorem sysDup2_refused {oldfd newfd : ℕ} (h : nmMaxFds ≤ oldfd ∨ nmMaxFds ≤ newfd) :
    k.sysDup2 ops oldfd newfd = (nmErr nmEfail, k) := by
  cases hcur : k.proc.currentTask with
  | none => simp only [Kernel.sysDup2, taskCurrent, hcur]
  | some cur => rw [Kernel.sysDup2_eq ops hcur oldfd newfd rfl, if_pos h]

theorem sysFdCloexec_refused {fd : ℕ} (h : nmMaxFds ≤ fd) (enabled : ℕ) :
    k.sysFdCloexec fd enabled = (nmErr nmEfail, k) := by
  cases hcur : k.proc.currentTask with
  | none => simp only [Kernel.sysFdCloexec, taskCurrent, hcur]
  | some cur => rw [Kernel.sysFdCloexec_eq hcur fd enabled rfl, if_pos h]

theorem buffer_of_ne {ptr : ℕ} (h : ptr ≠ 0) : ∃ data, u.buffer ptr = some data := ⟨_, if_neg h⟩

theorem fds_of_ne (h : call ≠ .dup2) : call.fds a = [a.arg1] := by
  cases call <;> first | rfl | exact absurd rfl h

theorem refused_of_inRange (h : InRange call a) (hlarge : ∃ fd ∈ call.fds a, nmMaxFds ≤ fd) :
    (call.run ops u a k).1.1 < 0 ∧ (call.run ops u a k).2 = k := by
  rw [run_eq]
  have hle : call ≠ .dup2 → nmMaxFds ≤ a.arg1 := by
    intro hcall
    simpa [fds_of_ne hcall] using hlarge
  have hhigh : call = .read ∨ call = .write → a.arg2 ≠ 0 → 32 ≤ a.arg1 % 2 ^ 32 := by
    intro hcall hnull
    have hfd := hle (by rcases hcall with rfl | rfl <;> decide)
    unfold nmMaxFds at hfd
    rcases h hcall with hnull' | hlt | hhigh <;> omega
  cases call with
  | read =>
    by_cases hnull : a.arg2 = 0
    · simp only [nr, handler, hnull, bne_self_eq_false, sysRead_null]
      exact ⟨nmErr_neg (by decide), trivial⟩
    · exact sysRead_refused ops (hhigh (.inl rfl) hnull) _ _
  | write =>
    by_cases hnull : a.arg2 = 0
    · simp only [nr, handler, Surroundings.buffer, if_pos hnull, sysWrite_null]
      exact ⟨nmErr_neg (by decide), trivial⟩
    · obtain ⟨data, hdata⟩ := buffer_of_ne u hnull
      simp only [nr, handler, hdata]
      exact sysWrite_refused ops (hhigh (.inr rfl) hnull) data _
  | close =>
    simp only [nr, handler, sysClose_refused ops (hle (by decide))]
    exact ⟨nmErr_neg (by decide), trivial⟩
  | dup2 =>
    have hle : nmMaxFds ≤ a.arg1 ∨ nmMaxFds ≤ a.arg2 := by simpa [fds] using hlarge
    simp only [nr, handler, sysDup2_refused ops hle]
    exact ⟨nmErr_neg (by decide), trivial⟩
  | fdCloexec =>
    simp only [nr, handler, sysFdCloexec_refused (hle (by decide))]
    exact ⟨nmErr_neg (by decide), trivial⟩

theorem run_snd (call : FdNr) (a : SyscallArgs) (k : Kernel F) :
    ∃ c : FdSyscall, (call.run ops u a k).2 = k.fdSyscall ops c := by
  rw [run_eq]
  cases call with
  | read => exact ⟨.read a.arg1 (a.arg2 != 0) a.arg3, rfl⟩
  | write => exact ⟨.write a.arg1 (u.buffer a.arg2) a.arg3, rfl⟩
  | close => exact ⟨.close a.arg1, rfl⟩
  | dup2 => exact ⟨.dup2 a.arg1 a.arg2, rfl⟩
  | fdCloexec => exact ⟨.fdCloexec a.arg1 a.arg2, rfl⟩

theorem others_keep {t : TaskRef} (h : k.proc.taskCurrent ≠ some t) :
    (call.run ops u a k).2.proc.taskTable t = k.proc.taskTable t := by
  obtain ⟨c, hc⟩ := run_snd ops u call a k
  rw [hc]
  obtain ⟨console, hnone | ⟨cur, fdCall, hcur, hcall⟩⟩ := Kernel.callsOnCurrent_fdSyscall ops c k
  · rw [hnone]
  · have hne : t ≠ cur := by
      rintro rfl
      exact h hcur
    rw [hcall]
    exact update_of_ne hne _ _

theorem ignored_of_inRange (h : InRange call a) {j : Fin 32} (hj : j.val ∉ call.fds a) :
    Kernel.Ignores j fun k => call.run ops u a k := by
  simp only [run_eq]
  have hne : call ≠ .dup2 → a.arg1 ≠ j.val := by
    rintro hcall heq
    rw [fds_of_ne hcall, heq] at hj
    exact hj (List.mem_singleton_self _)
  have hlow : call = .read ∨ call = .write → a.arg2 ≠ 0 → fdIndex (i32 a.arg1) ≠ some j := by
    intro hcall hnull
    have hfd := hne (by rcases hcall with rfl | rfl <;> decide)
    rw [ne_eq, fdIndex_i32]
    rcases h hcall with hnull' | hlt | hhigh <;> omega
  cases call with
  | read =>
    by_cases hnull : a.arg2 = 0
    · intro id marked k
      simp only [nr, handler, hnull, bne_self_eq_false, sysRead_null]
    · exact (Kernel.ignores_sysRead ops (hlow (.inl rfl) hnull) _ _).map
        fun r => (r.1, Stored.bytes r.2)
  | write =>
    by_cases hnull : a.arg2 = 0
    · intro id marked k
      simp only [nr, handler, Surroundings.buffer, if_pos hnull, sysWrite_null]
    · obtain ⟨data, hdata⟩ := buffer_of_ne u hnull
      simp only [nr, handler, hdata]
      exact (Kernel.ignores_sysWrite ops (hlow (.inr rfl) hnull) data _).map (·, Stored.nothing)
  | close => exact (Kernel.ignores_sysClose ops (hne (by decide))).map (·, Stored.nothing)
  | dup2 =>
    have hne : ¬ (j.val = a.arg1 ∨ j.val = a.arg2) := by simpa [fds] using hj
    have hold : a.arg1 ≠ j.val := by omega
    have hnew : a.arg2 ≠ j.val := by omega
    exact (Kernel.ignores_sysDup2 ops hold hnew).map (·, Stored.nothing)
  | fdCloexec => exact (Kernel.ignores_sysFdCloexec (hne (by decide)) _).map (·, Stored.nothing)

theorem exists_openEnd (fs : F) (kind : FdobjKind) :
    ∃ (k : Kernel F) (cur : TaskRef) (p : Fin 16), k.proc.currentTask = some cur ∧
      (k.fd.pipeTable p).used = true ∧
      ∀ i : Fin 32, k.fd.endOf (k.proc.taskTable cur) i.val = some (kind, p) := by
  obtain ⟨cur, o, p⟩ : TaskRef × Fin 128 × Fin 16 :=
    (⟨0, by decide⟩, ⟨0, by decide⟩, ⟨0, by decide⟩)
  have task := atStart.taskTable cur
  have pipe := (FdLayer.atStart fs).pipeTable p
  refine ⟨⟨{ atStart with
    currentTask := some cur, taskTable := fun _ => { task with fdTable := fun _ => o.val } },
    ⟨fun _ => { pipe with used := true }, fun _ => ⟨true, 1, kind, -1, p.val⟩, fs⟩, []⟩, cur, p,
    rfl, rfl, fun i => ?_⟩
  have hfd : fdIndex (i.val : ℤ) = some i := fdIndex_eq_some.mpr rfl
  have hobj : fdobjIndex (o.val : ℤ) = some o := fdobjIndex_eq_some.mpr rfl
  have hpipe : pipeIndex (p.val : ℤ) = some p := pipeIndex_eq_some.mpr rfl
  simp [FdLayer.endOf, taskFdobjId, hfd, FdLayer.fdobjGet, hobj, hpipe]

theorem onTask_read_of_end {fd : ℤ} {p : Fin 16}
    (hend : k.fd.endOf (k.proc.taskTable cur) fd = some (.pipeR, p))
    (hused : (k.fd.pipeTable p).used = true) (len : ℕ) :
    0 ≤ (k.onTask cur fun task L => L.nmFdRead ops task fd true len).1.1 := by
  simp only [Kernel.onTask, FdLayer.nmFdRead_of_end ops hend len hused]
  exact Int.natCast_nonneg _

theorem onTask_write_of_end {fd : ℤ} {p : Fin 16}
    (hend : k.fd.endOf (k.proc.taskTable cur) fd = some (.pipeW, p))
    (hused : (k.fd.pipeTable p).used = true) (data : ℕ → Byte) (len : ℕ) :
    0 ≤ (k.onTask cur fun task L => L.nmFdWrite ops task fd (some data) len).1 := by
  simp only [Kernel.onTask, FdLayer.nmFdWrite_of_end ops hend data len hused]
  exact Int.natCast_nonneg _

theorem accepted_of_low (hread : call = .read ∨ call = .write) (hbuf : a.arg2 ≠ 0)
    (hlow : a.arg1 % 2 ^ 32 < 32) (fs : F) : ∃ k : Kernel F, 0 ≤ (call.run ops u a k).1.1 := by
  have hi : i32 a.arg1 = ((a.arg1 % 2 ^ 32 : ℕ) : ℤ) :=
    fdIndex_eq_some.mp ((fdIndex_i32 a.arg1 ⟨_, hlow⟩).mpr rfl)
  rcases hread with rfl | rfl
  · obtain ⟨k, cur, p, hcur, hused, hend⟩ := exists_openEnd fs .pipeR
    have hcall := onTask_read_of_end ops (hend ⟨_, hlow⟩) hused a.arg3
    obtain ⟨r, hr⟩ : ∃ r, (k.onTask cur fun task L =>
      L.nmFdRead ops task (i32 a.arg1) true a.arg3) = r := ⟨_, rfl⟩
    have hrun := Kernel.sysRead_eq ops hcur a.arg1 true a.arg3 hr
    rw [hi] at hr
    rw [hr] at hcall
    have hptr : (a.arg2 != 0) = true := bne_iff_ne.mpr hbuf
    refine ⟨k, ?_⟩
    simp only [run_eq, nr, handler, hptr, hrun, Bool.not_true, Bool.false_eq_true, if_false]
    exact hcall
  · obtain ⟨k, cur, p, hcur, hused, hend⟩ := exists_openEnd fs .pipeW
    obtain ⟨data, hdata⟩ := buffer_of_ne u hbuf
    have hcall := onTask_write_of_end ops (hend ⟨_, hlow⟩) hused data a.arg3
    obtain ⟨r, hr⟩ : ∃ r, (k.onTask cur fun task L =>
      L.nmFdWrite ops task (i32 a.arg1) (some data) a.arg3) = r := ⟨_, rfl⟩
    have hrun := Kernel.sysWrite_eq ops hcur a.arg1 data a.arg3 hr
    rw [hi] at hr
    rw [hr] at hcall
    refine ⟨k, ?_⟩
    simp only [run_eq, nr, handler, hdata, hrun, if_pos (show r.1 ≥ 0 from hcall)]
    exact hcall

/-- A call checks its descriptors in every state exactly if its arguments are in range. -/
theorem checksFds_iff (call : FdNr) (a : SyscallArgs) (fs : F) :
    (∀ k, ChecksFds ops u call a k) ↔ InRange call a := by
  constructor
  · intro hall hread
    by_contra hout
    push Not at hout
    obtain ⟨hbuf, hlarge, hlow⟩ := hout
    obtain ⟨k, hk⟩ := accepted_of_low ops u hread hbuf hlow fs
    have hmem : a.arg1 ∈ call.fds a := by rcases hread with rfl | rfl <;> simp [fds]
    have hneg := ((hall k).refused ⟨a.arg1, hmem, hlarge⟩).1
    omega
  · intro h k
    exact ⟨refused_of_inRange ops u h, fun t => others_keep ops u,
      fun j hj id marked => ignored_of_inRange ops u h hj id marked k⟩

def zeroUser : Surroundings Unit where
  byteAt := fun _ => 0
  stringAt := fun _ => []
  ptrAt := fun _ => 0
  kstack := 0
  fsStat := fun _ _ => -1

/-- A write to `2 ^ 32 + 1` goes into the pipe behind descriptor 1. -/
theorem wide_write_reaches_pipe :
    (FdNr.write.run noFiles zeroUser ⟨2 ^ 32 + 1, 0x1000, 1, 0, 0, 0⟩ Kernel.pipeOpen).1.1 = 1 ∧
      ((FdNr.write.run noFiles zeroUser ⟨2 ^ 32 + 1, 0x1000, 1, 0, 0, 0⟩
        Kernel.pipeOpen).2.fd.pipeTable 0).writePos = 1 ∧
      (Kernel.pipeOpen.fd.pipeTable 0).writePos = 0 ∧
      ¬ ChecksFds noFiles zeroUser .write ⟨2 ^ 32 + 1, 0x1000, 1, 0, 0, 0⟩ Kernel.pipeOpen := by
  have hret : (FdNr.write.run noFiles zeroUser ⟨2 ^ 32 + 1, 0x1000, 1, 0, 0, 0⟩
      Kernel.pipeOpen).1.1 = 1 := by decide +kernel
  refine ⟨hret, by decide +kernel, by decide +kernel, fun hchecks => ?_⟩
  have hneg := (hchecks.refused ⟨2 ^ 32 + 1, by simp [fds], by decide⟩).1
  rw [hret] at hneg
  exact absurd hneg (by decide)

end FdNr

end NeverMind
