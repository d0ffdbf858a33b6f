import NeverMind.Verification.Proc.Exec

/-! # System calls through the table

Whatever a program passes to `syscall_dispatch`, the call is refused without effect or is one of
the handlers, so that what the handlers keep holds in every run of raw calls. -/

namespace NeverMind

variable {F : Type*} (ops : FsOps F)

/-- The table holds the handlers at their numbers and nothing else. -/
theorem syscallInit_cases (u : Surroundings F) (k : Kernel F) (nr : ℕ) :
    (syscallInit ops u k).1 nr = none ∨
      ∃ call : SyscallNr, nr = call.val ∧
        (syscallInit ops u k).1 nr = some (call.handler ops u) := by
  by_cases hnr : ∃ call : SyscallNr, nr = call.val
  · obtain ⟨call, rfl⟩ := hnr
    refine .inr ⟨call, rfl, ?_⟩
    cases call <;> rfl
  · have hregister : ∀ (call : SyscallNr) fn table,
        (syscallRegister call.val (some fn) table).2 nr =
          (table nr : Option (SyscallHandler F)) := by
      intro call fn table
      have hne := not_exists.mp hnr call
      rw [syscallRegister]
      split
      · rfl
      · exact Function.update_of_ne hne _ _
    left
    simp only [syscallInit, hregister]

namespace Kernel

variable {ops} {k k' : Kernel F}

theorem Policed.dispatch (h : k.Policed) (u : Surroundings F) {nr : ℕ}
    (hnr : nr ≠ SyscallNr.waitpid.val) (args : SyscallArgs) :
    (syscallDispatch (syscallInit ops u k).1 nr args k).2.Policed := by
  unfold syscallDispatch
  split
  · exact h
  · obtain hnone | ⟨call, rfl, hcall⟩ := syscallInit_cases ops u k nr
    · rw [hnone]
      exact h
    · rw [hcall]
      cases call with
      | getpid => exact h
      | write => exact h.fdSyscall ops (.write args.arg1 (u.buffer args.arg2) args.arg3)
      | read => exact h.fdSyscall ops (.read args.arg1 (args.arg2 != 0) args.arg3)
      | close => exact h.fdSyscall ops (.close args.arg1)
      | exit => exact h.taskStep ops (.taskCall (.exit args.arg1) (by simp))
      | waitpid => exact absurd rfl hnr
      | pipe => exact h.fdSyscall ops (.pipe (args.arg1 != 0))
      | dup2 => exact h.fdSyscall ops (.dup2 args.arg1 args.arg2)
      | fork => exact h.fork u.kstack
      | exec =>
        exact h.exec ops
          ⟨u.fsStat, u.ptrAt, u.string args.arg1, args.arg2, args.arg3, args.arg4⟩
      | fdCloexec => exact h.fdSyscall ops (.fdCloexec args.arg1 args.arg2)

variable (ops)

/-- A raw call other than a wait, or another step of the tasks. -/
inductive RawStep (k : Kernel F) : Kernel F → Prop where
  | syscall (u : Surroundings F) (nr : ℕ) (args : SyscallArgs)
      (hnr : nr ≠ SyscallNr.waitpid.val) :
      RawStep k (syscallDispatch (syscallInit ops u k).1 nr args k).2
  | tasks {k' : Kernel F} (hstep : TaskStep ops k k') : RawStep k k'

/-- From `syscall_init` with no descriptor open or marked, whatever numbers and arguments programs
pass to `syscall_dispatch` and however they are scheduled, all counters of the descriptor layer are
right and only open descriptors are marked, as long as no task is waited for. -/
theorem raw_calls_keep_counts (hfds : ∀ t, k.InUse t → ∀ fd, (k.proc.taskTable t).fdTable fd = -1)
    (hmarks : ∀ t, k.InUse t → (k.proc.taskTable t).fdCloexecMask = 0)
    (hcurrent : k.proc.CurrentLive) (u : Surroundings F)
    (hrun : Relation.ReflTransGen (RawStep ops) (syscallInit ops u k).2 k') :
    k'.Refcounted ∧ ∀ t, k'.InUse t → (k'.proc.taskTable t).MarksOpen := by
  have hpoliced : k'.Policed := by
    induction hrun with
    | refl => exact policed_nmFdInit hfds hmarks hcurrent
    | tail _ hstep ih =>
      cases hstep with
      | syscall u nr args hnr => exact ih.dispatch u hnr args
      | tasks hstep => exact ih.taskStep ops hstep
  exact ⟨hpoliced.accounted.books.refcounted, hpoliced.marks⟩

def plainUser : Surroundings Unit := ⟨fun _ => 0, fun _ => [], fun _ => 0, 0x8000, fun _ _ => 0⟩

/-- The call of number 6 makes a pipe. -/
theorem raw_calls_keep_counts_pipe :
    (syscallDispatch (syscallInit noFiles plainUser booted).1 6 ⟨0x1000, 0, 0, 0, 0, 0⟩
      booted).2.Refcounted :=
  (raw_calls_keep_counts noFiles (k := booted) (by decide +kernel) (by decide +kernel)
    currentLive_booted plainUser (.single (.syscall plainUser 6 _ (by decide)))).1

end Kernel

end NeverMind
