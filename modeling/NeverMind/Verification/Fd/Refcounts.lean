import NeverMind.Verification.Fd.Holders
import Mathlib.Logic.Relation

/-! # Reference counts over whole runs

Tasks fork, exit, are scheduled and use their descriptors in any order. As long as no task
is reaped, the counters of objects and pipes are the numbers of descriptors that refer to
them. -/

namespace NeverMind

open Proc

namespace FdLayer

variable {F : Type*} (ops : FsOps F)

theorem Balanced.fdCall {others : Fin 128 → ℕ} {task : Task} {L : FdLayer F}
    (h : Balanced others task L) (hfew : Few others) (call : FdCall) :
    Balanced others (L.fdCall ops call task).2.1 (L.fdCall ops call task).2.2 ∧
      task.SameButFds (L.fdCall ops call task).2.1 := by
  cases call with
  | pipe => exact h.nmFdPipe ops
  | dup2 oldfd newfd => exact h.nmFdDup2 ops hfew oldfd newfd
  | close fd => exact h.nmFdClose ops fd
  | read fd buf len =>
    obtain ⟨hbalanced, hsame⟩ := h.nmFdRead ops fd buf len
    refine ⟨hbalanced, ?_⟩
    change task.SameButFds (L.nmFdRead ops task fd buf len).2.1
    rw [hsame]
    exact .refl task
  | write fd buf len =>
    obtain ⟨hbalanced, hsame⟩ := h.nmFdWrite ops fd buf len
    refine ⟨hbalanced, ?_⟩
    change task.SameButFds (L.nmFdWrite ops task fd buf len).2.1
    rw [hsame]
    exact .refl task
  | setCloexec fd enabled => exact h.nmFdSetCloexec fd enabled
  | closeOnExec => exact h.nmFdCloseOnExec ops

end FdLayer

namespace Kernel

variable {F : Type*} (ops : FsOps F) {k k' : Kernel F}

/-- The tables count the descriptors of all tasks, and these are valid. -/
structure Books (k : Kernel F) : Prop where
  counted : k.fd.Counted k.holders
  valid : ∀ t, k.InUse t → (k.proc.taskTable t).ValidFds

variable {t : TaskRef}

theorem Books.balanced (h : k.Books) (ht : k.InUse t) :
    FdLayer.Balanced (k.othersOf t) (k.proc.taskTable t) k.fd := by
  refine ⟨?_, h.valid t ht⟩
  rw [othersOf_add ht]
  exact h.counted

theorem Books.fdCall (h : k.Books) (ht : k.InUse t) (call : FdCall) :
    (k.onTask t fun task L => L.fdCall ops call task).2.Books := by
  obtain ⟨hbalanced, hsame⟩ := (h.balanced ht).fdCall ops (few_othersOf k t) call
  obtain ⟨ret, hret⟩ : ∃ ret, ret = k.fd.fdCall ops call (k.proc.taskTable t) := ⟨_, rfl⟩
  have hrun : (k.onTask t fun task L => L.fdCall ops call task).2 =
      { k with proc := k.proc.setTask t ret.2.1, fd := ret.2.2 } := by
    rw [onTask, ← hret]
  rw [← hret] at hbalanced hsame
  have hholders := holders_of_onTask ht hsame hrun
  constructor
  · rw [hholders, hrun]
    exact hbalanced.counted
  · intro t' ht'
    rw [hrun] at ht' ⊢
    by_cases htt : t' = t
    · subst htt
      simpa using hbalanced.valid
    · simp only [InUse, taskTable_setTask, Function.update_of_ne htt] at ht' ⊢
      exact h.valid t' ht'

theorem Books.congr (h : k.Books) (hfd : k'.fd = k.fd)
    (hsame : ∀ t, SameFds (k.proc.taskTable t) (k'.proc.taskTable t)) : k'.Books := by
  constructor
  · rw [hfd, holders_congr hsame]
    exact h.counted
  · intro t ht fd
    rw [(hsame t).2]
    exact h.valid t (fun hfree => ht ((hsame t).1.mpr hfree)) fd

theorem Books.inherits (h : k.Books) {parent : TaskRef} (hparent : k.InUse parent) {copy : Task}
    (hcopy : copy.fdTable = (k.proc.taskTable parent).fdTable) :
    ∃ L', k.fd.nmFdOnForkChild copy = (0, copy, L') ∧ L'.Counted (k.holders + copy.holds) := by
  have hentries : ∀ fd, copy.fdTable fd = -1 ∨
      ∃ i : Fin 128, copy.fdTable fd = (i.val : ℤ) ∧ 0 < k.holders i := by
    intro fd
    rw [hcopy]
    refine (h.valid parent hparent fd).imp id ?_
    rintro ⟨i, hi⟩
    exact ⟨i, hi, holders_pos hparent hi⟩
  have hfew : FdLayer.Few k.holders := by
    have hsum := k.sum_holders_le
    unfold FdLayer.Few
    omega
  exact h.counted.nmFdOnForkChild hentries hfew

theorem Books.fork (h : k.Books) {kstack : ℕ} {parent child : TaskRef}
    (hparent : k.InUse parent) (hforked : ForkedChild kstack k parent child k') : k'.Books := by
  obtain ⟨copy, hcopy, hfds, hfd⟩ := hforked.inherits
  obtain ⟨L', hrun, hcounted⟩ := h.inherits hparent hcopy
  rw [hrun] at hfds hfd
  have hothers : ∀ t, t ≠ child → SameFds (k.proc.taskTable t) (k'.proc.taskTable t) := by
    intro t ht
    obtain ⟨regs, hregs⟩ := hforked.others t ht
    rw [hregs]
    exact ⟨Iff.rfl, rfl⟩
  have hholders : k'.holders = k.holders + copy.holds := by
    funext i
    have htrade := holders_trade k k' child hothers i
    have hlive : (k'.proc.taskTable child).state ≠ .unused := by
      rw [hforked.state]
      decide
    rw [taskRefs, if_pos hforked.free, taskRefs, if_neg hlive, Task.holds_congr hfds.symm,
      Nat.add_zero] at htrade
    rw [Pi.add_apply]
    exact htrade
  constructor
  · rw [hholders, ← hfd]
    exact hcounted
  · intro t ht fd
    by_cases htc : t = child
    · subst htc
      rw [← hfds, hcopy]
      exact h.valid parent hparent fd
    · rw [(hothers t htc).2]
      exact h.valid t (fun hfree => ht ((hothers t htc).1.mpr hfree)) fd

theorem Books.create (h : k.Books) {kstack : ℕ} {i : TaskRef} {p' : Proc}
    (hcreated : k.proc.Created kstack i p') : ({ k with proc := p' } : Kernel F).Books := by
  have hothers : ∀ t, t ≠ i → SameFds (k.proc.taskTable t) (p'.taskTable t) := by
    intro t ht
    rw [hcreated.others t ht]
    exact SameFds.refl _
  have hholders : ({ k with proc := p' } : Kernel F).holders = k.holders := by
    funext o
    have htrade := holders_trade k { k with proc := p' } i hothers o
    have hnone : (p'.taskTable i).holds o = 0 := by
      rw [Task.holds, Finset.card_eq_zero, hcreated.fds, Finset.filter_eq_empty_iff]
      intro fd _ hfd
      have hid : (-1 : ℤ) = (o.val : ℤ) := hfd
      omega
    have hnew : taskRefs o (p'.taskTable i) = 0 := by
      rw [taskRefs, hnone, ite_self]
    rw [hnew, taskRefs, if_pos hcreated.free, Nat.add_zero, Nat.add_zero] at htrade
    exact htrade
  constructor
  · rw [hholders]
    exact h.counted
  · intro t ht
    by_cases hti : t = i
    · subst hti
      intro fd
      exact .inl (congrFun hcreated.fds fd)
    · intro fd
      have hsame := hothers t hti
      change (p'.taskTable t).fdTable fd = -1 ∨ _
      rw [hsame.2]
      exact h.valid t (fun hfree => ht (hsame.1.mpr hfree)) fd

/-- What holds in every state of a run without a reap. -/
structure Accounted (k : Kernel F) : Prop where
  books : k.Books
  current : k.proc.CurrentLive

theorem Accounted.scheduled (h : k.Accounted) {p' : Proc} (hsched : k.proc.Scheduled p') :
    ({ k with proc := p' } : Kernel F).Accounted := by
  obtain ⟨hiff, hlive⟩ := hsched.live h.current
  exact ⟨h.books.congr rfl fun t => ⟨hiff t, hsched.fds t⟩, hlive⟩

theorem Accounted.fdCall (h : k.Accounted) (ht : k.InUse t) (call : FdCall) :
    (k.onTask t fun task L => L.fdCall ops call task).2.Accounted := by
  refine ⟨h.books.fdCall ops ht call, fun cur hcur => ?_⟩
  obtain ⟨-, fds, mask, hrest⟩ := (h.books.balanced ht).fdCall ops (few_othersOf k t) call
  by_cases hct : cur = t
  · subst hct
    have ht' : (k.proc.taskTable cur).state ≠ .unused := ht
    simpa [onTask, hrest] using ht'
  · simpa [onTask, hct] using h.current cur hcur

theorem Accounted.fork (h : k.Accounted) (kstack : ℕ) : (k.taskCall (.fork kstack)).Accounted := by
  cases sysFork_spec kstack k with
  | inl hfail =>
    simp only [taskCall, hfail]
    exact h
  | inr hmade =>
    obtain ⟨parent, child, k', hrun, hforked⟩ := hmade
    have hparent : k.InUse parent := h.current parent hforked.parent_current
    simp only [taskCall, hrun]
    refine ⟨h.books.fork hparent hforked, fun cur hcur => ?_⟩
    rw [hforked.current, hforked.parent_current] at hcur
    have hcp : parent = cur := Option.some.inj hcur
    have hne : parent ≠ child := by
      intro hpc
      exact hparent (hpc ▸ hforked.free)
    obtain ⟨regs, hregs⟩ := hforked.others parent hne
    rw [← hcp, hregs]
    exact hparent

theorem Accounted.create (h : k.Accounted) (trampoline kstack : ℕ) (name : Option (List Char))
    (entry arg : ℕ) :
    (k.taskCall (.createKernelThread trampoline kstack name entry arg)).Accounted := by
  cases taskCreateKernelThread_spec trampoline kstack name entry arg k.proc with
  | inl hfail =>
    simp only [taskCall, hfail]
    exact h
  | inr hmade =>
    obtain ⟨i, p', hrun, hcreated⟩ := hmade
    simp only [taskCall, hrun]
    refine ⟨h.books.create hcreated, fun cur hcur => ?_⟩
    have hlive := h.current cur (hcreated.current ▸ hcur)
    have hne : cur ≠ i := by
      intro hci
      exact hlive (hci ▸ hcreated.free)
    change (p'.taskTable cur).state ≠ .unused
    rw [hcreated.others cur hne]
    exact hlive

theorem Accounted.exit (h : k.Accounted) (code : ℕ) : (k.taskCall (.exit code)).Accounted := by
  simp only [taskCall, sysExit, procExitCurrent]
  cases hcur : k.proc.currentTask with
  | none => exact h
  | some cur =>
    exact h.scheduled (scheduled_modifyTask hcur (fun _ => rfl) (fun _ _ => by simp))

/-- One step of the tasks: a call on descriptors, or a call that creates, ends or schedules
tasks but reaps none. -/
inductive TaskStep (k : Kernel F) : Kernel F → Prop where
  | fdCall (t : TaskRef) (call : FdCall) (ht : k.InUse t) :
      TaskStep k (k.onTask t fun task L => L.fdCall ops call task).2
  | taskCall (call : TaskCall) (hcall : ∀ pid, call ≠ .waitpid pid) :
      TaskStep k (k.taskCall call)
  | setCurrent (t : TaskRef) (ht : k.InUse t) :
      TaskStep k { k with proc := k.proc.procSetCurrent (some t) }

theorem Accounted.step (h : k.Accounted) (hstep : TaskStep ops k k') : k'.Accounted := by
  cases hstep with
  | fdCall t call ht => exact h.fdCall ops ht call
  | setCurrent t ht =>
    refine ⟨h.books.congr rfl fun _ => SameFds.refl _, fun cur hcur => ?_⟩
    have htc : t = cur := Option.some.inj hcur
    rw [← htc]
    exact ht
  | taskCall call hcall =>
    cases call with
    | createKernelThread trampoline kstack name entry arg =>
      exact h.create trampoline kstack name entry arg
    | fork kstack => exact h.fork kstack
    | exit code => exact h.exit code
    | waitpid pid => exact absurd rfl (hcall pid)
    | setPolicy policy => exact h.scheduled (scheduled_of_same rfl rfl)
    | tick ticks => exact h.scheduled (scheduled_schedTick ticks k.proc)
    | yield rsp => exact h.scheduled (scheduled_schedYield rsp k.proc)

theorem Accounted.run (h : k.Accounted) (hrun : Relation.ReflTransGen (TaskStep ops) k k') :
    k'.Accounted := by
  induction hrun with
  | refl => exact h
  | tail _ hstep ih => exact ih.step ops hstep

theorem accounted_nmFdInit (hfds : ∀ t, k.InUse t → ∀ fd, (k.proc.taskTable t).fdTable fd = -1)
    (hcurrent : k.proc.CurrentLive) : ({ k with fd := k.fd.nmFdInit } : Kernel F).Accounted := by
  have hzero : ({ k with fd := k.fd.nmFdInit } : Kernel F).holders = 0 := by
    funext i
    rw [holders, Pi.zero_apply, Finset.card_eq_zero, Finset.filter_eq_empty_iff]
    rintro ⟨t, fd⟩ _ ⟨ht, hfd⟩
    have hid : (-1 : ℤ) = (i.val : ℤ) := (hfds t ht fd).symm.trans hfd
    omega
  refine ⟨⟨?_, fun t ht fd => .inl (hfds t ht fd)⟩, hcurrent⟩
  rw [hzero]
  refine ⟨fun i => ?_, fun i => rfl, fun p => ?_, fun p => ?_, fun p => ?_⟩
  · simp [FdLayer.nmFdInit]
  · simp [FdLayer.nmFdInit, FdLayer.endRefs]
  · simp [FdLayer.nmFdInit, FdLayer.endRefs]
  · simp [FdLayer.nmFdInit]

/-- The counters of objects and pipes are the numbers of descriptors behind them. -/
structure Refcounted (k : Kernel F) : Prop where
  /-- An entry is empty or names an object in use. -/
  entries : ∀ t, k.InUse t → ∀ fd, (k.proc.taskTable t).fdTable fd = -1 ∨
    ∃ i : Fin 128, (k.proc.taskTable t).fdTable fd = (i.val : ℤ) ∧ (k.fd.fdobjTable i).used = true
  /-- An object in use counts the descriptors that hold it, and there are some. -/
  objects : ∀ i, (k.fd.fdobjTable i).used = true →
    (k.fd.fdobjTable i).refcnt = k.holders i ∧ 0 < (k.fd.fdobjTable i).refcnt
  /-- A pipe counts the references to its read ends. -/
  readers : ∀ p, (k.fd.pipeTable p).readers = k.fd.endRefs .pipeR p
  /-- A pipe counts the references to its write ends. -/
  writers : ∀ p, (k.fd.pipeTable p).writers = k.fd.endRefs .pipeW p
  /-- A pipe is in use while it has an end. -/
  pipes : ∀ p, (k.fd.pipeTable p).used = true ↔
    0 < (k.fd.pipeTable p).readers + (k.fd.pipeTable p).writers

theorem Books.refcounted (h : k.Books) : k.Refcounted where
  entries := by
    intro t ht fd
    refine (h.valid t ht fd).imp id ?_
    rintro ⟨i, hi⟩
    exact ⟨i, hi, (h.counted.used_iff i).mpr (holders_pos ht hi)⟩
  objects := by
    intro i hi
    rw [h.counted.refcnt_eq]
    exact ⟨rfl, (h.counted.used_iff i).mp hi⟩
  readers := h.counted.readers_eq
  writers := h.counted.writers_eq
  pipes := h.counted.pipe_used

/-- From `nm_fd_init` with no descriptor open, in every run of descriptor calls, forks, exits
and scheduling in which no task is reaped, all counters are right. -/
theorem refcounts_agree {k k' : Kernel F}
    (hfds : ∀ t, k.InUse t → ∀ fd, (k.proc.taskTable t).fdTable fd = -1)
    (hcurrent : k.proc.CurrentLive)
    (hrun : Relation.ReflTransGen (TaskStep ops) { k with fd := k.fd.nmFdInit } k') :
    k'.Refcounted :=
  ((accounted_nmFdInit hfds hcurrent).run ops hrun).books.refcounted

theorem currentLive_booted : booted.proc.CurrentLive := by
  unfold CurrentLive
  decide +kernel

def forkedPipe : Kernel Unit :=
  ((booted.onTask 0 fun task L => L.fdCall noFiles .pipe task).2.onTask 0
    fun task L => L.fdCall noFiles (.dup2 0 5) task).2.taskCall (.fork 0x8000)

theorem refcounts_agree_forkedPipe :
    forkedPipe.Refcounted ∧ (forkedPipe.fd.pipeTable 0).readers = 4 := by
  refine ⟨refcounts_agree noFiles (k := booted) (by decide +kernel) currentLive_booted ?_,
    by decide +kernel⟩
  refine .head (.fdCall 0 .pipe (by decide +kernel)) (.head (.fdCall 0 (.dup2 0 5) ?_)
    (.single (.taskCall (.fork 0x8000) (by simp))))
  decide +kernel

end Kernel

end NeverMind
