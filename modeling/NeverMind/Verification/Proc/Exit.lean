import NeverMind.Verification.Proc.Scheduling

/-! # Exit is final

A task that exited is a zombie until its parent waits for it. The code keeps this law in
exactly the runs in which the scheduler is never entered while the current task is itself
a zombie. -/

namespace NeverMind

open Proc

namespace Kernel

variable {F : Type*}

def runTasks (calls : List TaskCall) (k : Kernel F) : Kernel F :=
  calls.foldl (fun k call => k.taskCall call) k

def initTasks (k : Kernel F) : Kernel F := { k with proc := k.proc.procInit }

def IsZombie (k : Kernel F) (i : TaskRef) : Prop := (k.proc.taskTable i).state = .zombie

def selected (call : TaskCall) (k : Kernel F) : Option TaskRef :=
  match call with
  | .tick ticks =>
    match k.proc.taskCurrent with
    | none => none
    | some cur => (k.proc.schedOnRun (some cur) ticks).schedPickNext.1
  | .yield _ =>
    match k.proc.taskCurrent with
    | none => none
    | some _ => k.proc.schedPickNext.1
  | _ => none

/-- The call is a wait by the parent of a task, and it empties the slot of the task. -/
def ReapedBy (call : TaskCall) (k : Kernel F) (i : TaskRef) : Prop :=
  (∃ pid, call = .waitpid pid) ∧ (∃ parent, k.proc.currentTask = some parent ∧
      (k.proc.taskTable i).ppid = (k.proc.taskTable parent).pid) ∧
    ((k.taskCall call).proc.taskTable i).state = .unused

/-- A call respects the exits made before it: a zombie remains one unless its parent reaps
it, and is not selected to run. -/
def RespectsExit (call : TaskCall) (k : Kernel F) : Prop :=
  ∀ i, k.IsZombie i →
    ((k.taskCall call).IsZombie i ∨ ReapedBy call k i) ∧ selected call k ≠ some i

/-- Every call of the run respects the exits before it. -/
def ExitFinal (calls : List TaskCall) (k : Kernel F) : Prop :=
  ∀ before call after, calls = before ++ call :: after →
    RespectsExit call (k.runTasks before)

/-- The scheduler is entered while the current task is a zombie. -/
def SchedulesZombie (call : TaskCall) (k : Kernel F) : Prop :=
  ((∃ ticks, call = .tick ticks) ∨ ∃ rsp, call = .yield rsp) ∧
    ∃ cur, k.proc.currentTask = some cur ∧ k.IsZombie cur

/-! ## Calls outside the scheduler -/

variable {k : Kernel F} {i : TaskRef}

theorem ne_of_zombie_of_unused {j : TaskRef} (hi : k.IsZombie i)
    (hj : (k.proc.taskTable j).state = .unused) : i ≠ j := by
  intro hij
  rw [hij, IsZombie, hj] at hi
  exact absurd hi (by decide)

theorem isZombie_createKernelThread (trampoline kstack : ℕ) (name : Option (List Char))
    (entry arg : ℕ) (hi : k.IsZombie i) :
    (k.taskCall (.createKernelThread trampoline kstack name entry arg)).IsZombie i := by
  cases taskCreateKernelThread_spec trampoline kstack name entry arg k.proc with
  | inl hfail =>
    simp only [taskCall, hfail]
    exact hi
  | inr hmade =>
    obtain ⟨j, p', hrun, hcreated⟩ := hmade
    have hne := ne_of_zombie_of_unused hi hcreated.free
    simp only [taskCall, hrun, IsZombie, hcreated.others i hne]
    exact hi

theorem isZombie_fork (kstack : ℕ) (hi : k.IsZombie i) :
    (k.taskCall (.fork kstack)).IsZombie i := by
  cases sysFork_spec kstack k with
  | inl hfail =>
    simp only [taskCall, hfail]
    exact hi
  | inr hmade =>
    obtain ⟨parent, child, k', hrun, hforked⟩ := hmade
    have hne := ne_of_zombie_of_unused hi hforked.free
    obtain ⟨regs, hregs⟩ := hforked.others i hne
    simp only [taskCall, hrun, IsZombie, hregs]
    exact hi

theorem isZombie_exit (code : ℕ) (hi : k.IsZombie i) : (k.taskCall (.exit code)).IsZombie i := by
  simp only [taskCall, sysExit, procExitCurrent, IsZombie]
  split
  · exact hi
  · rename_i cur hcur
    by_cases hc : i = cur
    · simp [hc]
    · simp only [taskTable_modifyTask, Function.update_of_ne hc]
      exact hi

theorem isZombie_waitpid_or_reaped (pid : ℤ) (hi : k.IsZombie i) :
    (k.taskCall (.waitpid pid)).IsZombie i ∨ ReapedBy (.waitpid pid) k i := by
  cases procWaitpid_spec pid k.proc with
  | inl hfail =>
    left
    simp only [taskCall, hfail]
    exact hi
  | inr hfound =>
    obtain ⟨parent, dead, p', hrun, hreaped⟩ := hfound
    by_cases hd : i = dead
    · right
      subst hd
      refine ⟨⟨pid, rfl⟩, ⟨parent, hreaped.parent_current, hreaped.ppid⟩, ?_⟩
      simp only [taskCall, hrun, hreaped.table, Function.update_self, reapSlot]
    · left
      simp only [taskCall, hrun, IsZombie, hreaped.table, Function.update_of_ne hd]
      exact hi

/-! ## The scheduler -/

theorem selected_tick {cur : TaskRef} (hcur : k.proc.currentTask = some cur) (ticks : ℕ) :
    selected (.tick ticks) k = (k.proc.schedOnRun (some cur) ticks).schedPickNext.1 := by
  simp only [selected, taskCurrent, hcur]

theorem selected_yield {cur : TaskRef} (hcur : k.proc.currentTask = some cur) (rsp : ℕ) :
    selected (.yield rsp) k = k.proc.schedPickNext.1 := by
  simp only [selected, taskCurrent, hcur]

theorem state_tick {cur next : TaskRef} (hcur : k.proc.currentTask = some cur) (ticks : ℕ)
    (hnext : selected (.tick ticks) k = some next) (j : TaskRef) :
    ((k.taskCall (.tick ticks)).proc.taskTable j).state =
      if next = cur then ((k.proc.schedOnRun (some cur) ticks).taskTable j).state
      else if j = next then .running
      else if j = cur then .runnable
      else ((k.proc.schedOnRun (some cur) ticks).taskTable j).state := by
  rw [selected_tick hcur] at hnext
  obtain ⟨next', hnext', hdispatched⟩ := schedTick_dispatched hcur ticks
  rw [hnext] at hnext'
  cases hnext'
  change ((k.proc.schedTick ticks).taskTable j).state = _
  generalize k.proc.schedTick ticks = p' at hdispatched ⊢
  cases hdispatched with
  | stays cursor => rw [if_pos rfl, taskTable_atCursor]
  | switches cursor _ hne => rw [switchTo_state hne, if_neg hne, taskTable_atCursor]

theorem state_yield {cur next : TaskRef} (hcur : k.proc.currentTask = some cur) (rsp : ℕ)
    (hnext : selected (.yield rsp) k = some next) (j : TaskRef) :
    ((k.taskCall (.yield rsp)).proc.taskTable j).state =
      if next = cur then (k.proc.taskTable j).state
      else if j = next then .running
      else if j = cur then .runnable
      else (k.proc.taskTable j).state := by
  rw [selected_yield hcur] at hnext
  obtain ⟨next', p', hnext', hdispatched, hyield⟩ := schedYield_dispatched hcur rsp
  rw [hnext] at hnext'
  cases hnext'
  change ((k.proc.schedYield rsp).taskTable j).state = _
  rw [hyield]
  cases hdispatched with
  | stays cursor => rw [if_pos rfl, if_pos rfl, taskTable_atCursor]
  | switches cursor _ hne =>
    rw [if_neg hne, if_neg hne, get_modifyTask_of_keep Task.state
      (f := fun task => { task with savedRsp := rsp }) (fun _ => rfl),
      switchTo_state hne, taskTable_atCursor]

theorem isSome_selected_tick {cur : TaskRef} (hcur : k.proc.currentTask = some cur) (ticks : ℕ) :
    ∃ next, selected (.tick ticks) k = some next := by
  rw [selected_tick hcur]
  obtain ⟨hkeep, -, -⟩ := schedOnRun_spec cur ticks k.proc
  exact schedPickNext_isSome (hkeep.trans hcur)

theorem isSome_selected_yield {cur : TaskRef} (hcur : k.proc.currentTask = some cur) (rsp : ℕ) :
    ∃ next, selected (.yield rsp) k = some next := by
  rw [selected_yield hcur]
  exact schedPickNext_isSome hcur

theorem respectsExit_tick {cur : TaskRef} (hcur : k.proc.currentTask = some cur)
    (hlive : ¬ k.IsZombie cur) (ticks : ℕ) : RespectsExit (.tick ticks) k := by
  intro i hi
  have hne : i ≠ cur := fun hic => hlive (hic ▸ hi)
  obtain ⟨hkeep, hothers, -⟩ := schedOnRun_spec cur ticks k.proc
  have hi' : ((k.proc.schedOnRun (some cur) ticks).taskTable i).state = .zombie := by
    rw [hothers i hne]
    exact hi
  have hsel : selected (.tick ticks) k ≠ some i := by
    rw [selected_tick hcur]
    refine schedPickNext_ne_of_zombie hi' ?_
    rw [hkeep, hcur]
    exact fun hci => hne (Option.some.inj hci).symm
  obtain ⟨next, hnext⟩ := isSome_selected_tick hcur ticks
  have hin : i ≠ next := fun hin => hsel (hin ▸ hnext)
  refine ⟨.inl ?_, hsel⟩
  rw [IsZombie, state_tick hcur ticks hnext]
  simp [hin, hne, hi']

theorem respectsExit_yield {cur : TaskRef} (hcur : k.proc.currentTask = some cur)
    (hlive : ¬ k.IsZombie cur) (rsp : ℕ) : RespectsExit (.yield rsp) k := by
  intro i hi
  have hne : i ≠ cur := fun hic => hlive (hic ▸ hi)
  have hi' : (k.proc.taskTable i).state = .zombie := hi
  have hsel : selected (.yield rsp) k ≠ some i := by
    rw [selected_yield hcur]
    refine schedPickNext_ne_of_zombie hi ?_
    rw [hcur]
    exact fun hci => hne (Option.some.inj hci).symm
  obtain ⟨next, hnext⟩ := isSome_selected_yield hcur rsp
  have hin : i ≠ next := fun hin => hsel (hin ▸ hnext)
  refine ⟨.inl ?_, hsel⟩
  rw [IsZombie, state_yield hcur rsp hnext]
  simp [hin, hne, hi']

/-- A zombie that is current when the scheduler runs is selected again or made runnable. -/
theorem not_respectsExit_of_switch {call : TaskCall} {cur next : TaskRef} (hzombie : k.IsZombie cur)
    (hcall : ∀ pid, call ≠ .waitpid pid) (hnext : selected call k = some next)
    (hswitch : next ≠ cur → ((k.taskCall call).proc.taskTable cur).state = .runnable) :
    ¬ RespectsExit call k := by
  intro hrespects
  obtain ⟨hstays, hsel⟩ := hrespects cur hzombie
  have hne : next ≠ cur := fun hnc => hsel (hnc ▸ hnext)
  cases hstays with
  | inl hstill =>
    rw [IsZombie, hswitch hne] at hstill
    exact absurd hstill (by decide)
  | inr hreaped =>
    obtain ⟨⟨pid, hpid⟩, -⟩ := hreaped
    exact hcall pid hpid

/-- The step law: a call respects the exits before it exactly when it does not enter the
scheduler with a zombie as the current task. -/
theorem respectsExit_iff_not_schedulesZombie (call : TaskCall) (k : Kernel F) :
    RespectsExit call k ↔ ¬ SchedulesZombie call k := by
  constructor
  · intro hrespects hsched
    obtain ⟨hcall, cur, hcur, hzombie⟩ := hsched
    cases hcall with
    | inl htick =>
      obtain ⟨ticks, rfl⟩ := htick
      obtain ⟨next, hnext⟩ := isSome_selected_tick hcur ticks
      refine not_respectsExit_of_switch hzombie (by simp) hnext ?_ hrespects
      intro hne
      rw [state_tick hcur ticks hnext]
      simp [hne, hne.symm]
    | inr hyield =>
      obtain ⟨rsp, rfl⟩ := hyield
      obtain ⟨next, hnext⟩ := isSome_selected_yield hcur rsp
      refine not_respectsExit_of_switch hzombie (by simp) hnext ?_ hrespects
      intro hne
      rw [state_yield hcur rsp hnext]
      simp [hne, hne.symm]
  · intro hsched
    have hlive : ((∃ ticks, call = .tick ticks) ∨ ∃ rsp, call = .yield rsp) →
        ∀ cur, k.proc.currentTask = some cur → ¬ k.IsZombie cur :=
      fun hcall cur hcur hzombie => hsched ⟨hcall, cur, hcur, hzombie⟩
    cases call with
    | createKernelThread trampoline kstack name entry arg =>
      exact fun i hi => ⟨.inl (isZombie_createKernelThread trampoline kstack name entry arg hi),
        by simp [selected]⟩
    | fork kstack => exact fun i hi => ⟨.inl (isZombie_fork kstack hi), by simp [selected]⟩
    | exit code => exact fun i hi => ⟨.inl (isZombie_exit code hi), by simp [selected]⟩
    | waitpid pid => exact fun i hi => ⟨isZombie_waitpid_or_reaped pid hi, by simp [selected]⟩
    | setPolicy policy => exact fun i hi => ⟨.inl hi, by simp [selected]⟩
    | tick ticks =>
      cases hcur : k.proc.currentTask with
      | none =>
        -- without a current task a tick does nothing
        intro i hi
        simp only [taskCall, selected, schedTick, taskCurrent, hcur]
        exact ⟨.inl hi, by simp⟩
      | some cur => exact respectsExit_tick hcur (hlive (.inl ⟨ticks, rfl⟩) cur hcur) ticks
    | yield rsp =>
      cases hcur : k.proc.currentTask with
      | none =>
        intro i hi
        simp only [taskCall, selected, schedYield, taskCurrent, hcur]
        exact ⟨.inl hi, by simp⟩
      | some cur => exact respectsExit_yield hcur (hlive (.inr ⟨rsp, rfl⟩) cur hcur) rsp

/-! ## Runs -/

/-- In a run that respects exits a zombie remains one until its parent reaps it. -/
theorem ExitFinal.zombie_until_reaped {calls : List TaskCall} (h : ExitFinal calls k)
    (hi : k.IsZombie i) :
    (k.runTasks calls).IsZombie i ∨ ∃ before call after, calls = before ++ call :: after ∧
        (k.runTasks before).IsZombie i ∧ ReapedBy call (k.runTasks before) i := by
  -- induction on the run: the first call keeps the zombie or reaps it
  induction calls generalizing k with
  | nil => exact .inl hi
  | cons call calls ih =>
    obtain ⟨hstep, -⟩ := h [] call calls rfl i hi
    cases hstep with
    | inr hreaped => exact .inr ⟨[], call, calls, rfl, hi, hreaped⟩
    | inl hstays =>
      have hrest : ExitFinal calls (k.taskCall call) := by
        intro before call' after hsplit
        exact h (call :: before) call' after (by rw [hsplit, List.cons_append])
      cases ih hrest hstays with
      | inl hend => exact .inl hend
      | inr hlater =>
        obtain ⟨before, call', after, hsplit, hz, hreaped⟩ := hlater
        exact .inr
          ⟨call :: before, call', after, by rw [hsplit, List.cons_append], hz, hreaped⟩

/-- Exit is final in a run from `proc_init` exactly when no tick and no yield of the run is
made while the current task is a zombie. -/
theorem exit_final_iff (k : Kernel F) (calls : List TaskCall) :
    ExitFinal calls k.initTasks ↔ ∀ before call after, calls = before ++ call :: after →
        ¬ SchedulesZombie call (k.initTasks.runTasks before) := by
  constructor
  · intro h before call after hsplit
    exact (respectsExit_iff_not_schedulesZombie call _).mp (h before call after hsplit)
  · intro h before call after hsplit
    exact (respectsExit_iff_not_schedulesZombie call _).mpr (h before call after hsplit)

def exitThenYield : List TaskCall :=
  [.createKernelThread 0x1000 0x8000 none 0x2000 0, .exit 7, .yield 0x7000]

/-- The boot task is a zombie after its exit and runnable after the yield, and the next yield
runs it again. -/
theorem exited_task_runs_again : let k := (atStart ()).initTasks
    (k.runTasks (exitThenYield.take 2)).IsZombie 0 ∧
      ((k.runTasks exitThenYield).proc.taskTable 0).state = .runnable ∧
      (k.runTasks (exitThenYield ++ [.yield 0x9000])).proc.currentTask = some 0 ∧
      ¬ ExitFinal exitThenYield k := by
  have hzombie : ((atStart ()).initTasks.runTasks (exitThenYield.take 2)).IsZombie 0 := by
    rw [IsZombie]
    decide +kernel
  have hcurrent : ((atStart ()).initTasks.runTasks (exitThenYield.take 2)).proc.currentTask =
      some 0 := by
    decide +kernel
  refine ⟨hzombie, by decide +kernel, by decide +kernel, ?_⟩
  intro hfinal
  have hstep := hfinal (exitThenYield.take 2) (.yield 0x7000) [] rfl
  exact (respectsExit_iff_not_schedulesZombie _ _).mp hstep
    ⟨.inr ⟨0x7000, rfl⟩, 0, hcurrent, hzombie⟩

end Kernel

end NeverMind
