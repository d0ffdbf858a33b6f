import NeverMind.Library.Run
import NeverMind.Verification.Proc.Table

/-! # The running task

The current task is the one in the state `running`. A tick that uses up the time slice of the
current task makes it runnable before the next task is selected, and a selection of the same
task does not make it running again. -/

namespace NeverMind.Proc

variable {p p' : Proc} {cur next : TaskRef}

/-- The calls that make and schedule tasks. -/
inductive SchedCall where
  | createKernelThread (trampoline kstack : ℕ) (name : Option (List Char)) (entry arg : ℕ)
  | fork (kstack : ℕ)
  | tick (ticks : ℕ)
  | yield (rsp : ℕ)

def schedCall (call : SchedCall) (p : Proc) : Proc :=
  match call with
  | .createKernelThread trampoline kstack name entry arg =>
    (p.taskCreateKernelThread trampoline kstack name entry arg).2
  | .fork kstack => (p.procForkCurrent kstack).2
  | .tick ticks => p.schedTick ticks
  | .yield rsp => p.schedYield rsp

def OneRunning (p : Proc) : Prop :=
  ∃ cur, p.currentTask = some cur ∧ (p.taskTable cur).state = .running ∧
    ∀ j, j ≠ cur → (p.taskTable j).state ≠ .running

def SliceEnds (ticks : ℕ) (p : Proc) (cur : TaskRef) : Prop :=
  p.globalPolicy = .rr ∧ ticks ≠ 0 ∧
    (p.taskTable cur).sched.timesliceTicks ≤ u64 ((p.taskTable cur).sched.rrBudget + ticks)

instance (ticks : ℕ) (p : Proc) (cur : TaskRef) : Decidable (SliceEnds ticks p cur) :=
  inferInstanceAs (Decidable (_ ∧ _ ∧ _))

/-- A tick uses up the time slice of the current task, which is the one to be selected. -/
def Reselects (call : SchedCall) (p : Proc) : Prop :=
  match call with
  | .tick ticks =>
    ∃ cur, p.currentTask = some cur ∧ SliceEnds ticks p cur ∧ p.schedPickNext.1 = some cur
  | _ => False

/-! ## States after one call -/

theorem schedOnRun_state (cur : TaskRef) (ticks : ℕ) (p : Proc) :
    ((p.schedOnRun (some cur) ticks).taskTable cur).state =
      if SliceEnds ticks p cur then .runnable else (p.taskTable cur).state := by
  by_cases hends : SliceEnds ticks p cur
  · rw [if_pos hends]
    obtain ⟨hpolicy, hticks, hbudget⟩ := hends
    simp [schedOnRun, hpolicy, hticks, hbudget]
  · rw [if_neg hends]
    unfold schedOnRun
    dsimp only
    split
    · rfl
    · rename_i hticks
      split
      · simp
      · rename_i hpolicy
        rw [taskTable_modifyTask, Function.update_self]
        split
        · next hbudget => exact absurd ⟨hpolicy, hticks, hbudget⟩ hends
        · rfl

/-- The selection takes runnable and running tasks alike, so that the end of a time slice makes no
difference to it. -/
theorem schedPickNext_schedOnRun {ticks : ℕ} (hrunning : (p.taskTable cur).state = .running)
    (hends : SliceEnds ticks p cur) :
    (p.schedOnRun (some cur) ticks).schedPickNext.1 = p.schedPickNext.1 := by
  obtain ⟨hpolicy, hticks, hbudget⟩ := hends
  have heligible : (p.schedOnRun (some cur) ticks).rrEligible = p.rrEligible := by
    funext i
    rw [Bool.eq_iff_iff, rrEligible_iff, rrEligible_iff]
    by_cases hi : i = cur
    · simp [Eligible, Ready, schedOnRun, hpolicy, hticks, hbudget, hi, hrunning]
    · simp [Eligible, Ready, schedOnRun, hpolicy, hticks, hi]
  simp only [schedPickNext, pickRr, heligible]
  simp only [schedOnRun, hpolicy, hticks, if_false, modifyTask, setTask, rrSlot]
  cases (List.range 128).find? _ <;> rfl

theorem OneRunning.of_new {i : TaskRef} (h : p.OneRunning)
    (hfree : (p.taskTable i).state = .unused) (hnew : (p'.taskTable i).state = .runnable)
    (hothers : ∀ j, j ≠ i → p'.taskTable j = p.taskTable j)
    (hcurrent : p'.currentTask = p.currentTask) : p'.OneRunning := by
  obtain ⟨cur, hcur, hrunning, hrest⟩ := h
  have hci : cur ≠ i := by
    intro heq
    rw [heq, hfree] at hrunning
    exact absurd hrunning TaskState.noConfusion
  refine ⟨cur, hcurrent.trans hcur, by rw [hothers cur hci, hrunning], ?_⟩
  intro j hj
  by_cases hji : j = i
  · rw [hji, hnew]
    exact TaskState.noConfusion
  · rw [hothers j hji]
    exact hrest j hj

theorem OneRunning.createKernelThread (h : p.OneRunning) (trampoline kstack : ℕ)
    (name : Option (List Char)) (entry arg : ℕ) :
    (p.taskCreateKernelThread trampoline kstack name entry arg).2.OneRunning := by
  cases taskCreateKernelThread_spec trampoline kstack name entry arg p with
  | inl hfail =>
    rw [hfail]
    exact h
  | inr hmade =>
    obtain ⟨i, p', hrun, hcreated⟩ := hmade
    rw [hrun]
    exact h.of_new hcreated.free hcreated.state hcreated.others hcreated.current

theorem OneRunning.fork (h : p.OneRunning) (kstack : ℕ) :
    (p.procForkCurrent kstack).2.OneRunning := by
  cases procForkCurrent_spec kstack p with
  | inl hfail =>
    rw [hfail]
    exact h
  | inr hmade =>
    obtain ⟨parent, i, p', hrun, hforked⟩ := hmade
    rw [hrun]
    exact h.of_new hforked.free hforked.state hforked.others hforked.current

/-- A switch leaves the incoming task as the only running one, whatever the state of the
outgoing task was. -/
theorem oneRunning_switchTo (hne : next ≠ cur)
    (hrest : ∀ j, j ≠ cur → (p.taskTable j).state ≠ .running) :
    (p.switchTo cur next).OneRunning := by
  have hstate := switchTo_state (p := p) hne
  refine ⟨next, rfl, by rw [hstate, if_pos rfl], ?_⟩
  intro j hj
  rw [hstate, if_neg hj]
  split
  · exact TaskState.noConfusion
  · next hjc => exact hrest j hjc

theorem OneRunning.schedYield (h : p.OneRunning) (rsp : ℕ) : (p.schedYield rsp).OneRunning := by
  obtain ⟨cur, hcur, hrunning, hrest⟩ := h
  obtain ⟨next, p', -, hdispatched, hyield⟩ := schedYield_dispatched hcur rsp
  rw [hyield]
  cases hdispatched with
  | stays cursor =>
    rw [if_pos rfl]
    exact ⟨cur, hcur, hrunning, hrest⟩
  | switches cursor _ hne =>
    rw [if_neg hne]
    obtain ⟨cur', hcur', hrunning', hrest'⟩ :=
      oneRunning_switchTo (p := p.atCursor cursor) hne hrest
    -- the stack pointer that is saved is not part of a state
    have hsave := get_modifyTask_of_keep Task.state
      (f := fun task => { task with savedRsp := rsp }) (fun _ => rfl) cur
    exact ⟨cur', hcur', (hsave cur' _).trans hrunning',
      fun j hj => by rw [hsave j]; exact hrest' j hj⟩

theorem OneRunning.schedTick_iff (h : p.OneRunning) (ticks : ℕ) :
    (p.schedTick ticks).OneRunning ↔ ¬Reselects (.tick ticks) p := by
  obtain ⟨cur, hcur, hrunning, hrest⟩ := h
  obtain ⟨next, hnext, hdispatched⟩ := schedTick_dispatched hcur ticks
  obtain ⟨hkeep, hothers, -⟩ := schedOnRun_spec cur ticks p
  have hstate := schedOnRun_state cur ticks p
  have hrest₁ : ∀ j, j ≠ cur →
      ((p.schedOnRun (some cur) ticks).taskTable j).state ≠ .running := by
    intro j hj
    rw [hothers j hj]
    exact hrest j hj
  have hiff : Reselects (.tick ticks) p ↔ SliceEnds ticks p cur ∧ next = cur := by
    constructor
    · rintro ⟨cur', hcur', hends, hpick⟩
      cases hcur.symm.trans hcur'
      rw [← schedPickNext_schedOnRun hrunning hends, hnext] at hpick
      exact ⟨hends, Option.some.inj hpick⟩
    · rintro ⟨hends, rfl⟩
      exact ⟨next, hcur, hends, by rw [← schedPickNext_schedOnRun hrunning hends, hnext]⟩
  rw [hiff]
  generalize p.schedTick ticks = p' at hdispatched ⊢
  cases hdispatched with
  | stays cursor =>
    constructor
    · rintro ⟨cur', hcur', hrunning', -⟩ ⟨hends, -⟩
      have hcc : cur' = cur := Option.some.inj (hcur'.symm.trans (hkeep.trans hcur))
      rw [hcc, taskTable_atCursor, hstate, if_pos hends] at hrunning'
      exact absurd hrunning' TaskState.noConfusion
    · intro hno
      refine ⟨cur, hkeep.trans hcur, ?_, hrest₁⟩
      rw [taskTable_atCursor, hstate, if_neg fun hends => hno ⟨hends, rfl⟩, hrunning]
  | switches cursor _ hne =>
    exact iff_of_true (oneRunning_switchTo hne hrest₁) fun hends => hne hends.2

/-- The step law: one task is running after a call exactly when the call does not select a
task again whose time slice it has just ended. -/
theorem OneRunning.schedCall_iff (h : p.OneRunning) (call : SchedCall) :
    (p.schedCall call).OneRunning ↔ ¬Reselects call p := by
  cases call with
  | createKernelThread trampoline kstack name entry arg =>
    exact iff_of_true (h.createKernelThread trampoline kstack name entry arg) not_false
  | fork kstack => exact iff_of_true (h.fork kstack) not_false
  | tick ticks => exact h.schedTick_iff ticks
  | yield rsp => exact iff_of_true (h.schedYield rsp) not_false

/-! ## Runs -/

theorem oneRunning_procInit (policy : SchedPolicy) (p : Proc) :
    (p.procInit.schedInit policy).OneRunning := by
  have htable := procInit_table p
  have hstate : ∀ i, (p.procInit.taskTable i).state = if i = 0 then .running else .unused := by
    intro i
    have hlife := congrArg (fun t => (t.life i).state) htable
    rw [ProcTable.state_boot] at hlife
    exact hlife
  refine ⟨0, congrArg ProcTable.current htable, hstate 0, fun j hj => ?_⟩
  change (p.procInit.taskTable j).state ≠ .running
  rw [hstate, if_neg hj]
  exact TaskState.noConfusion

/-- From `proc_init` and `sched_init` on, exactly one task is running in every state of a run,
and it is the current one, if and only if no tick of the run ends the time slice of the
current task and then selects that task again. -/
theorem one_running_iff (policy : SchedPolicy) (p : Proc) (calls : List SchedCall) :
    Throughout schedCall OneRunning calls (p.procInit.schedInit policy) ↔
      EachStep schedCall (fun call p => ¬Reselects call p) calls (p.procInit.schedInit policy) :=
  throughout_iff_eachStep (I := fun _ => True) (eachStep_true calls _) (fun _ _ _ _ => trivial)
    (fun call _ _ _ h => h.schedCall_iff call) trivial (oneRunning_procInit policy p)

def bootAfterSlice : Proc := (Proc.atStart.procInit.schedInit .rr).schedCall (.tick 4)

theorem bootAfterSlice_not_running :
    bootAfterSlice.currentTask = some 0 ∧ (bootAfterSlice.taskTable 0).state = .runnable ∧
      ¬bootAfterSlice.OneRunning := by
  have hcurrent : bootAfterSlice.currentTask = some 0 := by decide +kernel
  have hstate : (bootAfterSlice.taskTable 0).state = .runnable := by decide +kernel
  refine ⟨hcurrent, hstate, ?_⟩
  rintro ⟨cur, hcur, hrunning, -⟩
  cases hcurrent.symm.trans hcur
  rw [hstate] at hrunning
  exact absurd hrunning TaskState.noConfusion

end NeverMind.Proc
