import NeverMind.Verification.Proc.Tasks

/-! # What the scheduler selects and writes -/

namespace NeverMind.Proc

variable {p p' : Proc} {cur next : TaskRef}

def Ready (p : Proc) (i : TaskRef) : Prop :=
  (p.taskTable i).state = .runnable ∨ (p.taskTable i).state = .running

variable {i : TaskRef}

theorem Ready.not_zombie (h : p.Ready i) : (p.taskTable i).state ≠ .zombie := by
  cases h with
  | inl h => simp [h]
  | inr h => simp [h]

/-- A task that can be given the processor: it is ready, and it is the current task or has a
saved stack. -/
def Eligible (p : Proc) (i : TaskRef) : Prop :=
  p.Ready i ∧ (p.currentTask = some i ∨ (p.taskTable i).savedRsp ≠ 0)

theorem switchable_iff :
    p.switchable i = true ↔ p.currentTask = some i ∨ (p.taskTable i).savedRsp ≠ 0 := by
  simp [switchable]

theorem taskByIndex_of_ne_unused (h : (p.taskTable i).state ≠ .unused) : p.taskByIndex i = some i :=
  if_neg h

theorem Ready.ne_unused (h : p.Ready i) : (p.taskTable i).state ≠ .unused := by
  cases h with
  | inl h => simp [h]
  | inr h => simp [h]

theorem rrEligible_iff : p.rrEligible i = true ↔ p.Eligible i := by
  unfold rrEligible Eligible
  by_cases hi : (p.taskTable i).state = .unused
  · have hready : ¬p.Ready i := fun h => h.ne_unused hi
    simp [taskByIndex, hi, hready]
  · rw [taskByIndex_of_ne_unused hi, ← switchable_iff]
    simp [Ready]

theorem cfsStep_considered {wanted : TaskState} {best : Option TaskRef}
    (h : ∀ b, best = some b → (p.taskTable b).state = wanted ∧ p.switchable b = true)
    (i : TaskRef) :
    ∀ b, p.cfsStep wanted best i = some b →
      (p.taskTable b).state = wanted ∧ p.switchable b = true := by
  intro b hb
  unfold cfsStep at hb
  split at hb
  · exact h b hb
  · rename_i j hj
    split at hb
    · exact h b hb
    · rename_i hstate
      have hwanted : (p.taskTable j).state = wanted := not_not.mp hstate
      split at hb
      · exact h b hb
      · rename_i hswitch
        have hswitch : p.switchable j = true := by simpa using hswitch
        split at hb
        · cases hb
          exact ⟨hwanted, hswitch⟩
        · split at hb
          · cases hb
            exact ⟨hwanted, hswitch⟩
          · exact h b hb

theorem cfsScan_considered {wanted : TaskState} {b : TaskRef} (h : p.cfsScan wanted = some b) :
    (p.taskTable b).state = wanted ∧ p.switchable b = true := by
  have hfold : ∀ (is : List TaskRef) (best : Option TaskRef),
      (∀ b, best = some b → (p.taskTable b).state = wanted ∧ p.switchable b = true) →
      ∀ b, is.foldl (p.cfsStep wanted) best = some b →
        (p.taskTable b).state = wanted ∧ p.switchable b = true := by
    intro is
    induction is with
    | nil => intro best hbest b hb; exact hbest b hb
    | cons i is ih =>
      intro best hbest b hb
      exact ih (p.cfsStep wanted best i) (cfsStep_considered hbest i) b hb
  exact hfold (List.finRange 128) none (by simp) b h

theorem schedPickNext_fst (p : Proc) :
    (p.schedPickNext).1 = p.currentTask ∨
      ∃ next, (p.schedPickNext).1 = some next ∧ p.Eligible next := by
  unfold schedPickNext
  cases p.globalPolicy with
  | cfs =>
    dsimp only
    unfold pickCfs
    split
    · rename_i best hbest
      obtain ⟨hstate, hswitch⟩ := cfsScan_considered hbest
      exact .inr ⟨best, rfl, .inl hstate, switchable_iff.mp hswitch⟩
    · split
      · rename_i best hbest
        obtain ⟨hstate, hswitch⟩ := cfsScan_considered hbest
        exact .inr ⟨best, rfl, .inr hstate, switchable_iff.mp hswitch⟩
      · exact .inl rfl
  | rr =>
    dsimp only
    unfold pickRr
    split
    · rename_i probe hprobe
      have heligible : p.rrEligible (p.rrSlot probe) = true := by
        have hfound := List.find?_some hprobe
        exact hfound
      exact .inr ⟨_, rfl, rrEligible_iff.mp heligible⟩
    · exact .inl rfl

def atCursor (cursor : ℕ) (p : Proc) : Proc := { p with rrCursor := cursor }

@[simp] theorem taskTable_atCursor (cursor : ℕ) (p : Proc) :
    (p.atCursor cursor).taskTable = p.taskTable :=
  rfl

theorem schedPickNext_snd (p : Proc) : ∃ cursor, (p.schedPickNext).2 = p.atCursor cursor := by
  unfold schedPickNext
  split
  · exact ⟨p.rrCursor, rfl⟩
  · unfold pickRr
    split
    · exact ⟨_, rfl⟩
    · exact ⟨p.rrCursor, rfl⟩

/-- A task that is not ready is selected only as the current one. -/
theorem schedPickNext_ne_of_zombie (hi : (p.taskTable i).state = .zombie)
    (hcur : p.currentTask ≠ some i) : (p.schedPickNext).1 ≠ some i := by
  intro hpick
  cases schedPickNext_fst p with
  | inl hc => exact hcur (hc.symm.trans hpick)
  | inr hready =>
    obtain ⟨next, hnext, hready, -⟩ := hready
    rw [hpick] at hnext
    cases hnext
    exact hready.not_zombie hi

theorem schedPickNext_isSome (hcur : p.currentTask = some cur) :
    ∃ next, (p.schedPickNext).1 = some next := by
  cases schedPickNext_fst p with
  | inl hc => exact ⟨cur, hc.trans hcur⟩
  | inr hready => exact ⟨hready.choose, hready.choose_spec.1⟩

/-- The accounting of a tick touches the task it is for only, and makes it runnable or keeps
its state. -/
theorem schedOnRun_spec (cur : TaskRef) (ticks : ℕ) (p : Proc) :
    (p.schedOnRun (some cur) ticks).currentTask = p.currentTask ∧
      (∀ j, j ≠ cur → (p.schedOnRun (some cur) ticks).taskTable j = p.taskTable j) ∧
      (((p.schedOnRun (some cur) ticks).taskTable cur).state = (p.taskTable cur).state ∨
        ((p.schedOnRun (some cur) ticks).taskTable cur).state = .runnable) := by
  unfold schedOnRun
  dsimp only
  split
  · exact ⟨rfl, fun _ _ => rfl, .inl rfl⟩
  · split
    · refine ⟨rfl, ?_, .inl ?_⟩
      · intro j hj
        simp [hj]
      · simp
    · refine ⟨rfl, ?_, ?_⟩
      · intro j hj
        simp [hj]
      · rw [taskTable_modifyTask, Function.update_self]
        split
        · exact .inr rfl
        · exact .inl rfl

theorem switchTo_state (hne : next ≠ cur) (j : TaskRef) :
    ((p.switchTo cur next).taskTable j).state =
      if j = next then .running else if j = cur then .runnable else (p.taskTable j).state := by
  unfold switchTo procSetCurrent
  by_cases hn : j = next
  · subst hn
    simp [hne]
  · by_cases hc : j = cur
    · subst hc
      simp [hn]
    · simp [hn, hc]

variable {β : Type*}

theorem get_switchTo_of_keep (get : Task → β)
    (hget : ∀ task state, get { task with state } = get task) (j : TaskRef) :
    get ((p.switchTo cur next).taskTable j) = get (p.taskTable j) :=
  (get_modifyTask_of_keep get (f := fun task => { task with state := .running })
    (fun task => hget task _) next j _).trans
      (get_modifyTask_of_keep get (f := fun task => { task with state := .runnable })
        (fun task => hget task _) cur j p)

/-! ## What a tick and a yield come to -/

/-- After a selection the current task goes on, or the selected one takes over. -/
inductive Dispatched (cur : TaskRef) (p : Proc) : TaskRef → Proc → Prop where
  | stays (cursor : ℕ) : Dispatched cur p cur (p.atCursor cursor)
  | switches (cursor : ℕ) (next : TaskRef) (hne : next ≠ cur) (hready : p.Ready next)
      (hsaved : (p.taskTable next).savedRsp ≠ 0) :
      Dispatched cur p next ((p.atCursor cursor).switchTo cur next)

theorem eligible_of_pick (hcur : p.currentTask = some cur) (hne : next ≠ cur)
    (hpick : (p.schedPickNext).1 = some next) : p.Ready next ∧ (p.taskTable next).savedRsp ≠ 0 := by
  have hne' : p.currentTask ≠ some next := by
    rw [hcur]
    exact fun heq => hne (Option.some.inj heq).symm
  cases schedPickNext_fst p with
  | inl hc => exact absurd (hc.symm.trans hpick) hne'
  | inr helig =>
    obtain ⟨i, hi, hready, hswitch⟩ := helig
    rw [hpick] at hi
    cases hi
    exact ⟨hready, hswitch.resolve_left hne'⟩

theorem schedTick_dispatched (hcur : p.currentTask = some cur) (ticks : ℕ) :
    ∃ next, (p.schedOnRun (some cur) ticks).schedPickNext.1 = some next ∧
      Dispatched cur (p.schedOnRun (some cur) ticks) next (p.schedTick ticks) := by
  have hcur₁ : (p.schedOnRun (some cur) ticks).currentTask = some cur := by
    rw [(schedOnRun_spec cur ticks p).1, hcur]
  obtain ⟨next, hnext⟩ := schedPickNext_isSome hcur₁
  obtain ⟨cursor, hcursor⟩ := schedPickNext_snd (p.schedOnRun (some cur) ticks)
  have hpick : (p.schedOnRun (some cur) ticks).schedPickNext =
      (some next, (p.schedOnRun (some cur) ticks).atCursor cursor) := Prod.ext hnext hcursor
  refine ⟨next, hnext, ?_⟩
  simp only [schedTick, taskCurrent, hcur, hpick]
  split
  · rename_i heq
    rw [heq]
    exact .stays cursor
  · rename_i hne
    obtain ⟨hready, hsaved⟩ := eligible_of_pick hcur₁ hne hnext
    exact .switches cursor next hne hready hsaved

/-- A yield saves the stack pointer of the task that it switches away from. -/
theorem schedYield_dispatched (hcur : p.currentTask = some cur) (rsp : ℕ) :
    ∃ next p', (p.schedPickNext).1 = some next ∧ Dispatched cur p next p' ∧
      p.schedYield rsp = if next = cur then p'
        else p'.modifyTask cur fun task => { task with savedRsp := rsp } := by
  obtain ⟨next, hnext⟩ := schedPickNext_isSome hcur
  obtain ⟨cursor, hcursor⟩ := schedPickNext_snd p
  have hpick : p.schedPickNext = (some next, p.atCursor cursor) := Prod.ext hnext hcursor
  simp only [schedYield, taskCurrent, hcur, hpick]
  by_cases heq : next = cur
  · rw [heq]
    exact ⟨cur, _, rfl, .stays cursor, by simp⟩
  · obtain ⟨hready, hsaved⟩ := eligible_of_pick hcur heq hnext
    refine ⟨next, _, rfl, .switches cursor next heq hready hsaved, ?_⟩
    have hsaved' : (((p.atCursor cursor).switchTo cur next).taskTable next).savedRsp ≠ 0 := by
      rw [get_switchTo_of_keep Task.savedRsp fun _ _ => rfl]
      exact hsaved
    rw [if_neg heq, if_neg heq, if_pos hsaved']

/-! ## What scheduling leaves alone -/

theorem Dispatched.get_of_keep (get : Task → β)
    (hget : ∀ task state, get { task with state } = get task) (h : Dispatched cur p next p')
    (j : TaskRef) : get (p'.taskTable j) = get (p.taskTable j) := by
  cases h with
  | stays cursor => rfl
  | switches cursor next hne hready hsaved => exact get_switchTo_of_keep get hget j

theorem get_schedOnRun_of_keep (get : Task → β)
    (hget : ∀ task state sched, get { task with state, sched } = get task) (ticks : ℕ)
    (j : TaskRef) : get ((p.schedOnRun (some cur) ticks).taskTable j) = get (p.taskTable j) := by
  unfold schedOnRun
  dsimp only
  split
  · rfl
  · split
    · exact get_modifyTask_of_keep get (fun task => hget task task.state _) cur j p
    · refine get_modifyTask_of_keep get (fun task => ?_) cur j p
      split
      · exact hget task _ _
      · exact hget task task.state _

/-- A tick changes the state and the bookkeeping of tasks only. -/
theorem get_schedTick_of_keep (get : Task → β)
    (hget : ∀ task state sched, get { task with state, sched } = get task) (ticks : ℕ)
    (j : TaskRef) : get ((p.schedTick ticks).taskTable j) = get (p.taskTable j) := by
  cases hcur : p.currentTask with
  | none => simp [schedTick, taskCurrent, hcur]
  | some cur =>
    obtain ⟨next, -, hdispatched⟩ := schedTick_dispatched hcur ticks
    rw [hdispatched.get_of_keep get fun task state => hget task state task.sched]
    exact get_schedOnRun_of_keep get hget ticks j

/-- A yield changes the state and the saved stack pointer of tasks only. -/
theorem get_schedYield_of_keep (get : Task → β)
    (hget : ∀ task state savedRsp, get { task with state, savedRsp } = get task) (rsp : ℕ)
    (j : TaskRef) : get ((p.schedYield rsp).taskTable j) = get (p.taskTable j) := by
  cases hcur : p.currentTask with
  | none => simp [schedYield, taskCurrent, hcur]
  | some cur =>
    obtain ⟨next, p', -, hdispatched, hyield⟩ := schedYield_dispatched hcur rsp
    have hkeep := hdispatched.get_of_keep get fun task state => hget task state task.savedRsp
    rw [hyield]
    split
    · exact hkeep j
    · exact (get_modifyTask_of_keep get (fun task => hget task task.state rsp) cur j p').trans
        (hkeep j)

def CurrentLive (p : Proc) : Prop :=
  ∀ cur, p.currentTask = some cur → (p.taskTable cur).state ≠ .unused

/-- Scheduling keeps descriptors and, under a live current task, the set of tasks. -/
structure Scheduled (p p' : Proc) : Prop where
  fds : ∀ j, (p'.taskTable j).fdTable = (p.taskTable j).fdTable
  live : p.CurrentLive →
    (∀ j, (p'.taskTable j).state = .unused ↔ (p.taskTable j).state = .unused) ∧ p'.CurrentLive

theorem Scheduled.refl (p : Proc) : Scheduled p p :=
  ⟨fun _ => rfl, fun hlive => ⟨fun _ => Iff.rfl, hlive⟩⟩

theorem Scheduled.trans {p'' : Proc} (h : Scheduled p p') (h' : Scheduled p' p'') :
    Scheduled p p'' := by
  refine ⟨fun j => (h'.fds j).trans (h.fds j), fun hlive => ?_⟩
  obtain ⟨hiff, hlive'⟩ := h.live hlive
  obtain ⟨hiff', hlive''⟩ := h'.live hlive'
  exact ⟨fun j => (hiff' j).trans (hiff j), hlive''⟩

theorem scheduled_of_same (htable : p'.taskTable = p.taskTable)
    (hcurrent : p'.currentTask = p.currentTask) : Scheduled p p' := by
  refine ⟨fun j => by rw [htable], fun hlive => ⟨fun j => by rw [htable], ?_⟩⟩
  intro cur hcur
  rw [htable]
  exact hlive cur (hcurrent ▸ hcur)

theorem scheduled_modifyTask {f : Task → Task} (hcur : p.currentTask = some cur)
    (hfds : ∀ task, (f task).fdTable = task.fdTable)
    (hstate : ∀ task, task.state ≠ .unused → (f task).state ≠ .unused) :
    Scheduled p (p.modifyTask cur f) := by
  refine ⟨fun j => get_modifyTask_of_keep Task.fdTable hfds cur j p, fun hlive => ?_⟩
  have hiff : ∀ j, ((p.modifyTask cur f).taskTable j).state = .unused ↔
      (p.taskTable j).state = .unused := by
    intro j
    by_cases hj : j = cur
    · subst hj
      have hj' := hlive j hcur
      simp [hj', hstate _ hj']
    · simp [hj]
  refine ⟨hiff, fun i hi => ?_⟩
  rw [ne_eq, hiff]
  exact hlive i hi

theorem scheduled_saveRsp (i : TaskRef) (rsp : ℕ) (p : Proc) :
    Scheduled p (p.modifyTask i fun task => { task with savedRsp := rsp }) := by
  let f : Task → Task := fun task => { task with savedRsp := rsp }
  have hstate : ∀ j, ((p.modifyTask i f).taskTable j).state = (p.taskTable j).state :=
    fun j => get_modifyTask_of_keep Task.state (f := f) (fun _ => rfl) i j p
  refine ⟨fun j => get_modifyTask_of_keep Task.fdTable (f := f) (fun _ => rfl) i j p,
    fun hlive => ⟨fun j => by rw [← hstate j], fun cur hcur => ?_⟩⟩
  change ((p.modifyTask i f).taskTable cur).state ≠ .unused
  rw [hstate]
  exact hlive cur hcur

theorem scheduled_schedOnRun (hcur : p.currentTask = some cur) (ticks : ℕ) :
    Scheduled p (p.schedOnRun (some cur) ticks) := by
  unfold schedOnRun
  dsimp only
  split
  · exact .refl p
  · split
    · exact scheduled_modifyTask hcur (fun _ => rfl) (fun _ h => h)
    · refine scheduled_modifyTask hcur (fun task => ?_) (fun task h => ?_)
      · split <;> rfl
      · split
        · simp
        · exact h

theorem scheduled_switchTo (hcur : p.currentTask = some cur)
    (hnext : next = cur ∨ p.Ready next) : Scheduled p (p.switchTo cur next) := by
  have hfirst : Scheduled p (p.modifyTask cur fun task => { task with state := .runnable }) :=
    scheduled_modifyTask hcur (fun _ => rfl) (fun _ _ => by simp)
  refine hfirst.trans ⟨fun j => ?_, fun hlive => ?_⟩
  · exact get_modifyTask_of_keep Task.fdTable (f := fun task => { task with state := .running })
      (fun _ => rfl) next j _
  · have hready : ((p.modifyTask cur fun task =>
        { task with state := .runnable }).taskTable next).state ≠ .unused := by
      by_cases hnc : next = cur
      · simp [hnc]
      · have hr := hnext.resolve_left hnc
        simp only [taskTable_modifyTask, Function.update_of_ne hnc]
        cases hr with
        | inl hrunnable => simp [hrunnable]
        | inr hrunning => simp [hrunning]
    have hiff : ∀ j, ((p.switchTo cur next).taskTable j).state = .unused ↔
        ((p.modifyTask cur fun task => { task with state := .runnable }).taskTable j).state =
          .unused := by
      intro j
      unfold switchTo procSetCurrent
      by_cases hj : j = next
      · subst hj
        simpa using hready
      · rw [taskTable_modifyTask, Function.update_of_ne hj]
    refine ⟨hiff, fun i hi => ?_⟩
    have hin : next = i := Option.some.inj hi
    rw [ne_eq, hiff, ← hin]
    exact hready

theorem Dispatched.scheduled (h : Dispatched cur p next p') (hcur : p.currentTask = some cur) :
    Scheduled p p' := by
  cases h with
  | stays cursor => exact scheduled_of_same rfl rfl
  | switches cursor next hne hready hsaved =>
    have hcursor : Scheduled p (p.atCursor cursor) := scheduled_of_same rfl rfl
    exact hcursor.trans (scheduled_switchTo (p := p.atCursor cursor) hcur (.inr hready))

theorem scheduled_schedTick (ticks : ℕ) (p : Proc) : Scheduled p (p.schedTick ticks) := by
  cases hcur : p.currentTask with
  | none =>
    have hsame : p.schedTick ticks = p := by simp [schedTick, taskCurrent, hcur]
    rw [hsame]
    exact .refl p
  | some cur =>
    obtain ⟨next, -, hdispatched⟩ := schedTick_dispatched hcur ticks
    have hcur₁ : (p.schedOnRun (some cur) ticks).currentTask = some cur := by
      rw [(schedOnRun_spec cur ticks p).1, hcur]
    exact (scheduled_schedOnRun hcur ticks).trans (hdispatched.scheduled hcur₁)

theorem scheduled_schedYield (rsp : ℕ) (p : Proc) : Scheduled p (p.schedYield rsp) := by
  cases hcur : p.currentTask with
  | none =>
    have hsame : p.schedYield rsp = p := by simp [schedYield, taskCurrent, hcur]
    rw [hsame]
    exact .refl p
  | some cur =>
    obtain ⟨next, p', -, hdispatched, hyield⟩ := schedYield_dispatched hcur rsp
    rw [hyield]
    split
    · exact hdispatched.scheduled hcur
    · exact (hdispatched.scheduled hcur).trans (scheduled_saveRsp cur rsp p')

end NeverMind.Proc
