import NeverMind.Library.Tally
import NeverMind.Verification.Proc.Exit

/-! # The process table

A task table seen through the life cycle of its tasks: states, pids, parents and exit codes.
A task is spawned under the next pid, exits, and is reaped; scheduling changes neither the
tasks nor their pids. Every call of `task.c` and `sched.c` acts on this table in one of
these ways. -/

namespace NeverMind

/-- A task as its life cycle sees it. -/
structure Life where
  state : TaskState
  pid : ℤ
  ppid : ℤ
  exitCode : ℤ
  deriving Repr, DecidableEq

def Task.life (task : Task) : Life := ⟨task.state, task.pid, task.ppid, task.exitCode⟩

/-- The abstract process table. -/
@[ext] structure ProcTable where
  life : TaskRef → Life
  used : ℕ
  nextPid : ℤ
  current : Option TaskRef

def Proc.table (p : Proc) : ProcTable where
  life := fun i => (p.taskTable i).life
  used := p.taskUsed
  nextPid := p.nextPid
  current := p.currentTask

namespace ProcTable

variable {t t' : ProcTable} {i j : TaskRef} {n : ℕ}

def InUse (t : ProcTable) (i : TaskRef) : Prop := (t.life i).state ≠ .unused

instance (t : ProcTable) : DecidablePred t.InUse :=
  fun i => inferInstanceAs (Decidable ((t.life i).state ≠ .unused))

def currentPid (t : ProcTable) : ℤ :=
  match t.current with
  | some cur => (t.life cur).pid
  | none => 0

def spawn (i : TaskRef) (t : ProcTable) : ProcTable :=
  { t with
    life := Function.update t.life i ⟨.runnable, t.nextPid, t.currentPid, 0⟩
    used := u64 (t.used + 1)
    nextPid := i32 (t.nextPid + 1) }

def reap (dead : TaskRef) (t : ProcTable) : ProcTable :=
  { t with
    life := Function.update t.life dead ⟨.unused, 0, 0, 0⟩
    used := t.used - 1 }

/-- The same tasks under the same pids, whatever their states. -/
structure SameTasks (t t' : ProcTable) : Prop where
  inUse : ∀ j, t'.InUse j ↔ t.InUse j
  pid : ∀ j, (t'.life j).pid = (t.life j).pid
  ppid : ∀ j, (t'.life j).ppid = (t.life j).ppid
  used : t'.used = t.used
  nextPid : t'.nextPid = t.nextPid
  current : ∃ cur, t'.current = some cur ∧ t.InUse cur

/-- The table after `n` creations. The counter of pids overflows with the last pid. -/
structure WellFormed (n : ℕ) (t : ProcTable) : Prop where
  used : t.used = (Finset.univ.filter t.InUse).card
  pid_pos : ∀ i, t.InUse i → 1 ≤ (t.life i).pid
  pid_le : ∀ i, t.InUse i → (t.life i).pid ≤ n
  pid_inj : ∀ i j, t.InUse i → t.InUse j → (t.life i).pid = (t.life j).pid → i = j
  ppid_lt : ∀ i, t.InUse i → (t.life i).ppid < (t.life i).pid
  current : ∃ cur, t.current = some cur ∧ t.InUse cur
  nextPid : n < 2 ^ 31 - 1 → t.nextPid = n + 1

theorem WellFormed.currentPid_le (h : t.WellFormed n) : t.currentPid ≤ n := by
  obtain ⟨cur, hcur, hlive⟩ := h.current
  rw [currentPid, hcur]
  exact h.pid_le cur hlive

/-! ## The first task -/

/-- The table with the boot task in it. An empty slot may still name a parent. -/
def boot (ppid : TaskRef → ℤ) : ProcTable where
  life := fun i => if i = 0 then ⟨.running, 1, 0, 0⟩ else ⟨.unused, 0, ppid i, 0⟩
  used := 1
  nextPid := 2
  current := some 0

theorem state_boot (ppid : TaskRef → ℤ) (i : TaskRef) :
    ((boot ppid).life i).state = if i = 0 then .running else .unused :=
  apply_ite Life.state (i = 0) _ _

theorem inUse_boot_iff (ppid : TaskRef → ℤ) : (boot ppid).InUse i ↔ i = 0 := by
  by_cases hi : i = 0
  · simp [InUse, boot, hi]
  · simp [InUse, boot, hi]

theorem wellFormed_boot (ppid : TaskRef → ℤ) : (boot ppid).WellFormed 1 := by
  have hlife : ∀ i, (boot ppid).InUse i → (boot ppid).life i = ⟨.running, 1, 0, 0⟩ :=
    fun i hi => if_pos ((inUse_boot_iff ppid).mp hi)
  have hset : Finset.univ.filter (boot ppid).InUse = {0} := by
    ext i
    simp [inUse_boot_iff]
  refine ⟨?_, ?_, ?_, ?_, ?_, ⟨0, rfl, (inUse_boot_iff ppid).mpr rfl⟩, fun _ => rfl⟩
  · rw [hset, Finset.card_singleton]
    rfl
  · intro i hi
    rw [hlife i hi]
  · intro i hi
    rw [hlife i hi]
    exact Int.le_refl 1
  · intro i j hi hj _
    rw [(inUse_boot_iff ppid).mp hi, (inUse_boot_iff ppid).mp hj]
  · intro i hi
    rw [hlife i hi]
    decide

/-! ## Spawning -/

@[simp] theorem life_spawn_self (i : TaskRef) (t : ProcTable) :
    (t.spawn i).life i = ⟨.runnable, t.nextPid, t.currentPid, 0⟩ :=
  Function.update_self i _ t.life

theorem life_spawn_of_ne (hj : j ≠ i) : (t.spawn i).life j = t.life j :=
  Function.update_of_ne hj _ t.life

theorem inUse_spawn_self (i : TaskRef) (t : ProcTable) : (t.spawn i).InUse i := by
  rw [InUse, life_spawn_self]
  exact TaskState.noConfusion

theorem inUse_spawn_of_ne (hj : j ≠ i) : (t.spawn i).InUse j ↔ t.InUse j := by
  rw [InUse, life_spawn_of_ne hj, InUse]

theorem card_inUse_spawn (hfree : ¬t.InUse i) :
    (Finset.univ.filter (t.spawn i).InUse).card = (Finset.univ.filter t.InUse).card + 1 := by
  have hcount := Tally.card_filter_update_add (fun l : Life => l.state ≠ .unused) t.life i
    ⟨.runnable, t.nextPid, t.currentPid, 0⟩
  have hold : ¬(t.life i).state ≠ .unused := hfree
  rw [if_neg hold, if_pos (by simp)] at hcount
  exact hcount

theorem WellFormed.spawn (h : t.WellFormed n) (hfree : ¬t.InUse i) (hn : n + 1 < 2 ^ 31) :
    (t.spawn i).WellFormed (n + 1) := by
  have hold : t.nextPid = n + 1 := h.nextPid (by omega)
  -- the old tasks keep their entries, the new one has the pid `n + 1`
  have hcases : ∀ j, (t.spawn i).InUse j → j = i ∨ j ≠ i ∧ t.InUse j := by
    intro j hj
    by_cases hji : j = i
    · exact .inl hji
    · exact .inr ⟨hji, (inUse_spawn_of_ne hji).mp hj⟩
  have hnew : ((t.spawn i).life i).pid = t.nextPid := by rw [life_spawn_self]
  refine ⟨?_, ?_, ?_, ?_, ?_, ?_, fun hlast => ?_⟩
  · have hcard := Finset.card_le_univ (Finset.univ.filter t.InUse)
    rw [Fintype.card_fin] at hcard
    change u64 (t.used + 1) = _
    rw [card_inUse_spawn hfree, h.used, u64_of_lt (by omega)]
  · intro j hj
    obtain rfl | ⟨hji, hj⟩ := hcases j hj
    · rw [hnew]
      omega
    · rw [life_spawn_of_ne hji]
      exact h.pid_pos j hj
  · intro j hj
    obtain rfl | ⟨hji, hj⟩ := hcases j hj
    · rw [hnew]
      omega
    · have hle := h.pid_le j hj
      rw [life_spawn_of_ne hji]
      omega
  · intro j j' hj hj' hpid
    obtain hji | ⟨hji, hj⟩ := hcases j hj
    · obtain hji' | ⟨hji', hj'⟩ := hcases j' hj'
      · exact hji.trans hji'.symm
      · have hle := h.pid_le j' hj'
        rw [hji, hnew, life_spawn_of_ne hji'] at hpid
        omega
    · obtain hji' | ⟨hji', hj'⟩ := hcases j' hj'
      · have hle := h.pid_le j hj
        rw [hji', hnew, life_spawn_of_ne hji] at hpid
        omega
      · rw [life_spawn_of_ne hji, life_spawn_of_ne hji'] at hpid
        exact h.pid_inj j j' hj hj' hpid
  · intro j hj
    obtain rfl | ⟨hji, hj⟩ := hcases j hj
    · have hle := h.currentPid_le
      rw [life_spawn_self]
      change t.currentPid < t.nextPid
      omega
    · rw [life_spawn_of_ne hji]
      exact h.ppid_lt j hj
  · obtain ⟨cur, hcur, hlive⟩ := h.current
    refine ⟨cur, hcur, ?_⟩
    by_cases hci : cur = i
    · rw [hci]
      exact inUse_spawn_self i t
    · exact (inUse_spawn_of_ne hci).mpr hlive
  · change i32 (t.nextPid + 1) = _
    rw [hold, i32_of_lt (by omega) (by omega)]
    push_cast
    ring

/-! ## Reaping -/

theorem life_reap_of_ne {dead : TaskRef} (hj : j ≠ dead) : (t.reap dead).life j = t.life j :=
  Function.update_of_ne hj _ t.life

theorem not_inUse_reap_self (dead : TaskRef) (t : ProcTable) : ¬(t.reap dead).InUse dead := by
  simp [InUse, reap]

theorem inUse_reap_iff {dead : TaskRef} : (t.reap dead).InUse j ↔ j ≠ dead ∧ t.InUse j := by
  by_cases hj : j = dead
  · subst hj
    simp [not_inUse_reap_self]
  · simp [InUse, life_reap_of_ne hj, hj]

theorem card_inUse_reap {dead : TaskRef} (hdead : t.InUse dead) :
    (Finset.univ.filter (t.reap dead).InUse).card + 1 = (Finset.univ.filter t.InUse).card := by
  have hcount := Tally.card_filter_update_add (fun l : Life => l.state ≠ .unused) t.life dead
    ⟨.unused, 0, 0, 0⟩
  have hold : (t.life dead).state ≠ .unused := hdead
  rw [if_pos hold, if_neg (by decide)] at hcount
  exact hcount

theorem WellFormed.reap {dead : TaskRef} (h : t.WellFormed n) (hdead : t.InUse dead)
    (hcurrent : t.current ≠ some dead) : (t.reap dead).WellFormed n := by
  refine ⟨?_, ?_, ?_, ?_, ?_, ?_, h.nextPid⟩
  · have hcard := card_inUse_reap hdead
    have hused := h.used
    change t.used - 1 = _
    omega
  · intro j hj
    obtain ⟨hne, hj⟩ := inUse_reap_iff.mp hj
    rw [life_reap_of_ne hne]
    exact h.pid_pos j hj
  · intro j hj
    obtain ⟨hne, hj⟩ := inUse_reap_iff.mp hj
    rw [life_reap_of_ne hne]
    exact h.pid_le j hj
  · intro j j' hj hj' hpid
    obtain ⟨hne, hj⟩ := inUse_reap_iff.mp hj
    obtain ⟨hne', hj'⟩ := inUse_reap_iff.mp hj'
    rw [life_reap_of_ne hne, life_reap_of_ne hne'] at hpid
    exact h.pid_inj j j' hj hj' hpid
  · intro j hj
    obtain ⟨hne, hj⟩ := inUse_reap_iff.mp hj
    rw [life_reap_of_ne hne]
    exact h.ppid_lt j hj
  · obtain ⟨cur, hcur, hlive⟩ := h.current
    refine ⟨cur, hcur, inUse_reap_iff.mpr ⟨?_, hlive⟩⟩
    intro hcd
    exact hcurrent (hcd ▸ hcur)

/-! ## The same tasks -/

theorem WellFormed.same (h : t.WellFormed n) (hsame : SameTasks t t') : t'.WellFormed n := by
  have hset : Finset.univ.filter t'.InUse = Finset.univ.filter t.InUse := by
    ext j
    simp [hsame.inUse j]
  refine ⟨?_, ?_, ?_, ?_, ?_, ?_, fun hn => hsame.nextPid.trans (h.nextPid hn)⟩
  · rw [hsame.used, hset]
    exact h.used
  · intro j hj
    rw [hsame.pid j]
    exact h.pid_pos j ((hsame.inUse j).mp hj)
  · intro j hj
    rw [hsame.pid j]
    exact h.pid_le j ((hsame.inUse j).mp hj)
  · intro j j' hj hj' hpid
    rw [hsame.pid j, hsame.pid j'] at hpid
    exact h.pid_inj j j' ((hsame.inUse j).mp hj) ((hsame.inUse j').mp hj') hpid
  · intro j hj
    rw [hsame.pid j, hsame.ppid j]
    exact h.ppid_lt j ((hsame.inUse j).mp hj)
  · obtain ⟨cur, hcur, hlive⟩ := hsame.current
    exact ⟨cur, hcur, (hsame.inUse cur).mpr hlive⟩

theorem SameTasks.trans {t'' : ProcTable} (h : SameTasks t t') (h' : SameTasks t' t'') :
    SameTasks t t'' := by
  obtain ⟨cur, hcur, hlive⟩ := h'.current
  exact ⟨fun j => (h'.inUse j).trans (h.inUse j), fun j => (h'.pid j).trans (h.pid j),
    fun j => (h'.ppid j).trans (h.ppid j), h'.used.trans h.used, h'.nextPid.trans h.nextPid,
    cur, hcur, (h.inUse cur).mp hlive⟩

/-! ## What the calls of the code do -/

/-- A call that may make a task fails or spawns it in a free slot. -/
inductive Spawns (t : ProcTable) : Option TaskRef → ProcTable → Prop where
  | failed : Spawns t none t
  | spawned (i : TaskRef) (hfree : ¬t.InUse i) : Spawns t (some i) (t.spawn i)

/-- A child that a wait of the current task may take. -/
def Awaited (t : ProcTable) (pid : ℤ) (i : TaskRef) : Prop :=
  (t.life i).state = .zombie ∧ (t.life i).ppid = t.currentPid ∧ (pid ≤ 0 ∨ (t.life i).pid = pid)

/-- A wait fails where there is no such child, or reaps one. -/
inductive Waits (t : ProcTable) (pid : ℤ) : ℤ × Option ℤ → ProcTable → Prop where
  | failed (hnone : ∀ i, ¬t.Awaited pid i) : Waits t pid (nmErr nmEfail, none) t
  | reaped (dead : TaskRef) (hdead : t.Awaited pid dead) :
      Waits t pid ((t.life dead).pid, some (t.life dead).exitCode) (t.reap dead)

theorem inUse_of_zombie (h : (t.life i).state = .zombie) : t.InUse i := by
  rw [InUse, h]
  exact TaskState.noConfusion

theorem Awaited.inUse {pid : ℤ} (h : t.Awaited pid i) : t.InUse i := inUse_of_zombie h.1

theorem WellFormed.ne_current_of_awaited {pid : ℤ} {dead : TaskRef} (h : t.WellFormed n)
    (hdead : t.Awaited pid dead) : t.current ≠ some dead := by
  intro hcur
  have hself : t.currentPid = (t.life dead).pid := by rw [currentPid, hcur]
  have hlt := h.ppid_lt dead hdead.inUse
  have hppid := hdead.2.1
  omega

theorem Spawns.wellFormed {r : Option TaskRef} (hspawns : Spawns t r t')
    (h : t.WellFormed n) (hn : n + (if r.isSome then 1 else 0) < 2 ^ 31) :
    t'.WellFormed (n + if r.isSome then 1 else 0) := by
  cases hspawns with
  | failed => exact h
  | spawned i hfree => exact h.spawn hfree hn

theorem Waits.wellFormed {pid : ℤ} {r : ℤ × Option ℤ}
    (hwaits : Waits t pid r t') (h : t.WellFormed n) : t'.WellFormed n := by
  cases hwaits with
  | failed => exact h
  | reaped dead hdead => exact h.reap hdead.inUse (h.ne_current_of_awaited hdead)

end ProcTable

namespace Proc

open ProcTable

variable {p p' : Proc} {i : TaskRef}

theorem inUse_table : p.table.InUse i ↔ (p.taskTable i).state ≠ .unused := Iff.rfl

theorem currentPid_table (p : Proc) : p.table.currentPid = p.currentPid := rfl

theorem currentLive_of_wellFormed {n : ℕ} (h : p.table.WellFormed n) : p.CurrentLive := by
  obtain ⟨cur, hcur, hlive⟩ := h.current
  intro cur' hcur'
  cases hcur.symm.trans hcur'
  exact hlive

theorem table_setTask_of_keep {task : Task} (h : task.life = (p.taskTable i).life) :
    (p.setTask i task).table = p.table := by
  refine ProcTable.ext (funext fun j => ?_) rfl rfl rfl
  simp only [table, taskTable_setTask]
  by_cases hj : j = i
  · subst hj
    rw [Function.update_self, h]
  · rw [Function.update_of_ne hj]

theorem table_modifyTask_of_keep {f : Task → Task} (hf : ∀ task, (f task).life = task.life)
    (i : TaskRef) (p : Proc) : (p.modifyTask i f).table = p.table :=
  table_setTask_of_keep (hf (p.taskTable i))

theorem table_eq_spawn (hlife : (p'.taskTable i).life = ⟨.runnable, p.nextPid, p.currentPid, 0⟩)
    (hothers : ∀ j, j ≠ i → (p'.taskTable j).life = (p.taskTable j).life)
    (hused : p'.taskUsed = u64 (p.taskUsed + 1)) (hnext : p'.nextPid = i32 (p.nextPid + 1))
    (hcurrent : p'.currentTask = p.currentTask) : p'.table = p.table.spawn i := by
  have htable : p'.table.life = (p.table.spawn i).life := by
    funext j
    by_cases hj : j = i
    · subst hj
      rw [life_spawn_self]
      exact hlife
    · rw [life_spawn_of_ne hj]
      exact hothers j hj
  exact ProcTable.ext htable hused hnext hcurrent

theorem spawns_of_eq (hfree : (p.taskTable i).state = .unused)
    (htable : p'.table = p.table.spawn i) : Spawns p.table (some i) p'.table := by
  rw [htable]
  exact .spawned i (not_not.mpr hfree)

theorem currentPid_modifyTask_of_free (hlive : p.CurrentLive)
    (hfree : (p.taskTable i).state = .unused) (f : Task → Task) :
    (p.modifyTask i f).currentPid = p.currentPid := by
  unfold currentPid
  rw [currentTask_modifyTask]
  split
  · rename_i cur hcur
    have hne : cur ≠ i := fun hci => hlive cur hcur (hci ▸ hfree)
    rw [taskTable_modifyTask, Function.update_of_ne hne]
  · rfl

theorem taskCreateKernelThread_spawns (hlive : p.CurrentLive) (trampoline kstack : ℕ)
    (name : Option (List Char)) (entry arg : ℕ) :
    Spawns p.table (p.taskCreateKernelThread trampoline kstack name entry arg).1
      (p.taskCreateKernelThread trampoline kstack name entry arg).2.table := by
  unfold taskCreateKernelThread
  split
  · exact .failed
  · dsimp only
    split
    · -- the stack is given back
      have hback : (p.takeStack kstack).kfree kstack = p := by simp [takeStack, kfree]
      rw [hback]
      exact .failed
    · rename_i i halloc
      have hfree : (p.taskTable i).state = .unused := allocTaskSlot_unused halloc
      let numbered : Proc := { p.takeStack kstack with nextPid := i32 (p.nextPid + 1) }
      have hpid : (numbered.modifyTask i fun task =>
          { task with pid := p.nextPid }).currentPid = p.currentPid :=
        currentPid_modifyTask_of_free (p := numbered) hlive hfree _
      refine spawns_of_eq hfree (table_eq_spawn ?_ ?_ rfl rfl rfl)
      · simp only [taskTable_modifyTask, Function.update_self, Task.life]
        exact congrArg (Life.mk _ _ · _) hpid
      · intro j hj
        simp [takeStack, hj]

theorem procForkCurrent_spawns (hlive : p.CurrentLive) (kstack : ℕ) :
    Spawns p.table (p.procForkCurrent kstack).1 (p.procForkCurrent kstack).2.table := by
  unfold procForkCurrent
  split
  · exact .failed
  · rename_i cur hcur
    split
    · exact .failed
    · rename_i child halloc
      have hfree : (p.taskTable child).state = .unused := allocTaskSlot_unused halloc
      split
      · exact .failed
      · have hfree' : ((p.takeStack kstack).taskTable child).state = .unused := hfree
        dsimp only
        rw [if_neg (not_not.mpr hfree')]
        refine spawns_of_eq hfree (table_eq_spawn ?_ ?_ rfl rfl rfl)
        · have hne : cur ≠ child := fun hcc => hlive cur hcur (hcc ▸ hfree)
          have hparent : p.currentPid = (p.taskTable cur).pid := by simp [currentPid, hcur]
          simp [Task.life, takeStack, hne, hparent]
        · intro j hj
          simp [takeStack, hj]

theorem table_eq_reap {dead : TaskRef}
    (htable : p'.taskTable = Function.update p.taskTable dead (reapSlot (p.taskTable dead)))
    (hused : p'.taskUsed = p.taskUsed - 1) (hnext : p'.nextPid = p.nextPid)
    (hcurrent : p'.currentTask = p.currentTask) : p'.table = p.table.reap dead := by
  refine ProcTable.ext (funext fun j => ?_) hused hnext hcurrent
  simp only [table, reap, htable]
  by_cases hj : j = dead
  · subst hj
    simp [Task.life, reapSlot]
  · simp [hj]

/-- A wait takes the first child that the caller asks for. -/
theorem procWaitpid_cases {cur : TaskRef} (hcur : p.currentTask = some cur) (pid : ℤ) :
    (∀ i, ¬p.table.Awaited pid i) ∧ p.procWaitpid pid = ((nmErr nmEfail, none), p) ∨
      ∃ dead, p.table.Awaited pid dead ∧
        (p.procWaitpid pid).1 = ((p.taskTable dead).pid, some (p.taskTable dead).exitCode) ∧
        (p.procWaitpid pid).2.taskTable =
          Function.update p.taskTable dead (reapSlot (p.taskTable dead)) ∧
        (p.procWaitpid pid).2.table = p.table.reap dead := by
  have hparent : p.table.currentPid = (p.taskTable cur).pid := by
    rw [currentPid_table, currentPid, hcur]
  have hawaited : ∀ i, reapable (p.taskTable cur) pid (p.taskTable i) = true ↔
      p.table.Awaited pid i := by
    intro i
    rw [Awaited, hparent]
    simp only [reapable, table, Task.life, Bool.and_eq_true, Bool.not_eq_true', beq_iff_eq,
      Bool.and_eq_false_iff, decide_eq_false_iff_not, bne_eq_false_iff_eq, not_lt, and_assoc]
  unfold procWaitpid
  rw [hcur]
  dsimp only
  split
  · rename_i hnone
    refine .inl ⟨fun i hi => ?_, rfl⟩
    have hnot := List.find?_eq_none.mp hnone i (List.mem_finRange i)
    exact hnot ((hawaited i).mpr hi)
  · rename_i dead hfound
    have htest : reapable (p.taskTable cur) pid (p.taskTable dead) = true := by
      have hfound' := List.find?_some hfound
      exact hfound'
    refine .inr ⟨dead, (hawaited dead).mp htest, rfl, rfl, table_eq_reap rfl ?_ rfl rfl⟩
    exact ite_eq_left_iff.mpr fun hzero => by simp only [setTask] at hzero ⊢; omega

theorem procWaitpid_waits {cur : TaskRef} (hcur : p.currentTask = some cur) (pid : ℤ) :
    Waits p.table pid (p.procWaitpid pid).1 (p.procWaitpid pid).2.table := by
  rcases procWaitpid_cases hcur pid with ⟨hnone, hfail⟩ | ⟨dead, hdead, hresult, -, htable⟩
  · rw [hfail]
    exact .failed hnone
  · rw [hresult, htable]
    exact .reaped dead hdead

/-! ## Calls that keep the tasks -/

/-- Changes to a task in use that keep its pid and its parent and do not free it. -/
theorem sameTasks_modifyTask {f : Task → Task} (hi : p.table.InUse i)
    (hcur : ∃ cur, p.currentTask = some cur ∧ p.table.InUse cur)
    (hstate : ∀ task, task.state ≠ .unused → (f task).state ≠ .unused)
    (hpid : ∀ task, (f task).pid = task.pid) (hppid : ∀ task, (f task).ppid = task.ppid) :
    SameTasks p.table (p.modifyTask i f).table := by
  refine ⟨fun j => ?_, fun j => get_modifyTask_of_keep Task.pid hpid i j p,
    fun j => get_modifyTask_of_keep Task.ppid hppid i j p, rfl, rfl, hcur⟩
  rw [inUse_table, inUse_table, taskTable_modifyTask]
  by_cases hj : j = i
  · subst hj
    rw [Function.update_self]
    exact ⟨fun _ => hi, fun _ => hstate _ hi⟩
  · rw [Function.update_of_ne hj]

theorem sameTasks_procSetCurrent (hi : p.table.InUse i) :
    SameTasks p.table (p.procSetCurrent (some i)).table :=
  ⟨fun _ => Iff.rfl, fun _ => rfl, fun _ => rfl, rfl, rfl, i, rfl, hi⟩

theorem sameTasks_refl (hcur : ∃ cur, p.currentTask = some cur ∧ p.table.InUse cur) :
    SameTasks p.table p.table :=
  ⟨fun _ => Iff.rfl, fun _ => rfl, fun _ => rfl, rfl, rfl, hcur⟩

theorem procInit_table (p : Proc) :
    p.procInit.table = ProcTable.boot fun i => (p.taskTable i).ppid := by
  have hslot : (List.finRange 128).find?
      (fun i => (clearSlot (p.taskTable i)).state == TaskState.unused) = some 0 := by
    rw [List.finRange_succ, List.find?_cons_of_pos (by rfl)]
  unfold procInit allocTaskSlot
  dsimp only
  rw [hslot]
  have hnext : i32 (1 + 1) = 2 := i32_of_lt (by decide) (by decide)
  refine ProcTable.ext (funext fun i => ?_) rfl hnext rfl
  by_cases hi : i = 0
  · subst hi
    simp [table, Task.life, boot]
  · simp [table, Task.life, boot, hi, clearSlot]

section Current

variable {cur next : TaskRef} (hcur : p.currentTask = some cur) (hlive : p.table.InUse cur)
include hcur hlive

theorem sameTasks_procExitCurrent (code : ℤ) :
    SameTasks p.table (p.procExitCurrent code).table := by
  rw [procExitCurrent, hcur]
  exact sameTasks_modifyTask hlive ⟨cur, hcur, hlive⟩ (fun _ _ => TaskState.noConfusion)
    (fun _ => rfl) (fun _ => rfl)

theorem sameTasks_procExecCurrent (ptrAt : ℕ → ℕ) (name : Option (List Char))
    (entry argv envp : ℕ) :
    SameTasks p.table (p.procExecCurrent ptrAt name entry argv envp).2.table := by
  cases name with
  | none =>
    simp only [procExecCurrent, hcur]
    exact sameTasks_refl ⟨cur, hcur, hlive⟩
  | some name =>
    simp only [procExecCurrent, hcur]
    exact sameTasks_modifyTask hlive ⟨cur, hcur, hlive⟩ (fun _ h => h) (fun _ => rfl)
      (fun _ => rfl)

theorem sameTasks_schedOnRun (ticks : ℕ) :
    SameTasks p.table (p.schedOnRun (some cur) ticks).table := by
  unfold schedOnRun
  dsimp only
  split
  · exact sameTasks_refl ⟨cur, hcur, hlive⟩
  · split
    · exact sameTasks_modifyTask hlive ⟨cur, hcur, hlive⟩ (fun _ h => h) (fun _ => rfl)
        (fun _ => rfl)
    · refine sameTasks_modifyTask hlive ⟨cur, hcur, hlive⟩ (fun task h => ?_) (fun task => ?_)
        (fun task => ?_)
      · split
        · exact TaskState.noConfusion
        · exact h
      · split <;> rfl
      · split <;> rfl

theorem Dispatched.sameTasks (h : Dispatched cur p next p') : SameTasks p.table p'.table := by
  cases h with
  | stays cursor => exact sameTasks_refl ⟨cur, hcur, hlive⟩
  | switches cursor next hne hready hsaved =>
    have hout : SameTasks p.table
        (p.modifyTask cur fun task => { task with state := .runnable }).table :=
      sameTasks_modifyTask hlive ⟨cur, hcur, hlive⟩ (fun _ _ => TaskState.noConfusion)
        (fun _ => rfl) (fun _ => rfl)
    have hnext := (hout.inUse next).mpr hready.ne_unused
    have hin := sameTasks_modifyTask (f := fun task => { task with state := .running }) hnext
      ⟨cur, hcur, (hout.inUse cur).mpr hlive⟩ (fun _ _ => TaskState.noConfusion)
      (fun _ => rfl) (fun _ => rfl)
    exact (hout.trans hin).trans (sameTasks_procSetCurrent ((hin.inUse next).mpr hnext))

theorem sameTasks_schedTick (ticks : ℕ) : SameTasks p.table (p.schedTick ticks).table := by
  obtain ⟨next, -, hdispatched⟩ := schedTick_dispatched hcur ticks
  have hrun := sameTasks_schedOnRun hcur hlive ticks
  have hcur₁ : (p.schedOnRun (some cur) ticks).currentTask = some cur := by
    rw [(schedOnRun_spec cur ticks p).1, hcur]
  exact hrun.trans (hdispatched.sameTasks hcur₁ ((hrun.inUse cur).mpr hlive))

theorem sameTasks_schedYield (rsp : ℕ) : SameTasks p.table (p.schedYield rsp).table := by
  obtain ⟨next, p', -, hdispatched, hyield⟩ := schedYield_dispatched hcur rsp
  have hsame := hdispatched.sameTasks hcur hlive
  rw [hyield]
  split
  · exact hsame
  · rw [table_modifyTask_of_keep (f := fun task => { task with savedRsp := rsp }) fun _ => rfl]
    exact hsame

end Current

end Proc

/-! ## Runs -/

namespace Kernel

open ProcTable

variable {F : Type*} {k : Kernel F} {n : ℕ}

/-- The calls on the task table. -/
inductive TableCall where
  | task (call : TaskCall)
  | exec (ptrAt : ℕ → ℕ) (name : Option (List Char)) (entry argv envp : ℕ)
  | setCurrent (i : TaskRef)

def tableCall (call : TableCall) (k : Kernel F) : Kernel F :=
  match call with
  | .task call => k.taskCall call
  | .exec ptrAt name entry argv envp =>
    { k with proc := (k.proc.procExecCurrent ptrAt name entry argv envp).2 }
  | .setCurrent i => { k with proc := k.proc.procSetCurrent (some i) }

def created (call : TableCall) (k : Kernel F) : ℕ :=
  match call with
  | .task (.createKernelThread trampoline kstack name entry arg) =>
    if (k.proc.taskCreateKernelThread trampoline kstack name entry arg).1.isSome then 1 else 0
  | .task (.fork kstack) => if (k.proc.procForkCurrent kstack).1.isSome then 1 else 0
  | _ => 0

/-- The processor is given to tasks in use only. -/
def TableAllowed (call : TableCall) (k : Kernel F) : Prop :=
  ∀ i, call = .setCurrent i → (k.proc.taskTable i).state ≠ .unused

/-- The states after `proc_init`, with the number of tasks made so far. The boot task, which
`proc_init` makes, is the first. -/
inductive TableReached : ℕ → Kernel F → Prop where
  | init (k : Kernel F) : TableReached 1 k.initTasks
  | step {n : ℕ} {k : Kernel F} (h : TableReached n k) (call : TableCall)
      (hallowed : TableAllowed call k) : TableReached (n + created call k) (k.tableCall call)

theorem sysFork_table (kstack : ℕ) (k : Kernel F) :
    (k.sysFork kstack).2.proc.table = (k.proc.procForkCurrent kstack).2.table := by
  unfold sysFork Proc.taskCurrent
  cases hcur : k.proc.currentTask with
  | none => rw [Proc.procForkCurrent, hcur]
  | some parent =>
    dsimp only
    cases hfork : k.proc.procForkCurrent kstack with
    | mk child p' =>
      cases child with
      | none => rfl
      | some child =>
        obtain ⟨fds, hfds⟩ := FdLayer.nmFdOnForkChild_rest (p'.taskTable child) k.fd
        dsimp only [onTask]
        refine (Proc.table_modifyTask_of_keep ?_ parent _).trans
          (Proc.table_setTask_of_keep ?_)
        · exact fun _ => rfl
        · rw [hfds]
          rfl

theorem wellFormed_tableCall (h : k.proc.table.WellFormed n) (call : TableCall)
    (hallowed : TableAllowed call k) (hn : n + created call k < 2 ^ 31) :
    (k.tableCall call).proc.table.WellFormed (n + created call k) := by
  obtain ⟨cur, hcur, hlive⟩ := h.current
  have hcurrent := Proc.currentLive_of_wellFormed h
  cases call with
  | task call =>
    cases call with
    | createKernelThread trampoline kstack name entry arg =>
      exact (Proc.taskCreateKernelThread_spawns hcurrent trampoline kstack name entry
        arg).wellFormed h hn
    | fork kstack =>
      have hfork := (Proc.procForkCurrent_spawns hcurrent kstack).wellFormed h hn
      rw [← sysFork_table] at hfork
      exact hfork
    | exit code => exact h.same (Proc.sameTasks_procExitCurrent hcur hlive _)
    | waitpid pid => exact (Proc.procWaitpid_waits hcur pid).wellFormed h
    | setPolicy policy => exact h.same (Proc.sameTasks_refl ⟨cur, hcur, hlive⟩)
    | tick ticks => exact h.same (Proc.sameTasks_schedTick hcur hlive ticks)
    | yield rsp => exact h.same (Proc.sameTasks_schedYield hcur hlive rsp)
  | exec ptrAt name entry argv envp =>
    exact h.same (Proc.sameTasks_procExecCurrent hcur hlive ptrAt name entry argv envp)
  | setCurrent i => exact h.same (Proc.sameTasks_procSetCurrent (hallowed i rfl))

theorem TableReached.wellFormed (h : TableReached n k) (hn : n < 2 ^ 31) :
    k.proc.table.WellFormed n := by
  induction h with
  | init k =>
    have hboot := wellFormed_boot fun i => (k.proc.taskTable i).ppid
    rw [← Proc.procInit_table] at hboot
    exact hboot
  | step h call hallowed ih => exact wellFormed_tableCall (ih (by omega)) call hallowed hn

end Kernel

/-- The table and its counters agree, and pids identify tasks. -/
structure Proc.TableConsistent (p : Proc) : Prop where
  taskCount : p.taskCount = (Finset.univ.filter fun i => (p.taskTable i).state ≠ .unused).card
  pid_mem : ∀ i, (p.taskTable i).state ≠ .unused →
    1 ≤ (p.taskTable i).pid ∧ (p.taskTable i).pid < p.nextPid
  pid_inj : ∀ i j, (p.taskTable i).state ≠ .unused → (p.taskTable j).state ≠ .unused →
    (p.taskTable i).pid = (p.taskTable j).pid → i = j
  current : ∃ cur, p.currentTask = some cur ∧ (p.taskTable cur).state ≠ .unused
  taskByPid : ∀ pid i, p.taskByPid pid = some i ↔
    (p.taskTable i).state ≠ .unused ∧ (p.taskTable i).pid = pid

theorem Proc.taskByPid_eq_some_iff {p : Proc} {n : ℕ} (h : p.table.WellFormed n) (pid : ℤ)
    (i : TaskRef) :
    p.taskByPid pid = some i ↔ (p.taskTable i).state ≠ .unused ∧ (p.taskTable i).pid = pid := by
  have htest : ∀ j, ((p.taskTable j).state != .unused && (p.taskTable j).pid == pid) = true ↔
      (p.taskTable j).state ≠ .unused ∧ (p.taskTable j).pid = pid := by
    intro j
    simp
  constructor
  · intro hfound
    have hi := List.find?_some hfound
    exact (htest i).mp hi
  · intro hi
    cases hfound : p.taskByPid pid with
    | none =>
      have hnone := List.find?_eq_none.mp hfound i (List.mem_finRange i)
      exact absurd ((htest i).mpr hi) hnone
    | some j =>
      have hj := List.find?_some hfound
      obtain ⟨hused, hpid⟩ := (htest j).mp hj
      rw [h.pid_inj j i hused hi.1 (hpid.trans hi.2.symm)]

/-- The task table is consistent after every run of the calls in which fewer than `2 ^ 31 - 1`
tasks are made. -/
theorem Kernel.task_table_consistent {F : Type*} {k : Kernel F} {n : ℕ}
    (h : TableReached n k) (hn : n < 2 ^ 31 - 1) : k.proc.TableConsistent := by
  have hwell := h.wellFormed (by omega)
  have hnext : k.proc.nextPid = n + 1 := hwell.nextPid hn
  have hlt : ∀ i, k.proc.table.InUse i → (k.proc.taskTable i).pid < k.proc.nextPid := by
    intro i hi
    rw [hnext]
    exact Int.lt_add_one_of_le (hwell.pid_le i hi)
  exact ⟨hwell.used, fun i hi => ⟨hwell.pid_pos i hi, hlt i hi⟩, hwell.pid_inj, hwell.current,
    Proc.taskByPid_eq_some_iff hwell⟩

/-- The boot task forks, and the child becomes current. -/
theorem Kernel.task_table_consistent_afterFork :
    Proc.TableConsistent (((Kernel.atStart ()).initTasks.tableCall
      (.task (.fork 0x8000))).tableCall (.setCurrent 1)).proc := by
  have hreached := (TableReached.init (Kernel.atStart ())).step (.task (.fork 0x8000))
    (fun i hi => by cases hi)
  have hreached' := hreached.step (.setCurrent 1) (fun i hi => by cases hi; decide +kernel)
  exact task_table_consistent hreached' (by decide +kernel)

end NeverMind
