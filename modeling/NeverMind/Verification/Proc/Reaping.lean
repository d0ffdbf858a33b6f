import NeverMind.Library.Run
import NeverMind.Verification.Proc.Table

/-! # Exit statuses and parents

A wait hands the exit status of a child to its parent, once. A task whose parent was reaped
before it has no parent left that could wait for it. -/

namespace NeverMind

/-- The calls of the life cycle. -/
inductive LifeCall where
  | createKernelThread (trampoline kstack : ℕ) (name : Option (List Char)) (entry arg : ℕ)
  | fork (kstack : ℕ)
  | exit (code : ℤ)
  | waitpid (pid : ℤ)
  | setCurrent (i : TaskRef)

/-- A state together with what the run did to reach it: the number of tasks made, and the
code that each pid last passed to `proc_exit_current`. -/
structure History where
  proc : Proc
  created : ℕ
  exits : ℤ → Option ℤ

namespace History

def start (p : Proc) : History where
  proc := p.procInit
  created := 1
  exits := fun _ => none

def next (call : LifeCall) (h : History) : History :=
  match call with
  | .createKernelThread trampoline kstack name entry arg =>
    let r := h.proc.taskCreateKernelThread trampoline kstack name entry arg
    { h with proc := r.2, created := h.created + if r.1.isSome then 1 else 0 }
  | .fork kstack =>
    let r := h.proc.procForkCurrent kstack
    { h with proc := r.2, created := h.created + if r.1.isSome then 1 else 0 }
  | .exit code =>
    { h with
      proc := h.proc.procExitCurrent code
      exits := Function.update h.exits h.proc.currentPid (some code) }
  | .waitpid pid => { h with proc := (h.proc.procWaitpid pid).2 }
  | .setCurrent i => { h with proc := h.proc.procSetCurrent (some i) }

/-- The processor is given to tasks that are in use and have not exited. -/
def Allowed (call : LifeCall) (h : History) : Prop :=
  match call with
  | .setCurrent i => (h.proc.taskTable i).state ≠ .unused ∧ (h.proc.taskTable i).state ≠ .zombie
  | _ => True

instance (call : LifeCall) (h : History) : Decidable (Allowed call h) :=
  match call with
  | .setCurrent i => inferInstanceAs (Decidable ((h.proc.taskTable i).state ≠ .unused ∧
      (h.proc.taskTable i).state ≠ .zombie))
  | .createKernelThread _ _ _ _ _ => inferInstanceAs (Decidable True)
  | .fork _ => inferInstanceAs (Decidable True)
  | .exit _ => inferInstanceAs (Decidable True)
  | .waitpid _ => inferInstanceAs (Decidable True)

end History

/-! ## Exit codes -/

namespace ProcTable

variable {t t' : ProcTable} {exits : ℤ → Option ℤ} {n : ℕ}

def exit (code : ℤ) (t : ProcTable) : ProcTable :=
  match t.current with
  | none => t
  | some cur =>
    let life := ⟨.zombie, (t.life cur).pid, (t.life cur).ppid, code⟩
    { t with life := Function.update t.life cur life }

/-- Every zombie holds the code that was last passed under its pid. -/
def Codes (exits : ℤ → Option ℤ) (t : ProcTable) : Prop :=
  ∀ i, (t.life i).state = .zombie → exits (t.life i).pid = some (t.life i).exitCode

theorem Codes.spawns {r : Option TaskRef} (h : t.Codes exits) (hspawns : Spawns t r t') :
    t'.Codes exits := by
  cases hspawns with
  | failed => exact h
  | spawned i hfree =>
    intro j hj
    by_cases hji : j = i
    · subst hji
      rw [life_spawn_self] at hj
      exact absurd hj TaskState.noConfusion
    · rw [life_spawn_of_ne hji] at hj ⊢
      exact h j hj

theorem Codes.waits {pid : ℤ} {r : ℤ × Option ℤ} (h : t.Codes exits) (hwaits : Waits t pid r t') :
    t'.Codes exits := by
  cases hwaits with
  | failed => exact h
  | reaped dead hdead =>
    intro j hj
    have hne : j ≠ dead := (inUse_reap_iff.mp (inUse_of_zombie hj)).1
    rw [life_reap_of_ne hne] at hj ⊢
    exact h j hj

theorem Codes.exit (h : t.Codes exits) (hwell : t.WellFormed n) (code : ℤ) :
    (t.exit code).Codes (Function.update exits t.currentPid (some code)) := by
  obtain ⟨cur, hcur, hlive⟩ := hwell.current
  have hpid : t.currentPid = (t.life cur).pid := by rw [currentPid, hcur]
  intro j hj
  simp only [ProcTable.exit, hcur, hpid] at hj ⊢
  by_cases hjc : j = cur
  · subst hjc
    simp
  · rw [Function.update_of_ne hjc] at hj ⊢
    have hne : (t.life j).pid ≠ (t.life cur).pid := by
      intro heq
      exact hjc (hwell.pid_inj j cur (inUse_of_zombie hj) hlive heq)
    rw [Function.update_of_ne hne]
    exact h j hj

/-! ## Pids that are gone -/

/-- A pid that was given out and that no task has, after `n` creations. -/
structure Gone (n : ℕ) (pid : ℤ) (t : ProcTable) : Prop where
  given : pid ≤ n
  absent : ∀ i, t.InUse i → (t.life i).pid ≠ pid

variable {q : ℤ}

theorem Gone.same (h : Gone n q t) (hsame : SameTasks t t') : Gone n q t' := by
  refine ⟨h.given, fun i hi => ?_⟩
  rw [hsame.pid i]
  exact h.absent i ((hsame.inUse i).mp hi)

theorem Gone.spawns {r : Option TaskRef} (h : Gone n q t) (hspawns : Spawns t r t')
    (hwell : t.WellFormed n) (hn : n + (if r.isSome then 1 else 0) < 2 ^ 31) :
    Gone (n + if r.isSome then 1 else 0) q t' := by
  cases hspawns with
  | failed => exact h
  | spawned i hfree =>
    have hn : n + 1 < 2 ^ 31 := hn
    have hgiven := h.given
    have hnext := hwell.nextPid (by omega)
    refine ⟨?_, fun j hj => ?_⟩
    · change q ≤ ((n + 1 : ℕ) : ℤ)
      omega
    · by_cases hji : j = i
      · subst hji
        rw [life_spawn_self]
        change t.nextPid ≠ q
        omega
      · rw [life_spawn_of_ne hji]
        exact h.absent j ((inUse_spawn_of_ne hji).mp hj)

theorem Gone.waits {pid : ℤ} {r : ℤ × Option ℤ} (h : Gone n q t)
    (hwaits : Waits t pid r t') : Gone n q t' := by
  cases hwaits with
  | failed => exact h
  | reaped dead hdead =>
    refine ⟨h.given, fun j hj => ?_⟩
    obtain ⟨hne, hj⟩ := inUse_reap_iff.mp hj
    rw [life_reap_of_ne hne]
    exact h.absent j hj

theorem Gone.ne_of_waits {pid : ℤ} {r : ℤ × Option ℤ} (h : Gone n q t)
    (hwaits : Waits t pid r t') (hq : 0 ≤ q) : r.1 ≠ q := by
  cases hwaits with
  | failed =>
    have hneg := nmErr_nmEfail_neg
    exact (hneg.trans_le hq).ne
  | reaped dead hdead => exact h.absent dead hdead.inUse

theorem gone_reap {dead : TaskRef} (hwell : t.WellFormed n) (hdead : t.InUse dead) :
    Gone n (t.life dead).pid (t.reap dead) := by
  refine ⟨hwell.pid_le dead hdead, fun j hj => ?_⟩
  obtain ⟨hne, hj⟩ := inUse_reap_iff.mp hj
  rw [life_reap_of_ne hne]
  exact fun heq => hne (hwell.pid_inj j dead hj hdead heq)

end ProcTable

/-! ## Histories -/

namespace Proc

open ProcTable

variable {p : Proc}

theorem procExitCurrent_table (code : ℤ) (p : Proc) :
    (p.procExitCurrent code).table = p.table.exit code := by
  unfold procExitCurrent ProcTable.exit
  cases hcur : p.currentTask with
  | none => simp only [table, hcur]
  | some cur =>
    refine ProcTable.ext (funext fun j => ?_) ?_ ?_ ?_
    · simp only [table, hcur, taskTable_modifyTask]
      by_cases hj : j = cur
      · subst hj
        simp [Task.life]
      · simp [hj]
    · simp only [table, hcur]
      rfl
    · simp only [table, hcur]
      rfl
    · simp only [table, hcur]
      exact hcur

end Proc

namespace History

open ProcTable

variable {h : History} {call : LifeCall}

/-- What holds after every run. -/
structure Sound (h : History) : Prop where
  wellFormed : h.proc.table.WellFormed h.created
  codes : h.proc.table.Codes h.exits

theorem sound_start (p : Proc) : (start p).Sound := by
  have htable := Proc.procInit_table p
  constructor
  · change p.procInit.table.WellFormed 1
    rw [htable]
    exact wellFormed_boot _
  · intro i hi
    change (p.procInit.table.life i).state = .zombie at hi
    rw [htable] at hi
    rcases eq_or_ne i 0 with rfl | hne
    · exact absurd hi TaskState.noConfusion
    · rw [(inUse_boot_iff _).mp (inUse_of_zombie hi)] at hne
      exact absurd rfl hne

theorem created_le_next (call : LifeCall) (h : History) : h.created ≤ (next call h).created := by
  cases call with
  | createKernelThread => exact Nat.le_add_right _ _
  | fork => exact Nat.le_add_right _ _
  | exit => exact Nat.le_refl _
  | waitpid => exact Nat.le_refl _
  | setCurrent => exact Nat.le_refl _

theorem Sound.step (hs : h.Sound) (hallowed : Allowed call h)
    (hcount : (next call h).created < 2 ^ 31) : (next call h).Sound := by
  obtain ⟨hwell, hcodes⟩ := hs
  obtain ⟨cur, hcur, hlive⟩ := hwell.current
  have hcurrent := Proc.currentLive_of_wellFormed hwell
  cases call with
  | createKernelThread trampoline kstack name entry arg =>
    have hspawns := Proc.taskCreateKernelThread_spawns hcurrent trampoline kstack name entry arg
    exact ⟨hspawns.wellFormed hwell hcount, hcodes.spawns hspawns⟩
  | fork kstack =>
    have hspawns := Proc.procForkCurrent_spawns hcurrent kstack
    exact ⟨hspawns.wellFormed hwell hcount, hcodes.spawns hspawns⟩
  | exit code =>
    refine ⟨hwell.same (Proc.sameTasks_procExitCurrent hcur hlive code), ?_⟩
    change (h.proc.procExitCurrent code).table.Codes _
    rw [Proc.procExitCurrent_table]
    exact hcodes.exit hwell code
  | waitpid pid =>
    have hwaits := Proc.procWaitpid_waits hcur pid
    exact ⟨hwaits.wellFormed hwell, hcodes.waits hwaits⟩
  | setCurrent i => exact ⟨hwell.same (Proc.sameTasks_procSetCurrent hallowed.1), hcodes⟩

/-- A pid that is gone never comes back. -/
theorem Sound.gone_next {q : ℤ} (hs : h.Sound) (hgone : Gone h.created q h.proc.table)
    (hallowed : Allowed call h) (hcount : (next call h).created < 2 ^ 31) :
    Gone (next call h).created q (next call h).proc.table := by
  obtain ⟨cur, hcur, hlive⟩ := hs.wellFormed.current
  have hcurrent := Proc.currentLive_of_wellFormed hs.wellFormed
  cases call with
  | createKernelThread trampoline kstack name entry arg =>
    exact hgone.spawns (Proc.taskCreateKernelThread_spawns hcurrent trampoline kstack name entry
      arg) hs.wellFormed hcount
  | fork kstack =>
    exact hgone.spawns (Proc.procForkCurrent_spawns hcurrent kstack) hs.wellFormed hcount
  | exit code => exact hgone.same (Proc.sameTasks_procExitCurrent hcur hlive code)
  | waitpid pid => exact hgone.waits (Proc.procWaitpid_waits hcur pid)
  | setCurrent i => exact hgone.same (Proc.sameTasks_procSetCurrent hallowed.1)

/-- A step of a run that makes few enough tasks. -/
def Bounded (call : LifeCall) (h : History) : Prop :=
  Allowed call h ∧ (next call h).created < 2 ^ 31

theorem eachStep_bounded {calls : List LifeCall} (hallowed : EachStep next Allowed calls h)
    (hcount : (runCalls next calls h).created < 2 ^ 31) : EachStep next Bounded calls h :=
  hallowed.and (eachStep_of_run_lt created_le_next hcount)

theorem Sound.run {calls : List LifeCall} (hs : h.Sound) (hsteps : EachStep next Bounded calls h) :
    (runCalls next calls h).Sound :=
  hsteps.run (fun _ _ hbounded hs => hs.step hbounded.1 hbounded.2) hs

/-! ## Delivery -/

/-- A zombie child of a task that a wait for `pid` asks for. -/
def DeadChild (p : Proc) (parent : TaskRef) (pid : ℤ) (i : TaskRef) : Prop :=
  (p.taskTable i).state = .zombie ∧ (p.taskTable i).ppid = (p.taskTable parent).pid ∧
    (pid ≤ 0 ∨ (p.taskTable i).pid = pid)

/-- The wait of a task in a state, with the calls that follow it. -/
structure DeliversOnce (h : History) (caller : TaskRef) (pid : ℤ) (after : List LifeCall) :
    Prop where
  /-- It succeeds exactly when the caller has a dead child that it asks for. -/
  succeeds_iff : 0 ≤ (h.proc.procWaitpid pid).1.1 ↔ ∃ i, DeadChild h.proc caller pid i
  /-- It then yields the pid of such a child and the code that the child last passed, and
  changes no other task. -/
  delivered : 0 ≤ (h.proc.procWaitpid pid).1.1 →
    ∃ i code, DeadChild h.proc caller pid i ∧ h.exits (h.proc.taskTable i).pid = some code ∧
      (h.proc.procWaitpid pid).1 = ((h.proc.taskTable i).pid, some code) ∧
      ∀ j, j ≠ i → (h.proc.procWaitpid pid).2.taskTable j = h.proc.taskTable j
  /-- No wait after it yields the same pid. -/
  never_again : 0 ≤ (h.proc.procWaitpid pid).1.1 →
    ∀ mid pid' rest, after = mid ++ .waitpid pid' :: rest →
      ((runCalls next (.waitpid pid :: mid) h).proc.procWaitpid pid').1.1 ≠
        (h.proc.procWaitpid pid).1.1
  /-- A wait that fails changes nothing. -/
  failed : ¬0 ≤ (h.proc.procWaitpid pid).1.1 → (h.proc.procWaitpid pid).2 = h.proc

theorem Sound.neverAgain {q : ℤ} {mid rest : List LifeCall} {pid' : ℤ} (hs : h.Sound)
    (hgone : Gone h.created q h.proc.table) (hq : 0 ≤ q)
    (hsteps : EachStep next Bounded (mid ++ .waitpid pid' :: rest) h) :
    ((runCalls next mid h).proc.procWaitpid pid').1.1 ≠ q := by
  rw [eachStep_append] at hsteps
  have hend := hsteps.1.run (I := fun h => h.Sound ∧ Gone h.created q h.proc.table)
    (fun _ _ hbounded hinv => ⟨hinv.1.step hbounded.1 hbounded.2,
      hinv.1.gone_next hinv.2 hbounded.1 hbounded.2⟩) ⟨hs, hgone⟩
  obtain ⟨cur, hcur, -⟩ := hend.1.wellFormed.current
  exact hend.2.ne_of_waits (Proc.procWaitpid_waits hcur pid') hq

theorem awaited_iff_deadChild {p : Proc} {parent : TaskRef} (hcur : p.currentTask = some parent)
    (pid : ℤ) (i : TaskRef) : p.table.Awaited pid i ↔ DeadChild p parent pid i := by
  have hparent : p.table.currentPid = (p.taskTable parent).pid := by
    rw [Proc.currentPid_table, Proc.currentPid, hcur]
  rw [Awaited, hparent]
  rfl

theorem Sound.deliversOnce {caller : TaskRef} {pid : ℤ} {after : List LifeCall} (hs : h.Sound)
    (hcur : h.proc.currentTask = some caller)
    (hsteps : EachStep next Bounded (.waitpid pid :: after) h) :
    DeliversOnce h caller pid after := by
  rcases Proc.procWaitpid_cases hcur pid with
    ⟨hnone, hfail⟩ | ⟨dead, hdead, hresult, htasks, htable⟩
  · have hneg : ¬0 ≤ (h.proc.procWaitpid pid).1.1 := by
      rw [hfail]
      exact Int.not_le.mpr nmErr_nmEfail_neg
    refine ⟨⟨fun hpos => absurd hpos hneg, fun ⟨i, hi⟩ => ?_⟩, fun hpos => absurd hpos hneg,
      fun hpos => absurd hpos hneg, fun _ => by rw [hfail]⟩
    exact absurd ((awaited_iff_deadChild hcur pid i).mpr hi) (hnone i)
  · have hchild := (awaited_iff_deadChild hcur pid dead).mp hdead
    have hpid : 0 ≤ (h.proc.taskTable dead).pid :=
      Int.le_of_lt (hs.wellFormed.pid_pos dead hdead.inUse)
    have hpos : 0 ≤ (h.proc.procWaitpid pid).1.1 := by
      rw [hresult]
      exact hpid
    refine ⟨⟨fun _ => ⟨dead, hchild⟩, fun _ => hpos⟩, fun _ => ?_, fun _ mid pid' rest hafter => ?_,
      fun hneg => absurd hpos hneg⟩
    · refine ⟨dead, (h.proc.taskTable dead).exitCode, hchild, hs.codes dead hdead.1, hresult, ?_⟩
      intro j hj
      rw [htasks, Function.update_of_ne hj]
    · have hgone : Gone h.created (h.proc.taskTable dead).pid
          (next (.waitpid pid) h).proc.table := by
        change Gone _ _ (h.proc.procWaitpid pid).2.table
        rw [htable]
        exact gone_reap hs.wellFormed hdead.inUse
      have hs' : (next (.waitpid pid) h).Sound := hs.step hsteps.1.1 hsteps.1.2
      rw [hafter] at hsteps
      rw [hresult, runCalls_cons]
      exact hs'.neverAgain hgone hpid hsteps.2

/-- Exit statuses are delivered once, and to the parent: this holds of every wait in every run
from `proc_init` in which fewer than `2 ^ 31 - 1` tasks are made besides the boot task. -/
theorem exit_status_delivered_once (p : Proc) (before after : List LifeCall) (pid : ℤ)
    (hallowed : EachStep next Allowed (before ++ .waitpid pid :: after) (start p))
    (hcount : (runCalls next (before ++ .waitpid pid :: after) (start p)).created < 2 ^ 31) :
    ∃ caller, (runCalls next before (start p)).proc.currentTask = some caller ∧
      DeliversOnce (runCalls next before (start p)) caller pid after := by
  have hsteps := eachStep_bounded hallowed hcount
  rw [eachStep_append] at hsteps
  have hs := (sound_start p).run hsteps.1
  obtain ⟨caller, hcur, -⟩ := hs.wellFormed.current
  exact ⟨caller, hcur, hs.deliversOnce hcur hsteps.2⟩

def childExits : List LifeCall := [.fork 0x8000, .setCurrent 1, .exit 7, .setCurrent 0]

/-- The boot task then waits for any child, twice. -/
theorem exit_status_delivered_once_childExits :
    ∃ caller, (runCalls next childExits (start Proc.atStart)).proc.currentTask = some caller ∧
      DeliversOnce (runCalls next childExits (start Proc.atStart)) caller (-1) [.waitpid (-1)] :=
  exit_status_delivered_once Proc.atStart childExits [.waitpid (-1)] (-1) (by decide +kernel)
    (by decide +kernel)

example : ((runCalls next childExits (start Proc.atStart)).proc.procWaitpid (-1)).1 =
    (2, some 7) := by
  decide +kernel

end History

/-! ## Parents -/

namespace ProcTable

variable {t t' : ProcTable} {n : ℕ}

/-- Every task but the boot task, which has slot 0, names a task of the table as its parent. -/
def ParentsLive (t : ProcTable) : Prop :=
  ∀ i, i ≠ 0 → t.InUse i → ∃ j, t.InUse j ∧ (t.life i).ppid = (t.life j).pid

theorem ParentsLive.same (h : t.ParentsLive) (hsame : SameTasks t t') : t'.ParentsLive := by
  intro i hi hused
  obtain ⟨j, hj, hparent⟩ := h i hi ((hsame.inUse i).mp hused)
  refine ⟨j, (hsame.inUse j).mpr hj, ?_⟩
  rw [hsame.ppid i, hsame.pid j]
  exact hparent

theorem ParentsLive.spawns {r : Option TaskRef} (h : t.ParentsLive) (hspawns : Spawns t r t')
    (hwell : t.WellFormed n) : t'.ParentsLive := by
  cases hspawns with
  | failed => exact h
  | spawned i hfree =>
    -- the tasks that are there keep their slots and pids
    have hold : ∀ j, t.InUse j → (t.spawn i).InUse j ∧
        ((t.spawn i).life j).pid = (t.life j).pid := by
      intro j hj
      have hji : j ≠ i := fun heq => hfree (heq ▸ hj)
      exact ⟨(inUse_spawn_of_ne hji).mpr hj, by rw [life_spawn_of_ne hji]⟩
    intro j hj hused
    by_cases hji : j = i
    · subst hji
      obtain ⟨cur, hcur, hlive⟩ := hwell.current
      refine ⟨cur, (hold cur hlive).1, ?_⟩
      rw [(hold cur hlive).2, life_spawn_self, currentPid, hcur]
    · obtain ⟨j', hj', hparent⟩ := h j hj ((inUse_spawn_of_ne hji).mp hused)
      refine ⟨j', (hold j' hj').1, ?_⟩
      rw [(hold j' hj').2, life_spawn_of_ne hji]
      exact hparent

/-- The boot task is in its slot and has no parent. -/
structure BootKept (t : ProcTable) : Prop where
  inUse : t.InUse 0
  ppid : (t.life 0).ppid = 0

theorem bootKept_boot (ppid : TaskRef → ℤ) : (boot ppid).BootKept :=
  ⟨(inUse_boot_iff ppid).mpr rfl, rfl⟩

theorem BootKept.same (h : t.BootKept) (hsame : SameTasks t t') : t'.BootKept :=
  ⟨(hsame.inUse 0).mpr h.inUse, (hsame.ppid 0).trans h.ppid⟩

theorem BootKept.spawns {r : Option TaskRef} (h : t.BootKept) (hspawns : Spawns t r t') :
    t'.BootKept := by
  cases hspawns with
  | failed => exact h
  | spawned i hfree =>
    have hi : 0 ≠ i := fun heq => hfree (heq ▸ h.inUse)
    exact ⟨(inUse_spawn_of_ne hi).mpr h.inUse, by rw [life_spawn_of_ne hi]; exact h.ppid⟩

theorem BootKept.waits {pid : ℤ} {r : ℤ × Option ℤ} (h : t.BootKept) (hwaits : Waits t pid r t')
    (hwell : t.WellFormed n) : t'.BootKept := by
  cases hwaits with
  | failed => exact h
  | reaped dead hdead =>
    obtain ⟨cur, hcur, hlive⟩ := hwell.current
    have hpos := hwell.pid_pos cur hlive
    have hparent := hdead.2.1
    rw [currentPid, hcur] at hparent
    have hne : 0 ≠ dead := by
      intro heq
      have hzero := h.ppid
      rw [heq] at hzero
      dsimp only at hparent
      omega
    exact ⟨inUse_reap_iff.mpr ⟨hne, h.inUse⟩, by rw [life_reap_of_ne hne]; exact h.ppid⟩

/-- A task can be reaped without harm exactly when it has no child in the table. -/
theorem ParentsLive.reap_iff {dead : TaskRef} (h : t.ParentsLive) (hwell : t.WellFormed n)
    (hboot : t.BootKept) (hdead : t.InUse dead) :
    (t.reap dead).ParentsLive ↔ ∀ i, t.InUse i → (t.life i).ppid ≠ (t.life dead).pid := by
  constructor
  · intro hafter i hi hchild
    have hlt := hwell.ppid_lt i hi
    have hid : i ≠ dead := by
      intro heq
      rw [heq] at hchild hlt
      omega
    have hi0 : i ≠ 0 := by
      intro heq
      have hpos := hwell.pid_pos dead hdead
      have hzero := hboot.ppid
      rw [heq] at hchild
      omega
    obtain ⟨j, hj, hparent⟩ := hafter i hi0 (inUse_reap_iff.mpr ⟨hid, hi⟩)
    obtain ⟨hjd, hj⟩ := inUse_reap_iff.mp hj
    rw [life_reap_of_ne hid, life_reap_of_ne hjd, hchild] at hparent
    exact hjd (hwell.pid_inj j dead hj hdead hparent.symm)
  · intro hnone i hi hused
    obtain ⟨hid, hused⟩ := inUse_reap_iff.mp hused
    obtain ⟨j, hj, hparent⟩ := h i hi hused
    have hjd : j ≠ dead := fun heq => hnone i hused (heq ▸ hparent)
    refine ⟨j, inUse_reap_iff.mpr ⟨hjd, hj⟩, ?_⟩
    rw [life_reap_of_ne hid, life_reap_of_ne hjd]
    exact hparent

end ProcTable

namespace History

open ProcTable

variable {h : History} {call : LifeCall}

/-- The zombie child that a wait finds. -/
def zombieChild (pid : ℤ) (p : Proc) : Option TaskRef :=
  p.currentTask.bind fun cur =>
    (List.finRange 128).find? fun i => Proc.reapable (p.taskTable cur) pid (p.taskTable i)

/-- The call reaps a task that still has a child in the table. -/
def LeavesOrphan (call : LifeCall) (h : History) : Prop :=
  match call with
  | .waitpid pid =>
    ∃ dead ∈ zombieChild pid h.proc, ∃ i, (h.proc.taskTable i).state ≠ .unused ∧
      (h.proc.taskTable i).ppid = (h.proc.taskTable dead).pid
  | _ => False

instance (call : LifeCall) (h : History) : Decidable (LeavesOrphan call h) :=
  match call with
  | .waitpid pid => inferInstanceAs (Decidable (∃ dead ∈ zombieChild pid h.proc, ∃ _, _ ∧ _))
  | .createKernelThread _ _ _ _ _ => inferInstanceAs (Decidable False)
  | .fork _ => inferInstanceAs (Decidable False)
  | .exit _ => inferInstanceAs (Decidable False)
  | .setCurrent _ => inferInstanceAs (Decidable False)

theorem bootKept_next (hs : h.Sound) (hboot : h.proc.table.BootKept) (hallowed : Allowed call h) :
    (next call h).proc.table.BootKept := by
  obtain ⟨cur, hcur, hlive⟩ := hs.wellFormed.current
  have hcurrent := Proc.currentLive_of_wellFormed hs.wellFormed
  cases call with
  | createKernelThread trampoline kstack name entry arg =>
    exact hboot.spawns (Proc.taskCreateKernelThread_spawns hcurrent trampoline kstack name entry
      arg)
  | fork kstack => exact hboot.spawns (Proc.procForkCurrent_spawns hcurrent kstack)
  | exit code => exact hboot.same (Proc.sameTasks_procExitCurrent hcur hlive code)
  | waitpid pid => exact hboot.waits (Proc.procWaitpid_waits hcur pid) hs.wellFormed
  | setCurrent i => exact hboot.same (Proc.sameTasks_procSetCurrent hallowed.1)

theorem procWaitpid_zombieChild (pid : ℤ) (p : Proc) :
    (p.procWaitpid pid).1 = (zombieChild pid p).elim (nmErr nmEfail, none) fun dead =>
      ((p.taskTable dead).pid, some (p.taskTable dead).exitCode) := by
  unfold Proc.procWaitpid zombieChild
  cases p.currentTask with
  | none => rfl
  | some cur =>
    dsimp only [Option.bind_some]
    split <;> simp [*]

/-- The step law: parents stay in the table exactly when the call leaves no orphan. -/
theorem parentsLive_next_iff (hs : h.Sound) (hboot : h.proc.table.BootKept)
    (hparents : h.proc.table.ParentsLive) (hallowed : Allowed call h) :
    (next call h).proc.table.ParentsLive ↔ ¬LeavesOrphan call h := by
  obtain ⟨cur, hcur, hlive⟩ := hs.wellFormed.current
  have hcurrent := Proc.currentLive_of_wellFormed hs.wellFormed
  cases call with
  | createKernelThread trampoline kstack name entry arg =>
    exact iff_of_true (hparents.spawns (Proc.taskCreateKernelThread_spawns hcurrent trampoline
      kstack name entry arg) hs.wellFormed) not_false
  | fork kstack =>
    exact iff_of_true (hparents.spawns (Proc.procForkCurrent_spawns hcurrent kstack)
      hs.wellFormed) not_false
  | exit code =>
    exact iff_of_true (hparents.same (Proc.sameTasks_procExitCurrent hcur hlive code)) not_false
  | setCurrent i =>
    exact iff_of_true (hparents.same (Proc.sameTasks_procSetCurrent hallowed.1)) not_false
  | waitpid pid =>
    change (h.proc.procWaitpid pid).2.table.ParentsLive ↔ _
    have hzombie := procWaitpid_zombieChild pid h.proc
    rcases Proc.procWaitpid_cases hcur pid with
      ⟨-, hfail⟩ | ⟨dead, hdead, hresult, -, htable⟩
    · rw [hfail] at hzombie ⊢
      refine iff_of_true hparents ?_
      rintro ⟨dead, hmem, -⟩
      rw [Option.mem_def.mp hmem] at hzombie
      cases congrArg Prod.snd hzombie
    · rw [htable, hparents.reap_iff hs.wellFormed hboot hdead.inUse, LeavesOrphan]
      rw [hresult] at hzombie
      cases hfound : zombieChild pid h.proc with
      | none =>
        rw [hfound] at hzombie
        cases congrArg Prod.snd hzombie
      | some dead' =>
        rw [hfound] at hzombie
        have hpid : (h.proc.taskTable dead).pid = (h.proc.taskTable dead').pid :=
          congrArg Prod.fst hzombie
        simp [hpid, InUse, Proc.table, Task.life]

end History

/-- Every task but the boot task has its parent in the table. -/
def Proc.ParentsLive (p : Proc) : Prop :=
  ∀ i, i ≠ 0 → (p.taskTable i).state ≠ .unused →
    ∃ j, (p.taskTable j).state ≠ .unused ∧ (p.taskTable i).ppid = (p.taskTable j).pid

instance (p : Proc) : Decidable p.ParentsLive :=
  inferInstanceAs (Decidable (∀ i, i ≠ 0 → (p.taskTable i).state ≠ .unused →
    ∃ j, (p.taskTable j).state ≠ .unused ∧ (p.taskTable i).ppid = (p.taskTable j).pid))

namespace History

/-- All parents stay in the table along a run exactly when no wait of the run reaps a task
that still has a child there. -/
theorem parents_stay_live_iff (p : Proc) (calls : List LifeCall)
    (hallowed : EachStep next Allowed calls (start p))
    (hcount : (runCalls next calls (start p)).created < 2 ^ 31) :
    Throughout next (fun h => h.proc.ParentsLive) calls (start p) ↔
      EachStep next (fun call h => ¬LeavesOrphan call h) calls (start p) := by
  have hsteps := eachStep_bounded hallowed hcount
  have hboot : (start p).proc.table.BootKept := by
    change p.procInit.table.BootKept
    rw [Proc.procInit_table]
    exact ProcTable.bootKept_boot _
  have hparents : (start p).proc.table.ParentsLive := by
    change p.procInit.table.ParentsLive
    rw [Proc.procInit_table]
    exact fun i hi hused => absurd ((ProcTable.inUse_boot_iff _).mp hused) hi
  exact throughout_iff_eachStep (I := fun h => h.Sound ∧ h.proc.table.BootKept) hsteps
    (fun _ _ hbounded hinv => ⟨hinv.1.step hbounded.1 hbounded.2,
      bootKept_next hinv.1 hinv.2 hbounded.1⟩)
    (fun _ _ hbounded hinv hp => parentsLive_next_iff hinv.1 hinv.2 hp hbounded.1)
    ⟨sound_start p, hboot⟩ hparents

def reapedInOrder : List LifeCall :=
  [.fork 0x8000, .setCurrent 1, .fork 0x10000, .setCurrent 2, .exit 0, .setCurrent 1, .waitpid 3,
    .exit 0, .setCurrent 0, .waitpid 2]

theorem parents_stay_live_reapedInOrder :
    Throughout next (fun h => h.proc.ParentsLive) reapedInOrder (start Proc.atStart) :=
  (parents_stay_live_iff Proc.atStart reapedInOrder (by decide +kernel) (by decide +kernel)).mpr
    (by decide +kernel)

/-- A child that exits and is reaped while its own child is in the table. -/
def reapedFirst : List LifeCall :=
  [.fork 0x8000, .setCurrent 1, .fork 0x10000, .exit 0, .setCurrent 0, .waitpid 2]

/-- The grandchild is left in slot 2 with the pid 2 as its parent, which no task has. -/
theorem reapedFirst_leaves_orphan :
    EachStep next Allowed reapedFirst (start Proc.atStart) ∧
      let p := (runCalls next reapedFirst (start Proc.atStart)).proc
      (p.taskTable 2).state = .runnable ∧ (p.taskTable 2).ppid = 2 ∧ p.taskByPid 2 = none ∧
        ¬p.ParentsLive := by
  refine ⟨by decide +kernel, by decide +kernel, by decide +kernel, by decide +kernel,
    by decide +kernel⟩

end History

end NeverMind
