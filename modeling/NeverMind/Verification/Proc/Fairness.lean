import NeverMind.Library.Spread
import NeverMind.Verification.Proc.Scheduling
import Mathlib.Data.Finset.Lattice.Fold
import Mathlib.Order.Lattice.Nat

/-! # The fair policy over many ticks

The current task is in the state `running`, and `pick_cfs` looks at running tasks only when
no task is runnable. A tick therefore never keeps the task it charges, even when that task is
still behind all others. The virtual runtimes stay close together as long as this makes no
difference. -/

namespace NeverMind.Proc

open Nat

variable {p p' : Proc} {S : Finset TaskRef} {cur next i : TaskRef} {ticks : ℕ}

def vruntime (p : Proc) (i : TaskRef) : ℕ := (p.taskTable i).sched.vruntime

/-- What a tick adds to the virtual runtime of a task, in 64 bits. -/
def increment (ticks : ℕ) (task : Task) : ℕ :=
  u64 (ticks * 1024) / priorityWeight task.sched.priority

/-- The largest increment over a set of tasks. -/
def maxIncrement (S : Finset TaskRef) (ticks : ℕ) (p : Proc) : ℕ :=
  S.sup fun i => increment ticks (p.taskTable i)

/-- A set of tasks that the fair policy chooses from: all are ready and have a saved stack,
and none but the current task is in the state of a running one. -/
structure Contenders (S : Finset TaskRef) (p : Proc) : Prop where
  policy : p.globalPolicy = .cfs
  ready : ∀ i ∈ S, p.Ready i
  saved : ∀ i ∈ S, (p.taskTable i).savedRsp ≠ 0
  running_current : ∀ i ∈ S, (p.taskTable i).state = .running → p.currentTask = some i

/-- Two or more contenders that start level. -/
structure FairStart (S : Finset TaskRef) (p : Proc) : Prop where
  contenders : Contenders S p
  two : 2 ≤ S.card
  level : ∀ i ∈ S, ∀ j ∈ S, p.vruntime i = p.vruntime j

/-- The virtual runtimes differ by at most the largest increment. -/
def WeightFair (S : Finset TaskRef) (ticks : ℕ) (p : Proc) : Prop :=
  Spread S p.vruntime (maxIncrement S ticks p)

/-- A task that a scan for `wanted` considers. -/
def Considered (p : Proc) (wanted : TaskState) (i : TaskRef) : Prop :=
  (p.taskTable i).state = wanted ∧ p.switchable i = true

/-- The charge of the tick fits its counter, and some other task that can run is not ahead of what
the current task will then have. -/
def InStep (S : Finset TaskRef) (ticks : ℕ) (p : Proc) : Prop :=
  ∀ cur ∈ S, p.currentTask = some cur →
    p.vruntime cur + increment ticks (p.taskTable cur) < 2 ^ 64 ∧
      ∃ other, other ≠ cur ∧ p.Considered .runnable other ∧
        p.vruntime other ≤ p.vruntime cur + increment ticks (p.taskTable cur)

instance (p : Proc) (wanted : TaskState) (i : TaskRef) : Decidable (p.Considered wanted i) :=
  inferInstanceAs (Decidable (_ ∧ _))

instance (S : Finset TaskRef) (ticks : ℕ) (p : Proc) : Decidable (InStep S ticks p) :=
  inferInstanceAs (Decidable (∀ cur ∈ S, _ → _ ∧ ∃ other, _ ∧ p.Considered _ other ∧ _))

/-! ## Selection -/

variable {wanted : TaskState}

theorem cfsStep_of_considered (hwanted : wanted ≠ .unused) (h : p.Considered wanted i)
    (best : Option TaskRef) :
    ∃ b, p.cfsStep wanted best i = some b ∧ p.vruntime b ≤ p.vruntime i := by
  obtain ⟨hstate, hswitch⟩ := h
  have hindex : p.taskByIndex i = some i := by
    rw [taskByIndex, if_neg]
    rw [hstate]
    exact hwanted
  simp only [cfsStep, hindex, hstate, hswitch, ne_eq, not_true_eq_false, if_false, Bool.not_true,
    Bool.false_eq_true]
  cases best with
  | none => exact ⟨i, rfl, le_refl _⟩
  | some b =>
    dsimp only
    split
    · exact ⟨i, rfl, le_refl _⟩
    · next hge => exact ⟨b, rfl, Nat.le_of_not_lt hge⟩

theorem cfsStep_le {b : TaskRef} (i : TaskRef) :
    ∃ b', p.cfsStep wanted (some b) i = some b' ∧ p.vruntime b' ≤ p.vruntime b := by
  unfold cfsStep
  split
  · exact ⟨b, rfl, le_refl _⟩
  · rename_i j hj
    split
    · exact ⟨b, rfl, le_refl _⟩
    · split
      · exact ⟨b, rfl, le_refl _⟩
      · dsimp only
        split
        · next hlt => exact ⟨j, rfl, le_of_lt hlt⟩
        · exact ⟨b, rfl, le_refl _⟩

theorem foldl_cfsStep_le (wanted : TaskState) (is : List TaskRef) (b : TaskRef) :
    ∃ b', is.foldl (p.cfsStep wanted) (some b) = some b' ∧ p.vruntime b' ≤ p.vruntime b := by
  induction is generalizing b with
  | nil => exact ⟨b, rfl, le_refl _⟩
  | cons i is ih =>
    obtain ⟨b₁, hb₁, hle₁⟩ := cfsStep_le (p := p) (b := b) i
    obtain ⟨b₂, hb₂, hle₂⟩ := ih b₁
    refine ⟨b₂, ?_, hle₂.trans hle₁⟩
    rw [List.foldl_cons, hb₁, hb₂]

theorem cfsScan_least (hwanted : wanted ≠ .unused) (h : p.Considered wanted i) :
    ∃ b, p.cfsScan wanted = some b ∧ p.vruntime b ≤ p.vruntime i := by
  have hfold : ∀ (is : List TaskRef) (best : Option TaskRef), i ∈ is →
      ∃ b, is.foldl (p.cfsStep wanted) best = some b ∧ p.vruntime b ≤ p.vruntime i := by
    intro is
    induction is with
    | nil => intro best hmem; exact absurd hmem List.not_mem_nil
    | cons j is ih =>
      intro best hmem
      rw [List.foldl_cons]
      by_cases hj : i = j
      · subst hj
        obtain ⟨b, hb, hle⟩ := cfsStep_of_considered hwanted h best
        obtain ⟨b', hb', hle'⟩ := foldl_cfsStep_le (p := p) wanted is b
        exact ⟨b', by rw [hb, hb'], hle'.trans hle⟩
      · exact ih _ ((List.mem_cons.mp hmem).resolve_left hj)
  exact hfold (List.finRange 128) none (List.mem_finRange i)

/-- Under the fair policy a runnable task that can be switched to is never passed over for a
task that is ahead of it. -/
theorem schedPickNext_least (hpolicy : p.globalPolicy = .cfs) (h : p.Considered .runnable i) :
    ∃ b, p.schedPickNext = (some b, p) ∧ p.vruntime b ≤ p.vruntime i := by
  obtain ⟨b, hb, hle⟩ := cfsScan_least (by simp) h
  refine ⟨b, ?_, hle⟩
  rw [schedPickNext, hpolicy]
  simp only [pickCfs, hb]

/-! ## The charge of a tick -/

/-- A charge changes nothing but the virtual runtime of the task it is for. -/
structure Charged (cur : TaskRef) (ticks : ℕ) (p p' : Proc) : Prop where
  policy : p'.globalPolicy = p.globalPolicy
  current : p'.currentTask = p.currentTask
  state : ∀ j, (p'.taskTable j).state = (p.taskTable j).state
  saved : ∀ j, (p'.taskTable j).savedRsp = (p.taskTable j).savedRsp
  priority : ∀ j, (p'.taskTable j).sched.priority = (p.taskTable j).sched.priority
  others : ∀ j, j ≠ cur → p'.vruntime j = p.vruntime j
  charge : p.vruntime cur + increment ticks (p.taskTable cur) < 2 ^ 64 →
    p'.vruntime cur = p.vruntime cur + increment ticks (p.taskTable cur)

theorem charged_schedOnRun (hpolicy : p.globalPolicy = .cfs) (cur : TaskRef) (ticks : ℕ) :
    Charged cur ticks p (p.schedOnRun (some cur) ticks) := by
  by_cases hticks : ticks = 0
  · have hsame : p.schedOnRun (some cur) ticks = p := by simp [schedOnRun, hticks]
    rw [hsame]
    exact ⟨rfl, rfl, fun _ => rfl, fun _ => rfl, fun _ => rfl, fun _ _ => rfl,
      fun _ => by simp [increment, hticks, u64]⟩
  · let f : Task → Task := fun task =>
      { task with sched := { task.sched with
          vruntime :=
            u64 (task.sched.vruntime + u64 (ticks * 1024) / priorityWeight task.sched.priority) } }
    have hrun : p.schedOnRun (some cur) ticks = p.modifyTask cur f := by
      simp only [schedOnRun, hticks, if_false, hpolicy, f]
    rw [hrun]
    refine ⟨rfl, rfl, ?_, ?_, ?_, ?_, ?_⟩
    · exact fun j => get_modifyTask_of_keep Task.state (f := f) (fun _ => rfl) cur j p
    · exact fun j => get_modifyTask_of_keep Task.savedRsp (f := f) (fun _ => rfl) cur j p
    · exact fun j =>
        get_modifyTask_of_keep (fun task => task.sched.priority) (f := f) (fun _ => rfl) cur j p
    · intro j hj
      simp [vruntime, hj]
    · intro hfits
      simp only [vruntime, taskTable_modifyTask, Function.update_self, f]
      exact u64_of_lt hfits

/-! ## Ticks -/

/-- What a tick keeps: the values stay together, and the current task is not ahead. -/
structure FairState (S : Finset TaskRef) (ticks : ℕ) (p : Proc) : Prop where
  contenders : Contenders S p
  fair : WeightFair S ticks p
  least : ∀ cur ∈ S, p.currentTask = some cur → LeastIn S p.vruntime cur

theorem FairStart.fairState (h : FairStart S p) (ticks : ℕ) : FairState S ticks p where
  contenders := h.contenders
  fair := spread_of_equal h.level _
  least := fun cur hcur _ j hj => le_of_eq (h.level cur hcur j hj)

theorem maxIncrement_congr
    (h : ∀ j, (p'.taskTable j).sched.priority = (p.taskTable j).sched.priority) :
    maxIncrement S ticks p' = maxIncrement S ticks p := by
  simp only [maxIncrement, increment, h]

theorem Contenders.charged (hs : Contenders S p) (h : Charged cur ticks p p') :
    Contenders S p' := by
  refine ⟨h.policy.trans hs.policy, ?_, ?_, ?_⟩
  · intro i hi
    rw [Ready, h.state]
    exact hs.ready i hi
  · intro i hi
    rw [h.saved]
    exact hs.saved i hi
  · intro i hi hrunning
    rw [h.state] at hrunning
    rw [h.current]
    exact hs.running_current i hi hrunning

theorem Contenders.considered (hs : Contenders S p) (hcur : p.currentTask = some cur)
    (hi : i ∈ S) (hne : i ≠ cur) : p.Considered .runnable i := by
  constructor
  · cases hs.ready i hi with
    | inl hrunnable => exact hrunnable
    | inr hrunning =>
      have hcur' := hs.running_current i hi hrunning
      rw [hcur] at hcur'
      exact absurd (Option.some.inj hcur').symm hne
  · have hsaved := hs.saved i hi
    simp [switchable, hsaved]

theorem Contenders.switchTo (hs : Contenders S p) (hcur : p.currentTask = some cur)
    (hne : next ≠ cur) : Contenders S (p.switchTo cur next) := by
  have hstate := switchTo_state (p := p) hne
  refine ⟨hs.policy, ?_, ?_, ?_⟩
  · intro i hi
    rw [Ready, hstate]
    split
    · exact .inr rfl
    · split
      · exact .inl rfl
      · exact hs.ready i hi
  · intro i hi
    rw [get_switchTo_of_keep Task.savedRsp fun _ _ => rfl]
    exact hs.saved i hi
  · intro i hi hrunning
    rw [hstate] at hrunning
    split at hrunning
    · next hn => rw [hn]; rfl
    · split at hrunning
      · exact absurd hrunning (by simp)
      · rename_i hc
        have hcur' := hs.running_current i hi hrunning
        rw [hcur] at hcur'
        exact absurd (Option.some.inj hcur').symm hc

theorem FairState.charged (h : FairState S ticks p) (hcharged : Charged cur ticks p p')
    (hcur : p.currentTask = some cur) (hstep : InStep S ticks p) : WeightFair S ticks p' := by
  rw [WeightFair, maxIncrement_congr hcharged.priority]
  by_cases hmem : cur ∈ S
  · have hcharge := hcharged.charge (hstep cur hmem hcur).1
    have hmax : increment ticks (p.taskTable cur) ≤ maxIncrement S ticks p :=
      Finset.le_sup (f := fun i => increment ticks (p.taskTable i)) hmem
    exact h.fair.raise hcharged.others (by omega) fun _ => ⟨h.least cur hmem hcur, by omega⟩
  · intro i hi j hj
    rw [hcharged.others i (fun heq => hmem (heq ▸ hi)),
      hcharged.others j (fun heq => hmem (heq ▸ hj))]
    exact h.fair i hi j hj

theorem Charged.considered (h : Charged cur ticks p p') (hi : p.Considered wanted i) :
    p'.Considered wanted i := by
  unfold Considered switchable at hi ⊢
  rwa [h.state, h.saved, h.current]

/-- The task selected is not ahead of the contenders, if some other task that can run is not ahead
of the current one. -/
theorem Contenders.pick_least (hs : Contenders S p) (htwo : 2 ≤ S.card)
    (hcur : p.currentTask = some cur)
    (hnext : cur ∈ S → ∃ other, p.Considered .runnable other ∧ p.vruntime other ≤ p.vruntime cur) :
    ∃ b, p.schedPickNext = (some b, p) ∧ (b ∈ S → LeastIn S p.vruntime b) := by
  -- the set has a task besides the current one, so the first scan finds a task
  obtain ⟨other, hother, hne⟩ := Finset.exists_mem_ne htwo cur
  obtain ⟨b, hb, -⟩ := schedPickNext_least hs.policy (hs.considered hcur hother hne)
  have hbest : ∀ {i}, p.Considered .runnable i → p.vruntime b ≤ p.vruntime i := by
    intro i hi
    obtain ⟨b', hb', hle⟩ := schedPickNext_least hs.policy hi
    rw [hb] at hb'
    cases hb'
    exact hle
  refine ⟨b, hb, fun _ j hj => ?_⟩
  by_cases hjc : j = cur
  · subst hjc
    obtain ⟨next, hnext, hle⟩ := hnext hj
    exact (hbest hnext).trans hle
  · exact hbest (hs.considered hcur hj hjc)

theorem FairState.schedTick (h : FairState S ticks p) (htwo : 2 ≤ S.card)
    (hstep : InStep S ticks p) : FairState S ticks (p.schedTick ticks) := by
  unfold Proc.schedTick taskCurrent
  split
  · exact h
  · rename_i cur hcur
    have hcharged := charged_schedOnRun h.contenders.policy cur ticks
    have hfair := h.charged hcharged hcur hstep
    have hs := h.contenders.charged hcharged
    have hcur₁ : (p.schedOnRun (some cur) ticks).currentTask = some cur := by
      rw [hcharged.current, hcur]
    have hnext : cur ∈ S → ∃ other, (p.schedOnRun (some cur) ticks).Considered .runnable other ∧
        (p.schedOnRun (some cur) ticks).vruntime other ≤
          (p.schedOnRun (some cur) ticks).vruntime cur := by
      intro hmem
      obtain ⟨hfits, other, hne, hother, hle⟩ := hstep cur hmem hcur
      refine ⟨other, hcharged.considered hother, ?_⟩
      rw [hcharged.others other hne, hcharged.charge hfits]
      exact hle
    obtain ⟨b, hb, hleast⟩ := hs.pick_least htwo hcur₁ hnext
    dsimp only
    rw [hb]
    dsimp only
    split
    · rename_i heq
      subst heq
      refine ⟨hs, hfair, fun i hi hi' => ?_⟩
      rw [hcur₁] at hi'
      cases hi'
      exact hleast hi
    · rename_i hne
      have hvalue : (Proc.switchTo cur b (p.schedOnRun (some cur) ticks)).vruntime =
          (p.schedOnRun (some cur) ticks).vruntime :=
        funext (get_switchTo_of_keep (fun task => task.sched.vruntime) fun _ _ => rfl)
      refine ⟨hs.switchTo hcur₁ hne, ?_, fun i hi hi' => ?_⟩
      · rw [WeightFair, hvalue, maxIncrement_congr
          (get_switchTo_of_keep (fun task => task.sched.priority) fun _ _ => rfl)]
        exact hfair
      · cases hi'
        rw [hvalue]
        exact hleast hi

/-- Tasks that start level stay within the largest increment of each other over any number of
ticks that are all in step. -/
theorem weight_fair_of_inStep (S : Finset TaskRef) (ticks n : ℕ) (p : Proc) (h : FairStart S p)
    (hstep : ∀ m < n, InStep S ticks ((Proc.schedTick ticks)^[m] p)) :
    WeightFair S ticks ((Proc.schedTick ticks)^[n] p) := by
  have hrun : ∀ m ≤ n, FairState S ticks ((Proc.schedTick ticks)^[m] p) := by
    intro m
    induction m with
    | zero => exact fun _ => h.fairState ticks
    | succ m ih =>
      intro hm
      rw [Function.iterate_succ_apply']
      exact (ih (by omega)).schedTick h.two (hstep m (by omega))
  exact (hrun n (le_refl n)).fair

def twoTasks (first second : ℕ) : Proc :=
  let task := fun state priority =>
    { Task.zeroed with state, savedRsp := 0x8000, sched := ⟨priority, 4, 0, 0⟩ }
  { Proc.atStart with
    taskTable := fun i =>
      if i = 0 then task .running first else if i = 1 then task .runnable second else Task.zeroed
    currentTask := some 0
    globalPolicy := .cfs }

theorem fairStart_twoTasks (first second : ℕ) : FairStart {0, 1} (twoTasks first second) := by
  refine ⟨⟨rfl, ?_, ?_, ?_⟩, by decide, ?_⟩ <;>
    simp [twoTasks, Ready, vruntime]

/-- Two tasks of different weights over six ticks. -/
theorem weight_fair_twoTasks : WeightFair {0, 1} 1 ((Proc.schedTick 1)^[6] (twoTasks 20 21)) := by
  refine weight_fair_of_inStep {0, 1} 1 6 (twoTasks 20 21) (fairStart_twoTasks 20 21) ?_
  decide +kernel

/-- The task of highest priority shares the processor evenly with the one of lowest priority
and falls behind by more than the largest increment. -/
theorem not_weight_fair_twoTasks :
    FairStart {0, 1} (twoTasks 0 39) ∧
      ¬ WeightFair {0, 1} 1 ((Proc.schedTick 1)^[4] (twoTasks 0 39)) := by
  refine ⟨fairStart_twoTasks 0 39, ?_⟩
  unfold WeightFair Spread
  decide +kernel

end NeverMind.Proc
