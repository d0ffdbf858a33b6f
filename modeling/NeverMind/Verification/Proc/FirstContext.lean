import NeverMind.Verification.Proc.Scheduling
import Mathlib.Tactic.IntervalCases

/-! # The first context of a task

`nm_context_switch` pops r15, r14, r13, r12, rbx, rbp and a return address from the stack of
the incoming task. A new kernel thread has these seven words on its stack. A forked task
starts with the stack pointer at the top of its stack, so the words lie above it. -/

namespace NeverMind.Proc

open Option List

variable {p p' : Proc} {i j : TaskRef}

/-- The function that made a task. -/
inductive Origin where
  | kernelThread (trampoline : ℕ)
  | fork
  deriving Repr, DecidableEq

/-- The words that the function leaves for the first switch, r15 first. -/
def Origin.frame : Origin → List ℕ
  | .kernelThread trampoline => [0, 0, 0, 0, 0, 0, trampoline]
  | .fork => []

/-- The words that the first switch to a task pops. -/
def poppedWords (p : Proc) (i : TaskRef) : List (Option ℕ) :=
  (range 7).map fun n => p.stackMem ((p.taskTable i).savedRsp + 8 * n)

/-- The words popped lie on the own stack of the task, and its maker wrote them. -/
structure FirstContext (origin : Origin) (p : Proc) (i : TaskRef) : Prop where
  above_base : (p.taskTable i).kernelStackTop ≤ (p.taskTable i).savedRsp + kstackSize
  below_top : (p.taskTable i).savedRsp + 56 ≤ (p.taskTable i).kernelStackTop
  initialised : p.poppedWords i = origin.frame.map some

/-- The calls that make, end and switch tasks. -/
inductive ProcCall where
  | createKernelThread (trampoline kstack : ℕ) (name : Option (List Char)) (entry arg : ℕ)
  | fork (kstack : ℕ)
  | exit (code : ℤ)
  | waitpid (pid : ℤ)
  | setPolicy (policy : SchedPolicy)
  | yield (rsp : ℕ)

def call (c : ProcCall) (p : Proc) : Proc :=
  match c with
  | .createKernelThread trampoline kstack name entry arg =>
    (p.taskCreateKernelThread trampoline kstack name entry arg).2
  | .fork kstack => (p.procForkCurrent kstack).2
  | .exit code => p.procExitCurrent code
  | .waitpid pid => (p.procWaitpid pid).2
  | .setPolicy policy => p.schedSetPolicy policy
  | .yield rsp => p.schedYield rsp

def made (c : ProcCall) (p : Proc) : Option (TaskRef × Origin) :=
  match c with
  | .createKernelThread trampoline kstack name entry arg =>
    (p.taskCreateKernelThread trampoline kstack name entry arg).1.map fun i =>
      (i, .kernelThread trampoline)
  | .fork kstack => (p.procForkCurrent kstack).1.map fun i => (i, .fork)
  | _ => none

/-- The tasks that have not run since they were made, with their makers. A task has run once
it was the current one. -/
def unrunAfter (c : ProcCall) (p : Proc) (unrun : TaskRef → Option Origin) (i : TaskRef) :
    Option Origin :=
  if (p.call c).currentTask = some i then none
  else
    match made c p with
    | some (j, origin) => if i = j then some origin else unrun i
    | none => unrun i

/-- A stack from the heap: null, or a block apart from the stacks in use. -/
def FreshStack (kstack : ℕ) (p : Proc) : Prop :=
  kstack = 0 ∨ kstack + kstackSize < 2 ^ 64 ∧
    ∀ s ∈ p.kstacks, s + kstackSize ≤ kstack ∨ kstack + kstackSize ≤ s

def Supplied (c : ProcCall) (p : Proc) : Prop :=
  match c with
  | .createKernelThread _ kstack _ _ _ => FreshStack kstack p
  | .fork kstack => FreshStack kstack p
  | _ => True

/-- The states after `proc_init`, with the tasks that have not run in them. -/
inductive Reached : Proc → (TaskRef → Option Origin) → Prop where
  | init (p : Proc) : Reached p.procInit fun _ => none
  | step {p : Proc} {unrun : TaskRef → Option Origin} (c : ProcCall) (h : Reached p unrun)
      (hsupplied : Supplied c p) : Reached (p.call c) (unrunAfter c p unrun)

/-! ## Pushing words -/

theorem pushWords_fst (words : List ℕ) (sp : ℕ) (mem : ℕ → Option ℕ) (hroom : 8 * words.length ≤ sp)
    (hsp : sp < 2 ^ 64) : (pushWords words sp mem).1 = sp - 8 * words.length := by
  induction words generalizing sp mem with
  | nil => rfl
  | cons word words ih =>
    rw [length_cons] at hroom ⊢
    have hpush : u64Sub sp 8 = sp - 8 := u64Sub_of_le (by omega) hsp
    rw [pushWords, hpush, ih _ _ (by omega) (by omega)]
    omega

theorem pushWords_outside (words : List ℕ) (sp : ℕ) (mem : ℕ → Option ℕ)
    (hroom : 8 * words.length ≤ sp) (hsp : sp < 2 ^ 64) {a : ℕ}
    (ha : a < sp - 8 * words.length ∨ sp ≤ a) : (pushWords words sp mem).2 a = mem a := by
  induction words generalizing sp mem with
  | nil => rfl
  | cons word words ih =>
    rw [length_cons] at hroom ha
    have hpush : u64Sub sp 8 = sp - 8 := u64Sub_of_le (by omega) hsp
    rw [pushWords, hpush, ih _ _ (by omega) (by omega) (by omega)]
    exact Function.update_of_ne (by omega) _ _

theorem pushWords_inside (words : List ℕ) (sp : ℕ) (mem : ℕ → Option ℕ)
    (hroom : 8 * words.length ≤ sp) (hsp : sp < 2 ^ 64) {n : ℕ} (hn : n < words.length) :
    (pushWords words sp mem).2 (sp - 8 * (n + 1)) = words[n]? := by
  induction words generalizing sp mem n with
  | nil => exact absurd hn (Nat.not_lt_zero n)
  | cons word words ih =>
    rw [length_cons] at hroom hn
    have hpush : u64Sub sp 8 = sp - 8 := u64Sub_of_le (by omega) hsp
    rw [pushWords, hpush]
    cases n with
    | zero =>
      -- the first word is the topmost and is not pushed over
      rw [pushWords_outside _ _ _ (by omega) (by omega) (.inr (by omega))]
      simp
    | succ n =>
      have haddr : sp - 8 * (n + 1 + 1) = sp - 8 - 8 * (n + 1) := by omega
      rw [haddr, ih _ _ (by omega) (by omega) (by omega)]
      rfl

/-! ## Tasks that have not run -/

/-- Where the stack pointer of a new task points. -/
def Origin.firstRsp (kstack : ℕ) : Origin → ℕ
  | .kernelThread _ => (kstack + kstackSize) / 16 * 16 - 72
  | .fork => kstack + kstackSize

/-- A task as its maker left it, on one of the stacks in use. -/
structure Prepared (origin : Origin) (p : Proc) (i : TaskRef) : Prop where
  not_current : p.currentTask ≠ some i
  runnable : (p.taskTable i).state = .runnable
  stack : ∃ kstack ∈ p.kstacks, (p.taskTable i).kernelStackTop = kstack + kstackSize ∧
      (p.taskTable i).savedRsp = origin.firstRsp kstack ∧
      ∀ n word, origin.frame[n]? = some word →
        p.stackMem (origin.firstRsp kstack + 8 * n) = some word

theorem firstRsp_kernelThread (trampoline kstack : ℕ) :
    kstack + 8104 < (Origin.kernelThread trampoline).firstRsp kstack ∧
      (Origin.kernelThread trampoline).firstRsp kstack + 72 ≤ kstack + kstackSize := by
  unfold Origin.firstRsp kstackSize
  dsimp only
  omega

variable {origin : Origin}

theorem frame_on_stack {n word : ℕ} (h : origin.frame[n]? = some word) (kstack : ℕ) :
    kstack ≤ origin.firstRsp kstack + 8 * n ∧
      origin.firstRsp kstack + 8 * n < kstack + kstackSize := by
  cases origin with
  | fork => simp [Origin.frame] at h
  | kernelThread trampoline =>
    have hn : n < 7 := (List.getElem?_eq_some_iff.mp h).1
    obtain ⟨hlow, hhigh⟩ := firstRsp_kernelThread trampoline kstack
    omega

/-- A task stays prepared while nothing touches its slot and its stack. -/
theorem Prepared.transfer (h : Prepared origin p i) (htask : p'.taskTable i = p.taskTable i)
    (hcurrent : p'.currentTask ≠ some i) (hstacks : ∀ s ∈ p.kstacks, s ∈ p'.kstacks)
    (hmem : ∀ s ∈ p.kstacks, ∀ a, s ≤ a → a < s + kstackSize → p'.stackMem a = p.stackMem a) :
    Prepared origin p' i := by
  obtain ⟨kstack, hkstack, htop, hrsp, hframe⟩ := h.stack
  refine ⟨hcurrent, by rw [htask]; exact h.runnable, kstack, hstacks kstack hkstack, ?_, ?_, ?_⟩
  · rw [htask, htop]
  · rw [htask, hrsp]
  · intro n word hword
    obtain ⟨hlow, hhigh⟩ := frame_on_stack hword kstack
    rw [hmem kstack hkstack _ hlow hhigh]
    exact hframe n word hword

theorem Prepared.firstContext_iff (h : Prepared origin p i) :
    FirstContext origin p i ↔ origin ≠ .fork := by
  obtain ⟨kstack, -, htop, hrsp, hframe⟩ := h.stack
  cases origin with
  | fork =>
    refine ⟨fun hcontext => ?_, fun hne => absurd rfl hne⟩
    have hbelow := hcontext.below_top
    rw [htop, hrsp] at hbelow
    unfold Origin.firstRsp at hbelow
    dsimp only at hbelow
    omega
  | kernelThread trampoline =>
    obtain ⟨hlow, hhigh⟩ := firstRsp_kernelThread trampoline kstack
    refine ⟨fun _ => by simp, fun _ => ⟨?_, ?_, ?_⟩⟩
    · rw [htop, hrsp]
      unfold kstackSize
      omega
    · rw [htop, hrsp]
      omega
    · apply ext_getElem
      · rfl
      · intro n hn hn'
        simp only [length_map] at hn'
        simp only [poppedWords, getElem_map, getElem_range, hrsp]
        exact hframe n _ (List.getElem?_eq_getElem hn')

/-! ## The calls -/

variable {kstack : ℕ}

theorem taskCreateKernelThread_context {trampoline : ℕ} {name : Option (List Char)} {entry arg : ℕ}
    (hfits : kstack + kstackSize < 2 ^ 64)
    (h : p.taskCreateKernelThread trampoline kstack name entry arg = (some i, p')) :
    (p'.taskTable i).kernelStackTop = kstack + kstackSize ∧
      (p'.taskTable i).savedRsp = (Origin.kernelThread trampoline).firstRsp kstack ∧
      (∀ n word, (Origin.kernelThread trampoline).frame[n]? = some word →
        p'.stackMem ((Origin.kernelThread trampoline).firstRsp kstack + 8 * n) = some word) ∧
      ∀ a, a < kstack ∨ kstack + kstackSize ≤ a → p'.stackMem a = p.stackMem a := by
  obtain ⟨sp, hsp⟩ : ∃ sp, sp = (kstack + kstackSize) / 16 * 16 := ⟨_, rfl⟩
  have hroom : 72 ≤ sp := by unfold kstackSize at hsp; omega
  have hlt : sp < 2 ^ 64 := by omega
  unfold taskCreateKernelThread at h
  rw [u64_of_lt hfits] at h
  split at h
  · cases h
  · dsimp only at h
    split at h
    · cases h
    · rename_i j hj
      simp only [Prod.mk.injEq, some.injEq] at h
      obtain ⟨hji, hp'⟩ := h
      subst hji
      have htop : (p'.taskTable j).kernelStackTop = kstack + kstackSize := by
        rw [← hp']
        simp
      have hrsp : (p'.taskTable j).savedRsp =
          (pushWords [arg, entry, trampoline, 0, 0, 0, 0, 0, 0] sp p.stackMem).1 := by
        rw [← hp', hsp]
        simp [takeStack, modifyTask, setTask]
      have hmem : p'.stackMem =
          (pushWords [arg, entry, trampoline, 0, 0, 0, 0, 0, 0] sp p.stackMem).2 := by
        rw [← hp', hsp]
        rfl
      rw [htop, hrsp, hmem, pushWords_fst _ _ _ hroom hlt, Origin.firstRsp, ← hsp]
      refine ⟨rfl, rfl, ?_, ?_⟩
      · intro n word hword
        have hn : n < 7 := (List.getElem?_eq_some_iff.mp hword).1
        have haddr : sp - 72 + 8 * n = sp - 8 * (8 - n + 1) := by omega
        rw [haddr, pushWords_inside _ _ _ hroom hlt (by simp; omega), ← hword]
        interval_cases n <;> rfl
      · intro a ha
        apply pushWords_outside _ _ _ hroom hlt
        unfold kstackSize at *
        simp only [length_cons, length_nil]
        omega

theorem procForkCurrent_context (hfits : kstack + kstackSize < 2 ^ 64)
    (h : p.procForkCurrent kstack = (some i, p')) :
    (p'.taskTable i).kernelStackTop = kstack + kstackSize ∧
      (p'.taskTable i).savedRsp = Origin.fork.firstRsp kstack ∧ p'.stackMem = p.stackMem := by
  unfold procForkCurrent at h
  rw [u64_of_lt hfits] at h
  split at h
  · cases h
  · split at h
    · cases h
    · split at h
      · cases h
      · dsimp only at h
        split at h
        · cases h
        · simp only [Prod.mk.injEq, some.injEq] at h
          obtain ⟨hchild, hp'⟩ := h
          subst hchild
          rw [← hp']
          refine ⟨by simp, by simp [Origin.firstRsp], rfl⟩

theorem taskCreateKernelThread_null (trampoline : ℕ) (name : Option (List Char)) (entry arg : ℕ)
    (p : Proc) : p.taskCreateKernelThread trampoline 0 name entry arg = (none, p) := by
  rw [taskCreateKernelThread, if_pos rfl]

theorem procForkCurrent_null (p : Proc) : p.procForkCurrent 0 = (none, p) := by
  unfold procForkCurrent
  split
  · rfl
  · split
    · rfl
    · rw [if_pos rfl]

theorem schedYield_frame (rsp : ℕ) (p : Proc) :
    (p.schedYield rsp).kstacks = p.kstacks ∧ (p.schedYield rsp).stackMem = p.stackMem ∧
      ∀ j, p.currentTask ≠ some j → (p.schedYield rsp).currentTask ≠ some j →
        (p.schedYield rsp).taskTable j = p.taskTable j := by
  cases hcur : p.currentTask with
  | none =>
    have hsame : p.schedYield rsp = p := by simp [schedYield, taskCurrent, hcur]
    rw [hsame]
    exact ⟨rfl, rfl, fun _ _ _ => rfl⟩
  | some cur =>
    obtain ⟨next, p', -, hdispatched, hyield⟩ := schedYield_dispatched hcur rsp
    rw [hyield]
    cases hdispatched with
    | stays cursor =>
      rw [if_pos rfl]
      exact ⟨rfl, rfl, fun _ _ _ => rfl⟩
    | switches cursor _ hne =>
      rw [if_neg hne]
      refine ⟨rfl, rfl, fun j hjc hjn => ?_⟩
      have hjc : j ≠ cur := fun heq => hjc (congrArg some heq.symm)
      have hjn : j ≠ next := fun heq => hjn (congrArg some heq.symm)
      simp [switchTo, procSetCurrent, hjc, hjn]

/-! ## Runs -/

/-- Every task that has not run is as its maker left it. -/
def AllPrepared (p : Proc) (unrun : TaskRef → Option Origin) : Prop :=
  ∀ i origin, unrun i = some origin → Prepared origin p i

variable {unrun : TaskRef → Option Origin} {c : ProcCall}

/-- A call that makes no task and leaves stacks alone. -/
theorem AllPrepared.of_made_none (h : AllPrepared p unrun) (hmade : made c p = none)
    (hkstacks : (p.call c).kstacks = p.kstacks) (hmem : (p.call c).stackMem = p.stackMem)
    (htask : ∀ i, (p.taskTable i).state = .runnable → p.currentTask ≠ some i →
      (p.call c).currentTask ≠ some i → (p.call c).taskTable i = p.taskTable i) :
    AllPrepared (p.call c) (unrunAfter c p unrun) := by
  intro i origin hi
  unfold unrunAfter at hi
  split at hi
  · cases hi
  · rename_i hcurrent
    rw [hmade] at hi
    have hprepared := h i origin hi
    refine hprepared.transfer (htask i hprepared.runnable hprepared.not_current hcurrent)
      hcurrent ?_ ?_
    · intro s hs
      rw [hkstacks]
      exact hs
    · intro s _ a _ _
      rw [hmem]

/-- A call that makes a task in a free slot on a fresh stack. -/
theorem AllPrepared.of_made_some (h : AllPrepared p unrun) (hmade : made c p = some (i, origin))
    (hfresh : ∀ s ∈ p.kstacks, s + kstackSize ≤ kstack ∨ kstack + kstackSize ≤ s)
    (hstate : ((p.call c).taskTable i).state = .runnable)
    (hothers : ∀ j, j ≠ i → (p.call c).taskTable j = p.taskTable j)
    (hkstacks : (p.call c).kstacks = kstack :: p.kstacks)
    (hmem : ∀ a, a < kstack ∨ kstack + kstackSize ≤ a → (p.call c).stackMem a = p.stackMem a)
    (hstack : ((p.call c).taskTable i).kernelStackTop = kstack + kstackSize ∧
      ((p.call c).taskTable i).savedRsp = origin.firstRsp kstack ∧
      ∀ n word, origin.frame[n]? = some word →
      (p.call c).stackMem (origin.firstRsp kstack + 8 * n) = some word) :
    AllPrepared (p.call c) (unrunAfter c p unrun) := by
  intro j origin' hj
  unfold unrunAfter at hj
  split at hj
  · cases hj
  · rename_i hcurrent
    rw [hmade] at hj
    dsimp only at hj
    split at hj
    · rename_i hji
      subst hji
      cases hj
      exact ⟨hcurrent, hstate, kstack, by rw [hkstacks]; exact mem_cons_self, hstack⟩
    · rename_i hji
      refine (h j origin' hj).transfer (hothers j hji) hcurrent ?_ ?_
      · intro s hs
        rw [hkstacks]
        exact mem_cons_of_mem _ hs
      · intro s hs a hlow hhigh
        have happart := hfresh s hs
        exact hmem a (by omega)

theorem AllPrepared.of_same (h : AllPrepared p unrun) (hmade : made c p = none)
    (hsame : p.call c = p) : AllPrepared (p.call c) (unrunAfter c p unrun) := by
  apply h.of_made_none hmade
  · rw [hsame]
  · rw [hsame]
  · intro i _ _ _
    rw [hsame]

theorem AllPrepared.createKernelThread {trampoline : ℕ} {name : Option (List Char)} {entry arg : ℕ}
    (h : AllPrepared p unrun) (hfresh : FreshStack kstack p) :
    AllPrepared (p.call (.createKernelThread trampoline kstack name entry arg))
      (unrunAfter (.createKernelThread trampoline kstack name entry arg) p unrun) := by
  cases taskCreateKernelThread_spec trampoline kstack name entry arg p with
  | inl hfail =>
    apply h.of_same
    · rw [made, hfail, map_none]
    · rw [Proc.call, hfail]
  | inr hcreate =>
    obtain ⟨i, p', hrun, hcreated⟩ := hcreate
    cases hfresh with
    | inl hnull =>
      rw [hnull, taskCreateKernelThread_null] at hrun
      cases hrun
    | inr hfresh =>
      obtain ⟨htop, hrsp, hframe, hmem⟩ := taskCreateKernelThread_context hfresh.1 hrun
      have hmade : made (.createKernelThread trampoline kstack name entry arg) p =
          some (i, .kernelThread trampoline) := by
        rw [made, hrun, map_some]
      have hcall : p.call (.createKernelThread trampoline kstack name entry arg) = p' := by
        rw [Proc.call, hrun]
      apply h.of_made_some hmade hfresh.2 <;> rw [hcall]
      · exact hcreated.state
      · exact hcreated.others
      · exact hcreated.kstacks
      · exact hmem
      · exact ⟨htop, hrsp, hframe⟩

theorem AllPrepared.fork (h : AllPrepared p unrun) (hfresh : FreshStack kstack p) :
    AllPrepared (p.call (.fork kstack)) (unrunAfter (.fork kstack) p unrun) := by
  cases procForkCurrent_spec kstack p with
  | inl hfail =>
    apply h.of_same
    · rw [made, hfail, map_none]
    · rw [Proc.call, hfail]
  | inr hfork =>
    obtain ⟨parent, i, p', hrun, hforked⟩ := hfork
    cases hfresh with
    | inl hnull =>
      rw [hnull, procForkCurrent_null] at hrun
      cases hrun
    | inr hfresh =>
      obtain ⟨htop, hrsp, hmem⟩ := procForkCurrent_context hfresh.1 hrun
      have hmade : made (.fork kstack) p = some (i, .fork) := by
        rw [made, hrun, map_some]
      have hcall : p.call (.fork kstack) = p' := by
        rw [Proc.call, hrun]
      apply h.of_made_some hmade hfresh.2 <;> rw [hcall]
      · exact hforked.state
      · exact hforked.others
      · exact hforked.kstacks
      · intro a _
        rw [hmem]
      · exact ⟨htop, hrsp, by simp [Origin.frame]⟩

theorem AllPrepared.exit (h : AllPrepared p unrun) (code : ℤ) :
    AllPrepared (p.call (.exit code)) (unrunAfter (.exit code) p unrun) := by
  cases hcur : p.currentTask with
  | none =>
    apply h.of_same rfl
    rw [Proc.call, procExitCurrent, hcur]
  | some cur =>
    have hcall : p.call (.exit code) =
        p.modifyTask cur fun task => { task with exitCode := code, state := .zombie } := by
      rw [Proc.call, procExitCurrent, hcur]
    apply h.of_made_none rfl <;> rw [hcall]
    · rfl
    · rfl
    · intro i _ hi _
      have hne : i ≠ cur := fun heq => hi (by rw [hcur, heq])
      rw [taskTable_modifyTask, Function.update_of_ne hne]

theorem AllPrepared.waitpid (h : AllPrepared p unrun) (pid : ℤ) :
    AllPrepared (p.call (.waitpid pid)) (unrunAfter (.waitpid pid) p unrun) := by
  cases procWaitpid_spec pid p with
  | inl hfail =>
    apply h.of_same rfl
    rw [Proc.call, hfail]
  | inr hreap =>
    obtain ⟨parent, dead, p', hrun, hreaped⟩ := hreap
    have hcall : p.call (.waitpid pid) = p' := by
      rw [Proc.call, hrun]
    apply h.of_made_none rfl <;> rw [hcall]
    · exact hreaped.kstacks
    · exact hreaped.stackMem
    · intro i hi _ _
      -- the slot that is emptied held a zombie
      have hne : i ≠ dead := by
        intro heq
        rw [heq, hreaped.zombie] at hi
        cases hi
      rw [hreaped.table, Function.update_of_ne hne]

theorem AllPrepared.call (h : AllPrepared p unrun) (c : ProcCall) (hsupplied : Supplied c p) :
    AllPrepared (p.call c) (unrunAfter c p unrun) := by
  cases c with
  | createKernelThread => exact h.createKernelThread hsupplied
  | fork => exact h.fork hsupplied
  | exit code => exact h.exit code
  | waitpid pid => exact h.waitpid pid
  | setPolicy policy => exact h.of_made_none rfl rfl rfl fun _ _ _ _ => rfl
  | yield rsp =>
    obtain ⟨hkstacks, hmem, htask⟩ := schedYield_frame rsp p
    exact h.of_made_none rfl hkstacks hmem fun i _ => htask i

theorem Reached.allPrepared (h : Reached p unrun) : AllPrepared p unrun := by
  induction h with
  | init p => exact fun i origin hi => absurd hi.symm (some_ne_none origin)
  | step c _ hsupplied ih => exact ih.call c hsupplied

/-- A task that has not run since it was made has a valid first context exactly when it was
not made by a fork. -/
theorem first_context_iff (h : Reached p unrun) (i : TaskRef) (origin : Origin)
    (hunrun : unrun i = some origin) : FirstContext origin p i ↔ origin ≠ .fork :=
  (h.allPrepared i origin hunrun).firstContext_iff

def afterThread : Proc :=
  Proc.atStart.procInit.call (.createKernelThread 0x1000 0x8000 none 0x2000 0)

theorem first_context_afterThread : FirstContext (.kernelThread 0x1000) afterThread 1 := by
  have hreached : Reached afterThread _ :=
    .step (.createKernelThread 0x1000 0x8000 none 0x2000 0) (.init Proc.atStart)
      (.inr ⟨by decide, by decide +kernel⟩)
  exact (first_context_iff hreached 1 (.kernelThread 0x1000) (by decide +kernel)).mpr (by decide)

def afterFork : Proc := (Proc.atStart.procInit.call (.fork 0x10000)).call (.yield 0x7000)

/-- The scheduler selects the child, whose first switch would pop words from above its
stack. -/
theorem forked_task_has_no_context :
    ∃ unrun, Reached afterFork unrun ∧ unrun 1 = some .fork ∧ afterFork.currentTask = some 0 ∧
      afterFork.schedPickNext.1 = some 1 ∧
      (afterFork.taskTable 1).savedRsp = (afterFork.taskTable 1).kernelStackTop ∧
      ¬ FirstContext .fork afterFork 1 := by
  refine ⟨_, .step (.yield 0x7000) (.step (.fork 0x10000) (.init Proc.atStart)
    (.inr ⟨by decide, by decide +kernel⟩)) trivial, by decide +kernel, by decide +kernel,
    by decide +kernel, by decide +kernel, fun hcontext => ?_⟩
  have hbelow := hcontext.below_top
  revert hbelow
  decide +kernel

end NeverMind.Proc
