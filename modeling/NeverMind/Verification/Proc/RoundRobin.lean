import NeverMind.Library.Rotation
import NeverMind.Library.Run
import NeverMind.Verification.Proc.Scheduling
import Mathlib.Data.Fintype.Card

/-! # Round robin

Every yield selects the next task in turn. The tasks that can be selected stay the same under
yields: the outgoing task remains runnable and has its stack pointer saved. -/

namespace NeverMind.Proc

open Rotation List

variable {p p' : Proc} {x : TaskRef} {rest : List TaskRef} {rsp : ℕ} {rsps : List ℕ}

/-- The tasks selected by consecutive yields, each with the stack pointer that is saved. -/
def picks : List ℕ → Proc → List (Option TaskRef)
  | [], _ => []
  | rsp :: rsps, p => (p.schedPickNext).1 :: picks rsps (p.schedYield rsp)

instance (p : Proc) : DecidablePred p.Eligible := fun i =>
  inferInstanceAs (Decidable (((p.taskTable i).state = .runnable ∨
    (p.taskTable i).state = .running) ∧
      (p.currentTask = some i ∨ (p.taskTable i).savedRsp ≠ 0)))

def eligibleTasks (p : Proc) : Finset TaskRef := Finset.univ.filter p.Eligible

/-- The policy is round robin, and the current task is running. -/
structure InTurn (p : Proc) : Prop where
  policy : p.globalPolicy = .rr
  current : ∃ cur, p.currentTask = some cur ∧ (p.taskTable cur).state = .running

/-! ## One selection -/

theorem map_rrSlot (p : Proc) : (range 128).map p.rrSlot = cells 128 p.rrCursor := by
  apply ext_getElem
  · simp
  · intro probe _ hprobe
    apply Fin.ext
    rw [val_getElem_cells, getElem_map, getElem_range]
    unfold rrSlot u64
    dsimp only
    omega

theorem pickRr_of_hits (h : hits p.rrEligible p.rrCursor = x :: rest) :
    p.pickRr = (some x, p.atCursor ((x.val + 1) % 128)) := by
  have hfind : ((range 128).find? (fun probe => p.rrEligible (p.rrSlot probe))).map p.rrSlot =
      some x := by
    have hmap : ((range 128).map p.rrSlot).find? p.rrEligible =
        ((range 128).find? (fun probe => p.rrEligible (p.rrSlot probe))).map p.rrSlot :=
      find?_map
    rw [← hmap, map_rrSlot, ← head?_filter]
    exact congrArg head? h
  obtain ⟨probe, hprobe, hx⟩ := Option.map_eq_some_iff.mp hfind
  rw [pickRr, hprobe]
  dsimp only
  rw [hx]
  rfl

theorem InTurn.hits_ne_nil (h : p.InTurn) : hits p.rrEligible p.rrCursor ≠ [] := by
  obtain ⟨cur, hcur, hrunning⟩ := h.current
  have hmem : cur ∈ hits p.rrEligible p.rrCursor :=
    mem_hits.mpr (rrEligible_iff.mpr ⟨.inr hrunning, .inl hcur⟩)
  exact ne_nil_of_mem hmem

/-! ## One yield -/

/-- What a yield does when it is the turn of `x`. -/
structure Turned (x : TaskRef) (p p' : Proc) : Prop where
  inTurn : p'.InTurn
  current : p'.currentTask = some x
  cursor : p'.rrCursor = (x.val + 1) % 128
  eligible : p'.rrEligible = p.rrEligible

/-- The outgoing task stays eligible, as its stack pointer is saved, and so do all others. -/
theorem eligible_switch_iff {cur : TaskRef} (hcur : p.currentTask = some cur)
    (hrunning : (p.taskTable cur).state = .running) (hne : x ≠ cur) (hready : p.Ready x)
    (hsaved : (p.taskTable x).savedRsp ≠ 0) (hrsp : rsp ≠ 0) (i : TaskRef) :
    ((p.switchTo cur x).modifyTask cur fun task => { task with savedRsp := rsp }).Eligible i ↔
      p.Eligible i := by
  obtain ⟨p', hp'⟩ : ∃ p', p' = (p.switchTo cur x).modifyTask cur
      fun task => { task with savedRsp := rsp } := ⟨_, rfl⟩
  have hcur' : p'.currentTask = some x := by rw [hp']; rfl
  have hstate : (p'.taskTable i).state =
      if i = x then .running else if i = cur then .runnable else (p.taskTable i).state := by
    rw [hp', get_modifyTask_of_keep Task.state (f := fun task => { task with savedRsp := rsp })
      (fun _ => rfl), switchTo_state hne]
  have hrsp' : (p'.taskTable i).savedRsp = if i = cur then rsp else (p.taskTable i).savedRsp := by
    rw [hp', taskTable_modifyTask]
    by_cases hi : i = cur
    · subst hi
      simp
    · rw [Function.update_of_ne hi, if_neg hi, get_switchTo_of_keep Task.savedRsp fun _ _ => rfl]
  rw [← hp', Eligible, Eligible, Ready, Ready, hcur', hcur, hstate, hrsp']
  by_cases hix : i = x
  · subst hix
    have hready' : (p.taskTable i).state = .runnable ∨ (p.taskTable i).state = .running := hready
    simp [hsaved, hready']
  · by_cases hic : i = cur
    · subst hic
      simp [hix, hrunning, hrsp]
    · simp [hix, hic, Ne.symm hix, Ne.symm hic]

theorem InTurn.schedPickNext_eq (h : p.InTurn) (hx : hits p.rrEligible p.rrCursor = x :: rest) :
    p.schedPickNext = (some x, p.atCursor ((x.val + 1) % 128)) := by
  rw [schedPickNext, h.policy]
  exact pickRr_of_hits hx

theorem InTurn.turned (h : p.InTurn) (hx : hits p.rrEligible p.rrCursor = x :: rest)
    (hrsp : rsp ≠ 0) : Turned x p (p.schedYield rsp) := by
  obtain ⟨cur, hcur, hrunning⟩ := h.current
  have hpick := h.schedPickNext_eq hx
  by_cases hne : x = cur
  · -- the current task is selected again: only the cursor moves
    subst hne
    have hyield : p.schedYield rsp = p.atCursor ((x.val + 1) % 128) := by
      simp only [schedYield, taskCurrent, hcur, hpick, if_true]
    rw [hyield]
    exact ⟨⟨h.policy, x, hcur, hrunning⟩, hcur, rfl, rfl⟩
  · obtain ⟨hready, hsaved⟩ := eligible_of_pick hcur hne (congrArg Prod.fst hpick)
    have hsaved' :
        (((p.atCursor ((x.val + 1) % 128)).switchTo cur x).taskTable x).savedRsp ≠ 0 := by
      rw [get_switchTo_of_keep Task.savedRsp fun _ _ => rfl]
      exact hsaved
    have hyield : p.schedYield rsp =
        ((p.atCursor ((x.val + 1) % 128)).switchTo cur x).modifyTask cur
          fun task => { task with savedRsp := rsp } := by
      simp only [schedYield, taskCurrent, hcur, hpick]
      rw [if_neg hne, if_pos hsaved']
    rw [hyield]
    refine ⟨⟨h.policy, x, rfl, ?_⟩, rfl, rfl, funext fun i => ?_⟩
    · rw [get_modifyTask_of_keep Task.state (f := fun task => { task with savedRsp := rsp })
        (fun _ => rfl), switchTo_state hne, if_pos rfl]
    · rw [Bool.eq_iff_iff, rrEligible_iff, rrEligible_iff]
      exact eligible_switch_iff (p := p.atCursor ((x.val + 1) % 128)) hcur hrunning hne hready
        hsaved hrsp i

/-! ## Consecutive yields -/

theorem InTurn.picks_eq (h : p.InTurn) (hrsps : ∀ rsp ∈ rsps, rsp ≠ 0)
    (hlen : rsps.length ≤ (hits p.rrEligible p.rrCursor).length) :
    picks rsps p = ((hits p.rrEligible p.rrCursor).take rsps.length).map some := by
  -- induction on the yields: each one turns the list of hits by one
  induction rsps generalizing p with
  | nil => rfl
  | cons rsp rsps ih =>
    obtain ⟨x, rest, hx⟩ := exists_cons_of_ne_nil h.hits_ne_nil
    have hturn := h.turned hx (hrsps rsp mem_cons_self)
    have hnext : hits (p.schedYield rsp).rrEligible (p.schedYield rsp).rrCursor = rest ++ [x] := by
      rw [hturn.eligible, hturn.cursor, hits_succ hx]
    rw [hx] at hlen ⊢
    have hle : rsps.length ≤ rest.length := by simpa using hlen
    have htail := ih hturn.inTurn (fun rsp hmem => hrsps rsp (mem_cons_of_mem _ hmem))
      (by rw [hnext, length_append]; omega)
    rw [hnext, take_append_of_le_length hle] at htail
    rw [picks, htail, length_cons, take_succ_cons, map_cons, h.schedPickNext_eq hx]

theorem InTurn.eligible_throughout (h : p.InTurn) (hrsps : ∀ rsp ∈ rsps, rsp ≠ 0) :
    Throughout schedYield (fun p' => p'.rrEligible = p.rrEligible) rsps p := by
  have hsteps : EachStep schedYield (fun rsp _ => rsp ≠ 0) rsps p := eachStep_of_forall hrsps
  refine (hsteps.throughout (I := fun p' => p'.InTurn ∧ p'.rrEligible = p.rrEligible) ?_
    ⟨h, rfl⟩).imp fun _ hp => hp.2
  intro rsp p' hrsp hp'
  obtain ⟨x, rest, hx⟩ := exists_cons_of_ne_nil hp'.1.hits_ne_nil
  have hturn := hp'.1.turned hx hrsp
  exact ⟨hturn.inTurn, hturn.eligible.trans hp'.2⟩

/-- As many yields as there are tasks to select: each is selected once, in the order of the
slots from the cursor on, and the set of these tasks stays the same. -/
structure TakesTurns (rsps : List ℕ) (p : Proc) : Prop where
  order : picks rsps p =
    ((cells 128 p.rrCursor).filter fun i => decide (i ∈ p.eligibleTasks)).map some
  once : ∀ i ∈ p.eligibleTasks, (picks rsps p).count (some i) = 1
  same : Throughout schedYield (fun p' => p'.eligibleTasks = p.eligibleTasks) rsps p

theorem mem_eligibleTasks {i : TaskRef} : i ∈ p.eligibleTasks ↔ p.Eligible i := by
  simp [eligibleTasks]

/-- Round robin is free of starvation. -/
theorem round_robin_takes_turns (p : Proc) (cur : TaskRef) (hpolicy : p.globalPolicy = .rr)
    (hcur : p.currentTask = some cur) (hrunning : (p.taskTable cur).state = .running)
    (rsps : List ℕ) (hrsps : ∀ rsp ∈ rsps, rsp ≠ 0)
    (hlen : rsps.length = p.eligibleTasks.card) : TakesTurns rsps p := by
  have h : p.InTurn := ⟨hpolicy, cur, hcur, hrunning⟩
  have hhits : ((cells 128 p.rrCursor).filter fun i => decide (i ∈ p.eligibleTasks)) =
      hits p.rrEligible p.rrCursor := by
    refine filter_congr fun i _ => ?_
    rw [Bool.eq_iff_iff, decide_eq_true_iff, mem_eligibleTasks, rrEligible_iff]
  have hset : (hits p.rrEligible p.rrCursor).toFinset = p.eligibleTasks := by
    ext i
    rw [mem_toFinset, mem_hits, rrEligible_iff, mem_eligibleTasks]
  have hcard : (hits p.rrEligible p.rrCursor).length = p.eligibleTasks.card := by
    rw [← hset, toFinset_card_of_nodup (nodup_hits _ _)]
  have horder : picks rsps p = (hits p.rrEligible p.rrCursor).map some := by
    rw [h.picks_eq hrsps (by omega), hlen, ← hcard, take_length]
  refine ⟨by rw [hhits, horder], fun i hi => ?_, ?_⟩
  · rw [horder, count_map_of_injective _ _ (Option.some_injective _)]
    exact count_eq_one_of_mem (nodup_hits _ _)
      (mem_hits.mpr (rrEligible_iff.mpr (mem_eligibleTasks.mp hi)))
  · refine (h.eligible_throughout hrsps).imp fun p' hp' => ?_
    ext i
    rw [mem_eligibleTasks, mem_eligibleTasks, ← rrEligible_iff, ← rrEligible_iff, hp']

def threeTasks : Proc :=
  let p := Proc.atStart.procInit.schedInit .rr
  let p := (p.taskCreateKernelThread 0x1000 0x8000 none 0x2000 0).2
  (p.taskCreateKernelThread 0x1000 0x10000 none 0x3000 0).2

theorem round_robin_takes_turns_threeTasks :
    TakesTurns [0x7000, 0x9f00, 0x11f00] threeTasks ∧
      picks [0x7000, 0x9f00, 0x11f00] threeTasks = [some 0, some 1, some 2] :=
  ⟨round_robin_takes_turns threeTasks 0 rfl (by decide +kernel) (by decide +kernel)
    [0x7000, 0x9f00, 0x11f00] (by decide) (by decide +kernel), by decide +kernel⟩

end NeverMind.Proc
