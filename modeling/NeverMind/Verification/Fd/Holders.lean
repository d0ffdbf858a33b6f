import NeverMind.Verification.Fd.PipeCreation
import NeverMind.Verification.Proc.Scheduling

/-! # The descriptors of all tasks

Which objects the tasks of the table hold, and what a call by one task does to that. -/

namespace NeverMind.Kernel

open Finset Function

variable {F : Type*} {k k' : Kernel F}

def InUse (k : Kernel F) (t : TaskRef) : Prop := (k.proc.taskTable t).state ≠ .unused

instance (k : Kernel F) (t : TaskRef) : Decidable (k.InUse t) := inferInstanceAs (Decidable (_ ≠ _))

def holders (k : Kernel F) (i : Fin 128) : ℕ :=
  (univ.filter fun slot : TaskRef × Fin 32 =>
    k.InUse slot.1 ∧ (k.proc.taskTable slot.1).fdTable slot.2 = (i.val : ℤ)).card

/-- What a slot of the task table adds to the descriptors of an object. -/
def taskRefs (i : Fin 128) (task : Task) : ℕ := if task.state = .unused then 0 else task.holds i

theorem holders_eq_sum (k : Kernel F) (i : Fin 128) :
    k.holders i = ∑ t, taskRefs i (k.proc.taskTable t) := by
  rw [holders, card_filter, Fintype.sum_prod_type]
  refine sum_congr rfl fun t _ => ?_
  by_cases hfree : (k.proc.taskTable t).state = .unused
  · simp [InUse, taskRefs, hfree]
  · simp only [InUse, taskRefs, hfree, if_false, Task.holds, card_filter, ne_eq,
      not_false_eq_true, true_and]

/-- The identifier in a slot of a task table, with free tasks holding none. -/
def heldId (k : Kernel F) (slot : TaskRef × Fin 32) : ℤ :=
  if k.InUse slot.1 then (k.proc.taskTable slot.1).fdTable slot.2 else -1

theorem heldId_eq_iff (k : Kernel F) (slot : TaskRef × Fin 32) (i : Fin 128) :
    k.heldId slot = (i.val : ℤ) ↔
      k.InUse slot.1 ∧ (k.proc.taskTable slot.1).fdTable slot.2 = (i.val : ℤ) := by
  unfold heldId
  split
  · next hlive => simp [hlive]
  · rename_i hfree
    simp only [hfree, false_and, iff_false]
    omega

theorem sum_holders_le (k : Kernel F) : ∑ i, k.holders i ≤ 128 * 32 := by
  have hinj : Injective fun i : Fin 128 => (i.val : ℤ) := by
    intro i j hij
    exact Fin.ext (by simpa using hij)
  have hcard : Fintype.card (TaskRef × Fin 32) = 128 * 32 :=
    (Fintype.card_prod TaskRef (Fin 32)).trans
      (congrArg₂ (· * ·) (Fintype.card_fin 128) (Fintype.card_fin 32))
  have hle := Tally.sum_card_filter_le hinj k.heldId
  simp only [heldId_eq_iff, hcard] at hle
  exact hle

variable {t : TaskRef}

theorem holders_pos (ht : k.InUse t) {fd : Fin 32} {i : Fin 128}
    (hfd : (k.proc.taskTable t).fdTable fd = (i.val : ℤ)) : 0 < k.holders i :=
  card_pos.mpr ⟨(t, fd), by simpa using ⟨ht, hfd⟩⟩

theorem taskRefs_of_inUse (ht : k.InUse t) (i : Fin 128) :
    taskRefs i (k.proc.taskTable t) = (k.proc.taskTable t).holds i :=
  if_neg ht

/-- Two tasks that agree on whether they are free and on their descriptors. -/
def SameFds (task task' : Task) : Prop :=
  (task'.state = .unused ↔ task.state = .unused) ∧ task'.fdTable = task.fdTable

theorem SameFds.refl (task : Task) : SameFds task task := ⟨Iff.rfl, rfl⟩

theorem SameFds.taskRefs_eq {task task' : Task} (h : SameFds task task') (i : Fin 128) :
    taskRefs i task' = taskRefs i task := by
  simp only [taskRefs, h.1, Task.holds, h.2]

theorem holders_trade (k k' : Kernel F) (c : TaskRef)
    (h : ∀ t, t ≠ c → SameFds (k.proc.taskTable t) (k'.proc.taskTable t)) (i : Fin 128) :
    k'.holders i + taskRefs i (k.proc.taskTable c) =
      k.holders i + taskRefs i (k'.proc.taskTable c) := by
  have hupdate : ∀ t, taskRefs i (k'.proc.taskTable t) =
      taskRefs i (update k.proc.taskTable c (k'.proc.taskTable c) t) := by
    intro t
    by_cases ht : t = c
    · subst ht
      rw [update_self]
    · rw [update_of_ne ht, (h t ht).taskRefs_eq]
  rw [holders_eq_sum, holders_eq_sum, sum_congr rfl fun t _ => hupdate t]
  exact Tally.sum_update_add (taskRefs i) k.proc.taskTable c (k'.proc.taskTable c)

theorem holders_congr (h : ∀ t, SameFds (k.proc.taskTable t) (k'.proc.taskTable t)) :
    k'.holders = k.holders := by
  funext i
  rw [holders_eq_sum, holders_eq_sum]
  exact sum_congr rfl fun t _ => (h t).taskRefs_eq i

theorem holders_of_only (ht : k.InUse t) (honly : ∀ t', t' ≠ t → ¬ k.InUse t') (i : Fin 128) :
    k.holders i = (k.proc.taskTable t).holds i := by
  rw [holders_eq_sum, sum_eq_single t, taskRefs_of_inUse ht]
  · intro t' _ hne
    exact if_pos (not_not.mp (honly t' hne))
  · intro hnot
    exact absurd (mem_univ t) hnot

def othersOf (k : Kernel F) (t : TaskRef) (i : Fin 128) : ℕ :=
  k.holders i - (k.proc.taskTable t).holds i

theorem othersOf_add (ht : k.InUse t) : k.othersOf t + (k.proc.taskTable t).holds = k.holders := by
  funext i
  have hle : taskRefs i (k.proc.taskTable t) ≤ k.holders i := by
    rw [holders_eq_sum]
    exact single_le_sum (f := fun t => taskRefs i (k.proc.taskTable t))
      (fun _ _ => Nat.zero_le _) (mem_univ t)
  rw [taskRefs_of_inUse ht] at hle
  rw [Pi.add_apply, othersOf]
  omega

theorem few_othersOf (k : Kernel F) (t : TaskRef) : FdLayer.Few (k.othersOf t) := by
  have hle : ∑ i, k.othersOf t i ≤ ∑ i, k.holders i := sum_le_sum fun i _ => Nat.sub_le _ _
  have hsum := k.sum_holders_le
  unfold FdLayer.Few
  omega

theorem holders_of_onTask (ht : k.InUse t) {task' : Task} {fd' : FdLayer F}
    (hsame : (k.proc.taskTable t).SameButFds task')
    (hk' : k' = { k with proc := k.proc.setTask t task', fd := fd' }) :
    k'.holders = k.othersOf t + task'.holds := by
  have htask : k'.proc.taskTable t = task' := by simp [hk']
  have hlive : k'.InUse t := by
    obtain ⟨fds, mask, hrest⟩ := hsame
    rw [InUse, htask, hrest]
    exact ht
  funext i
  have htrade := holders_trade k k' t (fun t' ht' => by
    simp only [hk', Proc.taskTable_setTask, update_of_ne ht']
    exact SameFds.refl _) i
  have hadd := congrFun (othersOf_add ht) i
  rw [taskRefs_of_inUse ht, taskRefs_of_inUse hlive, htask] at htrade
  rw [Pi.add_apply] at hadd ⊢
  omega

end NeverMind.Kernel
