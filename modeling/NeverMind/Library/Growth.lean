import Mathlib.Data.List.Nodup
import Mathlib.Logic.Relation

/-! Trees that grow by leaves: every leaf is added under a node that is already there, with a key
that no other child of the node has. -/

namespace NeverMind.Growth

open List

/-- A leaf that was added: the node above it, its key there, and the leaf itself. -/
structure Leaf (α κ : Type*) where
  parent : α
  key : κ
  node : α

variable {α κ : Type*} {root : α} {log : List (Leaf α κ)} {leaf leaf' : Leaf α κ}

/-- The nodes of a tree: its root, and the leaves that were added. -/
def members (root : α) (log : List (Leaf α κ)) : List α := root :: log.map Leaf.node

/-- The leaves that were added, in order, each one new and with a key of its own. -/
inductive Grown (root : α) : List (Leaf α κ) → Prop where
  | root : Grown root []
  | add {log : List (Leaf α κ)} {leaf : Leaf α κ} (h : Grown root log)
      (hparent : leaf.parent ∈ members root log) (hnew : leaf.node ∉ members root log)
      (hkey : ∀ other ∈ log, other.parent = leaf.parent → other.key ≠ leaf.key) :
      Grown root (log ++ [leaf])

/-- The children of a node, the newest first. -/
def children [DecidableEq α] (d : α) (log : List (Leaf α κ)) : List α :=
  ((log.filter fun leaf => leaf.parent = d).map Leaf.node).reverse

/-- One node is the parent of another. -/
def Above (log : List (Leaf α κ)) (child parent : α) : Prop :=
  ∃ leaf ∈ log, leaf.node = child ∧ leaf.parent = parent

theorem node_mem (root : α) (h : leaf ∈ log) : leaf.node ∈ members root log :=
  mem_cons_of_mem root (mem_map.mpr ⟨leaf, h, rfl⟩)

theorem mem_members {i : α} : i ∈ members root log ↔ i = root ∨ ∃ leaf ∈ log, leaf.node = i := by
  simp [members]

theorem members_append (root : α) (log : List (Leaf α κ)) (leaf : Leaf α κ) :
    members root (log ++ [leaf]) = members root log ++ [leaf.node] := by
  simp [members]

theorem length_members (root : α) (log : List (Leaf α κ)) :
    (members root log).length = log.length + 1 := by
  simp [members]

section

variable [DecidableEq α]

theorem children_append (d : α) (log : List (Leaf α κ)) (leaf : Leaf α κ) :
    children d (log ++ [leaf]) =
      if leaf.parent = d then leaf.node :: children d log else children d log := by
  unfold children
  by_cases h : leaf.parent = d <;> simp [h]

theorem mem_children {d i : α} :
    i ∈ children d log ↔ ∃ leaf ∈ log, leaf.parent = d ∧ leaf.node = i := by
  simp [children, and_assoc]

theorem length_children_le (d : α) (log : List (Leaf α κ)) :
    (children d log).length ≤ log.length := by
  simpa [children] using length_filter_le (fun leaf : Leaf α κ => leaf.parent = d) log

end

namespace Grown

theorem nodup (h : Grown root log) : (members root log).Nodup := by
  induction h with
  | root => simp [members]
  | add h hparent hnew hkey ih =>
    rw [members_append, nodup_append]
    refine ⟨ih, nodup_singleton _, ?_⟩
    intro i hi j hj
    rw [mem_singleton.mp hj]
    exact fun heq => hnew (heq ▸ hi)

/-- The root is no leaf. -/
theorem node_ne_root (h : Grown root log) (hleaf : leaf ∈ log) : leaf.node ≠ root := by
  intro heq
  have hroot : root ∉ log.map Leaf.node := (nodup_cons.mp h.nodup).1
  exact hroot (heq ▸ mem_map.mpr ⟨leaf, hleaf, rfl⟩)

theorem parent_mem (h : Grown root log) (hleaf : leaf ∈ log) : leaf.parent ∈ members root log := by
  induction h with
  | root => exact absurd hleaf not_mem_nil
  | add h hparent hnew hkey ih =>
    rw [members_append]
    rcases mem_append.mp hleaf with hold | hlast
    · exact mem_append_left _ (ih hold)
    · rw [mem_singleton.mp hlast]
      exact mem_append_left _ hparent

/-- The children of a node have different keys. -/
theorem eq_of_key (h : Grown root log) (hleaf : leaf ∈ log) (hleaf' : leaf' ∈ log)
    (hparent : leaf.parent = leaf'.parent) (hkey : leaf.key = leaf'.key) : leaf = leaf' := by
  induction h with
  | root => exact absurd hleaf not_mem_nil
  | add h _ hnew hother ih =>
    rcases mem_append.mp hleaf with hold | hlast
    · rcases mem_append.mp hleaf' with hold' | hlast'
      · exact ih hold hold'
      · rw [mem_singleton.mp hlast'] at hparent hkey
        exact absurd hkey (hother leaf hold hparent)
    · rcases mem_append.mp hleaf' with hold' | hlast'
      · rw [mem_singleton.mp hlast] at hparent hkey
        exact absurd hkey.symm (hother leaf' hold' hparent.symm)
      · rw [mem_singleton.mp hlast, mem_singleton.mp hlast']

theorem nodup_children [DecidableEq α] (h : Grown root log) (d : α) : (children d log).Nodup := by
  rw [children, nodup_reverse]
  exact (nodup_cons.mp h.nodup).2.sublist (filter_sublist.map Leaf.node)

/-- Following the parents from any node ends at the root. -/
theorem reaches_root (h : Grown root log) {i : α} (hi : i ∈ members root log) :
    Relation.ReflTransGen (Above log) i root := by
  induction h generalizing i with
  | root =>
    rw [members, map_nil, mem_singleton] at hi
    rw [hi]
  | @add log leaf h hparent hnew hkey ih =>
    have hmono : ∀ x y, Above log x y → Above (log ++ [leaf]) x y := by
      rintro x y ⟨other, hother, hx, hy⟩
      exact ⟨other, mem_append_left _ hother, hx, hy⟩
    rw [members_append] at hi
    rcases mem_append.mp hi with hold | hlast
    · exact Relation.ReflTransGen.mono hmono _ _ (ih hold)
    · -- the new leaf is one step below a node that reaches the root
      rw [mem_singleton.mp hlast]
      refine .head ⟨leaf, mem_append_right _ mem_cons_self, rfl, rfl⟩ ?_
      exact Relation.ReflTransGen.mono hmono _ _ (ih hparent)

end Grown

end NeverMind.Growth
