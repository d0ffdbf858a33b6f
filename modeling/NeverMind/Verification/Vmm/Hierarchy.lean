import NeverMind.Library.Radix
import NeverMind.Verification.Vmm.Entry
import Mathlib.Data.Finset.Insert
import Mathlib.Data.Finset.Erase

/-! # The hierarchy of page tables

The tables form a radix tree of depth three below the root, with the leaves in its
entries. The invariant says that the tree does not share tables, that its tables are the
frames the manager holds, and that an entry never grants more than the entries above it.
Each of the three kinds of write keeps it. -/

namespace NeverMind

open Radix List Option

/-! ## The allocator -/

/-- What the manager relies on: the allocator hands out pages that it holds free, and it
takes back any page it manages. -/
structure FrameSource {α : Type*} (A : PageAllocator α) where
  Inv : α → Prop
  Free : α → ℕ → Prop
  Managed : α → ℕ → Prop
  free_managed : ∀ p a, Inv p → Free p a → Managed p a
  managed_page : ∀ p a, Inv p → Managed p a → a ≠ 0 ∧ a % 4096 = 0 ∧ a < 2 ^ 52
  alloc_inv : ∀ p, Inv p → Inv (A.pmmAllocPage p).2
  alloc_managed : ∀ p a, Inv p → (Managed (A.pmmAllocPage p).2 a ↔ Managed p a)
  alloc_free : ∀ p, Inv p → (A.pmmAllocPage p).1 ≠ 0 → Free p (A.pmmAllocPage p).1
  alloc_free_iff : ∀ p a, Inv p →
    (Free (A.pmmAllocPage p).2 a ↔ Free p a ∧ a ≠ (A.pmmAllocPage p).1)
  release_inv : ∀ p a, Inv p → Managed p a → Inv (A.pmmFreePage a p)
  release_managed : ∀ p a b, Inv p → Managed p a → (Managed (A.pmmFreePage a p) b ↔ Managed p b)
  release_free_iff : ∀ p a b, Inv p → Managed p a →
    (Free (A.pmmFreePage a p) b ↔ Free p b ∨ b = a)

namespace Vmm

variable {α : Type*}

/-! ## Tables, entries and leaves -/

def nextTable (depth : ℕ) (e : BitVec 64) : Option ℕ :=
  if depth < 3 ∧ present e = true ∧ large e = false then some (entryPtr e) else none

def isLeaf (depth : ℕ) (e : BitVec 64) : Bool := present e && (decide (3 ≤ depth) || large e)

/-- The table reached along a path of indices, the last one first. -/
def tableAt (s : Vmm α) (root : ℕ) : List (Fin 512) → Option ℕ :=
  Radix.tableAt nextTable s.entry root

def entryAt (s : Vmm α) (root : ℕ) : List (Fin 512) → Option (BitVec 64) :=
  Radix.entryAt nextTable s.entry root

def leafAt (s : Vmm α) (root : ℕ) (path : List (Fin 512)) : Option (BitVec 64) :=
  (s.entryAt root path).filter (isLeaf (path.length - 1))

theorem nextTable_eq_some {d n : ℕ} {e : BitVec 64} :
    nextTable d e = some n ↔ (d < 3 ∧ present e = true ∧ large e = false) ∧ entryPtr e = n := by
  unfold nextTable
  split <;> simp_all

theorem nextTable_of_not_present {e : BitVec 64} (h : present e = false) (d : ℕ) :
    nextTable d e = none := by
  simp [nextTable, h]

theorem isLeaf_of_not_present {e : BitVec 64} (h : present e = false) (d : ℕ) :
    isLeaf d e = false := by
  simp [isLeaf, h]

theorem isLeaf_of_nextTable {d n : ℕ} {e : BitVec 64} (h : nextTable d e = some n) :
    isLeaf d e = false := by
  obtain ⟨⟨hd, -, hlarge⟩, -⟩ := nextTable_eq_some.mp h
  simp [isLeaf, hlarge, Nat.not_le.mpr hd]

theorem nextTable_of_not_leaf {d : ℕ} {e : BitVec 64} (hp : present e = true)
    (h : isLeaf d e = false) : nextTable d e = some (entryPtr e) := by
  simp only [isLeaf, hp, Bool.true_and, Bool.or_eq_false_iff, decide_eq_false_iff_not,
    Nat.not_le] at h
  exact nextTable_eq_some.mpr ⟨⟨h.1, hp, h.2⟩, rfl⟩

theorem nextTable_of_leaf {d : ℕ} {e : BitVec 64} (h : isLeaf d e = true) :
    nextTable d e = none := by
  by_contra hne
  obtain ⟨n, hn⟩ := ne_none_iff_exists'.mp hne
  rw [isLeaf_of_nextTable hn] at h
  cases h

theorem leafAt_cons {s : Vmm α} {root t : ℕ} {path : List (Fin 512)}
    (h : s.tableAt root path = some t) (i : Fin 512) :
    s.leafAt root (i :: path) = (some (s.entry t i)).filter (isLeaf path.length) := by
  rw [leafAt, entryAt, entryAt_cons h]
  rfl

theorem isLeaf_of_leafAt_eq_none {s : Vmm α} {root t : ℕ} {path : List (Fin 512)}
    (h : s.tableAt root path = some t) {i : Fin 512} (hleaf : s.leafAt root (i :: path) = none) :
    isLeaf path.length (s.entry t i) = false := by
  rw [leafAt_cons h, filter_some] at hleaf
  by_contra hne
  simp [hne] at hleaf

theorem entrySlot_inj {t t' : ℕ} {i j : Fin 512} (ht : t % 4096 = 0) (ht' : t' % 4096 = 0)
    (h : entrySlot t i = entrySlot t' j) : t = t' ∧ i = j := by
  have hi := i.isLt
  have hj := j.isLt
  unfold entrySlot at h
  exact ⟨by omega, Fin.ext (by omega)⟩

@[simp] theorem entry_setEntry_self (t : ℕ) (i : Fin 512) (x : BitVec 64) (s : Vmm α) :
    (s.setEntry t i x).entry t i = x :=
  Function.update_self ..

theorem entry_setEntry_of_ne {t t' : ℕ} {i j : Fin 512} (ht : t % 4096 = 0) (ht' : t' % 4096 = 0)
    (hne : ¬ (t' = t ∧ j = i)) (x : BitVec 64) (s : Vmm α) :
    (s.setEntry t i x).entry t' j = s.entry t' j :=
  Function.update_of_ne (fun h => hne (entrySlot_inj ht' ht h)) ..

/-! ## The invariant -/

/-- The tables hang together below `root`, and `spare` lists the tables that are held but
not linked: those allocated in advance or about to be freed. -/
structure Hierarchy {A : PageAllocator α} (F : FrameSource A) (root : ℕ) (spare : List ℕ)
    (s : Vmm α) : Prop where
  inv : F.Inv s.pmm
  separate : Separate nextTable s.entry root
  page : ∀ path t, s.tableAt root path = some t → t ≠ 0 ∧ t % 4096 = 0 ∧ t < 2 ^ 52
  mem_tables : ∀ t, t ∈ s.tables ↔ (∃ path, s.tableAt root path = some t) ∨ t ∈ spare
  not_free : ∀ t ∈ s.tables, ¬ F.Free s.pmm t
  managed : ∀ t ∈ s.tables, t ≠ root → F.Managed s.pmm t
  spare_unlinked : ∀ t ∈ spare, ∀ path, s.tableAt root path ≠ some t
  spare_blank : ∀ t ∈ spare, ∀ i, present (s.entry t i) = false
  spare_nodup : spare.Nodup
  no_huge : ∀ path, path.length ≤ 2 → s.leafAt root path = none
  rights : ∀ j path e e', s.entryAt root (j :: path) = some e → present e = true →
    s.entryAt root path = some e' → Grants e' e

section

variable {A : PageAllocator α} {F : FrameSource A} {root : ℕ} {spare : List ℕ} {s : Vmm α}

theorem Hierarchy.linked_mem (h : Hierarchy F root spare s) {path : List (Fin 512)} {t : ℕ}
    (hpath : s.tableAt root path = some t) : t ∈ s.tables :=
  (h.mem_tables t).mpr (Or.inl ⟨path, hpath⟩)

theorem Hierarchy.spare_mem (h : Hierarchy F root spare s) {t : ℕ} (ht : t ∈ spare) :
    t ∈ s.tables :=
  (h.mem_tables t).mpr (Or.inr ht)

theorem Hierarchy.spare_ne_root (h : Hierarchy F root spare s) {t : ℕ} (ht : t ∈ spare) :
    t ≠ root := by
  rintro rfl
  exact h.spare_unlinked t ht [] rfl

theorem Hierarchy.spare_page (h : Hierarchy F root spare s) {t : ℕ} (ht : t ∈ spare) :
    t ≠ 0 ∧ t % 4096 = 0 ∧ t < 2 ^ 52 :=
  F.managed_page _ _ h.inv (h.managed t (h.spare_mem ht) (h.spare_ne_root ht))

theorem Hierarchy.touch_linked (h : Hierarchy F root spare s) {path : List (Fin 512)} {t : ℕ}
    (hpath : s.tableAt root path = some t) : s.touch t = s :=
  if_pos (h.linked_mem hpath)

theorem Hierarchy.wrote (h : Hierarchy F root spare s) {path : List (Fin 512)} {t : ℕ}
    (hpath : s.tableAt root path = some t) (i : Fin 512) (x : BitVec 64) :
    Wrote nextTable s.entry (s.setEntry t i x).entry root path t i x := by
  refine ⟨hpath, entry_setEntry_self t i x s, fun j path' t' hpath' hne => ?_⟩
  apply entry_setEntry_of_ne (h.page path t hpath).2.1 (h.page path' t' hpath').2.1
  rintro ⟨rfl, rfl⟩
  exact hne (congrArg (j :: ·) (h.separate path' path t' hpath' hpath))

theorem Hierarchy.entry_spare (h : Hierarchy F root spare s) {path : List (Fin 512)} {t : ℕ}
    (hpath : s.tableAt root path = some t) (i : Fin 512) (x : BitVec 64) {n : ℕ} (hn : n ∈ spare)
    (j : Fin 512) : (s.setEntry t i x).entry n j = s.entry n j := by
  apply entry_setEntry_of_ne (h.page path t hpath).2.1 (h.spare_page hn).2.1
  rintro ⟨rfl, -⟩
  exact h.spare_unlinked n hn path hpath

/-! ## Writes that keep the tables -/

section

variable {path : List (Fin 512)} {t : ℕ} {i : Fin 512} {x : BitVec 64}
  (h : Hierarchy F root spare s) (hpath : s.tableAt root path = some t)
  (hchild : nextTable path.length x = nextTable path.length (s.entry t i))

include h hpath hchild

theorem Hierarchy.tableAt_keep (path' : List (Fin 512)) :
    (s.setEntry t i x).tableAt root path' = s.tableAt root path' :=
  (h.wrote hpath i x).tableAt_keep hchild path'

theorem Hierarchy.entryAt_keep (path' : List (Fin 512)) :
    (s.setEntry t i x).entryAt root path' =
      if path' = i :: path then some x else s.entryAt root path' :=
  (h.wrote hpath i x).entryAt_keep hchild path'

theorem Hierarchy.leafAt_keep (path' : List (Fin 512)) :
    (s.setEntry t i x).leafAt root path' =
      if path' = i :: path then (some x).filter (isLeaf path.length)
      else s.leafAt root path' := by
  rw [leafAt, h.entryAt_keep hpath hchild]
  split
  · rename_i heq
    rw [heq]
    rfl
  · rfl

theorem Hierarchy.rights_keep
    (hup : present x = true → ∀ e, s.entryAt root path = some e → Grants e x)
    (hdown : nextTable path.length x ≠ none → Grants x (s.entry t i))
    (j : Fin 512) (p : List (Fin 512)) (e e' : BitVec 64)
    (he : (s.setEntry t i x).entryAt root (j :: p) = some e) (hpres : present e = true)
    (he' : (s.setEntry t i x).entryAt root p = some e') : Grants e' e := by
  rw [h.entryAt_keep hpath hchild] at he he'
  split at he
  · -- the written entry itself: its rights come from above
    rename_i heq
    obtain ⟨rfl, rfl⟩ := cons.inj heq
    obtain rfl := some.inj he
    have hne : p ≠ j :: p := fun heq => by simpa using congrArg length heq
    rw [if_neg hne] at he'
    exact hup hpres e' he'
  · split at he'
    · -- an entry below the written one: the new entry grants what the old one did
      rename_i heq
      subst heq
      obtain rfl := some.inj he'
      obtain ⟨n, hn, -⟩ := entryAt_of_cons he
      rw [tableAt_cons hpath, ← hchild] at hn
      have hold := h.rights j (i :: path) e _ he hpres (entryAt_cons hpath i)
      exact (hdown (by simp [hn])).trans hold
    · exact h.rights j p e e' he hpres he'

end

theorem Hierarchy.setEntry_keep (h : Hierarchy F root spare s) {path : List (Fin 512)} {t : ℕ}
    (hpath : s.tableAt root path = some t) {i : Fin 512} {x : BitVec 64}
    (hchild : nextTable path.length x = nextTable path.length (s.entry t i))
    (hhuge : path.length < 2 → isLeaf path.length x = false)
    (hup : present x = true → ∀ e, s.entryAt root path = some e → Grants e x)
    (hdown : nextTable path.length x ≠ none → Grants x (s.entry t i)) :
    Hierarchy F root spare (s.setEntry t i x) ∧
      (∀ path', (s.setEntry t i x).tableAt root path' = s.tableAt root path') ∧
      ∀ path', (s.setEntry t i x).leafAt root path' =
        if path' = i :: path then (some x).filter (isLeaf path.length)
        else s.leafAt root path' := by
  have htable := h.tableAt_keep hpath hchild
  have hleaf := h.leafAt_keep hpath hchild
  refine ⟨⟨h.inv, ?_, ?_, ?_, h.not_free, h.managed, ?_, ?_, h.spare_nodup, ?_,
    h.rights_keep hpath hchild hup hdown⟩, htable, hleaf⟩
  · intro p p' n hp hp'
    exact h.separate p p' n ((htable p).symm.trans hp) ((htable p').symm.trans hp')
  · intro p n hp
    exact h.page p n ((htable p).symm.trans hp)
  · intro n
    simp only [htable]
    exact h.mem_tables n
  · intro n hn p
    rw [htable]
    exact h.spare_unlinked n hn p
  · intro n hn j
    rw [h.entry_spare hpath i x hn]
    exact h.spare_blank n hn j
  · intro p hp
    rw [hleaf]
    split
    · rename_i heq
      subst heq
      rw [filter_some, hhuge (by simp only [length_cons] at hp; omega)]
      rfl
    · exact h.no_huge p hp

/-! ## Attaching and detaching a table

A write changes what the slot leads to from `o` to `w`. -/

section

variable {t : ℕ} {path : List (Fin 512)} {i : Fin 512} {x : BitVec 64} {o w : Option ℕ}
  (h : Hierarchy F root (w.toList ++ spare) s) (hpath : s.tableAt root path = some t)
  (hold : nextTable path.length (s.entry t i) = o) (hnew : nextTable path.length x = w)
  (hblank : ∀ n, o = some n → ∀ j, present (s.entry n j) = false)

include h hpath in
theorem Hierarchy.blank_attached (n : ℕ) (hn : w = some n) (j : Fin 512) :
    present ((s.setEntry t i x).entry n j) = false := by
  have hmem : n ∈ w.toList ++ spare := mem_append_left _ (by simp [hn])
  rw [h.entry_spare hpath i x hmem]
  exact h.spare_blank n hmem j

include hpath hold in
theorem tableAt_link : s.tableAt root (i :: path) = o := by
  rw [tableAt, tableAt_cons hpath, hold]

include h hpath hold hnew hblank

theorem Hierarchy.tableAt_relink (path' : List (Fin 512)) :
    (s.setEntry t i x).tableAt root path' = if path' = i :: path then w else s.tableAt root path' :=
  (h.wrote hpath i x).tableAt_relink hold hnew
    (fun n hn j => nextTable_of_not_present (hblank n hn j) _)
    (fun n hn j => nextTable_of_not_present (h.blank_attached hpath n hn j) _) path'

theorem Hierarchy.entryAt_relink (j : Fin 512) (path' : List (Fin 512)) :
    (s.setEntry t i x).entryAt root (j :: path') = if j :: path' = i :: path then some x
      else if path' = i :: path then w.map fun n => (s.setEntry t i x).entry n j
      else s.entryAt root (j :: path') :=
  (h.wrote hpath i x).entryAt_relink hold hnew
    (fun n hn j => nextTable_of_not_present (hblank n hn j) _)
    (fun n hn j => nextTable_of_not_present (h.blank_attached hpath n hn j) _) j path'

theorem Hierarchy.leafAt_relink (hleaf : isLeaf path.length (s.entry t i) = false)
    (hleaf' : isLeaf path.length x = false) (path' : List (Fin 512)) :
    (s.setEntry t i x).leafAt root path' = s.leafAt root path' := by
  have hnone : ∀ (o : Option ℕ) (f : ℕ → BitVec 64) (level : ℕ),
      (∀ n, o = some n → present (f n) = false) → (o.map f).filter (isLeaf level) = none := by
    intro o f level hf
    cases o with
    | none => rfl
    | some n => simp [isLeaf_of_not_present (hf n rfl)]
  cases path' with
  | nil => rfl
  | cons j p =>
    rw [leafAt, leafAt, h.entryAt_relink hpath hold hnew hblank]
    split
    · rename_i heq
      obtain ⟨rfl, rfl⟩ := cons.inj heq
      rw [entryAt, entryAt_cons hpath, filter_some, filter_some]
      simp [hleaf, hleaf']
    · split
      · rename_i heq
        subst heq
        have hbelow : s.entryAt root (j :: i :: path) = o.map fun n => s.entry n j := by
          rw [entryAt, Radix.entryAt, ← tableAt, tableAt_link hpath hold]
        rw [hbelow, hnone _ _ _ fun n hn => h.blank_attached hpath n hn j,
          hnone _ _ _ fun n hn => hblank n hn j]
      · rfl

theorem Hierarchy.mem_tables_relink (m : ℕ) : m ∈ (s.setEntry t i x).tables ↔
    (∃ path', (s.setEntry t i x).tableAt root path' = some m) ∨ m ∈ spare ++ o.toList := by
  have htable := h.tableAt_relink hpath hold hnew hblank
  have hlink := tableAt_link hpath hold
  rw [show (s.setEntry t i x).tables = s.tables from rfl, h.mem_tables m, mem_append,
    mem_append, mem_toList, mem_toList]
  constructor
  · rintro (⟨p, hp⟩ | hm | hm)
    · by_cases heq : p = i :: path
      · subst heq
        exact Or.inr (Or.inr (hlink.symm.trans hp))
      · exact Or.inl ⟨p, by rw [htable, if_neg heq, hp]⟩
    · exact Or.inl ⟨i :: path, by rw [htable, if_pos rfl, hm]⟩
    · exact Or.inr (Or.inl hm)
  · rintro (⟨p, hp⟩ | hm | hm)
    · rw [htable] at hp
      split at hp
      · exact Or.inr (Or.inl hp)
      · exact Or.inl ⟨p, hp⟩
    · exact Or.inr (Or.inr hm)
    · exact Or.inl ⟨i :: path, hlink.trans hm⟩

theorem Hierarchy.rights_relink
    (hup : present x = true → ∀ e, s.entryAt root path = some e → Grants e x)
    (j : Fin 512) (p : List (Fin 512)) (e e' : BitVec 64)
    (he : (s.setEntry t i x).entryAt root (j :: p) = some e) (hpres : present e = true)
    (he' : (s.setEntry t i x).entryAt root p = some e') : Grants e' e := by
  have hentry := h.entryAt_relink hpath hold hnew hblank
  rw [hentry] at he
  split at he
  · rename_i heq
    obtain ⟨rfl, rfl⟩ := cons.inj heq
    obtain rfl := some.inj he
    refine hup hpres e' ?_
    cases p with
    | nil => exact he'
    | cons k q =>
      rw [hentry, if_neg, if_neg] at he'
      · exact he'
      · intro heq
        have := congrArg length heq
        simp at this
        omega
      · intro heq
        simpa using congrArg length heq
  · split at he
    · obtain ⟨n, hn, rfl⟩ := map_eq_some_iff.mp he
      rw [h.blank_attached hpath n hn j] at hpres
      cases hpres
    · rename_i hne1 hne2
      -- nothing that changed lies above an entry that was there before
      obtain ⟨m, hm, -⟩ := entryAt_of_cons he
      cases p with
      | nil => cases he'
      | cons k q =>
        rw [hentry, if_neg hne2] at he'
        split at he'
        · rename_i heq
          subst heq
          obtain ⟨m', hm', hchild⟩ := tableAt_of_cons hm
          rw [← tableAt, tableAt_link hpath hold] at hm'
          rw [nextTable_of_not_present (hblank m' hm' k)] at hchild
          cases hchild
        · exact h.rights j (k :: q) e e' he hpres he'

/-- A write into a linked table that detaches one table and attaches another one. -/
theorem Hierarchy.setEntry_relink (hleaf : isLeaf path.length (s.entry t i) = false)
    (hleaf' : isLeaf path.length x = false)
    (hup : present x = true → ∀ e, s.entryAt root path = some e → Grants e x) :
    Hierarchy F root (spare ++ o.toList) (s.setEntry t i x) ∧
      (∀ path', (s.setEntry t i x).tableAt root path' =
        if path' = i :: path then w else s.tableAt root path') ∧
      ∀ path', (s.setEntry t i x).leafAt root path' = s.leafAt root path' := by
  have htable := h.tableAt_relink hpath hold hnew hblank
  have hleaves := h.leafAt_relink hpath hold hnew hblank hleaf hleaf'
  have hlink := tableAt_link hpath hold
  have hnew_mem : ∀ n, w = some n → n ∈ w.toList ++ spare :=
    fun n hn => mem_append_left _ (by simp [hn])
  have hspare_mem : ∀ n ∈ spare, n ∈ w.toList ++ spare := fun n hn => mem_append_right _ hn
  obtain ⟨-, hnodup, hdisj⟩ := nodup_append'.mp h.spare_nodup
  refine ⟨⟨h.inv, ?_, ?_, h.mem_tables_relink hpath hold hnew hblank, h.not_free, h.managed, ?_,
    ?_, ?_, ?_, h.rights_relink hpath hold hnew hblank hup⟩, htable, hleaves⟩
  · intro p p' m hp hp'
    rw [← tableAt, htable] at hp hp'
    split at hp <;> split at hp'
    · simp_all
    · exact absurd hp' (h.spare_unlinked m (hnew_mem m hp) p')
    · exact absurd hp (h.spare_unlinked m (hnew_mem m hp') p)
    · exact h.separate p p' m hp hp'
  · intro p m hp
    rw [htable] at hp
    split at hp
    · exact h.spare_page (hnew_mem m hp)
    · exact h.page p m hp
  · intro m hm p hp
    rw [mem_append, mem_toList] at hm
    rw [htable] at hp
    split at hp
    · rcases hm with hm | hm
      · exact hdisj (by simpa using hp) hm
      · exact h.spare_unlinked m (hnew_mem m hp) _ (hlink.trans hm)
    · rename_i hne
      rcases hm with hm | hm
      · exact h.spare_unlinked m (hspare_mem m hm) p hp
      · exact hne (h.separate _ _ _ hp (hlink.trans hm))
  · intro m hm j
    rw [mem_append, mem_toList] at hm
    rcases hm with hm | hm
    · rw [h.entry_spare hpath i x (hspare_mem m hm)]
      exact h.spare_blank m (hspare_mem m hm) j
    · have hm' := hlink.trans hm
      have hne : m ≠ t := by
        rintro rfl
        simpa using congrArg length (h.separate _ _ _ hm' hpath)
      rw [entry_setEntry_of_ne (h.page _ _ hpath).2.1 (h.page _ _ hm').2.1 (fun heq => hne heq.1)]
      exact hblank m hm j
  · rw [nodup_append']
    refine ⟨hnodup, by cases o <;> simp, fun m hm hm' => ?_⟩
    exact h.spare_unlinked m (hspare_mem m hm) _ (hlink.trans (mem_toList.mp hm'))
  · intro p hp
    rw [hleaves]
    exact h.no_huge p hp

end

end

end Vmm

end NeverMind
