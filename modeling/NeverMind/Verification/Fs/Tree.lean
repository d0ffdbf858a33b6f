import NeverMind.Library.Growth
import NeverMind.Verification.Fs.TmpfsFiles
import Mathlib.Data.Fintype.EquivFin

/-! # The tree of the memory file system

The directories are lists of siblings, threaded through the table of vnodes. After any creations
the links are those of a tree that grew by leaves, and a search in a directory returns what was
created there. -/

namespace NeverMind.Tmpfs

open Growth List Function

abbrev Creation := Leaf NodeRef (List Byte)

def Used (i : NodeRef) (t : Tmpfs) : Prop := (t.nodes i).used = true

/-- The children list of a vnode, as far as its links go. -/
def ChildList (d : NodeRef) (l : List NodeRef) (t : Tmpfs) : Prop :=
  Chain (fun i => (t.nodes i).nextSibling) (t.nodes d).children l

/-! ## What a creation does -/

def added (i dir : NodeRef) (name : List Byte) (type : NodeType) (mode : ℕ) (t : Tmpfs) : Tmpfs :=
  { t with
    nodes := update
      (update t.nodes i
        { used := true, ino := t.nextIno, type := type, name := copyName name, uid := 0, gid := 0
          mode := mode, parent := some dir, children := none
          nextSibling := (t.nodes dir).children, data := none, size := 0, capacity := 0
          ops := true })
      dir { t.nodes dir with children := some i }
    nextIno := u64 (t.nextIno + 1) }

/-- What `tmpfs_create` can do. -/
inductive Creates (fuel : ℕ) (dir : NodeRef) (name : List Byte) (type : NodeType) (mode : ℕ)
    (t : Tmpfs) : Option NodeRef × Tmpfs → Prop where
  | refused : Creates fuel dir name type mode t (none, t)
  | made {i : NodeRef} (hdir : (t.nodes dir).type = .dir)
      (hmissing : t.tmpfsLookup fuel dir name = some none) (hfree : ¬ Used i t) :
      Creates fuel dir name type mode t (some i, t.added i dir name type mode)

variable {t t' : Tmpfs} {fuel : ℕ} {dir : NodeRef} {name : List Byte} {type : NodeType} {mode : ℕ}

theorem allocNode_cases (t : Tmpfs) :
    (t.allocNode = (none, t) ∧ ∀ i, Used i t) ∨ ∃ i, ¬ Used i t ∧
      t.allocNode = (some i, t.setNode i { t.nodes i with
        used := true, children := none, nextSibling := none, parent := none, data := none
        size := 0, capacity := 0, uid := 0, gid := 0 }) := by
  unfold allocNode
  cases hfind : (finRange 512).find? fun i => !(t.nodes i).used with
  | none =>
    have hused := fun i => find?_eq_none.mp hfind i (mem_finRange i)
    exact .inl ⟨rfl, by simpa [Used] using hused⟩
  | some i =>
    have hfree := find?_some hfind
    exact .inr ⟨i, by simpa [Used] using hfree, rfl⟩

/-- The vnode that a creation takes, filled in. The directory may be the free vnode that is
taken, which then has no children. -/
def newVnode (i dir : NodeRef) (name : List Byte) (type : NodeType) (mode : ℕ) (t : Tmpfs) :
    Vnode :=
  { used := true, ino := t.nextIno, type := type, name := copyName name, uid := 0, gid := 0
    mode := mode, parent := some dir, children := none
    nextSibling := if dir = i then none else (t.nodes dir).children, data := none
    size := 0, capacity := 0, ops := true }

/-- A creation takes a free vnode, and changes no other one but for the children of a directory;
or it leaves the table as it is. -/
theorem tmpfsCreate_nodes {made : Option NodeRef}
    (h : t.tmpfsCreate fuel dir name type mode = some (made, t')) :
    made = none ∧ t' = t ∨ ∃ i, made = some i ∧ ¬ Used i t ∧ ∀ k, ∃ first, t'.nodes k =
        { if k = i then t.newVnode i dir name type mode else t.nodes k with
          children := first } := by
  unfold tmpfsCreate at h
  split at h
  · cases h
    exact .inl ⟨rfl, rfl⟩
  · split at h
    · cases h
    · cases h
      exact .inl ⟨rfl, rfl⟩
    · obtain ⟨halloc, -⟩ | ⟨i, hfree, halloc⟩ := allocNode_cases t
      · rw [halloc] at h
        cases h
        exact .inl ⟨rfl, rfl⟩
      · rw [halloc] at h
        obtain ⟨rfl, rfl⟩ := Prod.mk.inj (Option.some.inj h)
        refine .inr ⟨i, rfl, hfree, ?_⟩
        intro k
        by_cases hdir : dir = i
        · subst hdir
          by_cases hk : k = dir
          · subst hk
            exact ⟨some k, by simp [newVnode, setNode]⟩
          · exact ⟨(t.nodes k).children, by simp [setNode, hk]⟩
        · by_cases hk : k = i
          · subst hk
            exact ⟨none, by simp [newVnode, setNode, hdir, Ne.symm hdir]⟩
          · by_cases hkdir : k = dir
            · subst hkdir
              exact ⟨some i, by simp [setNode, hk]⟩
            · exact ⟨(t.nodes k).children, by simp [setNode, hk, hkdir]⟩

theorem tmpfsCreate_creates (hdir : Used dir t) {r : Option NodeRef × Tmpfs}
    (h : t.tmpfsCreate fuel dir name type mode = some r) : Creates fuel dir name type mode t r := by
  unfold tmpfsCreate at h
  by_cases htype : (t.nodes dir).type = .dir
  · rw [if_neg (not_not_intro htype)] at h
    cases hlookup : t.tmpfsLookup fuel dir name with
    | none =>
      rw [hlookup] at h
      cases h
    | some found =>
      rw [hlookup] at h
      cases found with
      | some j =>
        cases h
        exact .refused
      | none =>
        rcases allocNode_cases t with ⟨halloc, -⟩ | ⟨i, hfree, halloc⟩
        · rw [halloc] at h
          cases h
          exact .refused
        · have hne : dir ≠ i := by
            rintro rfl
            exact hfree hdir
          have hmade : r = (some i, t.added i dir name type mode) := by
            rw [halloc] at h
            simp only [setNode, update_self, update_of_ne hne,
              update_idem, Option.some.injEq] at h
            rw [← h, added]
          rw [hmade]
          exact .made htype hlookup hfree
  · rw [if_pos htype] at h
    cases h
    exact .refused

section

variable {i k : NodeRef}

theorem nodes_added_new (hne : i ≠ dir) (name : List Byte) (type : NodeType) (mode : ℕ)
    (t : Tmpfs) :
    (t.added i dir name type mode).nodes i =
      { used := true, ino := t.nextIno, type := type, name := copyName name, uid := 0, gid := 0
        mode := mode, parent := some dir, children := none
        nextSibling := (t.nodes dir).children, data := none, size := 0, capacity := 0
        ops := true } := by
  simp [added, hne]

theorem nodes_added_old (hne : k ≠ i) (dir : NodeRef) (name : List Byte) (type : NodeType)
    (mode : ℕ) (t : Tmpfs) :
    (t.added i dir name type mode).nodes k =
      { t.nodes k with children := if dir = k then some i else (t.nodes k).children } := by
  by_cases hk : dir = k
  · subst hk
    simp [added]
  · simp [added, hne, Ne.symm hk, hk]

end

/-! ## The invariant -/

/-- The table represents the tree that the creations made. -/
structure Represents (root : NodeRef) (log : List Creation) (t : Tmpfs) : Prop where
  grown : Grown root log
  used : ∀ i, Used i t ↔ i ∈ members root log
  nextIno : t.nextIno = log.length + 2
  inoLt : ∀ i, Used i t → (t.nodes i).ino < t.nextIno
  inoInj : ∀ i j, Used i t → Used j t → (t.nodes i).ino = (t.nodes j).ino → i = j
  parent : ∀ leaf ∈ log, (t.nodes leaf.node).parent = some leaf.parent
  name : ∀ leaf ∈ log, (t.nodes leaf.node).name = leaf.key
  dir : ∀ leaf ∈ log, (t.nodes leaf.parent).type = .dir
  linked : ∀ d, Used d t → ChildList d (children d log) t

variable {root : NodeRef} {log : List Creation}

theorem Represents.length_lt (h : Represents root log t) : log.length < 512 := by
  have hcard := Nodup.length_le_card h.grown.nodup
  rw [length_members, Fintype.card_fin] at hcard
  exact hcard

theorem Represents.lookup (h : Represents root log t) (hfuel : 512 ≤ fuel) {d : NodeRef}
    (hd : Used d t) (name : List Byte) :
    ∃ found, t.tmpfsLookup fuel d name = some found ∧ ∀ i, found = some i ↔ ⟨d, name, i⟩ ∈ log := by
  unfold tmpfsLookup
  by_cases htype : (t.nodes d).type = .dir
  · rw [if_neg (not_not_intro htype)]
    have hlen : (children d log).length < fuel :=
      Nat.lt_of_le_of_lt (length_children_le d log) (Nat.lt_of_lt_of_le h.length_lt hfuel)
    rcases findSibling_spec name (h.linked d hd) hlen with ⟨i, hi, hname, hfound⟩ | ⟨hall, hfound⟩
    · obtain ⟨leaf, hleaf, rfl, rfl⟩ := mem_children.mp hi
      rw [h.name leaf hleaf] at hname
      subst hname
      refine ⟨some leaf.node, hfound, ?_⟩
      intro j
      constructor
      · intro hj
        obtain rfl := Option.some.inj hj
        exact hleaf
      · intro hj
        rw [h.grown.eq_of_key hleaf hj rfl rfl]
    · refine ⟨none, hfound, ?_⟩
      intro j
      constructor
      · intro hj
        cases hj
      · intro hj
        have hne := hall j (mem_children.mpr ⟨_, hj, rfl, rfl⟩)
        exact absurd (h.name _ hj) hne
  · refine ⟨none, by rw [if_pos htype], ?_⟩
    intro j
    constructor
    · intro hj
      cases hj
    · intro hj
      exact absurd (h.dir _ hj) htype

section

variable {i : NodeRef}

theorem Represents.linked_added (h : Represents root log t) (hused : Used dir t)
    (hfree : ¬ Used i t) (name : List Byte) (type : NodeType) (mode : ℕ) {d : NodeRef}
    (hd : Used d t ∨ d = i) :
    ChildList d (children d (log ++ [⟨dir, name, i⟩])) (t.added i dir name type mode) := by
  have hne : i ≠ dir := by
    rintro rfl
    exact hfree hused
  have hnew := nodes_added_new hne name type mode t
  have hold {k : NodeRef} (hk : k ≠ i) := nodes_added_old hk dir name type mode t
  have hkept : ∀ k ∈ children d log,
      ((t.added i dir name type mode).nodes k).nextSibling = (t.nodes k).nextSibling := by
    intro k hk
    obtain ⟨leaf, hleaf, -, rfl⟩ := mem_children.mp hk
    have hki : leaf.node ≠ i := by
      intro hki
      exact hfree (hki ▸ (h.used _).mpr (node_mem root hleaf))
    rw [hold hki]
  unfold ChildList
  rw [children_append]
  by_cases hdi : d = i
  · subst hdi
    have hempty : children d log = [] := by
      rw [eq_nil_iff_forall_not_mem]
      intro k hk
      obtain ⟨leaf, hleaf, hparent, -⟩ := mem_children.mp hk
      exact hfree ((h.used d).mpr (hparent ▸ h.grown.parent_mem hleaf))
    rw [if_neg hne.symm, hempty, hnew]
    exact .nil
  · have hlinked := h.linked d (hd.resolve_right hdi)
    rw [hold hdi]
    dsimp only
    by_cases hdir : dir = d
    · subst hdir
      rw [if_pos rfl, if_pos rfl]
      refine Chain.cons_iff.mpr ⟨rfl, ?_⟩
      rw [hnew]
      exact hlinked.congr hkept
    · rw [if_neg hdir, if_neg hdir]
      exact hlinked.congr hkept

theorem used_added (hne : i ≠ dir) (name : List Byte) (type : NodeType) (mode : ℕ) (t : Tmpfs)
    (k : NodeRef) : Used k (t.added i dir name type mode) ↔ Used k t ∨ k = i := by
  unfold Used
  by_cases hk : k = i
  · subst hk
    simp [nodes_added_new hne]
  · rw [nodes_added_old hk]
    simp [hk]

theorem Represents.key_ne (h : Represents root log t) (hfuel : 512 ≤ fuel) (hused : Used dir t)
    (hmissing : t.tmpfsLookup fuel dir name = some none) {leaf : Creation} (hleaf : leaf ∈ log)
    (hparent : leaf.parent = dir) : leaf.key ≠ name := by
  rintro rfl
  subst hparent
  obtain ⟨found, hfound, hiff⟩ := h.lookup hfuel hused leaf.key
  rw [hmissing] at hfound
  cases hfound
  cases (hiff leaf.node).mpr hleaf

theorem Represents.ino_added (h : Represents root log t) (hne : i ≠ dir) (name : List Byte)
    (type : NodeType) (mode : ℕ) {j k : NodeRef} (hj : Used j t ∨ j = i) (hk : Used k t ∨ k = i)
    (heq : ((t.added i dir name type mode).nodes j).ino =
      ((t.added i dir name type mode).nodes k).ino) : j = k := by
  by_cases hji : j = i
  · subst hji
    by_cases hkj : k = j
    · exact hkj.symm
    · rw [nodes_added_new hne, nodes_added_old hkj] at heq
      exact absurd heq.symm (h.inoLt k (hk.resolve_right hkj)).ne
  · by_cases hki : k = i
    · subst hki
      rw [nodes_added_new hne, nodes_added_old hji] at heq
      exact absurd heq (h.inoLt j (hj.resolve_right hji)).ne
    · rw [nodes_added_old hji, nodes_added_old hki] at heq
      exact h.inoInj j k (hj.resolve_right hji) (hk.resolve_right hki) heq

theorem Represents.added (h : Represents root log t) (hfuel : 512 ≤ fuel)
    (hname : name.length ≤ 63) (hused : Used dir t) (hdir : (t.nodes dir).type = .dir)
    (hmissing : t.tmpfsLookup fuel dir name = some none) (hfree : ¬ Used i t) :
    Represents root (log ++ [⟨dir, name, i⟩]) (t.added i dir name type mode) := by
  have hne : i ≠ dir := by
    rintro rfl
    exact hfree hused
  have hiff := used_added hne name type mode t
  have hnew := nodes_added_new hne name type mode t
  have hold {k : NodeRef} (hk : k ∈ members root log) :=
    nodes_added_old (i := i) (k := k) (fun hki => hfree (hki ▸ (h.used k).mpr hk)) dir name type
      mode t
  have hino : (t.added i dir name type mode).nextIno = t.nextIno + 1 := by
    have hlt := h.length_lt
    have hnext := h.nextIno
    exact u64_of_lt (by omega)
  refine ⟨?_, ?_, ?_, ?_, ?_, ?_, ?_, ?_, ?_⟩
  · refine h.grown.add ((h.used dir).mp hused) (fun hi => hfree ((h.used i).mpr hi)) ?_
    intro leaf hleaf hparent
    exact h.key_ne hfuel hused hmissing hleaf hparent
  · intro k
    rw [hiff, members_append, mem_append, mem_singleton, h.used]
  · rw [hino, h.nextIno, length_append, length_singleton]
  · intro k hk
    rw [hino]
    rcases (hiff k).mp hk with hk | rfl
    · rw [hold ((h.used k).mp hk)]
      exact Nat.lt_succ_of_lt (h.inoLt k hk)
    · rw [hnew]
      exact Nat.lt_succ_self t.nextIno
  · intro j k hj hk heq
    exact h.ino_added hne name type mode ((hiff j).mp hj) ((hiff k).mp hk) heq
  · intro leaf hleaf
    rcases mem_append.mp hleaf with hleaf | hleaf
    · rw [hold (node_mem root hleaf)]
      exact h.parent leaf hleaf
    · rw [mem_singleton.mp hleaf, hnew]
  · intro leaf hleaf
    rcases mem_append.mp hleaf with hleaf | hleaf
    · rw [hold (node_mem root hleaf)]
      exact h.name leaf hleaf
    · rw [mem_singleton.mp hleaf, hnew]
      exact take_of_length_le hname
  · intro leaf hleaf
    rcases mem_append.mp hleaf with hleaf | hleaf
    · rw [hold (h.grown.parent_mem hleaf)]
      exact h.dir leaf hleaf
    · rw [mem_singleton.mp hleaf, hold ((h.used dir).mp hused)]
      exact hdir
  · intro d hd
    exact h.linked_added hused hfree name type mode ((hiff d).mp hd)

end

/-! ## Runs of creations -/

/-- The states after a mount and creations in vnodes in use, with the creations that succeeded. -/
inductive Built (fuel : ℕ) (root : NodeRef) : List Creation → Tmpfs → Prop where
  | mounted {t₀ t : Tmpfs} (h : t₀.tmpfsMountRoot = (some root, t)) : Built fuel root [] t
  | created {log : List Creation} {t t' : Tmpfs} {dir i : NodeRef} {name : List Byte}
      {type : NodeType} {mode : ℕ} (h : Built fuel root log t) (hdir : Used dir t)
      (hname : 1 ≤ name.length ∧ name.length ≤ 63) (htype : type = .file ∨ type = .dir)
      (hcreate : t.tmpfsCreate fuel dir name type mode = some (some i, t')) :
      Built fuel root (log ++ [⟨dir, name, i⟩]) t'
  | failed {log : List Creation} {t t' : Tmpfs} {dir : NodeRef} {name : List Byte}
      {type : NodeType} {mode : ℕ} (h : Built fuel root log t) (hdir : Used dir t)
      (hname : 1 ≤ name.length ∧ name.length ≤ 63) (htype : type = .file ∨ type = .dir)
      (hcreate : t.tmpfsCreate fuel dir name type mode = some (none, t')) :
      Built fuel root log t'

theorem Represents.mounted {t₀ : Tmpfs} (h : t₀.tmpfsMountRoot = (some root, t)) :
    Represents root [] t := by
  obtain ⟨t', hmount, hholds⟩ := tmpfsMountRoot_holds t₀
  rw [hmount] at h
  cases h
  have hused : ∀ i, Used i t ↔ i = 0 := by
    intro i
    rw [Used, hholds.used, decide_eq_true_iff, length_nil, Nat.le_zero, Fin.ext_iff]
    rfl
  refine ⟨.root, ?_, hholds.nextIno, ?_, ?_, by simp, by simp, by simp, ?_⟩
  · intro i
    rw [hused, members, map_nil, mem_singleton]
  · intro i hi
    rw [(hused i).mp hi, hholds.root.ino, hholds.nextIno]
    exact Nat.lt_succ_self 1
  · intro i j hi hj _
    rw [(hused i).mp hi, (hused j).mp hj]
  · intro d hd
    rw [(hused d).mp hd]
    exact hholds.linked

theorem Built.represents (h : Built fuel root log t) (hfuel : 512 ≤ fuel) :
    Represents root log t := by
  induction h with
  | mounted h => exact .mounted h
  | created h hdir hname htype hcreate ih =>
    cases tmpfsCreate_creates hdir hcreate with
    | made htype hmissing hfree => exact ih.added hfuel hname.2 hdir htype hmissing hfree
  | failed h hdir hname htype hcreate ih =>
    cases tmpfsCreate_creates hdir hcreate with
    | refused => exact ih

/-! ## The tree -/

/-- The links of the vnodes in use form a tree: children lists end, every vnode but the root is
once in the list of its parent and in no other, and parents lead to the root. -/
structure IsTree (root : NodeRef) (t : Tmpfs) : Prop where
  listed : ∀ d, Used d t → ∃ l, ChildList d l t
  once : ∀ i, Used i t → i ≠ root → ∃ d, (t.nodes i).parent = some d ∧ Used d t ∧
    (t.nodes d).type = .dir ∧ ∀ l, ChildList d l t → l.count i = 1
  only : ∀ d l i, Used d t → ChildList d l t → i ∈ l →
    Used i t ∧ i ≠ root ∧ (t.nodes i).parent = some d
  reaches : ∀ i, Used i t →
    Relation.ReflTransGen (fun i d => (t.nodes i).parent = some d) i root
  names : ∀ d l, Used d t → ChildList d l t → (l.map fun i => (t.nodes i).name).Nodup
  inos : ∀ i j, Used i t → Used j t → (t.nodes i).ino = (t.nodes j).ino → i = j

/-- A search in a vnode returns, with the one child that has the name: the one that was created
there. -/
def FindsCreated (fuel : ℕ) (root : NodeRef) (log : List Creation) (t : Tmpfs) : Prop :=
  ∀ d, Used d t → ∀ name, ∃ found, t.tmpfsLookup fuel d name = some found ∧
    ∀ i, (found = some i ↔ ⟨d, name, i⟩ ∈ log) ∧ (found = some i ↔
        Used i t ∧ i ≠ root ∧ (t.nodes i).parent = some d ∧ (t.nodes i).name = name)

/-- A creation returns, and one that fails leaves everything as it is. -/
def FailsUnchanged (fuel : ℕ) (t : Tmpfs) : Prop :=
  ∀ dir name type mode, Used dir t → ∃ made t',
    t.tmpfsCreate fuel dir name type mode = some (made, t') ∧ (made = none → t' = t)

theorem Represents.leaf (h : Represents root log t) {i : NodeRef} (hi : Used i t)
    (hne : i ≠ root) : ∃ leaf ∈ log, leaf.node = i :=
  (mem_members.mp ((h.used i).mp hi)).resolve_left hne

theorem Represents.childList_eq (h : Represents root log t) {d : NodeRef} {l : List NodeRef}
    (hd : Used d t) (hl : ChildList d l t) : l = children d log :=
  hl.unique (h.linked d hd)

theorem Represents.isTree (h : Represents root log t) : IsTree root t := by
  refine ⟨?_, ?_, ?_, ?_, ?_, h.inoInj⟩
  · intro d hd
    exact ⟨_, h.linked d hd⟩
  · intro i hi hne
    obtain ⟨leaf, hleaf, rfl⟩ := h.leaf hi hne
    have hused : Used leaf.parent t := (h.used _).mpr (h.grown.parent_mem hleaf)
    refine ⟨leaf.parent, h.parent leaf hleaf, hused, h.dir leaf hleaf, ?_⟩
    intro l hl
    rw [h.childList_eq hused hl]
    exact count_eq_one_of_mem (h.grown.nodup_children _)
      (mem_children.mpr ⟨leaf, hleaf, rfl, rfl⟩)
  · intro d l i hd hl hi
    rw [h.childList_eq hd hl] at hi
    obtain ⟨leaf, hleaf, rfl, rfl⟩ := mem_children.mp hi
    exact ⟨(h.used _).mpr (node_mem root hleaf), h.grown.node_ne_root hleaf, h.parent leaf hleaf⟩
  · intro i hi
    refine Relation.ReflTransGen.mono ?_ _ _ (h.grown.reaches_root ((h.used i).mp hi))
    rintro child d ⟨leaf, hleaf, rfl, rfl⟩
    exact h.parent leaf hleaf
  · intro d l hd hl
    rw [h.childList_eq hd hl]
    refine (h.grown.nodup_children d).map_on ?_
    intro i hi j hj hname
    obtain ⟨leaf, hleaf, hparent, rfl⟩ := mem_children.mp hi
    obtain ⟨leaf', hleaf', hparent', rfl⟩ := mem_children.mp hj
    rw [h.name leaf hleaf, h.name leaf' hleaf'] at hname
    rw [h.grown.eq_of_key hleaf hleaf' (hparent.trans hparent'.symm) hname]

theorem Represents.findsCreated (h : Represents root log t) (hfuel : 512 ≤ fuel) :
    FindsCreated fuel root log t := by
  intro d hd name
  obtain ⟨found, hfound, hiff⟩ := h.lookup hfuel hd name
  refine ⟨found, hfound, fun i => ⟨hiff i, (hiff i).trans ?_⟩⟩
  constructor
  · intro hleaf
    exact ⟨(h.used i).mpr (node_mem root hleaf), h.grown.node_ne_root hleaf, h.parent _ hleaf,
      h.name _ hleaf⟩
  · rintro ⟨hi, hne, hparent, hname⟩
    obtain ⟨leaf, hleaf, rfl⟩ := h.leaf hi hne
    rw [h.parent leaf hleaf] at hparent
    rw [h.name leaf hleaf] at hname
    obtain rfl := Option.some.inj hparent
    rw [← hname]
    exact hleaf

theorem Represents.failsUnchanged (h : Represents root log t) (hfuel : 512 ≤ fuel) :
    FailsUnchanged fuel t := by
  intro dir name type mode hdir
  cases hcreate : t.tmpfsCreate fuel dir name type mode with
  | none =>
    -- only a search that does not return could keep a creation from returning
    obtain ⟨found, hfound, -⟩ := h.lookup hfuel hdir name
    unfold tmpfsCreate at hcreate
    rw [hfound] at hcreate
    split at hcreate
    · cases hcreate
    · cases found with
      | some i => cases hcreate
      | none =>
        dsimp only at hcreate
        split at hcreate <;> cases hcreate
  | some r =>
    refine ⟨r.1, r.2, rfl, ?_⟩
    cases tmpfsCreate_creates hdir hcreate with
    | refused => exact fun _ => rfl
    | made hdir hmissing hfree =>
      intro hnone
      cases hnone

/-- After a mount and any creations, the table is a tree whose directories list what was created
in them. -/
theorem creations_form_tree (hfuel : 512 ≤ fuel) (h : Built fuel root log t) :
    IsTree root t ∧ FindsCreated fuel root log t ∧ FailsUnchanged fuel t :=
  ⟨(h.represents hfuel).isTree, (h.represents hfuel).findsCreated hfuel,
    (h.represents hfuel).failsUnchanged hfuel⟩

def blank : Tmpfs where
  nodes := fun _ => ⟨false, 0, .none, [], 0, 0, 0, none, none, none, none, 0, 0, false⟩
  nextIno := 0
  tmpfsRoot := none

def rootOnly : Tmpfs := blank.tmpfsMountRoot.2

def afterCreate (dir : NodeRef) (name : List Byte) (type : NodeType) (t : Tmpfs) : Tmpfs :=
  ((t.tmpfsCreate 512 dir name type 0o644).getD (none, t)).2

def nested : Tmpfs := (rootOnly.afterCreate 0 [100] .dir).afterCreate 1 [102] .file

theorem tmpfsMountRoot_blank : blank.tmpfsMountRoot = (some 0, rootOnly) := by
  obtain ⟨t, hmount, -⟩ := tmpfsMountRoot_holds blank
  rw [rootOnly, hmount]

theorem tmpfsCreate_afterCreate (i dir : NodeRef) (name : List Byte) (type : NodeType) (t : Tmpfs)
    (h : (t.tmpfsCreate 512 dir name type 0o644).map Prod.fst = some (some i)) :
    t.tmpfsCreate 512 dir name type 0o644 = some (some i, t.afterCreate dir name type) := by
  obtain ⟨r, hr, hfst⟩ := Option.map_eq_some_iff.mp h
  rw [afterCreate, hr, ← hfst]
  rfl

theorem built_nested : Built 512 0 [⟨0, [100], 1⟩, ⟨1, [102], 2⟩] nested := by
  have hdir := tmpfsCreate_afterCreate 1 0 [100] .dir rootOnly (by decide +kernel)
  have hfile := tmpfsCreate_afterCreate 2 1 [102] .file (rootOnly.afterCreate 0 [100] .dir)
    (by decide +kernel)
  have hfirst := Built.created (.mounted tmpfsMountRoot_blank) (by unfold Used; decide +kernel)
    (by decide) (.inr rfl) hdir
  exact .created hfirst (by unfold Used; decide +kernel) (by decide) (.inl rfl) hfile

theorem creations_form_tree_nested :
    IsTree 0 nested ∧ FindsCreated 512 0 [⟨0, [100], 1⟩, ⟨1, [102], 2⟩] nested ∧
      FailsUnchanged 512 nested :=
  creations_form_tree (le_refl 512) built_nested

end NeverMind.Tmpfs
