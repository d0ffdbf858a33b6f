import NeverMind.Library.Chain
import NeverMind.Model.Tmpfs
import NeverMind.Verification.Fs.Store

/-! # Files in the table of vnodes

The table of vnodes represents a list of files: the root is vnode 0, the file of index `k` is
vnode `k + 1`, and the siblings are linked from the newest file to the oldest. -/

namespace NeverMind.Tmpfs

open Function FileStore List

/-! ## Buffers -/

/-- The invariant of the buffer of a file: capacities are 0 or a power of two, at least 64. -/
structure Buffered (v : Vnode) : Prop where
  fits : v.size ≤ v.capacity
  capacity : v.capacity = 0 ∨ ∃ e ≤ 57, v.capacity = 64 * 2 ^ e
  present : v.capacity ≠ 0 → v.data.isSome

def bytesOf (v : Vnode) : List Byte := frontOf v.size (v.data.getD fun _ => 0)

theorem growLoop_mono {need fuel more cap r : ℕ} (h : growLoop need fuel cap = some r)
    (hle : fuel ≤ more) : growLoop need more cap = some r := by
  induction fuel generalizing more cap with
  | zero => cases h
  | succ fuel ih =>
    obtain ⟨more, rfl⟩ : ∃ m, more = m + 1 := ⟨more - 1, by omega⟩
    rw [growLoop] at h ⊢
    split at h
    · rename_i hlt
      rw [if_pos hlt]
      exact ih h (by omega)
    · rename_i hge
      rw [if_neg hge]
      exact h

/-- Doubling reaches every size up to `2 ^ 63`, and stops at the first capacity that is enough. -/
theorem growLoop_spec {need e fuel : ℕ} (he : e ≤ 57) (hneed : need ≤ 2 ^ 63)
    (hfuel : 57 - e < fuel) :
    ∃ e', e ≤ e' ∧ e' ≤ 57 ∧ (∀ k, e ≤ k → (need ≤ 64 * 2 ^ k ↔ e' ≤ k)) ∧
      growLoop need fuel (64 * 2 ^ e) = some (64 * 2 ^ e') := by
  induction fuel generalizing e with
  | zero => omega
  | succ fuel ih =>
    by_cases hlt : 64 * 2 ^ e < need
    · have hsmall : e < 57 := by
        by_contra hnot
        have heq : e = 57 := by omega
        subst heq
        omega
      have hdouble : u64 (64 * 2 ^ e * 2) = 64 * 2 ^ (e + 1) := by
        have hpow : 2 ^ (e + 1) ≤ 2 ^ 57 := Nat.pow_le_pow_right (by decide) hsmall
        rw [mul_assoc, ← pow_succ]
        exact u64_of_lt (by omega)
      obtain ⟨e', hle, he', hleast, hrun⟩ := ih (e := e + 1) (by omega) (by omega)
      refine ⟨e', by omega, he', ?_, by rw [growLoop, if_pos hlt, hdouble, hrun]⟩
      intro k hk
      rcases Nat.eq_or_lt_of_le hk with rfl | hlater
      · omega
      · exact hleast k hlater
    · refine ⟨e, Nat.le_refl e, he, ?_, by rw [growLoop, if_neg hlt]⟩
      intro k hk
      have hpow : 2 ^ e ≤ 2 ^ k := Nat.pow_le_pow_right (by decide) hk
      omega

/-- The capacity of the buffer that a write needs, if the present one is too small. -/
def newCapacity (need : ℕ) (v : Vnode) : Option ℕ :=
  if need ≤ v.capacity then none
  else growLoop need 64 (if v.capacity = 0 then 64 else v.capacity)

def granted (alloc : NmAlloc) (need : ℕ) (v : Vnode) : Bool :=
  match newCapacity need v with
  | none => true
  | some cap => (alloc cap).isSome

theorem newCapacity_spec {need : ℕ} {v : Vnode} (h : Buffered v) (hneed : need ≤ 2 ^ 63)
    (hlarge : ¬ need ≤ v.capacity) :
    ∃ e ≤ 57, (∀ k, need ≤ 64 * 2 ^ k ↔ e ≤ k) ∧ newCapacity need v = some (64 * 2 ^ e) := by
  rw [newCapacity, if_neg hlarge]
  rcases h.capacity with hzero | ⟨e, he, hcap⟩
  · rw [if_pos hzero]
    obtain ⟨e', -, he', hleast, hrun⟩ :=
      growLoop_spec (Nat.zero_le 57) hneed (show 57 - 0 < 64 by decide)
    exact ⟨e', he', fun k => hleast k (Nat.zero_le k), hrun⟩
  · have hne : v.capacity ≠ 0 := by
      have hpos := Nat.two_pow_pos e
      omega
    rw [if_neg hne, hcap]
    obtain ⟨e', hle, he', hleast, hrun⟩ := growLoop_spec he hneed (show 57 - e < 64 by omega)
    refine ⟨e', he', fun k => ?_, hrun⟩
    by_cases hk : e ≤ k
    · exact hleast k hk
    · have hpow : 2 ^ k ≤ 2 ^ e := Nat.pow_le_pow_right (by decide) (by omega)
      omega

/-- What `tmpfs_reserve` returns: the same bytes in a buffer that is large enough, or an error
and the old state. -/
inductive Reserves (alloc : NmAlloc) (i : NodeRef) (need : ℕ) (t : Tmpfs) : ℤ × Tmpfs → Prop where
  | refused (hnot : granted alloc need (t.nodes i) = false) :
      Reserves alloc i need t (nmErr nmEnomem, t)
  | reserved (hgranted : granted alloc need (t.nodes i) = true) (data : Option (ℕ → Byte))
      (capacity : ℕ) (hneed : need ≤ capacity)
      (hbuffered : Buffered { t.nodes i with data := data, capacity := capacity })
      (hbytes : bytesOf { t.nodes i with data := data, capacity := capacity } =
        bytesOf (t.nodes i)) :
      Reserves alloc i need t
        (0, t.setNode i { t.nodes i with data := data, capacity := capacity })

theorem setNode_self (i : NodeRef) (t : Tmpfs) : t.setNode i (t.nodes i) = t := by
  simp [setNode]

theorem tmpfsReserve_spec {fuel : ℕ} (hfuel : 64 ≤ fuel) (alloc : NmAlloc) {i : NodeRef} (need : ℕ)
    {t : Tmpfs} (h : Buffered (t.nodes i)) (hneed : need ≤ 2 ^ 63) :
    ∃ r, t.tmpfsReserve fuel alloc i need = some r ∧ Reserves alloc i need t r := by
  unfold tmpfsReserve
  by_cases hfits : need ≤ (t.nodes i).capacity
  · refine ⟨(0, t), by simp only [hfits, if_true], ?_⟩
    have hreserved : Reserves alloc i need t (0, t.setNode i (t.nodes i)) :=
      .reserved (by simp [granted, newCapacity, hfits]) (t.nodes i).data (t.nodes i).capacity hfits
        h rfl
    rwa [setNode_self] at hreserved
  · obtain ⟨e, he, hleast, hcap⟩ := newCapacity_spec h hneed hfits
    have hge : need ≤ 64 * 2 ^ e := (hleast e).mpr (Nat.le_refl e)
    have hgrow := hcap
    rw [newCapacity, if_neg hfits] at hgrow
    simp only [hfits, if_false, growLoop_mono hgrow hfuel]
    cases halloc : alloc (64 * 2 ^ e) with
    | none => exact ⟨_, rfl, .refused (by simp [granted, hcap, halloc])⟩
    | some newBuf =>
      refine ⟨_, rfl, .reserved (by simp [granted, hcap, halloc]) _ _ hge ?_ ?_⟩
      · refine ⟨?_, .inr ⟨e, he, rfl⟩, fun _ => rfl⟩
        have hold := h.fits
        dsimp only
        omega
      · unfold bytesOf frontOf
        apply map_congr_left
        intro k hk
        have hlt : k < (t.nodes i).size := mem_range.mp hk
        cases hdata : (t.nodes i).data <;> simp [hlt]

/-! ## The table -/

def nodeAt (k : ℕ) : NodeRef := ⟨(k + 1) % 512, Nat.mod_lt _ (by decide)⟩

def nodeOf : Target → NodeRef
  | .root => 0
  | .file k => nodeAt k

def siblings (n : ℕ) : List NodeRef := (range n).reverse.map nodeAt

/-- A vnode that holds the file of index `k`. -/
structure FileNode (f : List Byte × List Byte) (k : ℕ) (v : Vnode) : Prop where
  type : v.type = .file
  ops : v.ops = true
  name : v.name = f.1
  ino : v.ino = k + 2
  attrs : v.mode = 0o644 ∧ v.uid = 0 ∧ v.gid = 0
  bytes : bytesOf v = f.2
  small : v.size < 2 ^ 63
  buffered : Buffered v

/-- The vnode of the root. -/
structure RootNode (v : Vnode) : Prop where
  type : v.type = .dir
  ops : v.ops = true
  ino : v.ino = 1
  attrs : v.mode = 0o755 ∧ v.uid = 0 ∧ v.gid = 0
  size : v.size = 0

/-- The table holds the files. -/
structure Holds (files : List (List Byte × List Byte)) (t : Tmpfs) : Prop where
  count : files.length ≤ maxFiles
  used : ∀ i : NodeRef, (t.nodes i).used = decide (i.val ≤ files.length)
  root : RootNode (t.nodes 0)
  linked : Chain (fun i => (t.nodes i).nextSibling) (t.nodes 0).children (siblings files.length)
  file : ∀ k (hk : k < files.length), FileNode files[k] k (t.nodes (nodeAt k))
  nextIno : t.nextIno = files.length + 2
  distinct : (files.map Prod.fst).Nodup

variable {files : List (List Byte × List Byte)} {t : Tmpfs} {k j n : ℕ}

theorem val_nodeAt (hk : k < 511) : (nodeAt k).val = k + 1 := Nat.mod_eq_of_lt (by omega)

theorem nodeAt_ne_zero (hk : k < 511) : nodeAt k ≠ 0 := by
  intro h
  have hval := congrArg Fin.val h
  rw [val_nodeAt hk] at hval
  cases hval

theorem nodeAt_ne (hk : k < 511) (hj : j < 511) (hne : k ≠ j) : nodeAt k ≠ nodeAt j := by
  intro h
  have hval := congrArg Fin.val h
  rw [val_nodeAt hk, val_nodeAt hj] at hval
  omega

theorem mem_siblings {i : NodeRef} : i ∈ siblings n ↔ ∃ k < n, nodeAt k = i := by
  simp [siblings]

theorem siblings_succ (n : ℕ) : siblings (n + 1) = nodeAt n :: siblings n := by
  simp [siblings, range_succ]

@[simp] theorem length_siblings (n : ℕ) : (siblings n).length = n := by
  simp [siblings]

@[simp] theorem nodes_setNode (i : NodeRef) (v : Vnode) (t : Tmpfs) :
    (t.setNode i v).nodes = update t.nodes i v :=
  rfl

theorem Holds.lt (h : Holds files t) (hk : k < files.length) : k < 511 :=
  Nat.lt_of_lt_of_le hk h.count

/-! ## Lookup -/

theorem nameEq_iff (a b : List Byte) : nameEq a b = true ↔ a = b := by
  induction a generalizing b with
  | nil => cases b <;> simp [nameEq]
  | cons x a ih =>
    cases b with
    | nil => simp [nameEq]
    | cons y b =>
      by_cases hxy : x = y
      · subst hxy
        simp [nameEq, ih]
      · simp [nameEq, hxy]

theorem findSibling_eq (t : Tmpfs) (name : List Byte) (fuel : ℕ) (start : Option NodeRef) :
    t.findSibling name fuel start =
      searchLinks (fun i => nameEq (t.nodes i).name name) (fun i => (t.nodes i).nextSibling) fuel
        start := by
  induction fuel generalizing start with
  | zero => rfl
  | succ fuel ih =>
    cases start with
    | none => rfl
    | some i => rw [findSibling, searchLinks, ih]

/-- The search over the siblings returns a vnode of the name, if there is one. -/
theorem findSibling_spec {start : Option NodeRef} {l : List NodeRef} (name : List Byte) {fuel : ℕ}
    (hchain : Chain (fun i => (t.nodes i).nextSibling) start l) (hfuel : l.length < fuel) :
    (∃ i ∈ l, (t.nodes i).name = name ∧ t.findSibling name fuel start = some (some i)) ∨
      (∀ i ∈ l, (t.nodes i).name ≠ name) ∧ t.findSibling name fuel start = some none := by
  rw [findSibling_eq, hchain.searchLinks _ hfuel]
  cases hfind : l.find? fun i => nameEq (t.nodes i).name name with
  | some i =>
    have hname := find?_some hfind
    exact .inl ⟨i, mem_of_find?_eq_some hfind, (nameEq_iff _ _).mp hname, rfl⟩
  | none =>
    refine .inr ⟨?_, rfl⟩
    intro i hi hname
    exact find?_eq_none.mp hfind i hi ((nameEq_iff _ _).mpr hname)

theorem indexOf_eq_some (h : (files.map Prod.fst).Nodup) (hk : k < files.length) :
    files.findIdx? (fun f => f.1 == files[k].1) = some k := by
  rw [findIdx?_eq_some_iff_getElem]
  refine ⟨hk, by simp, ?_⟩
  intro j hj
  have hne := pairwise_iff_getElem.mp h j k (by simpa using hj.trans hk) (by simpa using hk) hj
  simpa using hne

theorem find?_newest {R : Type*} {node : ℕ → R} {p : R → Bool} {name : List Byte}
    (hnodup : (files.map Prod.fst).Nodup)
    (hp : ∀ k (hk : k < files.length), p (node k) = (files[k].1 == name)) :
    ((range files.length).reverse.map node).find? p =
      (files.findIdx? fun f => f.1 == name).map node := by
  cases hfind : ((range files.length).reverse.map node).find? p with
  | none =>
    have hnone : files.findIdx? (fun f => f.1 == name) = none := by
      rw [findIdx?_eq_none_iff]
      intro f hf
      obtain ⟨k, hk, rfl⟩ := getElem_of_mem hf
      have hnot := find?_eq_none.mp hfind (node k) (by simpa using ⟨k, hk, rfl⟩)
      rw [hp k hk] at hnot
      exact Bool.eq_false_iff.mpr hnot
    rw [hnone]
    rfl
  | some r =>
    have hmem := mem_of_find?_eq_some hfind
    simp only [mem_map, mem_reverse, mem_range] at hmem
    obtain ⟨k, hk, rfl⟩ := hmem
    have hname := find?_some hfind
    rw [hp k hk, beq_iff_eq] at hname
    rw [← hname, indexOf_eq_some hnodup hk]
    rfl

theorem tmpfsLookup_root (h : Holds files t) {fuel : ℕ} (hfuel : 512 ≤ fuel) (name : List Byte) :
    t.tmpfsLookup fuel 0 name = some ((files.findIdx? fun f => f.1 == name).map nodeAt) := by
  have hcount := h.count
  have hlen : (siblings files.length).length < fuel := by
    rw [length_siblings]
    unfold maxFiles at hcount
    omega
  rw [tmpfsLookup, if_neg (by simp [h.root.type]), findSibling_eq, h.linked.searchLinks _ hlen]
  congr 1
  apply find?_newest h.distinct
  intro k hk
  rw [(h.file k hk).name, Bool.eq_iff_iff, nameEq_iff, beq_iff_eq]

theorem tmpfsLookup_file (h : Holds files t) (hk : k < files.length) (fuel : ℕ)
    (name : List Byte) : t.tmpfsLookup fuel (nodeAt k) name = some none := by
  rw [tmpfsLookup, if_pos (by simp [(h.file k hk).type])]

/-! ## Creation -/

theorem allocNode_of_room (h : Holds files t) (hroom : files.length < maxFiles) :
    t.allocNode = (some (nodeAt files.length),
      t.setNode (nodeAt files.length) { t.nodes (nodeAt files.length) with
        used := true, children := none, nextSibling := none, parent := none, data := none
        size := 0, capacity := 0, uid := 0, gid := 0 }) := by
  have hn : files.length < 511 := hroom
  have hfirst : (finRange 512).find? (fun i => !(t.nodes i).used) = some (nodeAt files.length) := by
    rw [find?_eq_some_iff_getElem]
    refine ⟨by simp [h.used, val_nodeAt hn], files.length + 1, by simp; omega, ?_, ?_⟩
    · apply Fin.ext
      simp [val_nodeAt hn]
    · intro j hj
      have hj' : j ≤ files.length := by omega
      simp [h.used, hj']
  unfold allocNode
  rw [hfirst]

theorem allocNode_of_full (h : Holds files t) (hfull : ¬ files.length < maxFiles) :
    t.allocNode = (none, t) := by
  have hnone : (finRange 512).find? (fun i => !(t.nodes i).used) = none := by
    rw [find?_eq_none]
    intro i _
    have hi := i.isLt
    unfold maxFiles at hfull
    have hle : i.val ≤ files.length := by omega
    simp [h.used, hle]
  unfold allocNode
  rw [hnone]

def created (name : List Byte) (n : ℕ) (t : Tmpfs) : Tmpfs :=
  { nodes := update
      (update t.nodes (nodeAt n)
        { used := true, ino := n + 2, type := .file, name := name, uid := 0, gid := 0
          mode := 0o644, parent := some 0, children := none
          nextSibling := (t.nodes 0).children, data := none, size := 0, capacity := 0
          ops := true })
      0 { t.nodes 0 with children := some (nodeAt n) }
    nextIno := n + 3
    tmpfsRoot := t.tmpfsRoot }

theorem tmpfsCreate_root (h : Holds files t) {fuel : ℕ} (hfuel : 512 ≤ fuel) {name : List Byte}
    (hname : name.length ≤ 63) (hnew : files.findIdx? (fun f => f.1 == name) = none) :
    t.tmpfsCreate fuel 0 name .file 0o644 = if files.length < maxFiles then
        some (some (nodeAt files.length), t.created name files.length)
      else some (none, t) := by
  have hcopy : copyName name = name := take_of_length_le hname
  rw [tmpfsCreate, if_neg (by simp [h.root.type]), tmpfsLookup_root h hfuel, hnew]
  dsimp only [Option.map_none]
  by_cases hroom : files.length < maxFiles
  · have hn : files.length < 511 := hroom
    have hne := (nodeAt_ne_zero hn).symm
    have hino : u64 (files.length + 2 + 1) = files.length + 3 := u64_of_lt (by omega)
    rw [if_pos hroom, allocNode_of_room h hroom]
    simp only [setNode, created, h.nextIno, hino, hcopy, update_self, update_of_ne hne, update_idem]
  · rw [if_neg hroom, allocNode_of_full h hroom]

theorem tmpfsCreate_file (h : Holds files t) (hk : k < files.length) (fuel : ℕ)
    (name : List Byte) (type : NodeType) (mode : ℕ) :
    t.tmpfsCreate fuel (nodeAt k) name type mode = some (none, t) := by
  rw [tmpfsCreate, if_pos (by simp [(h.file k hk).type])]

section

variable (h : Holds files t) (name : List Byte) (hroom : files.length < maxFiles)

include h hroom

theorem Holds.nodes_created (hk : k < files.length) :
    (t.created name files.length).nodes (nodeAt k) = t.nodes (nodeAt k) := by
  have hn : files.length < 511 := hroom
  have hk' := h.lt hk
  simp [Tmpfs.created, nodeAt_ne_zero hk', nodeAt_ne hk' hn (by omega)]

theorem Holds.used_created (i : NodeRef) :
    ((t.created name files.length).nodes i).used = decide (i.val ≤ files.length + 1) := by
  have hn : files.length < 511 := hroom
  by_cases hi : i = 0
  · subst hi
    have hroot := h.used 0
    simp at hroot
    simp [Tmpfs.created, hroot]
  · by_cases hi' : i = nodeAt files.length
    · subst hi'
      simp [Tmpfs.created, nodeAt_ne_zero hn, val_nodeAt hn]
    · have hval : i.val ≠ files.length + 1 := by
        intro hval
        exact hi' (Fin.ext (by rw [hval, val_nodeAt hn]))
      have hiff : i.val ≤ files.length ↔ i.val ≤ files.length + 1 := by omega
      simp [Tmpfs.created, hi, hi', h.used, hiff]

theorem Holds.linked_created :
    Chain (fun i => ((t.created name files.length).nodes i).nextSibling)
      ((t.created name files.length).nodes 0).children (siblings (files.length + 1)) := by
  have hne := nodeAt_ne_zero (show files.length < 511 from hroom)
  rw [siblings_succ]
  refine Chain.cons_iff.mpr ⟨by simp [Tmpfs.created], ?_⟩
  have hnext : ((t.created name files.length).nodes (nodeAt files.length)).nextSibling =
      (t.nodes 0).children := by
    simp [Tmpfs.created, hne]
  rw [hnext]
  apply h.linked.congr
  intro i hi
  obtain ⟨k, hk, rfl⟩ := mem_siblings.mp hi
  rw [h.nodes_created name hroom hk]

omit h in
theorem fileNode_created : FileNode (name, []) files.length
    ((t.created name files.length).nodes (nodeAt files.length)) := by
  have hne := nodeAt_ne_zero (show files.length < 511 from hroom)
  refine ⟨?_, ?_, ?_, ?_, ?_, ?_, ?_, ?_, ?_, ?_⟩ <;>
    simp [Tmpfs.created, hne, bytesOf, frontOf]

end

theorem Holds.created (h : Holds files t) {name : List Byte}
    (hroom : files.length < maxFiles)
    (hnew : files.findIdx? (fun f => f.1 == name) = none) :
    Holds (files ++ [(name, [])]) (t.created name files.length) := by
  refine ⟨?_, ?_, ?_, ?_, ?_, ?_, ?_⟩
  · rw [length_append]
    exact hroom
  · intro i
    rw [length_append]
    exact h.used_created name hroom i
  · obtain ⟨htype, hops, hino, hattrs, hsize⟩ := h.root
    exact ⟨by simpa [Tmpfs.created] using htype, by simpa [Tmpfs.created] using hops,
      by simpa [Tmpfs.created] using hino, by simpa [Tmpfs.created] using hattrs,
      by simpa [Tmpfs.created] using hsize⟩
  · rw [length_append]
    exact h.linked_created name hroom
  · intro k hk
    by_cases hlast : k < files.length
    · rw [getElem_append_left hlast, h.nodes_created name hroom hlast]
      exact h.file k hlast
    · have hk' : k = files.length := by
        simp at hk
        omega
      subst hk'
      simp only [getElem_append_right (Nat.le_refl _), Nat.sub_self, getElem_cons_zero]
      exact fileNode_created name hroom
  · simp [Tmpfs.created]
  · exact nodup_names_append h.distinct hnew []

/-! ## Reads -/

variable {f : List Byte × List Byte}

theorem FileNode.length {v : Vnode} (h : FileNode f k v) : f.2.length = v.size := by
  rw [← h.bytes]
  exact length_frontOf _ _

theorem tmpfsRead_file (h : Holds files t) (hk : k < files.length) (offset len : ℕ) :
    t.tmpfsRead (nodeAt k) offset len =
      ((((files[k].2.drop offset).take len).length : ℤ), (files[k].2.drop offset).take len) := by
  have hfile := h.file k hk
  have hsmall := hfile.small
  have hlength := hfile.length
  rw [tmpfsRead]
  dsimp only
  rw [if_neg (by simp [hfile.type])]
  by_cases hend : (t.nodes (nodeAt k)).size ≤ offset
  · rw [if_pos hend, drop_of_length_le (by omega)]
    simp
  · have hbytes := take_drop_frontOf_of_lt len ((t.nodes (nodeAt k)).data.getD fun _ => 0)
      (not_le.mp hend)
    rw [← bytesOf, hfile.bytes] at hbytes
    rw [if_neg hend, hbytes, length_frontOf, i64_of_lt (by omega) (by split <;> omega)]
    rfl

theorem tmpfsRead_root (h : Holds files t) (offset len : ℕ) :
    t.tmpfsRead 0 offset len = (nmErr nmEfail, []) := by
  rw [tmpfsRead]
  dsimp only
  rw [if_pos (by simp [h.root.type])]

/-! ## Writes -/

theorem Holds.update (h : Holds files t) (hk : k < files.length) {v : Vnode}
    (hname : f.1 = files[k].1) (hfile : FileNode f k v) (hused : v.used = true)
    (hnext : v.nextSibling = (t.nodes (nodeAt k)).nextSibling) :
    Holds (files.set k f) (t.setNode (nodeAt k) v) := by
  have hk' := h.lt hk
  have hne := nodeAt_ne_zero hk'
  have hlen : (files.set k f).length = files.length := length_set
  refine ⟨hlen.trans_le h.count, ?_, ?_, ?_, ?_, ?_, ?_⟩
  · intro i
    rw [hlen]
    by_cases hi : i = nodeAt k
    · subst hi
      have hle : k + 1 ≤ files.length := hk
      simp [hused, val_nodeAt hk', hle]
    · simp [hi, h.used]
  · rw [nodes_setNode, update_of_ne hne.symm]
    exact h.root
  · rw [hlen, nodes_setNode, update_of_ne hne.symm]
    apply h.linked.congr
    intro i _
    by_cases hi : i = nodeAt k
    · subst hi
      simpa using hnext
    · simp [hi]
  · intro j hj
    rw [hlen] at hj
    by_cases hjk : j = k
    · subst hjk
      simpa using hfile
    · rw [getElem_set_ne (Ne.symm hjk), nodes_setNode, update_of_ne (nodeAt_ne (h.lt hj) hk' hjk)]
      exact h.file j hj
  · rw [hlen]
    exact h.nextIno
  · rw [names_set hk hname]
    exact h.distinct

theorem Holds.used_nodeAt (h : Holds files t) (hk : k < files.length) :
    (t.nodes (nodeAt k)).used = true := by
  rw [h.used, val_nodeAt (h.lt hk), decide_eq_true_eq]
  exact hk

theorem frontOf_storeBytes {n offset len : ℕ} (src data : ℕ → Byte) (hoffset : offset ≤ n)
    (hn : n < 2 ^ 63) (hend : offset + len < 2 ^ 63) :
    frontOf (max n (offset + len)) (storeBytes offset len src data) =
      overwrite offset (frontOf len src) (frontOf n data) := by
  have hstored : frontOf (max n (offset + (frontOf len src).length))
      (storeBytes offset len src data) = overwrite offset (frontOf len src) (frontOf n data) := by
    apply frontOf_store hoffset
    · intro j hj
      rw [length_frontOf] at hj
      have hsub : u64Sub (offset + j) offset = j := by
        rw [u64Sub_of_le (by omega) (by omega)]
        omega
      simp [storeBytes, hsub, hj]
    · intro j hj hout
      rw [length_frontOf] at hout
      have hsub : ¬ u64Sub j offset < len := by
        unfold u64Sub u64
        omega
      simp [storeBytes, hsub]
  rwa [length_frontOf] at hstored

theorem bytesOf_store {v : Vnode} (h : Buffered v) {offset len : ℕ} (src : ℕ → Byte)
    (hsmall : v.size < 2 ^ 63) (hfits : offset + len ≤ v.capacity) (hend : offset + len < 2 ^ 63) :
    bytesOf { v with
        data := v.data.map (storeBytes offset len src), size := max v.size (offset + len) } =
      overwrite offset (frontOf len src) (padTo offset (v.data.getD fun _ => 0) (bytesOf v)) := by
  have hmax : max (max v.size offset) (offset + len) = max v.size (offset + len) := by omega
  unfold bytesOf
  rw [padTo_frontOf]
  cases hdata : v.data with
  | none =>
    -- There is no buffer, so that nothing is stored and the file is empty.
    have hcapacity : v.capacity = 0 := by
      by_contra hne
      simpa [hdata] using h.present hne
    have hsize := h.fits
    obtain ⟨rfl, rfl⟩ : offset = 0 ∧ len = 0 := by omega
    simp [overwrite, frontOf, show v.size = 0 by omega]
  | some data =>
    have hstored := frontOf_storeBytes src data (Nat.le_max_right v.size offset)
      (by omega) hend
    rw [hmax] at hstored
    simpa using hstored

/-- A file whose vnode changes in its buffer and size only. -/
theorem FileNode.rebuffered {v : Vnode} {data : Option (ℕ → Byte)} {capacity size : ℕ}
    {bytes : List Byte} (h : FileNode f k v)
    (hbytes : bytesOf { v with data := data, capacity := capacity, size := size } = bytes)
    (hsmall : size < 2 ^ 63)
    (hbuffered : Buffered { v with data := data, capacity := capacity, size := size }) :
    FileNode (f.1, bytes) k { v with data := data, capacity := capacity, size := size } :=
  ⟨h.type, h.ops, h.name, h.ino, h.attrs, hbytes, hsmall, hbuffered⟩

/-- A write that is granted its buffer overwrites the bytes of the file; a gap before it holds
what the buffer held. A write that is not granted it fails without a trace. -/
theorem tmpfsWrite_gap (h : Holds files t) (hk : k < files.length) {fuel : ℕ} (hfuel : 64 ≤ fuel)
    (alloc : NmAlloc) (src : ℕ → Byte) {offset len : ℕ} (hend : offset + len < 2 ^ 63) :
    (granted alloc (offset + len) (t.nodes (nodeAt k)) = true ∧ ∃ (v : Vnode) (t' : Tmpfs),
        t.tmpfsReserve fuel alloc (nodeAt k) (offset + len) = some (0, t.setNode (nodeAt k) v) ∧
        (0 < offset + len → v.data.isSome) ∧
        t.tmpfsWrite fuel alloc (nodeAt k) src offset len = some ((len : ℤ), t') ∧
        Holds (files.set k (files[k].1, overwrite offset (frontOf len src)
          (padTo offset (v.data.getD fun _ => 0) files[k].2))) t') ∨
    (granted alloc (offset + len) (t.nodes (nodeAt k)) = false ∧
      t.tmpfsWrite fuel alloc (nodeAt k) src offset len = some (nmErr nmEfail, t)) := by
  have hfile := h.file k hk
  have hneed : u64 (offset + len) = offset + len := u64_of_lt (by omega)
  obtain ⟨r, hreserve, hspec⟩ :=
    tmpfsReserve_spec hfuel alloc (offset + len) hfile.buffered (by omega)
  unfold tmpfsWrite
  rw [if_neg (by simp [hfile.type]), hneed, hreserve]
  cases hspec with
  | refused hnot => exact .inr ⟨hnot, rfl⟩
  | reserved hgranted data capacity hcap hbuffered hbytes =>
    have hsmall := hfile.small
    have hfits : (t.nodes (nodeAt k)).size ≤ capacity := hbuffered.fits
    have hstore := bytesOf_store hbuffered src hsmall hcap hend
    rw [hbytes, hfile.bytes] at hstore
    have hmax : (if offset + len > (t.nodes (nodeAt k)).size then offset + len
        else (t.nodes (nodeAt k)).size) = max (t.nodes (nodeAt k)).size (offset + len) := by
      split <;> omega
    refine .inl ⟨hgranted, _, _, rfl, fun hpos => hbuffered.present (by dsimp only; omega), ?_,
      h.update hk rfl (hfile.rebuffered hstore (Nat.max_lt.mpr ⟨hsmall, hend⟩)
        ⟨?_, hbuffered.capacity, ?_⟩) (h.used_nodeAt hk) rfl⟩
    · dsimp only
      rw [if_neg (by simp), nodes_setNode, update_self, hmax, i64_of_lt (by omega) (by omega)]
      simp [setNode]
    · dsimp only
      omega
    · intro hne
      simpa using hbuffered.present hne

theorem tmpfsWrite_file (h : Holds files t) (hk : k < files.length) {fuel : ℕ} (hfuel : 64 ≤ fuel)
    (alloc : NmAlloc) (src : ℕ → Byte) {offset len : ℕ} (hoffset : offset ≤ files[k].2.length)
    (hend : offset + len < 2 ^ 63) :
    (granted alloc (offset + len) (t.nodes (nodeAt k)) = true ∧
      ∃ t', t.tmpfsWrite fuel alloc (nodeAt k) src offset len = some ((len : ℤ), t') ∧
        Holds (files.set k (files[k].1, overwrite offset (frontOf len src) files[k].2)) t') ∨
    (granted alloc (offset + len) (t.nodes (nodeAt k)) = false ∧
      t.tmpfsWrite fuel alloc (nodeAt k) src offset len = some (nmErr nmEfail, t)) := by
  rcases tmpfsWrite_gap h hk hfuel alloc src hend with ⟨hgranted, v, t', -, -, hcall, hfiles⟩ | hnot
  · rw [padTo_of_le _ hoffset] at hfiles
    exact .inl ⟨hgranted, t', hcall, hfiles⟩
  · exact .inr hnot

theorem tmpfsWrite_root (h : Holds files t) (fuel : ℕ) (alloc : NmAlloc) (src : ℕ → Byte)
    (offset len : ℕ) : t.tmpfsWrite fuel alloc 0 src offset len = some (nmErr nmEfail, t) := by
  rw [tmpfsWrite, if_pos (by simp [h.root.type])]

/-! ## Status and mount -/

theorem tmpfsStat_root (h : Holds files t) : t.tmpfsStat 0 = ⟨1, 0, 0o755, 0, 0, 1, 0⟩ := by
  obtain ⟨hmode, huid, hgid⟩ := h.root.attrs
  simp [tmpfsStat, h.root.ino, h.root.size, hmode, huid, hgid, u64]

theorem tmpfsStat_file (h : Holds files t) (hk : k < files.length) :
    t.tmpfsStat (nodeAt k) =
      ⟨k + 2, files[k].2.length, 0o644, 0, 0, 1, (files[k].2.length + 511) / 512⟩ := by
  have hfile := h.file k hk
  have hsmall := hfile.small
  obtain ⟨hmode, huid, hgid⟩ := hfile.attrs
  have hblocks : u64 ((t.nodes (nodeAt k)).size + 511) = (t.nodes (nodeAt k)).size + 511 :=
    u64_of_lt (by omega)
  simp [tmpfsStat, hfile.ino, hfile.length, hmode, huid, hgid, hblocks]

theorem tmpfsMountRoot_holds (t : Tmpfs) : ∃ t', t.tmpfsMountRoot = (some 0, t') ∧ Holds [] t' := by
  have hfirst : (finRange 512).find?
      (fun i => !(({ t.nodes i with used := false } : Vnode)).used) = some 0 := by
    rw [find?_eq_some_iff_getElem]
    refine ⟨rfl, 0, by simp, by simp, ?_⟩
    intro j hj
    omega
  unfold tmpfsMountRoot allocNode
  dsimp only
  rw [hfirst]
  refine ⟨_, rfl, ?_⟩
  refine ⟨by simp [maxFiles], ?_, ?_, ?_, by simp, rfl, by simp⟩
  · intro i
    by_cases hi : i = 0
    · subst hi
      simp [setNode]
    · have hpos : ¬ i.val ≤ 0 := by
        intro hle
        exact hi (Fin.ext (by simpa using hle))
      simp [setNode, hi]
  · refine ⟨?_, ?_, ?_, ?_, ?_⟩ <;> simp [setNode]
  · simp [setNode, siblings]

end NeverMind.Tmpfs
