import NeverMind.Verification.Fs.Agreement
import NeverMind.Verification.Fs.Steps
import NeverMind.Verification.Fs.Tree

/-! # Opens that fail

An open of a missing file with `NM_O_CREAT` creates the file before it looks for a descriptor. If
there is none, the call fails and the file stays. -/

namespace NeverMind

open Option List

namespace Vfs

variable {T R V : Type*} {fs : Filesystem T R} {s s' : Vfs T R} {fuel flags : ℕ}

/-! ## Paths and their parents -/

theorem lookupAll_append (nodes : T) (cur : R) (front back : List (List Byte)) :
    lookupAll fs fuel nodes cur (front ++ back) = match lookupAll fs fuel nodes cur front with
      | none => none
      | some none => some none
      | some (some next) => lookupAll fs fuel nodes next back := by
  induction front generalizing cur with
  | nil => rfl
  | cons part parts ih =>
    rw [cons_append, lookupAll, lookupAll]
    cases fs.lookup fuel cur part nodes with
    | none => rfl
    | some found =>
      cases found with
      | none => rfl
      | some next => exact ih next

theorem lookupAll_singleton (nodes : T) (cur : R) (part : List Byte) :
    lookupAll fs fuel nodes cur [part] = fs.lookup fuel cur part nodes := by
  rw [lookupAll]
  cases fs.lookup fuel cur part nodes with
  | none => rfl
  | some found => cases found <;> rfl

theorem copyName_of_mem {path part : List Byte} {parts : List (List Byte)}
    (h : fsPathSplit path 16 = some parts) (hpart : part ∈ parts) : copyName part = part := by
  rw [fsPathSplit_eq path (by decide)] at h
  split at h
  · obtain rfl := some.inj h
    obtain ⟨c, -, rfl⟩ := mem_map.mp hpart
    exact take_of_length_le (length_take_le _ _)
  · cases h

/-- The parts of a path that does not resolve and has a parent. -/
theorem parts_of_missing {path : List Byte} {dir : R} {leaf : List Byte}
    (hmissing : s.resolvePath fs fuel path false = some none)
    (hparent : s.resolvePath fs fuel path true = some (some (dir, leaf))) :
    ∃ root front last, fsPathSplit path 16 = some (front ++ [last]) ∧ leaf = copyName last ∧
      lookupAll fs fuel s.nodes root front = some (some dir) ∧
      lookupAll fs fuel s.nodes root (front ++ [last]) = some none := by
  unfold resolvePath at hmissing hparent
  cases hroot : s.rootVnode with
  | none =>
    rw [hroot] at hparent
    cases hparent
  | some root =>
    rw [hroot] at hmissing hparent
    dsimp only at hmissing hparent
    split at hparent
    · cases hparent
    · rename_i habsolute
      rw [if_neg habsolute] at hmissing
      cases hsplit : fsPathSplit path 16 with
      | none =>
        rw [hsplit] at hparent
        cases hparent
      | some parts =>
        rw [hsplit] at hmissing hparent
        cases parts with
        | nil => cases hmissing
        | cons part parts =>
          obtain ⟨front, last, hall⟩ : ∃ front last, part :: parts = front ++ [last] :=
            ⟨_, _, (dropLast_append_getLast (cons_ne_nil part parts)).symm⟩
          simp only [hall, if_true, Bool.false_eq_true, if_false, dropLast_concat,
            getLastD_concat, map_eq_some_iff] at hmissing hparent
          obtain ⟨_, hwalk, node, rfl, hnode⟩ := hparent
          obtain ⟨rfl, rfl⟩ := Prod.mk.inj hnode
          obtain ⟨_, hwhole, hnone⟩ := hmissing
          rw [map_eq_none_iff.mp hnone] at hwhole
          exact ⟨root, front, last, congrArg some hall, rfl, hwalk, hwhole⟩

theorem lookup_leaf {path : List Byte} {dir : R} {leaf : List Byte}
    (hmissing : s.resolvePath fs fuel path false = some none)
    (hparent : s.resolvePath fs fuel path true = some (some (dir, leaf))) :
    fs.lookup fuel dir leaf s.nodes = some none := by
  obtain ⟨root, front, last, hsplit, rfl, hwalk, hwhole⟩ := parts_of_missing hmissing hparent
  rw [lookupAll_append, hwalk] at hwhole
  dsimp only at hwhole
  rw [lookupAll_singleton] at hwhole
  rw [copyName_of_mem hsplit (by simp)]
  exact hwhole

/-! ## The descriptor -/

theorem openVnode_full (hfull : ∀ i, (s.fdTable i).used = true) (node : R) (flags : ℕ) :
    s.openVnode fs node flags = (nmErr nmEfail, s) := by
  obtain ⟨hopen, -⟩ | ⟨i, hfree, -⟩ := openVnode_cases fs node flags s
  · exact hopen
  · rw [hfull i] at hfree
    cases hfree

theorem openVnode_free (hopens : ∀ r flags t, fs.openNode r flags t = 0) {node : R}
    (hops : fs.hasOps node s.nodes = true) (hfree : ∃ i, (s.fdTable i).used = false) (flags : ℕ) :
    0 ≤ (s.openVnode fs node flags).1 := by
  obtain ⟨-, hfull⟩ | ⟨i, -, -, ⟨hfailed, -⟩ | ⟨-, hopen⟩⟩ := openVnode_cases fs node flags s
  · obtain ⟨i, hi⟩ := hfree
    rw [hfull hops i] at hi
    cases hi
  · exact absurd (hopens node flags s.nodes) hfailed
  · rw [hopen]
    exact Int.natCast_nonneg _

theorem openVnode_failed (hopens : ∀ r flags t, fs.openNode r flags t = 0) (node : R) (flags : ℕ)
    (hfailed : (s.openVnode fs node flags).1 < 0) : (s.openVnode fs node flags).2 = s := by
  obtain ⟨hopen, -⟩ | ⟨i, -, -, ⟨hnot, -⟩ | ⟨-, hopen⟩⟩ := openVnode_cases fs node flags s
  · rw [hopen]
  · exact absurd (hopens node flags s.nodes) hnot
  · rw [hopen] at hfailed
    exact absurd hfailed (Int.not_lt.mpr (Int.natCast_nonneg _))

/-! ## Opens -/

/-- The files of a file system as the table of its vnodes has them, and the directories in which
one more can be made. -/
structure FileTable (T R V : Type*) where
  fs : Filesystem T R
  files : T → R → Option V
  CanCreate : R → T → Prop

/-- A creation of a missing file makes it exactly if there is room, and changes nothing if not. -/
structure FileTable.Lawful (v : FileTable T R V) : Prop where
  opens : ∀ r flags t, v.fs.openNode r flags t = 0
  made : ∀ {fuel dir leaf r t t'}, v.fs.create fuel dir leaf .file 0o644 t = some (some r, t') →
      v.fs.hasOps r t' = true ∧ v.files t' ≠ v.files t
  refused : ∀ {fuel dir leaf t t'},
    v.fs.create fuel dir leaf .file 0o644 t = some (none, t') → t' = t
  creates : ∀ {fuel dir leaf t}, v.fs.lookup fuel dir leaf t = some none →
    ((∃ r t', v.fs.create fuel dir leaf .file 0o644 t = some (some r, t')) ↔ v.CanCreate dir t)

/-- An open that fails leaves the files and the descriptors. -/
def FailsCleanly (v : FileTable T R V) (fuel : ℕ) (path : Option (List Byte)) (flags : ℕ)
    (s : Vfs T R) : Prop :=
  ∀ ret s', s.fsOpen v.fs fuel path flags = some (ret, s') → ret < 0 →
    s'.fdTable = s.fdTable ∧ v.files s'.nodes = v.files s.nodes

/-- The open of a missing file that can be created, with every descriptor in use. -/
def Strands (v : FileTable T R V) (fuel : ℕ) (path : Option (List Byte)) (flags : ℕ)
    (s : Vfs T R) : Prop :=
  flags &&& nmOCreat ≠ 0 ∧ (∀ i, (s.fdTable i).used = true) ∧ ∃ p dir leaf, path = some p ∧
    s.resolvePath v.fs fuel p false = some none ∧
    s.resolvePath v.fs fuel p true = some (some (dir, leaf)) ∧ v.CanCreate dir s.nodes

variable {v : FileTable T R V}

theorem fsOpen_failed (hlaw : v.Lawful) {path : Option (List Byte)} {ret : ℤ}
    (hcall : s.fsOpen v.fs fuel path flags = some (ret, s')) (hfailed : ret < 0) :
    s' = s ∨ Strands v fuel path flags s := by
  obtain ⟨-, rfl⟩ | ⟨node, hopen⟩ |
    ⟨p, dir, leaf, made, nodes, rfl, hcreat, hmissing, hparent, hmake, hdone⟩ := fsOpen_cases hcall
  · exact .inl rfl
  · have hsame := openVnode_failed (s := s) hlaw.opens node flags
    rw [hopen] at hsame
    exact .inl (hsame hfailed)
  · obtain ⟨rfl, -, rfl⟩ | ⟨node, rfl, hopen⟩ := hdone
    · exact .inl (by rw [hlaw.refused hmake])
    · have hroom := (hlaw.creates (lookup_leaf hmissing hparent)).mp ⟨node, nodes, hmake⟩
      refine .inr ⟨hcreat, ?_, p, dir, leaf, rfl, hmissing, hparent, hroom⟩
      by_contra hfree
      have hret := openVnode_free hlaw.opens (s := { s with nodes := nodes })
        (hlaw.made hmake).1 (by simpa using hfree) flags
      rw [hopen] at hret
      dsimp only at hret
      omega

theorem Strands.fsOpen (hlaw : v.Lawful) {path : Option (List Byte)}
    (h : Strands v fuel path flags s) :
    ∃ nodes, s.fsOpen v.fs fuel path flags = some (nmErr nmEfail, { s with nodes := nodes }) ∧
      v.files nodes ≠ v.files s.nodes := by
  obtain ⟨hcreat, hfull, p, dir, leaf, rfl, hmissing, hparent, hroom⟩ := h
  obtain ⟨node, nodes, hmake⟩ := (hlaw.creates (lookup_leaf hmissing hparent)).mpr hroom
  refine ⟨nodes, ?_, (hlaw.made hmake).2⟩
  unfold Vfs.fsOpen
  dsimp only
  rw [hmissing]
  dsimp only
  rw [if_neg hcreat, hparent]
  dsimp only
  rw [hmake]
  dsimp only
  rw [openVnode_full (s := { s with nodes := nodes }) hfull]

theorem failsCleanly_iff (hlaw : v.Lawful) (path : Option (List Byte)) :
    FailsCleanly v fuel path flags s ↔ ¬ Strands v fuel path flags s := by
  constructor
  · intro hclean hstrands
    obtain ⟨nodes, hcall, hchanged⟩ := hstrands.fsOpen hlaw
    exact hchanged (hclean _ _ hcall (by decide)).2
  · intro hnot ret s' hcall hfailed
    rcases fsOpen_failed hlaw hcall hfailed with rfl | hstrands
    · exact ⟨rfl, rfl⟩
    · exact absurd hstrands hnot

end Vfs

/-! ## The two file systems -/

namespace Tmpfs

variable {t t' : Tmpfs} {fuel : ℕ} {dir : NodeRef} {name : List Byte} {type : NodeType} {mode : ℕ}

def files (t : Tmpfs) (i : NodeRef) : Option Vnode :=
  if (t.nodes i).used then some (t.nodes i) else none

def CanCreate (dir : NodeRef) (t : Tmpfs) : Prop :=
  (t.nodes dir).type = .dir ∧ ∃ i, (t.nodes i).used = false

def fileTable : Vfs.FileTable Tmpfs NodeRef Vnode := ⟨filesystem, files, CanCreate⟩

theorem files_tmpfsCreate {i : NodeRef}
    (h : t.tmpfsCreate fuel dir name type mode = some (some i, t')) :
    (t'.nodes i).ops = true ∧ t'.files ≠ t.files := by
  obtain ⟨hnone, -⟩ | ⟨k, hmade, hfree, hnodes⟩ := tmpfsCreate_nodes h
  · cases hnone
  · obtain rfl := some.inj hmade
    obtain ⟨first, hi⟩ := hnodes i
    rw [if_pos rfl] at hi
    refine ⟨by rw [hi]; rfl, ?_⟩
    intro hsame
    have hentry := congrFun hsame i
    unfold Used at hfree
    rw [files, files, if_neg hfree, hi] at hentry
    cases hentry

theorem tmpfsCreate_iff (hmissing : t.tmpfsLookup fuel dir name = some none) :
    (∃ i t', t.tmpfsCreate fuel dir name type mode = some (some i, t')) ↔ CanCreate dir t := by
  unfold tmpfsCreate CanCreate
  by_cases hdir : (t.nodes dir).type = .dir
  · rw [if_neg (not_not_intro hdir), hmissing]
    obtain ⟨halloc, hused⟩ | ⟨i, hfree, halloc⟩ := allocNode_cases t
    · rw [halloc]
      unfold Used at hused
      simp [hused]
    · rw [halloc]
      unfold Used at hfree
      refine ⟨fun _ => ⟨hdir, i, by simpa using hfree⟩, fun _ => ⟨i, _, rfl⟩⟩
  · rw [if_pos hdir]
    simp [hdir]

theorem fileTable_lawful : fileTable.Lawful where
  opens := fun _ _ _ => rfl
  made := by
    intro fuel dir leaf i t t' hmake
    dsimp only [fileTable, filesystem] at hmake ⊢
    exact files_tmpfsCreate hmake
  refused := by
    intro fuel dir leaf t t' hmake
    dsimp only [fileTable, filesystem] at hmake
    obtain ⟨-, hsame⟩ | ⟨i, hmade, -⟩ := tmpfsCreate_nodes hmake
    · exact hsame
    · cases hmade
  creates := by
    intro fuel dir leaf t hmissing
    dsimp only [fileTable, filesystem] at hmissing ⊢
    exact tmpfsCreate_iff hmissing

end Tmpfs

namespace Ext2

variable {e e' : Ext2} {fuel : ℕ} {dir : Ext2Ref} {name : List Byte} {type : NodeType} {mode : ℕ}
  {malloc : ℕ → NmAlloc}

def files (e : Ext2) : Ext2Ref → Option (Ext2Vnode × Ext2InodeMeta)
  | .root => some (e.ext2Root, e.inodeMeta e.ext2Root.ino)
  | .node i =>
    if i.val < e.ext2NodeCursor then
      some (e.ext2Nodes i, e.inodeMeta (e.ext2Nodes i).ino)
    else none

def CanCreate (dir : Ext2Ref) (e : Ext2) : Prop :=
  (e.vnode dir).type = .dir ∧ e.ext2NodeCursor < 256

def fileTable (malloc : ℕ → NmAlloc) :
    Vfs.FileTable Ext2 Ext2Ref (Ext2Vnode × Ext2InodeMeta) :=
  ⟨filesystem malloc, files, CanCreate⟩

/-- A creation that succeeds hands out the next vnode, with operations; one that fails changes
nothing. -/
theorem ext2Create_cases {made : Option Ext2Ref}
    (h : e.ext2Create malloc fuel dir name type mode = some (made, e')) :
    made = none ∧ e' = e ∨ ∃ i : Fin 256, made = some (.node i) ∧ i.val = e.ext2NodeCursor ∧
        e'.ext2NodeCursor = i.val + 1 ∧ (e'.vnode (.node i)).ops = true := by
  unfold ext2Create at h
  split at h
  · cases h
    exact .inl ⟨rfl, rfl⟩
  · split at h
    · rename_i hcursor
      split at h
      · cases h
      · cases h
        exact .inl ⟨rfl, rfl⟩
      · obtain ⟨rfl, rfl⟩ := Prod.mk.inj (some.inj h)
        have hnext : u32 (e.ext2NodeCursor + 1) = e.ext2NodeCursor + 1 := u32_of_lt (by omega)
        refine .inr ⟨⟨e.ext2NodeCursor, hcursor⟩, rfl, rfl, ?_, ?_⟩
        · rw [ext2NodeCursor_setVnode]
          split <;> simpa [setMeta] using hnext
        · rw [vnode_setVnode]
          split
          · rename_i hdir
            rw [← hdir]
            split <;> simp [vnode_setVnode, newVnode]
          · split <;> simp [vnode_setVnode, newVnode]
    · cases h
      exact .inl ⟨rfl, rfl⟩

theorem ext2Create_iff (hmissing : e.ext2Lookup fuel dir name = some none) :
    (∃ r e', e.ext2Create malloc fuel dir name type mode = some (some r, e')) ↔
      CanCreate dir e := by
  unfold ext2Create CanCreate
  by_cases hdir : (e.vnode dir).type = .dir
  · rw [if_neg (not_not_intro hdir)]
    by_cases hcursor : e.ext2NodeCursor < 256
    · rw [dif_pos hcursor, hmissing]
      exact ⟨fun _ => ⟨hdir, hcursor⟩, fun _ => ⟨_, _, rfl⟩⟩
    · rw [dif_neg hcursor]
      simp [hcursor]
  · rw [if_pos hdir]
    simp [hdir]

theorem fileTable_lawful (malloc : ℕ → NmAlloc) : (fileTable malloc).Lawful where
  opens := fun _ _ _ => rfl
  made := by
    intro fuel dir leaf r e e' hmake
    dsimp only [fileTable, filesystem] at hmake ⊢
    obtain ⟨hnone, -⟩ | ⟨i, hmade, hi, hnext, hops⟩ := ext2Create_cases hmake
    · cases hnone
    · obtain rfl := some.inj hmade
      refine ⟨hops, ?_⟩
      intro hsame
      have hentry := congrFun hsame (.node i)
      rw [files, files, if_pos (by omega), if_neg (by omega)] at hentry
      cases hentry
  refused := by
    intro fuel dir leaf e e' hmake
    dsimp only [fileTable, filesystem] at hmake
    obtain ⟨-, hsame⟩ | ⟨i, hmade, -⟩ := ext2Create_cases hmake
    · exact hsame
    · cases hmade
  creates := by
    intro fuel dir leaf e hmissing
    dsimp only [fileTable, filesystem] at hmissing ⊢
    exact ext2Create_iff hmissing

end Ext2

namespace Vfs

/-- In every state, an open that fails leaves the files and the descriptors as they are, exactly
if it is not the open of a missing file that can be created with every descriptor in use. -/
theorem fsOpen_fails_cleanly_iff (fuel : ℕ) (path : Option (List Byte)) (flags : ℕ) :
    (∀ s, FailsCleanly Tmpfs.fileTable fuel path flags s ↔
      ¬ Strands Tmpfs.fileTable fuel path flags s) ∧
    ∀ malloc s, FailsCleanly (Ext2.fileTable malloc) fuel path flags s ↔
      ¬ Strands (Ext2.fileTable malloc) fuel path flags s :=
  ⟨fun _ => failsCleanly_iff Tmpfs.fileTable_lawful path,
    fun malloc _ => failsCleanly_iff (Ext2.fileTable_lawful malloc) path⟩

def allOpen : Vfs Tmpfs NodeRef :=
  runCalls (nextOn Tmpfs.filesystem 512)
    (replicate 64 (.openFile (some [47, 97]) nmOCreat)) (atBoot.mountedOn Tmpfs.filesystem).2

/-- The open of `/b` then fails and creates it. -/
theorem full_table_strands_file :
    Reached Tmpfs.filesystem atBoot allOpen ∧
      ¬ FailsCleanly Tmpfs.fileTable 512 (some [47, 98]) nmOCreat allOpen := by
  refine ⟨reached_run (Reached.mount (.init .boot)) 512 _, ?_⟩
  obtain ⟨hfull, hmissing, hparent, hroot, hroom⟩ :
      (∀ i, (allOpen.fdTable i).used = true) ∧
        allOpen.resolvePath Tmpfs.filesystem 512 [47, 98] false = some none ∧
        allOpen.resolvePath Tmpfs.filesystem 512 [47, 98] true = some (some (0, [98])) ∧
        (allOpen.nodes.nodes 0).type = .dir ∧ (allOpen.nodes.nodes 2).used = false := by
    decide +kernel
  generalize allOpen = s at hfull hmissing hparent hroot hroom ⊢
  rw [failsCleanly_iff Tmpfs.fileTable_lawful, not_not]
  exact ⟨by decide, hfull, [47, 98], 0, [98], rfl, hmissing, hparent, hroot, 2, hroom⟩

end Vfs

end NeverMind
