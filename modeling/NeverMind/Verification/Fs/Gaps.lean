import NeverMind.Library.Written
import NeverMind.Verification.Fs.Names
import NeverMind.Verification.Fs.Tree

/-! # Gaps in files

A write past the end of a file leaves a gap, which holds what the buffer held. Stores that were
filled differently agree on what was written. -/

namespace NeverMind

open Option List Function

namespace FileStore

def withBytes (k : ℕ) (bytes : List Byte) (a : FileStore) : FileStore :=
  { a with files := a.files.set k ((a.files.getD k ([], [])).1, bytes) }

/-- A granted write, with the gap before it filled. -/
def writeFilled (fill : ℕ → Byte) (fd : ℤ) (buf : Option (ℕ → Byte)) (len : ℕ) (a : FileStore) :
    ℤ × FileStore :=
  match a.handle fd, buf with
  | some (i, ⟨.file k, offset⟩), some src =>
    let bytes := overwrite offset (frontOf len src) (padTo offset fill (a.contents (.file k)))
    (len, (a.withBytes k bytes).setHandle i (some ⟨.file k, offset + len⟩))
  | _, _ => (nmErr nmEfail, a)

/-- Two stores with the same names and descriptors, and files that agree where they were
written. -/
structure Tracks (R : Byte → Byte → Prop) (written : ℕ → ℕ → Bool) (z a : FileStore) : Prop where
  handles : a.handles = z.handles
  names : a.files.map Prod.fst = z.files.map Prod.fst
  file : ∀ k, Agree R (written k) (z.contents (.file k)) (a.contents (.file k))

variable {R : Byte → Byte → Prop} {written : ℕ → ℕ → Bool} {z a : FileStore}

theorem Tracks.files_length (h : Tracks R written z a) : a.files.length = z.files.length := by
  simpa using congrArg length h.names

theorem Tracks.handle (h : Tracks R written z a) (fd : ℤ) : a.handle fd = z.handle fd := by
  unfold FileStore.handle
  rw [h.handles]

theorem Tracks.contents_length (h : Tracks R written z a) (t : Target) :
    (a.contents t).length = (z.contents t).length := by
  cases t with
  | root => rfl
  | file k => exact (h.file k).length

theorem indexOf_eq_names (name : List Byte) (a : FileStore) :
    a.indexOf name = (a.files.map Prod.fst).findIdx? fun n => n == name := by
  rw [indexOf, findIdx?_map]
  rfl

theorem Tracks.find (h : Tracks R written z a) (path : List Byte) : a.find path = z.find path := by
  unfold FileStore.find
  simp only [indexOf_eq_names, h.names]

theorem Tracks.freeHandle (h : Tracks R written z a) : a.freeHandle = z.freeHandle := by
  unfold FileStore.freeHandle
  rw [h.handles]

theorem Tracks.setHandle (h : Tracks R written z a) (i : FileRef) (d : Option Handle) :
    Tracks R written (z.setHandle i d) (a.setHandle i d) := by
  refine ⟨?_, h.names, h.file⟩
  unfold FileStore.setHandle
  rw [h.handles]

theorem Tracks.grant (h : Tracks R written z a) (t : Target) :
    (a.grant t).1 = (z.grant t).1 ∧ Tracks R written (z.grant t).2 (a.grant t).2 := by
  unfold FileStore.grant
  rw [h.freeHandle]
  cases z.freeHandle with
  | none => exact ⟨rfl, h⟩
  | some i => exact ⟨rfl, h.setHandle i _⟩

theorem contents_append (name : List Byte) (a : FileStore) (k : ℕ) :
    contents (.file k) { a with files := a.files ++ [(name, [])] } = a.contents (.file k) := by
  unfold contents
  dsimp only
  rw [getD_eq_getElem?_getD, getD_eq_getElem?_getD, getElem?_append]
  split
  · rfl
  · rename_i hk
    rw [getElem?_eq_none (l := a.files) (by omega)]
    cases k - a.files.length <;> rfl

theorem names_withBytes (k : ℕ) (bytes : List Byte) (a : FileStore) :
    (a.withBytes k bytes).files.map Prod.fst = a.files.map Prod.fst := by
  apply ext_getElem?
  intro j
  by_cases hj : j = k
  · subst hj
    by_cases hk : j < a.files.length
    · simp [withBytes, hk]
    · simp [withBytes, hk]
  · simp [withBytes, getElem?_set_ne (Ne.symm hj)]

theorem contents_withBytes {k : ℕ} (hk : k < a.files.length) (bytes : List Byte) (j : ℕ) :
    (a.withBytes k bytes).contents (.file j) = if j = k then bytes else a.contents (.file j) := by
  unfold contents withBytes
  by_cases hj : j = k
  · subst hj
    simp [hk]
  · simp [hj, getElem?_set_ne (Ne.symm hj)]

theorem Tracks.withBytes (h : Tracks R written z a) {k : ℕ} (hk : k < z.files.length)
    {w : ℕ → Bool} {bytes bytes' : List Byte} (hagree : Agree R w bytes bytes') :
    Tracks R (update written k w) (z.withBytes k bytes) (a.withBytes k bytes') := by
  refine ⟨h.handles, ?_, ?_⟩
  · rw [names_withBytes, names_withBytes, h.names]
  · intro j
    rw [contents_withBytes hk, contents_withBytes (h.files_length ▸ hk)]
    by_cases hj : j = k
    · subst hj
      rw [if_pos rfl, if_pos rfl, update_self]
      exact hagree
    · rw [if_neg hj, if_neg hj, update_of_ne hj]
      exact h.file j

theorem Tracks.addFile (h : Tracks R written z a) (name : List Byte) :
    Tracks R written { z with files := z.files ++ [(name, [])] }
      { a with files := a.files ++ [(name, [])] } := by
  refine ⟨h.handles, ?_, ?_⟩
  · rw [map_append, map_append, h.names]
  · intro k
    rw [contents_append, contents_append]
    exact h.file k

theorem Tracks.openFile (h : Tracks R written z a) (path : Option (List Byte)) (create : Bool) :
    (a.openFile path create).1 = (z.openFile path create).1 ∧
      Tracks R written (z.openFile path create).2 (a.openFile path create).2 := by
  unfold FileStore.openFile
  cases path with
  | none => exact ⟨rfl, h⟩
  | some path =>
    dsimp only
    rw [h.find, h.files_length]
    cases z.find path with
    | some t => exact h.grant t
    | none =>
      dsimp only
      split
      · split
        · exact (h.addFile _).grant _
        · exact ⟨rfl, h⟩
      · exact ⟨rfl, h⟩

theorem Tracks.lseek (h : Tracks R written z a) (fd offset whence : ℤ) :
    (a.lseek fd offset whence).1 = (z.lseek fd offset whence).1 ∧
      Tracks R written (z.lseek fd offset whence).2 (a.lseek fd offset whence).2 := by
  have hbase : ∀ d, a.seekBase d whence = z.seekBase d whence := by
    intro d
    unfold FileStore.seekBase
    rw [h.contents_length]
  unfold FileStore.lseek
  rw [h.handle]
  cases z.handle fd with
  | none => exact ⟨rfl, h⟩
  | some r =>
    dsimp only
    rw [hbase]
    cases z.seekBase r.2 whence with
    | none => exact ⟨rfl, h⟩
    | some base =>
      dsimp only
      split
      · exact ⟨rfl, h.setHandle _ _⟩
      · exact ⟨rfl, h⟩

def seen (written : ℕ → ℕ → Bool) (fd : ℤ) (buf : Bool) (len : ℕ) (a : FileStore) : ℕ → Bool :=
  match a.handle fd, buf with
  | some (_, ⟨.file k, offset⟩), true => fun j =>
    decide (j < (((a.contents (.file k)).drop offset).take len).length) && written k (offset + j)
  | _, _ => fun _ => false

theorem Tracks.read (h : Tracks R written z a) (fd : ℤ) (buf : Bool) (len : ℕ) :
    (a.read fd buf len).1.1 = (z.read fd buf len).1.1 ∧
      Agree R (z.seen written fd buf len) (z.read fd buf len).1.2 (a.read fd buf len).1.2 ∧
      Tracks R written (z.read fd buf len).2 (a.read fd buf len).2 := by
  unfold FileStore.read seen
  rw [h.handle]
  rcases z.handle fd with _ | ⟨i, ⟨_ | k, offset⟩⟩
  · exact ⟨rfl, .nil R, h⟩
  · exact ⟨rfl, .nil R, h⟩
  · cases buf with
    | false => exact ⟨rfl, .nil R, h⟩
    | true =>
      have hslice := (h.file k).slice offset len
      refine ⟨congrArg Nat.cast hslice.length, hslice, ?_⟩
      dsimp only
      rw [hslice.length]
      exact h.setHandle _ _

/-- The positions that are written after a write. -/
def markWritten (written : ℕ → ℕ → Bool) (fd : ℤ) (buf : Option (ℕ → Byte)) (len : ℕ)
    (a : FileStore) : ℕ → ℕ → Bool :=
  match a.handle fd, buf with
  | some (_, ⟨.file k, offset⟩), some _ => update written k fun p =>
    written k p || (decide (offset ≤ p) && decide (p < offset + len))
  | _, _ => written

/-- A write keeps the agreement if the gap before it is filled with related bytes. -/
theorem Tracks.writeFilled (h : Tracks R written z a) (fd : ℤ) (buf : Option (ℕ → Byte))
    (len : ℕ) {fill fill' : ℕ → Byte}
    (hwithin : ∀ i k offset, z.handle fd = some (i, ⟨.file k, offset⟩) → k < z.files.length)
    (hfill : ∀ i k offset src, z.handle fd = some (i, ⟨.file k, offset⟩) → buf = some src →
      ∀ p, (z.contents (.file k)).length ≤ p → p < offset → R (fill p) (fill' p)) :
    (a.writeFilled fill' fd buf len).1 = (z.writeFilled fill fd buf len).1 ∧
      Tracks R (z.markWritten written fd buf len) (z.writeFilled fill fd buf len).2
        (a.writeFilled fill' fd buf len).2 := by
  unfold FileStore.writeFilled markWritten
  rw [h.handle]
  rcases hhandle : z.handle fd with _ | ⟨i, ⟨_ | k, offset⟩⟩
  · exact ⟨rfl, h⟩
  · exact ⟨rfl, h⟩
  · cases buf with
    | none => exact ⟨rfl, h⟩
    | some src =>
      have hpad := (h.file k).padTo (hfill i k offset src hhandle rfl)
      have hstart : offset ≤ (padTo offset fill (z.contents (.file k))).length := by
        rw [length_padTo]
        exact Nat.le_max_right _ _
      have hwrite := hpad.overwrite (frontOf len src) hstart
      rw [length_frontOf] at hwrite
      exact ⟨rfl, (h.withBytes (hwithin i k offset hhandle) hwrite).setHandle _ _⟩

end FileStore

namespace Tmpfs

/-! ## What buffers hold past the end of a file -/

/-- The bytes of a buffer past the end of the file satisfy `P`. -/
def SpareNode (P : Byte → Prop) (v : Vnode) : Prop :=
  ∀ data, v.data = some data → ∀ p, v.size ≤ p → p < 2 ^ 63 → P (data p)

def Spare (P : Byte → Prop) (t : Tmpfs) : Prop :=
  ∀ i, (t.nodes i).used = true → SpareNode P (t.nodes i)

variable {P : Byte → Prop} {t t' : Tmpfs} {fuel : ℕ} {i : NodeRef}

theorem spareNode_of_none {v : Vnode} (h : v.data = none) : SpareNode P v := by
  intro data hdata
  rw [h] at hdata
  cases hdata

theorem Spare.setNode (h : Spare P t) (i : NodeRef) {v : Vnode}
    (hv : v.used = true → SpareNode P v) : Spare P (t.setNode i v) := by
  intro j hj
  rw [nodes_setNode] at hj ⊢
  by_cases hji : j = i
  · subst hji
    rw [update_self] at hj ⊢
    exact hv hj
  · rw [update_of_ne hji] at hj ⊢
    exact h j hj

variable {alloc : NmAlloc} {need : ℕ}

/-- What `tmpfs_reserve` can do to a vnode: a new buffer holds the old bytes up to the end of the
file, and memory after it. -/
theorem tmpfsReserve_cases {ret : ℤ} (hcall : t.tmpfsReserve fuel alloc i need = some (ret, t')) :
    t' = t ∨ ∃ cap newBuf data, alloc cap = some newBuf ∧
      t' = t.setNode i { t.nodes i with data := some data, capacity := cap } ∧
      ∀ p, (t.nodes i).size ≤ p → data p = newBuf p := by
  unfold tmpfsReserve at hcall
  dsimp only at hcall
  split at hcall
  · cases hcall
    exact .inl rfl
  · split at hcall
    · cases hcall
    · rename_i cap _
      split at hcall
      · cases hcall
        exact .inl rfl
      · rename_i newBuf hbuf
        cases hcall
        exact .inr ⟨cap, newBuf, _, hbuf, rfl, fun p hp => if_neg (Nat.not_lt.mpr hp)⟩

theorem Spare.reserve (h : Spare P t) (halloc : ∀ n buf, alloc n = some buf → ∀ p, P (buf p))
    {ret : ℤ} (hcall : t.tmpfsReserve fuel alloc i need = some (ret, t')) : Spare P t' := by
  rcases tmpfsReserve_cases hcall with rfl | ⟨cap, newBuf, data, hbuf, rfl, hrest⟩
  · exact h
  · refine h.setNode i ?_
    intro _ data' hdata p hsize _
    obtain rfl := some.inj hdata
    rw [hrest p hsize]
    exact halloc cap newBuf hbuf p

theorem tmpfsReserve_keeps {ret : ℤ} (hcall : t.tmpfsReserve fuel alloc i need = some (ret, t'))
    (j : NodeRef) :
    (t'.nodes j).used = (t.nodes j).used ∧ (t'.nodes j).size = (t.nodes j).size := by
  rcases tmpfsReserve_cases hcall with rfl | ⟨cap, newBuf, data, hbuf, rfl, hrest⟩
  · exact ⟨rfl, rfl⟩
  · by_cases hj : j = i
    · subst hj
      simp
    · simp [hj]

theorem SpareNode.store {v : Vnode} (h : SpareNode P v) (src : ℕ → Byte) {offset len size : ℕ}
    (hsize : v.size ≤ size) (hend : offset + len ≤ size) :
    SpareNode P { v with data := v.data.map (storeBytes offset len src), size := size } := by
  intro data hdata p hle hp
  obtain ⟨old, hold, rfl⟩ := map_eq_some_iff.mp hdata
  have hle' : size ≤ p := hle
  have hout : ¬ u64Sub p offset < len := by
    rw [u64Sub_of_le (by omega) (by omega)]
    omega
  rw [storeBytes, if_neg hout]
  exact h old hold p (by omega) hp

theorem Spare.write (h : Spare P t) (hused : (t.nodes i).used = true)
    (halloc : ∀ n buf, alloc n = some buf → ∀ p, P (buf p)) {src : ℕ → Byte} {offset len : ℕ}
    (hend : offset + len < 2 ^ 63) {ret : ℤ}
    (hcall : t.tmpfsWrite fuel alloc i src offset len = some (ret, t')) : Spare P t' := by
  unfold tmpfsWrite at hcall
  rw [u64_of_lt (by omega : offset + len < 2 ^ 64)] at hcall
  split at hcall
  · cases hcall
    exact h
  · split at hcall
    · cases hcall
    · rename_i ret' t₁ hreserve
      have hspare := h.reserve halloc hreserve
      split at hcall
      · cases hcall
        exact hspare
      · obtain ⟨-, rfl⟩ := Prod.mk.inj (some.inj hcall)
        have hnode := hspare i ((tmpfsReserve_keeps hreserve i).1.trans hused)
        refine hspare.setNode i fun _ => hnode.store src ?_ ?_
        · dsimp only
          split <;> omega
        · dsimp only
          split <;> omega

theorem Spare.allocNode (h : Spare P t) {made : Option NodeRef}
    (hcall : t.allocNode = (made, t')) : Spare P t' := by
  unfold Tmpfs.allocNode at hcall
  split at hcall
  · cases hcall
    exact h
  · cases hcall
    exact h.setNode _ fun _ => spareNode_of_none rfl

theorem Spare.create (h : Spare P t) {dir : NodeRef} {name : List Byte} {type : NodeType}
    {mode : ℕ} {made : Option NodeRef}
    (hcall : t.tmpfsCreate fuel dir name type mode = some (made, t')) : Spare P t' := by
  obtain ⟨-, rfl⟩ | ⟨i, -, -, hnodes⟩ := tmpfsCreate_nodes hcall
  · exact h
  · intro k hused
    obtain ⟨first, hk⟩ := hnodes k
    rw [hk] at hused ⊢
    by_cases hnew : k = i
    · rw [if_pos hnew]
      exact spareNode_of_none rfl
    · rw [if_neg hnew] at hused ⊢
      exact h k hused

theorem spare_tmpfsMountRoot (P : Byte → Prop) {root : Option NodeRef}
    (hcall : t.tmpfsMountRoot = (root, t')) : Spare P t' := by
  unfold tmpfsMountRoot at hcall
  have hfreed : Spare P { t with
      nodes := fun i => { t.nodes i with used := false }, nextIno := 2 } := by
    intro i hi
    cases hi
  dsimp only at hcall
  split at hcall
  · rename_i t₁ halloc
    have hspare := hfreed.allocNode halloc
    cases hcall
    exact hspare
  · rename_i root t₁ halloc
    have hspare := hfreed.allocNode halloc
    cases hcall
    exact hspare.setNode root (hspare root)

end Tmpfs

namespace Vfs

variable {a : FileStore} {s s' : Vfs Tmpfs NodeRef} {fuel : ℕ} {P : Byte → Prop}

theorem spare_fsOpen (h : Tmpfs.Spare P s.nodes) {path : Option (List Byte)} {flags : ℕ} {ret : ℤ}
    (hcall : s.fsOpen Tmpfs.filesystem fuel path flags = some (ret, s')) :
    Tmpfs.Spare P s'.nodes := by
  rcases nodes_fsOpen hcall with hsame | ⟨dir, leaf, made, hmake⟩
  · rw [hsame]
    exact h
  · dsimp only [Tmpfs.filesystem] at hmake
    exact h.create hmake

theorem spare_mounted (P : Byte → Prop) (s : Vfs Tmpfs NodeRef) :
    Tmpfs.Spare P s.mounted.2.nodes := by
  unfold mounted mountedOn fsMountRoot
  dsimp only [Tmpfs.filesystem]
  split
  · rename_i nodes hmount
    exact Tmpfs.spare_tmpfsMountRoot P hmount
  · rename_i root nodes hmount
    exact Tmpfs.spare_tmpfsMountRoot P hmount

/-- The allocator that never fails and returns memory that holds the given bytes. -/
def giving (memory : ℕ → ℕ → Byte) : NmAlloc := fun n => some (memory n)

theorem granted_giving (memory : ℕ → ℕ → Byte) (need : ℕ) (v : Vnode) :
    Tmpfs.granted (giving memory) need v = true := by
  unfold Tmpfs.granted
  split <;> rfl

/-- A write to an open file fills the gap before it with what the memory held. -/
theorem Refines.fsWrite_fills (h : Refines a s) (hspare : Tmpfs.Spare P s.nodes) (hfuel : 64 ≤ fuel)
    {memory : ℕ → ℕ → Byte} (hmemory : ∀ n p, P (memory n p)) {fd : ℤ} {i : FileRef}
    {k offset len : ℕ} (src : ℕ → Byte) (hsome : a.handle fd = some (i, ⟨.file k, offset⟩))
    (hd : a.handles i = some ⟨.file k, offset⟩) (hend : offset + len < 2 ^ 63) :
    ∃ fill s', s.fsWrite Tmpfs.filesystem fuel (giving memory) fd (some src) len =
        some ((a.writeFilled fill fd (some src) len).1, s') ∧
      Refines (a.writeFilled fill fd (some src) len).2 s' ∧ Tmpfs.Spare P s'.nodes ∧
      ∀ p, (a.contents (.file k)).length ≤ p → p < offset → P (fill p) := by
  have hopened := h.opened hd
  have hk : k < a.files.length := hopened.within
  have hused := h.files.used_nodeAt hk
  have halloc : ∀ n buf, giving memory n = some buf → ∀ p, P (buf p) := by
    intro n buf hbuf
    cases hbuf
    exact hmemory n
  rcases Tmpfs.tmpfsWrite_gap h.files hk hfuel (giving memory) src hend with
    ⟨-, v, t, hreserve, hpresent, hcall, hfiles⟩ | ⟨hrefused, -⟩
  · refine ⟨v.data.getD fun _ => 0, { s with nodes := t }.advance i len, ?_, ?_, ?_, ?_⟩
    · unfold Vfs.fsWrite FileStore.writeFilled
      rw [h.getVnode, hsome]
      dsimp only [map_some, Tmpfs.filesystem, Tmpfs.nodeOf]
      rw [hopened.offset, hcall]
      rfl
    · have hmoved := (h.setNodes hfiles (by simp)).advance (i := i) (d := ⟨.file k, offset⟩) hd hend
      unfold FileStore.writeFilled
      rw [hsome]
      simpa [FileStore.withBytes, contents_file hk, hk] using hmoved
    · rw [nodes_advance]
      exact hspare.write hused halloc hend hcall
    · intro p hp hgap
      -- the gap lies in the reserved buffer, past the end of the file
      obtain ⟨data, hdata⟩ := isSome_iff_exists.mp (hpresent (by omega))
      obtain ⟨hkept, hsize⟩ := Tmpfs.tmpfsReserve_keeps hreserve (Tmpfs.nodeAt k)
      have hnode := hspare.reserve halloc hreserve (Tmpfs.nodeAt k) (hkept.trans hused)
      rw [Tmpfs.nodes_setNode, update_self] at hnode hsize
      rw [contents_file hk, (h.files.file k hk).length] at hp
      rw [hdata]
      exact hnode data hdata p (by omega) (by omega)
  · rw [granted_giving] at hrefused
    cases hrefused

theorem Refines.fsWrite_gap (h : Refines a s) (hspare : Tmpfs.Spare P s.nodes)
    (hfuel : 64 ≤ fuel) {memory : ℕ → ℕ → Byte} (hmemory : ∀ n p, P (memory n p)) (fd : ℤ)
    (buf : Option (ℕ → Byte)) (len : ℕ)
    (hend : ∀ i k offset, a.handle fd = some (i, ⟨.file k, offset⟩) → offset + len < 2 ^ 63) :
    ∃ fill s', s.fsWrite Tmpfs.filesystem fuel (giving memory) fd buf len =
        some ((a.writeFilled fill fd buf len).1, s') ∧
      Refines (a.writeFilled fill fd buf len).2 s' ∧ Tmpfs.Spare P s'.nodes ∧
      ∀ i k offset src, a.handle fd = some (i, ⟨.file k, offset⟩) → buf = some src →
        ∀ p, (a.contents (.file k)).length ≤ p → p < offset → P (fill p) := by
  rcases handle_cases fd a with hnone | ⟨i, ⟨target, offset⟩, hsome, hd⟩
  · refine ⟨fun _ => 0, s, ?_, ?_, hspare, ?_⟩
    · simp [Vfs.fsWrite, FileStore.writeFilled, h.getVnode, hnone]
    · simpa [FileStore.writeFilled, hnone] using h
    · intro i k offset src hfile
      rw [hnone] at hfile
      cases hfile
  · cases buf with
    | none =>
      refine ⟨fun _ => 0, s, ?_, ?_, hspare, ?_⟩
      · simp [Vfs.fsWrite, FileStore.writeFilled, h.getVnode, hsome]
      · simpa [FileStore.writeFilled, hsome] using h
      · intro i k offset src _ hbuf
        cases hbuf
    | some src =>
      cases target with
      | file k =>
        obtain ⟨fill, s', hcall, hrefines, hspare', hfill⟩ :=
          h.fsWrite_fills hspare hfuel hmemory src hsome hd (hend i k offset hsome)
        refine ⟨fill, s', hcall, hrefines, hspare', ?_⟩
        intro i' k' offset' src' hfile _
        rw [hsome] at hfile
        cases hfile
        exact hfill
      | root =>
        have hwrite := Tmpfs.tmpfsWrite_root h.files fuel (giving memory) src
          (s.fdTable i).offset len
        refine ⟨fun _ => 0, s, ?_, ?_, hspare, ?_⟩
        · simp only [Vfs.fsWrite, FileStore.writeFilled, h.getVnode, hsome, map_some]
          dsimp only [Tmpfs.filesystem, Tmpfs.nodeOf]
          rw [hwrite, map_some, advance_of_neg nmErr_nmEfail_neg]
        · simpa [FileStore.writeFilled, hsome] using h
        · intro i' k' offset' src' hfile
          rw [hsome] at hfile
          cases hfile

end Vfs

end NeverMind
