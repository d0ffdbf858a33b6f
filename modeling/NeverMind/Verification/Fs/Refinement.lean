import NeverMind.Verification.Fs.Calls

/-! # The file system refines the file store

Whole runs of calls after a mount, and reads in chunks. -/

namespace NeverMind.Vfs

open Tmpfs FileStore

def call (fuel : ℕ) (c : FsCall) (s : Vfs Tmpfs NodeRef) : Option (FsOut × Vfs Tmpfs NodeRef) :=
  s.callOn filesystem fuel c

def run (fuel : ℕ) (cs : List FsCall) (s : Vfs Tmpfs NodeRef) :
    Option (List FsOut × Vfs Tmpfs NodeRef) :=
  s.runOn filesystem fuel cs

/-- The calls of a run, each with whether the allocator grants what it needs. -/
def marked (fuel : ℕ) : List FsCall → Vfs Tmpfs NodeRef → List (FsCall × Bool)
  | [], _ => []
  | c :: cs, s =>
    (c, s.grants c) ::
      match s.call fuel c with
      | none => []
      | some (_, s) => marked fuel cs s

def mounted (s : Vfs Tmpfs NodeRef) : ℤ × Vfs Tmpfs NodeRef := s.mountedOn filesystem

variable {a : FileStore} {s : Vfs Tmpfs NodeRef} {fuel : ℕ}

theorem mounted_refines (s : Vfs Tmpfs NodeRef) : s.mounted.1 = 0 ∧ Refines .empty s.mounted.2 := by
  obtain ⟨t, hmount, hholds⟩ := tmpfsMountRoot_holds s.nodes
  unfold mounted mountedOn fsMountRoot fsInit
  dsimp only [filesystem]
  rw [hmount]
  refine ⟨rfl, rfl, rfl, hholds, ?_⟩
  intro i
  exact .closed rfl

theorem Refines.call (h : Refines a s) (hfuel : 512 ≤ fuel) {c : FsCall}
    (hallowed : Allowed c a) :
    ∃ s', s.call fuel c = some ((a.call (s.grants c) c).1, s') ∧
      Refines (a.call (s.grants c) c).2 s' := by
  cases c with
  | openFile path flags =>
    obtain ⟨s', hcall, hnext⟩ := h.fsOpen hfuel hallowed.2.1 flags
    exact ⟨s', by simp [Vfs.call, callOn, hcall, FileStore.call], hnext⟩
  | read fd buf len =>
    obtain ⟨hout, hnext⟩ := h.fsRead fd buf len
    exact ⟨_, by simp [Vfs.call, callOn, hout, FileStore.call], hnext⟩
  | write alloc fd buf len =>
    have hgrow : 64 ≤ fuel := by omega
    obtain ⟨s', hcall, hnext, _⟩ := h.fsWrite hgrow alloc fd buf len hallowed
    exact ⟨s', by simp [Vfs.call, callOn, hcall, FileStore.call], hnext⟩
  | lseek fd offset whence =>
    obtain ⟨hout, hnext⟩ := h.fsLseek fd whence hallowed.1 hallowed.2
    exact ⟨_, by simp [Vfs.call, callOn, hout, FileStore.call], hnext⟩
  | close fd =>
    obtain ⟨hout, hnext⟩ := h.fsClose fd
    exact ⟨_, by simp [Vfs.call, callOn, hout, FileStore.call], hnext⟩
  | stat path st =>
    have hcall := h.fsStat hfuel hallowed st
    exact ⟨s, by simp [Vfs.call, callOn, hcall, FileStore.call], h⟩

theorem run_cons {c : FsCall} {out : FsOut} {s' : Vfs Tmpfs NodeRef}
    (hcall : s.call fuel c = some (out, s')) (calls : List FsCall) :
    s.run fuel (c :: calls) = (s'.run fuel calls).map fun r => (out :: r.1, r.2) := by
  rw [Vfs.run, runOn, ← Vfs.call, hcall]
  rfl

/-- Every run returns, with the outputs of the store. -/
theorem Refines.run (h : Refines a s) (hfuel : 512 ≤ fuel) {calls : List FsCall}
    (hallowed : AllowedRun (s.marked fuel calls) a) :
    ∃ s', s.run fuel calls = some ((a.run (s.marked fuel calls)).1, s') ∧
      Refines (a.run (s.marked fuel calls)).2 s' := by
  induction calls generalizing a s with
  | nil => exact ⟨s, rfl, h⟩
  | cons c calls ih =>
    rw [marked] at hallowed ⊢
    obtain ⟨s', hcall, hnext⟩ := h.call hfuel hallowed.1
    rw [hcall] at hallowed ⊢
    obtain ⟨s'', hrun, hlast⟩ := ih hnext hallowed.2
    refine ⟨s'', ?_, hlast⟩
    rw [run_cons hcall, hrun]
    rfl

/-! ## Reads in chunks -/

/-- Reads of the given lengths, one after the other, and the bytes they return together. -/
def readChunks (fd : ℤ) : List ℕ → Vfs Tmpfs NodeRef → List Byte × Vfs Tmpfs NodeRef
  | [], s => ([], s)
  | len :: lens, s =>
    let r := s.fsRead filesystem fd true len
    let rest := readChunks fd lens r.2
    (r.1.2 ++ rest.1, rest.2)

def moveTo (i : FileRef) (offset : ℕ) (s : Vfs Tmpfs NodeRef) : Vfs Tmpfs NodeRef :=
  s.setFile i { s.fdTable i with offset := offset }

theorem moveTo_moveTo (i : FileRef) (offset later : ℕ) (s : Vfs Tmpfs NodeRef) :
    (s.moveTo i offset).moveTo i later = s.moveTo i later := by
  simp [moveTo, setFile]

theorem moveTo_self (i : FileRef) (s : Vfs Tmpfs NodeRef) :
    s.moveTo i (s.fdTable i).offset = s := by
  simp [moveTo, setFile]

variable {fd : ℤ} {i : FileRef}

theorem Refines.fsRead_file (h : Refines a s) {k offset : ℕ}
    (hsome : a.handle fd = some (i, ⟨.file k, offset⟩)) (hd : a.handles i = some ⟨.file k, offset⟩)
    (len : ℕ) :
    s.fsRead filesystem fd true len =
      ((((((a.contents (.file k)).drop offset).take len).length : ℤ),
          ((a.contents (.file k)).drop offset).take len),
        s.moveTo i (offset + (((a.contents (.file k)).drop offset).take len).length)) := by
  have hopened := h.opened hd
  have hk : k < a.files.length := hopened.within
  have hread := tmpfsRead_file h.files hk offset len
  have hlength := (h.files.file k hk).length
  have hsmall := (h.files.file k hk).small
  have hoffset : offset < 2 ^ 63 := hopened.small
  have hentry : (s.fdTable i).offset = offset := hopened.offset
  have hend : offset + ((a.files[k].2.drop offset).take len).length < 2 ^ 63 :=
    length_take_drop_le len (by omega) hoffset
  unfold Vfs.fsRead
  rw [h.getVnode, hsome]
  dsimp only [Option.map_some, filesystem, nodeOf]
  rw [hentry, hread, contents_file hk, advance_eq (by omega), hentry]
  rfl

theorem Refines.fsRead_other (h : Refines a s)
    (hother : ∀ i k offset, a.handle fd ≠ some (i, ⟨.file k, offset⟩)) (len : ℕ) :
    s.fsRead filesystem fd true len = ((nmErr nmEfail, []), s) := by
  unfold Vfs.fsRead
  rw [h.getVnode]
  rcases handle_cases fd a with hnone | ⟨i, ⟨target, offset⟩, hsome, hd⟩
  · rw [hnone]
    rfl
  · cases target with
    | file k => exact absurd hsome (hother i k offset)
    | root =>
      have hread := tmpfsRead_root h.files (s.fdTable i).offset len
      rw [hsome]
      simp [filesystem, nodeOf, hread, advance_of_neg nmErr_nmEfail_neg]

theorem take_append_take_drop (l : List Byte) (offset n m : ℕ) :
    (l.drop offset).take n ++ (l.drop (offset + ((l.drop offset).take n).length)).take m =
      (l.drop offset).take (n + m) := by
  rw [List.take_add, ← List.drop_drop]
  congr 2
  rw [List.length_take]
  by_cases hle : n ≤ (l.drop offset).length
  · rw [min_eq_left hle]
  · rw [min_eq_right (by omega), List.drop_length, List.drop_of_length_le (by omega)]

theorem handle_setHandle {d d' : Handle} (h : a.handle fd = some (i, d)) :
    (a.setHandle i (some d')).handle fd = some (i, d') := by
  unfold handle at h ⊢
  split at h
  · rename_i hrange
    simp only [Option.map_eq_some_iff, Prod.mk.injEq] at h
    obtain ⟨_, _, rfl, rfl⟩ := h
    rw [dif_pos hrange]
    simp [setHandle]
  · cases h

theorem Refines.readChunks_file (h : Refines a s) {k offset : ℕ}
    (hsome : a.handle fd = some (i, ⟨.file k, offset⟩)) (hd : a.handles i = some ⟨.file k, offset⟩)
    (lens : List ℕ) :
    s.readChunks fd lens = (((a.contents (.file k)).drop offset).take lens.sum,
        s.moveTo i (offset + (((a.contents (.file k)).drop offset).take lens.sum).length)) := by
  induction lens generalizing a s offset with
  | nil =>
    have hself := moveTo_self i s
    rw [(h.opened hd).offset] at hself
    simp [Vfs.readChunks, hself]
  | cons len lens ih =>
    have hopened := h.opened hd
    have hk : k < a.files.length := hopened.within
    have hlength := (h.files.file k hk).length
    have hsmall := (h.files.file k hk).small
    have hoffset : offset < 2 ^ 63 := hopened.small
    have hend : offset + (((a.contents (.file k)).drop offset).take len).length < 2 ^ 63 :=
      length_take_drop_le len (by rw [contents_file hk]; omega) hoffset
    have hfirst := h.fsRead_file hsome hd len
    obtain ⟨n, hn⟩ : ∃ n, n = (((a.contents (.file k)).drop offset).take len).length := ⟨_, rfl⟩
    rw [← hn] at hfirst hend
    have hnext : Refines (a.setHandle i (some ⟨.file k, offset + n⟩)) (s.moveTo i (offset + n)) :=
      h.setFile i (.opened ⟨hopened.used, hopened.vnode, rfl, hend, hk⟩)
    have hrest := ih hnext (handle_setHandle hsome) (by simp [setHandle])
    have hsame : (a.setHandle i (some ⟨.file k, offset + n⟩)).contents (.file k) =
        a.contents (.file k) := rfl
    have hjoin := take_append_take_drop (a.contents (.file k)) offset len lens.sum
    rw [← hn] at hjoin
    rw [hsame, moveTo_moveTo] at hrest
    rw [Vfs.readChunks, hfirst]
    dsimp only
    rw [hrest, List.sum_cons, ← hjoin, List.length_append, ← hn, Nat.add_assoc]

theorem Refines.readChunks (h : Refines a s) (fd : ℤ) (lens : List ℕ) :
    s.readChunks fd lens = ((s.fsRead filesystem fd true lens.sum).1.2,
        (s.fsRead filesystem fd true lens.sum).2) := by
  by_cases hother : ∀ i k offset, a.handle fd ≠ some (i, ⟨.file k, offset⟩)
  · rw [h.fsRead_other hother]
    induction lens with
    | nil => rfl
    | cons len lens ih =>
      rw [Vfs.readChunks, h.fsRead_other hother]
      dsimp only
      rw [ih]
      rfl
  · push Not at hother
    obtain ⟨i, k, offset, hsome⟩ := hother
    rcases handle_cases fd a with hnone | ⟨i', d, hsome', hd⟩
    · rw [hnone] at hsome
      cases hsome
    · rw [hsome'] at hsome
      cases hsome
      rw [h.readChunks_file hsome' hd, h.fsRead_file hsome' hd]

/-! ## The refinement -/

theorem Refines.file_node (h : Refines a s) {i : NodeRef} (hused : (s.nodes.nodes i).used = true)
    (htype : (s.nodes.nodes i).type = .file) : ∃ k < a.files.length, i = nodeAt k := by
  have hle : i.val ≤ a.files.length := by
    rw [h.files.used] at hused
    exact of_decide_eq_true hused
  have hne : i.val ≠ 0 := by
    intro hzero
    have hi : i = 0 := Fin.ext hzero
    rw [hi, h.files.root.type] at htype
    cases htype
  have hlt : i.val - 1 < a.files.length := by omega
  refine ⟨i.val - 1, hlt, ?_⟩
  apply Fin.ext
  rw [val_nodeAt (h.files.lt hlt)]
  omega

theorem Refines.reserve_bytes (h : Refines a s) (hfuel : 64 ≤ fuel) (alloc : NmAlloc)
    {i : NodeRef} (hused : (s.nodes.nodes i).used = true)
    (htype : (s.nodes.nodes i).type = .file) {need : ℕ} (hneed : need < 2 ^ 63) :
    ∃ ret t, s.nodes.tmpfsReserve fuel alloc i need = some (ret, t) ∧
      bytesOf (t.nodes i) = bytesOf (s.nodes.nodes i) := by
  obtain ⟨k, hk, rfl⟩ := h.file_node hused htype
  have hbuffered := (h.files.file k hk).buffered
  obtain ⟨r, hreserve, hspec⟩ := tmpfsReserve_spec hfuel alloc need hbuffered (by omega)
  cases hspec with
  | refused _ => exact ⟨_, _, hreserve, rfl⟩
  | reserved _ data capacity _ _ hbytes => exact ⟨_, _, hreserve, by simpa using hbytes⟩

/-- A write that is refused its memory returns an error and leaves the state. -/
theorem Refines.refused_write (h : Refines a s) (hfuel : 64 ≤ fuel) {alloc : NmAlloc}
    {buf : Option (ℕ → Byte)} {len : ℕ} (hallowed : Allowed (.write alloc fd buf len) a)
    (hrefused : s.grants (.write alloc fd buf len) = false) :
    s.fsWrite filesystem fuel alloc fd buf len = some (nmErr nmEfail, s) := by
  obtain ⟨s', hcall, _, hsame⟩ := h.fsWrite hfuel alloc fd buf len hallowed
  rw [hsame hrefused, hrefused] at hcall
  rw [hcall]
  congr 2
  unfold write
  split
  · rfl
  · rfl

/-- After any prior state, a mount and any run of allowed calls, the outputs are those of the
abstract store that starts empty; growing a buffer keeps its bytes, a write that is refused its
memory has no effect, and reads in chunks return the bytes of one read. -/
theorem outputs_eq_fileStore (s₀ : Vfs Tmpfs NodeRef) {fuel : ℕ} (hfuel : 512 ≤ fuel)
    (calls : List FsCall)
    (hallowed : AllowedRun (s₀.mounted.2.marked fuel calls) .empty) :
    s₀.mounted.1 = 0 ∧ ∃ outs a s, empty.run (s₀.mounted.2.marked fuel calls) = (outs, a) ∧
        s₀.mounted.2.run fuel calls = some (outs, s) ∧
        (∀ alloc i need, (s.nodes.nodes i).used = true → (s.nodes.nodes i).type = .file →
          need < 2 ^ 63 → ∃ ret t, s.nodes.tmpfsReserve fuel alloc i need = some (ret, t) ∧
            bytesOf (t.nodes i) = bytesOf (s.nodes.nodes i)) ∧
        (∀ alloc fd buf len, Allowed (.write alloc fd buf len) a →
          s.grants (.write alloc fd buf len) = false →
            s.fsWrite filesystem fuel alloc fd buf len = some (nmErr nmEfail, s)) ∧
        ∀ fd lens, s.readChunks fd lens = ((s.fsRead filesystem fd true lens.sum).1.2,
            (s.fsRead filesystem fd true lens.sum).2) := by
  obtain ⟨hmount, hstart⟩ := mounted_refines s₀
  obtain ⟨s, hrun, hlast⟩ := hstart.run hfuel hallowed
  have hgrow : 64 ≤ fuel := by omega
  refine ⟨hmount, _, _, s, rfl, hrun, ?_, ?_, hlast.readChunks⟩
  · intro alloc i need hused htype hneed
    exact hlast.reserve_bytes hgrow alloc hused htype hneed
  · intro alloc fd buf len hwrite hrefused
    exact hlast.refused_write hgrow hwrite hrefused

/-- Calls that are allowed whatever the allocator answers. -/
def AllowedAlways : List FsCall → FileStore → Prop
  | [], _ => True
  | c :: cs, a => Allowed c a ∧ ∀ granted, AllowedAlways cs (a.call granted c).2

theorem AllowedAlways.marked {calls : List FsCall} (h : AllowedAlways calls a) (fuel : ℕ)
    (s : Vfs Tmpfs NodeRef) : AllowedRun (s.marked fuel calls) a := by
  induction calls generalizing a s with
  | nil => trivial
  | cons c calls ih =>
    rw [Vfs.marked]
    refine ⟨h.1, ?_⟩
    cases s.call fuel c with
    | none => trivial
    | some r => exact ih (h.2 (s.grants c)) r.2

def atBoot : Vfs Tmpfs NodeRef where
  fdTable := fun _ => ⟨false, 0, 0, none⟩
  rootFs := false
  rootVnode := none
  nodes :=
    { nodes := fun _ =>
        { used := false, ino := 0, type := .none, name := [], uid := 0, gid := 0, mode := 0
          parent := none, children := none, nextSibling := none, data := none, size := 0
          capacity := 0, ops := false }
      nextIno := 0
      tmpfsRoot := none }

def writeThenRead : List FsCall :=
  [.openFile (some [47, 97]) nmOCreat, .write (fun _ => some fun _ => 0) 0 (some fun _ => 7) 2,
    .lseek 0 0 nmSeekSet, .read 0 true 2]

theorem writeThenRead_allowed : AllowedAlways writeThenRead .empty := by
  have hshort : ∀ p ∈ some [47, 97], ShortParts p := by
    intro p hp
    cases hp
    unfold ShortParts
    decide
  have hopened : (empty.openFile (some [47, 97]) true).2.handle 0 =
      some (0, ⟨.file 0, 0⟩) := by decide
  have hseek : (-2 ^ 63 : ℤ) ≤ 0 ∧ (0 : ℤ) < 2 ^ 63 := by decide
  refine ⟨⟨by decide, hshort, by decide⟩, fun _ => ⟨?_, fun _ => ⟨hseek, fun _ => ?_⟩⟩⟩
  · intro i k offset hsome
    have heq := hopened.symm.trans hsome
    cases heq
    exact ⟨Nat.zero_le _, by decide⟩
  · exact ⟨trivial, fun _ => trivial⟩

theorem outputs_eq_fileStore_writeThenRead :
    AllowedRun (atBoot.mounted.2.marked 512 writeThenRead) .empty ∧
      ∃ s, atBoot.mounted.2.run 512 writeThenRead =
        some ((empty.run (atBoot.mounted.2.marked 512 writeThenRead)).1, s) := by
  have hallowed := writeThenRead_allowed.marked 512 atBoot.mounted.2
  refine ⟨hallowed, ?_⟩
  obtain ⟨_, outs, a, s, hstore, hrun, _⟩ :=
    outputs_eq_fileStore atBoot (le_refl 512) writeThenRead hallowed
  rw [hstore]
  exact ⟨s, hrun⟩

end NeverMind.Vfs
