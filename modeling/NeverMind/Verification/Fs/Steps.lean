import NeverMind.Verification.Fs.BackEnds

/-! # What the calls do to the files and to the offsets

Over any file system, the vnodes change by creations and by writes only, and the offset of a
descriptor stays a 64-bit number. -/

namespace NeverMind.Vfs

open Option

variable {T R : Type*} {fs : Filesystem T R} {s s' : Vfs T R} {fuel : ℕ}

/-! ## The vnodes -/

theorem nodes_advance (i : FileRef) (n : ℤ) (s : Vfs T R) : (s.advance i n).nodes = s.nodes := by
  unfold advance
  split <;> rfl

theorem allocFd_cases (s : Vfs T R) :
    (s.allocFd = (none, s) ∧ ∀ i, (s.fdTable i).used = true) ∨ ∃ i, (s.fdTable i).used = false ∧
        s.allocFd = (some i, s.setFile i ⟨true, 0, 0, none⟩) := by
  unfold allocFd
  cases hfind : (List.finRange 64).find? fun i => !(s.fdTable i).used with
  | none => exact .inl ⟨rfl, fun i => by simpa using List.find?_eq_none.mp hfind i (by simp)⟩
  | some i => exact .inr ⟨i, by simpa using List.find?_some hfind, rfl⟩

/-- What opening a vnode can do: it is refused, it gives the free descriptor back, or it fills
it in. -/
theorem openVnode_cases (fs : Filesystem T R) (node : R) (flags : ℕ) (s : Vfs T R) :
    (s.openVnode fs node flags = (nmErr nmEfail, s) ∧
        (fs.hasOps node s.nodes = true → ∀ i, (s.fdTable i).used = true)) ∨
      ∃ i, (s.fdTable i).used = false ∧ fs.hasOps node s.nodes = true ∧
        (fs.openNode node flags s.nodes ≠ 0 ∧
            s.openVnode fs node flags = (nmErr nmEfail, s.setFile i ⟨false, 0, 0, none⟩) ∨
          fs.openNode node flags s.nodes = 0 ∧ s.openVnode fs node flags =
            ((i.val : ℤ), s.setFile i ⟨true, flags, 0, some node⟩)) := by
  unfold openVnode
  split
  · rename_i hops
    exact .inl ⟨rfl, fun htrue => absurd (hops.symm.trans htrue) (by decide)⟩
  · rename_i hops
    obtain ⟨hnone, hfull⟩ | ⟨i, hfree, hsome⟩ := s.allocFd_cases
    · rw [hnone]
      exact .inl ⟨rfl, fun _ => hfull⟩
    · rw [hsome]
      refine .inr ⟨i, hfree, by simpa using hops, ?_⟩
      dsimp only
      split
      · rename_i hopen
        exact .inl ⟨hopen, by simp [setFile]⟩
      · rename_i hopen
        exact .inr ⟨not_not.mp hopen, by simp [setFile]⟩

theorem nodes_openVnode (fs : Filesystem T R) (node : R) (flags : ℕ) (s : Vfs T R) :
    (s.openVnode fs node flags).2.nodes = s.nodes := by
  obtain ⟨hopen, -⟩ | ⟨i, -, -, ⟨-, hopen⟩ | ⟨-, hopen⟩⟩ := openVnode_cases fs node flags s <;>
    rw [hopen] <;> rfl

variable {ret : ℤ}

/-- What a call of `fs_open` can do: it refuses, it opens the vnode found, or it makes a file and
opens that. -/
theorem fsOpen_cases {path : Option (List Byte)} {flags : ℕ} {ret : ℤ}
    (hcall : s.fsOpen fs fuel path flags = some (ret, s')) :
    (ret = nmErr nmEfail ∧ s' = s) ∨ (∃ node, s.openVnode fs node flags = (ret, s')) ∨
      ∃ p dir leaf made nodes, path = some p ∧ flags &&& nmOCreat ≠ 0 ∧
        s.resolvePath fs fuel p false = some none ∧
        s.resolvePath fs fuel p true = some (some (dir, leaf)) ∧
        fs.create fuel dir leaf .file 0o644 s.nodes = some (made, nodes) ∧
        (made = none ∧ ret = nmErr nmEfail ∧ s' = { s with nodes := nodes } ∨
          ∃ node, made = some node ∧
            { s with nodes := nodes }.openVnode fs node flags = (ret, s')) := by
  unfold fsOpen at hcall
  split at hcall
  · cases hcall
    exact .inl ⟨rfl, rfl⟩
  · rename_i p
    split at hcall
    · cases hcall
    · next node _ _ => exact .inr (.inl ⟨node, some.inj hcall⟩)
    · rename_i hmissing
      split at hcall
      · cases hcall
        exact .inl ⟨rfl, rfl⟩
      · rename_i hcreat
        split at hcall
        · cases hcall
        · cases hcall
          exact .inl ⟨rfl, rfl⟩
        · rename_i dir leaf hparent
          refine .inr (.inr ⟨p, dir, leaf, ?_⟩)
          split at hcall
          · cases hcall
          · rename_i nodes hmake
            cases hcall
            exact ⟨none, nodes, rfl, hcreat, hmissing, hparent, hmake, .inl ⟨rfl, rfl, rfl⟩⟩
          · rename_i node nodes hmake
            exact ⟨some node, nodes, rfl, hcreat, hmissing, hparent, hmake,
              .inr ⟨node, rfl, some.inj hcall⟩⟩

theorem fsOpen_opened {path : Option (List Byte)} {flags : ℕ} {ret : ℤ}
    (hcall : s.fsOpen fs fuel path flags = some (ret, s')) (hret : 0 ≤ ret) :
    ∃ i node nodes, (s.fdTable i).used = false ∧ ret = (i.val : ℤ) ∧
      (flags &&& nmOCreat = 0 → nodes = s.nodes) ∧
      s' = { s with nodes := nodes }.setFile i ⟨true, flags, 0, some node⟩ := by
  have hopened : ∀ {s : Vfs T R} {node}, s.openVnode fs node flags = (ret, s') →
      ∃ i, (s.fdTable i).used = false ∧ ret = (i.val : ℤ) ∧
        s' = s.setFile i ⟨true, flags, 0, some node⟩ := by
    intro s node hopen
    have hneg : nmErr nmEfail < 0 := by decide
    obtain ⟨hcase, -⟩ | ⟨i, hfree, -, ⟨-, hcase⟩ | ⟨-, hcase⟩⟩ := openVnode_cases fs node flags s
    · rw [hcase] at hopen
      cases hopen
      omega
    · rw [hcase] at hopen
      cases hopen
      omega
    · rw [hcase] at hopen
      cases hopen
      exact ⟨i, hfree, rfl, rfl⟩
  have hneg : nmErr nmEfail < 0 := by decide
  obtain ⟨rfl, -⟩ | ⟨node, hopen⟩ |
    ⟨_, _, _, _, nodes, -, hcreat, -, -, -, ⟨-, rfl, -⟩ | ⟨node, -, hopen⟩⟩ := fsOpen_cases hcall
  · omega
  · obtain ⟨i, hfree, hi, hs⟩ := hopened hopen
    exact ⟨i, node, s.nodes, hfree, hi, fun _ => rfl, hs⟩
  · omega
  · obtain ⟨i, hfree, hi, hs⟩ := hopened hopen
    exact ⟨i, node, nodes, hfree, hi, fun hzero => absurd hzero hcreat, hs⟩

theorem getFile_natCast (i : FileRef) (s : Vfs T R) :
    s.getFile (i.val : ℤ) = if (s.fdTable i).used then some i else none := by
  unfold getFile
  rw [dif_pos ⟨Int.natCast_nonneg _, by exact_mod_cast i.isLt⟩]
  rfl

/-- A call of `fs_open` leaves the vnodes, or makes one file. -/
theorem nodes_fsOpen {path : Option (List Byte)} {flags : ℕ} {ret : ℤ}
    (hcall : s.fsOpen fs fuel path flags = some (ret, s')) :
    s'.nodes = s.nodes ∨ ∃ dir leaf made,
      fs.create fuel dir leaf .file 0o644 s.nodes = some (made, s'.nodes) := by
  obtain ⟨-, rfl⟩ | ⟨node, hopen⟩ | ⟨_, dir, leaf, made, nodes, -, -, -, -, hmake, hdone⟩ :=
    fsOpen_cases hcall
  · exact .inl rfl
  · have hnodes := nodes_openVnode fs node flags s
    rw [hopen] at hnodes
    exact .inl hnodes
  · refine .inr ⟨dir, leaf, made, ?_⟩
    obtain ⟨rfl, -, rfl⟩ | ⟨node, rfl, hopen⟩ := hdone
    · exact hmake
    · have hnodes := nodes_openVnode fs node flags { s with nodes := nodes }
      rw [hopen] at hnodes
      rw [hnodes]
      exact hmake

theorem nodes_fsLseek (fs : Filesystem T R) (fd offset whence : ℤ) (s : Vfs T R) :
    (s.fsLseek fs fd offset whence).2.nodes = s.nodes := by
  unfold fsLseek
  split
  · rfl
  · split
    · rfl
    · dsimp only
      split <;> rfl

theorem nodes_fsRead (fs : Filesystem T R) (fd : ℤ) (buf : Bool) (len : ℕ) (s : Vfs T R) :
    (s.fsRead fs fd buf len).2.nodes = s.nodes := by
  unfold fsRead
  split
  · exact nodes_advance _ _ s
  · rfl

theorem nodes_fsClose (fd : ℤ) (s : Vfs T R) : (s.fsClose fd).2.nodes = s.nodes := by
  unfold fsClose
  split
  · rfl
  · rfl

theorem nodes_fsMountRoot (fs : Filesystem T R) (s : Vfs T R) :
    (s.fsMountRoot fs).2.nodes = (fs.mountRoot s.nodes).2 := by
  unfold fsMountRoot
  split <;> rename_i hmount <;> rw [hmount]

/-- What `fs_write` can do: it refuses, or it hands the write to the file system. -/
theorem fsWrite_cases {alloc : NmAlloc} {fd : ℤ} {buf : Option (ℕ → Byte)} {len : ℕ}
    (hcall : s.fsWrite fs fuel alloc fd buf len = some (ret, s')) :
    s' = s ∨ ∃ i r src nodes, s.getVnode fs fd = some (i, r) ∧
      fs.write fuel alloc r src (s.fdTable i).offset len s.nodes = some (ret, nodes) ∧
      s' = { s with nodes := nodes }.advance i ret := by
  unfold fsWrite at hcall
  split at hcall
  · rename_i i r src hopen
    obtain ⟨⟨ret', nodes⟩, hwrite, hresult⟩ := map_eq_some_iff.mp hcall
    cases hresult
    exact .inr ⟨i, r, src, nodes, hopen, hwrite, rfl⟩
  · cases hcall
    exact .inl rfl

theorem fsWrite_eq {fd : ℤ} {i : FileRef} {r : R} (hopen : s.getVnode fs fd = some (i, r))
    (alloc : NmAlloc) (src : ℕ → Byte) (len : ℕ) :
    s.fsWrite fs fuel alloc fd (some src) len =
      (fs.write fuel alloc r src (s.fdTable i).offset len s.nodes).map fun w =>
        (w.1, { s with nodes := w.2 }.advance i w.1) := by
  unfold fsWrite
  rw [hopen]

/-- A call leaves the vnodes, makes one file, or writes one. -/
theorem nodes_callOn {c : FsCall} {out : FsOut} (hcall : s.callOn fs fuel c = some (out, s')) :
    s'.nodes = s.nodes ∨
      (∃ dir leaf made, fs.create fuel dir leaf .file 0o644 s.nodes = some (made, s'.nodes)) ∨
      ∃ alloc fd buf len i r src ret, c = .write alloc fd buf len ∧
        s.getVnode fs fd = some (i, r) ∧
          fs.write fuel alloc r src (s.fdTable i).offset len s.nodes = some (ret, s'.nodes) := by
  cases c with
  | openFile path flags =>
    obtain ⟨⟨ret, s₁⟩, hopen, hresult⟩ := map_eq_some_iff.mp hcall
    cases hresult
    exact (nodes_fsOpen hopen).imp_right .inl
  | read fd buf len =>
    cases hcall
    exact .inl (nodes_fsRead fs fd buf len s)
  | write alloc fd buf len =>
    obtain ⟨⟨ret, s₁⟩, hwrite, hresult⟩ := map_eq_some_iff.mp hcall
    cases hresult
    obtain rfl | ⟨i, r, src, nodes, hopen, hstore, rfl⟩ := fsWrite_cases hwrite
    · exact .inl rfl
    · rw [nodes_advance]
      exact .inr (.inr ⟨alloc, fd, buf, len, i, r, src, ret, rfl, hopen, hstore⟩)
  | lseek fd offset whence =>
    cases hcall
    exact .inl (nodes_fsLseek fs fd offset whence s)
  | close fd =>
    cases hcall
    exact .inl (nodes_fsClose fd s)
  | stat path st =>
    obtain ⟨r, -, hresult⟩ := map_eq_some_iff.mp hcall
    cases hresult
    exact .inl rfl

/-! ## The offsets -/

def OffsetsFit (s : Vfs T R) : Prop := ∀ i, (s.fdTable i).offset < 2 ^ 64

theorem OffsetsFit.setFile (h : s.OffsetsFit) (i : FileRef) {f : NmFile R}
    (hf : f.offset < 2 ^ 64) : (s.setFile i f).OffsetsFit := by
  intro j
  unfold Vfs.setFile
  by_cases hj : j = i
  · subst hj
    simpa using hf
  · simpa [hj] using h j

theorem OffsetsFit.advance (h : s.OffsetsFit) (i : FileRef) (n : ℤ) :
    (s.advance i n).OffsetsFit := by
  unfold Vfs.advance
  split
  · exact h.setFile i (Nat.mod_lt _ (by decide))
  · exact h

theorem OffsetsFit.openVnode (h : s.OffsetsFit) (fs : Filesystem T R) (node : R) (flags : ℕ) :
    (s.openVnode fs node flags).2.OffsetsFit := by
  obtain ⟨hopen, -⟩ | ⟨i, -, -, ⟨-, hopen⟩ | ⟨-, hopen⟩⟩ := openVnode_cases fs node flags s
  · rw [hopen]
    exact h
  · rw [hopen]
    exact h.setFile i (Nat.two_pow_pos 64)
  · rw [hopen]
    exact h.setFile i (Nat.two_pow_pos 64)

theorem OffsetsFit.fsOpen (h : s.OffsetsFit) {path : Option (List Byte)} {flags : ℕ} {ret : ℤ}
    (hcall : s.fsOpen fs fuel path flags = some (ret, s')) : s'.OffsetsFit := by
  obtain ⟨-, rfl⟩ | ⟨node, hopen⟩ | ⟨_, _, _, made, nodes, -, -, -, -, -, hdone⟩ :=
    fsOpen_cases hcall
  · exact h
  · have hopened := h.openVnode fs node flags
    rw [hopen] at hopened
    exact hopened
  · have hmade : { s with nodes := nodes }.OffsetsFit := h
    obtain ⟨-, -, rfl⟩ | ⟨node, -, hopen⟩ := hdone
    · exact hmade
    · have hopened := hmade.openVnode fs node flags
      rw [hopen] at hopened
      exact hopened

theorem OffsetsFit.fsLseek (h : s.OffsetsFit) (fs : Filesystem T R) (fd offset whence : ℤ) :
    (s.fsLseek fs fd offset whence).2.OffsetsFit := by
  unfold Vfs.fsLseek
  split
  · exact h
  · split
    · exact h
    · rename_i base _
      dsimp only
      split
      · exact h
      · have hlt : i64 (base + offset) < 2 ^ 63 := i64_lt _
        exact h.setFile _ (by dsimp only; omega)

theorem OffsetsFit.callOn (h : s.OffsetsFit) {c : FsCall} {out : FsOut}
    (hcall : s.callOn fs fuel c = some (out, s')) : s'.OffsetsFit := by
  cases c with
  | openFile path flags =>
    obtain ⟨⟨ret, s₁⟩, hopen, hresult⟩ := map_eq_some_iff.mp hcall
    cases hresult
    exact h.fsOpen hopen
  | read fd buf len =>
    cases hcall
    unfold Vfs.fsRead
    split
    · exact h.advance _ _
    · exact h
  | write alloc fd buf len =>
    obtain ⟨⟨ret, s₁⟩, hwrite, hresult⟩ := map_eq_some_iff.mp hcall
    cases hresult
    obtain rfl | ⟨i, r, src, nodes, -, -, rfl⟩ := fsWrite_cases hwrite
    · exact h
    · have hwritten : { s with nodes := nodes }.OffsetsFit := h
      exact hwritten.advance i ret
  | lseek fd offset whence =>
    cases hcall
    exact h.fsLseek fs fd offset whence
  | close fd =>
    cases hcall
    unfold Vfs.fsClose
    split
    · exact h
    · exact h.setFile _ (Nat.two_pow_pos 64)
  | stat path st =>
    obtain ⟨r, -, hresult⟩ := map_eq_some_iff.mp hcall
    cases hresult
    exact h

/-! ## Histories -/

/-- The states after mounts and calls that have returned, from the static variables on. -/
inductive Reached (fs : Filesystem T R) (boot : Vfs T R) : Vfs T R → Prop where
  | boot : Reached fs boot boot
  | init {s : Vfs T R} (h : Reached fs boot s) : Reached fs boot s.fsInit
  | mount {s : Vfs T R} (h : Reached fs boot s) : Reached fs boot (s.fsMountRoot fs).2
  | call {s s' : Vfs T R} {fuel : ℕ} {c : FsCall} {out : FsOut} (h : Reached fs boot s)
      (hcall : s.callOn fs fuel c = some (out, s')) : Reached fs boot s'

variable {boot : Vfs T R}

theorem Reached.next (h : Reached fs boot s) (fuel : ℕ) (c : FsCall) :
    Reached fs boot (s.nextOn fs fuel c) := by
  unfold nextOn
  split
  · exact h
  · rename_i hcall
    exact h.call hcall

theorem reached_run (h : Reached fs boot s) (fuel : ℕ) (calls : List FsCall) :
    Reached fs boot (runCalls (nextOn fs fuel) calls s) := by
  induction calls generalizing s with
  | nil => exact h
  | cons c cs ih => exact ih (h.next fuel c)

/-- An invariant of mounts, creations and writes holds of the vnodes in every history. -/
theorem Reached.nodes {I : T → Prop} (h : Reached fs boot s) (hboot : I boot.nodes)
    (hmount : ∀ t, I t → I (fs.mountRoot t).2) (hcreate : ∀ {fuel dir leaf made t t'}, I t →
      fs.create fuel dir leaf .file 0o644 t = some (made, t') → I t')
    (hwrite : ∀ {fuel alloc r src offset len ret t t'}, I t →
      fs.write fuel alloc r src offset len t = some (ret, t') → I t') : I s.nodes := by
  induction h with
  | boot => exact hboot
  | init _ ih => exact ih
  | mount _ ih =>
    rw [nodes_fsMountRoot]
    exact hmount _ ih
  | call _ hcall ih =>
    obtain hsame | ⟨dir, leaf, made, hmake⟩ | ⟨alloc, fd, buf, len, i, r, src, ret, -, -, hstore⟩ :=
      nodes_callOn hcall
    · rw [hsame]
      exact ih
    · exact hcreate ih hmake
    · exact hwrite ih hstore

theorem Reached.offsetsFit (h : Reached fs boot s) (hboot : boot.OffsetsFit) : s.OffsetsFit := by
  induction h with
  | boot => exact hboot
  | init => exact fun _ => Nat.two_pow_pos 64
  | mount _ ih =>
    unfold fsMountRoot
    split <;> exact ih
  | call _ hcall ih => exact ih.callOn hcall

end NeverMind.Vfs
