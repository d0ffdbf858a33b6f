import NeverMind.Verification.Fs.Disclosure

/-! # Open flags

No call looks at the flags of a descriptor, and an open looks at `NM_O_CREAT` only. A file
changes by writes to it, whatever the flags of the descriptor. -/

namespace NeverMind

namespace Tmpfs

def fileOf (i : NodeRef) (t : Tmpfs) : ℕ × List Byte := ((t.nodes i).size, bytesOf (t.nodes i))

variable {t t' : Tmpfs} {fuel : ℕ} {i j : NodeRef}

theorem fileOf_congr (hsize : (t'.nodes i).size = (t.nodes i).size)
    (hdata : (t'.nodes i).data = (t.nodes i).data) : fileOf i t' = fileOf i t := by
  rw [fileOf, fileOf, bytesOf, bytesOf, hsize, hdata]

theorem fileOf_tmpfsCreate {dir : NodeRef} {name : List Byte} {type : NodeType} {mode : ℕ}
    {made : Option NodeRef} (hcall : t.tmpfsCreate fuel dir name type mode = some (made, t'))
    (hused : Used i t) : fileOf i t' = fileOf i t := by
  obtain ⟨-, rfl⟩ | ⟨k, -, hfree, hnodes⟩ := tmpfsCreate_nodes hcall
  · rfl
  · have hik : i ≠ k := by
      rintro rfl
      exact hfree hused
    obtain ⟨first, hi⟩ := hnodes i
    rw [if_neg hik] at hi
    exact fileOf_congr (by rw [hi]) (by rw [hi])

theorem fileOf_tmpfsWrite {alloc : NmAlloc} {src : ℕ → Byte} {offset len : ℕ} {ret : ℤ}
    (hcall : t.tmpfsWrite fuel alloc j src offset len = some (ret, t')) (hne : i ≠ j) :
    fileOf i t' = fileOf i t := by
  unfold tmpfsWrite at hcall
  split at hcall
  · cases hcall
    rfl
  · split at hcall
    · cases hcall
    · rename_i ret' t₁ hreserve
      have hreserved : fileOf i t₁ = fileOf i t := by
        obtain rfl | ⟨cap, newBuf, data, -, rfl, -⟩ := tmpfsReserve_cases hreserve
        · rfl
        · exact fileOf_congr (by simp [hne]) (by simp [hne])
      split at hcall
      · cases hcall
        exact hreserved
      · obtain ⟨-, rfl⟩ := Prod.mk.inj (Option.some.inj hcall)
        rw [← hreserved]
        exact fileOf_congr (by simp [hne]) (by simp [hne])

end Tmpfs

namespace Vfs

def next (fuel : ℕ) (c : FsCall) (s : Vfs Tmpfs NodeRef) : Vfs Tmpfs NodeRef :=
  s.nextOn Tmpfs.filesystem fuel c

def IsFile (i : NodeRef) (s : Vfs Tmpfs NodeRef) : Prop :=
  (s.nodes.nodes i).used = true ∧ (s.nodes.nodes i).type = .file

def WritesTo (c : FsCall) (i : NodeRef) (s : Vfs Tmpfs NodeRef) : Prop :=
  match c with
  | .write _ fd _ _ => ∃ j, s.getVnode Tmpfs.filesystem fd = some (j, i)
  | _ => False

/-- The files that the call changes are those that it writes to. -/
def ChangesWritten (fuel : ℕ) (c : FsCall) (s : Vfs Tmpfs NodeRef) : Prop :=
  ∀ i, IsFile i s → Tmpfs.fileOf i (s.next fuel c).nodes ≠ Tmpfs.fileOf i s.nodes → WritesTo c i s

theorem changesWritten (fuel : ℕ) (c : FsCall) (s : Vfs Tmpfs NodeRef) :
    ChangesWritten fuel c s := by
  intro i hfile hchanged
  unfold next nextOn at hchanged
  split at hchanged
  · exact absurd rfl hchanged
  · rename_i out s' hcall
    obtain hsame | ⟨dir, leaf, made, hmake⟩ |
      ⟨alloc, fd, buf, len, j, node, src, ret, rfl, hget, hwrite⟩ := nodes_callOn hcall
    · exact absurd (congrArg (Tmpfs.fileOf i) hsame) hchanged
    · dsimp only [Tmpfs.filesystem] at hmake
      exact absurd (Tmpfs.fileOf_tmpfsCreate hmake hfile.1) hchanged
    · obtain rfl : i = node := by
        by_contra hne
        exact hchanged (Tmpfs.fileOf_tmpfsWrite hwrite hne)
      exact ⟨j, hget⟩

/-- Along every run after a mount, a file changes only by writes to it. -/
theorem files_change_by_writes (fuel : ℕ) (calls : List FsCall) (s₀ : Vfs Tmpfs NodeRef) :
    EachStep (next fuel) (ChangesWritten fuel) calls s₀.mounted.2 :=
  (eachStep_true calls s₀.mounted.2).eachStep (I := fun _ => True) (fun _ _ _ _ => trivial)
    (fun c s _ _ => changesWritten fuel c s) trivial

/-! ## What the flags say -/

/-- A write to the vnode by a descriptor that was opened for writing. -/
def WritesThrough (c : FsCall) (i : NodeRef) (s : Vfs Tmpfs NodeRef) : Prop :=
  match c with
  | .write _ fd _ _ => ∃ j, s.getVnode Tmpfs.filesystem fd = some (j, i) ∧
      ((s.fdTable j).flags % 4 = nmOWronly ∨ (s.fdTable j).flags % 4 = nmORdwr)
  | _ => False

def Truncates (fuel : ℕ) (c : FsCall) (i : NodeRef) (s : Vfs Tmpfs NodeRef) : Prop :=
  match c with
  | .openFile (some path) flags => flags &&& nmOTrunc ≠ 0 ∧
      ∃ leaf, s.resolvePath Tmpfs.filesystem fuel path false = some (some (i, leaf))
  | _ => False

/-- The flags are honoured by a call. -/
structure HonoursFlags (fuel : ℕ) (c : FsCall) (s : Vfs Tmpfs NodeRef) : Prop where
  changes : ∀ i, IsFile i s → Tmpfs.fileOf i (s.next fuel c).nodes ≠ Tmpfs.fileOf i s.nodes →
    WritesThrough c i s ∨ Truncates fuel c i s
  truncates : ∀ i, IsFile i s → Truncates fuel c i s → ((s.next fuel c).nodes.nodes i).size = 0

def createAndWrite (flags : ℕ) : List FsCall :=
  [.openFile (some [slash, 97]) (flags + nmOCreat),
    .write (giving fun _ _ => 0) 0 (some fun _ => 42) 1]

/-- The write changes the file although the descriptor is read-only, and an open with
`NM_O_TRUNC` leaves the byte in it. -/
theorem flags_not_honoured :
    ¬ EachStep (next 512) (HonoursFlags 512) (createAndWrite nmORdonly) atBoot.mounted.2 ∧
      ¬ EachStep (next 512) (HonoursFlags 512)
        (createAndWrite nmORdwr ++ [.openFile (some [slash, 97]) (nmORdwr + nmOTrunc)])
          atBoot.mounted.2 := by
  refine ⟨fun h => ?_, fun h => ?_⟩
  · have hwrite := h.2.1.changes 1 ⟨by decide +kernel, by decide +kernel⟩ (by decide +kernel)
    have hentry : getVnode Tmpfs.filesystem 0 (next 512 (.openFile (some [slash, 97])
        (nmORdonly + nmOCreat)) atBoot.mounted.2) = some (0, 1) := by
      decide +kernel
    obtain ⟨j, hget, hflags⟩ | hfalse := hwrite
    · cases hentry.symm.trans hget
      exact absurd hflags (by decide +kernel)
    · exact hfalse
  · have hopen := h.2.2.1.truncates 1 ⟨by decide +kernel, by decide +kernel⟩
      ⟨by decide +kernel, [97], by decide +kernel⟩
    exact absurd hopen (by decide +kernel)

end Vfs

end NeverMind
