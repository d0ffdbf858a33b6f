import NeverMind.Library.Ring
import NeverMind.Verification.Fd.PipeCreation

/-! # The rings behind the pipes

Reads and writes move bytes through the ring of a pipe. No other call touches the ring of a
pipe that is in use, in whatever state the tables are. -/

namespace NeverMind

open List Function

def Pipe.buffered (pipe : Pipe) : List Byte := Ring.contents pipe.buf pipe.readPos pipe.writePos

theorem Pipe.length_buffered (pipe : Pipe) : pipe.buffered.length = pipe.writePos - pipe.readPos :=
  Ring.length_contents _ _ _

/-- The positions of a pipe that has not wrapped around the 64 bits. -/
structure Pipe.InOrder (pipe : Pipe) : Prop where
  le : pipe.readPos ≤ pipe.writePos
  room : pipe.writePos - pipe.readPos ≤ 512
  lt : pipe.writePos < 2 ^ 64

namespace FdLayer

variable {F : Type*} (ops : FsOps F) {L L' : FdLayer F}

/-! ## Moving bytes -/

theorem readLoop_spec (len : ℕ) {pipe : Pipe} (h : pipe.InOrder) :
    (readLoop len pipe).1 = pipe.buffered.take len ∧ (readLoop len pipe).2 =
        { pipe with readPos := pipe.readPos + min len (pipe.writePos - pipe.readPos) } ∧
      (readLoop len pipe).2.buffered = pipe.buffered.drop len := by
  -- induction on the bytes still wanted: each round pops one byte or stops at an empty ring
  induction len generalizing pipe with
  | zero => simp [readLoop]
  | succ len ih =>
    by_cases hmore : pipe.readPos < pipe.writePos
    · have hstep : u64 (pipe.readPos + 1) = pipe.readPos + 1 := u64_of_lt (by have := h.lt; omega)
      have hnext : Pipe.InOrder { pipe with readPos := pipe.readPos + 1 } :=
        ⟨hmore, by have := h.room; simp only; omega, h.lt⟩
      obtain ⟨hbytes, hpipe, hrest⟩ := ih hnext
      have hfront : pipe.buffered = pipe.buf (ringSlot pipe.readPos) ::
          Pipe.buffered { pipe with readPos := pipe.readPos + 1 } :=
        Ring.contents_pop pipe.buf hmore
      simp only [readLoop, hmore, if_true, hstep]
      refine ⟨?_, ?_, ?_⟩
      · rw [hfront, hbytes, take_succ_cons]
      · rw [hpipe]
        simp only [Pipe.mk.injEq, true_and, and_true]
        omega
      · rw [hfront, hrest, drop_succ_cons]
    · have hempty : pipe.buffered = [] := Ring.contents_of_le pipe.buf (by omega)
      have hzero : pipe.writePos - pipe.readPos = 0 := by omega
      simp [readLoop, hmore, hempty, hzero]

/-- A write takes as many bytes as there is room for, also when the positions wrap. -/
theorem writeLoop_fst (data : ℕ → Byte) (len written : ℕ) {pipe : Pipe}
    (h : u64Sub pipe.writePos pipe.readPos ≤ 512) :
    (writeLoop data len written pipe).1 =
      written + min len (512 - u64Sub pipe.writePos pipe.readPos) := by
  induction len generalizing written pipe with
  | zero => simp [writeLoop]
  | succ len ih =>
    by_cases hmore : u64Sub pipe.writePos pipe.readPos < 512
    · have hstep : u64Sub (u64 (pipe.writePos + 1)) pipe.readPos =
          u64Sub pipe.writePos pipe.readPos + 1 := by
        unfold u64Sub u64 at hmore ⊢
        omega
      rw [writeLoop, if_pos hmore, ih (written + 1) (by dsimp only; omega)]
      dsimp only
      omega
    · rw [writeLoop, if_neg hmore]
      dsimp only
      omega

theorem writeLoop_spec (data : ℕ → Byte) (len written : ℕ) {pipe : Pipe} (h : pipe.InOrder)
    (hlt : pipe.writePos + min len (512 - (pipe.writePos - pipe.readPos)) < 2 ^ 64) :
    (writeLoop data len written pipe).2.buffered = pipe.buffered ++
        (range (min len (512 - (pipe.writePos - pipe.readPos)))).map
          (fun i => data (written + i)) ∧
      (writeLoop data len written pipe).2.writePos =
        pipe.writePos + min len (512 - (pipe.writePos - pipe.readPos)) := by
  -- induction on the bytes still to write: each round pushes one byte or stops at a full ring
  induction len generalizing written pipe with
  | zero => simp [writeLoop]
  | succ len ih =>
    have hle := h.le
    have hroom := h.room
    have hused : u64Sub pipe.writePos pipe.readPos = pipe.writePos - pipe.readPos :=
      u64Sub_of_le h.le h.lt
    by_cases hmore : pipe.writePos - pipe.readPos < 512
    · have hstep : u64 (pipe.writePos + 1) = pipe.writePos + 1 := u64_of_lt (by omega)
      obtain ⟨pipe₁, hpipe₁⟩ : ∃ pipe₁ : Pipe, pipe₁ = { pipe with
            buf := update pipe.buf (ringSlot pipe.writePos) (data written)
            writePos := pipe.writePos + 1 } := ⟨_, rfl⟩
      have hr₁ : pipe₁.readPos = pipe.readPos := by rw [hpipe₁]
      have hw₁ : pipe₁.writePos = pipe.writePos + 1 := by rw [hpipe₁]
      have hpush : pipe₁.buffered = pipe.buffered ++ [data written] := by
        rw [hpipe₁]
        exact Ring.contents_push pipe.buf hle hmore (data written)
      have hloop : writeLoop data (len + 1) written pipe =
          writeLoop data len (written + 1) pipe₁ := by
        simp only [writeLoop, hused, hmore, if_true, hstep, hpipe₁]
      have hnext : pipe₁.InOrder := ⟨by omega, by omega, by omega⟩
      obtain ⟨hqueue, hw⟩ := ih (written + 1) hnext (by omega)
      have hsplit : min (len + 1) (512 - (pipe.writePos - pipe.readPos)) =
          min len (512 - (pipe₁.writePos - pipe₁.readPos)) + 1 := by omega
      rw [hloop, hsplit]
      refine ⟨?_, by omega⟩
      rw [hqueue, hpush, range_succ_eq_map, map_cons, map_map, append_assoc,
        singleton_append, Nat.add_zero]
      congr 3
      funext i
      simp only [comp_apply]
      congr 1
      omega
    · have hfull : 512 - (pipe.writePos - pipe.readPos) = 0 := by omega
      have hloop : writeLoop data (len + 1) written pipe = (written, pipe) := by
        simp only [writeLoop, hused, hmore, if_false]
      rw [hloop, hfull]
      simp

/-! ## Calls that leave the rings alone -/

/-- A pipe in use after a change was in use before, with the same ring. -/
def SameRings (L L' : FdLayer F) : Prop :=
  ∀ k, (L'.pipeTable k).used = true → (L.pipeTable k).used = true ∧
    (L'.pipeTable k).buf = (L.pipeTable k).buf ∧
    (L'.pipeTable k).readPos = (L.pipeTable k).readPos ∧
    (L'.pipeTable k).writePos = (L.pipeTable k).writePos

theorem SameRings.refl (L : FdLayer F) : SameRings L L := fun _ hused => ⟨hused, rfl, rfl, rfl⟩

theorem SameRings.trans {L'' : FdLayer F} (h : SameRings L L') (h' : SameRings L' L'') :
    SameRings L L'' := by
  intro k hused
  obtain ⟨hused', hbuf', hr', hw'⟩ := h' k hused
  obtain ⟨hused, hbuf, hr, hw⟩ := h k hused'
  exact ⟨hused, hbuf'.trans hbuf, hr'.trans hr, hw'.trans hw⟩

theorem sameRings_of_pipeTable (h : L'.pipeTable = L.pipeTable) : SameRings L L' := by
  intro k hused
  rw [h] at hused ⊢
  exact ⟨hused, rfl, rfl, rfl⟩

theorem sameRings_pipeOnEndpointRelease (kind : FdobjKind) (id : ℤ) (L : FdLayer F) :
    SameRings L (L.pipeOnEndpointRelease kind id) := by
  intro k hused
  by_cases hk : id = (k.val : ℤ)
  · unfold pipeOnEndpointRelease at hused ⊢
    rw [pipeIndex_eq_some.mpr hk] at hused ⊢
    dsimp only at hused ⊢
    split at hused
    · next hfree => simp_all
    · rename_i hbusy
      rw [if_neg hbusy]
      have hkeep : (dropEnd kind (L.pipeTable k)).buf = (L.pipeTable k).buf ∧
          (dropEnd kind (L.pipeTable k)).readPos = (L.pipeTable k).readPos ∧
          (dropEnd kind (L.pipeTable k)).writePos = (L.pipeTable k).writePos := by
        unfold dropEnd
        repeat' split
        all_goals exact ⟨rfl, rfl, rfl⟩
      split at hused
      · simp at hused
      · rename_i hleft
        rw [if_neg hleft]
        simp only [pipeTable_setPipe, update_self]
        exact ⟨by simpa using hbusy, hkeep⟩
  · rw [pipeTable_pipeOnEndpointRelease_of_ne hk] at hused ⊢
    exact ⟨hused, rfl, rfl, rfl⟩

theorem sameRings_pipeOnEndpointAcquire (kind : FdobjKind) (id : ℤ) (L : FdLayer F) :
    SameRings L (L.pipeOnEndpointAcquire kind id) := by
  have hset : ∀ (j : Fin 16) (pipe : Pipe), pipe.used = (L.pipeTable j).used →
      pipe.buf = (L.pipeTable j).buf → pipe.readPos = (L.pipeTable j).readPos →
      pipe.writePos = (L.pipeTable j).writePos → SameRings L (L.setPipe j pipe) := by
    intro j pipe hu hb hr hw k hused
    by_cases hk : k = j
    · subst hk
      simp only [pipeTable_setPipe, update_self] at hused ⊢
      exact ⟨hu ▸ hused, hb, hr, hw⟩
    · rw [pipeTable_setPipe, update_of_ne hk] at hused ⊢
      exact ⟨hused, rfl, rfl, rfl⟩
  unfold pipeOnEndpointAcquire
  split
  · exact .refl L
  · dsimp only
    split
    · exact .refl L
    · split
      · exact hset _ _ rfl rfl rfl rfl
      · exact hset _ _ rfl rfl rfl rfl
      · exact .refl L

theorem sameRings_fdobjRetain (id : ℤ) (L : FdLayer F) : SameRings L (L.fdobjRetain id).2 := by
  unfold fdobjRetain
  split
  · exact .refl L
  · rename_i i hi
    exact (sameRings_of_pipeTable (L := L) rfl).trans (sameRings_pipeOnEndpointAcquire _ _ _)

theorem sameRings_fdobjRelease (id : ℤ) (L : FdLayer F) :
    SameRings L (L.fdobjRelease ops id).2 := by
  unfold fdobjRelease
  split
  · exact .refl L
  · rename_i i hi
    dsimp only
    have hends := sameRings_pipeOnEndpointRelease (L.fdobjTable i).kind (L.fdobjTable i).pipeId L
    split
    · exact .refl L
    · split
      · exact hends.trans (sameRings_of_pipeTable rfl)
      · refine hends.trans (sameRings_of_pipeTable ?_)
        split <;> rfl

theorem sameRings_taskCloseFd (task : Task) (fd : ℤ) (L : FdLayer F) :
    SameRings L (L.taskCloseFd ops task fd).2.2 := by
  unfold taskCloseFd
  split
  · exact .refl L
  · split
    · exact .refl L
    · rename_i i hi hopen
      have hrelease := sameRings_fdobjRelease ops (task.fdTable i) L
      split
      next ret L₁ hrun =>
        rw [hrun] at hrelease
        split <;> exact hrelease

theorem pipeTable_adoptLegacyFsFd (task : Task) (fd : ℤ) (L : FdLayer F) :
    (L.adoptLegacyFsFd task fd).2.2.pipeTable = L.pipeTable := by
  unfold adoptLegacyFsFd createFsObj allocFdobj
  dsimp only
  split
  · rfl
  · split
    · rfl
    · cases (finRange 128).find? fun i => !(L.fdobjTable i).used <;> rfl

theorem pipeTable_adoptForClose (task : Task) (fd : ℤ) (L : FdLayer F) :
    (L.adoptForClose task fd).2.2.pipeTable = L.pipeTable := by
  unfold adoptForClose
  dsimp only
  split
  · exact pipeTable_adoptLegacyFsFd task fd L
  · rfl

theorem sameRings_adoptAndClose (task : Task) (fd : ℤ) (L : FdLayer F) :
    SameRings L (L.adoptForClose task fd).2.2 ∧
      SameRings L ((L.adoptForClose task fd).2.2.taskCloseFd ops
        (L.adoptForClose task fd).2.1 fd).2.2 := by
  have hadopt : SameRings L (L.adoptForClose task fd).2.2 :=
    sameRings_of_pipeTable (pipeTable_adoptForClose task fd L)
  exact ⟨hadopt, hadopt.trans (sameRings_taskCloseFd ops _ fd _)⟩

theorem sameRings_nmFdClose (task : Task) (fd : ℤ) (L : FdLayer F) :
    SameRings L (L.nmFdClose ops task fd).2.2 := by
  unfold nmFdClose
  split
  · exact .refl L
  · split
    · exact .refl L
    · obtain ⟨hadopt, hclose⟩ := sameRings_adoptAndClose ops task fd L
      dsimp only
      split
      · exact hadopt
      · exact hclose

theorem sameRings_nmFdCloseOnExec (task : Task) (L : FdLayer F) :
    SameRings L (L.nmFdCloseOnExec ops task).2 := by
  have hstep : ∀ (i : Fin 32) (st : Task × FdLayer F), SameRings st.2 (closeMarked ops i st).2 := by
    intro i st
    unfold closeMarked
    dsimp only
    split
    · exact .refl st.2
    · split
      · exact .refl st.2
      · obtain ⟨hadopt, hclose⟩ := sameRings_adoptAndClose ops st.1 i.val st.2
        split
        · exact hadopt
        · exact hclose
  have hfold : ∀ (is : List (Fin 32)) (st : Task × FdLayer F),
      SameRings st.2 (is.foldl (fun st i => closeMarked ops i st) st).2 := by
    intro is
    induction is with
    | nil => exact fun st => .refl st.2
    | cons i is ih => exact fun st => (hstep i st).trans (ih (closeMarked ops i st))
  exact hfold (finRange 32) (task, L)

theorem sameRings_nmFdDup2 (task : Task) (oldfd newfd : ℤ) (L : FdLayer F) :
    SameRings L (L.nmFdDup2 ops task oldfd newfd).2.2 := by
  unfold nmFdDup2
  split
  · rename_i i j hi hj
    dsimp only
    split
    · exact .refl L
    · split
      · exact .refl L
      · have hclosed : SameRings L (if task.fdTable j ≠ -1 then L.taskCloseFd ops task newfd
            else (0, task, L)).2.2 := by
          split
          · exact sameRings_taskCloseFd ops task newfd L
          · exact .refl L
        obtain ⟨st, hst⟩ : ∃ st, st = (if task.fdTable j ≠ -1 then L.taskCloseFd ops task newfd
            else (0, task, L)) := ⟨_, rfl⟩
        rw [← hst] at hclosed ⊢
        have hretain := hclosed.trans (sameRings_fdobjRetain (task.fdTable i) st.2.2)
        split
        · exact hclosed
        · split <;> exact hretain
  · exact .refl L

theorem sameRings_nmFdOnForkChild (child : Task) (L : FdLayer F) :
    SameRings L (L.nmFdOnForkChild child).2.2 := by
  have hstep : ∀ (i : Fin 32) (st : Task × FdLayer F), SameRings st.2 (inheritFd i st).2 := by
    intro i st
    unfold inheritFd
    dsimp only
    split
    · exact .refl st.2
    · have hretain := sameRings_fdobjRetain (st.1.fdTable i) st.2
      split <;> exact hretain
  have hfold : ∀ (is : List (Fin 32)) (st : Task × FdLayer F),
      SameRings st.2 (is.foldl (fun st i => inheritFd i st) st).2 := by
    intro is
    induction is with
    | nil => exact fun st => .refl st.2
    | cons i is ih => exact fun st => (hstep i st).trans (ih (inheritFd i st))
  exact hfold (finRange 32) (child, L)

theorem pipeTable_nmFdPipe_of_used (task : Task) {k : Fin 16}
    (hused : (L.pipeTable k).used = true) :
    (L.nmFdPipe ops task).2.2.pipeTable k = L.pipeTable k := by
  cases nmFdPipe_spec ops task L with
  | inl hfail =>
    obtain ⟨L', hrun, hnothing, -⟩ := hfail
    rw [hrun]
    exact hnothing.pipe_used k hused
  | inr hok =>
    obtain ⟨j, rd, wr, task', L', hrun, hmade⟩ := hok
    rw [hrun]
    have hne : k ≠ j := by
      rintro rfl
      exact absurd hused (by simp [hmade.pipe_free])
    obtain ⟨i, i', -, -, -, -, hL'⟩ := hmade.made
    simp [hL', hne]

end FdLayer

end NeverMind
