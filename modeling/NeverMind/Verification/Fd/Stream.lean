import NeverMind.Verification.Fd.Rings
import NeverMind.Verification.Proc.Tasks
import Mathlib.Logic.Relation

/-! # Pipes are byte streams

The bytes that reads return through any descriptors, followed by the bytes still buffered,
are the bytes that writes accepted, in order, for as long as the slot of the pipe is in
use. -/

namespace NeverMind

open List Option

namespace FdLayer

variable {F : Type*} (ops : FsOps F) {L L' : FdLayer F} {task : Task} {fd : ℤ} {k : Fin 16}

def accepted (k : Fin 16) (call : FdCall) (task : Task) (L : FdLayer F) : List Byte :=
  match call with
  | .write fd (some data) len =>
    if L.endOf task fd = some (.pipeW, k) then
      (range (L.nmFdWrite ops task fd (some data) len).1.toNat).map data
    else []
  | _ => []

def returned (k : Fin 16) (call : FdCall) (task : Task) (L : FdLayer F) : List Byte :=
  match call with
  | .read fd buf len =>
    if L.endOf task fd = some (.pipeR, k) then (L.nmFdRead ops task fd buf len).1.2 else []
  | _ => []

/-! ## What reads and writes do -/

theorem endOf_eq_some {kind : FdobjKind} (h : L.endOf task fd = some (kind, k)) :
    ∃ i, L.fdobjGet (taskFdobjId task fd) = some i ∧ (L.fdobjTable i).kind = kind ∧
      pipeIndex (L.fdobjTable i).pipeId = some k := by
  unfold endOf at h
  split at h
  · exact absurd h.symm (some_ne_none _)
  · rename_i i hi
    split at h
    · exact absurd h.symm (some_ne_none _)
    · rename_i j hj
      cases h
      exact ⟨i, hi, rfl, hj⟩

theorem taskFdobjId_ne_of_get {i : Fin 128} (h : L.fdobjGet (taskFdobjId task fd) = some i) :
    taskFdobjId task fd ≠ -1 := by
  intro hempty
  have hnone : fdobjIndex (-1) = none := by decide
  rw [hempty, fdobjGet, hnone] at h
  exact absurd h.symm (some_ne_none i)

theorem resolveFd_of_get {i : Fin 128} (h : L.fdobjGet (taskFdobjId task fd) = some i) :
    L.resolveFd task fd = (some i, task, L) := by
  simp only [resolveFd, h]

theorem resolveFd_adopted (h : L.fdobjGet (taskFdobjId task fd) = none) :
    (L.resolveFd task fd).2.2.pipeTable = L.pipeTable ∧ ∀ i, (L.resolveFd task fd).1 = some i →
        ((L.resolveFd task fd).2.2.fdobjTable i).kind = .fs := by
  have hneg : ∀ (n : ℤ) (L : FdLayer F), n < 0 → L.fdobjGet n = none := by
    intro n L hn
    have hnone : fdobjIndex n = none := by
      unfold fdobjIndex
      rw [dif_neg]
      omega
    simp only [fdobjGet, hnone]
  simp only [resolveFd, h]
  unfold adoptLegacyFsFd
  dsimp only
  split
  · refine ⟨rfl, fun i hi => ?_⟩
    have hnone := hneg (nmErr nmEinval) L (by decide)
    exact absurd (hi.symm.trans hnone) (some_ne_none i)
  · rw [h]
    dsimp only
    unfold createFsObj allocFdobj
    cases (finRange 128).find? fun i => !(L.fdobjTable i).used with
    | none =>
      refine ⟨rfl, fun i hi => ?_⟩
      have hnone := hneg (nmErr nmEnomem) L (by decide)
      exact absurd (hi.symm.trans hnone) (some_ne_none i)
    | some j =>
      refine ⟨rfl, fun i hi => ?_⟩
      have hindex : fdobjIndex (j.val : ℤ) = some j := fdobjIndex_eq_some.mpr rfl
      simp only [fdobjGet, hindex, fdobjTable_setFdobj, Function.update_self, if_true] at hi
      cases hi
      simp

theorem nmFdRead_of_end (h : L.endOf task fd = some (.pipeR, k)) (len : ℕ)
    (hused : (L.pipeTable k).used = true) :
    L.nmFdRead ops task fd true len =
      ((((readLoop len (L.pipeTable k)).1.length : ℤ), (readLoop len (L.pipeTable k)).1), task,
        L.setPipe k (readLoop len (L.pipeTable k)).2) := by
  obtain ⟨i, hget, hkind, hindex⟩ := endOf_eq_some h
  simp only [nmFdRead, taskFdobjId_ne_of_get hget, resolveFd_of_get hget, readFromFdobj, hkind,
    hindex, readFromPipe, hused, Bool.not_true, Bool.false_eq_true, if_false]

theorem nmFdWrite_of_end (h : L.endOf task fd = some (.pipeW, k)) (data : ℕ → Byte) (len : ℕ)
    (hused : (L.pipeTable k).used = true) :
    L.nmFdWrite ops task fd (some data) len = (((writeLoop data len 0 (L.pipeTable k)).1 : ℤ), task,
        L.setPipe k (writeLoop data len 0 (L.pipeTable k)).2) := by
  obtain ⟨i, hget, hkind, hindex⟩ := endOf_eq_some h
  simp only [nmFdWrite, taskFdobjId_ne_of_get hget, resolveFd_of_get hget, writeToFdobj, hkind,
    hindex, writeToPipe, hused, Bool.not_true, Bool.false_eq_true, if_false]

theorem pipeTable_nmFdRead_of_ne (h : L.endOf task fd ≠ some (.pipeR, k)) (buf : Bool) (len : ℕ) :
    (L.nmFdRead ops task fd buf len).2.2.pipeTable k = L.pipeTable k := by
  unfold nmFdRead
  split
  · rfl
  · split
    · rfl
    · cases hget : L.fdobjGet (taskFdobjId task fd) with
      | some i =>
        rw [resolveFd_of_get hget]
        dsimp only
        unfold readFromFdobj
        dsimp only
        split
        · rename_i hkind
          split
          · rfl
          · rename_i j hj
            have hne : k ≠ j := by
              rintro rfl
              exact h (by simp only [endOf, hget, hj, hkind])
            simp [hne]
        · rfl
        · rfl
      | none =>
        obtain ⟨htable, hfile⟩ := resolveFd_adopted hget
        split
        · rename_i i task₁ L₁ hrun
          rw [hrun] at htable hfile
          have hkind : (L₁.fdobjTable i).kind = .fs := hfile i rfl
          simp only [readFromFdobj, hkind]
          exact congrFun htable k
        · rename_i task₁ L₁ hrun
          rw [hrun] at htable
          exact congrFun htable k

theorem pipeTable_nmFdWrite_of_ne (h : L.endOf task fd ≠ some (.pipeW, k)) (buf : Option (ℕ → Byte))
    (len : ℕ) : (L.nmFdWrite ops task fd buf len).2.2.pipeTable k = L.pipeTable k := by
  unfold nmFdWrite
  split
  · rfl
  · rename_i data
    split
    · rfl
    · cases hget : L.fdobjGet (taskFdobjId task fd) with
      | some i =>
        rw [resolveFd_of_get hget]
        dsimp only
        unfold writeToFdobj
        dsimp only
        split
        · rename_i hkind
          split
          · rfl
          · rename_i j hj
            have hne : k ≠ j := by
              rintro rfl
              exact h (by simp only [endOf, hget, hj, hkind])
            simp [hne]
        · rfl
        · rfl
      | none =>
        obtain ⟨htable, hfile⟩ := resolveFd_adopted hget
        split
        · rename_i i task₁ L₁ hrun
          rw [hrun] at htable hfile
          have hkind : (L₁.fdobjTable i).kind = .fs := hfile i rfl
          simp only [writeToFdobj, hkind]
          exact congrFun htable k
        · rename_i task₁ L₁ hrun
          rw [hrun] at htable
          exact congrFun htable k

/-! ## One call -/

/-- The state of a pipe through which `acc` came in and `ret` went out. -/
structure Fifo (acc ret : List Byte) (pipe : Pipe) : Prop where
  used : pipe.used = true
  writePos : pipe.writePos = acc.length
  readPos : pipe.readPos = ret.length
  queue : ret ++ pipe.buffered = acc
  room : pipe.buffered.length ≤ 512

variable {acc ret : List Byte}

theorem Fifo.inOrder {pipe : Pipe} (h : Fifo acc ret pipe) (hlt : acc.length < 2 ^ 64) :
    pipe.InOrder := by
  have hqueue := congrArg length h.queue
  rw [length_append] at hqueue
  refine ⟨?_, ?_, ?_⟩
  · rw [h.writePos, h.readPos]
    omega
  · rw [← Pipe.length_buffered]
    exact h.room
  · rw [h.writePos]
    exact hlt

theorem Fifo.of_sameRings (h : Fifo acc ret (L.pipeTable k)) (hsame : SameRings L L')
    (hused : (L'.pipeTable k).used = true) : Fifo acc ret (L'.pipeTable k) := by
  obtain ⟨-, hbuf, hr, hw⟩ := hsame k hused
  have hqueue : (L'.pipeTable k).buffered = (L.pipeTable k).buffered := by
    rw [Pipe.buffered, hbuf, hr, hw, Pipe.buffered]
  exact ⟨hused, hw.trans h.writePos, hr.trans h.readPos, hqueue ▸ h.queue, hqueue ▸ h.room⟩

theorem Fifo.nmFdRead_eq (h : Fifo acc ret (L.pipeTable k)) (hlt : acc.length < 2 ^ 64)
    (hend : L.endOf task fd = some (.pipeR, k)) (len : ℕ) :
    (L.nmFdRead ops task fd true len).1 = (((min len (L.pipeTable k).buffered.length : ℕ) : ℤ),
        (L.pipeTable k).buffered.take len) := by
  obtain ⟨hbytes, -, -⟩ := readLoop_spec len (h.inOrder hlt)
  rw [nmFdRead_of_end ops hend len h.used, hbytes, length_take]

theorem Fifo.nmFdWrite_eq (h : Fifo acc ret (L.pipeTable k)) (hlt : acc.length < 2 ^ 64)
    (hend : L.endOf task fd = some (.pipeW, k)) (data : ℕ → Byte) (len : ℕ) :
    (L.nmFdWrite ops task fd (some data) len).1 =
      ((min len (512 - (L.pipeTable k).buffered.length) : ℕ) : ℤ) := by
  have horder := h.inOrder hlt
  have hdist : u64Sub (L.pipeTable k).writePos (L.pipeTable k).readPos =
      (L.pipeTable k).buffered.length := by
    rw [Pipe.length_buffered]
    exact u64Sub_of_le horder.le horder.lt
  rw [nmFdWrite_of_end ops hend data len h.used]
  dsimp only
  rw [writeLoop_fst data len 0 (hdist.trans_le h.room), hdist, Nat.zero_add]

theorem Fifo.read (h : Fifo acc ret (L.pipeTable k)) (hlt : acc.length < 2 ^ 64) (fd : ℤ)
    (buf : Bool) (len : ℕ) :
    Fifo acc (ret ++ L.returned ops k (.read fd buf len) task)
      ((L.nmFdRead ops task fd buf len).2.2.pipeTable k) := by
  unfold returned
  dsimp only
  by_cases hend : L.endOf task fd = some (.pipeR, k)
  · rw [if_pos hend]
    cases buf with
    | false => simpa [nmFdRead] using h
    | true =>
      obtain ⟨hbytes, hpipe, hrest⟩ := readLoop_spec len (h.inOrder hlt)
      rw [nmFdRead_of_end ops hend len h.used]
      simp only [pipeTable_setPipe, Function.update_self]
      refine ⟨?_, ?_, ?_, ?_, ?_⟩
      · rw [hpipe]
        exact h.used
      · rw [hpipe]
        exact h.writePos
      · rw [hpipe, hbytes, length_append, length_take, Pipe.length_buffered, h.readPos]
      · rw [hbytes, hrest, append_assoc, take_append_drop]
        exact h.queue
      · rw [hrest, length_drop]
        exact (Nat.sub_le _ _).trans h.room
  · rw [if_neg hend, append_nil, pipeTable_nmFdRead_of_ne ops hend buf len]
    exact h

theorem Fifo.write (h : Fifo acc ret (L.pipeTable k)) (fd : ℤ) (buf : Option (ℕ → Byte)) (len : ℕ)
    (hlt : (acc ++ L.accepted ops k (.write fd buf len) task).length < 2 ^ 64) :
    Fifo (acc ++ L.accepted ops k (.write fd buf len) task) ret
      ((L.nmFdWrite ops task fd buf len).2.2.pipeTable k) := by
  cases buf with
  | none => simpa [accepted, nmFdWrite] using h
  | some data =>
    have hacc : acc.length < 2 ^ 64 := by
      rw [length_append] at hlt
      omega
    unfold accepted at hlt ⊢
    dsimp only at hlt ⊢
    by_cases hend : L.endOf task fd = some (.pipeW, k)
    · rw [if_pos hend, h.nmFdWrite_eq ops hacc hend, Int.toNat_natCast] at hlt ⊢
      rw [length_append, length_map, length_range, Pipe.length_buffered, ← h.writePos] at hlt
      obtain ⟨hqueue, hw⟩ := writeLoop_spec data len 0 (h.inOrder hacc) hlt
      obtain ⟨buf, writePos, hpipe⟩ := writeLoop_counts data len 0 (L.pipeTable k)
      simp only [Nat.zero_add] at hqueue
      rw [nmFdWrite_of_end ops hend data len h.used]
      simp only [pipeTable_setPipe, Function.update_self]
      rw [Pipe.length_buffered]
      refine ⟨?_, ?_, ?_, ?_, ?_⟩
      · rw [hpipe]
        exact h.used
      · rw [hw, h.writePos, length_append, length_map, length_range]
      · rw [hpipe]
        exact h.readPos
      · rw [hqueue, ← append_assoc, h.queue]
      · have hroom := h.room
        rw [Pipe.length_buffered] at hroom
        rw [hqueue, length_append, Pipe.length_buffered, length_map, length_range]
        omega
    · rw [if_neg hend, append_nil, pipeTable_nmFdWrite_of_ne ops hend]
      exact h

/-- One call on the descriptors of any task keeps the stream of a pipe that stays in use. -/
theorem Fifo.fdCall (h : Fifo acc ret (L.pipeTable k)) (call : FdCall)
    (hused : ((L.fdCall ops call task).2.2.pipeTable k).used = true)
    (hlt : (acc ++ L.accepted ops k call task).length < 2 ^ 64) :
    Fifo (acc ++ L.accepted ops k call task) (ret ++ L.returned ops k call task)
      ((L.fdCall ops call task).2.2.pipeTable k) := by
  cases call with
  | pipe =>
    simp only [accepted, returned, append_nil]
    change Fifo acc ret ((L.nmFdPipe ops task).2.2.pipeTable k)
    rw [pipeTable_nmFdPipe_of_used ops task h.used]
    exact h
  | dup2 oldfd newfd =>
    simp only [accepted, returned, append_nil]
    exact h.of_sameRings (sameRings_nmFdDup2 ops task oldfd newfd L) hused
  | close fd =>
    simp only [accepted, returned, append_nil]
    exact h.of_sameRings (sameRings_nmFdClose ops task fd L) hused
  | read fd buf len =>
    simp only [accepted, append_nil] at hlt ⊢
    exact h.read ops hlt fd buf len
  | write fd buf len =>
    have hnone : L.returned ops k (.write fd buf len) task = [] := rfl
    rw [hnone, append_nil]
    exact h.write ops fd buf len hlt
  | setCloexec fd enabled =>
    simp only [accepted, returned, append_nil]
    exact h
  | closeOnExec =>
    simp only [accepted, returned, append_nil]
    exact h.of_sameRings (sameRings_nmFdCloseOnExec ops task L) hused

/-! ## Runs -/

theorem fifo_openedPipe (pipe : Pipe) : Fifo [] [] (openedPipe pipe) := by
  have hempty : (openedPipe pipe).buffered = [] := Ring.contents_of_le _ (Nat.le_refl 0)
  exact ⟨rfl, rfl, rfl, by rw [hempty]; rfl, by simp [hempty]⟩

end FdLayer

/-- A kernel with the bytes that came in and went out of a pipe so far. -/
structure Streamed (F : Type*) where
  kernel : Kernel F
  accepted : List Byte
  returned : List Byte

namespace Kernel

variable {F : Type*} (ops : FsOps F) {k : Kernel F}

def openPipe (t : TaskRef) (k : Kernel F) : (ℤ × Option (Fin 32 × Fin 32)) × Kernel F :=
  k.onTask t fun task L => L.nmFdPipe ops task

/-- A call by any task after which the slot of the pipe is still in use. -/
inductive StreamStep (p : Fin 16) (s : Streamed F) : Streamed F → Prop where
  | fdCall (t : TaskRef) (call : FdCall)
      (hused : ((s.kernel.onTask t fun task L => L.fdCall ops call task).2.fd.pipeTable p).used =
        true) :
      StreamStep p s
        ⟨(s.kernel.onTask t fun task L => L.fdCall ops call task).2,
          s.accepted ++ s.kernel.fd.accepted ops p call (s.kernel.proc.taskTable t),
          s.returned ++ s.kernel.fd.returned ops p call (s.kernel.proc.taskTable t)⟩
  | taskCall (call : TaskCall) (hused : ((s.kernel.taskCall call).fd.pipeTable p).used = true) :
      StreamStep p s ⟨s.kernel.taskCall call, s.accepted, s.returned⟩

/-- Of the task calls only a fork touches descriptors. -/
theorem sameRings_taskCall (call : TaskCall) (k : Kernel F) :
    k.fd.SameRings (k.taskCall call).fd := by
  cases call with
  | fork kstack =>
    cases sysFork_spec kstack k with
    | inl hfail =>
      simp only [taskCall, hfail]
      exact .refl k.fd
    | inr hmade =>
      obtain ⟨parent, child, k', hrun, hforked⟩ := hmade
      obtain ⟨copy, -, -, hfd⟩ := hforked.inherits
      simp only [taskCall, hrun, ← hfd]
      exact FdLayer.sameRings_nmFdOnForkChild copy k.fd
  | createKernelThread | exit | waitpid | setPolicy | tick | yield => exact .refl k.fd

variable {p : Fin 16}

theorem StreamStep.accepted_le {s s' : Streamed F} (h : StreamStep ops p s s') :
    s.accepted.length ≤ s'.accepted.length := by
  cases h with
  | fdCall t call hused => simp
  | taskCall call hused => exact Nat.le_refl _

theorem StreamStep.fifo {s s' : Streamed F} (h : StreamStep ops p s s')
    (hlt : s'.accepted.length < 2 ^ 64)
    (hs : FdLayer.Fifo s.accepted s.returned (s.kernel.fd.pipeTable p)) :
    FdLayer.Fifo s'.accepted s'.returned (s'.kernel.fd.pipeTable p) := by
  cases h with
  | fdCall t call hused => exact hs.fdCall ops call hused hlt
  | taskCall call hused => exact hs.of_sameRings (sameRings_taskCall call s.kernel) hused

theorem fifo_run {s s' : Streamed F} (hrun : Relation.ReflTransGen (StreamStep ops p) s s')
    (hlt : s'.accepted.length < 2 ^ 64)
    (hs : FdLayer.Fifo s.accepted s.returned (s.kernel.fd.pipeTable p)) :
    FdLayer.Fifo s'.accepted s'.returned (s'.kernel.fd.pipeTable p) := by
  induction hrun with
  | refl => exact hs
  | tail _ hstep ih =>
    have hle := hstep.accepted_le
    exact hstep.fifo ops hlt (ih (by omega))

theorem fifo_openPipe {t : TaskRef} {rd wr : Fin 32}
    (hpipe : (k.openPipe ops t).1 = (0, some (rd, wr)))
    (hend : (k.openPipe ops t).2.fd.endOf ((k.openPipe ops t).2.proc.taskTable t) rd.val =
      some (.pipeR, p)) : FdLayer.Fifo [] [] ((k.openPipe ops t).2.fd.pipeTable p) := by
  cases FdLayer.nmFdPipe_spec ops (k.proc.taskTable t) k.fd with
  | inl hfail =>
    obtain ⟨L', hrun, -⟩ := hfail
    simp only [openPipe, onTask, hrun] at hpipe
    have hret : nmErr nmEnomem = 0 := congrArg Prod.fst hpipe
    exact absurd hret (by decide)
  | inr hok =>
    obtain ⟨j, rd', wr', task', L', hrun, hmade⟩ := hok
    simp only [openPipe, onTask, hrun, Proc.taskTable_setTask, Function.update_self]
      at hpipe hend ⊢
    have hrd : rd' = rd := (Prod.mk.inj (some.inj (Prod.mk.inj hpipe).2)).1
    subst hrd
    have hpj : p = j := (Prod.mk.inj (some.inj (hend.symm.trans hmade.endOf_ends.1))).2
    subst hpj
    obtain ⟨i, i', -, -, -, -, rfl⟩ := hmade.made
    simpa using FdLayer.fifo_openedPipe (k.fd.pipeTable p)

/-- A pipe is a loss-free first-in first-out stream. From the call that creates it, through
any calls of any tasks while its slot is in use, what was returned and what is buffered is
what was accepted; the ring bounds what is buffered; and a transfer moves as many bytes as
there are or as there is room for. The stream starts empty, also in a slot used before. -/
theorem pipe_is_fifo {k : Kernel F} {t : TaskRef} {rd wr : Fin 32} {s : Streamed F}
    (hpipe : (k.openPipe ops t).1 = (0, some (rd, wr)))
    (hend : (k.openPipe ops t).2.fd.endOf ((k.openPipe ops t).2.proc.taskTable t) rd.val =
      some (.pipeR, p))
    (hrun : Relation.ReflTransGen (StreamStep ops p) ⟨(k.openPipe ops t).2, [], []⟩ s)
    (hlt : s.accepted.length < 2 ^ 64) :
    ((k.openPipe ops t).2.fd.pipeTable p).buffered = [] ∧
      s.returned ++ (s.kernel.fd.pipeTable p).buffered = s.accepted ∧
      (s.kernel.fd.pipeTable p).buffered.length ≤ 512 ∧
      (∀ (task : Task) (fd : ℤ) (data : ℕ → Byte) (len : ℕ),
        s.kernel.fd.endOf task fd = some (.pipeW, p) →
        (s.kernel.fd.nmFdWrite ops task fd (some data) len).1 =
          ((min len (512 - (s.kernel.fd.pipeTable p).buffered.length) : ℕ) : ℤ)) ∧
      (∀ (task : Task) (fd : ℤ) (len : ℕ), s.kernel.fd.endOf task fd = some (.pipeR, p) →
        (s.kernel.fd.nmFdRead ops task fd true len).1 =
          (((min len (s.kernel.fd.pipeTable p).buffered.length : ℕ) : ℤ),
            (s.kernel.fd.pipeTable p).buffered.take len)) := by
  have hstart := fifo_openPipe ops hpipe hend
  have hs := fifo_run ops hrun hlt hstart
  have hempty : ((k.openPipe ops t).2.fd.pipeTable p).buffered = [] := by
    have hqueue := hstart.queue
    rwa [nil_append] at hqueue
  refine ⟨hempty, hs.queue, hs.room, ?_, ?_⟩
  · intro task fd data len hw
    exact hs.nmFdWrite_eq ops hlt hw data len
  · intro task fd len hr
    exact hs.nmFdRead_eq ops hlt hr len

def threeWritten : Streamed Unit :=
  let k := (booted.openPipe noFiles 0).2
  let call : FdCall := .write 1 (some fun i => BitVec.ofNat 8 (i + 65)) 3
  ⟨(k.onTask 0 fun task L => L.fdCall noFiles call task).2,
    k.fd.accepted noFiles 0 call (k.proc.taskTable 0), []⟩

def twoRead : Streamed Unit :=
  ⟨(threeWritten.kernel.onTask 0 fun task L => L.fdCall noFiles (.read 0 true 2) task).2,
    threeWritten.accepted,
    threeWritten.kernel.fd.returned noFiles 0 (.read 0 true 2)
      (threeWritten.kernel.proc.taskTable 0)⟩

theorem pipe_is_fifo_twoRead :
    twoRead.returned ++ (twoRead.kernel.fd.pipeTable 0).buffered = twoRead.accepted ∧
      twoRead.accepted = [65, 66, 67] ∧ twoRead.returned = [65, 66] := by
  have hpipe : (booted.openPipe noFiles 0).1 = (0, some (0, 1)) := by decide +kernel
  have hend : (booted.openPipe noFiles 0).2.fd.endOf
      ((booted.openPipe noFiles 0).2.proc.taskTable 0) 0 = some (.pipeR, 0) := by decide +kernel
  have hwrite : StreamStep noFiles 0 ⟨(booted.openPipe noFiles 0).2, [], []⟩ threeWritten :=
    .fdCall 0 (.write 1 (some fun i => BitVec.ofNat 8 (i + 65)) 3) (by decide +kernel)
  have hread : StreamStep noFiles 0 threeWritten twoRead :=
    .fdCall 0 (.read 0 true 2) (by decide +kernel)
  have hlt : twoRead.accepted.length < 2 ^ 64 := by decide +kernel
  obtain ⟨-, hqueue, -⟩ := pipe_is_fifo noFiles hpipe hend (.head hwrite (.single hread)) hlt
  exact ⟨hqueue, by decide +kernel, by decide +kernel⟩

end Kernel

end NeverMind
