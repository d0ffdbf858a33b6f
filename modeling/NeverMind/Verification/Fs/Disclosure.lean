import NeverMind.Verification.Fs.Gaps

/-! # What reads disclose

Runs of opens, seeks, writes and reads, against a store that fills gaps with zeros and records
which positions were written. The reads of a run depend on nothing but the run exactly if none of
them returns a position that was never written. -/

namespace NeverMind

open List

/-- The calls of a run. -/
inductive DataCall where
  | openFile (path : Option (List Byte)) (flags : ℕ)
  | lseek (fd offset whence : ℤ)
  | write (fd : ℤ) (buf : Option (ℕ → Byte)) (len : ℕ)
  | read (fd : ℤ) (buf : Bool) (len : ℕ)

/-- The call when `NM_ALLOC` succeeds with memory that holds the given bytes. -/
def DataCall.withMemory (memory : ℕ → ℕ → Byte) : DataCall → FsCall
  | .openFile path flags => .openFile path flags
  | .lseek fd offset whence => .lseek fd offset whence
  | .write fd buf len => .write (Vfs.giving memory) fd buf len
  | .read fd buf len => .read fd buf len

/-- The calls of a run, where `memory n` is what the memory holds at the call of number `n`. -/
def callsWith : (ℕ → ℕ → ℕ → Byte) → List DataCall → List FsCall
  | _, [] => []
  | memory, c :: cs => c.withMemory (memory 0) :: callsWith (fun n => memory (n + 1)) cs

/-! ## The store without memory -/

/-- A store whose gaps hold zeros, and for each file the positions that were written. -/
structure ZeroStore where
  store : FileStore
  written : ℕ → ℕ → Bool

/-- An output, and which of its bytes were written. -/
structure ZeroOut where
  out : FsOut
  seen : ℕ → Bool

namespace ZeroStore

def empty : ZeroStore := ⟨.empty, fun _ _ => false⟩

def call (c : DataCall) (z : ZeroStore) : ZeroOut × ZeroStore :=
  match c with
  | .openFile path flags =>
    let r := z.store.openFile (path.map cutPath) (flags &&& nmOCreat ≠ 0)
    (⟨.number r.1, fun _ => false⟩, { z with store := r.2 })
  | .lseek fd offset whence =>
    let r := z.store.lseek fd offset whence
    (⟨.number r.1, fun _ => false⟩, { z with store := r.2 })
  | .write fd buf len =>
    let r := z.store.writeFilled (fun _ => 0) fd buf len
    (⟨.number r.1, fun _ => false⟩, ⟨r.2, z.store.markWritten z.written fd buf len⟩)
  | .read fd buf len =>
    let r := z.store.read fd buf len
    (⟨⟨r.1.1, r.1.2, none⟩, z.store.seen z.written fd buf len⟩, { z with store := r.2 })

def run : List DataCall → ZeroStore → List ZeroOut
  | [], _ => []
  | c :: cs, z => (z.call c).1 :: run cs (z.call c).2

/-- Seeks by a signed 64-bit distance, and writes that end below `2 ^ 63`. -/
def Allowed (c : DataCall) (z : ZeroStore) : Prop :=
  match c with
  | .lseek _ offset _ => -2 ^ 63 ≤ offset ∧ offset < 2 ^ 63
  | .write fd _ len =>
    ∀ i k offset, z.store.handle fd = some (i, ⟨.file k, offset⟩) → offset + len < 2 ^ 63
  | .openFile _ _ | .read _ _ _ => True

def AllowedRun (calls : List DataCall) : Prop :=
  EachStep (fun c z => (ZeroStore.call c z).2) Allowed calls empty

end ZeroStore

/-! ## Runs -/

/-- The state holds the zero-filled store, with bytes related by `R` to zero where nothing was
written. -/
def Vfs.Follows (R : Byte → Byte → Prop) (z : ZeroStore) (s : Vfs Tmpfs NodeRef) : Prop :=
  ∃ a, Refines a s ∧ FileStore.Tracks R z.written z.store a ∧ Tmpfs.Spare (R 0) s.nodes

/-- An output of the code beside that of the zero-filled store. -/
structure ZeroOut.Shows (R : Byte → Byte → Prop) (z : ZeroOut) (out : FsOut) : Prop where
  ret : out.ret = z.out.ret
  stat : out.stat = z.out.stat
  bytes : Agree R z.seen z.out.bytes out.bytes

namespace Vfs

variable {R : Byte → Byte → Prop} {z : ZeroStore} {s : Vfs Tmpfs NodeRef} {fuel : ℕ}

theorem follows_mounted (R : Byte → Byte → Prop) (s : Vfs Tmpfs NodeRef) :
    Follows R .empty s.mounted.2 := by
  refine ⟨.empty, (mounted_refines s).2, ⟨rfl, rfl, fun k => ?_⟩, spare_mounted (R 0) s⟩
  exact Agree.nil R

theorem shows_number (R : Byte → Byte → Prop) (ret : ℤ) :
    ZeroOut.Shows R ⟨.number ret, fun _ => false⟩ (.number ret) :=
  ⟨rfl, rfl, Agree.nil R⟩

theorem handles_of_handle {a : FileStore} {fd : ℤ} {i : FileRef} {d : Handle}
    (h : a.handle fd = some (i, d)) : a.handles i = some d := by
  rcases handle_cases fd a with hnone | ⟨j, e, hsome, he⟩
  · rw [hnone] at h
    cases h
  · rw [hsome] at h
    cases h
    exact he

/-- A write returns, and fills the gap before it with bytes that are related to zero. -/
theorem Follows.write (h : Follows R z s) (hfuel : 512 ≤ fuel) {memory : ℕ → ℕ → Byte}
    (hmemory : ∀ n p, R 0 (memory n p)) (fd : ℤ) (buf : Option (ℕ → Byte)) (len : ℕ)
    (hend : ∀ i k offset, z.store.handle fd = some (i, ⟨.file k, offset⟩) →
      offset + len < 2 ^ 63) :
    ∃ s', s.fsWrite Tmpfs.filesystem fuel (giving memory) fd buf len =
        some ((z.store.writeFilled (fun _ => 0) fd buf len).1, s') ∧
      Follows R ⟨(z.store.writeFilled (fun _ => 0) fd buf len).2,
        z.store.markWritten z.written fd buf len⟩ s' := by
  obtain ⟨a, hrefines, htracks, hspare⟩ := h
  rw [← htracks.handle] at hend
  have hgrow : 64 ≤ fuel := by omega
  obtain ⟨fill, s', hcall, hnext, hspare', hfill⟩ :=
    hrefines.fsWrite_gap hspare hgrow hmemory fd buf len hend
  have hwithin : ∀ i k offset, z.store.handle fd = some (i, ⟨.file k, offset⟩) →
      k < z.store.files.length := by
    intro i k offset hhandle
    rw [← htracks.handle] at hhandle
    rw [← htracks.files_length]
    exact (hrefines.opened (handles_of_handle hhandle)).within
  have hrelated : ∀ i k offset src, z.store.handle fd = some (i, ⟨.file k, offset⟩) →
      buf = some src → ∀ p, (z.store.contents (.file k)).length ≤ p → p < offset →
        R ((fun _ => 0) p) (fill p) := by
    intro i k offset src hhandle hbuf p hp hgap
    rw [← htracks.handle] at hhandle
    rw [← htracks.contents_length] at hp
    exact hfill i k offset src hhandle hbuf p hp hgap
  obtain ⟨hret, htracks'⟩ := htracks.writeFilled fd buf len hwithin hrelated
  rw [hret] at hcall
  exact ⟨s', hcall, _, hnext, htracks', hspare'⟩

/-- Every call returns, with an output that agrees with that of the zero-filled store. -/
theorem Follows.call (h : Follows R z s) (hfuel : 512 ≤ fuel) {memory : ℕ → ℕ → Byte}
    (hmemory : ∀ n p, R 0 (memory n p)) {c : DataCall} (hallowed : ZeroStore.Allowed c z) :
    ∃ out s', s.call fuel (c.withMemory memory) = some (out, s') ∧ (z.call c).1.Shows R out ∧
      Follows R (z.call c).2 s' := by
  cases c with
  | openFile path flags =>
    obtain ⟨a, hrefines, htracks, hspare⟩ := h
    obtain ⟨s', hcall, hnext⟩ := hrefines.fsOpen_cutPath hfuel path flags
    obtain ⟨hret, htracks'⟩ := htracks.openFile (path.map cutPath) (flags &&& nmOCreat ≠ 0)
    have hspare' := spare_fsOpen hspare hcall
    rw [hret] at hcall
    exact ⟨_, s', by rw [DataCall.withMemory, Vfs.call, callOn, hcall]; rfl, shows_number R _, _,
      hnext, htracks', hspare'⟩
  | lseek fd offset whence =>
    obtain ⟨a, hrefines, htracks, hspare⟩ := h
    obtain ⟨hout, hnext⟩ := hrefines.fsLseek fd whence hallowed.1 hallowed.2
    obtain ⟨hret, htracks'⟩ := htracks.lseek fd offset whence
    rw [← nodes_fsLseek Tmpfs.filesystem fd offset whence] at hspare
    refine ⟨_, _, rfl, ?_, _, hnext, htracks', hspare⟩
    rw [hout, hret]
    exact shows_number R _
  | write fd buf len =>
    obtain ⟨s', hcall, hnext⟩ := h.write hfuel hmemory fd buf len hallowed
    exact ⟨_, s', by rw [DataCall.withMemory, Vfs.call, callOn, hcall]; rfl, shows_number R _,
      hnext⟩
  | read fd buf len =>
    obtain ⟨a, hrefines, htracks, hspare⟩ := h
    obtain ⟨hout, hnext⟩ := hrefines.fsRead fd buf len
    obtain ⟨hret, hbytes, htracks'⟩ := htracks.read fd buf len
    rw [← nodes_fsRead Tmpfs.filesystem fd buf len] at hspare
    refine ⟨_, _, rfl, ⟨?_, rfl, ?_⟩, _, hnext, htracks', hspare⟩
    · dsimp only
      rw [hout, hret]
      rfl
    · dsimp only
      rw [hout]
      exact hbytes

theorem Follows.run {calls : List DataCall} (h : Follows R z s) (hfuel : 512 ≤ fuel)
    {memory : ℕ → ℕ → ℕ → Byte} (hmemory : ∀ m n p, R 0 (memory m n p))
    (hallowed : EachStep (fun c z => (ZeroStore.call c z).2) ZeroStore.Allowed calls z) :
    ∃ outs s', s.run fuel (callsWith memory calls) = some (outs, s') ∧
      Forall₂ (ZeroOut.Shows R) (z.run calls) outs := by
  induction calls generalizing z s memory with
  | nil => exact ⟨[], s, rfl, .nil⟩
  | cons c calls ih =>
    obtain ⟨out, s', hcall, hshows, hnext⟩ := h.call hfuel (hmemory 0) hallowed.1
    obtain ⟨outs, s'', hrun, hrest⟩ := ih hnext (fun m => hmemory (m + 1)) hallowed.2
    refine ⟨out :: outs, s'', ?_, .cons hshows hrest⟩
    rw [callsWith, run_cons hcall, hrun]
    rfl

end Vfs

/-! ## The two-run property -/

def Outputs (fuel : ℕ) (calls : List DataCall) (s : Vfs Tmpfs NodeRef)
    (memory : ℕ → ℕ → ℕ → Byte) (outs : List FsOut) : Prop :=
  ∃ s', s.mounted.2.run fuel (callsWith memory calls) = some (outs, s')

/-- The outputs are a function of the calls alone. -/
def IndependentOfMemory (fuel : ℕ) (calls : List DataCall) : Prop :=
  ∃ outs, ∀ s memory, Outputs fuel calls s memory outs

/-- The outputs are those of the store whose gaps hold zeros. -/
def GapsReadZero (fuel : ℕ) (calls : List DataCall) : Prop :=
  ∀ s memory, Outputs fuel calls s memory ((ZeroStore.empty.run calls).map ZeroOut.out)

/-- No read returns a position that was never written. -/
def ReadsWritten (calls : List DataCall) : Prop :=
  ∀ r ∈ ZeroStore.empty.run calls, ∀ j < r.out.bytes.length, r.seen j = true

/-- Memory that holds `c` shows at every position that was never written. -/
theorem ZeroOut.Shows.gap {c : Byte} {r : ZeroOut} {out : FsOut}
    (h : r.Shows (fun x y => x = 0 ∧ y = c) out) {j : ℕ} (hj : j < r.out.bytes.length)
    (hgap : r.seen j = false) : r.out.bytes[j]? = some 0 ∧ out.bytes[j]? = some c := by
  have hj' : j < out.bytes.length := by rwa [h.bytes.length]
  obtain ⟨hzero, hc⟩ := h.bytes.other j _ _ hgap (getElem?_eq_getElem hj)
    (getElem?_eq_getElem hj')
  rw [getElem?_eq_getElem hj, getElem?_eq_getElem hj', hzero, hc]
  exact ⟨rfl, rfl⟩

theorem ZeroOut.Shows.eq {R : Byte → Byte → Prop} {r : ZeroOut} {out : FsOut} (h : r.Shows R out)
    (hall : ∀ j < r.out.bytes.length, r.seen j = true) : r.out = out := by
  have hbytes := h.bytes.eq hall
  obtain ⟨hret, hstat, -⟩ := h
  obtain ⟨⟨ret, bytes, stat⟩, seen⟩ := r
  obtain ⟨ret', bytes', stat'⟩ := out
  dsimp only at hret hstat hbytes ⊢
  rw [hret, hstat, hbytes]

section

variable {fuel : ℕ} {calls : List DataCall}

theorem outputs_shows (hfuel : 512 ≤ fuel) (hallowed : ZeroStore.AllowedRun calls)
    (R : Byte → Byte → Prop) (memory : ℕ → ℕ → ℕ → Byte) (hmemory : ∀ m n p, R 0 (memory m n p))
    (s : Vfs Tmpfs NodeRef) :
    ∃ outs, Outputs fuel calls s memory outs ∧
      Forall₂ (ZeroOut.Shows R) (ZeroStore.empty.run calls) outs := by
  obtain ⟨outs, s', hrun, hshows⟩ := (Vfs.follows_mounted R s).run hfuel hmemory hallowed
  exact ⟨outs, ⟨s', hrun⟩, hshows⟩

theorem Outputs.unique {s : Vfs Tmpfs NodeRef} {memory : ℕ → ℕ → ℕ → Byte}
    {outs outs' : List FsOut} (h : Outputs fuel calls s memory outs)
    (h' : Outputs fuel calls s memory outs') : outs = outs' := by
  obtain ⟨t, ht⟩ := h
  obtain ⟨t', ht'⟩ := h'
  rw [ht] at ht'
  exact congrArg Prod.fst (Option.some.inj ht')

/-- Runs over memory full of `c` show it in the gaps. -/
theorem Outputs.shows (hfuel : 512 ≤ fuel) (hallowed : ZeroStore.AllowedRun calls)
    {s : Vfs Tmpfs NodeRef} {outs : List FsOut} {c : Byte}
    (h : Outputs fuel calls s (fun _ _ _ => c) outs) :
    Forall₂ (ZeroOut.Shows fun x y => x = 0 ∧ y = c) (ZeroStore.empty.run calls) outs := by
  obtain ⟨outs', houts', hshows⟩ := outputs_shows hfuel hallowed (fun x y => x = 0 ∧ y = c)
    (fun _ _ _ => c) (fun _ _ _ => ⟨rfl, rfl⟩) s
  rw [h.unique houts']
  exact hshows

theorem ReadsWritten.gapsReadZero (h : ReadsWritten calls) (hfuel : 512 ≤ fuel)
    (hallowed : ZeroStore.AllowedRun calls) : GapsReadZero fuel calls := by
  intro s memory
  obtain ⟨outs, houts, hshows⟩ := outputs_shows hfuel hallowed (fun _ _ => True) memory
    (fun _ _ _ => trivial) s
  have heq : (ZeroStore.empty.run calls).map ZeroOut.out = outs := by
    rw [← forall₂_eq_eq_eq, forall₂_map_left_iff]
    refine Forall₂.imp ?_ (forall₂_and_left _ _ |>.mpr ⟨h, hshows⟩)
    rintro r out ⟨hall, hr⟩
    exact hr.eq hall
  rw [heq]
  exact houts

theorem seen_of_shows {r : ZeroOut} {out out' : FsOut} {c c' : Byte} (hne : c ≠ c')
    (h : r.Shows (fun x y => x = 0 ∧ y = c) out) (h' : r.Shows (fun x y => x = 0 ∧ y = c') out')
    (hsame : out = out') : ∀ j < r.out.bytes.length, r.seen j = true := by
  intro j hj
  by_contra hgap
  rw [Bool.not_eq_true] at hgap
  have hc := (h.gap hj hgap).2
  rw [hsame, (h'.gap hj hgap).2] at hc
  exact hne (Option.some.inj hc).symm

theorem IndependentOfMemory.readsWritten (h : IndependentOfMemory fuel calls) (hfuel : 512 ≤ fuel)
    (hallowed : ZeroStore.AllowedRun calls) (s : Vfs Tmpfs NodeRef) : ReadsWritten calls := by
  obtain ⟨outs, houts⟩ := h
  -- the same outputs over memory full of 0 and over memory full of 1
  have hzero := (houts s fun _ _ _ => 0).shows hfuel hallowed
  have hone := (houts s fun _ _ _ => 1).shows hfuel hallowed
  have hboth : Forall₂ (fun r out => (∀ j < r.out.bytes.length, r.seen j = true) ∧
      r.Shows (fun x y => x = 0 ∧ y = 0) out) (ZeroStore.empty.run calls) outs := by
    refine Forall₂.mp ?_ hone hzero
    intro r out hr hr'
    exact ⟨seen_of_shows (by decide) hr hr' rfl, hr'⟩
  exact ((forall₂_and_left _ _).mp hboth).1

theorem GapsReadZero.independentOfMemory (h : GapsReadZero fuel calls) :
    IndependentOfMemory fuel calls :=
  ⟨_, h⟩

/-- A run is independent of the memory, and gaps read as zeros, exactly if no read returns a
position that was never written. -/
theorem reads_disclose_iff (hfuel : 512 ≤ fuel) (hallowed : ZeroStore.AllowedRun calls) :
    (IndependentOfMemory fuel calls ↔ ReadsWritten calls) ∧
      (GapsReadZero fuel calls ↔ ReadsWritten calls) := by
  refine ⟨⟨?_, ?_⟩, ⟨?_, ?_⟩⟩
  · intro h
    exact h.readsWritten hfuel hallowed Vfs.atBoot
  · intro h
    exact (h.gapsReadZero hfuel hallowed).independentOfMemory
  · intro h
    exact h.independentOfMemory.readsWritten hfuel hallowed Vfs.atBoot
  · intro h
    exact h.gapsReadZero hfuel hallowed

def writeAt (offset : ℤ) : List DataCall :=
  [.openFile (some [47, 97]) nmOCreat, .lseek 0 offset nmSeekSet, .write 0 (some fun _ => 7) 1,
    .lseek 0 0 nmSeekSet, .read 0 true 2]

theorem allowedRun_writeAt_zero : ZeroStore.AllowedRun (writeAt 0) := by
  have hopened : ((ZeroStore.empty.call (.openFile (some [47, 97]) nmOCreat)).2.call
      (.lseek 0 0 nmSeekSet)).2.store.handle 0 = some (0, ⟨.file 0, 0⟩) := by decide +kernel
  have hseek : (-2 ^ 63 : ℤ) ≤ 0 ∧ (0 : ℤ) < 2 ^ 63 := by decide
  refine ⟨trivial, hseek, ?_, hseek, trivial, trivial⟩
  intro i k offset hsome
  cases hopened.symm.trans hsome
  decide

theorem reads_disclose_iff_writeAt_zero :
    ZeroStore.AllowedRun (writeAt 0) ∧
      (IndependentOfMemory 512 (writeAt 0) ↔ ReadsWritten (writeAt 0)) ∧
      (GapsReadZero 512 (writeAt 0) ↔ ReadsWritten (writeAt 0)) :=
  ⟨allowedRun_writeAt_zero, reads_disclose_iff (le_refl 512) allowedRun_writeAt_zero⟩

/-- A byte at offset 1 leaves a gap at offset 0: the read returns what the memory held there. -/
theorem writeAt_one_discloses :
    (Vfs.atBoot.mounted.2.run 512 (callsWith (fun _ _ _ => 0) (writeAt 1))).map Prod.fst =
      some [.number 0, .number 1, .number 1, .number 0, ⟨2, [0, 7], none⟩] ∧
    (Vfs.atBoot.mounted.2.run 512 (callsWith (fun _ _ _ => 1) (writeAt 1))).map Prod.fst =
      some [.number 0, .number 1, .number 1, .number 0, ⟨2, [1, 7], none⟩] := by
  decide +kernel

end

end NeverMind
