import NeverMind.Verification.Net.Ownership

/-! # Failed set-up calls

A call of `nm_bind`, `nm_listen` or `nm_connect` that fails leaves the open sockets, the used
connections and the used ports as they were, as long as the counter of the connections is not
negative. A connection with a negative identifier looks like an error to the socket layer. -/

namespace NeverMind

open Function

/-- The entries in use, before or after, are the same. -/
def SameInUse {ι α : Type*} (used : α → Bool) (f g : ι → α) : Prop :=
  ∀ i, used (f i) = true ∨ used (g i) = true → g i = f i

theorem SameInUse.refl {ι α : Type*} (used : α → Bool) (f : ι → α) : SameInUse used f f :=
  fun _ _ => rfl

section

variable {ι α : Type*} [DecidableEq ι] {used : α → Bool} {f g : ι → α} {i : ι} {a : α}

/-- An entry that is not in use may change as long as it is not taken. -/
theorem sameInUse_update (hi : used (f i) = false) (ha : used a = false) :
    SameInUse used f (update f i a) := by
  intro j hj
  by_cases hji : j = i
  · subst hji
    simp [hi, ha] at hj
  · rw [update_of_ne hji]

theorem not_sameInUse_update (hi : used (f i) = false) (ha : used a = true) :
    ¬ SameInUse used f (update g i a) := by
  intro h
  have heq := h i (.inr (by rw [update_self, ha]))
  rw [update_self] at heq
  rw [← heq, ha] at hi
  cases hi

end

namespace Net

variable {s s' : Net} {c : NetCall}

/-- What a failed call must leave alone. -/
structure Restored (s s' : Net) : Prop where
  socks : SameInUse SocketEntry.used s.socks s'.socks
  conns : SameInUse TcpConn.used s.tcp.conns s'.tcp.conns
  ports : SameInUse UdpPort.used s.udp.ports s'.udp.ports

theorem Restored.refl (s : Net) : Restored s s := ⟨.refl _ _, .refl _ _, .refl _ _⟩

def setUp (c : NetCall) (s : Net) : Option (ℤ × Net) :=
  match c with
  | .bind fd addr => some (s.nmBind fd addr)
  | .listen fd => some (s.nmListen fd)
  | .connect fd addr => some (s.nmConnect fd addr)
  | _ => none

/-- If the call sets up a socket and returns an error, then it is undone. -/
def RollsBack (c : NetCall) (s : Net) : Prop := ∀ r ∈ setUp c s, r.1 < 0 → Restored s r.2

theorem rollsBack_of_refused (hrun : setUp c s = some (nmErr nmEfail, s)) : RollsBack c s := by
  intro r hr _
  obtain rfl := Option.some.inj (hrun.symm.trans hr)
  exact .refl s

/-- A call that fails with the call to the connections changes nothing but them. -/
theorem rollsBack_iff_of_tcp {r : ℤ × Tcp} {ephPort : ℕ} {s' : Net}
    (hrun : setUp c s = some (if r.1 < 0 then
      (nmErr nmEfail, { s with ephPort := ephPort, tcp := r.2 }) else (0, s'))) :
    RollsBack c s ↔ (r.1 < 0 → SameInUse TcpConn.used s.tcp.conns r.2.conns) := by
  constructor
  · intro h hret
    rw [if_pos hret] at hrun
    exact (h _ hrun nmErr_nmEfail_neg).conns
  · intro h r' hr' hneg
    obtain rfl := Option.some.inj (hrun.symm.trans hr')
    split at hneg
    · rename_i hret
      rw [if_pos hret]
      exact ⟨.refl _ _, h hret, .refl _ _⟩
    · cases hneg

theorem rollsBack_listen (fd : ℤ) (s : Net) :
    RollsBack (.listen fd) s ↔ ¬ (s.tcp.nextId < 0 ∧ ∃ i, Attaches (.listen fd) s i) := by
  obtain ⟨hrun, hattaches⟩ | ⟨i, r, hget, htype, hport, hr, hrun⟩ := nmListen_cases fd s
  · exact iff_of_true (rollsBack_of_refused (congrArg some hrun)) fun h => h.2.elim hattaches
  · have hsetUp : setUp (.listen fd) s = some _ := congrArg some hrun
    rw [rollsBack_iff_of_tcp hsetUp, ← hr]
    obtain ⟨hfail, hfull⟩ | ⟨k, conn, hfree, hentry, hlisten⟩ :=
      Tcp.tcpListen_ends (s.socks i).localPort s.tcp
    · rw [hfail]
      refine iff_of_true (fun _ => .refl _ _) ?_
      rintro ⟨-, j, -, -, -, k, hk⟩
      rw [hfull k] at hk
      cases hk
    · have hattaches : ∃ i, Attaches (.listen fd) s i := ⟨i, hget, htype, hport, k, hfree⟩
      have hused : conn.used = true := (TcpConn.entry_eq_some.mp hentry).1
      have htaken := not_sameInUse_update (g := s.tcp.conns) hfree hused
      simp only [hlisten, Tcp.conns_setConn, htaken, imp_false, hattaches, and_true]

theorem rollsBack_connect (fd : ℤ) (addr : Option SockAddr) (s : Net) :
    RollsBack (.connect fd addr) s ↔
      ¬ (s.tcp.nextId < 0 ∧ ∃ i, Attaches (.connect fd addr) s i) := by
  obtain ⟨hrun, -, hattaches⟩ | ⟨i, a, r, rfl, hget, htype, hr, hrun⟩ := nmConnect_cases fd addr s
  · exact iff_of_true (rollsBack_of_refused (congrArg some hrun)) fun h => h.2.elim hattaches
  · have hsetUp : setUp (.connect fd (some a)) s = some _ := congrArg some hrun
    rw [rollsBack_iff_of_tcp hsetUp, ← hr]
    have hends := Tcp.tcpConnect_ends a.sinAddr a.sinPort (s.ensureLocalPort i).1 s.tcp
    generalize s.tcp.tcpConnect a.sinAddr a.sinPort (s.ensureLocalPort i).1 = r at hends ⊢
    generalize Tcp.taken (.connect a.sinAddr a.sinPort (s.ensureLocalPort i).1) s.tcp = n at hends
    cases hends with
    | refused hcannot =>
      exact iff_of_true (fun _ => .refl _ _) fun h => h.2.elim fun _ h => hcannot h.2.2
    | rolledBack hcannot k hfree conn hunused =>
      refine iff_of_true (fun _ => ?_) fun h => h.2.elim fun _ h => hcannot h.2.2
      exact sameInUse_update hfree hunused
    | joined l k k' hl hne hk hk' first second hfirst hsecond =>
      have hattaches : ∃ i, Attaches (.connect fd (some a)) s i :=
        ⟨i, hget, htype, by simp [hl], k, k', hne, hk, hk'⟩
      subst hfirst
      -- the server end is in use afterwards
      simp only [Tcp.conns_setConn, imp_false, hattaches, and_true,
        not_sameInUse_update (a := Tcp.server _ _ _ _ _ _) hk' rfl]

/-- A failed set-up call is undone unless it has taken connections for a negative identifier. -/
theorem failed_setup_rolls_back_iff (c : NetCall) (s : Net) :
    RollsBack c s ↔ ¬ (s.tcp.nextId < 0 ∧ ∃ i, Attaches c s i) := by
  cases c with
  | bind fd addr =>
    refine iff_of_true (fun r hr hneg => ?_) fun h => h.2.elim fun _ => False.elim
    obtain rfl := Option.some.inj hr
    obtain ⟨hrun, -⟩ | ⟨hzero, -⟩ := nmBind_cases fd addr s
    · rw [hrun]
      exact .refl s
    · rw [hzero] at hneg
      cases hneg
  | listen fd => exact rollsBack_listen fd s
  | connect fd addr => exact rollsBack_connect fd addr s
  | _ => exact iff_of_true (fun r hr => by cases hr) fun h => h.2.elim fun _ => False.elim

/-! ## A counter that wraps around -/

/-- No socket is open and no connection is in use. -/
structure Idle (s : Net) : Prop where
  socks : ∀ i, (s.socks i).used = false
  conns : ∀ k, (s.tcp.conns k).used = false

/-- A search that every element passes ends at the first one. -/
theorem find?_finRange {p : Fin 64 → Bool} (h : p 0 = true) :
    (List.finRange 64).find? p = some 0 := by
  rw [List.finRange_succ, List.find?_cons_of_pos h]

theorem getSock_zero (h : (s.socks 0).used = true) : s.getSock 0 = some 0 :=
  getSock_eq_some.mpr ⟨rfl, h⟩

/-- A socket that is opened and bound to port 5. -/
theorem Idle.bound (h : Idle s) :
    runCalls next (listenOnce.take 2) s =
      s.setSock 0 { newEntry .stream 0 with localPort := 5 } := by
  have hfind := find?_finRange (p := fun i => !(s.socks i).used) (by simp [h.socks])
  have hopen : next (.socket nmAfInet nmSockStream 0) s = s.setSock 0 (newEntry .stream 0) := by
    simp only [next, nmSocket, sockType, allocSocketUnlocked, hfind]
    rfl
  change next (.bind 0 (some ⟨nmAfInet, 5, 0⟩)) (next (.socket nmAfInet nmSockStream 0) s) = _
  rw [hopen]
  simp [next, nmBind, getSock_zero, newEntry, setSock]

/-- Closing the only connection in use leaves none. -/
theorem unused_tcpClose {t : Tcp} {k : ConnRef} {id : ℤ} (hid : (t.conns k).id = id)
    (hused : (t.conns k).used = true) (hothers : ∀ j, j ≠ k → (t.conns j).used = false)
    (j : ConnRef) : ((t.tcpClose id).2.conns j).used = false := by
  unfold Tcp.tcpClose
  cases hfind : t.findById id with
  | none =>
    have hnone := List.find?_eq_none.mp hfind k (List.mem_finRange k)
    simp [hused, hid] at hnone
  | some k' =>
    have hfound := List.find?_some hfind
    simp only [Bool.and_eq_true] at hfound
    have hk : k' = k := by
      by_contra hne
      rw [hothers k' hne] at hfound
      cases hfound.1
    subst hk
    by_cases hj : j = k'
    · simp [hj]
    · simp [hj, hothers j hj]

/-- Opening a socket, listening and closing it again moves the counter and nothing else that is in
use. -/
theorem Idle.listenOnce (h : Idle s) (hpos : 0 < s.tcp.nextId) :
    Idle (runCalls next listenOnce s) ∧
      (runCalls next listenOnce s).tcp.nextId = i32 (s.tcp.nextId + 1) := by
  obtain ⟨-, hfull⟩ | ⟨k, conn, -, hentry, hlisten⟩ := Tcp.tcpListen_ends 5 s.tcp
  · exact absurd (hfull 0) (by simp [h.conns])
  · obtain ⟨hused, hconn⟩ := TcpConn.entry_eq_some.mp hentry
    have hid : conn.id = s.tcp.nextId := (congrArg Conn.id hconn).symm
    obtain ⟨t, ht⟩ : ∃ t : Tcp,
      { s.tcp.setConn k conn with nextId := i32 (s.tcp.nextId + 1) } = t := ⟨_, rfl⟩
    have hclosed : runCalls next Net.listenOnce s = { s.setSock 0 { newEntry .stream 0 with
            used := false, localPort := 5, tcpConnId := s.tcp.nextId, listening := true } with
          tcp := (t.tcpClose s.tcp.nextId).2 } := by
      rw [ht] at hlisten
      change next (.closeSocket 0) (next (.listen 0) (runCalls next (Net.listenOnce.take 2) s)) = _
      rw [h.bound]
      simp [next, nmListen, nmCloseSocket, getSock_zero, hlisten, newEntry, setSock, hpos,
        not_lt.mpr hpos.le]
    have hothers : ∀ j, j ≠ k → (t.conns j).used = false := by
      intro j hj
      rw [← ht]
      simp [hj, h.conns]
    rw [hclosed]
    refine ⟨⟨fun i => ?_, unused_tcpClose (k := k) ?_ ?_ hothers⟩, ?_⟩
    · by_cases hi : i = 0
      · simp [hi]
      · simp [hi, h.socks]
    · simp [← ht, hid]
    · simp [← ht, hused]
    · rw [nextId_tcpClose, ← ht]

/-- Each round takes one identifier. -/
theorem exists_idle (n : ℕ) (hn : n < 2 ^ 31 - 1) :
    ∃ calls, Idle (runCalls next calls Net.atStart) ∧
      (runCalls next calls Net.atStart).tcp.nextId = (n : ℤ) + 1 := by
  induction n with
  | zero => exact ⟨[], ⟨fun _ => rfl, fun _ => rfl⟩, rfl⟩
  | succ n ih =>
    obtain ⟨calls, hidle, hid⟩ := ih (by omega)
    obtain ⟨hidle', hid'⟩ := hidle.listenOnce (by rw [hid]; omega)
    refine ⟨calls ++ Net.listenOnce, ?_⟩
    rw [runCalls_append, hid', hid, i32_of_lt (by omega) (by omega)]
    exact ⟨hidle', by omega⟩

/-- After `2 ^ 31 - 1` identifiers the counter is negative: a listen of a bound socket fails and
leaves a connection in use. -/
theorem listen_with_negative_id_leaves_connection :
    ∃ calls, ¬ RollsBack (.listen 0) (runCalls next calls Net.atStart) := by
  obtain ⟨calls, hidle, hid⟩ := exists_idle (2 ^ 31 - 2) (by norm_num)
  obtain ⟨hidle', hid'⟩ := hidle.listenOnce (by rw [hid]; omega)
  refine ⟨calls ++ Net.listenOnce ++ Net.listenOnce.take 2, ?_⟩
  rw [runCalls_append, runCalls_append]
  generalize runCalls next Net.listenOnce (runCalls next calls Net.atStart) = s at *
  rw [hidle'.bound, rollsBack_listen, not_not]
  refine ⟨?_, 0, getSock_zero (by simp [newEntry]), by simp [newEntry], by simp, 0, hidle'.conns 0⟩
  change s.tcp.nextId < 0
  rw [hid', hid]
  decide

end Net

end NeverMind
