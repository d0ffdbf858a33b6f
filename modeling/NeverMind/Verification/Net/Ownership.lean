import NeverMind.Library.Run
import NeverMind.Verification.Net.Ledger
import NeverMind.Verification.Net.SocketClose

/-! # Sockets and connections

A stream socket names its connection by an identifier, and nothing leads from a connection back
to its socket. The sockets and connections in use make up a ledger, and every call of
`socket.c` is a move on it. -/

namespace NeverMind

open Function TcpConn SocketEntry Option

def TcpConn.entry (c : TcpConn) : Option Conn :=
  if c.used = true then some ⟨c.id, c.state, c.localPort⟩ else none

def SocketEntry.holding (e : SocketEntry) : Option Holder :=
  if e.used = true ∧ e.tcpConnId ≠ -1 then some ⟨e.tcpConnId, e.listening⟩ else none

theorem TcpConn.entry_eq_some {c : TcpConn} {d : Conn} :
    c.entry = some d ↔ c.used = true ∧ d = ⟨c.id, c.state, c.localPort⟩ := by
  unfold entry
  by_cases hused : c.used = true
  · rw [if_pos hused, some_inj]
    exact ⟨fun h => ⟨hused, h.symm⟩, fun h => h.2.symm⟩
  · simp [hused]

theorem TcpConn.entry_eq_none {c : TcpConn} : c.entry = none ↔ c.used = false := by
  simp [entry]

theorem SocketEntry.holding_eq_some {e : SocketEntry} {h : Holder} :
    e.holding = some h ↔ e.used = true ∧ e.tcpConnId ≠ -1 ∧ h = ⟨e.tcpConnId, e.listening⟩ := by
  unfold holding
  by_cases hholds : e.used = true ∧ e.tcpConnId ≠ -1
  · rw [if_pos hholds, some_inj]
    exact ⟨fun h => ⟨hholds.1, hholds.2, h.symm⟩, fun h => h.2.2.symm⟩
  · rw [if_neg hholds]
    refine ⟨fun h => ?_, fun h => absurd ⟨h.1, h.2.1⟩ hholds⟩
    cases h

theorem SocketEntry.holding_eq_none {e : SocketEntry} (hused : e.used = true) :
    e.holding = none ↔ e.tcpConnId = -1 := by
  simp [holding, hused]

namespace Tcp

variable {s : Tcp} {k : ConnRef} {id : ℤ}

/-! ## Results of the calls -/

theorem tcpListen_ends (port : ℕ) (s : Tcp) :
    (s.tcpListen port = (nmErr nmEfail, s) ∧ ∀ k, (s.conns k).used = true) ∨
      ∃ k c, (s.conns k).used = false ∧ entry c = some ⟨s.nextId, .listen, port⟩ ∧
        s.tcpListen port = (s.nextId, { s.setConn k c with nextId := i32 (s.nextId + 1) }) := by
  unfold tcpListen
  obtain hfull | ⟨k, hfree, hrun⟩ := allocConn_spec s
  · rw [hfull]
    exact .inl ⟨rfl, used_of_allocConn hfull⟩
  · rw [hrun]
    refine .inr ⟨k, { opened s.nextId (s.conns k) with
      state := .listen, localIp := 0, localPort := port }, hfree, rfl, ?_⟩
    simp [setConn, opened]

theorem tcpAccept_ends (port : ℕ) (s : Tcp) :
    s.tcpAccept port = (nmErr nmEfail, s) ∨
      ∃ k, (s.conns k).used = true ∧ (s.conns k).state = .synRecv ∧ s.tcpAccept port =
          ((s.conns k).id, s.setConn k { s.conns k with state := .established }) := by
  unfold tcpAccept
  split
  · exact .inl rfl
  · rename_i k hfound
    have htest := List.find?_some hfound
    simp only [Bool.and_eq_true, beq_iff_eq] at htest
    exact .inr ⟨k, htest.1.1, htest.1.2, rfl⟩

theorem findById_of_used (hdistinct : ∀ m, (s.conns m).used = true → (s.conns m).id = id → m = k)
    (hused : (s.conns k).used = true) (hid : (s.conns k).id = id) : s.findById id = some k := by
  cases hfind : s.findById id with
  | none =>
    have hnone := List.find?_eq_none.mp hfind k (List.mem_finRange k)
    simp [hused, hid] at hnone
  | some m =>
    obtain ⟨hm, hmid⟩ := findById_some hfind
    rw [hdistinct m hm hmid]

theorem entry_tcpSend (id : ℤ) (payload : Option (ℕ → Byte)) (len : ℕ) (s : Tcp) :
    entry ∘ (s.tcpSend id payload len).2.conns = entry ∘ s.conns := by
  obtain ⟨hfail, -⟩ | ⟨data, c, peer, -, hrun⟩ := tcpSend_spec id payload len s
  · rw [hfail]
  · rw [hrun, conns_setConn, comp_update]
    exact update_eq_self peer _

theorem entry_tcpRecv (id : ℤ) (payload : Bool) (cap : ℕ) (s : Tcp) :
    entry ∘ (s.tcpRecv id payload cap).2.conns = entry ∘ s.conns := by
  obtain ⟨-, hfail, -⟩ | ⟨c, -, -, hrun⟩ := tcpRecv_spec id payload cap s
  · rw [hfail]
  · rw [hrun, conns_setConn, comp_update]
    exact update_eq_self c _

end Tcp

namespace Net

variable {s s' : Net} {i j : SockRef} {c : NetCall}

def ledger (s : Net) : Ledger SockRef ConnRef where
  own := holding ∘ s.socks
  conn := entry ∘ s.tcp.conns
  next := s.tcp.nextId

def Serves (i : SockRef) (port : ℕ) (s : Net) : Prop :=
  (s.socks i).used = true ∧ (s.socks i).listening = true ∧
    ∃ k, (s.tcp.conns k).used = true ∧ (s.tcp.conns k).state = .listen ∧
      (s.tcp.conns k).localPort = port ∧ (s.tcp.conns k).id = (s.socks i).tcpConnId

/-- Every connection in use belongs to exactly one open socket, or waits for an open listening
socket. Without open sockets no connection is in use. -/
def NoLeak (s : Net) : Prop :=
  (∀ k, (s.tcp.conns k).used = true →
    (∃! i, (s.socks i).used = true ∧ (s.socks i).tcpConnId = (s.tcp.conns k).id) ∨
      ((s.tcp.conns k).state = .synRecv ∧ ∃ i, Serves i (s.tcp.conns k).localPort s)) ∧
  ((∀ i, (s.socks i).used = false) → ∀ k, (s.tcp.conns k).used = false)

/-- What a call must respect for no connection to leak. -/
structure KeepsConns (c : NetCall) (s : Net) : Prop where
  /-- A socket that gets a connection has none. -/
  attaches : ∀ i, Attaches c s i → (s.socks i).tcpConnId = -1
  /-- A listening socket that is closed leaves no connection waiting, unless another socket
  listens at the port. -/
  closes : ∀ i, Closes c s i → ∀ k, (s.tcp.conns k).used = true →
    (s.tcp.conns k).state = .synRecv → Serves i (s.tcp.conns k).localPort s →
    ∃ j, j ≠ i ∧ Serves j (s.tcp.conns k).localPort s

/-- The ledger is in order, and the identifiers have not wrapped around. -/
structure Owning (s : Net) : Prop where
  sound : s.ledger.Sound
  nextId_lt : s.tcp.nextId < 2 ^ 31
  dgram : ∀ i, OpenDgram i s → (s.socks i).tcpConnId = -1

theorem conn_ledger {k : ConnRef} {d : Conn} : s.ledger.conn k = some d ↔
    (s.tcp.conns k).used = true ∧
      d = ⟨(s.tcp.conns k).id, (s.tcp.conns k).state, (s.tcp.conns k).localPort⟩ :=
  entry_eq_some

theorem own_ledger {h : Holder} : s.ledger.own i = some h ↔
    (s.socks i).used = true ∧ (s.socks i).tcpConnId ≠ -1 ∧
      h = ⟨(s.socks i).tcpConnId, (s.socks i).listening⟩ :=
  holding_eq_some

theorem serves_ledger (hs : s.ledger.Sound) {port : ℕ} :
    s.ledger.Serves i port ↔ Serves i port s := by
  constructor
  · rintro ⟨h, k, d, hi, hlistening, hk, hid, hstate, hport⟩
    obtain ⟨hused, -, rfl⟩ := own_ledger.mp hi
    obtain ⟨hkused, rfl⟩ := conn_ledger.mp hk
    exact ⟨hused, hlistening, k, hkused, hstate, hport, hid⟩
  · rintro ⟨hused, hlistening, k, hkused, hstate, hport, hid⟩
    have hk := conn_ledger.mpr ⟨hkused, rfl⟩
    have hpos := (hs.ids k _ hk).1
    refine ⟨_, k, _, own_ledger.mpr ⟨hused, ?_, rfl⟩, hlistening, hk, hid, hstate, hport⟩
    dsimp only at hpos
    omega

theorem noLeak_ledger (hs : s.ledger.Sound) : s.ledger.NoLeak ↔ NoLeak s := by
  constructor
  · intro hl
    have howned (k : ConnRef) (hk : (s.tcp.conns k).used = true) :
        (∃! i, (s.socks i).used = true ∧ (s.socks i).tcpConnId = (s.tcp.conns k).id) ∨
          ((s.tcp.conns k).state = .synRecv ∧ ∃ i, Serves i (s.tcp.conns k).localPort s) := by
      have hentry := conn_ledger.mpr ⟨hk, rfl⟩
      obtain ⟨i, h, hi, hid⟩ | ⟨hstate, i, hserves⟩ := hl k _ hentry
      · obtain ⟨hused, hne, rfl⟩ := own_ledger.mp hi
        refine .inl ⟨i, ⟨hused, hid⟩, ?_⟩
        rintro j ⟨hjused, hjid⟩
        have hsame : (s.socks j).tcpConnId = (s.socks i).tcpConnId := hjid.trans hid.symm
        exact hs.owners j i _ _ (own_ledger.mpr ⟨hjused, hsame ▸ hne, rfl⟩) hi hsame
      · exact .inr ⟨hstate, i, (serves_ledger hs).mp hserves⟩
    refine ⟨howned, fun hclosed k => ?_⟩
    by_contra hk
    obtain ⟨i, ⟨hused, -⟩, -⟩ | ⟨-, i, hused, -⟩ := howned k (by simpa using hk)
    · rw [hclosed i] at hused
      cases hused
    · rw [hclosed i] at hused
      cases hused
  · intro hl k d hk
    obtain ⟨hkused, rfl⟩ := conn_ledger.mp hk
    have hpos := (hs.ids k _ hk).1
    dsimp only at hpos
    obtain ⟨i, ⟨hused, hid⟩, -⟩ | ⟨hstate, i, hserves⟩ := hl.1 k hkused
    · exact .inl ⟨i, _, own_ledger.mpr ⟨hused, by omega, rfl⟩, hid⟩
    · exact .inr ⟨hstate, i, (serves_ledger hs).mpr hserves⟩

/-! ## Every call is a move -/

theorem conn_none {k : ConnRef} (h : (s.tcp.conns k).used = false) : s.ledger.conn k = none :=
  entry_eq_none.mpr h

theorem own_none_iff (hused : (s.socks i).used = true) :
    s.ledger.own i = none ↔ (s.socks i).tcpConnId = -1 :=
  holding_eq_none hused

theorem own_setSock_same {e : SocketEntry} (h : e.holding = (s.socks i).holding) :
    holding ∘ (s.setSock i e).socks = holding ∘ s.socks := by
  rw [socks_setSock, comp_update, h]
  exact update_eq_self i _

theorem keepsConns_of_quiet (hattaches : ∀ i, ¬ Attaches c s i) (hcloses : ∀ i, ¬ Closes c s i) :
    KeepsConns c s where
  attaches := fun i hi => absurd hi (hattaches i)
  closes := fun i hi => absurd hi (hcloses i)

theorem move_idle (hown : holding ∘ s'.socks = holding ∘ s.socks)
    (hconn : entry ∘ s'.tcp.conns = entry ∘ s.tcp.conns)
    (hnext : s.tcp.nextId ≤ s'.tcp.nextId) (hkeeps : KeepsConns c s) :
    s.ledger.Move (KeepsConns c s) s'.ledger := by
  have heq : s'.ledger = { s.ledger with next := s'.tcp.nextId } := by
    simp only [ledger, hown, hconn]
  rw [heq]
  exact .idle _ hnext hkeeps

/-- The condition on a call that attaches a connection to socket `i`. -/
theorem keepsConns_attaches (hattaches : Attaches c s i)
    (hunique : ∀ j, Attaches c s j → j = i) (hcloses : ∀ i, ¬ Closes c s i)
    (hused : (s.socks i).used = true) : KeepsConns c s ↔ s.ledger.own i = none := by
  rw [own_none_iff hused]
  constructor
  · intro hkeeps
    exact hkeeps.attaches i hattaches
  · intro hnone
    refine ⟨fun j hj => ?_, fun j hj => absurd hj (hcloses j)⟩
    rw [hunique j hj]
    exact hnone

variable {fd : ℤ}

theorem move_listen (hget : s.getSock fd = some i) (htype : (s.socks i).type = .stream)
    (hport : (s.socks i).localPort ≠ 0) (hret : 0 ≤ (s.tcp.tcpListen (s.socks i).localPort).1)
    (ho : Owning s) (hpos : 0 < (s.tcp.tcpListen (s.socks i).localPort).2.nextId) :
    s.ledger.Move (KeepsConns (.listen fd) s)
      (ledger { s.setSock i { s.socks i with
          tcpConnId := (s.tcp.tcpListen (s.socks i).localPort).1, listening := true } with
        tcp := (s.tcp.tcpListen (s.socks i).localPort).2 }) := by
  have hused := (getSock_eq_some.mp hget).2
  obtain ⟨hfail, -⟩ | ⟨k, conn, hfree, hentry, hrun⟩ :=
    Tcp.tcpListen_ends (s.socks i).localPort s.tcp
  · rw [hfail] at hret
    exact absurd hret nmErr_nmEfail_neg.not_ge
  · have hattaches : Attaches (.listen fd) s i := ⟨hget, htype, hport, k, hfree⟩
    have hR := keepsConns_attaches hattaches
      (fun j hj => some.inj (hj.1.symm.trans hget)) (fun _ => not_false) hused
    rw [hrun] at hpos ⊢
    have hlast := ho.nextId_lt
    have hfirst : 0 < s.tcp.nextId := ho.sound.next_pos
    have hnext : i32 (s.tcp.nextId + 1) = s.tcp.nextId + 1 :=
      i32_of_lt (by omega) (lt_of_i32_pos (by omega) hpos (by omega))
    have hmove := Ledger.Move.enlist (l := s.ledger) i k (s.socks i).localPort (conn_none hfree) hR
    have hholding : holding { s.socks i with
        tcpConnId := s.tcp.nextId, listening := true } = some ⟨s.tcp.nextId, true⟩ :=
      holding_eq_some.mpr ⟨hused, by dsimp only; omega, rfl⟩
    simp only [ledger, socks_setSock, Tcp.conns_setConn, comp_update, hnext, hentry]
    rw [hholding]
    exact hmove

theorem i32_succ_succ {n : ℤ} (hn : 0 < n) (hlt : n < 2 ^ 31) (hpos : 0 < i32 (i32 (n + 1) + 1)) :
    i32 (n + 1) = n + 1 ∧ i32 (n + 1 + 1) = n + 1 + 1 := by
  have hfirst : n + 1 < 2 ^ 31 := by
    by_contra hge
    have heq : n + 1 = 2 ^ 31 := by omega
    rw [heq] at hpos
    exact absurd hpos (by decide)
  have hone : i32 (n + 1) = n + 1 := i32_of_lt (by omega) hfirst
  rw [hone] at hpos
  exact ⟨hone, i32_of_lt (by omega) (lt_of_i32_pos (by omega) hpos (by omega))⟩

theorem listener_ledger {l : ConnRef} {port : ℕ} (hl : s.tcp.findListener port = some l) :
    ∃ m d, s.ledger.conn m = some d ∧ d.state = .listen ∧ d.port = port := by
  have htest := List.find?_some hl
  simp only [Bool.and_eq_true, beq_iff_eq] at htest
  exact ⟨l, _, conn_ledger.mpr ⟨htest.1.1, rfl⟩, htest.1.2, htest.2⟩

variable {r : ℤ × Tcp}

theorem move_connect {addr : SockAddr} (hget : s.getSock fd = some i)
    (htype : (s.socks i).type = .stream) (ho : Owning s)
    (hr : s.tcp.tcpConnect addr.sinAddr addr.sinPort (s.ensureLocalPort i).1 = r) (hret : 0 ≤ r.1)
    (hpos : 0 < r.2.nextId) (port eph : ℕ) :
    s.ledger.Move (KeepsConns (.connect fd (some addr)) s)
      (ledger { s.setSock i { s.socks i with
          localPort := port, peerIp := addr.sinAddr, peerPort := addr.sinPort,
          tcpConnId := r.1 } with
        ephPort := eph, tcp := r.2 }) := by
  have hused := (getSock_eq_some.mp hget).2
  have hends := Tcp.tcpConnect_ends addr.sinAddr addr.sinPort (s.ensureLocalPort i).1 s.tcp
  rw [hr] at hends
  generalize Tcp.taken (.connect addr.sinAddr addr.sinPort (s.ensureLocalPort i).1) s.tcp = n
    at hends
  cases hends with
  | refused => exact absurd hret nmErr_nmEfail_neg.not_ge
  | rolledBack => exact absurd hret nmErr_nmEfail_neg.not_ge
  | joined l k k' hl hne hk hk' first second hfirst hsecond =>
    subst hfirst hsecond
    have hcan : s.tcp.CanConnect addr.sinPort :=
      ⟨isSome_iff_exists.mpr ⟨l, hl⟩, k, k', hne, hk, hk'⟩
    have hattaches : Attaches (.connect fd (some addr)) s i := ⟨hget, htype, hcan⟩
    have hR := keepsConns_attaches hattaches
      (fun j hj => some.inj (hj.1.symm.trans hget)) (fun _ => not_false) hused
    have hnextPos : 0 < s.tcp.nextId := ho.sound.next_pos
    obtain ⟨hone, htwo⟩ := i32_succ_succ hnextPos ho.nextId_lt hpos
    have hmove := Ledger.Move.link (l := s.ledger) i k k' (s.socks i).listening
      (s.ensureLocalPort i).1 addr.sinPort hne (conn_none hk) (conn_none hk')
      (listener_ledger hl) hR
    have hholding : holding { s.socks i with
        localPort := port, peerIp := addr.sinAddr, peerPort := addr.sinPort
        tcpConnId := s.tcp.nextId } = some ⟨s.tcp.nextId, (s.socks i).listening⟩ :=
      holding_eq_some.mpr ⟨hused, by dsimp only; omega, rfl⟩
    simp only [ledger, socks_setSock, Tcp.conns_setConn, comp_update, hone, htwo]
    rw [hholding]
    exact hmove

theorem move_accept {child : SockRef} (ho : Owning s) {port : ℕ} (hr : s.tcp.tcpAccept port = r)
    (hret : 0 ≤ r.1) (hfree : (s.socks child).used = false) :
    s.ledger.Move (KeepsConns (.accept fd) s)
      (ledger { s.setSock child { newEntry .stream 0 with localPort := port, tcpConnId := r.1 } with
        tcp := r.2 }) := by
  obtain hfail | ⟨k, hk, hstate, hrun⟩ := Tcp.tcpAccept_ends port s.tcp
  · rw [← hr, hfail] at hret
    exact absurd hret nmErr_nmEfail_neg.not_ge
  · obtain rfl := hr.symm.trans hrun
    have hentry := conn_ledger.mpr ⟨hk, rfl⟩
    have hidPos := (ho.sound.ids k _ hentry).1
    dsimp only at hidPos
    have hnone : s.ledger.own child = none := by simp [ledger, holding, hfree]
    have hmove := Ledger.Move.take (l := s.ledger) child k _ hnone hentry hstate
      (keepsConns_of_quiet (s := s) (c := .accept fd) (fun _ => not_false) (fun _ => not_false))
    have hholding : holding { newEntry .stream 0 with
        localPort := port, tcpConnId := (s.tcp.conns k).id } =
          some ⟨(s.tcp.conns k).id, false⟩ :=
      holding_eq_some.mpr ⟨rfl, by dsimp only; omega, rfl⟩
    have haccepted : entry { s.tcp.conns k with state := .established } =
        some ⟨(s.tcp.conns k).id, .established, (s.tcp.conns k).localPort⟩ :=
      entry_eq_some.mpr ⟨hk, rfl⟩
    simp only [ledger, socks_setSock, Tcp.conns_setConn, comp_update]
    rw [hholding, haccepted]
    exact hmove

theorem findById_ledger (hs : s.ledger.Sound) {k : ConnRef} (hk : (s.tcp.conns k).used = true) :
    s.tcp.findById (s.tcp.conns k).id = some k :=
  Tcp.findById_of_used (fun m hm hid => hs.distinct m k _ _ (conn_ledger.mpr ⟨hm, rfl⟩)
    (conn_ledger.mpr ⟨hk, rfl⟩) hid) hk rfl

theorem entry_tcpClose {t : Tcp} {id : ℤ} {k : ConnRef} (hfound : t.findById id = some k) :
    entry ∘ (t.tcpClose id).2.conns = update (entry ∘ t.conns) k none := by
  rw [Tcp.tcpClose, hfound]
  exact comp_update ..

theorem nextId_tcpClose (t : Tcp) (id : ℤ) : (t.tcpClose id).2.nextId = t.nextId :=
  Tcp.nextId_call (c := .close id) rfl t

theorem move_drop (ho : Owning s) {port : ℕ} (hr : s.tcp.tcpAccept port = r) (hret : 0 ≤ r.1) :
    s.ledger.Move (KeepsConns (.accept fd) s) (ledger { s with tcp := (r.2.tcpClose r.1).2 }) := by
  obtain hfail | ⟨k, hk, hstate, hrun⟩ := Tcp.tcpAccept_ends port s.tcp
  · rw [← hr, hfail] at hret
    exact absurd hret nmErr_nmEfail_neg.not_ge
  · obtain rfl := hr.symm.trans hrun
    have hmove := Ledger.Move.drop (l := s.ledger) k _ (conn_ledger.mpr ⟨hk, rfl⟩) hstate
      (keepsConns_of_quiet (s := s) (c := .accept fd) (fun _ => not_false) (fun _ => not_false))
    -- the connection that has just been accepted is found again by its identifier
    have hfound : Tcp.findById (s.tcp.conns k).id
        (s.tcp.setConn k { s.tcp.conns k with state := .established }) = some k := by
      refine Tcp.findById_of_used (fun m hm hid => ?_) (by simpa using hk) (by simp)
      by_cases hmk : m = k
      · exact hmk
      · rw [Tcp.conns_setConn, update_of_ne hmk] at hm hid
        exact ho.sound.distinct m k _ _ (conn_ledger.mpr ⟨hm, rfl⟩) (conn_ledger.mpr ⟨hk, rfl⟩) hid
    have hledger : ledger { s with tcp := (Tcp.tcpClose (s.tcp.conns k).id
        (s.tcp.setConn k { s.tcp.conns k with state := .established })).2 } =
        { s.ledger with conn := update s.ledger.conn k none } := by
      simp only [ledger, entry_tcpClose hfound, nextId_tcpClose, Tcp.conns_setConn,
        comp_update, update_idem]
      rfl
    rw [hledger]
    exact hmove

theorem keepsConns_closes (hs : s.ledger.Sound) (hcloses : Closes (.closeSocket fd) s i) :
    KeepsConns (.closeSocket fd) s ↔
      ∀ k d, s.ledger.conn k = some d → d.state = .synRecv → s.ledger.Serves i d.port →
        ∃ j, j ≠ i ∧ s.ledger.Serves j d.port := by
  constructor
  · intro hkeeps k d hk hstate hserves
    obtain ⟨hused, rfl⟩ := conn_ledger.mp hk
    obtain ⟨j, hji, hj⟩ := hkeeps.closes i hcloses k hused hstate ((serves_ledger hs).mp hserves)
    exact ⟨j, hji, (serves_ledger hs).mpr hj⟩
  · intro hothers
    refine ⟨fun _ => False.elim, fun i' hi' k hused hstate hserves => ?_⟩
    obtain rfl := some.inj (Eq.trans (Eq.symm hcloses) hi')
    obtain ⟨j, hji, hj⟩ := hothers k _ (conn_ledger.mpr ⟨hused, rfl⟩) hstate
      ((serves_ledger hs).mpr hserves)
    exact ⟨j, hji, (serves_ledger hs).mp hj⟩

theorem move_close_idle (hs : s.ledger.Sound) (hcloses : Closes (.closeSocket fd) s i)
    (hnone : (s.socks i).tcpConnId = -1) (udp : Udp) :
    s.ledger.Move (KeepsConns (.closeSocket fd) s)
      (ledger { s.setSock i { s.socks i with used := false } with udp := udp }) := by
  have hown := (own_none_iff (getSock_eq_some.mp hcloses).2).mpr hnone
  refine move_idle ?_ rfl le_rfl ((keepsConns_closes hs hcloses).mpr fun k d _ _ hserves => ?_)
  · refine own_setSock_same ?_
    rw [show (s.socks i).holding = none from hown]
    simp [holding]
  · obtain ⟨h, -, -, hi, -⟩ := hserves
    rw [hown] at hi
    cases hi

theorem move_close (ho : Owning s) (hcloses : Closes (.closeSocket fd) s i)
    (hsome : (s.socks i).tcpConnId ≠ -1) :
    s.ledger.Move (KeepsConns (.closeSocket fd) s)
      (ledger { s.setSock i { s.socks i with used := false } with
        tcp := if 0 < (s.socks i).tcpConnId then (s.tcp.tcpClose (s.socks i).tcpConnId).2
          else s.tcp }) := by
  have hused := (getSock_eq_some.mp hcloses).2
  have hi := own_ledger.mpr ⟨hused, hsome, rfl⟩
  obtain ⟨k, d, hk, hid, -⟩ := ho.sound.owned i _ hi
  have hmove := Ledger.Move.close (l := s.ledger) i k _ d hi hk hid
    (keepsConns_closes ho.sound hcloses)
  obtain ⟨hkused, rfl⟩ := conn_ledger.mp hk
  have hpos := (ho.sound.ids k _ hk).1
  have hfound := findById_ledger ho.sound hkused
  dsimp only at hid hpos
  rw [hid] at hpos hfound
  have hholding : holding { s.socks i with used := false } = none := by
    simp [holding]
  rw [if_pos hpos]
  simp only [ledger, entry_tcpClose hfound, nextId_tcpClose, socks_setSock, comp_update]
  rw [hholding]
  exact hmove

theorem move_connectFailed {addr : SockAddr} (ho : Owning s) {port : ℕ}
    (hr : s.tcp.tcpConnect addr.sinAddr addr.sinPort port = r) (hret : r.1 < 0)
    (hpos : 0 < r.2.nextId) (eph : ℕ) :
    s.ledger.Move (KeepsConns (.connect fd (some addr)) s)
      (ledger { s with ephPort := eph, tcp := r.2 }) := by
  have hends := Tcp.tcpConnect_ends addr.sinAddr addr.sinPort port s.tcp
  rw [hr] at hends
  generalize Tcp.taken (.connect addr.sinAddr addr.sinPort port) s.tcp = n at hends
  have hnextPos : 0 < s.tcp.nextId := ho.sound.next_pos
  have hlast := ho.nextId_lt
  have hkeeps (hcannot : ¬ s.tcp.CanConnect addr.sinPort) :
      KeepsConns (.connect fd (some addr)) s :=
    keepsConns_of_quiet (fun j hj => hcannot hj.2.2) (fun _ => not_false)
  cases hends with
  | refused hcannot => exact move_idle rfl rfl le_rfl (hkeeps hcannot)
  | rolledBack hcannot k hfree conn hunused =>
    have hnext : i32 (s.tcp.nextId + 1) = s.tcp.nextId + 1 :=
      i32_of_lt (by omega) (lt_of_i32_pos (by omega) hpos (by omega))
    refine move_idle rfl ?_ ?_ (hkeeps hcannot)
    · rw [Tcp.conns_setConn, comp_update, entry_eq_none.mpr hunused]
      rw [← entry_eq_none.mpr hfree]
      exact update_eq_self k _
    · dsimp only
      omega
  | joined l k k' hl hne hk hk' first second hfirst hsecond =>
    dsimp only at hret
    omega

theorem next_move (ho : Owning s) (hpos : 0 < (s.next c).tcp.nextId) :
    s.ledger.Move (KeepsConns c s) (s.next c).ledger := by
  have heffect := next_effect c s
  generalize s.next c = s' at heffect hpos ⊢
  have hnextPos : 0 < s.tcp.nextId := ho.sound.next_pos
  cases heffect with
  | refused hassigns hbinds hcloses hattaches =>
    exact move_idle rfl rfl le_rfl (keepsConns_of_quiet hattaches hcloses)
  | opened hfree =>
    refine move_idle (own_setSock_same ?_) rfl le_rfl
      (keepsConns_of_quiet (fun _ => not_false) (fun _ => not_false))
    simp [holding, newEntry, hfree]
  | boundStream | boundDgram | sentDgram =>
    exact move_idle (own_setSock_same rfl) rfl le_rfl
      (keepsConns_of_quiet (fun _ => not_false) (fun _ => not_false))
  | @listenFailed fd i hget hret =>
    obtain ⟨hfail, hfull⟩ | ⟨k, conn, -, -, hrun⟩ := Tcp.tcpListen_ends (s.socks i).localPort s.tcp
    · rw [hfail]
      refine move_idle rfl rfl le_rfl (keepsConns_of_quiet ?_ fun _ => not_false)
      rintro j ⟨-, -, -, k, hfree⟩
      rw [hfull k] at hfree
      cases hfree
    · rw [hrun] at hret
      exact absurd hret hnextPos.not_gt
  | listened hget htype hport hret => exact move_listen hget htype hport hret ho hpos
  | @acceptFailed _ i hget hlistening hret =>
    obtain hfail | ⟨k, hk, -, hrun⟩ := Tcp.tcpAccept_ends (s.socks i).localPort s.tcp
    · rw [hfail]
      exact move_idle rfl rfl le_rfl
        (keepsConns_of_quiet (fun _ => not_false) (fun _ => not_false))
    · rw [hrun] at hret
      exact absurd hret (ho.sound.ids k _ (conn_ledger.mpr ⟨hk, rfl⟩)).1.not_gt
  | acceptDropped hget hlistening hr hret => exact move_drop ho hr hret
  | accepted hget hlistening hr hret hfree => exact move_accept ho hr hret hfree
  | connectFailed hget htype hr hret => exact move_connectFailed ho hr hret hpos _
  | connected hget htype hr hret => exact move_connect hget htype ho hr hret hpos _ _
  | @sentStream _ i buf len _ hget htype =>
    exact move_idle rfl (Tcp.entry_tcpSend ..)
      (Tcp.nextId_call (c := .send (s.socks i).tcpConnId buf (len % 2 ^ 16)) rfl s.tcp).ge
      (keepsConns_of_quiet (fun _ => not_false) (fun _ => not_false))
  | receivedDgram | arrived =>
    exact move_idle rfl rfl le_rfl
      (keepsConns_of_quiet (fun _ => not_false) (fun _ => not_false))
  | @receivedStream _ i buf len hget =>
    exact move_idle rfl (Tcp.entry_tcpRecv ..)
      (Tcp.nextId_call (c := .recv (s.socks i).tcpConnId buf (len % 2 ^ 16)) rfl s.tcp).ge
      (keepsConns_of_quiet (fun _ => not_false) (fun _ => not_false))
  | @closedDgram _ i hcloses htype =>
    have hnone := ho.dgram i ⟨(getSock_eq_some.mp hcloses).2, htype⟩
    exact move_close_idle ho.sound hcloses hnone _
  | @closedStream _ i hcloses htype =>
    by_cases hnone : (s.socks i).tcpConnId = -1
    · have hno : ¬ 0 < (s.socks i).tcpConnId := by omega
      rw [if_neg hno]
      exact move_close_idle ho.sound hcloses hnone s.udp
    · exact move_close ho hcloses hnone

/-! ## Runs -/

def NextIds (n m : ℤ) : Prop := m = n ∨ m = i32 (n + 1) ∨ m = i32 (i32 (n + 1) + 1)

theorem nextId_tcpListen (port : ℕ) (t : Tcp) : NextIds t.nextId (t.tcpListen port).2.nextId := by
  obtain ⟨hfail, -⟩ | ⟨k, conn, -, -, hrun⟩ := Tcp.tcpListen_ends port t
  · rw [hfail]
    exact .inl rfl
  · rw [hrun]
    exact .inr (.inl rfl)

theorem nextId_tcpConnect (dstIp dstPort srcPort : ℕ) (t : Tcp) :
    NextIds t.nextId (t.tcpConnect dstIp dstPort srcPort).2.nextId := by
  have hends := Tcp.tcpConnect_ends dstIp dstPort srcPort t
  generalize t.tcpConnect dstIp dstPort srcPort = r at hends ⊢
  generalize Tcp.taken (.connect dstIp dstPort srcPort) t = n at hends
  cases hends with
  | refused => exact .inl rfl
  | rolledBack => exact .inr (.inl rfl)
  | joined l k k' hl hne hk hk' first second hfirst hsecond =>
    subst hsecond
    exact .inr (.inr rfl)

theorem nextId_tcpAccept (t : Tcp) (port : ℕ) : (t.tcpAccept port).2.nextId = t.nextId :=
  Tcp.nextId_call (c := .accept port) rfl t

theorem nextId_next (c : NetCall) (s : Net) : NextIds s.tcp.nextId (s.next c).tcp.nextId := by
  have heffect := next_effect c s
  generalize s.next c = s' at heffect ⊢
  cases heffect with
  | listenFailed => exact nextId_tcpListen ..
  | listened => exact nextId_tcpListen ..
  | acceptFailed => exact .inl (nextId_tcpAccept ..)
  | acceptDropped hget hlistening hr hret =>
    rw [← hr]
    exact .inl ((nextId_tcpClose ..).trans (nextId_tcpAccept ..))
  | accepted hget hlistening hr hret hfree =>
    rw [← hr]
    exact .inl (nextId_tcpAccept ..)
  | connectFailed hget htype hr hret =>
    rw [← hr]
    exact nextId_tcpConnect ..
  | connected hget htype hr hret =>
    rw [← hr]
    exact nextId_tcpConnect ..
  | @sentStream _ i buf len _ hget htype =>
    exact .inl (Tcp.nextId_call (c := .send (s.socks i).tcpConnId buf (len % 2 ^ 16)) rfl s.tcp)
  | @receivedStream _ i buf len hget =>
    exact .inl (Tcp.nextId_call (c := .recv (s.socks i).tcpConnId buf (len % 2 ^ 16)) rfl s.tcp)
  | closedStream hcloses htype =>
    dsimp only
    split
    · exact .inl (nextId_tcpClose ..)
    · exact .inl rfl
  | _ => exact .inl rfl

theorem NextIds.lt {n m : ℤ} (h : NextIds n m) (hn : n < 2 ^ 31) : m < 2 ^ 31 := by
  obtain rfl | rfl | rfl := h
  · exact hn
  · exact i32_lt _
  · exact i32_lt _

theorem NextIds.pos {n m : ℤ} (h : NextIds n m) (hn : 0 < n) (hleft : n < 2 ^ 31 - 2) : 0 < m := by
  have hone : i32 (n + 1) = n + 1 := i32_of_lt (by omega) (by omega)
  have htwo : i32 (n + 1 + 1) = n + 1 + 1 := i32_of_lt (by omega) (by omega)
  rw [NextIds, hone, htwo] at h
  omega

def DgramsIdle (s : Net) : Prop := ∀ i, OpenDgram i s → (s.socks i).tcpConnId = -1

theorem DgramsIdle.setSock (h : DgramsIdle s) {e : SocketEntry}
    (he : e.used = true → e.type = .dgram → e.tcpConnId = -1) : DgramsIdle (s.setSock i e) := by
  intro k hk
  rw [OpenDgram, socks_setSock] at hk
  rw [socks_setSock]
  by_cases hki : k = i
  · rw [hki, update_self] at hk ⊢
    exact he hk.1 hk.2
  · rw [update_of_ne hki] at hk ⊢
    exact h k hk

theorem DgramsIdle.next (h : DgramsIdle s) (c : NetCall) : DgramsIdle (s.next c) := by
  have heffect := next_effect c s
  generalize s.next c = s' at heffect ⊢
  cases heffect with
  | opened hfree => exact h.setSock fun _ _ => rfl
  | @boundStream _ i _ hget htype => exact h.setSock fun hused hdgram => h i ⟨hused, hdgram⟩
  | @boundDgram _ i _ hbinds => exact h.setSock (i := i) fun hused hdgram => h i ⟨hused, hdgram⟩
  | @listened _ i hget htype hport hret | @connected _ i _ _ hget htype hr hret =>
    exact h.setSock (i := i) fun _ hdgram => absurd (htype.symm.trans hdgram) (by simp)
  | accepted hget hlistening hr hret hfree =>
    exact h.setSock fun _ hdgram => absurd hdgram (by simp [newEntry])
  | @sentDgram _ i _ _ _ _ hget hbuf hlen htype hports =>
    exact h.setSock (i := i) fun hused hdgram => h i ⟨hused, hdgram⟩
  | @closedDgram _ i hcloses htype => exact h.setSock (i := i) fun hused _ => by cases hused
  | @closedStream _ i hcloses htype => exact h.setSock (i := i) fun hused _ => by cases hused
  | _ => exact h

theorem owning_atStart : Owning Net.atStart where
  sound :=
    { next_pos := by decide
      ids := fun k d hk => by cases hk
      distinct := fun k k' d d' hk => by cases hk
      owned := fun i h hi => by cases hi
      owners := fun i j h h' hi => by cases hi
      listeners := fun i h k d hi => by cases hi }
  nextId_lt := by decide
  dgram := fun i hi => by cases hi.1

/-- A call takes at most two identifiers, and that many are left. -/
def IdsLeft (s : Net) : Prop := s.tcp.nextId < 2 ^ 31 - 2

instance (s : Net) : Decidable (IdsLeft s) := inferInstanceAs (Decidable (_ < _))

theorem Owning.nextId_next_pos (ho : Owning s) (hleft : IdsLeft s) (c : NetCall) :
    0 < (s.next c).tcp.nextId :=
  (nextId_next c s).pos ho.sound.next_pos hleft

theorem Owning.next (ho : Owning s) (hleft : IdsLeft s) (c : NetCall) : Owning (s.next c) where
  sound := (next_move ho (ho.nextId_next_pos hleft c)).sound ho.sound
  nextId_lt := (nextId_next c s).lt ho.nextId_lt
  dgram := DgramsIdle.next ho.dgram c

theorem noLeak_next (ho : Owning s) (hleft : IdsLeft s) (hl : NoLeak s) :
    NoLeak (s.next c) ↔ KeepsConns c s := by
  rw [← noLeak_ledger (ho.next hleft c).sound]
  exact (next_move ho (ho.nextId_next_pos hleft c)).noLeak_iff ho.sound
    ((noLeak_ledger ho.sound).mpr hl)

theorem noLeak_atStart : NoLeak Net.atStart := by
  refine ⟨fun k hk => ?_, fun _ _ => rfl⟩
  cases hk

/-- As long as identifiers are left, no connection leaks along the runs that respect the
conditions, and along no others. -/
theorem no_connection_leaks_iff (calls : List NetCall)
    (h : EachStep next (fun _ s => IdsLeft s) calls Net.atStart) :
    Throughout next NoLeak calls Net.atStart ↔ EachStep next KeepsConns calls Net.atStart :=
  throughout_iff_eachStep h (fun c _ hleft ho => ho.next hleft c)
    (fun _ _ hleft ho hl => noLeak_next ho hleft hl) owning_atStart noLeak_atStart

def listenTwice : List NetCall :=
  [.socket nmAfInet nmSockStream 0, .bind 0 (some ⟨nmAfInet, 5, 0⟩), .listen 0, .listen 0,
    .closeSocket 0]

def listenOnce : List NetCall :=
  [.socket nmAfInet nmSockStream 0, .bind 0 (some ⟨nmAfInet, 5, 0⟩), .listen 0, .closeSocket 0]

theorem no_connection_leaks_listenOnce : Throughout next NoLeak listenOnce Net.atStart := by
  refine (no_connection_leaks_iff listenOnce (by decide +kernel)).mpr
    ⟨keepsConns_of_quiet (fun _ => not_false) (fun _ => not_false),
      keepsConns_of_quiet (fun _ => not_false) (fun _ => not_false),
      ⟨fun i hi => ?_, fun _ => False.elim⟩, ⟨fun _ => False.elim, fun i _ k _ hstate => ?_⟩,
      trivial⟩
  · have hsocket : ∀ i, getSock 0 (runCalls next (listenOnce.take 2) Net.atStart) = some i →
        ((runCalls next (listenOnce.take 2) Net.atStart).socks i).tcpConnId = -1 := by
      decide +kernel
    exact hsocket i hi.1
  · have hstates : ∀ k, ((runCalls next (listenOnce.take 3) Net.atStart).tcp.conns k).state ≠
        .synRecv := by
      decide +kernel
    exact absurd hstate (hstates k)

/-- No socket is open, and the first connection is still in use. -/
theorem second_listen_leaks : ¬ NoLeak (runCalls next listenTwice Net.atStart) := by
  intro h
  have hclosed : ∀ i, ((runCalls next listenTwice Net.atStart).socks i).used = false := by
    decide +kernel
  have hused : ((runCalls next listenTwice Net.atStart).tcp.conns 0).used = true := by
    decide +kernel
  rw [h.2 hclosed 0] at hused
  cases hused

end Net

end NeverMind
