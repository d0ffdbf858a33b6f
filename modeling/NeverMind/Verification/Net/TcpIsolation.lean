import NeverMind.Verification.Net.TcpCalls

/-! # Connections are isolated

As long as the identifiers do not wrap, an open connection has the only open end with its
identifier, and the peer of an open connection names it back. A send therefore reaches the
buffer of its own peer only, and what a receive returns came from there. -/

namespace NeverMind.Tcp

variable {s s' : Tcp} {i j : ConnRef} {n : ℕ}

/-- A successful send: the connection and the bytes it reports as sent. -/
abbrev Sent := ℤ × List Byte

/-- What a call adds to the record of sends. -/
def sentBy (c : TcpCall) (s : Tcp) : List Sent :=
  match c with
  | .send id (some data) len =>
    if 0 < (s.tcpSend id (some data) len).1 then
      [(id, (List.range (s.tcpSend id (some data) len).1.toNat).map data)]
    else []
  | _ => []

/-- The tables reached by calls that took `n` slots, with the sends on the way. -/
inductive Reached : ℕ → List Sent → Tcp → Prop where
  | start : Reached 0 [] Tcp.atStart
  | step {n : ℕ} {sent : List Sent} {s : Tcp} (h : Reached n sent s) (c : TcpCall) :
      Reached (n + taken c s) (sent ++ sentBy c s) (s.call c).2

/-- Identifiers are positive and distinct, and peers name each other. -/
structure Isolated (sent : List Sent) (s : Tcp) : Prop where
  positive : ∀ i, (s.conns i).used = true → 0 < (s.conns i).id
  distinct : ∀ i j, (s.conns i).used = true → (s.conns j).used = true →
    (s.conns i).id = (s.conns j).id → i = j
  symmetric : ∀ i j, (s.conns i).used = true → (s.conns j).used = true →
    (s.conns j).id = (s.conns i).peerId → (s.conns j).peerId = (s.conns i).id
  send_frame : ∀ id payload len j, (s.tcpSend id payload len).2.conns j ≠ s.conns j →
      ∃ i, s.findById id = some i ∧ (s.conns j).used = true ∧ (s.conns j).id = (s.conns i).peerId
  recv_source : ∀ id payload cap, (s.tcpRecv id payload cap).1.2 ≠ [] →
    ∃ i bytes, s.findById id = some i ∧ ((s.conns i).peerId, bytes) ∈ sent ∧
      (s.tcpRecv id payload cap).1.2 <+: bytes

/-! ## Links -/

/-- The links between connections after `n` slots were taken. -/
structure Linked (n : ℕ) (s : Tcp) : Prop where
  next : s.nextId = i32 (n + 1)
  ids : ∀ i, (s.conns i).used = true → 0 < (s.conns i).id ∧ (s.conns i).id ≤ n
  distinct : ∀ i j, (s.conns i).used = true → (s.conns j).used = true →
    (s.conns i).id = (s.conns j).id → i = j
  peers : ∀ i, (s.conns i).used = true → (s.conns i).peerId ≤ n
  symmetric : ∀ i j, (s.conns i).used = true → (s.conns j).used = true →
    (s.conns j).id = (s.conns i).peerId → (s.conns j).peerId = (s.conns i).id

theorem linked_atStart : Linked 0 Tcp.atStart where
  next := by decide
  ids := fun i h => absurd h (by simp [Tcp.atStart])
  distinct := fun i j h => absurd h (by simp [Tcp.atStart])
  peers := fun i h => absurd h (by simp [Tcp.atStart])
  symmetric := fun i j h => absurd h (by simp [Tcp.atStart])

/-- An open connection that was open before, with the same links. -/
def SameLinks (s s' : Tcp) (i : ConnRef) : Prop :=
  (s.conns i).used = true ∧ (s'.conns i).id = (s.conns i).id ∧
    (s'.conns i).peerId = (s.conns i).peerId

/-- An open connection with an identifier after the first `n`, and with no peer or one after
the first `n`. -/
def NewLinks (n m : ℕ) (s' : Tcp) (i : ConnRef) : Prop :=
  (s'.conns i).used = true ∧ (n < (s'.conns i).id ∧ (s'.conns i).id ≤ m) ∧
    (s'.conns i).peerId ≤ m ∧ ((s'.conns i).peerId < 0 ∨ n < (s'.conns i).peerId)

theorem Linked.extend {m : ℕ} (h : Linked n s) (hnm : n ≤ m) (hnext : s'.nextId = i32 (m + 1))
    (hcases : ∀ i, (s'.conns i).used = true → SameLinks s s' i ∨ NewLinks n m s' i)
    (hdistinct : ∀ i j, NewLinks n m s' i → NewLinks n m s' j →
      (s'.conns i).id = (s'.conns j).id → i = j)
    (hsymmetric : ∀ i j, NewLinks n m s' i → NewLinks n m s' j →
      (s'.conns j).id = (s'.conns i).peerId → (s'.conns j).peerId = (s'.conns i).id) :
    Linked m s' := by
  have hbound : ∀ i, SameLinks s s' i →
      0 < (s'.conns i).id ∧ (s'.conns i).id ≤ n ∧ (s'.conns i).peerId ≤ n := by
    rintro i ⟨hused, hid, hpeer⟩
    rw [hid, hpeer]
    exact ⟨(h.ids i hused).1, (h.ids i hused).2, h.peers i hused⟩
  refine ⟨hnext, ?_, ?_, ?_, ?_⟩
  · intro i hi
    cases hcases i hi with
    | inl hold => have := hbound i hold; omega
    | inr hnew => have := hnew.2.1; omega
  · intro i j hi hj hij
    cases hcases i hi with
    | inl hold =>
      cases hcases j hj with
      | inl hold' => exact h.distinct i j hold.1 hold'.1 (by rw [← hold.2.1, ← hold'.2.1, hij])
      | inr hnew => have := hbound i hold; have := hnew.2.1; omega
    | inr hnew =>
      cases hcases j hj with
      | inl hold => have := hbound j hold; have := hnew.2.1; omega
      | inr hnew' => exact hdistinct i j hnew hnew' hij
  · intro i hi
    cases hcases i hi with
    | inl hold => have := hbound i hold; omega
    | inr hnew => exact hnew.2.2.1
  · intro i j hi hj hij
    cases hcases i hi with
    | inl hold =>
      cases hcases j hj with
      | inl hold' =>
        rw [hold'.2.2, hold.2.1]
        exact h.symmetric i j hold.1 hold'.1 (by rw [← hold'.2.1, ← hold.2.2, hij])
      | inr hnew => have := hbound i hold; have := hnew.2.1; omega
    | inr hnew =>
      cases hcases j hj with
      | inl hold => have := hbound j hold; have := hnew.2.2.2; omega
      | inr hnew' => exact hsymmetric i j hnew hnew' hij

theorem Linked.of_keep (h : Linked n s) (hnext : s'.nextId = s.nextId)
    (hkeep : ∀ i, (s'.conns i).used = true → SameLinks s s' i) : Linked n s' := by
  have hnone : ∀ i, ¬ NewLinks n n s' i := by
    intro i hi
    have := hi.2.1
    omega
  exact h.extend (Nat.le_refl n) (hnext.trans h.next) (fun i hi => .inl (hkeep i hi))
    (fun i j hi => absurd hi (hnone i)) (fun i j hi => absurd hi (hnone i))

theorem Linked.nextId_eq (h : Linked n s) (hn : n + 1 < 2 ^ 31) : s.nextId = n + 1 := by
  rw [h.next]
  exact i32_of_lt (by omega) (by omega)

theorem Linked.take_one (h : Linked n s) (hn : n + 1 < 2 ^ 31) (i : ConnRef) (c : TcpConn)
    (hc : c.used = true → c.id = s.nextId ∧ c.peerId = -1) :
    Linked (n + 1) { s.setConn i c with nextId := i32 (s.nextId + 1) } := by
  have hnext := h.nextId_eq hn
  obtain ⟨s', hs'⟩ : ∃ s', s' = { s.setConn i c with nextId := i32 (s.nextId + 1) } := ⟨_, rfl⟩
  have hself : s'.conns i = c := by simp [hs']
  have hother : ∀ j, j ≠ i → s'.conns j = s.conns j := fun j hj => by simp [hs', hj]
  have hcases : ∀ j, (s'.conns j).used = true →
      SameLinks s s' j ∨ j = i ∧ (s'.conns j).id = n + 1 ∧ (s'.conns j).peerId = -1 := by
    intro j hj
    by_cases hji : j = i
    · subst hji
      rw [hself] at hj ⊢
      rw [← hnext]
      exact .inr ⟨rfl, hc hj⟩
    · rw [SameLinks, hother j hji] at *
      exact .inl ⟨hj, rfl, rfl⟩
  have honly : ∀ j, NewLinks n (n + 1) s' j → j = i := by
    intro j hj
    cases hcases j hj.1 with
    | inl hold =>
      have := (h.ids j hold.1).2
      have := hj.2.1
      rw [hold.2.1] at this
      omega
    | inr hnew => exact hnew.1
  rw [← hs']
  refine h.extend (by omega) (by rw [hs', hnext]; push_cast; rfl) ?_ ?_ ?_
  · intro j hj
    cases hcases j hj with
    | inl hold => exact .inl hold
    | inr hnew =>
      obtain ⟨-, hid, hpeer⟩ := hnew
      exact .inr ⟨hj, by omega, by omega, by omega⟩
  · intro j k hj hk _
    rw [honly j hj, honly k hk]
  · intro j k hj hk hjk
    obtain rfl := honly j hj
    obtain rfl := honly k hk
    have := hj.2
    omega

theorem Linked.take_two (h : Linked n s) (hn : n + 2 < 2 ^ 31) (i j : ConnRef) (hij : i ≠ j)
    (c d : TcpConn) (hc : c.id = s.nextId ∧ c.peerId = d.id)
    (hd : d.id = i32 (s.nextId + 1) ∧ d.peerId = c.id) :
    Linked (n + 2) { (s.setConn i c).setConn j d with nextId := i32 (d.id + 1) } := by
  have hnext := h.nextId_eq (by omega)
  have hsecond : d.id = n + 2 := by
    rw [hd.1, hnext]
    exact i32_of_lt (by omega) (by omega)
  obtain ⟨s', hs'⟩ : ∃ s', s' = { (s.setConn i c).setConn j d with nextId := i32 (d.id + 1) } :=
    ⟨_, rfl⟩
  have hi : s'.conns i = c := by simp [hs', hij]
  have hj : s'.conns j = d := by simp [hs']
  have hother : ∀ k, k ≠ i → k ≠ j → s'.conns k = s.conns k :=
    fun k hki hkj => by simp [hs', hki, hkj]
  have hcases : ∀ k, (s'.conns k).used = true →
      SameLinks s s' k ∨ k = i ∧ (s'.conns k).id = n + 1 ∧ (s'.conns k).peerId = n + 2 ∨
        k = j ∧ (s'.conns k).id = n + 2 ∧ (s'.conns k).peerId = n + 1 := by
    intro k hk
    by_cases hki : k = i
    · subst hki
      rw [hi, hc.2, hc.1, hnext, hsecond]
      exact .inr (.inl ⟨rfl, rfl, rfl⟩)
    · by_cases hkj : k = j
      · subst hkj
        rw [hj, hd.2, hc.1, hnext, hsecond]
        exact .inr (.inr ⟨rfl, rfl, rfl⟩)
      · rw [SameLinks, hother k hki hkj] at *
        exact .inl ⟨hk, rfl, rfl⟩
  have hnew : ∀ k, NewLinks n (n + 2) s' k →
      k = i ∧ (s'.conns k).id = n + 1 ∧ (s'.conns k).peerId = n + 2 ∨
        k = j ∧ (s'.conns k).id = n + 2 ∧ (s'.conns k).peerId = n + 1 := by
    intro k hk
    refine (hcases k hk.1).resolve_left fun hold => ?_
    have hid := (h.ids k hold.1).2
    have hlow := hk.2.1.1
    rw [hold.2.1] at hlow
    omega
  rw [← hs']
  refine h.extend (by omega) (by rw [hs', hsecond]; push_cast; rfl) ?_ ?_ ?_
  · intro k hk
    obtain hold | ⟨-, hid, hpeer⟩ | ⟨-, hid, hpeer⟩ := hcases k hk
    · exact .inl hold
    · exact .inr ⟨hk, by omega, by omega, by omega⟩
    · exact .inr ⟨hk, by omega, by omega, by omega⟩
  · intro k l hk hl hkl
    obtain ⟨hk, hkid, -⟩ | ⟨hk, hkid, -⟩ := hnew k hk <;>
      obtain ⟨hl, hlid, -⟩ | ⟨hl, hlid, -⟩ := hnew l hl
    · rw [hk, hl]
    · omega
    · omega
    · rw [hk, hl]
  · intro k l hk hl hkl
    obtain ⟨hk, hkid, hkpeer⟩ | ⟨hk, hkid, hkpeer⟩ := hnew k hk <;>
      obtain ⟨hl, hlid, hlpeer⟩ | ⟨hl, hlid, hlpeer⟩ := hnew l hl <;> omega

theorem sameLinks_call {c : TcpCall} (hc : c.opens = false) {i : ConnRef}
    (hused : ((s.call c).2.conns i).used = true) : SameLinks s (s.call c).2 i := by
  have hslot := call_slot c s i
  rw [SameLinks]
  generalize (s.call c).2.conns i = conn at hslot hused ⊢
  cases hslot with
  | kept | accepted | filled | drained => exact ⟨hused, rfl, rfl⟩
  | taken _ hopens => rw [hc] at hopens; cases hopens
  | closed => cases hused

theorem Linked.of_not_opens (h : Linked n s) {c : TcpCall} (hc : c.opens = false) :
    Linked n (s.call c).2 :=
  h.of_keep (nextId_call hc s) fun _ => sameLinks_call hc

theorem Linked.call (h : Linked n s) (c : TcpCall) (hn : n + taken c s < 2 ^ 31) :
    Linked (n + taken c s) (s.call c).2 := by
  cases c with
  | listen port =>
    simp only [Tcp.call, taken, tcpListen] at hn ⊢
    cases allocConn_spec s with
    | inl hfull =>
      rw [hfull]
      exact h
    | inr halloc =>
      obtain ⟨i, -, hrun⟩ := halloc
      rw [hrun] at hn ⊢
      dsimp only [setConn]
      rw [Function.update_idem, Function.update_self]
      exact h.take_one hn i _ fun _ => ⟨rfl, rfl⟩
  | connect dstIp dstPort srcPort =>
    simp only [Tcp.call]
    have hends := tcpConnect_ends dstIp dstPort srcPort s
    generalize s.tcpConnect dstIp dstPort srcPort = r at hends ⊢
    generalize taken (.connect dstIp dstPort srcPort) s = m at hends hn ⊢
    cases hends with
    | refused _ => exact h
    | rolledBack _ i _ c hunused => exact h.take_one hn i c fun hused => by simp [hunused] at hused
    | joined _ i j _ hne _ _ first second hfirst hsecond =>
      exact h.take_two hn i j hne _ _ ⟨hfirst, rfl⟩ ⟨hsecond, rfl⟩
  | accept | send | recv | close => exact h.of_not_opens rfl

variable {sent : List Sent}

theorem Reached.linked (h : Reached n sent s) (hn : n < 2 ^ 31) : Linked n s := by
  induction h with
  | start => exact linked_atStart
  | step _ c ih => exact (ih (by omega)).call c hn

/-! ## Bytes -/

/-- Whatever waits at an open connection was sent by its peer. -/
def Sourced (sent : List Sent) (s : Tcp) : Prop :=
  ∀ i, (s.conns i).used = true → pending (s.conns i) ≠ [] →
    ((s.conns i).peerId, pending (s.conns i)) ∈ sent

theorem sentBy_of_sends {id : ℤ} {payload : Option (ℕ → Byte)} {len : ℕ} {data : ℕ → Byte}
    {c peer : ConnRef} (h : Sends id payload len data c peer s) :
    sentBy (.send id payload len) s = [(id, (List.range (sendCount len)).map data)] := by
  have hpos : 0 < sendCount len := by
    have := h.len
    unfold sendCount tcpBufMax
    split <;> omega
  cases tcpSend_spec id payload len s with
  | inl hfail => exact absurd h (hfail.2 data c peer)
  | inr hsend =>
    obtain ⟨data', c', peer', hsends, hrun⟩ := hsend
    have hdata := hsends.data
    rw [h.data] at hdata hrun
    cases hdata
    rw [h.data, sentBy, hrun]
    dsimp only
    rw [if_pos (by omega), Int.toNat_natCast]

theorem Sourced.call (h : Sourced sent s) (hlinked : Linked n s) (c : TcpCall) :
    Sourced (sent ++ sentBy c s) (s.call c).2 := by
  intro i hused hpending
  have hslot := call_slot c s i
  generalize (s.call c).2.conns i = conn at hslot hused hpending ⊢
  cases hslot with
  | kept => exact List.mem_append_left _ (h i hused hpending)
  | taken _ _ _ hempty => exact absurd (pending_of_rxLen (hempty hused)) hpending
  | accepted => exact List.mem_append_left _ (h i hused hpending)
  | filled id payload len data from_ hcall hsends =>
    -- the receiver names the sender, because the sender names the receiver
    obtain ⟨hfrom, hid⟩ := findById_some hsends.found
    obtain ⟨-, hpeer⟩ := findById_some hsends.peer_found
    have hback : (s.conns i).peerId = id := by
      rw [hlinked.symmetric from_ i hfrom hused hpeer, hid]
    rw [hcall, sentBy_of_sends hsends, pending_fill]
    exact List.mem_append_right _ (by simp [fill, hback])
  | drained => exact absurd (pending_of_rxLen rfl) hpending
  | closed => cases hused

theorem Reached.sourced (h : Reached n sent s) (hn : n < 2 ^ 31) : Sourced sent s := by
  induction h with
  | start => exact fun i hused => absurd hused (by simp [Tcp.atStart])
  | step hreached c ih => exact (ih (by omega)).call (hreached.linked (by omega)) c

/-- In every table reached by fewer than `2 ^ 31` slot allocations the connections are
isolated. -/
theorem connections_isolated (h : Reached n sent s) (hn : n < 2 ^ 31) : Isolated sent s := by
  have hlinked := h.linked hn
  refine ⟨fun i hi => (hlinked.ids i hi).1, hlinked.distinct, hlinked.symmetric, ?_, ?_⟩
  · intro id payload len j hchanged
    cases tcpSend_spec id payload len s with
    | inl hfail =>
      rw [hfail.1] at hchanged
      exact absurd rfl hchanged
    | inr hsend =>
      obtain ⟨data, c, peer, hsends, hrun⟩ := hsend
      rw [hrun] at hchanged
      have hj : j = peer := by
        by_contra hne
        rw [conns_setConn, Function.update_of_ne hne] at hchanged
        exact hchanged rfl
      subst hj
      obtain ⟨hused, hid⟩ := findById_some hsends.peer_found
      exact ⟨c, hsends.found, hused, hid⟩
  · intro id payload cap hbytes
    cases tcpRecv_spec id payload cap s with
    | inl hfail => exact absurd hfail.1 hbytes
    | inr hrecv =>
      obtain ⟨c, hreceives, htake, -⟩ := hrecv
      obtain ⟨hused, -⟩ := findById_some hreceives.found
      rw [htake] at hbytes ⊢
      have hpending : pending (s.conns c) ≠ [] := by
        intro hempty
        rw [hempty, List.take_nil] at hbytes
        exact hbytes rfl
      exact ⟨c, _, hreceives.found, h.sourced hn c hused hpending, List.take_prefix cap _⟩

/-- A listener, a connection to it and two bytes on their way to the accepted end. -/
theorem connections_isolated_twoBytes :
    ∃ s, s = ((((Tcp.atStart.call (.listen 80)).2.call (.connect 1 80 5000)).2.call
        (.accept 80)).2.call (.send 2 (some fun _ => 7) 2)).2 ∧
      (s.tcpRecv 3 true 10).1.2 = [7, 7] ∧ Isolated [(2, [7, 7])] s := by
  refine ⟨_, rfl, by decide +kernel, ?_⟩
  have hsent : ([] : List Sent) ++ sentBy (.listen 80) Tcp.atStart ++
      sentBy (.connect 1 80 5000) (Tcp.atStart.call (.listen 80)).2 ++
      sentBy (.accept 80) ((Tcp.atStart.call (.listen 80)).2.call (.connect 1 80 5000)).2 ++
      sentBy (.send 2 (some fun _ => 7) 2) (((Tcp.atStart.call (.listen 80)).2.call
        (.connect 1 80 5000)).2.call (.accept 80)).2 = [(2, [7, 7])] := by
    decide +kernel
  rw [← hsent]
  exact connections_isolated
    ((((Reached.start.step (.listen 80)).step (.connect 1 80 5000)).step (.accept 80)).step
      (.send 2 (some fun _ => 7) 2)) (by decide +kernel)

end NeverMind.Tcp
