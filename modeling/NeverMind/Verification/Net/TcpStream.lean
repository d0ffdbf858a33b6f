import NeverMind.Verification.Net.TcpCalls
import Mathlib.Data.List.TakeDrop

/-! # Connections as byte streams

A send replaces what waits at the peer, and a receive empties the buffer even when it returns
less. The bytes arrive in order and none is lost exactly when every send finds the buffer of
the peer empty and every receive has room for all that waits. -/

namespace NeverMind.Tcp

open List

variable {s : Tcp} {x y : ℤ} {i j : ConnRef} {c : TcpCall}

/-- Two open ends that name each other. -/
structure Ends (x y : ℤ) (i j : ConnRef) (s : Tcp) : Prop where
  found_x : s.findById x = some i
  found_y : s.findById y = some j
  open_x : (s.conns i).state = .established
  open_y : (s.conns j).state = .established
  peer_x : (s.conns i).peerId = y
  peer_y : (s.conns j).peerId = x

/-- The calls on two ends that a stream is made of. -/
inductive OnEnds (x y : ℤ) : TcpCall → Prop where
  | send (id : ℤ) (payload : Option (ℕ → Byte)) (len : ℕ) (h : id = x ∨ id = y) :
      OnEnds x y (.send id payload len)
  | recv (id : ℤ) (payload : Bool) (cap : ℕ) (h : id = x ∨ id = y) :
      OnEnds x y (.recv id payload cap)

def sentStep (x : ℤ) (c : TcpCall) (s : Tcp) : List Byte :=
  match c with
  | .send id (some data) len =>
    if id = x then (range (s.tcpSend id (some data) len).1.toNat).map data else []
  | _ => []

def receivedStep (y : ℤ) (c : TcpCall) (s : Tcp) : List Byte :=
  match c with
  | .recv id payload cap => if id = y then (s.tcpRecv id payload cap).1.2 else []
  | _ => []

def run (calls : List TcpCall) (s : Tcp) : Tcp := calls.foldl (fun s c => (s.call c).2) s

def sentOn (x : ℤ) : List TcpCall → Tcp → List Byte
  | [], _ => []
  | c :: calls, s => sentStep x c s ++ sentOn x calls (s.call c).2

def receivedOn (y : ℤ) : List TcpCall → Tcp → List Byte
  | [], _ => []
  | c :: calls, s => receivedStep y c s ++ receivedOn y calls (s.call c).2

def waiting (y : ℤ) (s : Tcp) : List Byte :=
  match s.findById y with
  | some j => pending (s.conns j)
  | none => []

/-- What was received is a prefix of what was sent, and the rest of it waits. -/
def Reliable (x y : ℤ) (calls : List TcpCall) (s : Tcp) : Prop :=
  receivedOn y calls s <+: sentOn x calls s ∧
    sentOn x calls s = receivedOn y calls s ++ waiting y (s.run calls)

/-- A send finds nothing waiting, and a receive takes all that waits. -/
def InTurn (x y : ℤ) (c : TcpCall) (s : Tcp) : Prop :=
  match c with
  | .send id payload len => id = x → payload.isSome = true → len ≠ 0 → waiting y s = []
  | .recv id payload cap => id = y → payload = true → (waiting y s).length ≤ cap
  | _ => True

/-! ## One call -/

theorem findById_congr (s s' : Tcp)
    (h : ∀ k, (s'.conns k).used = (s.conns k).used ∧ (s'.conns k).id = (s.conns k).id) (id : ℤ) :
    s'.findById id = s.findById id := by
  simp only [findById, h]

theorem Ends.setBuffer (h : Ends x y i j s) (k : ConnRef) (rxLen : ℕ) (rxBuf : Fin 2048 → Byte) :
    Ends x y i j (s.setConn k { s.conns k with rxLen := rxLen, rxBuf := rxBuf }) := by
  obtain ⟨s', hs'⟩ : ∃ s', s' = s.setConn k { s.conns k with rxLen := rxLen, rxBuf := rxBuf } :=
    ⟨_, rfl⟩
  have hkeep : ∀ l, (s'.conns l).used = (s.conns l).used ∧ (s'.conns l).id = (s.conns l).id ∧
      (s'.conns l).state = (s.conns l).state ∧ (s'.conns l).peerId = (s.conns l).peerId := by
    intro l
    by_cases hlk : l = k
    · subst hlk
      simp [hs']
    · simp [hs', hlk]
  have hfind := findById_congr s s' fun l => ⟨(hkeep l).1, (hkeep l).2.1⟩
  rw [← hs']
  refine ⟨?_, ?_, ?_, ?_, ?_, ?_⟩
  · rw [hfind, h.found_x]
  · rw [hfind, h.found_y]
  · rw [(hkeep i).2.2.1, h.open_x]
  · rw [(hkeep j).2.2.1, h.open_y]
  · rw [(hkeep i).2.2.2, h.peer_x]
  · rw [(hkeep j).2.2.2, h.peer_y]

theorem Ends.symm (h : Ends x y i j s) : Ends y x j i s :=
  ⟨h.found_y, h.found_x, h.open_y, h.open_x, h.peer_y, h.peer_x⟩

theorem Ends.waiting_eq (h : Ends x y i j s) : waiting y s = pending (s.conns j) := by
  rw [waiting, h.found_y]

theorem Ends.ne (h : Ends x y i j s) (hxy : x ≠ y) : i ≠ j := by
  intro hij
  have hx := (findById_some h.found_x).2
  have hy := (findById_some h.found_y).2
  rw [← hx, ← hy, hij] at hxy
  exact hxy rfl

/-- A send on `x` between two open ends. -/
theorem Ends.sends (h : Ends x y i j s) (data : ℕ → Byte) {len : ℕ} (hlen : len ≠ 0) :
    s.tcpSend x (some data) len =
      ((sendCount len : ℤ), s.setConn j (fill data len (s.conns j))) := by
  have hpeer : s.findById (s.conns i).peerId = some j := by
    rw [h.peer_x, h.found_y]
  have hsends : Sends x (some data) len data i j s :=
    ⟨rfl, hlen, h.found_x, h.open_x, hpeer, h.open_y⟩
  cases tcpSend_spec x (some data) len s with
  | inl hfail => exact absurd hsends (hfail.2 data i j)
  | inr hsend =>
    obtain ⟨data', i', j', hsends', hrun⟩ := hsend
    have hdata := hsends'.data
    cases hdata
    have hi : i' = i := Option.some.inj (hsends'.found.symm.trans h.found_x)
    subst hi
    have hj : j' = j := Option.some.inj (hsends'.peer_found.symm.trans hpeer)
    rw [hrun, hj]

theorem tcpSend_nothing (id : ℤ) {payload : Option (ℕ → Byte)} {len : ℕ}
    (h : payload = none ∨ len = 0) (s : Tcp) : s.tcpSend id payload len = (nmErr nmEfail, s) := by
  cases tcpSend_spec id payload len s with
  | inl hfail => exact hfail.1
  | inr hsend =>
    obtain ⟨data, _, _, hsends, -⟩ := hsend
    cases h with
    | inl hnone =>
      have hdata := hsends.data
      rw [hnone] at hdata
      cases hdata
    | inr hzero => exact absurd hzero hsends.len

/-- What a call leaves at `y` after what it returned from there, against what waited there
before what it sent. -/
def Conserves (x y : ℤ) (c : TcpCall) (s : Tcp) : Prop :=
  receivedStep y c s ++ waiting y (s.call c).2 = waiting y s ++ sentStep x c s

theorem Ends.send_step (h : Ends x y i j s) {id : ℤ} (hid : id = x ∨ id = y)
    (payload : Option (ℕ → Byte)) (len : ℕ) :
    Ends x y i j (s.call (.send id payload len)).2 ∧
      (Conserves x y (.send id payload len) s ↔ InTurn x y (.send id payload len) s) := by
  simp only [Conserves, InTurn, call, receivedStep, nil_append]
  by_cases hnothing : payload = none ∨ len = 0
  · -- nothing is sent and nothing is demanded
    have hrun := tcpSend_nothing id hnothing s
    have hsent : sentStep x (.send id payload len) s = [] := by
      unfold sentStep
      split
      · rename_i id' data len' hcall
        cases hcall
        rw [hrun]
        simp [nmErr, nmEfail]
      · rfl
    rw [hrun, hsent, append_nil]
    refine ⟨h, iff_of_true rfl ?_⟩
    rintro - hsome hlen
    cases hnothing with
    | inl hnone => simp [hnone] at hsome
    | inr hzero => exact absurd hzero hlen
  · rw [not_or] at hnothing
    obtain ⟨data, rfl⟩ := Option.ne_none_iff_exists'.mp hnothing.1
    by_cases hx : id = x
    · subst hx
      have hrun := h.sends data hnothing.2
      have hends : Ends id y i j (s.setConn j (fill data len (s.conns j))) := h.setBuffer j _ _
      have hsent : sentStep id (.send id (some data) len) s = (range (sendCount len)).map data := by
        rw [sentStep, if_pos rfl, hrun, Int.toNat_natCast]
      rw [hrun, hsent]
      refine ⟨hends, ?_⟩
      rw [hends.waiting_eq, conns_setConn, Function.update_self, pending_fill]
      refine ⟨fun heq _ _ _ => self_eq_append_left.mp heq, fun hwait => ?_⟩
      rw [hwait rfl rfl hnothing.2, nil_append]
    · -- a send on the other end goes the other way
      have hy := hid.resolve_left hx
      subst hy
      have hrun := h.symm.sends data hnothing.2
      have hends : Ends x id i j (s.setConn i (fill data len (s.conns i))) := h.setBuffer i _ _
      have hne : j ≠ i := h.symm.ne hx
      have hsent : sentStep x (.send id (some data) len) s = [] := by
        rw [sentStep, if_neg hx]
      rw [hrun, hsent, append_nil]
      refine ⟨hends, iff_of_true ?_ fun hidx => absurd hidx hx⟩
      rw [hends.waiting_eq, h.waiting_eq, conns_setConn, Function.update_of_ne hne]

theorem Ends.recv_step (h : Ends x y i j s) {id : ℤ} (hid : id = x ∨ id = y) (payload : Bool)
    (cap : ℕ) :
    Ends x y i j (s.call (.recv id payload cap)).2 ∧
      (Conserves x y (.recv id payload cap) s ↔ InTurn x y (.recv id payload cap) s) := by
  simp only [Conserves, InTurn, call, receivedStep, sentStep, append_nil]
  cases tcpRecv_spec id payload cap s with
  | inl hfail =>
    obtain ⟨hbytes, hrun, hnone⟩ := hfail
    rw [hbytes, hrun]
    refine ⟨h, iff_of_true (by split <;> rfl) ?_⟩
    intro hy hbuffer
    subst hy
    -- a receive with a buffer fails only when nothing waits
    have hempty : (s.conns j).rxLen = 0 := by
      by_contra hwaiting
      exact hnone j ⟨hbuffer, h.found_y, h.open_y, hwaiting⟩
    rw [h.waiting_eq, pending_of_rxLen hempty]
    exact Nat.zero_le cap
  | inr hrecv =>
    obtain ⟨k, hreceives, hbytes, hrun⟩ := hrecv
    have hends : Ends x y i j (s.setConn k { s.conns k with rxLen := 0 }) := h.setBuffer k _ _
    rw [hbytes, hrun]
    refine ⟨hends, ?_⟩
    by_cases hy : id = y
    · subst hy
      have hk : k = j := Option.some.inj (hreceives.found.symm.trans h.found_y)
      subst hk
      have hafter : waiting id (s.setConn k { s.conns k with rxLen := 0 }) = [] := by
        rw [hends.waiting_eq, conns_setConn, Function.update_self]
        exact pending_of_rxLen rfl
      rw [if_pos rfl, hafter, h.waiting_eq, append_nil, take_eq_self_iff]
      exact ⟨fun hle _ _ => hle, fun hle => hle rfl hreceives.buffer⟩
    · have hx := hid.resolve_right hy
      subst hx
      have hk : k = i := Option.some.inj (hreceives.found.symm.trans h.found_x)
      subst hk
      have hne : j ≠ k := (h.ne hy).symm
      rw [if_neg hy, nil_append]
      refine iff_of_true ?_ fun hidy => absurd hidy hy
      rw [hends.waiting_eq, h.waiting_eq, conns_setConn, Function.update_of_ne hne]

theorem Ends.call (h : Ends x y i j s) (hc : OnEnds x y c) :
    Ends x y i j (s.call c).2 ∧ (Conserves x y c s ↔ InTurn x y c s) := by
  cases hc with
  | send id payload len hid => exact h.send_step hid payload len
  | recv id payload cap hid => exact h.recv_step hid payload cap

/-! ## Runs -/

theorem sentOn_append (x : ℤ) (before after : List TcpCall) (s : Tcp) :
    sentOn x (before ++ after) s = sentOn x before s ++ sentOn x after (s.run before) := by
  induction before generalizing s with
  | nil => rfl
  | cons c before ih =>
    rw [cons_append, sentOn, sentOn, ih, append_assoc]
    rfl

theorem receivedOn_append (y : ℤ) (before after : List TcpCall) (s : Tcp) :
    receivedOn y (before ++ after) s =
      receivedOn y before s ++ receivedOn y after (s.run before) := by
  induction before generalizing s with
  | nil => rfl
  | cons c before ih =>
    rw [cons_append, receivedOn, receivedOn, ih, append_assoc]
    rfl

theorem Ends.run (h : Ends x y i j s) {calls : List TcpCall} (hcalls : ∀ c ∈ calls, OnEnds x y c) :
    Ends x y i j (s.run calls) := by
  induction calls generalizing s with
  | nil => exact h
  | cons c calls ih =>
    exact ih (h.call (hcalls c mem_cons_self)).1 fun c' hc' =>
      hcalls c' (mem_cons_of_mem c hc')

/-- A run of calls that are all in turn passes on exactly what is sent. -/
theorem Ends.stream (h : Ends x y i j s) {calls : List TcpCall} (hcalls : ∀ c ∈ calls, OnEnds x y c)
    (hturn : ∀ before c after, calls = before ++ c :: after → InTurn x y c (s.run before)) :
    receivedOn y calls s ++ waiting y (s.run calls) = waiting y s ++ sentOn x calls s := by
  induction calls generalizing s with
  | nil => rw [receivedOn, sentOn, nil_append, append_nil]; rfl
  | cons c calls ih =>
    obtain ⟨hends, hiff⟩ := h.call (hcalls c mem_cons_self)
    have hstep : Conserves x y c s := hiff.mpr (hturn [] c calls rfl)
    have hrest := ih hends (fun c' hc' => hcalls c' (mem_cons_of_mem c hc'))
      fun before c' after hsplit => hturn (c :: before) c' after (by rw [hsplit]; rfl)
    calc receivedOn y (c :: calls) s ++ waiting y (s.run (c :: calls))
        = receivedStep y c s ++
            (receivedOn y calls (s.call c).2 ++ waiting y ((s.call c).2.run calls)) := by
          rw [receivedOn, append_assoc]
          rfl
      _ = (receivedStep y c s ++ waiting y (s.call c).2) ++ sentOn x calls (s.call c).2 := by
          rw [hrest, append_assoc]
      _ = waiting y s ++ sentOn x (c :: calls) s := by
          rw [hstep, sentOn, append_assoc]

/-- Over the calls on two open ends with empty buffers, the connection is a reliable stream
after every call exactly when every call is in turn. -/
theorem byte_stream_iff (h : Ends x y i j s) (hempty : waiting y s = [])
    (calls : List TcpCall) (hcalls : ∀ c ∈ calls, OnEnds x y c) :
    (∀ before after, calls = before ++ after → Reliable x y before s) ↔
      ∀ before c after, calls = before ++ c :: after → InTurn x y c (s.run before) := by
  constructor
  · intro hreliable before c after hsplit
    have hmem : ∀ c' ∈ before, OnEnds x y c' := fun c' hc' =>
      hcalls c' (by rw [hsplit]; exact mem_append_left _ hc')
    have hc : OnEnds x y c := hcalls c (by rw [hsplit]; simp)
    -- compare the stream before the call with the stream after it
    have hbefore := (hreliable before (c :: after) hsplit).2
    have hafter := (hreliable (before ++ [c]) after (by rw [hsplit]; simp)).2
    rw [sentOn_append, receivedOn_append, hbefore, append_assoc, append_assoc,
      append_cancel_left_eq] at hafter
    refine ((h.run hmem).call hc).2.mp ?_
    rw [Conserves]
    have hrun : s.run (before ++ [c]) = ((s.run before).call c).2 := by
      rw [Tcp.run, foldl_append]
      rfl
    rw [hrun] at hafter
    simpa [sentOn, receivedOn] using hafter.symm
  · intro hturn before after hsplit
    have hmem : ∀ c' ∈ before, OnEnds x y c' := fun c' hc' =>
      hcalls c' (by rw [hsplit]; exact mem_append_left _ hc')
    have hstream := h.stream hmem fun before' c after' hsplit' =>
      hturn before' c (after' ++ after) (by rw [hsplit, hsplit']; simp)
    rw [hempty, nil_append] at hstream
    exact ⟨⟨_, hstream⟩, hstream.symm⟩

def connectedPair : Tcp := Tcp.atStart.run [.listen 80, .connect 1 80 5000, .accept 80]

theorem ends_connectedPair : Ends 2 3 1 2 connectedPair := by
  constructor <;> decide +kernel

/-- A send, a receive with room and a second send. -/
theorem byte_stream_iff_inTurn :
    Reliable 2 3 [.send 2 (some fun _ => 97) 1, .recv 3 true 8, .send 2 (some fun _ => 98) 1]
      connectedPair := by
  refine (byte_stream_iff ends_connectedPair (by decide +kernel) _ ?_).mpr ?_ _ []
    (append_nil _).symm
  · simp only [mem_cons, not_mem_nil, or_false, forall_eq_or_imp, forall_eq]
    exact ⟨.send _ _ _ (.inl rfl), .recv _ _ _ (.inr rfl), .send _ _ _ (.inl rfl)⟩
  · intro before c after hsplit
    match before with
    | [] =>
      injection hsplit with hc
      subst hc
      exact fun _ _ _ => by decide +kernel
    | [_] =>
      injection hsplit with hfirst hsplit
      injection hsplit with hc
      subst hfirst hc
      exact fun _ _ => by decide +kernel
    | [_, _] =>
      injection hsplit with hfirst hsplit
      injection hsplit with hsecond hsplit
      injection hsplit with hc
      subst hfirst hsecond hc
      exact fun _ _ _ => by decide +kernel
    | _ :: _ :: _ :: rest => simp at hsplit

/-- Two sends before a receive: the first byte is gone. -/
theorem second_send_overwrites :
    let calls := [TcpCall.send 2 (some fun _ => 97) 1, .send 2 (some fun _ => 98) 1, .recv 3 true 8]
    sentOn 2 calls connectedPair = [97, 98] ∧ receivedOn 3 calls connectedPair = [98] ∧
      waiting 3 (connectedPair.run calls) = [] ∧ ¬ Reliable 2 3 calls connectedPair := by
  refine ⟨by decide +kernel, by decide +kernel, by decide +kernel, fun hreliable => ?_⟩
  have hsent := hreliable.2
  revert hsent
  decide +kernel

end NeverMind.Tcp
