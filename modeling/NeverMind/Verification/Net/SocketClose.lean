import NeverMind.Verification.Net.SocketSteps

/-! # Closing a datagram socket

A port entry of `udp.c` does not know which sockets use it, and `nm_close_socket` unbinds by
port number. -/

namespace NeverMind

namespace Udp

variable {s s' : Udp} {q : ℕ}

/-- A receive sees and changes only the entry of its port. -/
theorem Agree.udpRecv (h : Agree q s s') (payload : Bool) (cap : ℕ) :
    (s'.udpRecv q payload cap).1 = (s.udpRecv q payload cap).1 ∧
      Agree q (s.udpRecv q payload cap).2 (s'.udpRecv q payload cap).2 := by
  unfold Udp.udpRecv
  rw [h.1]
  cases hfound : s.findPort q with
  | none => exact ⟨rfl, h⟩
  | some i =>
    cases payload with
    | false => exact ⟨rfl, h⟩
    | true =>
      simp only [h.2 i hfound, Bool.true_eq_false, if_false]
      split
      · exact ⟨rfl, h⟩
      · refine ⟨rfl, ?_, ?_⟩
        · rw [findPort_setPort, findPort_setPort, h.1]
          · rfl
          · simp [serves, h.2 i hfound]
        · intro k hk
          dsimp only at hk
          rw [findPort_setPort, hfound] at hk
          · cases hk
            simp
          · rfl

end Udp

namespace Net

variable {s s' : Net} {a b : SockRef}

def OpenDgram (i : SockRef) (s : Net) : Prop := (s.socks i).used = true ∧ (s.socks i).type = .dgram

/-- What receives with the given lengths return, one after the other. -/
def drained (fd : ℤ) (s : Net) : List ℕ → List Received
  | [] => []
  | len :: lens => (s.nmRecvfrom fd true len).1 :: drained fd (s.nmRecvfrom fd true len).2 lens

/-- After `a` is closed the port of `b` is bound, and `b` receives what it would have
received. -/
def StillReceives (a b : SockRef) (s : Net) : Prop :=
  Udp.Bound (s.socks b).localPort (s.nmCloseSocket a.val).2.udp ∧
    ∀ lens, drained b.val (s.nmCloseSocket a.val).2 lens = drained b.val s lens

/-! ## Close -/

theorem nmCloseSocket_dgram (h : OpenDgram a s) :
    (s.nmCloseSocket a.val).2 = { s.setSock a { s.socks a with used := false } with
        udp := if (s.socks a).localPort ≠ 0 then (s.udp.udpUnbind (s.socks a).localPort).2
          else s.udp } := by
  unfold nmCloseSocket
  rw [getSock_val h.1]
  simp only [h.2]
  split <;> rfl

theorem nmRecvfrom_dgram (h : OpenDgram b s) {len : ℕ} (hlen : len ≠ 0) :
    s.nmRecvfrom b.val true len = (let r := s.udp.udpRecv (s.socks b).localPort true (len % 2 ^ 16)
       let src := r.1.source.getD (0, 0)
       (⟨r.1.ret, r.1.bytes, if 0 ≤ r.1.ret then some ⟨nmAfInet, src.2, src.1⟩ else none⟩,
         { s with udp := r.2 })) := by
  unfold nmRecvfrom
  rw [getSock_val h.1]
  simp only [hlen, h.2, Bool.true_eq_false, or_false, if_false]

theorem nmRecvfrom_zero (fd : ℤ) (s : Net) :
    s.nmRecvfrom fd true 0 = (⟨nmErr nmEfail, [], none⟩, s) := by
  unfold nmRecvfrom
  split <;> simp

/-- Two states that a socket cannot tell apart. -/
structure SameView (b : SockRef) (s s' : Net) : Prop where
  open_dgram : OpenDgram b s
  entry : s'.socks b = s.socks b
  agree : Udp.Agree (s.socks b).localPort s.udp s'.udp

theorem SameView.open_dgram' (h : SameView b s s') : OpenDgram b s' := by
  rw [OpenDgram, h.entry]
  exact h.open_dgram

theorem SameView.recvfrom (h : SameView b s s') (len : ℕ) :
    (s'.nmRecvfrom b.val true len).1 = (s.nmRecvfrom b.val true len).1 ∧
      SameView b (s.nmRecvfrom b.val true len).2 (s'.nmRecvfrom b.val true len).2 := by
  by_cases hlen : len = 0
  · subst hlen
    rw [nmRecvfrom_zero, nmRecvfrom_zero]
    exact ⟨rfl, h⟩
  · obtain ⟨hret, hagree⟩ := h.agree.udpRecv true (len % 2 ^ 16)
    rw [nmRecvfrom_dgram h.open_dgram hlen, nmRecvfrom_dgram h.open_dgram' hlen, h.entry]
    refine ⟨?_, ⟨h.open_dgram, h.entry, hagree⟩⟩
    dsimp only
    rw [hret]

theorem SameView.drained_eq (h : SameView b s s') (lens : List ℕ) :
    drained b.val s' lens = drained b.val s lens := by
  induction lens generalizing s s' with
  | nil => rfl
  | cons len lens ih =>
    obtain ⟨hret, hview⟩ := h.recvfrom len
    rw [drained, drained, hret, ih hview]

theorem not_bound_zero (h : s.udp.WellFormed) : ¬ Udp.Bound 0 s.udp := by
  intro hbound
  obtain ⟨i, hi⟩ := Option.isSome_iff_exists.mp hbound
  obtain ⟨hused, hport⟩ := Udp.findPort_some hi
  exact h.nonzero i hused hport

/-- A close leaves another datagram socket able to receive exactly if that socket was able to
receive and has another port. -/
theorem close_keeps_receiver_iff (h : Reached s) (hab : a ≠ b) (ha : OpenDgram a s)
    (hb : OpenDgram b s) :
    StillReceives a b s ↔ (s.socks a).localPort ≠ (s.socks b).localPort ∧
        Udp.Bound (s.socks b).localPort s.udp := by
  have hclose := nmCloseSocket_dgram ha
  constructor
  · rintro ⟨hbound, -⟩
    rw [hclose] at hbound
    dsimp only at hbound
    by_cases hports : (s.socks a).localPort = (s.socks b).localPort
    · rw [hports] at hbound
      split at hbound
      · exact absurd hbound (h.wellFormed.distinct.not_bound_udpUnbind _)
      · rename_i hzero
        rw [not_not.mp hzero] at hbound
        exact absurd hbound (not_bound_zero h.wellFormed)
    · refine ⟨hports, ?_⟩
      split at hbound
      · exact (Udp.Agree.udpUnbind hports s.udp).bound_iff.mp hbound
      · exact hbound
  · rintro ⟨hports, hbound⟩
    have hview : SameView b s (s.nmCloseSocket a.val).2 := by
      rw [hclose]
      refine ⟨hb, ?_, ?_⟩
      · exact Function.update_of_ne hab.symm _ _
      · dsimp only
        split
        · exact Udp.Agree.udpUnbind hports s.udp
        · exact ⟨rfl, fun _ _ => rfl⟩
    exact ⟨hview.agree.bound_iff.mpr hbound, hview.drained_eq⟩

def twoSockets (addrA addrB : SockAddr) : Net :=
  ((((Net.atStart.next (.socket nmAfInet nmSockDgram 0)).next (.socket nmAfInet nmSockDgram 0)).next
    (.bind 0 (some addrA))).next (.bind 1 (some addrB))).next
      (.sendto 0 (some fun _ => 65) 1 (some addrB))

theorem reached_twoSockets (addrA addrB : SockAddr) : Reached (twoSockets addrA addrB) :=
  ((((Reached.start.step _).step _).step _).step _).step _

theorem close_keeps_receiver_twoPorts :
    StillReceives 0 1 (twoSockets ⟨nmAfInet, 5, 0⟩ ⟨nmAfInet, 6, 0⟩) := by
  have ha : OpenDgram 0 (twoSockets ⟨nmAfInet, 5, 0⟩ ⟨nmAfInet, 6, 0⟩) := by
    unfold OpenDgram
    decide +kernel
  have hb : OpenDgram 1 (twoSockets ⟨nmAfInet, 5, 0⟩ ⟨nmAfInet, 6, 0⟩) := by
    unfold OpenDgram
    decide +kernel
  refine (close_keeps_receiver_iff (reached_twoSockets _ _) (by decide) ha hb).mpr ?_
  unfold Udp.Bound
  decide +kernel

def sharedPort : Net := twoSockets ⟨nmAfInet, 5, 0⟩ ⟨nmAfInet, 5, 0⟩

/-- Both binds to port 5 succeed, and the close of one socket unbinds the port of the other: the
byte that the other could have received is lost. -/
theorem close_unbinds_shared_port :
    Reached sharedPort ∧ OpenDgram 0 sharedPort ∧ OpenDgram 1 sharedPort ∧
      (sharedPort.socks 0).localPort = 5 ∧ (sharedPort.socks 1).localPort = 5 ∧
      Udp.Bound 5 sharedPort.udp ∧
      (sharedPort.nmRecvfrom 1 true 1).1 = ⟨1, [65], some ⟨nmAfInet, 5, 0⟩⟩ ∧
      ((sharedPort.nmCloseSocket 0).2.nmRecvfrom 1 true 1).1 = ⟨nmErr nmEfail, [], none⟩ ∧
      ¬ StillReceives 0 1 sharedPort := by
  have hreached : Reached sharedPort := reached_twoSockets _ _
  have hbefore : (sharedPort.nmRecvfrom 1 true 1).1 = ⟨1, [65], some ⟨nmAfInet, 5, 0⟩⟩ := by
    decide +kernel
  have hafter : ((sharedPort.nmCloseSocket 0).2.nmRecvfrom 1 true 1).1 =
      ⟨nmErr nmEfail, [], none⟩ := by
    decide +kernel
  have hopen : (OpenDgram 0 sharedPort ∧ OpenDgram 1 sharedPort) ∧
      (sharedPort.socks 0).localPort = 5 ∧ (sharedPort.socks 1).localPort = 5 ∧
      Udp.Bound 5 sharedPort.udp := by
    unfold OpenDgram Udp.Bound
    decide +kernel
  obtain ⟨⟨ha, hb⟩, hportA, hportB, hbound⟩ := hopen
  refine ⟨hreached, ha, hb, hportA, hportB, hbound, hbefore, hafter, ?_⟩
  rintro ⟨-, hsame⟩
  have hlist : [((sharedPort.nmCloseSocket 0).2.nmRecvfrom 1 true 1).1] =
      [(sharedPort.nmRecvfrom 1 true 1).1] := hsame [1]
  rw [hbefore, hafter] at hlist
  exact absurd hlist (by decide)

end Net

end NeverMind
