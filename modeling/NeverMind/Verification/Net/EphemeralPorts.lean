import NeverMind.Library.Run
import NeverMind.Verification.Net.SocketSteps

/-! # Ephemeral ports

`eph_port` is a 16-bit counter that is never compared with the ports in use. The ports it gives
are fresh as long as it stays ahead of all of them. -/

namespace NeverMind.Net

variable {s : Net} {i : SockRef} {c : NetCall}

/-- The port that the call gives to a socket without one is not zero, and no other open socket
of the type has it. -/
def FreshPort (c : NetCall) (s : Net) : Prop :=
  ∀ i, Assigns c s i → (s.ensureLocalPort i).1 ≠ 0 ∧
    ∀ j, j ≠ i → (s.socks j).used = true → (s.socks j).type = (s.socks i).type →
      (s.socks j).localPort ≠ (s.ensureLocalPort i).1

/-- The call binds no socket to a port that the counter is still to reach, and takes no port
from a counter that has wrapped around. -/
def StaysBehind (c : NetCall) (s : Net) : Prop :=
  match c with
  | .bind fd (some addr) => (s.getSock fd).isSome → addr.sinPort < s.ephPort
  | _ => ∀ i, Assigns c s i → s.ephPort ≠ 0

/-- The counter is ahead of every port in use, until it wraps around. -/
structure Ahead (s : Net) : Prop where
  ephPort_lt : s.ephPort < 2 ^ 16
  behind : s.ephPort ≠ 0 → ∀ i, (s.socks i).used = true → (s.socks i).localPort < s.ephPort

theorem ahead_atStart : Ahead Net.atStart where
  ephPort_lt := by decide
  behind := by
    intro _ i hused
    cases hused

theorem localPort_of_assigns (h : Assigns c s i) : (s.socks i).localPort = 0 := by
  cases c with
  | connect fd addr => exact h.2.2.2
  | sendto fd buf len addr => exact h.2.2.2.2.2
  | _ => exact h.elim

theorem port_of_assigns (h : Assigns c s i) : (s.ensureLocalPort i).1 = s.ephPort := by
  rw [ensureLocalPort_zero (localPort_of_assigns h)]

theorem Ahead.freshPort (h : Ahead s) (hbehind : StaysBehind c s) : FreshPort c s := by
  intro i hassigns
  rw [port_of_assigns hassigns]
  have hne : s.ephPort ≠ 0 := by
    cases c with
    | connect fd addr => exact hbehind i hassigns
    | sendto fd buf len addr => exact hbehind i hassigns
    | _ => exact hassigns.elim
  refine ⟨hne, fun j _ hused _ hport => ?_⟩
  have hlt := h.behind hne j hused
  omega

/-! ## The counter stays ahead -/

theorem Ahead.setSock (h : Ahead s) {e : SocketEntry}
    (he : s.ephPort ≠ 0 → e.used = true → e.localPort < s.ephPort) : Ahead (s.setSock i e) where
  ephPort_lt := h.ephPort_lt
  behind := by
    intro hne k hused
    rw [ephPort_setSock] at hne ⊢
    by_cases hki : k = i
    · rw [hki, socks_setSock, Function.update_self] at hused ⊢
      exact he hne hused
    · rw [socks_setSock, Function.update_of_ne hki] at hused ⊢
      exact h.behind hne k hused

theorem Ahead.of_le {s' : Net} (h : Ahead s) (heph : s'.ephPort = s.ephPort)
    (hle : ∀ k, (s'.socks k).used = true →
      (s.socks k).used = true ∧ (s'.socks k).localPort ≤ (s.socks k).localPort) : Ahead s' where
  ephPort_lt := heph ▸ h.ephPort_lt
  behind := by
    intro hne k hk
    rw [heph] at hne ⊢
    obtain ⟨hused, hport⟩ := hle k hk
    exact hport.trans_lt (h.behind hne k hused)

theorem Ahead.ensureLocalPort (h : Ahead s)
    (hne : (s.socks i).localPort = 0 → s.ephPort ≠ 0) : Ahead (s.ensureLocalPort i).2 := by
  by_cases hzero : (s.socks i).localPort = 0
  · have hlt := h.ephPort_lt
    rw [ensureLocalPort_zero hzero]
    refine ⟨Nat.mod_lt _ (by decide), fun hwrapped k hk => ?_⟩
    dsimp only at hwrapped hk ⊢
    have hnext : (s.ephPort + 1) % 2 ^ 16 = s.ephPort + 1 := by omega
    rw [hnext]
    by_cases hki : k = i
    · rw [hki, socks_setSock, Function.update_self]
      exact Nat.lt_succ_self _
    · rw [socks_setSock, Function.update_of_ne hki] at hk ⊢
      exact (h.behind (hne hzero) k hk).trans (Nat.lt_succ_self _)
  · rw [ensureLocalPort_of_ne hzero]
    exact h

theorem socks_ensureLocalPort (k : SockRef) :
    ((s.ensureLocalPort i).2.socks k).used = (s.socks k).used ∧
      (s.socks k).localPort ≤ ((s.ensureLocalPort i).2.socks k).localPort := by
  by_cases hzero : (s.socks i).localPort = 0
  · rw [ensureLocalPort_zero hzero]
    by_cases hki : k = i
    · simp [hki, hzero]
    · simp [hki]
  · rw [ensureLocalPort_of_ne hzero]
    exact ⟨rfl, le_rfl⟩

theorem Ahead.next (h : Ahead s) (hbehind : StaysBehind c s) : Ahead (s.next c) := by
  have heffect := next_effect c s
  generalize s.next c = s' at heffect ⊢
  cases heffect with
  | refused => exact h
  | opened hfree => exact h.setSock fun hne _ => Nat.pos_of_ne_zero hne
  | boundStream hget htype => exact h.setSock fun _ _ => hbehind (by simp [hget])
  | boundDgram hbinds =>
    exact (h.setSock fun _ _ => hbehind (by simp [hbinds.1])).of_le rfl
      fun _ hk => ⟨hk, le_rfl⟩
  | listenFailed | acceptFailed | acceptDropped | sentStream | receivedDgram | receivedStream
  | arrived => exact h.of_le rfl fun _ hk => ⟨hk, le_rfl⟩
  | @listened _ i hget htype hport hret =>
    have hentry := h.setSock (i := i) (e := { s.socks i with
      tcpConnId := (s.tcp.tcpListen (s.socks i).localPort).1, listening := true })
      fun hne hused => h.behind hne i hused
    exact hentry.of_le rfl fun _ hk => ⟨hk, le_rfl⟩
  | @accepted _ i child r hget hlistening hr hret hfree =>
    have hentry := h.setSock (i := child) (e := { newEntry .stream 0 with
      localPort := (s.socks i).localPort, tcpConnId := r.1 })
      fun hne _ => h.behind hne i (getSock_eq_some.mp hget).2
    exact hentry.of_le rfl fun _ hk => ⟨hk, le_rfl⟩
  | @connectFailed _ i _ _ hget htype hr hret =>
    refine (h.ensureLocalPort fun hzero => hbehind i ⟨hget, rfl, htype, hzero⟩).of_le rfl ?_
    intro k hk
    obtain ⟨hused, hport⟩ := socks_ensureLocalPort (s := s) (i := i) k
    exact ⟨hused.trans hk, hport⟩
  | @connected _ i _ _ hget htype hr hret =>
    refine (h.ensureLocalPort fun hzero => hbehind i ⟨hget, rfl, htype, hzero⟩).of_le rfl ?_
    intro k hk
    rw [ensureLocalPort_snd]
    by_cases hki : k = i
    · rw [hki] at hk ⊢
      simp_all
    · simp_all
  | @sentDgram _ i _ _ _ _ hget hbuf hlen htype hports =>
    refine (h.ensureLocalPort fun hzero =>
      hbehind i ⟨hget, hbuf, hlen, rfl, htype, hzero⟩).of_le rfl ?_
    intro k hk
    rw [ensureLocalPort_snd]
    exact ⟨hk, le_rfl⟩
  | @closedDgram _ i hcloses htype | @closedStream _ i hcloses htype =>
    have hentry := h.setSock (i := i) (e := { s.socks i with used := false }) (by simp)
    exact hentry.of_le rfl fun _ hk => ⟨hk, le_rfl⟩

/-- The ports a run chooses are fresh, if its binds stay behind the counter and the counter
does not wrap around. -/
theorem ephemeral_ports_fresh (calls : List NetCall)
    (h : EachStep next StaysBehind calls Net.atStart) : EachStep next FreshPort calls Net.atStart :=
  h.eachStep (fun _ _ hbehind hs => hs.next hbehind) (fun _ _ hbehind hs => hs.freshPort hbehind)
    ahead_atStart

def twoSenders : List NetCall :=
  [.socket nmAfInet nmSockDgram 0, .socket nmAfInet nmSockDgram 0,
    .sendto 0 (some fun _ => 0) 1 (some ⟨nmAfInet, 7, 0⟩),
    .sendto 1 (some fun _ => 0) 1 (some ⟨nmAfInet, 7, 0⟩)]

theorem ephemeral_ports_fresh_twoSenders :
    EachStep next FreshPort twoSenders Net.atStart ∧
      ((runCalls next twoSenders Net.atStart).socks 0).localPort = 40000 ∧
      ((runCalls next twoSenders Net.atStart).socks 1).localPort = 40001 := by
  refine ⟨ephemeral_ports_fresh twoSenders ⟨?_, ?_, ?_, ?_, trivial⟩, by decide +kernel,
    by decide +kernel⟩
  · exact fun _ => False.elim
  · exact fun _ => False.elim
  · exact fun _ _ => by decide +kernel
  · exact fun _ _ => by decide +kernel

def takenPort : List NetCall :=
  [.socket nmAfInet nmSockDgram 0, .bind 0 (some ⟨nmAfInet, 40000, 0⟩),
    .socket nmAfInet nmSockDgram 0, .sendto 1 (some fun _ => 0) 1 (some ⟨nmAfInet, 7, 0⟩)]

/-- The second socket gets the port of the first. -/
theorem ephemeral_port_taken : ¬ EachStep next FreshPort takenPort Net.atStart := by
  intro h
  have hassigns : Assigns (.sendto 1 (some fun _ => 0) 1 (some ⟨nmAfInet, 7, 0⟩))
      (runCalls next (takenPort.take 3) Net.atStart) 1 :=
    ⟨by decide +kernel, rfl, by decide, rfl, by decide +kernel, by decide +kernel⟩
  have hfresh := (h.2.2.2.1 1 hassigns).2 0 (by decide) (by decide +kernel) (by decide +kernel)
  exact hfresh (by decide +kernel)

end NeverMind.Net
