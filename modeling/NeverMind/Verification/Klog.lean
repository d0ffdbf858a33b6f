import NeverMind.Library.Ring
import NeverMind.Library.Run
import NeverMind.Model.Klog
import Mathlib.Data.List.DropRight

/-! # The newest text of the kernel log

The ring holds the newest 8191 characters of the text, and a reader gets them from the oldest
on. -/

namespace NeverMind

open List

instance neZeroKlog : NeZero 8192 := ⟨by decide⟩

namespace Klog

def text (s : Klog) : List Byte := Ring.between s.ring s.tail s.head

/-- A character is added at the end, and a full ring loses its oldest. -/
theorem text_klogPutc {s : Klog} (hready : s.ready = true) (c : Byte) :
    (s.klogPutc c).text = s.text.rtake 8190 ++ [c] := by
  have hnext : ∀ i, nextCell i = Ring.next i := fun _ => rfl
  have hfull := Ring.next_eq_iff s.tail s.head
  have hlt := Ring.dist_lt s.tail s.head
  unfold klogPutc text rtake
  rw [Ring.length_between, hready]
  simp only [Bool.not_true, Bool.false_eq_true, if_false, hnext]
  by_cases hwrap : Ring.next s.head = s.tail
  · have hdist := hfull.mp hwrap
    have hne : s.tail ≠ s.head := by
      intro heq
      rw [heq, (Ring.dist_eq_zero_iff _ _).mpr rfl] at hdist
      exact absurd hdist (by decide)
    have hroom : Ring.next s.head ≠ Ring.next s.tail := by
      intro heq
      have hself := (Ring.next_eq_iff s.tail s.tail).mp (heq.symm.trans hwrap)
      rw [(Ring.dist_eq_zero_iff _ _).mpr rfl] at hself
      exact absurd hself (by decide)
    rw [if_pos hwrap, Ring.between_push _ hroom, Ring.between_pop _ hne,
      show Ring.dist s.tail s.head - 8190 = 1 by omega]
    rfl
  · have hdist : Ring.dist s.tail s.head + 1 ≠ 8192 := fun hdist => hwrap (hfull.mpr hdist)
    rw [if_neg hwrap, Ring.between_push _ hwrap, show Ring.dist s.tail s.head - 8190 = 0 by omega]
    rfl

/-- The log is ready and holds the newest characters of the text. -/
structure Newest (all : List Byte) (s : Klog) : Prop where
  ready : s.ready = true
  text_eq : s.text = all.rtake 8191

variable {all : List Byte} {s : Klog}

theorem newest_klogInit (s : Klog) : Newest [] s.klogInit := ⟨rfl, Ring.between_self _ _⟩

theorem Newest.klogPutc (h : Newest all s) (c : Byte) : Newest (all ++ [c]) (s.klogPutc c) := by
  refine ⟨?_, ?_⟩
  · simp [Klog.klogPutc, h.ready]
  · have htake : (all.rtake 8191).rtake 8190 = all.rtake 8190 := by
      simp [rtake_eq_reverse_take_reverse, take_take]
    rw [text_klogPutc h.ready, h.text_eq, htake, rtake_concat_succ]

theorem Newest.foldl (h : Newest all s) (msg : List Byte) :
    Newest (all ++ msg) (msg.foldl (fun s c => s.klogPutc c) s) := by
  induction msg generalizing all s with
  | nil => simpa using h
  | cons c msg ih => simpa using ih (h.klogPutc c)

/-- The calls that add text. -/
inductive Call where
  | putc (c : Byte)
  | write (msg : Option (List Byte))

def Call.chars : Call → List Byte
  | .putc c => [c]
  | .write msg => msg.getD []

def next (c : Call) (s : Klog) : Klog :=
  match c with
  | .putc c => s.klogPutc c
  | .write msg => s.klogWrite msg

theorem Newest.next (h : Newest all s) (c : Call) : Newest (all ++ c.chars) (s.next c) := by
  cases c with
  | putc c => exact h.klogPutc c
  | write msg =>
    cases msg with
    | none => simpa [Call.chars, Klog.next, klogWrite] using h
    | some msg => exact h.foldl msg

theorem Newest.run (h : Newest all s) (calls : List Call) :
    Newest (all ++ calls.flatMap Call.chars) (runCalls Klog.next calls s) := by
  induction calls generalizing all s with
  | nil => simpa using h
  | cons c calls ih =>
    rw [flatMap_cons, ← append_assoc]
    exact ih (h.next c)

/-- The loop copies the text from a cell on, as far as there is room, and terminates it. -/
theorem readLoop_spec (s : Klog) (room : ℕ) (p : Fin 8192) (front rest : List Byte)
    (hroom : room < rest.length) :
    ∃ rest', s.readLoop room p front.length (front ++ rest) =
      some (front.length + min (Ring.between s.ring p s.head).length room,
        front ++ (Ring.between s.ring p s.head).take room ++ 0 :: rest') := by
  induction room generalizing p front rest with
  | zero =>
    obtain ⟨x, rest, rfl⟩ := exists_cons_of_length_pos hroom
    exact ⟨rest, by simp [readLoop]⟩
  | succ room ih =>
    obtain ⟨x, rest, rfl⟩ := exists_cons_of_length_pos (Nat.zero_lt_of_lt hroom)
    by_cases hp : p = s.head
    · refine ⟨rest, ?_⟩
      rw [readLoop, if_pos hp, hp, Ring.between_self]
      simp
    · have hnext : nextCell p = Ring.next p := rfl
      obtain ⟨rest', hrest⟩ := ih (Ring.next p) (front ++ [s.ring p]) rest (by simpa using hroom)
      refine ⟨rest', ?_⟩
      rw [readLoop, if_neg hp, store_append, Ring.between_pop _ hp, hnext]
      simp only [length_append, length_singleton, append_assoc,
        singleton_append] at hrest
      simpa [Nat.add_assoc, Nat.add_comm 1, Nat.succ_min_succ] using hrest

/-- After `klog_init` and any calls that add text, `klog_read` stores the newest 8191 characters
from the oldest on, as far as the buffer has room, and leaves the log. -/
theorem klog_keeps_newest_text (s₀ : Klog) (calls : List Call) (cap : ℕ) (hcap : 1 ≤ cap)
    (out : List Byte) (hout : out.length = cap) :
    ∃ n out', (runCalls next calls s₀.klogInit).klogRead (some out) cap =
        some ((n, out'), runCalls next calls s₀.klogInit) ∧
      n = min ((calls.flatMap Call.chars).rtake 8191).length (cap - 1) ∧
      ((calls.flatMap Call.chars).rtake 8191).take n ++ [0] <+: out' := by
  have hnewest := (newest_klogInit s₀).run calls
  obtain ⟨s, hs⟩ : ∃ s, s = runCalls next calls s₀.klogInit := ⟨_, rfl⟩
  rw [← hs, nil_append] at hnewest
  obtain ⟨rest, hread⟩ := s.readLoop_spec (cap - 1) s.tail [] out (by omega)
  have htext : Ring.between s.ring s.tail s.head = _ := hnewest.text_eq
  rw [htext] at hread
  simp only [length_nil, nil_append, Nat.zero_add] at hread
  have hopen : ¬ (!s.ready || decide (cap = 0)) = true := by
    simp only [hnewest.ready, Bool.not_true, Bool.false_or, decide_eq_true_eq]
    omega
  have hrun := congrArg (Option.map fun r => (r, s)) hread
  rw [← hs]
  refine ⟨_, _, (if_neg hopen).trans hrun, rfl, ?_⟩
  rw [Nat.min_comm, ← take_eq_take_min]
  exact ⟨rest, by simp⟩

/-- Of 8193 characters the first two are gone. -/
theorem klog_keeps_newest_text_wrapped :
    let s := runCalls next [.write (some ([66, 67, 68] ++ replicate 8190 65))]
      (klogInit ⟨fun _ => 0, 5, 9, false⟩)
    ∃ n out', s.klogRead (some [9, 9, 9]) 3 = some ((n, out'), s) ∧ n = 2 ∧
      [68, 65, 0] <+: out' := by
  obtain ⟨text, htext⟩ : ∃ text : List Byte, text = replicate 8190 65 := ⟨_, rfl⟩
  have hlen : text.length = 8190 := htext ▸ length_replicate
  have hhead : text.head? = some 65 := htext ▸ rfl
  obtain ⟨n, out', hread, hn, hout⟩ := klog_keeps_newest_text ⟨fun _ => 0, 5, 9, false⟩
    [.write (some ([66, 67, 68] ++ text))] 3 (by decide) [9, 9, 9] rfl
  have hnewest : ([Call.write (some ([66, 67, 68] ++ text))].flatMap Call.chars).rtake 8191 =
      68 :: text := by
    simp [rtake, Call.chars, hlen]
  rw [hnewest, length_cons, hlen] at hn
  subst hn
  rw [hnewest] at hout
  rw [← htext]
  refine ⟨_, out', hread, rfl, ?_⟩
  obtain ⟨rest, hrest⟩ : ∃ rest, text = 65 :: rest := head?_eq_some_iff.mp hhead
  rw [hrest] at hout
  exact hout

end Klog

end NeverMind
