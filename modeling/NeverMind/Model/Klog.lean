import NeverMind.Library.Fields
import NeverMind.Model.Fd

/-! # The kernel log

`kernel/klog.c`: a ring of characters that drops the oldest. A message is the list of bytes before
its terminator. -/

namespace NeverMind

/-- The static variables of `klog.c`. -/
structure Klog where
  ring : Fin 8192 → Byte
  head : Fin 8192
  tail : Fin 8192
  ready : Bool

namespace Klog

/-- `(i + 1) % KLOG_CAP`. -/
def nextCell (i : Fin 8192) : Fin 8192 := ⟨(i.val + 1) % 8192, Nat.mod_lt _ (by decide)⟩

def klogInit (s : Klog) : Klog := { s with head := 0, tail := 0, ready := true }

def klogPutc (c : Byte) (s : Klog) : Klog :=
  if !s.ready then s
  else
    { s with
      ring := Function.update s.ring s.head c
      head := nextCell s.head
      tail := if nextCell s.head = s.tail then nextCell s.tail else s.tail }

def klogWrite (msg : Option (List Byte)) (s : Klog) : Klog :=
  match msg with
  | none => s
  | some msg => msg.foldl (fun s c => s.klogPutc c) s

/-- The loop of `klog_read` and the terminator after it; `room` is `cap - 1 - n`. -/
def readLoop (s : Klog) : ℕ → Fin 8192 → ℕ → List Byte → Option (ℕ × List Byte)
  | 0, _, n, out => (store out n 0).map fun out => (n, out)
  | room + 1, p, n, out =>
    if p = s.head then (store out n 0).map fun out => (n, out)
    else do
      let out ← store out n (s.ring p)
      readLoop s room (nextCell p) (n + 1) out

def klogRead (out : Option (List Byte)) (cap : ℕ) (s : Klog) : Option ((ℕ × List Byte) × Klog) :=
  match out with
  | none => some ((0, []), s)
  | some out =>
    if !s.ready || cap = 0 then some ((0, out), s)
    else (s.readLoop (cap - 1) s.tail 0 out).map fun r => (r, s)

end Klog

end NeverMind
