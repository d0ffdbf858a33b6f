import NeverMind.Model.Vfs

/-! # The shell

`userspace/shell.c` over any file system. A buffer is the list of its bytes, and its length is the
size that C passes beside it. The buffers that the functions leave uninitialised are arguments. A
read or a store outside a buffer, and a loop or a file operation that does not end, are `none`.
The line and the script are the bytes before their terminators. -/

namespace NeverMind.Shell

def isBlank (b : Byte) : Bool := b == 32 || b == 9

/-- `out_append`: the string goes to `out[used]` and on, as far as there is room. -/
def outAppend : List Byte → ℕ → List Byte → Option (ℕ × List Byte)
  | [], _, _ => none
  | b :: s, used, out =>
    if b ≠ 0 ∧ used + 1 < out.length then do
      let out ← store out used b
      outAppend s (used + 1) out
    else (store out used 0).map fun out => (used, out)

def strEq : List Byte → List Byte → Option Bool
  | x :: a, y :: b =>
    if x ≠ 0 ∧ y ≠ 0 then if x ≠ y then some false else strEq a b else some (x == y)
  | _, _ => none

def strLen : List Byte → Option ℕ
  | [] => none
  | b :: s => if b ≠ 0 then (strLen s).map (· + 1) else some 0

def splitTokens (line : List Byte) (tokens : List (List Byte)) (maxTokens : ℕ) :
    Option (ℤ × List (List Byte)) :=
  (splitFields isBlank 0 64 maxTokens line.length line 0 tokens).map fun r =>
    match r.1 with
    | some count => ((count : ℤ), r.2)
    | none => (-1, r.2)

/-- The bytes of a row before its terminator. -/
def cString (row : List Byte) : List Byte := row.takeWhile (· != 0)

/-- The loop of `cmd_echo` over `argv[1]` and on. -/
def echoLoop : List (List Byte) → ℕ → List Byte → Option (ℕ × List Byte)
  | [], used, out => some (used, out)
  | word :: words, used, out => do
      let (used, out) ← outAppend word used out
      let (used, out) ← if words = [] then some (used, out) else outAppend [32, 0] used out
      echoLoop words used out

def cmdEcho (argv : List (List Byte)) (out : List Byte) : Option (ℤ × List Byte) := do
  let (used, out) ← echoLoop argv.tail 0 out
  let (_, out) ← outAppend [10, 0] used out
  some (0, out)

variable {T R : Type} (fs : Filesystem T R) (fuel : ℕ)

/-- `out[used++] = buf[i]` for `i < n`, as far as there is room. -/
def copyOut : ℕ → List Byte → ℕ → List Byte → Option (ℕ × List Byte)
  | 0, _, used, out => some (used, out)
  | n + 1, buf, used, out =>
    if used + 1 < out.length then
      match buf with
      | [] => none
      | b :: buf => do
          let out ← store out used b
          copyOut n buf (used + 1) out
    else some (used, out)

/-- The loop of `cmd_cat`. What `fs_read` stores goes to the front of `buf`. -/
def catLoop (fs : Filesystem T R) (fd : ℤ) : ℕ → List Byte → ℕ → List Byte → Vfs T R →
    Option (ℕ × List Byte × Vfs T R)
  | 0, _, _, _, _ => none
  | fuel + 1, buf, used, out, s =>
    match s.fsRead fs fd true 128 with
    | ((n, bytes), s) =>
      if 0 < n then do
        let buf := bytes ++ buf.drop bytes.length
        let (used, out) ← copyOut n.toNat buf used out
        catLoop fs fd fuel buf used out s
      else some (used, out, s)

def cmdCat (argv : List (List Byte)) (buf out : List Byte) (input : Option (List Byte))
    (s : Vfs T R) : Option (ℤ × List Byte × Vfs T R) :=
  match argv.tail with
  | [] => (outAppend (input.getD [0]) 0 out).map fun r => (0, r.2, s)
  | path :: _ => do
      let (fd, s) ← s.fsOpen fs fuel (some (cString path)) nmORdonly
      if fd < 0 then some (-1, out, s)
      else
        let (used, out, s) ← catLoop fs fd fuel buf 0 out s
        let out ← if used < out.length then store out used 0 else some out
        some (0, out, (s.fsClose fd).2)

/-- `/hello.txt`, `/motd`, `/tmp.log` and `/ext2-file`. -/
def candidates : List (List Byte) :=
  [[47, 104, 101, 108, 108, 111, 46, 116, 120, 116], [47, 109, 111, 116, 100],
    [47, 116, 109, 112, 46, 108, 111, 103], [47, 101, 120, 116, 50, 45, 102, 105, 108, 101]]

/-- The loop of `cmd_ls`. -/
def lsLoop (s : Vfs T R) : List (List Byte) → ℕ → List Byte → Option (List Byte)
  | [], _, out => some out
  | path :: paths, used, out => do
      let (ret, _) ← s.fsStat fs fuel (some path) true
      if ret = 0 then
        let (used, out) ← outAppend (path ++ [0]) used out
        let (used, out) ← outAppend [10, 0] used out
        lsLoop s paths used out
      else lsLoop s paths used out

def cmdLs (out : List Byte) (s : Vfs T R) : Option (ℤ × List Byte) :=
  (lsLoop fs fuel s candidates 0 out).map fun out => (0, out)

def echoName : List Byte := [101, 99, 104, 111]

def catName : List Byte := [99, 97, 116]

def lsName : List Byte := [108, 115]

/-- The uninitialised buffers of a call of `run_simple`: `argv`, and `buf` of `cmd_cat`. -/
structure Frame where
  argv : List (List Byte)
  buf : List Byte
  rows : argv.length = 16
  width : ∀ row ∈ argv, row.length = 64
  size : buf.length = 128

inductive Builtin where
  | echo
  | cat
  | ls
  deriving Repr, DecidableEq

/-- What a command has done: its result, the builtins that ran with their words, the bytes given
to `fs_write`, the output buffer and the state of the file system. -/
structure Done (T R : Type) where
  ret : ℤ
  ran : List (Builtin × List (List Byte))
  written : Option (List Byte)
  out : List Byte
  vfs : Vfs T R

def runSimple (line : List Byte) (frame : Frame) (out : List Byte) (input : Option (List Byte))
    (s : Vfs T R) : Option (Done T R) := do
  let (argc, argv) ← splitTokens line frame.argv 16
  if argc ≤ 0 then (store out 0 0).map fun out => ⟨0, [], none, out, s⟩
  else
    let argv := argv.take argc.toNat
    let name := argv.headD []
    let words := argv.map cString
    if ← strEq name (echoName ++ [0]) then
      (cmdEcho argv out).map fun r => ⟨r.1, [(.echo, words)], none, r.2, s⟩
    else if ← strEq name (catName ++ [0]) then
      (cmdCat fs fuel argv frame.buf out input s).map fun r =>
        ⟨r.1, [(.cat, words)], none, r.2.1, r.2.2⟩
    else if ← strEq name (lsName ++ [0]) then
      (cmdLs fs fuel out s).map fun r => ⟨r.1, [(.ls, words)], none, r.2, s⟩
    else some ⟨-1, [], none, out, s⟩

/-- The values 0, 1 and 2 of `mode`. -/
inductive Mode where
  | plain
  | pipe
  | redirect
  deriving Repr, DecidableEq

/-- `mode`, `li`, `ri`, `left` and `right`. -/
structure Halves where
  mode : Mode
  li : ℕ
  ri : ℕ
  left : List Byte
  right : List Byte

/-- One round of the loop of `shell_execute_line` over the line. -/
def Halves.step (h : Halves) (b : Byte) : Option Halves :=
  if b = 124 ∧ h.mode = .plain then some { h with mode := .pipe }
  else if b = 62 ∧ h.mode = .plain then some { h with mode := .redirect }
  else if h.mode = .plain ∧ h.li + 1 < 128 then
    (store h.left h.li b).map fun left => { h with left := left, li := h.li + 1 }
  else if h.mode ≠ .plain ∧ h.ri + 1 < 128 then
    (store h.right h.ri b).map fun right => { h with right := right, ri := h.ri + 1 }
  else some h

/-- The uninitialised buffers of a call of `shell_execute_line`. -/
structure Stack where
  left : List Byte
  right : List Byte
  tmp : List Byte
  toks : List (List Byte)
  first : Frame
  second : Frame
  left_size : left.length = 128
  right_size : right.length = 128
  tmp_size : tmp.length = 512
  toks_rows : toks.length = 8
  toks_width : ∀ row ∈ toks, row.length = 64

/-- The end of a redirected line: `tmp` goes to the file that `right` names. -/
def redirect (alloc : NmAlloc) (right tmp : List Byte) (toks : List (List Byte))
    (first : Done T R) : Option (Done T R) := do
  let (c, toks) ← splitTokens right toks 8
  if c ≠ 1 then some { first with ret := -1 }
  else
    let path := cString (toks.headD [])
    let (fd, s) ← first.vfs.fsOpen fs fuel (some path) (nmOCreat ||| nmORdwr)
    if fd < 0 then some { first with ret := -1, vfs := s }
    else
      let len ← strLen tmp
      let (_, s) ← s.fsWrite fs fuel alloc fd (some fun i => tmp.getD i 0) len
      some { first with written := some (tmp.take len), vfs := (s.fsClose fd).2 }

def shellExecuteLine (alloc : NmAlloc) (stack : Stack) (line out : Option (List Byte))
    (s : Vfs T R) : Option (Done T R) :=
  match line, out with
  | some line, some (_ :: out) => do
      let out := 0 :: out
      let h ← line.foldlM Halves.step ⟨.plain, 0, 0, stack.left, stack.right⟩
      let left ← store h.left h.li 0
      let right ← store h.right h.ri 0
      match h.mode with
      | .plain => runSimple fs fuel left stack.first out none s
      | .pipe =>
        let r ← runSimple fs fuel left stack.first stack.tmp none s
        if r.ret ≠ 0 then some { r with ret := -1, out := out }
        else
          let r' ← runSimple fs fuel right stack.second out (some r.out) r.vfs
          some { r' with ran := r.ran ++ r'.ran }
      | .redirect =>
        let r ← runSimple fs fuel left stack.first stack.tmp none s
        if r.ret ≠ 0 then some { r with ret := -1, out := out }
        else redirect fs fuel alloc right r.out stack.toks { r with out := out }
  | _, out => some ⟨-1, [], none, out.getD [], s⟩

section Script

variable {σ : Type} (execute : List Byte → σ → Option (ℤ × List Byte × σ))

/-- The end of a line in `shell_run_script`: a line that is not empty is executed, and what it
prints is appended. -/
def endLine (line : List Byte) (used : ℕ) (out : List Byte) (s : σ) :
    Option (ℕ × List Byte × σ) :=
  if line = [] then some (used, out, s)
  else do
    let (ret, one, s) ← execute line s
    if ret = 0 ∧ one ≠ [] then
      let (used, out) ← outAppend (one ++ [0]) used out
      some (used, out, s)
    else some (used, out, s)

/-- The loop of `shell_run_script`; `line` is what the line buffer of 256 bytes holds. -/
def scriptLoop : List Byte → List Byte → ℕ → List Byte → σ → Option (List Byte × σ)
  | [], line, used, out, s => (endLine execute line used out s).map Prod.snd
  | ch :: script, line, used, out, s =>
    if ch ≠ 10 ∧ line.length + 1 < 256 then scriptLoop script (line ++ [ch]) used out s
    else do
      let (used, out, s) ← endLine execute line used out s
      scriptLoop script [] used out s

/-- `shell_run_script`, where `execute` stands for `shell_execute_line`: it gives the result, the
string in `one` and the state. -/
def shellRunScript (script out : Option (List Byte)) (s : σ) : Option (ℤ × List Byte × σ) :=
  match script, out with
  | some script, some (_ :: out) =>
    (scriptLoop execute script [] 0 (0 :: out) s).map fun r => (0, r.1, r.2)
  | _, out => some (-1, out.getD [], s)

end Script

/-- `shell_execute_line` as `shell_run_script` calls it. The uninitialised buffers are those of
the call, which the state counts. -/
def executeLine (alloc : NmAlloc) (locals : ℕ → Stack × List Byte) (line : List Byte)
    (s : ℕ × Vfs T R) : Option (ℤ × List Byte × ℕ × Vfs T R) :=
  (shellExecuteLine fs fuel alloc (locals s.1).1 (some line) (some (locals s.1).2) s.2).map
    fun r => (r.ret, cString r.out, s.1 + 1, r.vfs)

end NeverMind.Shell
