import NeverMind.Library.Loop
import NeverMind.Model.Klog

/-! # The console

`kernel/console.c`, and the report of an exception in `kernel/exceptions.c`. A string is the list of
bytes before its terminator. The wait of `serial_putc` for the line is left out. -/

namespace NeverMind

/-- The static variables of `console.c`, and the cells from `VGA_MEM` on. -/
structure Vga where
  mem : ℕ → BitVec 16
  row : ℕ
  col : ℕ
  attr : Byte

namespace Vga

/-- `((uint16_t)vga_attr << 8) | c`. -/
def cell (v : Vga) (c : Byte) : BitVec 16 := v.attr.setWidth 16 <<< 8 ||| c.setWidth 16

/-- The loop of `vga_scroll` that moves the rows up. -/
def moveRows (mem : ℕ → BitVec 16) : ℕ → BitVec 16 :=
  forRange 1 25 (fun r => forRange 0 80 fun c mem =>
    Function.update mem ((r - 1) * 80 + c) (mem (r * 80 + c))) mem

/-- The loop of `vga_scroll` that clears the last row. -/
def clearRow (blank : BitVec 16) (mem : ℕ → BitVec 16) : ℕ → BitVec 16 :=
  forRange 0 80 (fun c mem => Function.update mem (24 * 80 + c) blank) mem

def vgaScroll (v : Vga) : Vga :=
  if v.row < 25 then v else { v with mem := clearRow (v.cell 0x20) (moveRows v.mem), row := 24 }

/-- `vga_row++`, `vga_col = 0` and the scroll after them; the counters have 16 bits. -/
def nextRow (v : Vga) : Vga := vgaScroll { v with row := (v.row + 1) % 2 ^ 16, col := 0 }

def vgaPutc (c : Byte) (v : Vga) : Vga :=
  if c = 0x0A then v.nextRow
  else
    let v := { v with
      mem := Function.update v.mem (v.row * 80 + v.col) (v.cell c)
      col := (v.col + 1) % 2 ^ 16 }
    if v.col ≥ 80 then v.nextRow else v

end Vga

/-- The screen, the bytes written to ports in their order, and the log. -/
structure Console where
  vga : Vga
  ports : List (ℕ × Byte)
  klog : Klog

namespace Console

def outb (port : ℕ) (value : Byte) (s : Console) : Console :=
  { s with ports := s.ports ++ [(port, value)] }

def serialInit (s : Console) : Console :=
  ((((((s.outb 0x3F9 0x00).outb 0x3FB 0x80).outb 0x3F8 0x03).outb 0x3F9 0x00).outb 0x3FB 0x03).outb
    0x3FA 0xC7).outb 0x3FC 0x0B

def consoleInit (s : Console) : Console :=
  serialInit { s with vga := { s.vga with row := 0, col := 0 } }

def consolePutc (c : Byte) (s : Console) : Console :=
  let s := { s with klog := s.klog.klogPutc c }
  let s := s.outb 0x3F8 c
  { s with vga := s.vga.vgaPutc c }

def consoleWrite (str : List Byte) (s : Console) : Console :=
  str.foldl (fun s c => s.consolePutc c) s

/-- `"0123456789abcdef"[nibble]`. -/
def hex (nibble : ℕ) : Byte := BitVec.ofNat 8 (if nibble < 10 then 48 + nibble else 87 + nibble)

/-- `for (int i = 15; i >= 0; i--)`, with `i` digits to go. -/
def hexDigits (value : ℕ) : ℕ → Console → Console
  | 0, s => s
  | i + 1, s => hexDigits value i (s.consolePutc (hex (value / 16 ^ i % 16)))

def consoleWriteHexU64 (value : ℕ) (s : Console) : Console :=
  hexDigits value 16 (s.consoleWrite [0x30, 0x78])

/-- The bytes of a string literal. -/
def chars (s : String) : List Byte := s.toList.map fun c => BitVec.ofNat 8 c.toNat

/-- A label and a number. -/
def writeField (label : String) (value : ℕ) (s : Console) : Console :=
  (s.consoleWrite (chars label)).consoleWriteHexU64 value

/-- The report, before the processor is halted; `rsp` is the address of `stack`. -/
def nmExceptionDispatch (stack : ℕ → ℕ) (cr2 rsp : ℕ) (s : Console) : Console :=
  let s := s.writeField "[EXC] vec=" (stack 0)
  let s := s.writeField " err=" (stack 1)
  let s := s.writeField " rip=" (stack 2)
  let s := s.writeField " cs=" (stack 3)
  let s := s.writeField " rflags=" (stack 4)
  let s := if stack 0 = 14 then s.writeField " cr2=" cr2 else s
  let s := s.writeField " rsp=" rsp
  s.consoleWrite (chars "\n")

end Console

end NeverMind
