import NeverMind.Library.Run
import NeverMind.Model.Console

/-! # What the screen shows

Text is laid out in rows on paper without end. The screen shows the last 25 of them, over what had
been there. -/

namespace NeverMind

namespace Vga

open Function

variable {v w : Vga}

/-! ## Scrolling -/

/-- The first `k` cells hold what stood a row further down. -/
def Moved (mem : ℕ → BitVec 16) (k : ℕ) (mem' : ℕ → BitVec 16) : Prop :=
  ∀ i, mem' i = if i < k then mem (i + 80) else mem i

theorem Moved.step {mem mem' : ℕ → BitVec 16} {k : ℕ} (h : Moved mem k mem') :
    Moved mem (k + 1) (update mem' k (mem' (k + 80))) := by
  intro i
  rw [update_apply, h, h]
  split_ifs <;> first | rfl | omega | (subst_vars; rfl)

theorem moved_moveRows (mem : ℕ → BitVec 16) : Moved mem ((25 - 1) * 80) (moveRows mem) := by
  unfold moveRows
  apply forRange_rule (fun r mem' => Moved mem ((r - 1) * 80) mem') (by decide)
  · intro i
    rw [if_neg (by omega)]
  · intro r mem' hr _ hmem
    rw [show (r + 1 - 1) * 80 = (r - 1) * 80 + 80 by omega]
    apply forRange_rule (fun c mem' => Moved mem ((r - 1) * 80 + c) mem') (by decide)
    · exact hmem
    · intro c mem' _ _ hmem'
      rw [show r * 80 + c = (r - 1) * 80 + c + 80 by omega]
      exact hmem'.step

theorem clearRow_apply (blank : BitVec 16) (mem : ℕ → BitVec 16) (i : ℕ) :
    clearRow blank mem i = if 1920 ≤ i ∧ i < 1920 + 80 then blank else mem i := by
  unfold clearRow
  apply forRange_rule (fun c (mem' : ℕ → BitVec 16) => mem' i =
    if 1920 ≤ i ∧ i < 1920 + c then blank else mem i) (by decide)
  · rw [if_neg (by omega)]
  · intro c mem' _ _ hmem
    rw [update_apply, hmem]
    split_ifs <;> first | rfl | omega

/-! ## Rows of text -/

/-- The rows that are finished and the one that is being written. -/
structure Rows where
  done : List (List Byte)
  last : List Byte

namespace Rows

def put (c : Byte) (rows : Rows) : Rows :=
  if c = 0x0A then ⟨rows.done ++ [rows.last], []⟩
  else if rows.last.length + 1 < 80 then ⟨rows.done, rows.last ++ [c]⟩
  else ⟨rows.done ++ [rows.last ++ [c]], []⟩

/-- The character of the text at a place of the paper. -/
def at? (rows : Rows) (line col : ℕ) : Option Byte :=
  (rows.done ++ [rows.last])[line]?.bind (·[col]?)

theorem at?_newRow (done : List (List Byte)) (row : List Byte) (line col : ℕ) :
    at? ⟨done ++ [row], []⟩ line col = at? ⟨done, row⟩ line col := by
  simp only [at?, List.getElem?_append]
  grind

theorem at?_char (done : List (List Byte)) (row : List Byte) (c : Byte) (line col : ℕ) :
    at? ⟨done, row ++ [c]⟩ line col =
      if line = done.length ∧ col = row.length then some c else at? ⟨done, row⟩ line col := by
  simp only [at?]
  grind

theorem at?_of_lt (rows : Rows) {line : ℕ} (h : rows.done.length < line) (col : ℕ) :
    rows.at? line col = none := by
  simp only [at?]
  grind

end Rows

/-- Text in rows of at most 80 characters; a row that becomes full is finished at once. -/
def layout (text : List Byte) : Rows := runCalls Rows.put text ⟨[], []⟩

/-- What a line of the paper held before: the screen as it was, and blank lines below it. -/
def ground (v : Vga) (line col : ℕ) : BitVec 16 :=
  if line < 25 then v.mem (line * 80 + col) else v.cell 0x20

/-- A place of the paper with the text on it. -/
def paper (v : Vga) (rows : Rows) (line col : ℕ) : BitVec 16 :=
  (rows.at? line col).elim (v.ground line col) v.cell

/-! ## The screen and the paper -/

/-- The screen `w` shows the end of the paper, from the line `top` on. -/
structure Shows (v : Vga) (rows : Rows) (top : ℕ) (w : Vga) : Prop where
  cells : ∀ r < 25, ∀ c < 80, w.mem (r * 80 + c) = v.paper rows (top + r) c
  outside : ∀ i, 2000 ≤ i → w.mem i = v.mem i
  row : top + w.row = rows.done.length
  attr : w.attr = v.attr
  row_lt : w.row < 25
  top_eq : top = rows.done.length - 24

variable {rows : Rows} {top : ℕ}

theorem Shows.nextRow (h : Shows v rows top w) :
    Shows v ⟨rows.done ++ [rows.last], []⟩ (rows.done.length + 1 - 24) w.nextRow := by
  have hrow := h.row
  have hlt := h.row_lt
  have htop := h.top_eq
  have hpaper : ∀ line c, v.paper ⟨rows.done ++ [rows.last], []⟩ line c = v.paper rows line c := by
    intro line c
    rw [paper, Rows.at?_newRow]
    rfl
  unfold Vga.nextRow vgaScroll
  rw [Nat.mod_eq_of_lt (by omega)]
  by_cases hfull : w.row + 1 < 25
  · rw [if_pos hfull]
    refine ⟨?_, h.outside, by simp; omega, h.attr, hfull, by simp⟩
    intro r hr c hc
    rw [hpaper, h.cells r hr c hc, show rows.done.length + 1 - 24 = top by omega]
  · rw [if_neg hfull]
    refine ⟨?_, ?_, by simp; omega, h.attr, by simp, by simp⟩
    · intro r hr c hc
      change clearRow _ _ _ = _
      rw [hpaper, clearRow_apply, moved_moveRows]
      by_cases hlast : r < 24
      · rw [if_neg (by omega), if_pos (by omega), show r * 80 + c + 80 = (r + 1) * 80 + c by omega,
          h.cells (r + 1) (by omega) c hc,
          show rows.done.length + 1 - 24 + r = top + (r + 1) by omega]
      · rw [if_pos (by omega), paper, Rows.at?_of_lt _ (by omega), Option.elim_none, ground,
          if_neg (by omega)]
        simp only [cell, h.attr]
    · intro i hi
      change clearRow _ _ i = _
      rw [clearRow_apply, moved_moveRows, if_neg (by omega), if_neg (by omega), h.outside i hi]

/-- A character at the cursor, with the column on the paper's. -/
theorem Shows.char (h : Shows v rows top w) (hcol : rows.last.length < 80) (c : Byte) (col : ℕ) :
    Shows v ⟨rows.done, rows.last ++ [c]⟩ top { w with
      mem := update w.mem (w.row * 80 + rows.last.length) (w.cell c), col := col } := by
  have hrow := h.row
  have hlt := h.row_lt
  refine ⟨?_, ?_, hrow, h.attr, hlt, h.top_eq⟩
  · intro r hr k hk
    change update _ _ _ _ = _
    rw [paper, Rows.at?_char, update_apply, h.cells r hr k hk]
    by_cases hhere : r = w.row ∧ k = rows.last.length
    · rw [if_pos (by rw [hhere.1, hhere.2]), if_pos (by omega)]
      simp only [cell, h.attr, Option.elim_some]
    · rw [if_neg (by omega), if_neg (by omega)]
      rfl
  · intro i hi
    exact (update_of_ne (by omega) _ _).trans (h.outside i hi)

/-- One character on the screen and on the paper. -/
theorem Shows.vgaPutc (h : Shows v rows top w) (hcol : w.col = rows.last.length)
    (hlt : rows.last.length < 80) (c : Byte) :
    (w.vgaPutc c).col = (rows.put c).last.length ∧ (rows.put c).last.length < 80 ∧
      Shows v (rows.put c) ((rows.put c).done.length - 24) (w.vgaPutc c) := by
  have hnext : ∀ u : Vga, u.nextRow.col = 0 := by
    intro u
    unfold Vga.nextRow vgaScroll
    split <;> rfl
  unfold Vga.vgaPutc Rows.put
  rw [hcol, Nat.mod_eq_of_lt (by omega)]
  by_cases hnl : c = 0x0A
  · rw [if_pos hnl, if_pos hnl]
    exact ⟨hnext w, by simp, by simpa using h.nextRow⟩
  · rw [if_neg hnl, if_neg hnl]
    have hchar := h.char hlt c (rows.last.length + 1)
    by_cases hfull : rows.last.length + 1 < 80
    · rw [if_pos hfull, if_neg (Nat.not_le.mpr hfull), ← h.top_eq]
      exact ⟨by simp, by simpa using hfull, hchar⟩
    · rw [if_neg hfull, if_pos (Nat.not_lt.mp hfull)]
      exact ⟨hnext _, by simp, by simpa using hchar.nextRow⟩

theorem Shows.run (h : Shows v rows top w) (hcol : w.col = rows.last.length)
    (hlt : rows.last.length < 80) (text : List Byte) :
    (runCalls Vga.vgaPutc text w).col = (runCalls Rows.put text rows).last.length ∧
      ∃ top, Shows v (runCalls Rows.put text rows) top (runCalls Vga.vgaPutc text w) := by
  induction text generalizing w rows top with
  | nil => exact ⟨hcol, top, h⟩
  | cons c text ih =>
    obtain ⟨hcol', hlt', h'⟩ := h.vgaPutc hcol hlt c
    exact ih h' hcol' hlt'

theorem shows_start (v : Vga) : Shows v ⟨[], []⟩ 0 { v with row := 0, col := 0 } := by
  refine ⟨?_, fun _ _ => rfl, rfl, rfl, by simp, rfl⟩
  intro r hr c hc
  have hnone : Rows.at? ⟨[], []⟩ r c = none := by
    cases r <;> rfl
  rw [Nat.zero_add, paper, hnone, Option.elim_none, ground, if_pos hr]

end Vga

namespace Console

theorem consoleWrite_eq (text : List Byte) (s : Console) :
    s.consoleWrite text = ⟨runCalls Vga.vgaPutc text s.vga, s.ports ++ text.map fun c => (0x3F8, c),
        s.klog.klogWrite (some text)⟩ := by
  induction text generalizing s with
  | nil => simp [consoleWrite, Klog.klogWrite]
  | cons c text ih =>
    refine (ih (s.consolePutc c)).trans ?_
    simp [consolePutc, outb, Klog.klogWrite]

/-- Whatever is printed, the screen shows the last 25 rows of the text over what was there, memory
behind the screen is untouched, and the serial line and the log get the same text. -/
theorem consoleWrite_shows (s : Console) (text : List Byte) :
    let t := s.consoleInit.consoleWrite text
    let rows := Vga.layout text
    let top := rows.done.length - 24
    (∀ r < 25, ∀ c < 80, t.vga.mem (r * 80 + c) =
        (rows.at? (top + r) c).elim (s.vga.ground (top + r) c) s.vga.cell) ∧
      (∀ i, 2000 ≤ i → t.vga.mem i = s.vga.mem i) ∧
      t.vga.row = rows.done.length - top ∧ t.vga.col = rows.last.length ∧
      t.ports = s.consoleInit.ports ++ text.map (fun c => (0x3F8, c)) ∧
      t.klog = s.klog.klogWrite (some text) := by
  intro t rows top
  have ht : t = _ := consoleWrite_eq text s.consoleInit
  obtain ⟨hcol, _, hshows⟩ := (Vga.shows_start s.vga).run rfl (by simp) text
  have htop := hshows.top_eq
  subst htop
  rw [ht]
  exact ⟨hshows.cells, hshows.outside, Nat.eq_sub_of_add_eq' hshows.row, hcol, rfl, rfl⟩

end Console

end NeverMind
