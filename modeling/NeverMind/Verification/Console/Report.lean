import NeverMind.Model.Console
import Mathlib.Tactic.IntervalCases

/-! # The report of an exception

Every number of the report has sixteen digits, so that the text determines all of them. -/

namespace NeverMind.Console

open List

/-- The last `i` digits of a number. -/
def hexText (value : ℕ) : ℕ → List Byte
  | 0 => []
  | i + 1 => hex (value / 16 ^ i % 16) :: hexText value i

theorem hexDigits_eq (value i : ℕ) (s : Console) :
    hexDigits value i s = s.consoleWrite (hexText value i) := by
  induction i generalizing s with
  | zero => rfl
  | succ i ih => exact ih _

theorem hexText_inj {i value value' : ℕ} (h : hexText value i = hexText value' i) :
    value % 16 ^ i = value' % 16 ^ i := by
  induction i with
  | zero => simp [Nat.mod_one]
  | succ i ih =>
    rw [hexText, hexText, cons.injEq] at h
    have hdigit : value / 16 ^ i % 16 = value' / 16 ^ i % 16 := by
      have hinj : ∀ d < 16, ∀ e < 16, hex d = hex e → d = e := by decide
      exact hinj _ (Nat.mod_lt _ (by decide)) _ (Nat.mod_lt _ (by decide)) h.1
    rw [pow_succ, Nat.mod_mul, Nat.mod_mul, ih h.2, hdigit]

theorem length_hexText (value i : ℕ) : (hexText value i).length = i := by
  induction i with
  | zero => rfl
  | succ i ih => rw [hexText, length_cons, ih]

/-- What a report prints for a label and a number. -/
def field (label : String) (value : ℕ) : List Byte :=
  chars label ++ ([0x30, 0x78] ++ hexText value 16)

theorem writeField_eq (label : String) (value : ℕ) (s : Console) :
    s.writeField label value = s.consoleWrite (field label value) := by
  rw [writeField, consoleWriteHexU64, hexDigits_eq, field]
  simp only [consoleWrite, foldl_append]

/-- A text that starts with a field determines the number and the rest. -/
theorem field_append_inj {label : String} {value value' : ℕ} {rest rest' : List Byte}
    (hlt : value < 2 ^ 64) (hlt' : value' < 2 ^ 64)
    (h : field label value ++ rest = field label value' ++ rest') :
    value = value' ∧ rest = rest' := by
  obtain ⟨hfield, hrest⟩ := append_inj h (by simp [field, length_hexText])
  have hdigits := hexText_inj (append_cancel_left (append_cancel_left hfield))
  rw [Nat.mod_eq_of_lt (by simpa using hlt), Nat.mod_eq_of_lt (by simpa using hlt')] at hdigits
  exact ⟨hdigits, hrest⟩

/-- The text of a report. -/
def report (stack : ℕ → ℕ) (cr2 rsp : ℕ) : List Byte :=
  field "[EXC] vec=" (stack 0) ++ (field " err=" (stack 1) ++ (field " rip=" (stack 2) ++
    (field " cs=" (stack 3) ++ (field " rflags=" (stack 4) ++
      ((if stack 0 = 14 then field " cr2=" cr2 else []) ++ (field " rsp=" rsp ++ chars "\n"))))))

/-- `nm_exception_dispatch` prints a text from which the vector, the error code, the saved
registers, the fault address of a page fault and the stack can be read back. -/
theorem exception_report_read_back (stack stack' : ℕ → ℕ) (cr2 cr2' rsp rsp' : ℕ)
    (hstack : ∀ i, stack i < 2 ^ 64) (hstack' : ∀ i, stack' i < 2 ^ 64)
    (hregs : cr2 < 2 ^ 64 ∧ cr2' < 2 ^ 64 ∧ rsp < 2 ^ 64 ∧ rsp' < 2 ^ 64) :
    (∀ s : Console, s.nmExceptionDispatch stack cr2 rsp = s.consoleWrite (report stack cr2 rsp)) ∧
      (report stack cr2 rsp = report stack' cr2' rsp' →
        (∀ i < 5, stack i = stack' i) ∧ (stack 0 = 14 → cr2 = cr2') ∧ rsp = rsp') := by
  constructor
  · intro s
    rw [nmExceptionDispatch, report]
    by_cases hfault : stack 0 = 14 <;>
      simp only [hfault, if_true, if_false, writeField_eq, consoleWrite, foldl_append,
        foldl_nil]
  · intro h
    obtain ⟨h0, h⟩ := field_append_inj (hstack 0) (hstack' 0) h
    obtain ⟨h1, h⟩ := field_append_inj (hstack 1) (hstack' 1) h
    obtain ⟨h2, h⟩ := field_append_inj (hstack 2) (hstack' 2) h
    obtain ⟨h3, h⟩ := field_append_inj (hstack 3) (hstack' 3) h
    obtain ⟨h4, h⟩ := field_append_inj (hstack 4) (hstack' 4) h
    have hcells : ∀ i < 5, stack i = stack' i := by
      intro i hi
      interval_cases i <;> assumption
    rw [← h0] at h
    by_cases hfault : stack 0 = 14
    · rw [if_pos hfault, if_pos hfault] at h
      obtain ⟨hcr2, h⟩ := field_append_inj hregs.1 hregs.2.1 h
      exact ⟨hcells, fun _ => hcr2, (field_append_inj hregs.2.2.1 hregs.2.2.2 h).1⟩
    · rw [if_neg hfault, if_neg hfault] at h
      exact ⟨hcells, fun h14 => absurd h14 hfault, (field_append_inj hregs.2.2.1 hregs.2.2.2 h).1⟩

/-- A page fault at address 8. -/
theorem exception_report_read_back_pageFault :
    report (fun _ => 14) 8 0 ≠ report (fun _ => 14) 9 0 := by
  intro heq
  have h := (exception_report_read_back (fun _ => 14) (fun _ => 14) 8 9 0 0 (by simp) (by simp)
    (by simp)).2 heq
  exact absurd (h.2.1 rfl) (by decide)

end NeverMind.Console
