import NeverMind.Verification.Shell.Strings

/-! # Scripts

`shell_run_script` against the lines of the script. -/

namespace NeverMind.Shell

open List Option

variable {σ : Type} (execute : List Byte → σ → Option (ℤ × List Byte × σ))

def scriptLines (script : List Byte) : List (List Byte) := fields (· == 10) script

/-- Execute lines in order. What the lines that return 0 print is put together. -/
def runLines : List (List Byte) → σ → Option (List Byte × σ)
  | [], s => some ([], s)
  | line :: lines, s => do
      let (ret, one, s) ← execute line s
      let (rest, s) ← runLines lines s
      some ((if ret = 0 then one else []) ++ rest, s)

/-- Whatever `execute` does, `shell_run_script` calls it on the lines of the script. -/
def LineByLine (script : List Byte) : Prop :=
  ∀ (σ : Type) (execute : List Byte → σ → Option (ℤ × List Byte × σ)) (s : σ) (out : List Byte),
    (∀ line s r, execute line s = some r → 0 ∉ r.2.1) → out ≠ [] →
      (shellRunScript execute (some script) (some out) s).map
          (fun r => (r.1, cString r.2.1, r.2.2)) =
        (runLines execute (scriptLines script) s).map
          fun r => ((0 : ℤ), r.1.take (out.length - 1), r.2)

/-! ## What is executed -/

def lineOf (line : List Byte) : List (List Byte) := if line = [] then [] else [line]

/-- The lines that the loop executes, where the line buffer holds `line`. -/
def pieces : List Byte → List Byte → List (List Byte)
  | [], line => lineOf line
  | ch :: script, line =>
    if ch ≠ 10 ∧ line.length + 1 < 256 then pieces script (line ++ [ch])
    else lineOf line ++ pieces script []

theorem runLines_append (lines more : List (List Byte)) (s : σ) :
    runLines execute (lines ++ more) s = (runLines execute lines s).bind fun p =>
        (runLines execute more p.2).map fun q => (p.1 ++ q.1, q.2) := by
  induction lines generalizing s with
  | nil => exact (Option.map_id' ..).symm
  | cons line lines ih =>
    simp only [cons_append, runLines, Option.bind_eq_bind, Option.bind_assoc, Option.bind_some]
    refine congrArg (Option.bind _) (funext fun r => ?_)
    rw [ih, Option.bind_assoc]
    refine congrArg (Option.bind _) (funext fun p => ?_)
    simp only [map_eq_bind, Option.bind_assoc, Option.bind_some, Function.comp_def,
      append_assoc]

variable {execute} {cap used : ℕ} {t out : List Byte}

/-- What the loop has printed, beside what it should have printed. -/
def Printed (cap : ℕ) (t : List Byte) (p : List Byte × σ) (q : ℕ × List Byte × σ) : Prop :=
  q.2.2 = p.2 ∧ Filled cap (t ++ p.1) q.1 q.2.1 ∧ Shows ((t ++ p.1).take (cap - 1)) q.2.1

theorem endLine_printed (hstring : ∀ line s r, execute line s = some r → 0 ∉ r.2.1) (hcap : 0 < cap)
    (h : Filled cap t used out) (hshows : Shows (t.take (cap - 1)) out) (line : List Byte) (s : σ) :
    Rel (Printed cap t) (runLines execute (lineOf line) s)
      (endLine execute line used out s) := by
  have hsame : Printed cap t ([], s) (used, out, s) :=
    ⟨rfl, by simpa using h, by simpa using hshows⟩
  unfold endLine lineOf
  split
  · exact .some hsame
  · simp only [runLines, Option.bind_eq_bind, Option.bind_some, append_nil]
    cases hrun : execute line s with
    | none => exact .none
    | some r =>
      obtain ⟨ret, one, s'⟩ := r
      by_cases hprint : ret = 0 ∧ one ≠ []
      · obtain ⟨used', out', happend, hfilled, hdone⟩ := h.outAppend hcap (hstring line s _ hrun) []
        simp only [Option.bind_some, if_pos hprint, if_pos hprint.1, happend]
        exact .some ⟨rfl, hfilled, hdone⟩
      · have hnone : (if ret = 0 then one else []) = [] := by
          split
          · rename_i hret
            exact not_not.mp fun hne => hprint ⟨hret, hne⟩
          · rfl
        simp only [Option.bind_some, if_neg hprint, hnone]
        exact .some ⟨rfl, by simpa using h, by simpa using hshows⟩

/-- The loop executes the pieces of the script. -/
theorem scriptLoop_printed (hstring : ∀ line s r, execute line s = some r → 0 ∉ r.2.1)
    (hcap : 0 < cap) (h : Filled cap t used out) (hshows : Shows (t.take (cap - 1)) out)
    (script line : List Byte) (s : σ) :
    Rel (fun p q => q.2 = p.2 ∧ Shows ((t ++ p.1).take (cap - 1)) q.1)
      (runLines execute (pieces script line) s) (scriptLoop execute script line used out s) := by
  induction script generalizing line t used out s with
  | nil =>
    rw [pieces, scriptLoop]
    exact rel_map_right (endLine_printed hstring hcap h hshows line s)
      fun p q hpq => ⟨hpq.1, hpq.2.2⟩
  | cons ch script ih =>
    rw [pieces, scriptLoop]
    split
    · exact ih h hshows (line ++ [ch]) s
    · rw [runLines_append]
      refine rel_bind (endLine_printed hstring hcap h hshows line s) fun p q hpq => ?_
      obtain ⟨used₁, out₁, s₁⟩ := q
      obtain ⟨rfl, hfilled, hdone⟩ := hpq
      refine rel_map_left (ih hfilled hdone [] _) fun p' q' hpq => ⟨hpq.1, ?_⟩
      rw [← append_assoc]
      exact hpq.2

theorem shellRunScript_pieces (hstring : ∀ line s r, execute line s = some r → 0 ∉ r.2.1)
    (hout : out ≠ []) (script : List Byte) (s : σ) :
    (runLines execute (pieces script []) s).map
        (fun r => ((0 : ℤ), cString (r.1.take (out.length - 1)), r.2)) =
      (shellRunScript execute (some script) (some out) s).map
        fun r => (r.1, cString r.2.1, r.2.2) := by
  obtain ⟨b, out, rfl⟩ := exists_cons_of_ne_nil hout
  have hrun := scriptLoop_printed hstring (Nat.succ_pos _) (filled_nil (0 :: out))
    ⟨out, by simp⟩ script [] s
  simp only [shellRunScript, Option.map_map]
  refine map_eq_of_rel hrun fun p q hpq => ?_
  obtain ⟨hstate, hshows⟩ := hpq
  simp only [Function.comp_apply, hstate, hshows.cString_eq, nil_append, length_cons]

/-! ## When the pieces are the lines -/

theorem length_pieces (script : List Byte) {line : List Byte} (hline : line.length ≤ 255) :
    ∀ piece ∈ pieces script line, piece.length ≤ 255 := by
  have hlineOf : ∀ {line : List Byte}, line.length ≤ 255 →
      ∀ piece ∈ lineOf line, piece.length ≤ 255 := by
    intro line hline piece hpiece
    rw [lineOf] at hpiece
    split at hpiece
    · exact absurd hpiece not_mem_nil
    · rwa [mem_singleton.mp hpiece]
  induction script generalizing line with
  | nil => exact hlineOf hline
  | cons ch script ih =>
    intro piece hpiece
    rw [pieces] at hpiece
    split at hpiece
    · rename_i hroom
      exact ih (by simp; omega) piece hpiece
    · rcases mem_append.mp hpiece with hpiece | hpiece
      · exact hlineOf hline piece hpiece
      · exact ih (by simp) piece hpiece

theorem beq_newline {line : List Byte} (hline : 10 ∉ line) : ∀ b ∈ line, (b == 10) = false := by
  intro b hb
  exact beq_false_of_ne fun hten => hline (hten ▸ hb)

theorem lineOf_eq_scriptLines {line : List Byte} (hline : 10 ∉ line) :
    lineOf line = scriptLines line := by
  unfold lineOf scriptLines
  split
  · rename_i hnil
    rw [hnil, fields_nil]
  · rename_i hne
    rw [fields_of_none hne (beq_newline hline)]

/-- Lines that fit the buffer are executed whole. -/
theorem pieces_eq_scriptLines (script line : List Byte) (hline : 10 ∉ line)
    (hfit : ∀ l ∈ scriptLines (line ++ script), l.length ≤ 255) :
    pieces script line = scriptLines (line ++ script) := by
  induction script generalizing line with
  | nil => rw [pieces, lineOf_eq_scriptLines hline, append_nil]
  | cons ch script ih =>
    rw [pieces]
    by_cases hch : ch = 10
    · have hsplit : scriptLines (line ++ ch :: script) = scriptLines line ++ scriptLines script :=
        fields_append line (by simp [hch]) script
      rw [hsplit] at hfit
      rw [if_neg fun h => h.1 hch, hsplit, lineOf_eq_scriptLines hline,
        ih [] not_mem_nil fun l hl => hfit l (mem_append_right _ hl)]
      rfl
    · have hnext : 10 ∉ line ++ [ch] := by
        simpa using ⟨hline, Ne.symm hch⟩
      have happend : line ++ ch :: script = line ++ [ch] ++ script := by simp
      rw [happend] at hfit ⊢
      have hroom : (line ++ [ch]).length ≤ 255 := by
        obtain ⟨more, hmem⟩ := fields_front (concat_ne_nil ch line) (beq_newline hnext) script
        have hlen := hfit _ hmem
        rw [length_append] at hlen
        omega
      rw [if_pos ⟨hch, by simp at hroom; omega⟩, ih _ hnext hfit]

/-! ## Line by line -/

def logLine (line : List Byte) (log : List (List Byte)) :
    Option (ℤ × List Byte × List (List Byte)) :=
  some (0, [], log ++ [line])

theorem runLines_logLine (lines log : List (List Byte)) :
    runLines logLine lines log = some ([], log ++ lines) := by
  induction lines generalizing log with
  | nil => simp [runLines]
  | cons line lines ih => simp [runLines, logLine, ih]

theorem LineByLine.pieces_eq {script : List Byte} (h : LineByLine script) :
    pieces script [] = scriptLines script := by
  have hstring : ∀ line s r, logLine line s = some r → 0 ∉ r.2.1 := by
    intro line s r hr
    cases hr
    exact not_mem_nil
  have hrun := h _ logLine [] [0] hstring (cons_ne_nil _ _)
  rw [← shellRunScript_pieces hstring (cons_ne_nil _ _), runLines_logLine, runLines_logLine] at hrun
  simpa using congrArg (Option.map fun r => r.2.2) hrun

theorem zero_notMem_runLines (hstring : ∀ line s r, execute line s = some r → 0 ∉ r.2.1)
    {lines : List (List Byte)} {s : σ} {r : List Byte × σ} (h : runLines execute lines s = some r) :
    0 ∉ r.1 := by
  induction lines generalizing s r with
  | nil =>
    cases h
    exact not_mem_nil
  | cons line lines ih =>
    simp only [runLines, Option.bind_eq_bind, bind_eq_some_iff] at h
    obtain ⟨one, hone, rest, hrest, hr⟩ := h
    cases hr
    rw [mem_append, not_or]
    refine ⟨?_, ih hrest⟩
    split
    · exact hstring line s one hone
    · exact not_mem_nil

theorem lineByLine_of_short {script : List Byte}
    (hfit : ∀ line ∈ scriptLines script, line.length ≤ 255) : LineByLine script := by
  intro σ execute s out hstring hout
  rw [← shellRunScript_pieces hstring hout,
    pieces_eq_scriptLines script [] not_mem_nil hfit, nil_append]
  refine map_congr fun r hr => ?_
  have hzero : 0 ∉ r.1.take (out.length - 1) := fun hmem =>
    zero_notMem_runLines hstring hr (mem_of_mem_take hmem)
  rw [cString_eq_self hzero]

/-- Scripts run line by line exactly if every line fits the line buffer. -/
theorem run_script_line_by_line_iff (script : List Byte) :
    LineByLine script ↔ ∀ line ∈ scriptLines script, line.length ≤ 255 := by
  constructor
  · intro h
    rw [← h.pieces_eq]
    exact length_pieces script (Nat.zero_le _)
  · exact lineByLine_of_short

/-- So does the shell itself, whatever its buffers hold when a line begins. -/
theorem shellRunScript_executeLine {T R : Type} (fs : Filesystem T R) (fuel : ℕ) (alloc : NmAlloc)
    (locals : ℕ → Stack × List Byte) {script : List Byte}
    (hfit : ∀ line ∈ scriptLines script, line.length ≤ 255) (s : ℕ × Vfs T R) {out : List Byte}
    (hout : out ≠ []) :
    (shellRunScript (executeLine fs fuel alloc locals) (some script) (some out) s).map
        (fun r => (r.1, cString r.2.1, r.2.2)) =
      (runLines (executeLine fs fuel alloc locals) (scriptLines script) s).map
        fun r => (0, r.1.take (out.length - 1), r.2) := by
  refine lineByLine_of_short hfit _ _ s out (fun line s r hr => ?_) hout
  obtain ⟨d, -, rfl⟩ := Option.map_eq_some_iff.mp hr
  exact zero_notMem_cString d.out

/-- A line of 256 bytes is not executed as it is. -/
theorem long_line_cut : ¬ LineByLine (replicate 256 97) := by
  intro h
  have hlines : scriptLines (replicate 256 97) = [replicate 256 97] := by
    refine fields_of_none (ne_nil_of_length_pos ?_) fun b hb => ?_
    · rw [length_replicate]
      decide
    · rw [eq_of_mem_replicate hb]
      rfl
  have hpieces := length_pieces (replicate 256 97)
    (show ([] : List Byte).length ≤ 255 from Nat.zero_le _)
  rw [h.pieces_eq, hlines] at hpieces
  have hshort := hpieces _ (mem_singleton_self _)
  rw [length_replicate] at hshort
  omega

end NeverMind.Shell
