import NeverMind.Verification.Shell.Commands

/-! # Lines

`shell_execute_line` against a function of the line, of the size of the output buffer and of the
file system. Of the uninitialised buffers that function reads only `tmp`, and only where a
command that leaves it as it is comes before the operator. -/

namespace NeverMind.Shell

open List Option

/-! ## The halves of a line -/

def isOperator (b : Byte) : Bool := b == 124 || b == 62

def leftOf (line : List Byte) : List Byte := line.takeWhile fun b => !isOperator b

def rightOf (line : List Byte) : List Byte := (line.dropWhile fun b => !isOperator b).tail

def operatorMode (b : Byte) : Mode := if b = 124 then .pipe else .redirect

def modeOf (line : List Byte) : Mode :=
  match line.dropWhile fun b => !isOperator b with
  | [] => .plain
  | b :: _ => operatorMode b

/-- The loop over the line: its mode, and the texts in the two buffers. -/
structure Halves.Hold (h : Halves) (mode : Mode) (l r : List Byte) : Prop where
  mode_eq : h.mode = mode
  left : Filled 128 l h.li h.left
  right : Filled 128 r h.ri h.right

variable {h : Halves} {mode : Mode} {l r : List Byte}

theorem operatorMode_ne (b : Byte) : operatorMode b ≠ .plain := by
  unfold operatorMode
  split <;> decide

theorem Halves.Hold.step_operator (hold : h.Hold .plain l r) {b : Byte}
    (hb : isOperator b = true) : ∃ h', h.step b = some h' ∧ h'.Hold (operatorMode b) l r := by
  refine ⟨{ h with mode := operatorMode b }, ?_, rfl, hold.left, hold.right⟩
  unfold Halves.step operatorMode
  simp only [hold.mode_eq, and_true]
  split
  · rfl
  · rename_i hne
    have hor : b = 124 ∨ b = 62 := by simpa [isOperator] using hb
    rw [if_pos (hor.resolve_left hne)]

theorem Halves.Hold.step_left (hold : h.Hold .plain l r) {b : Byte} (hb : isOperator b = false) :
    ∃ h', h.step b = some h' ∧ h'.Hold .plain (l ++ [b]) r := by
  obtain ⟨hbar, hgt⟩ : b ≠ 124 ∧ b ≠ 62 := by simpa [isOperator] using hb
  unfold Halves.step
  rw [if_neg fun hand => hbar hand.1, if_neg fun hand => hgt hand.1]
  by_cases hroom : h.li + 1 < 128
  · obtain ⟨left, hstore, hfilled⟩ := hold.left.push hroom b
    rw [if_pos ⟨hold.mode_eq, hroom⟩, hstore]
    exact ⟨_, rfl, hold.mode_eq, hfilled, hold.right⟩
  · rw [if_neg fun hand => hroom hand.2, if_neg fun hand => hand.1 hold.mode_eq]
    exact ⟨_, rfl, hold.mode_eq, hold.left.full hroom [b], hold.right⟩

theorem Halves.Hold.step_right (hold : h.Hold mode l r) (hmode : mode ≠ .plain) (b : Byte) :
    ∃ h', h.step b = some h' ∧ h'.Hold mode l (r ++ [b]) := by
  have hne : h.mode ≠ .plain := fun heq => hmode (hold.mode_eq.symm.trans heq)
  unfold Halves.step
  rw [if_neg fun hand => hne hand.2, if_neg fun hand => hne hand.2, if_neg fun hand => hne hand.1]
  by_cases hroom : h.ri + 1 < 128
  · obtain ⟨right, hstore, hfilled⟩ := hold.right.push hroom b
    rw [if_pos ⟨hne, hroom⟩, hstore]
    exact ⟨_, rfl, hold.mode_eq, hold.left, hfilled⟩
  · rw [if_neg fun hand => hroom hand.2]
    exact ⟨_, rfl, hold.mode_eq, hold.left, hold.right.full hroom [b]⟩

theorem Halves.Hold.after (hold : h.Hold mode l r) (hmode : mode ≠ .plain) (line : List Byte) :
    ∃ h', line.foldlM Halves.step h = some h' ∧ h'.Hold mode l (r ++ line) := by
  induction line generalizing h r with
  | nil => exact ⟨h, rfl, by simpa using hold⟩
  | cons b line ih =>
    obtain ⟨h₁, hstep, hnext⟩ := hold.step_right hmode b
    obtain ⟨h', hrun, hdone⟩ := ih hnext
    refine ⟨h', ?_, by simpa using hdone⟩
    rw [foldlM_cons, hstep]
    exact hrun

theorem Halves.Hold.line (hold : h.Hold .plain l r) (line : List Byte) :
    ∃ h', line.foldlM Halves.step h = some h' ∧
      h'.Hold (modeOf line) (l ++ leftOf line) (r ++ rightOf line) := by
  induction line generalizing h l with
  | nil => exact ⟨h, rfl, by simpa [leftOf, rightOf, modeOf] using hold⟩
  | cons b line ih =>
    cases hb : isOperator b with
    | true =>
      obtain ⟨h₁, hstep, hnext⟩ := hold.step_operator hb
      obtain ⟨h', hrun, hdone⟩ := hnext.after (operatorMode_ne b) line
      refine ⟨h', ?_, by simpa [leftOf, rightOf, modeOf, hb] using hdone⟩
      rw [foldlM_cons, hstep]
      exact hrun
    | false =>
      obtain ⟨h₁, hstep, hnext⟩ := hold.step_left hb
      obtain ⟨h', hrun, hdone⟩ := ih hnext
      refine ⟨h', ?_, by simpa [leftOf, rightOf, modeOf, hb] using hdone⟩
      rw [foldlM_cons, hstep]
      exact hrun

/-! ## What a line does -/

/-- The words of the first command, as the shell sees them. -/
def leftWords (line : List Byte) : List (List Byte) := cutWords ((leftOf line).take 127)

/-- The words behind the operator, as the shell sees them. -/
def rightWords (line : List Byte) : List (List Byte) := cutWords ((rightOf line).take 127)

variable {T R : Type} (fs : Filesystem T R) (fuel : ℕ) (alloc : NmAlloc)

/-- What a caller sees of a line: the result, the builtins that ran, the string in the output
buffer, the bytes given to `fs_write` and the file system. -/
structure Outcome (T R : Type) where
  ret : ℤ
  ran : List (Builtin × List (List Byte))
  shown : List Byte
  written : Option (List Byte)
  vfs : Vfs T R

def Done.outcome (r : Done T R) : Outcome T R := ⟨r.ret, r.ran, cString r.out, r.written, r.vfs⟩

def Effect.buffer (e : Effect T R) (tmp : List Byte) : List Byte :=
  match e.text with
  | some t => t ++ [0]
  | none => tmp

def redirectOutcome (target : List (List Byte)) (buffer : List Byte) (e : Effect T R) :
    Option (Outcome T R) :=
  if target.length ≠ 1 then some ⟨-1, e.ran, [], none, e.vfs⟩
  else
    (e.vfs.fsOpen fs fuel target.head? (nmOCreat ||| nmORdwr)).bind fun r =>
      if r.1 < 0 then some ⟨-1, e.ran, [], none, r.2⟩
      else
        (readString buffer 512).bind fun t =>
          (r.2.fsWrite fs fuel alloc r.1 (some fun i => t.getD i 0) t.length).map fun w =>
            ⟨e.ret, e.ran, [], some t, (w.2.fsClose r.1).2⟩

def lineOutcome (tmp : List Byte) (cap : ℕ) (line : List Byte) (s : Vfs T R) :
    Option (Outcome T R) :=
  match modeOf line with
  | .plain =>
    (effect fs fuel cap (leftWords line) [0] s).map fun e =>
      ⟨e.ret, e.ran, cString (e.text.getD []), none, e.vfs⟩
  | .pipe =>
    (effect fs fuel 512 (leftWords line) [0] s).bind fun e =>
      if e.ret ≠ 0 then some ⟨-1, e.ran, [], none, e.vfs⟩
      else
        (effect fs fuel cap (rightWords line) (e.buffer tmp) e.vfs).map fun e' =>
          ⟨e'.ret, e.ran ++ e'.ran, cString (e'.text.getD []), none, e'.vfs⟩
  | .redirect =>
    (effect fs fuel 512 (leftWords line) [0] s).bind fun e =>
      if e.ret ≠ 0 then some ⟨-1, e.ran, [], none, e.vfs⟩
      else redirectOutcome fs fuel alloc (rightWords line) (e.buffer tmp) e

variable {fs fuel alloc}

theorem Does.readString {out : List Byte} {e : Effect T R} {r : Done T R} (hdoes : Does out e r)
    (n : ℕ) : readString r.out n = readString (e.buffer out) n := by
  have htext := hdoes.text
  unfold Effect.buffer
  cases he : e.text with
  | none =>
    rw [he] at htext
    rw [htext]
  | some t =>
    rw [he] at htext
    rw [htext.readString]
    exact (Shows.readString (prefix_refl _) n).symm

theorem Does.shown {out : List Byte} {e : Effect T R} {r : Done T R} (hdoes : Does (0 :: out) e r) :
    cString r.out = cString (e.text.getD []) := by
  have htext := hdoes.text
  cases he : e.text with
  | none =>
    rw [he] at htext
    rw [htext]
    rfl
  | some t =>
    rw [he] at htext
    exact htext.cString_eq

/-- The outcome of a line that ends after its first command with a failure. -/
theorem Does.aborted {tmp out : List Byte} {e : Effect T R} {r : Done T R} (hdoes : Does tmp e r) :
    Done.outcome ⟨-1, r.ran, r.written, 0 :: out, r.vfs⟩ = ⟨-1, e.ran, [], none, e.vfs⟩ := by
  rw [hdoes.ran, hdoes.written, hdoes.vfs]
  rfl

theorem readString_front {buf t : List Byte} {n : ℕ} (h : readString buf n = some t) :
    t <+: buf := by
  induction buf generalizing n t with
  | nil => cases h
  | cons b buf ih =>
    rw [readString] at h
    split at h
    · obtain ⟨t, ht, rfl⟩ := map_eq_some_iff.mp h
      exact (prefix_cons_inj b).mpr (ih ht)
    · cases h
      exact nil_prefix

theorem Shows.exists_tail {t buf : List Byte} (hshows : Shows t buf) :
    ∃ rest, buf = t ++ 0 :: rest := by
  obtain ⟨rest, rfl⟩ := hshows
  exact ⟨rest, by simp⟩

theorem fsWrite_front (hfs : Lawful fs) {src src' : ℕ → Byte} {len : ℕ}
    (h : ∀ i < len, src i = src' i) (fd : ℤ) (s : Vfs T R) :
    s.fsWrite fs fuel alloc fd (some src) len = s.fsWrite fs fuel alloc fd (some src') len := by
  unfold Vfs.fsWrite
  cases s.getVnode fs fd with
  | none => rfl
  | some p => simp only [hfs.front fuel alloc p.2 src src' _ len s.nodes h]

/-- The target of a redirection is opened and takes the string in the buffer. -/
theorem redirect_outcome (hfs : Lawful fs) {right : List Byte} (hright : 0 ∉ right)
    (rest : List Byte) (stack : Stack) {out : List Byte} {e : Effect T R} {r : Done T R}
    (hdoes : Does stack.tmp e r) :
    Rel (fun o r' => r'.outcome = o)
      (redirectOutcome fs fuel alloc (cutWords right) (e.buffer stack.tmp) e)
      (redirect fs fuel alloc (right ++ 0 :: rest) r.out stack.toks
        ⟨e.ret, r.ran, r.written, 0 :: out, r.vfs⟩) := by
  obtain ⟨table, hsplit, hshows⟩ := splitTokens_spec hright rest stack.toks_width
  have hlen : (fields isBlank right).length = (cutWords right).length := by simp [cutWords]
  rw [stack.toks_rows, hlen] at hsplit hshows
  unfold redirectOutcome redirect
  simp only [hsplit, bind_eq_bind, bind_some]
  by_cases hone : (cutWords right).length = 1
  · obtain ⟨path, hpath⟩ := length_eq_one_iff.mp hone
    have hzero : 0 ∉ path := notMem_of_mem_cutWords hright (by rw [hpath]; exact mem_cons_self)
    have htarget := hshows (by omega)
    rw [hpath] at htarget ⊢
    have hname : cString (table.headD []) = path := by
      have hmap := map_cString_of_shows htarget (by simpa using hzero)
      cases table with
      | nil => simp at hmap
      | cons row table => simpa using hmap
    have hlen := strLen_eq_readString r.out
    rw [hdoes.size, stack.tmp_size, hdoes.readString] at hlen
    simp only [length_singleton, ne_eq, not_true, if_false, head?_cons, hname, hdoes.vfs, hlen]
    rw [if_neg (show ¬ ¬ (if 1 ≤ 8 then ((1 : ℕ) : ℤ) else -1) = 1 by decide), hdoes.ran,
      hdoes.written]
    cases e.vfs.fsOpen fs fuel (some path) (nmOCreat ||| nmORdwr) with
    | none => exact .none
    | some q =>
      simp only [bind_some]
      split
      · exact .some rfl
      · have hread := hdoes.readString 512
        cases hbuffer : readString (e.buffer stack.tmp) 512 with
        | none => exact .none
        | some t =>
          obtain ⟨more, hmore⟩ := readString_front (hread.trans hbuffer)
          have hsame : ∀ i < t.length, r.out.getD i 0 = t.getD i 0 := by
            intro i hi
            rw [getD_eq_getElem?_getD, getD_eq_getElem?_getD, ← hmore, getElem?_append_left hi]
          simp only [map_some, bind_some, fsWrite_front hfs hsame]
          cases q.2.fsWrite fs fuel alloc q.1 (some fun i => t.getD i 0) t.length with
          | none => exact .none
          | some w =>
            refine .some ?_
            rw [← hmore, take_left' rfl]
            rfl
  · have hcount :
        (if (cutWords right).length ≤ 8 then ((cutWords right).length : ℤ) else -1) ≠ 1 := by
      split
      · exact fun h => hone (by exact_mod_cast h)
      · decide
    rw [if_pos hone, if_pos hcount]
    exact .some hdoes.aborted

/-- A caller sees what the line says, whatever the uninitialised buffers hold but `tmp`. -/
theorem shellExecuteLine_outcome (hfs : Lawful fs) {line : List Byte} (hline : 0 ∉ line)
    (stack : Stack) {out : List Byte} (hout : out ≠ []) (s : Vfs T R) :
    (shellExecuteLine fs fuel alloc stack (some line) (some out) s).map Done.outcome =
      lineOutcome fs fuel alloc stack.tmp out.length line s := by
  obtain ⟨b, out, rfl⟩ := exists_cons_of_ne_nil hout
  have hstart : Halves.Hold ⟨.plain, 0, 0, stack.left, stack.right⟩ .plain [] [] :=
    ⟨rfl, stack.left_size ▸ filled_nil _, stack.right_size ▸ filled_nil _⟩
  obtain ⟨h, hloop, hmode, hleft, hright⟩ := hstart.line line
  obtain ⟨left, hstoreL, -, hshowsL⟩ := hleft.terminate (by decide)
  obtain ⟨right, hstoreR, -, hshowsR⟩ := hright.terminate (by decide)
  obtain ⟨restL, rfl⟩ := hshowsL.exists_tail
  obtain ⟨restR, rfl⟩ := hshowsR.exists_tail
  have hzeroL : 0 ∉ (leftOf line).take 127 := fun hmem =>
    hline ((takeWhile_sublist _).subset (mem_of_mem_take hmem))
  have hzeroR : 0 ∉ (rightOf line).take 127 := fun hmem =>
    hline ((dropWhile_sublist _).subset (mem_of_mem_tail (mem_of_mem_take hmem)))
  have hfirst : Rel (Does stack.tmp) (effect fs fuel stack.tmp.length (leftWords line) [0] s)
      (runSimple fs fuel ((leftOf line).take 127 ++ 0 :: restL) stack.first stack.tmp none s) :=
    runSimple_does hfs hzeroL restL stack.first (by rw [stack.tmp_size]; decide) none
      (fun _ => rfl) s
  rw [stack.tmp_size] at hfirst
  have hpos : 0 < (0 :: out).length := Nat.succ_pos _
  have hrel : Rel (fun o r => r.outcome = o)
      (lineOutcome fs fuel alloc stack.tmp (b :: out).length line s)
      (shellExecuteLine fs fuel alloc stack (some line) (some (b :: out)) s) := by
    simp only [shellExecuteLine, hloop, hstoreL, hstoreR, bind_eq_bind, bind_some,
      hmode, lineOutcome]
    cases modeOf line with
    | plain =>
      refine rel_map_left (runSimple_does hfs hzeroL restL stack.first hpos none (fun _ => rfl) s)
        fun e r hdoes => ?_
      simp only [Done.outcome, hdoes.ret, hdoes.ran, hdoes.shown, hdoes.written, hdoes.vfs]
    | pipe =>
      refine rel_bind hfirst fun e r hdoes => ?_
      rw [hdoes.ret]
      split
      · exact .some hdoes.aborted
      · rw [hdoes.vfs, map_eq_bind]
        refine rel_bind (runSimple_does hfs hzeroR restR stack.second hpos (some r.out)
          hdoes.readString e.vfs) fun e' r' hdoes' => .some ?_
        simp only [Done.outcome, hdoes.ran, hdoes'.ret, hdoes'.ran, hdoes'.shown, hdoes'.written,
          hdoes'.vfs]
    | redirect =>
      refine rel_bind hfirst fun e r hdoes => ?_
      rw [hdoes.ret]
      split
      · exact .some hdoes.aborted
      · exact redirect_outcome hfs hzeroR restR stack hdoes
  generalize lineOutcome fs fuel alloc stack.tmp (b :: out).length line s = x at hrel ⊢
  generalize shellExecuteLine fs fuel alloc stack (some line) (some (b :: out)) s = y at hrel ⊢
  cases hrel with
  | none => rfl
  | some heq => exact congrArg some heq

theorem lineOutcome_of_done (hfs : Lawful fs) {line : List Byte} (hline : 0 ∉ line) {stack : Stack}
    {out : List Byte} (hout : out ≠ []) {s : Vfs T R} {r : Done T R}
    (hr : shellExecuteLine fs fuel alloc stack (some line) (some out) s = some r) :
    lineOutcome fs fuel alloc stack.tmp out.length line s = some r.outcome := by
  rw [← shellExecuteLine_outcome hfs hline stack hout s, hr]
  rfl

theorem exists_done (hfs : Lawful fs) {line : List Byte} (hline : 0 ∉ line) (stack : Stack)
    {out : List Byte} (hout : out ≠ []) {s : Vfs T R} {o : Outcome T R}
    (h : lineOutcome fs fuel alloc stack.tmp out.length line s = some o) :
    ∃ r, shellExecuteLine fs fuel alloc stack (some line) (some out) s = some r ∧
      r.outcome = o := by
  rw [← shellExecuteLine_outcome hfs hline stack hout s] at h
  exact map_eq_some_iff.mp h

/-- There are stacks whose `tmp` holds a byte or none. -/
theorem exists_stack (t : List Byte) (h : t.length ≤ 1) :
    ∃ (stack : Stack) (rest : List Byte), stack.tmp = t ++ 0 :: rest := by
  have hrow : ∀ row ∈ replicate 16 (replicate 64 (0 : Byte)), row.length = 64 := by
    intro row hmem
    rw [eq_of_mem_replicate hmem, length_replicate]
  have frame : Frame := ⟨replicate 16 (replicate 64 0), replicate 128 0,
    length_replicate, hrow, length_replicate⟩
  have hsize : (t ++ 0 :: replicate (511 - t.length) (0 : Byte)).length = 512 := by
    rw [length_append, length_cons, length_replicate]
    omega
  exact ⟨⟨replicate 128 0, replicate 128 0, _, frame.argv.take 8, frame, frame,
    length_replicate, length_replicate, hsize, by rw [length_take, frame.rows]; rfl,
    fun row hmem => frame.width row (mem_of_mem_take hmem)⟩, _, rfl⟩

end NeverMind.Shell
