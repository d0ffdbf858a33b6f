import NeverMind.Verification.Fs.Refinement
import NeverMind.Verification.Fs.Steps
import NeverMind.Verification.Shell.Lines

/-! # The limits of the shell

Whether a line that returns 0 was run as it is written. A half is cut to 127 bytes and a word to
63, and a command with more than 16 words is skipped, in each case without an error. -/

namespace NeverMind.Shell

open Option List Vfs

/-! ## Lines as they are written -/

def builtinOf (name : List Byte) : Option Builtin :=
  if name = echoName then some .echo
  else if name = catName then some .cat
  else if name = lsName then some .ls
  else none

/-- The words of the commands of a line that are not blank. -/
def commands (line : List Byte) : List (List (List Byte)) :=
  (fields isBlank (leftOf line) ::
    if modeOf line = .pipe then [fields isBlank (rightOf line)] else []).filter (· ≠ [])

/-- A builtin ran on exactly the words of the command that names it. -/
def RanOn (words : List (List Byte)) (run : Builtin × List (List Byte)) : Prop :=
  words.head?.bind builtinOf = some run.1 ∧ run.2 = words

/-- The line is within the limits. -/
structure Within (line : List Byte) : Prop where
  left : (leftOf line).length ≤ 127
  right : (rightOf line).length ≤ 127
  leftWidth : ∀ word ∈ fields isBlank (leftOf line), word.length ≤ 63
  rightWidth : ∀ word ∈ fields isBlank (rightOf line), word.length ≤ 63
  leftCount : (fields isBlank (leftOf line)).length ≤ 16
  rightCount : (fields isBlank (rightOf line)).length ≤ if modeOf line = .redirect then 8 else 16

/-! ## Refusals -/

variable {T R : Type} (fs : Filesystem T R) (fuel : ℕ)

def OpenFails (path : Option (List Byte)) (flags : ℕ) (s : Vfs T R) : Prop :=
  ∃ fd s', s.fsOpen fs fuel path flags = some (fd, s') ∧ fd < 0

/-- The command has no builtin, or it is `cat` and the file cannot be opened. -/
def Refused (words : List (List Byte)) (s : Vfs T R) : Prop :=
  words ≠ [] ∧ words.length ≤ 16 ∧
    ((∀ name ∈ [echoName, catName, lsName], words.head? ≠ some name) ∨
      ∃ path rest, words = catName :: path :: rest ∧ OpenFails fs fuel (some path) nmORdonly s)

/-- There is not one target, or it cannot be opened. -/
def TargetRefused (words : List (List Byte)) (s : Vfs T R) : Prop :=
  words.length ≠ 1 ∨ OpenFails fs fuel words.head? (nmOCreat ||| nmORdwr) s

/-- A command of the line, or its target, is refused. -/
def LineRefused (line : List Byte) (s : Vfs T R) : Prop :=
  Refused fs fuel (leftWords line) s ∨ modeOf line = .pipe ∧ Refused fs fuel (rightWords line) s ∨
    modeOf line = .redirect ∧ TargetRefused fs fuel (rightWords line) s

variable {fs fuel} {s s' : Vfs T R} {cap : ℕ} {words : List (List Byte)} {input : List Byte}
  {e : Effect T R}

theorem Ran.ret_cases (h : Ran fs fuel cap words input s e) : e.ret = 0 ∨ e.ret = -1 := by
  cases h with
  | skipped | echo | catInput | catFile | ls => exact .inl rfl
  | catMissing | unknown => exact .inr rfl

/-- A command that names another builtin than `cat` is not refused. -/
theorem not_refused {name : List Byte} (hname : words.head? = some name)
    (hmem : name ∈ [echoName, catName, lsName]) (hcat : name ≠ catName) :
    ¬ Refused fs fuel words s := by
  rintro ⟨-, -, hnot | ⟨path, rest, rfl, -⟩⟩
  · exact hnot name hmem hname
  · exact hcat (by simpa using hname.symm)

theorem Ran.refused_iff (h : Ran fs fuel cap words input s e) :
    e.ret = -1 ↔ Refused fs fuel words s := by
  cases h with
  | skipped h =>
    refine iff_of_false (by simp) ?_
    rintro ⟨hne, few, -⟩
    exact not_or.mpr ⟨hne, by omega⟩ h
  | echo few name | ls few name hlist =>
    exact iff_of_false (by simp) (not_refused name (by decide) (by decide))
  | catInput name hread =>
    refine iff_of_false (by simp) ?_
    rintro ⟨-, -, hnot | ⟨path, rest, hwords, -⟩⟩
    · exact hnot catName (by decide) (by rw [name]; rfl)
    · rw [name] at hwords
      cases hwords
  | catMissing few name hopen hfd =>
    exact iff_of_true rfl ⟨by simp [name], few, .inr ⟨_, _, name, _, _, hopen, hfd⟩⟩
  | catFile few name hopen hfd htext =>
    refine iff_of_false (by simp) ?_
    rintro ⟨-, -, hnot | ⟨path, rest, hwords, fd, s', hopen', hfd'⟩⟩
    · exact hnot catName (by decide) (by rw [name]; rfl)
    · rw [name] at hwords
      cases hwords
      rw [hopen] at hopen'
      cases hopen'
      omega
  | unknown few hne hnot => exact iff_of_true rfl ⟨hne, few, .inl hnot⟩

theorem Ran.refused (h : Ran fs fuel cap words input s e) (hret : e.ret ≠ 0) :
    Refused fs fuel words s :=
  h.refused_iff.mp (h.ret_cases.resolve_left hret)

theorem Ran.accepted (h : Ran fs fuel cap words input s e) (hret : e.ret = 0) :
    ¬ Refused fs fuel words s := by
  rw [← h.refused_iff, hret]
  decide

theorem ranOn_of_head {name : List Byte} {b : Builtin} (hname : words.head? = some name)
    (hb : builtinOf name = some b) : Forall₂ RanOn ([words].filter (· ≠ [])) [(b, words)] := by
  have hne : words ≠ [] := by
    rintro rfl
    cases hname
  rw [filter_cons_of_pos (by simpa using hne)]
  exact .cons ⟨by rw [hname]; exact hb, rfl⟩ .nil

/-- What ran is what the words say. -/
theorem Ran.ranOn (h : Ran fs fuel cap words input s e) (hret : e.ret = 0)
    (few : words.length ≤ 16) : Forall₂ RanOn ([words].filter (· ≠ [])) e.ran := by
  cases h with
  | skipped h =>
    obtain rfl := h.resolve_right (by omega)
    exact .nil
  | echo few name => exact ranOn_of_head name rfl
  | catInput name hread => exact ranOn_of_head (by rw [name]; rfl) rfl
  | catFile few name hopen hfd htext => exact ranOn_of_head (by rw [name]; rfl) rfl
  | ls few name hlist => exact ranOn_of_head name rfl
  | catMissing | unknown => cases hret

/-! ## The state between two commands -/

/-- Opens go the same way in two states. -/
structure SameUse (s s' : Vfs T R) : Prop where
  nodes : s'.nodes = s.nodes
  rootFs : s'.rootFs = s.rootFs
  rootVnode : s'.rootVnode = s.rootVnode
  used : ∀ i, (s'.fdTable i).used = (s.fdTable i).used

theorem SameUse.refl (s : Vfs T R) : SameUse s s := ⟨rfl, rfl, rfl, fun _ => rfl⟩

theorem SameUse.openVnode (h : SameUse s s') (node : R) (flags : ℕ) :
    (s'.openVnode fs node flags).1 = (s.openVnode fs node flags).1 := by
  unfold Vfs.openVnode Vfs.allocFd
  simp only [h.nodes, h.used]
  split
  · rfl
  · cases (finRange 64).find? fun i => !(s.fdTable i).used with
    | none => rfl
    | some i =>
      dsimp only [setFile]
      rw [h.nodes]
      split <;> rfl

theorem SameUse.resolvePath (h : SameUse s s') (path : List Byte) (parentOnly : Bool) :
    s'.resolvePath fs fuel path parentOnly = s.resolvePath fs fuel path parentOnly := by
  unfold Vfs.resolvePath
  rw [h.rootVnode, h.rootFs, h.nodes]

theorem SameUse.fsOpen (h : SameUse s s') (path : Option (List Byte)) (flags : ℕ) :
    (s'.fsOpen fs fuel path flags).map Prod.fst = (s.fsOpen fs fuel path flags).map Prod.fst := by
  unfold Vfs.fsOpen
  cases path with
  | none => rfl
  | some path =>
    dsimp only
    rw [h.resolvePath, h.resolvePath, h.nodes]
    split
    · rfl
    · exact congrArg some (h.openVnode _ flags)
    · split
      · rfl
      · split
        · rfl
        · rfl
        · split
          · rfl
          · rfl
          · rename_i node nodes _
            have hmade : SameUse { s with nodes := nodes } { s' with nodes := nodes } :=
              ⟨rfl, h.rootFs, h.rootVnode, h.used⟩
            exact congrArg some (hmade.openVnode node flags)

theorem SameUse.trans {s₁ s₂ s₃ : Vfs T R} (h : SameUse s₁ s₂) (h' : SameUse s₂ s₃) :
    SameUse s₁ s₃ :=
  ⟨h'.nodes.trans h.nodes, h'.rootFs.trans h.rootFs, h'.rootVnode.trans h.rootVnode,
    fun i => (h'.used i).trans (h.used i)⟩

theorem sameUse_advance (i : FileRef) (n : ℤ) (s : Vfs T R) : SameUse s (s.advance i n) := by
  unfold advance
  split
  · refine ⟨rfl, rfl, rfl, fun j => ?_⟩
    by_cases hj : j = i
    · subst hj
      simp [setFile]
    · simp [setFile, hj]
  · exact .refl s

theorem sameUse_fsRead (fd : ℤ) (buf : Bool) (len : ℕ) (s : Vfs T R) :
    SameUse s (s.fsRead fs fd buf len).2 := by
  unfold fsRead
  split
  · exact sameUse_advance _ _ s
  · exact .refl s

theorem sameUse_fileText {fd : ℤ} {fuel : ℕ} {t : List Byte}
    (h : fileText fs fd fuel s = some (t, s')) : SameUse s s' := by
  induction fuel generalizing s t with
  | zero => cases h
  | succ fuel ih =>
    have hread : SameUse s (s.fsRead fs fd true 128).2 := sameUse_fsRead fd true 128 s
    rw [fileText] at h
    generalize s.fsRead fs fd true 128 = r at hread h
    obtain ⟨⟨n, bytes⟩, s₁⟩ := r
    dsimp only at hread h
    split at h
    · obtain ⟨⟨t', s₂⟩, hrest, hdone⟩ := map_eq_some_iff.mp h
      cases hdone
      exact hread.trans (ih hrest)
    · cases h
      exact hread

/-- A file that `cat` has closed again leaves no trace. -/
theorem Ran.sameUse (h : Ran fs fuel cap words input s e) (hret : e.ret = 0) : SameUse s e.vfs := by
  cases h with
  | skipped | echo | catInput | ls => exact .refl s
  | catMissing | unknown => cases hret
  | @catFile path rest fd s₁ s₂ t few name hopen hfd htext =>
    obtain ⟨i, node, nodes, hfree, rfl, hnodes, rfl⟩ := fsOpen_opened hopen hfd
    obtain rfl := hnodes rfl
    have hread := sameUse_fileText htext
    have hused : (s₂.fdTable i).used = true := (hread.used i).trans (by simp [setFile])
    have hclose : (s₂.fsClose i.val).2 = s₂.setFile i ⟨false, 0, 0, none⟩ := by
      rw [fsClose, getFile_natCast, if_pos hused]
    rw [hclose]
    refine ⟨hread.nodes, hread.rootFs, hread.rootVnode, fun j => ?_⟩
    by_cases hj : j = i
    · subst hj
      simpa [setFile] using hfree
    · simpa [setFile, hj] using hread.used j

/-! ## Success -/

theorem SameUse.openFails_iff (h : SameUse s s') (path : Option (List Byte)) (flags : ℕ) :
    OpenFails fs fuel path flags s' ↔ OpenFails fs fuel path flags s := by
  have hfst : ∀ s : Vfs T R, OpenFails fs fuel path flags s ↔
      ∃ fd, (s.fsOpen fs fuel path flags).map Prod.fst = some fd ∧ fd < 0 := by
    intro s
    simp [OpenFails]
  rw [hfst, hfst, h.fsOpen]

theorem SameUse.refused_iff (h : SameUse s s') (words : List (List Byte)) :
    Refused fs fuel words s' ↔ Refused fs fuel words s := by
  simp only [Refused, h.openFails_iff]

variable {alloc : NmAlloc} {tmp : List Byte} {line : List Byte} {o : Outcome T R}

theorem redirectOutcome_refused {target : List (List Byte)} {buffer : List Byte}
    (hret : e.ret = 0) (h : redirectOutcome fs fuel alloc target buffer e = some o) :
    (o.ret = -1 ↔ TargetRefused fs fuel target e.vfs) ∧ o.ran = e.ran := by
  unfold redirectOutcome at h
  split at h
  · rename_i hone
    cases h
    exact ⟨iff_of_true rfl (.inl hone), rfl⟩
  · rename_i hone
    obtain ⟨⟨fd, s₁⟩, hopen, h⟩ := bind_eq_some_iff.mp h
    dsimp only at h
    split at h
    · rename_i hfd
      cases h
      exact ⟨iff_of_true rfl (.inr ⟨fd, s₁, hopen, hfd⟩), rfl⟩
    · rename_i hfd
      obtain ⟨t, -, h⟩ := bind_eq_some_iff.mp h
      obtain ⟨w, -, rfl⟩ := map_eq_some_iff.mp h
      refine ⟨iff_of_false (by simp [hret]) ?_, rfl⟩
      rintro (hmany | ⟨fd', s', hopen', hfd'⟩)
      · exact hone hmany
      · rw [hopen] at hopen'
        cases hopen'
        exact hfd hfd'

/-- A line fails exactly if a part of it is refused. -/
theorem lineOutcome_refused (h : lineOutcome fs fuel alloc tmp cap line s = some o) :
    o.ret = -1 ↔ LineRefused fs fuel line s := by
  unfold lineOutcome at h
  unfold LineRefused
  cases hmode : modeOf line with
  | plain =>
    rw [hmode] at h
    obtain ⟨e, he, rfl⟩ := map_eq_some_iff.mp h
    simpa using (ran_of_effect fs fuel he).refused_iff
  | pipe =>
    rw [hmode] at h
    obtain ⟨e, he, h⟩ := bind_eq_some_iff.mp h
    have hran := ran_of_effect fs fuel he
    split at h
    · rename_i hret
      cases h
      exact iff_of_true rfl (.inl (hran.refused hret))
    · rename_i hret
      obtain ⟨e', he', rfl⟩ := map_eq_some_iff.mp h
      have hzero := not_not.mp hret
      have hfirst := hran.accepted hzero
      have hsecond := (ran_of_effect fs fuel he').refused_iff
      rw [(hran.sameUse hzero).refused_iff] at hsecond
      simpa [hfirst] using hsecond
  | redirect =>
    rw [hmode] at h
    obtain ⟨e, he, h⟩ := bind_eq_some_iff.mp h
    have hran := ran_of_effect fs fuel he
    split at h
    · rename_i hret
      cases h
      exact iff_of_true rfl (.inl (hran.refused hret))
    · rename_i hret
      have hzero := not_not.mp hret
      have hfirst := hran.accepted hzero
      have htarget := (redirectOutcome_refused hzero h).1
      rw [TargetRefused, (hran.sameUse hzero).openFails_iff] at htarget
      simpa [hfirst, TargetRefused] using htarget

/-- A line within the limits that succeeds has run as it is written. -/
theorem lineOutcome_ranOn (hwithin : Within line)
    (h : lineOutcome fs fuel alloc tmp cap line s = some o) (hret : o.ret = 0) :
    Forall₂ RanOn (commands line) o.ran := by
  have hleft : leftWords line = fields isBlank (leftOf line) :=
    cutWords_take hwithin.left hwithin.leftWidth
  have hright : rightWords line = fields isBlank (rightOf line) :=
    cutWords_take hwithin.right hwithin.rightWidth
  unfold lineOutcome at h
  rw [hleft, hright] at h
  unfold commands
  cases hmode : modeOf line with
  | plain =>
    rw [hmode] at h
    obtain ⟨e, he, rfl⟩ := map_eq_some_iff.mp h
    exact (ran_of_effect fs fuel he).ranOn hret hwithin.leftCount
  | pipe =>
    rw [hmode] at h
    obtain ⟨e, he, h⟩ := bind_eq_some_iff.mp h
    split at h
    · cases h
      cases hret
    · rename_i hzero
      obtain ⟨e', he', rfl⟩ := map_eq_some_iff.mp h
      have hcount := hwithin.rightCount
      rw [hmode] at hcount
      have hfirst := (ran_of_effect fs fuel he).ranOn (not_not.mp hzero) hwithin.leftCount
      have hsecond := (ran_of_effect fs fuel he').ranOn hret hcount
      rw [if_pos rfl, ← singleton_append, filter_append]
      exact rel_append hfirst hsecond
  | redirect =>
    rw [hmode] at h
    obtain ⟨e, he, h⟩ := bind_eq_some_iff.mp h
    split at h
    · cases h
      cases hret
    · rename_i hzero
      rw [(redirectOutcome_refused (not_not.mp hzero) h).2]
      exact (ran_of_effect fs fuel he).ranOn (not_not.mp hzero) hwithin.leftCount

/-- Success means that the line ran as it is written, and what is beyond the limits is rejected. -/
def Faithful (line : List Byte) (r : Done T R) : Prop :=
  (r.ret = 0 → Forall₂ RanOn (commands line) r.ran) ∧ (¬ Within line → r.ret = -1)

theorem success_faithful_iff (hfs : Lawful fs) (hline : 0 ∉ line) {stack : Stack}
    {out : List Byte} (hout : out ≠ []) {r : Done T R}
    (hr : shellExecuteLine fs fuel alloc stack (some line) (some out) s = some r) :
    Faithful line r ↔ Within line ∨ LineRefused fs fuel line s := by
  have hrun := lineOutcome_of_done hfs hline hout hr
  have hrefused := lineOutcome_refused hrun
  constructor
  · rintro ⟨-, hreject⟩
    by_cases hwithin : Within line
    · exact .inl hwithin
    · exact .inr (hrefused.mp (hreject hwithin))
  · rintro (hwithin | href)
    · exact ⟨lineOutcome_ranOn hwithin hrun, fun hnot => absurd hwithin hnot⟩
    · have hret : r.ret = -1 := hrefused.mpr href
      exact ⟨fun hzero => by omega, fun _ => hret⟩

def echoPipeCat : List Byte := echoName ++ [32, 97, 32, 124, 32] ++ catName

theorem success_faithful_echoPipeCat :
    ∃ (stack : Stack) (r : Done Tmpfs NodeRef),
      shellExecuteLine Tmpfs.filesystem 512 (fun _ => none) stack (some echoPipeCat)
        (some [0, 0, 0]) atBoot.mounted.2 = some r ∧ r.ret = 0 ∧ Faithful echoPipeCat r := by
  obtain ⟨stack, -⟩ := exists_stack [] (by decide)
  obtain ⟨r, hr, hout⟩ := exists_done tmpfs_lawful (show 0 ∉ echoPipeCat by decide) stack
    (show [(0 : Byte), 0, 0] ≠ [] by decide) rfl
  have hwithin : Within echoPipeCat := by
    constructor <;> decide
  exact ⟨stack, r, hr, congrArg Outcome.ret hout,
    (success_faithful_iff tmpfs_lawful (by decide) (by decide) hr).mpr (.inl hwithin)⟩

theorem lineOutcome_skipped (hmode : modeOf line = .plain) (hmany : 16 < (leftWords line).length) :
    lineOutcome fs fuel alloc tmp cap line s = some ⟨0, [], [], none, s⟩ := by
  rw [lineOutcome, hmode]
  dsimp only
  rw [effect, if_pos (.inr hmany)]
  rfl

def manyWords : List Byte := echoName ++ (replicate 16 [32, 97]).flatten

/-- A command with too many words is not run, and the line succeeds. -/
theorem many_words_not_faithful :
    ¬ ∀ (stack : Stack) (r : Done Tmpfs NodeRef),
      shellExecuteLine Tmpfs.filesystem 512 (fun _ => none) stack (some manyWords) (some [0, 0])
        atBoot.mounted.2 = some r → Faithful manyWords r := by
  intro h
  obtain ⟨stack, -⟩ := exists_stack [] (by decide)
  obtain ⟨r, hr, hrout⟩ := exists_done tmpfs_lawful (show 0 ∉ manyWords by decide) stack
    (show [(0 : Byte), 0] ≠ [] by decide)
    (lineOutcome_skipped (by decide +kernel) (by decide +kernel))
  have hwithin : ¬ Within manyWords := by
    intro hwithin
    have hfew := hwithin.leftCount
    revert hfew
    decide +kernel
  have hret := (h stack r hr).2 hwithin
  have hzero : r.ret = 0 := congrArg Outcome.ret hrout
  omega

end NeverMind.Shell
