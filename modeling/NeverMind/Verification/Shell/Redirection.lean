import NeverMind.Verification.Fs.Refinement
import NeverMind.Verification.Fs.Steps
import NeverMind.Verification.Shell.Lines

/-! # Redirection

`echo` into a file and `cat` of it, over the memory file system. The file is opened without
truncation and written from its start, and the result of the write is discarded. -/

namespace NeverMind.Shell

open Tmpfs FileStore List Vfs Option

/-! ## The two lines -/

/-- A word that the shell takes as it is: 1 to 63 bytes without blanks and operators. -/
structure IsWord (w : List Byte) : Prop where
  ne_nil : w ≠ []
  short : w.length ≤ 63
  zero : 0 ∉ w
  blank : ∀ b ∈ w, isBlank b = false
  operator : ∀ b ∈ w, isOperator b = false

/-- A command: its name and its words, a blank before each. -/
def commandText (name : List Byte) (words : List (List Byte)) : List Byte :=
  name ++ words.flatMap (32 :: ·)

def echoLine (words : List (List Byte)) (path : List Byte) : List Byte :=
  commandText echoName words ++ 32 :: 62 :: 32 :: path

def catLine (path : List Byte) : List Byte := commandText catName [path]

variable {name path : List Byte} {words : List (List Byte)}

theorem isWord_echoName : IsWord echoName := ⟨by decide, by decide, by decide, by decide, by decide⟩

theorem isWord_catName : IsWord catName := ⟨by decide, by decide, by decide, by decide, by decide⟩

/-- What a blank and the bytes of the words have, the bytes of the command have. -/
theorem forall_mem_commandText {p : Byte → Prop} (hblank : p 32) (hname : ∀ b ∈ name, p b)
    (hwords : ∀ w ∈ words, ∀ b ∈ w, p b) : ∀ b ∈ commandText name words, p b := by
  intro b hb
  rcases mem_append.mp hb with hb | hb
  · exact hname b hb
  · obtain ⟨w, hw, hb⟩ := mem_flatMap.mp hb
    rcases mem_cons.mp hb with rfl | hb
    · exact hblank
    · exact hwords w hw b hb

theorem fields_commandText (hname : IsWord name) (hwords : ∀ w ∈ words, IsWord w) :
    fields isBlank (commandText name words) = name :: words := by
  have hall : fields isBlank ((name :: words).flatMap (32 :: ·)) = name :: words := by
    refine fields_flatMap rfl fun w hw => ?_
    rcases mem_cons.mp hw with rfl | hw
    · exact ⟨hname.ne_nil, hname.blank⟩
    · exact ⟨(hwords w hw).ne_nil, (hwords w hw).blank⟩
  rwa [flatMap_cons, cons_append, fields_sep rfl] at hall

theorem echoLine_eq (words : List (List Byte)) (path : List Byte) :
    echoLine words path = (commandText echoName words ++ [32]) ++ 62 :: 32 :: path := by
  simp [echoLine]

section

variable (hwords : ∀ w ∈ words, IsWord w)

include hwords

theorem zero_notMem_echoLine (hpath : IsWord path) : 0 ∉ echoLine words path := by
  intro hmem
  rcases mem_append.mp hmem with hmem | hmem
  · exact forall_mem_commandText (p := (· ≠ 0)) (by decide)
      (fun b hb => ne_of_mem_of_not_mem hb isWord_echoName.zero)
      (fun w hw b hb => ne_of_mem_of_not_mem hb (hwords w hw).zero) 0 hmem rfl
  · simp only [mem_cons] at hmem
    rcases hmem with h | h | h | h
    · exact absurd h (by decide)
    · exact absurd h (by decide)
    · exact absurd h (by decide)
    · exact hpath.zero h

theorem echoLine_halves (path : List Byte) :
    leftOf (echoLine words path) = commandText echoName words ++ [32] ∧
      rightOf (echoLine words path) = 32 :: path ∧ modeOf (echoLine words path) = .redirect := by
  have hplain : ∀ b ∈ commandText echoName words ++ [32], (!isOperator b) = true := by
    intro b hb
    rw [Bool.not_eq_true']
    rcases mem_append.mp hb with hb | hb
    · exact forall_mem_commandText (p := (isOperator · = false)) rfl isWord_echoName.operator
        (fun w hw => (hwords w hw).operator) b hb
    · rw [mem_singleton.mp hb]
      rfl
  have hstop : isOperator 62 = true := rfl
  rw [echoLine_eq]
  refine ⟨?_, ?_, ?_⟩
  · simp only [leftOf, takeWhile_append_of_pos hplain, takeWhile_cons, hstop,
      Bool.not_true, Bool.false_eq_true, if_false, append_nil]
  · simp only [rightOf, dropWhile_append_of_pos hplain, dropWhile_cons, hstop,
      Bool.not_true, Bool.false_eq_true, if_false, tail_cons]
  · simp only [modeOf, dropWhile_append_of_pos hplain, dropWhile_cons, hstop,
      Bool.not_true, Bool.false_eq_true, if_false]
    rfl

theorem leftWords_echoLine (hlen : (commandText echoName words).length < 127) :
    leftWords (echoLine words path) = echoName :: words := by
  have hfields : fields isBlank (commandText echoName words ++ [32]) = echoName :: words := by
    rw [fields_append _ rfl, fields_nil, append_nil, fields_commandText isWord_echoName hwords]
  rw [leftWords, (echoLine_halves hwords path).1, cutWords_take, hfields]
  · rw [length_append]
    exact hlen
  · intro w hw
    rw [hfields] at hw
    rcases mem_cons.mp hw with rfl | hw
    · exact isWord_echoName.short
    · exact (hwords w hw).short

theorem rightWords_echoLine (hpath : IsWord path) : rightWords (echoLine words path) = [path] := by
  have hfields : fields isBlank (32 :: path) = [path] := by
    rw [fields_sep rfl, fields_of_none hpath.ne_nil hpath.blank]
  have hshort := hpath.short
  rw [rightWords, (echoLine_halves hwords path).2.1, cutWords_take, hfields]
  · rw [length_cons]
    omega
  · rw [hfields]
    exact fun w hw => mem_singleton.mp hw ▸ hshort

end

section

variable (hpath : IsWord path)

include hpath

theorem zero_notMem_catLine : 0 ∉ catLine path := by
  intro hmem
  exact forall_mem_commandText (p := (· ≠ 0)) (by decide)
    (fun b hb => ne_of_mem_of_not_mem hb isWord_catName.zero)
    (fun w hw b hb => ne_of_mem_of_not_mem hb (mem_singleton.mp hw ▸ hpath.zero)) 0 hmem rfl

theorem catLine_words :
    modeOf (catLine path) = .plain ∧ leftWords (catLine path) = [catName, path] := by
  have hplain : ∀ b ∈ catLine path, (!isOperator b) = true := by
    intro b hb
    rw [Bool.not_eq_true']
    exact forall_mem_commandText (p := (isOperator · = false)) rfl isWord_catName.operator
      (fun w hw => mem_singleton.mp hw ▸ hpath.operator) b hb
  have hfields : fields isBlank (catLine path) = [catName, path] :=
    fields_commandText isWord_catName fun w hw => mem_singleton.mp hw ▸ hpath
  refine ⟨?_, ?_⟩
  · rw [modeOf, dropWhile_eq_nil_iff.mpr hplain]
  · rw [leftWords, leftOf, takeWhile_eq_self_iff.mpr hplain, cutWords_take, hfields]
    · have hshort := hpath.short
      simp only [catLine, commandText, length_append, flatMap_cons, flatMap_nil,
        length_cons, append_nil, catName]
      simp
      omega
    · rw [hfields]
      intro w hw
      rcases mem_cons.mp hw with rfl | hw
      · exact isWord_catName.short
      · exact mem_singleton.mp hw ▸ hpath.short

theorem shortParts_of_isWord : ShortParts path := by
  intro c hc
  have hsub : c.Sublist path := (mem_fields hc).2.1
  exact hsub.length_le.trans hpath.short

end

/-! ## The text -/

theorem length_intercalate_le (words : List (List Byte)) :
    ([32].intercalate words).length ≤ (words.flatMap (32 :: ·)).length := by
  induction words with
  | nil => exact le_rfl
  | cons w words ih =>
    cases words with
    | nil => simp
    | cons v words =>
      rw [intercalate_cons_cons, flatMap_cons]
      simp only [length_append, length_cons, length_nil] at ih ⊢
      omega

theorem length_echoText_le (words : List (List Byte)) :
    (echoText words).length ≤ (commandText echoName words).length := by
  have hle := length_intercalate_le words
  simp only [echoText, commandText, length_append, echoName, length_cons, length_nil]
  omega

theorem zero_notMem_intercalate (hwords : ∀ w ∈ words, 0 ∉ w) : 0 ∉ [32].intercalate words := by
  induction words with
  | nil => exact not_mem_nil
  | cons w words ih =>
    have hfirst := hwords w mem_cons_self
    have hrest := ih fun v hv => hwords v (mem_cons_of_mem w hv)
    cases words with
    | nil => simpa using hfirst
    | cons v words =>
      rw [intercalate_cons_cons]
      simp only [mem_append, not_or]
      exact ⟨⟨hfirst, by decide⟩, hrest⟩

theorem zero_notMem_echoText (hwords : ∀ w ∈ words, 0 ∉ w) : 0 ∉ echoText words := by
  simp only [echoText, mem_append, not_or]
  exact ⟨zero_notMem_intercalate hwords, by decide⟩

/-- A string is what it was written as, if nothing or a zero follows. -/
theorem cString_append_eq_iff {t : List Byte} (ht : 0 ∉ t) (rest : List Byte) :
    cString (t ++ rest) = t ↔ rest.getD 0 0 = 0 := by
  have hpos : ∀ b ∈ t, (b != 0) = true := by
    intro b hb
    simpa using ne_of_mem_of_not_mem hb ht
  rw [cString, takeWhile_append_of_pos hpos]
  cases rest with
  | nil => simp
  | cons b rest =>
    by_cases hb : b = 0
    · simp [hb]
    · simp

/-! ## The file -/

variable {a : FileStore} {s : Vfs Tmpfs NodeRef} {fuel : ℕ} {t : Target} {i : FileRef}

theorem handle_self (i : FileRef) (d : Handle) (a : FileStore) :
    (a.setHandle i (some d)).handle i.val = some (i, d) := by
  have hrange : 0 ≤ (i.val : ℤ) ∧ (i.val : ℤ) < 64 := by omega
  rw [handle, dif_pos hrange]
  simp [setHandle]

theorem exists_freeHandle (hfree : a.handles i = none) : ∃ j, a.freeHandle = some j := by
  have hsome : a.freeHandle.isSome := by
    rw [freeHandle, find?_isSome]
    exact ⟨i, mem_finRange i, by simp [hfree]⟩
  exact isSome_iff_exists.mp hsome

theorem find_congr {a b : FileStore} (h : a.files.map Prod.fst = b.files.map Prod.fst)
    (path : List Byte) : a.find path = b.find path := by
  have hindex : ∀ name, a.indexOf name = b.indexOf name := by
    intro name
    have hmap : ∀ c : FileStore, c.indexOf name = (c.files.map Prod.fst).findIdx? (· == name) := by
      intro c
      rw [findIdx?_map]
      rfl
    rw [hmap, hmap, h]
  unfold find
  simp only [hindex]

/-- A file is read to its end in blocks. -/
theorem fileText_file (h : Refines a s) {fd : ℤ} {k offset : ℕ}
    (hsome : a.handle fd = some (i, ⟨.file k, offset⟩))
    (hfuel : ((a.contents (.file k)).drop offset).length < fuel) :
    ∃ s', fileText filesystem fd fuel s = some ((a.contents (.file k)).drop offset, s') := by
  induction fuel generalizing a s offset with
  | zero => omega
  | succ fuel ih =>
    obtain ⟨hread, hnext⟩ := h.fsRead fd true 128
    simp only [FileStore.read, hsome] at hread hnext
    rw [fileText]
    generalize s.fsRead filesystem fd true 128 = r at hread hnext ⊢
    obtain ⟨⟨n, bytes⟩, s₁⟩ := r
    obtain ⟨rfl, rfl⟩ := Prod.mk.inj hread
    have hblock := take_prefix 128 ((a.contents (.file k)).drop offset)
    have hjoin := prefix_iff_eq_append.mp hblock
    rw [drop_drop] at hjoin
    dsimp only
    split
    · rename_i hpos
      rw [Int.natCast_pos] at hpos
      have hless : ((a.contents (.file k)).drop
          (offset + (((a.contents (.file k)).drop offset).take 128).length)).length < fuel := by
        have hsum := congrArg length hjoin
        rw [length_append] at hsum
        omega
      obtain ⟨s', hrest⟩ := ih hnext (handle_setHandle hsome) hless
      refine ⟨s', ?_⟩
      rw [hrest, map_some, Int.toNat_natCast, take_length]
      exact congrArg (fun l => some (l, s')) hjoin
    · rename_i hend
      have hnil : (a.contents (.file k)).drop offset = [] := by
        rw [Int.natCast_pos, length_pos_iff, not_not, take_eq_nil_iff] at hend
        exact hend.resolve_left (by decide)
      exact ⟨s₁, by rw [hnil]⟩

/-- `cat` of what the path names. -/
theorem effect_cat_of_find (h : Refines a s) (hfuel : 512 ≤ fuel) (hpath : IsWord path)
    (hfind : a.find path = some t) (hfree : a.freeHandle = some i)
    (hlen : (a.contents t).length < fuel) (cap : ℕ) (input : List Byte) :
    ∃ e, effect filesystem fuel cap [catName, path] input s = some e ∧ e.ret = 0 ∧
      e.text = some ((a.contents t).take (cap - 1)) := by
  have hshort : ∀ p ∈ some path, ShortParts p := by
    rintro p ⟨⟩
    exact shortParts_of_isWord hpath
  obtain ⟨s₁, hopen, hopened⟩ := h.fsOpen hfuel hshort nmORdonly
  have hgrant : a.openFile (some path) (nmORdonly &&& nmOCreat ≠ 0) =
      ((i.val : ℤ), a.setHandle i (some ⟨t, 0⟩)) := by
    simp only [openFile, hfind, grant, hfree]
  rw [hgrant] at hopen hopened
  have hhandle := handle_self i ⟨t, 0⟩ a
  have htext : ∃ s₂, fileText filesystem i.val fuel s₁ = some (a.contents t, s₂) := by
    cases t with
    | file k => exact fileText_file hopened hhandle hlen
    | root =>
      obtain ⟨n, rfl⟩ := Nat.exists_eq_succ_of_ne_zero (show fuel ≠ 0 by omega)
      refine ⟨s₁, ?_⟩
      rw [fileText, hopened.fsRead_other (fun j k offset hfile => ?_)]
      · rfl
      · rw [hhandle] at hfile
        cases hfile
  obtain ⟨s₂, htext⟩ := htext
  have hcat : effect filesystem fuel cap [catName, path] input s =
      (s.fsOpen filesystem fuel (some path) nmORdonly).bind fun r =>
        if r.1 < 0 then some ⟨-1, [(.cat, [catName, path])], none, r.2⟩
        else
          (fileText filesystem r.1 fuel r.2).map fun q =>
            ⟨0, [(.cat, [catName, path])], some (q.1.take (cap - 1)), (q.2.fsClose r.1).2⟩ := rfl
  rw [hcat, hopen, bind_some, if_neg (Int.not_lt.mpr (Int.natCast_nonneg _)), htext]
  exact ⟨_, rfl, rfl, rfl⟩

/-- The contents of what the path names; a file that is not there yet has none. -/
def oldText (a : FileStore) (path : List Byte) : List Byte :=
  match a.find path with
  | some t => a.contents t
  | none => []

/-- The size of the buffer of the file that the path names. -/
def oldCapacity (a : FileStore) (path : List Byte) (s : Vfs Tmpfs NodeRef) : ℕ :=
  match a.find path with
  | some (.file k) => (s.nodes.nodes (nodeAt k)).capacity
  | _ => 0

/-- The file system after the target of a redirection is opened: a store with the target in it,
and the descriptor `i` at its start. -/
structure TargetOpened (a : FileStore) (path : List Byte) (s : Vfs Tmpfs NodeRef) (b : FileStore)
    (t : Target) (i : FileRef) (s₁ : Vfs Tmpfs NodeRef) : Prop where
  refines : Refines (b.setHandle i (some ⟨t, 0⟩)) s₁
  find : b.find path = some t
  contents : b.contents t = oldText a path
  root : t = .root ↔ a.find path = some .root
  capacity : ∀ k, t = .file k →
    (s₁.nodes.nodes (nodeAt k)).capacity = oldCapacity a path s

theorem find_created (hfind : a.find path = none) (hname : newName path = some name) :
    ({ a with files := a.files ++ [(name, [])] } : FileStore).find path =
      some (.file a.files.length) := by
  have hnew := indexOf_of_newName hfind hname
  have hindex : ({ a with files := a.files ++ [(name, [])] } : FileStore).indexOf name =
      some a.files.length := by
    rw [indexOf] at hnew ⊢
    simp [findIdx?_append, hnew]
  unfold newName at hname
  split at hname
  · cases hname
  · rename_i habs
    split at hname
    · rename_i hparts
      cases hname
      rw [find, if_neg habs, hparts]
      simp [hindex]
    · cases hname

theorem openVnode_opened {b : FileStore} (h : Refines b s) (ht : t.Within b.files.length)
    (flags : ℕ) :
    (s.openVnode filesystem (nodeOf t) flags).1 < 0 ∨
      ∃ i : FileRef, (s.openVnode filesystem (nodeOf t) flags).1 = i.val ∧
        Refines (b.setHandle i (some ⟨t, 0⟩))
          (s.openVnode filesystem (nodeOf t) flags).2 ∧
        (s.openVnode filesystem (nodeOf t) flags).2.nodes = s.nodes := by
  obtain ⟨hret, hnext⟩ := h.openVnode t ht flags
  have hnodes := nodes_openVnode filesystem (nodeOf t) flags s
  rw [grant] at hret hnext
  cases hfree : b.freeHandle with
  | none =>
    rw [hfree] at hret
    exact .inl (hret ▸ nmErr_nmEfail_neg)
  | some i =>
    rw [hfree] at hret hnext
    exact .inr ⟨i, hret, hnext, hnodes⟩

theorem fsOpen_target (h : Refines a s) (hfuel : 512 ≤ fuel) (hpath : IsWord path) :
    ∃ r, s.fsOpen filesystem fuel (some path) (nmOCreat ||| nmORdwr) = some r ∧
      r.1 = (a.openFile (some path) true).1 ∧
      (r.1 < 0 ∨ ∃ b t i, r.1 = i.val ∧ TargetOpened a path s b t i r.2) := by
  have hshort := shortParts_of_isWord hpath
  obtain ⟨s', hopen, -⟩ := h.fsOpen hfuel (show ∀ p ∈ some path, ShortParts p by
    rintro p ⟨⟩
    exact hshort) (nmOCreat ||| nmORdwr)
  refine ⟨_, hopen, rfl, ?_⟩
  rw [h.fsOpen_eq hfuel hshort] at hopen
  rw [← some.inj hopen]
  cases hfind : a.find path with
  | some t =>
    rcases openVnode_opened h (find_within hfind) (nmOCreat ||| nmORdwr) with
      hfail | ⟨i, hret, hnext, hnodes⟩
    · exact .inl hfail
    · refine .inr ⟨a, t, i, hret, hnext, hfind, by rw [oldText, hfind], by rw [hfind]; simp, ?_⟩
      rintro k rfl
      rw [oldCapacity, hfind, hnodes]
  | none =>
    have hcreate : decide ((nmOCreat ||| nmORdwr) &&& nmOCreat ≠ 0) = true := rfl
    dsimp only
    rw [hcreate]
    cases hname : newName path with
    | none => exact .inl nmErr_nmEfail_neg
    | some name =>
      dsimp only
      by_cases hroom : a.files.length < maxFiles
      · rw [if_pos hroom]
        have hmade := h.setNodes
          (h.files.created hroom (indexOf_of_newName hfind hname)) (by simp)
        rcases openVnode_opened hmade (t := .file a.files.length) (by simp [Target.Within])
          (nmOCreat ||| nmORdwr) with hfail | ⟨i, hret, hnext, hnodes⟩
        · exact .inl hfail
        · refine .inr ⟨_, _, i, hret, hnext, find_created hfind hname, ?_, ?_, ?_⟩
          · simp [contents, oldText, hfind]
          · simp [hfind]
          · rintro k ⟨⟩
            have hne := nodeAt_ne_zero (show a.files.length < 511 from hroom)
            have hnew : oldCapacity a path s = 0 := by rw [oldCapacity, hfind]
            erw [hnodes]
            simp [hnew, created, hne]
      · rw [if_neg hroom]
        exact .inl nmErr_nmEfail_neg

theorem frontOf_getD (l : List Byte) : frontOf l.length (fun i => l.getD i 0) = l := by
  refine ext_getElem (length_frontOf _ _) fun i hi hi' => ?_
  simp [frontOf, hi']

/-- What is in the file after the text is written at its start. -/
def newText (granted : Bool) (text : List Byte) (t : Target) (old : List Byte) : List Byte :=
  match t with
  | .root => []
  | .file _ => if granted then text ++ old.drop text.length else old

/-- The store after the descriptor `i` is closed: the files are those of `c`. -/
theorem closed_store {c : FileStore} (d : Handle) (hfind : c.find path = some t) :
    (((c.setHandle i (some d)).close i.val).2).find path = some t ∧
      (∃ j, (((c.setHandle i (some d)).close i.val).2).freeHandle = some j) ∧
      (((c.setHandle i (some d)).close i.val).2).contents t = c.contents t := by
  have hclose : ((c.setHandle i (some d)).close i.val).2 =
      (c.setHandle i (some d)).setHandle i none := by
    rw [close, handle_self]
  rw [hclose]
  refine ⟨hfind, exists_freeHandle (i := i) ?_, rfl⟩
  simp [setHandle]

theorem written_store {b : FileStore} (granted : Bool) (hfind : b.find path = some t)
    (text : List Byte) :
    ∃ (c : FileStore) (d : Handle), ((b.setHandle i (some ⟨t, 0⟩)).write granted i.val
        (some fun j => text.getD j 0) text.length).2 = c.setHandle i (some d) ∧
      c.find path = some t ∧ c.contents t = newText granted text t (b.contents t) := by
  have hhandle := handle_self i ⟨t, 0⟩ b
  cases t with
  | root => exact ⟨b, ⟨.root, 0⟩, by simp only [write, hhandle], hfind, rfl⟩
  | file k =>
    cases granted with
    | false =>
      refine ⟨b, ⟨.file k, 0⟩, ?_, hfind, rfl⟩
      simp only [write, hhandle, Bool.false_eq_true, if_false]
    | true =>
      have hk : k < b.files.length := find_within hfind
      obtain ⟨f, hf⟩ : ∃ f, f = (b.files[k].1, text ++ b.files[k].2.drop text.length) := ⟨_, rfl⟩
      refine ⟨{ b with files := b.files.set k f }, ⟨.file k, 0 + text.length⟩, ?_, ?_, ?_⟩
      · have hold : (b.setHandle i (some ⟨.file k, 0⟩)).files.getD k ([], []) = b.files[k] := by
          simp [setHandle, hk]
        simp only [write, hhandle, if_true, frontOf_getD, hold]
        simp [overwrite, setHandle, hf]
      · rw [← hfind]
        exact find_congr (names_set hk (by rw [hf])) path
      · simp [contents, newText, hk, hf]

theorem TargetOpened.written {b : FileStore} {s₁ : Vfs Tmpfs NodeRef}
    (h : TargetOpened a path s b t i s₁) (hfuel : 64 ≤ fuel) (alloc : NmAlloc) {text : List Byte}
    (htext : text.length < 2 ^ 63) :
    ∃ w, s₁.fsWrite filesystem fuel alloc i.val (some fun j => text.getD j 0) text.length = some w ∧
      ∃ c j, Refines c (w.2.fsClose i.val).2 ∧ c.find path = some t ∧ c.freeHandle = some j ∧
        c.contents t = newText
          (s₁.grants (.write alloc i.val (some fun j => text.getD j 0) text.length)) text t
          (oldText a path) := by
  have hhandle := handle_self i ⟨t, 0⟩ b
  have hallowed : Allowed
      (.write alloc i.val (some fun j => text.getD j 0) text.length)
      (b.setHandle i (some ⟨t, 0⟩)) := by
    intro j k offset hsome
    rw [hhandle] at hsome
    cases hsome
    exact ⟨Nat.zero_le _, by omega⟩
  obtain ⟨s₂, hwrite, hwritten, -⟩ := h.refines.fsWrite hfuel alloc i.val _ _ hallowed
  generalize s₁.grants (.write alloc i.val (some fun j => text.getD j 0) text.length) = granted
    at hwrite hwritten ⊢
  obtain ⟨-, hclosed⟩ := hwritten.fsClose i.val
  obtain ⟨c, d, hstore, hfind, hcontents⟩ := written_store (i := i) granted h.find text
  rw [hstore] at hclosed
  obtain ⟨hfind, ⟨j, hfree⟩, hsame⟩ := closed_store (i := i) d hfind
  exact ⟨_, hwrite, _, j, hclosed, hfind, hfree, by rw [hsame, hcontents, h.contents]⟩

/-- The redirection replaces what the path names: it is not the directory, the buffer of the file
is large enough or a larger one is granted, and no byte of the old contents follows the text. -/
structure Replaces (alloc : NmAlloc) (text path : List Byte) (a : FileStore)
    (s : Vfs Tmpfs NodeRef) : Prop where
  file : a.find path ≠ some .root
  space : text.length ≤ oldCapacity a path s ∨ (alloc (if text.length ≤ 64 then 64 else 128)).isSome
  rest : (oldText a path).getD text.length 0 = 0

section

variable {b : FileStore} {s₁ : Vfs Tmpfs NodeRef} {k : ℕ} (alloc : NmAlloc) {text : List Byte}

theorem TargetOpened.file_node (h : TargetOpened a path s b (.file k) i s₁) :
    Buffered (s₁.nodes.nodes (nodeAt k)) ∧ (oldText a path).length ≤ oldCapacity a path s := by
  have hk : k < b.files.length := find_within h.find
  have hnode := h.refines.files.file k hk
  have hfits := hnode.buffered.fits
  rw [h.capacity k rfl, ← hnode.length] at hfits
  rw [← h.contents, contents_file hk]
  exact ⟨hnode.buffered, hfits⟩

theorem TargetOpened.grants_iff (h : TargetOpened a path s b (.file k) i s₁)
    (buf : Option (ℕ → Byte)) {n : ℕ} (hn : n ≤ 128) :
    s₁.grants (.write alloc i.val buf n) = true ↔
      n ≤ oldCapacity a path s ∨ (alloc (if n ≤ 64 then 64 else 128)).isSome := by
  have hhandle := handle_self i ⟨.file k, 0⟩ b
  have hopened := h.refines.opened (i := i) (d := ⟨.file k, 0⟩) (by simp [setHandle])
  have hgrants : s₁.grants (.write alloc i.val buf n) =
      granted alloc n (s₁.nodes.nodes (nodeAt k)) := by
    simp [grants, h.refines.getVnode, hhandle, hopened.offset, nodeOf]
  rw [hgrants, granted]
  by_cases hfits : n ≤ (s₁.nodes.nodes (nodeAt k)).capacity
  · rw [newCapacity, if_pos hfits, ← h.capacity k rfl]
    simp [hfits]
  · obtain ⟨e, -, hleast, hnew⟩ := newCapacity_spec h.file_node.1 (by omega) hfits
    have hcap : 64 * 2 ^ e = if n ≤ 64 then 64 else 128 := by
      have hzero := hleast 0
      have hone := hleast 1
      split
      · obtain rfl : e = 0 := by omega
        rfl
      · obtain rfl : e = 1 := by omega
        rfl
    rw [hnew, ← h.capacity k rfl]
    simp [hfits, hcap]

/-- The text is what is read back as a string, exactly if the redirection replaces the file. -/
theorem TargetOpened.reads_back_iff (h : TargetOpened a path s b t i s₁) (hne : text ≠ [])
    (hlen : text.length ≤ 128) (hzero : 0 ∉ text) (buf : Option (ℕ → Byte)) :
    cString (newText (s₁.grants (.write alloc i.val buf text.length)) text t (oldText a path)) =
      text ↔ Replaces alloc text path a s := by
  cases t with
  | root =>
    refine iff_of_false (fun heq => hne heq.symm) fun hrep => ?_
    exact hrep.file (h.root.mp rfl)
  | file k =>
    have hfile : a.find path ≠ some .root := fun hroot => nomatch h.root.mpr hroot
    have hgrants := h.grants_iff alloc buf hlen
    cases hgranted : s₁.grants (.write alloc i.val buf text.length) with
    | true =>
      have hdrop : ((oldText a path).drop text.length).getD 0 0 =
          (oldText a path).getD text.length 0 := by simp
      rw [newText, if_pos rfl, cString_append_eq_iff hzero, hdrop]
      exact ⟨fun hrest => ⟨hfile, hgrants.mp hgranted, hrest⟩, Replaces.rest⟩
    | false =>
      rw [hgranted] at hgrants
      have hspace := fun hspace => Bool.false_ne_true (hgrants.mpr hspace)
      refine iff_of_false (fun heq => hspace (.inl ?_)) fun hrep => hspace hrep.space
      have hshort : (cString (oldText a path)).length ≤ (oldText a path).length :=
        (takeWhile_sublist _).length_le
      rw [← heq]
      exact hshort.trans h.file_node.2

end

/-! ## The two lines together -/

variable (alloc : NmAlloc)

theorem lineOutcome_echoLine (hwords : ∀ w ∈ words, IsWord w) (hfew : words.length ≤ 15)
    (hfits : (commandText echoName words).length < 127) (hpath : IsWord path) (tmp : List Byte)
    (cap : ℕ) :
    lineOutcome filesystem fuel alloc tmp cap (echoLine words path) s =
      (s.fsOpen filesystem fuel (some path) (nmOCreat ||| nmORdwr)).bind fun r =>
        if r.1 < 0 then some ⟨-1, [(.echo, echoName :: words)], [], none, r.2⟩
        else
          (r.2.fsWrite filesystem fuel alloc r.1 (some fun i => (echoText words).getD i 0)
            (echoText words).length).map fun w =>
              ⟨0, [(.echo, echoName :: words)], [], some (echoText words),
                (w.2.fsClose r.1).2⟩ := by
  have hlen := length_echoText_le words
  have hzero : 0 ∉ echoText words := zero_notMem_echoText fun w hw => (hwords w hw).zero
  have hecho : effect filesystem fuel 512 (echoName :: words) [0] s =
      some ⟨0, [(.echo, echoName :: words)], some (echoText words), s⟩ := by
    rw [effect, if_neg (by simp; omega), if_pos head?_cons, tail_cons, take_of_length_le (by omega)]
  have hread : readString (echoText words ++ [0]) 512 = some (echoText words) := by
    rw [readString_append hzero, take_of_length_le (by omega)]
  rw [lineOutcome, (echoLine_halves hwords path).2.2, leftWords_echoLine hwords hfits,
    rightWords_echoLine hwords hpath]
  dsimp only
  rw [hecho, bind_some, if_neg (not_not_intro rfl), redirectOutcome, if_neg (by simp)]
  dsimp only [Effect.buffer, head?_cons]
  rw [hread]
  rfl

theorem lineOutcome_catLine (hpath : IsWord path) (tmp : List Byte) (cap : ℕ) :
    lineOutcome filesystem fuel alloc tmp cap (catLine path) s =
      (effect filesystem fuel cap [catName, path] [0] s).map fun e =>
        ⟨e.ret, e.ran, cString (e.text.getD []), none, e.vfs⟩ := by
  rw [lineOutcome, (catLine_words hpath).1, (catLine_words hpath).2]

theorem length_newText_le (granted : Bool) (text : List Byte) (t : Target) (old : List Byte) :
    (newText granted text t old).length ≤ max old.length text.length := by
  unfold newText
  split
  · exact Nat.zero_le _
  · split
    · rw [length_append, length_drop]
      omega
    · exact le_max_left _ _

/-- `echo words > path` fails, or leaves a file that is not longer than its old contents and the
text, and that holds the text exactly if the redirection replaces it. -/
theorem shellExecuteLine_echoLine (h : Refines a s) (hwords : ∀ w ∈ words, IsWord w)
    (hfew : words.length ≤ 15) (hfits : (commandText echoName words).length < 127)
    (hpath : IsWord path) (hfuel : 512 ≤ fuel) (stack : Stack) {out : List Byte} (hout : out ≠ []) :
    ∃ r, shellExecuteLine filesystem fuel alloc stack (some (echoLine words path)) (some out)
        s = some r ∧
      (r.ret = -1 ∧ (a.openFile (some path) true).1 < 0 ∨
        r.ret = 0 ∧ ∃ c t j, Refines c r.vfs ∧ c.find path = some t ∧ c.freeHandle = some j ∧
          (c.contents t).length ≤ max (oldText a path).length (echoText words).length ∧
          (cString (c.contents t) = echoText words ↔
            Replaces alloc (echoText words) path a s)) := by
  have htext := length_echoText_le words
  have hzero : 0 ∉ echoText words := zero_notMem_echoText fun w hw => (hwords w hw).zero
  have hline := zero_notMem_echoLine hwords hpath
  obtain ⟨⟨fd, s₁⟩, hopen, hfd, hfail | ⟨b, t, i, rfl, hopened⟩⟩ := fsOpen_target h hfuel hpath
  · obtain ⟨r, hr, heq⟩ := exists_done tmpfs_lawful hline stack hout (by
      rw [lineOutcome_echoLine alloc hwords hfew hfits hpath, hopen, bind_some, if_pos hfail])
    exact ⟨r, hr, .inl ⟨congrArg Outcome.ret heq, hfd ▸ hfail⟩⟩
  · obtain ⟨w, hwrite, c, j, hrefines, hfind, hfree, hcontents⟩ :=
      hopened.written (show 64 ≤ fuel by omega) alloc
        (show (echoText words).length < 2 ^ 63 by omega)
    obtain ⟨r, hr, heq⟩ := exists_done tmpfs_lawful hline stack hout (by
      rw [lineOutcome_echoLine alloc hwords hfew hfits hpath, hopen, bind_some,
        if_neg (Int.not_lt.mpr (Int.natCast_nonneg _)), hwrite, map_some])
    have hvfs : r.vfs = (w.2.fsClose i.val).2 := congrArg Outcome.vfs heq
    have hne : echoText words ≠ [] := by simp [echoText]
    have hback := hopened.reads_back_iff alloc hne (by omega) hzero
      (some fun j => (echoText words).getD j 0)
    rw [← hvfs] at hrefines
    rw [← hcontents] at hback
    exact ⟨r, hr, .inr ⟨congrArg Outcome.ret heq, c, t, j, hrefines, hfind, hfree,
      hcontents ▸ length_newText_le _ _ _ _, hback⟩⟩

/-- `cat path` puts what the path names into a buffer that is larger. -/
theorem shellExecuteLine_catLine (h : Refines a s) (hpath : IsWord path) (hfuel : 512 ≤ fuel)
    (hfind : a.find path = some t) (hfree : a.freeHandle = some i)
    (hlen : (a.contents t).length < fuel) (stack : Stack) {out : List Byte}
    (hlarge : (a.contents t).length < out.length) :
    ∃ r, shellExecuteLine filesystem fuel alloc stack (some (catLine path)) (some out) s =
        some r ∧ r.ret = 0 ∧ cString r.out = cString (a.contents t) := by
  have hout : out ≠ [] := ne_nil_of_length_pos (by omega)
  obtain ⟨e, heffect, hret, htext⟩ :=
    effect_cat_of_find h hfuel hpath hfind hfree hlen out.length [0]
  rw [take_of_length_le (by omega)] at htext
  obtain ⟨r, hr, heq⟩ := exists_done tmpfs_lawful (zero_notMem_catLine hpath) stack hout (by
    rw [lineOutcome_catLine alloc hpath, heffect, map_some])
  refine ⟨r, hr, (congrArg Outcome.ret heq).trans hret, ?_⟩
  have hshown : cString r.out = cString (e.text.getD []) := congrArg Outcome.shown heq
  rw [hshown, htext, getD_some]

/-- `echo words > path`, and then `cat path` into a buffer that is larger than the text and the old
contents. -/
theorem redirect_then_cat_iff (h : Refines a s) (hwords : ∀ w ∈ words, IsWord w)
    (hfew : words.length ≤ 15) (hfits : (commandText echoName words).length < 127)
    (hpath : IsWord path) (hfuel : 512 + (oldText a path).length ≤ fuel) (stack stack' : Stack)
    {out out' : List Byte} (hout : out ≠ [])
    (hlarge : max (oldText a path).length (echoText words).length < out'.length) :
    ∃ r, shellExecuteLine filesystem fuel alloc stack (some (echoLine words path)) (some out)
        s = some r ∧
      (r.ret = 0 →
        ∃ r', shellExecuteLine filesystem fuel alloc stack' (some (catLine path)) (some out')
            r.vfs = some r' ∧
          (r'.ret = 0 ∧ cString r'.out = echoText words ↔
            Replaces alloc (echoText words) path a s)) := by
  have htext := length_echoText_le words
  have hrounds : 512 ≤ fuel := by omega
  obtain ⟨r, hr, ⟨hret, -⟩ | ⟨-, c, t, j, hrefines, hfind, hfree, hlen, hback⟩⟩ :=
    shellExecuteLine_echoLine alloc h hwords hfew hfits hpath hrounds stack hout
  · exact ⟨r, hr, fun hzero => absurd (hret.symm.trans hzero) (by decide)⟩
  · refine ⟨r, hr, fun _ => ?_⟩
    obtain ⟨r', hr', hret', hshown⟩ := shellExecuteLine_catLine alloc hrefines hpath hrounds
      hfind hfree (by omega) stack' (hlen.trans_lt hlarge)
    refine ⟨r', hr', ?_⟩
    rw [hshown, hback]
    exact and_iff_right hret'

def smallPath : List Byte := [47, 102]

theorem isWord_smallPath : IsWord smallPath :=
  ⟨by decide, by decide, by decide, by decide, by decide⟩

theorem isWord_small : ∀ w ∈ [[(97 : Byte)]], IsWord w := by
  intro w hw
  rw [mem_singleton.mp hw]
  exact ⟨by decide, by decide, by decide, by decide, by decide⟩

/-- The first text of a new file is read back. -/
theorem redirect_then_cat_new :
    ∃ (stack : Stack) (r r' : Done Tmpfs NodeRef),
      shellExecuteLine filesystem 512 (fun _ => some fun _ => 0) stack
        (some (echoLine [[97]] smallPath)) (some [0]) atBoot.mounted.2 = some r ∧ r.ret = 0 ∧
      shellExecuteLine filesystem 512 (fun _ => some fun _ => 0) stack
        (some (catLine smallPath)) (some [0, 0, 0]) r.vfs = some r' ∧
      r'.ret = 0 ∧ cString r'.out = [97, 10] := by
  obtain ⟨stack, -⟩ := exists_stack [] (by decide)
  have h := (mounted_refines atBoot).2
  have hout : [(0 : Byte)] ≠ [] := cons_ne_nil _ _
  obtain ⟨r, hr, hback⟩ := redirect_then_cat_iff (fun _ => some fun _ => 0) h isWord_small
    (by decide) (by decide) isWord_smallPath (show 512 + 0 ≤ 512 by decide) stack stack hout
    (show 2 < [(0 : Byte), 0, 0].length by decide)
  obtain ⟨r₁, hr₁, ⟨-, hfail⟩ | ⟨hret, -⟩⟩ := shellExecuteLine_echoLine (fun _ => some fun _ => 0) h
    isWord_small (by decide) (by decide) isWord_smallPath (show 512 ≤ 512 by decide) stack hout
  · exact absurd hfail (by decide)
  · obtain rfl : r = r₁ := some.inj (hr.symm.trans hr₁)
    obtain ⟨r', hr', hiff⟩ := hback hret
    obtain ⟨hret', hshown⟩ := hiff.mpr ⟨by decide, .inr rfl, rfl⟩
    exact ⟨stack, r, r', hr, hret, hr', hret', hshown⟩

/-- The two lines `echo aa > /f` and `echo a > /f` succeed, and `cat /f` does not show the second
text: the end of the first one follows it. -/
theorem shorter_text_not_replaced :
    ∃ (stack : Stack) (r r₁ r₂ : Done Tmpfs NodeRef),
      shellExecuteLine filesystem 515 (fun _ => some fun _ => 0) stack
        (some (echoLine [[97, 97]] smallPath)) (some [0]) atBoot.mounted.2 = some r ∧
      shellExecuteLine filesystem 515 (fun _ => some fun _ => 0) stack
        (some (echoLine [[97]] smallPath)) (some [0]) r.vfs = some r₁ ∧ r₁.ret = 0 ∧
      shellExecuteLine filesystem 515 (fun _ => some fun _ => 0) stack
        (some (catLine smallPath)) (some [0, 0, 0, 0]) r₁.vfs = some r₂ ∧
      cString r₂.out ≠ echoText [[97]] := by
  obtain ⟨stack, -⟩ := exists_stack [] (by decide)
  have h := (mounted_refines atBoot).2
  have hout : [(0 : Byte)] ≠ [] := cons_ne_nil _ _
  have hlong : ∀ w ∈ [[(97 : Byte), 97]], IsWord w := by
    intro w hw
    rw [mem_singleton.mp hw]
    exact ⟨by decide, by decide, by decide, by decide, by decide⟩
  obtain ⟨r, hr, ⟨-, hfail⟩ | ⟨-, c, t, j, hc, hfind, hfree, hlen, hback⟩⟩ :=
    shellExecuteLine_echoLine (fun _ => some fun _ => 0) h hlong (by decide) (by decide)
      isWord_smallPath (show 512 ≤ 515 by decide) stack hout
  · exact absurd hfail (by decide)
  have hstart : [97, 97, 10] <+: c.contents t := by
    have hshown := hback.mpr ⟨by decide, .inr rfl, rfl⟩
    rw [show [97, 97, 10] = echoText [[97, 97]] from rfl, ← hshown]
    exact takeWhile_prefix _
  have hold : oldText c smallPath = c.contents t := by rw [oldText, hfind]
  obtain ⟨r₁, hr₁, ⟨-, hfail⟩ | ⟨hret, c', t', j', hc', hfind', hfree', hlen', hback'⟩⟩ :=
    shellExecuteLine_echoLine (fun _ => some fun _ => 0) hc isWord_small (by decide) (by decide)
      isWord_smallPath (show 512 ≤ 515 by decide) stack hout
  · have hopen : (c.openFile (some smallPath) true).1 = j.val := by
      simp only [openFile, hfind, grant, hfree]
    omega
  have hless : (c'.contents t').length < 4 := by
    rw [hold] at hlen'
    have hshort : (c.contents t).length ≤ 3 := hlen
    have htext : (echoText [[97]]).length = 2 := rfl
    omega
  obtain ⟨r₂, hr₂, -, hshown⟩ := shellExecuteLine_catLine (fun _ => some fun _ => 0) hc'
    isWord_smallPath (show 512 ≤ 515 by decide) hfind' hfree' (by omega) stack
    (show (c'.contents t').length < [(0 : Byte), 0, 0, 0].length from hless)
  refine ⟨stack, r, r₁, r₂, hr, hr₁, hret, hr₂, fun heq => ?_⟩
  have hrest := (hback'.mp (hshown.symm.trans heq)).rest
  obtain ⟨rest, hrest'⟩ := hstart
  rw [hold, ← hrest'] at hrest
  exact absurd hrest (by simp [echoText])

end NeverMind.Shell
