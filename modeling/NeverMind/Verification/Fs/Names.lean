import NeverMind.Verification.Fs.Refinement
import NeverMind.Verification.Fs.Steps

/-! # Names and files

Components are cut to 63 bytes before they are compared, so that a path stands for the path
with cut components. Two paths name one file exactly when they agree after the cut. -/

namespace NeverMind

open Tmpfs Option List

def cutComponents (path : List Byte) : List (List Byte) := (components path).map fun c => c.take 63

/-- The path that the code sees in place of a path. -/
def cutPath (path : List Byte) : List Byte :=
  if path.head? = some slash then slash :: (cutComponents path).flatMap fun c => slash :: c
  else []

theorem components_cutPath {path : List Byte} (h : path.head? = some slash) :
    components (cutPath path) = cutComponents path := by
  rw [cutPath, if_pos h, components_slash]
  apply fields_flatMap (by simp)
  intro c hc
  obtain ⟨d, hd, rfl⟩ := mem_map.mp hc
  obtain ⟨hne, -, hslash⟩ := mem_fields hd
  refine ⟨?_, fun b hb => hslash b (mem_of_mem_take hb)⟩
  cases d with
  | nil => exact absurd rfl hne
  | cons b d => exact cons_ne_nil _ _

theorem cutComponents_cutPath {path : List Byte} (h : path.head? = some slash) :
    cutComponents (cutPath path) = cutComponents path := by
  rw [cutComponents, components_cutPath h, cutComponents, List.map_map]
  simp [Function.comp_def, take_take]

theorem shortParts_cutPath (path : List Byte) : ShortParts (cutPath path) := by
  by_cases h : path.head? = some slash
  · intro c hc
    rw [components_cutPath h] at hc
    obtain ⟨d, -, rfl⟩ := mem_map.mp hc
    exact length_take_le 63 d
  · rw [cutPath, if_neg h]
    simp [ShortParts]

theorem head?_cutPath (path : List Byte) :
    (cutPath path).head? = some slash ↔ path.head? = some slash := by
  by_cases h : path.head? = some slash
  · simp [cutPath, h]
  · simp [cutPath, h]

theorem fsPathSplit_cutPath {path : List Byte} (h : path.head? = some slash) :
    fsPathSplit (cutPath path) 16 = fsPathSplit path 16 := by
  rw [fsPathSplit_eq _ (by decide), fsPathSplit_eq _ (by decide), ← cutComponents,
    ← cutComponents, cutComponents_cutPath h, components_cutPath h]
  simp [cutComponents]

namespace Vfs

section

variable {T R : Type*} (fs : Filesystem T R) (fuel : ℕ) (s : Vfs T R)

theorem resolvePath_cutPath (path : List Byte) (parentOnly : Bool) :
    s.resolvePath fs fuel (cutPath path) parentOnly = s.resolvePath fs fuel path parentOnly := by
  unfold resolvePath
  cases s.rootVnode with
  | none => rfl
  | some root =>
    dsimp only
    by_cases h : path.head? = some slash
    · rw [fsPathSplit_cutPath h, (head?_cutPath path).mpr h, h]
    · rw [if_pos (.inr (mt (head?_cutPath path).mp h)), if_pos (.inr h)]

theorem fsOpen_cutPath (path : List Byte) (flags : ℕ) :
    s.fsOpen fs fuel (some (cutPath path)) flags = s.fsOpen fs fuel (some path) flags := by
  simp only [fsOpen, resolvePath_cutPath]

theorem fsOpen_map_cutPath (path : Option (List Byte)) (flags : ℕ) :
    s.fsOpen fs fuel (path.map cutPath) flags = s.fsOpen fs fuel path flags := by
  cases path with
  | none => rfl
  | some path => exact fsOpen_cutPath fs fuel s path flags

end

def Resolves (fuel : ℕ) (path : List Byte) (v : NodeRef) (s : Vfs Tmpfs NodeRef) : Prop :=
  ∃ leaf, s.resolvePath filesystem fuel path false = some (some (v, leaf))

end Vfs

namespace FileStore

def nameOf (t : Target) (a : FileStore) : List (List Byte) :=
  match t with
  | .root => []
  | .file k => [(a.files.getD k ([], [])).1]

variable {a : FileStore} {path : List Byte} {t u : Target}

theorem nameOf_file {k : ℕ} (hk : k < a.files.length) : a.nameOf (.file k) = [a.files[k].1] := by
  simp [nameOf, hk]

theorem find_eq_some_iff (hnodup : (a.files.map Prod.fst).Nodup) (habs : path.head? = some slash) :
    a.find path = some t ↔ t.Within a.files.length ∧ a.nameOf t = components path := by
  rw [find, if_neg (not_not_intro habs)]
  constructor
  · intro h
    split at h
    · cases h
      simp_all [nameOf, Target.Within]
    · rename_i name hpath
      obtain ⟨k, hk, rfl⟩ := map_eq_some_iff.mp h
      have hlt := Vfs.indexOf_lt hk
      have hname := (findIdx?_eq_some_iff_getElem.mp hk).2.1
      refine ⟨hlt, ?_⟩
      rw [hpath, nameOf_file hlt]
      simpa using hname
    · cases h
  · rintro ⟨ht, hname⟩
    rw [← hname]
    cases t with
    | root => rfl
    | file k =>
      have hk : k < a.files.length := ht
      rw [nameOf_file hk]
      simp only [indexOf, indexOf_eq_some hnodup hk, map_some]

theorem absolute_of_find (h : a.find path = some t) : path.head? = some slash := by
  by_contra habs
  rw [find, if_pos habs] at h
  cases h

theorem nameOf_inj (hnodup : (a.files.map Prod.fst).Nodup) (ht : t.Within a.files.length)
    (hu : u.Within a.files.length) (h : a.nameOf t = a.nameOf u) : t = u := by
  cases t with
  | root =>
    cases u with
    | root => rfl
    | file j => cases h
  | file k =>
    cases u with
    | root => cases h
    | file j =>
      have hk : k < a.files.length := ht
      have hj : j < a.files.length := hu
      rw [nameOf_file hk, nameOf_file hj] at h
      have hindex := indexOf_eq_some hnodup hk
      rw [singleton_inj.mp h, indexOf_eq_some hnodup hj] at hindex
      exact congrArg Target.file (some.inj hindex).symm

@[simp] theorem files_grant (t : Target) (a : FileStore) : (a.grant t).2.files = a.files := by
  unfold grant
  cases a.freeHandle with
  | none => rfl
  | some i => rfl

theorem files_of_grant {a' : FileStore} {ret : ℤ} (h : (ret, a') = a.grant t) :
    a'.files = a.files := by
  have hsnd : a' = (a.grant t).2 := congrArg Prod.snd h
  rw [hsnd, files_grant]

@[simp] theorem files_close (fd : ℤ) (a : FileStore) : (a.close fd).2.files = a.files := by
  unfold close
  split
  · rfl
  · rfl

/-- What an open can do. -/
inductive Opens (path : Option (List Byte)) (a : FileStore) : ℤ × FileStore → Prop where
  | refused : Opens path a (nmErr nmEfail, a)
  | found {p : List Byte} {t : Target} (hpath : path = some p) (hfind : a.find p = some t) :
      Opens path a (a.grant t)
  | made {p name : List Byte} (hpath : path = some p) (habs : p.head? = some slash)
      (hparts : components p = [name]) (hmissing : a.find p = none) :
      Opens path a ({ a with files := a.files ++ [(name, [])] }.grant (.file a.files.length))

theorem openFile_opens (path : Option (List Byte)) (create : Bool) (a : FileStore) :
    Opens path a (a.openFile path create) := by
  unfold openFile
  split
  · exact .refused
  · split
    · rename_i hfind
      exact .found rfl hfind
    · rename_i p hmissing
      split
      · rename_i name hname
        split
        · unfold newName at hname
          split at hname
          · cases hname
          · rename_i habs
            split at hname
            · rename_i hparts
              cases hname
              exact .made rfl (not_not.mp habs) hparts hmissing
            · cases hname
        · exact .refused
      · exact .refused

theorem nameOf_congr {a' : FileStore} (h : a'.files = a.files) (t : Target) :
    a'.nameOf t = a.nameOf t := by
  unfold nameOf
  rw [h]

variable {a' : FileStore} {opened : Option (List Byte)} {ret : ℤ}

theorem Opens.length_le (h : Opens opened a (ret, a')) : a.files.length ≤ a'.files.length := by
  generalize hr : (ret, a') = r at h
  cases h with
  | refused =>
    cases hr
    exact le_refl _
  | found hpath hfind => rw [files_of_grant hr]
  | made hpath habs hparts hmissing =>
    rw [files_of_grant hr]
    simp

/-- A target keeps its name, and a new one has the name of the path. -/
theorem Opens.nameOf (h : Opens opened a (ret, a')) (ht : t.Within a'.files.length) :
    (t.Within a.files.length ∧ a'.nameOf t = a.nameOf t) ∨
      (¬ t.Within a.files.length ∧ ∃ p, opened = some p ∧ p.head? = some slash ∧
        a'.nameOf t = components p) := by
  generalize hr : (ret, a') = r at h
  cases h with
  | refused =>
    cases hr
    exact .inl ⟨ht, rfl⟩
  | found hpath hfind =>
    have hfiles := files_of_grant hr
    rw [hfiles] at ht
    exact .inl ⟨ht, nameOf_congr hfiles t⟩
  | @made p name hpath habs hparts hmissing =>
    have hfiles : a'.files = a.files ++ [(name, [])] := files_of_grant hr
    rw [hfiles] at ht
    cases t with
    | root => exact .inl ⟨trivial, rfl⟩
    | file k =>
      have hk : k < (a.files ++ [(name, [])]).length := ht
      rw [length_append, length_singleton] at hk
      by_cases hold : k < a.files.length
      · refine .inl ⟨hold, ?_⟩
        rw [nameOf_file hold, nameOf_file (by simp [hfiles]; omega)]
        simp [hfiles, getElem_append_left hold]
      · obtain rfl : k = a.files.length := by omega
        refine .inr ⟨hold, p, hpath, habs, ?_⟩
        rw [hparts, nameOf_file (by simp [hfiles])]
        simp [hfiles]

theorem granted_of_grant (h : 0 ≤ (a.grant t).1) :
    ∃ i : FileRef, (a.grant t).1 = i.val ∧ (a.grant t).2.handles i = some ⟨t, 0⟩ := by
  unfold grant at h ⊢
  cases hfree : a.freeHandle with
  | none =>
    rw [hfree] at h
    exact absurd h (Int.not_le.mpr nmErr_nmEfail_neg)
  | some i => exact ⟨i, rfl, by simp [setHandle]⟩

/-- The descriptor of an open is on the target with the components of the path. -/
theorem Opens.granted (h : Opens opened a (ret, a')) (hret : 0 ≤ ret)
    (hnodup : (a.files.map Prod.fst).Nodup) :
    ∃ (i : FileRef) (t : Target) (p : List Byte), ret = i.val ∧ a'.handles i = some ⟨t, 0⟩ ∧
      opened = some p ∧ p.head? = some slash ∧ t.Within a'.files.length ∧
      a'.nameOf t = components p := by
  generalize hr : (ret, a') = r at h
  cases h with
  | refused =>
    cases hr
    exact absurd hret (Int.not_le.mpr nmErr_nmEfail_neg)
  | @found p t hpath hfind =>
    obtain rfl : ret = _ := congrArg Prod.fst hr
    obtain rfl : a' = _ := congrArg Prod.snd hr
    obtain ⟨i, hi, hhandle⟩ := granted_of_grant hret
    have habs := absolute_of_find hfind
    obtain ⟨ht, hname⟩ := (find_eq_some_iff hnodup habs).mp hfind
    refine ⟨i, t, p, hi, hhandle, hpath, habs, by rwa [files_grant], ?_⟩
    rw [nameOf_congr (files_grant t a), hname]
  | @made p name hpath habs hparts hmissing =>
    obtain rfl : ret = _ := congrArg Prod.fst hr
    obtain rfl : a' = _ := congrArg Prod.snd hr
    obtain ⟨i, hi, hhandle⟩ := granted_of_grant hret
    refine ⟨i, _, p, hi, hhandle, hpath, habs, ?_, ?_⟩
    · rw [files_grant]
      simp [Target.Within]
    · rw [nameOf_congr (files_grant _ _), nameOf_file (by simp), hparts]
      simp

end FileStore

namespace Vfs

variable {a : FileStore} {s : Vfs Tmpfs NodeRef} {fuel : ℕ} {path : List Byte} {v : NodeRef}
  {t u : Target}

theorem Refines.resolves_iff (h : Refines a s) (hfuel : 512 ≤ fuel) :
    s.Resolves fuel path v ↔ ∃ t, a.find (cutPath path) = some t ∧ nodeOf t = v := by
  have hresolve := h.resolvePath hfuel (shortParts_cutPath path)
  rw [resolvePath_cutPath] at hresolve
  unfold Resolves
  rw [hresolve]
  cases hfind : a.find (cutPath path) with
  | none => simp
  | some t => simp

/-- An open of any path computes what the store computes under the cut path. -/
theorem Refines.fsOpen_cutPath (h : Refines a s) (hfuel : 512 ≤ fuel) (path : Option (List Byte))
    (flags : ℕ) :
    ∃ s', s.fsOpen filesystem fuel path flags =
        some ((a.openFile (path.map cutPath) (flags &&& nmOCreat ≠ 0)).1, s') ∧
      Refines (a.openFile (path.map cutPath) (flags &&& nmOCreat ≠ 0)).2 s' := by
  have hshort : ∀ p ∈ path.map cutPath, ShortParts p := by
    intro p hp
    obtain ⟨q, -, rfl⟩ := mem_map.mp hp
    exact shortParts_cutPath q
  have hopen := h.fsOpen hfuel hshort flags
  rw [fsOpen_map_cutPath] at hopen
  exact hopen

theorem Refines.used_iff (h : Refines a s) :
    (s.nodes.nodes v).used = true ↔ ∃ t : Target, t.Within a.files.length ∧ nodeOf t = v := by
  rw [h.files.used, decide_eq_true_iff]
  constructor
  · intro hv
    by_cases hzero : v = 0
    · exact ⟨.root, trivial, hzero.symm⟩
    · have hpos : 0 < v.val := Nat.pos_of_ne_zero fun hval => hzero (Fin.ext hval)
      have hlt : v.val - 1 < a.files.length := by omega
      refine ⟨.file (v.val - 1), hlt, Fin.ext ?_⟩
      rw [nodeOf, val_nodeAt (h.files.lt hlt)]
      omega
  · rintro ⟨t, ht, rfl⟩
    cases t with
    | root => exact Nat.zero_le _
    | file k =>
      have hk : k < a.files.length := ht
      rw [nodeOf, val_nodeAt (h.files.lt hk)]
      omega

theorem Refines.nodeOf_inj (h : Refines a s) (ht : t.Within a.files.length)
    (hu : u.Within a.files.length) (heq : nodeOf t = nodeOf u) : t = u := by
  cases t with
  | root =>
    cases u with
    | root => rfl
    | file j => exact absurd heq.symm (nodeAt_ne_zero (h.files.lt hu))
  | file k =>
    cases u with
    | root => exact absurd heq (nodeAt_ne_zero (h.files.lt ht))
    | file j =>
      by_contra hne
      exact nodeAt_ne (h.files.lt ht) (h.files.lt hu) (fun hkj => hne (by rw [hkj])) heq

end Vfs

/-! ## Runs of opens -/

/-- A state, and for each vnode the components of the path whose open made it. -/
structure NamedVfs where
  vfs : Vfs Tmpfs NodeRef
  madeAs : NodeRef → Option (List (List Byte))

namespace NamedVfs

def fresh (s : Vfs Tmpfs NodeRef) : NamedVfs where
  vfs := s
  madeAs := fun i => if s.rootVnode = some i then some [] else none

/-- An open. A vnode that comes into use was made under the path. -/
def openFile (fuel : ℕ) (path : Option (List Byte)) (flags : ℕ) (n : NamedVfs) :
    Option (ℤ × NamedVfs) :=
  (n.vfs.fsOpen filesystem fuel path flags).map fun r =>
    (r.1, {
      vfs := r.2
      madeAs := fun i =>
        if (n.vfs.nodes.nodes i).used = false ∧ (r.2.nodes.nodes i).used = true then
          path.map components
        else n.madeAs i })

/-- The states after a mount over any earlier state, and opens and closes. -/
inductive Reached (fuel : ℕ) : NamedVfs → Prop where
  | mounted (s : Vfs Tmpfs NodeRef) : Reached fuel (fresh s.mounted.2)
  | openFile {n n' : NamedVfs} {path : Option (List Byte)} {flags : ℕ} {ret : ℤ}
      (h : Reached fuel n) (hopen : n.openFile fuel path flags = some (ret, n')) : Reached fuel n'
  | close {n : NamedVfs} (h : Reached fuel n) (fd : ℤ) :
      Reached fuel { n with vfs := (n.vfs.fsClose fd).2 }

/-- The vnode was made under components that are `cut` after the cut. -/
def MadeAs (n : NamedVfs) (v : NodeRef) (cut : List (List Byte)) : Prop :=
  ∃ cs, n.madeAs v = some cs ∧ (cs.map fun c => c.take 63) = cut

/-- The record of names agrees with the store that the state represents. -/
structure Recorded (a : FileStore) (n : NamedVfs) : Prop where
  refines : Vfs.Refines a n.vfs
  made : ∀ t : Target, t.Within a.files.length → n.MadeAs (nodeOf t) (a.nameOf t)
  used : ∀ v cs, n.madeAs v = some cs → (n.vfs.nodes.nodes v).used = true

variable {a : FileStore} {n n' : NamedVfs} {fuel : ℕ} {v w : NodeRef} {cut : List (List Byte)}
  {path : List Byte}

theorem MadeAs.unique {cut' : List (List Byte)} (h : n.MadeAs v cut) (h' : n.MadeAs v cut') :
    cut = cut' := by
  obtain ⟨cs, hcs, rfl⟩ := h
  obtain ⟨cs', hcs', rfl⟩ := h'
  rw [hcs] at hcs'
  rw [some.inj hcs']

theorem Recorded.target (h : Recorded a n) (hv : n.MadeAs v cut) :
    ∃ t : Target, t.Within a.files.length ∧ nodeOf t = v ∧ a.nameOf t = cut := by
  obtain ⟨cs, hcs, -⟩ := id hv
  obtain ⟨t, ht, rfl⟩ := h.refines.used_iff.mp (h.used v cs hcs)
  exact ⟨t, ht, rfl, (h.made t ht).unique hv⟩

theorem Recorded.vnode_unique (h : Recorded a n) (hv : n.MadeAs v cut) (hw : n.MadeAs w cut) :
    v = w := by
  obtain ⟨t, ht, rfl, htn⟩ := h.target hv
  obtain ⟨u, hu, rfl, hun⟩ := h.target hw
  rw [FileStore.nameOf_inj h.refines.files.distinct ht hu (htn.trans hun.symm)]

theorem Recorded.resolves (h : Recorded a n) (hfuel : 512 ≤ fuel)
    (hv : n.vfs.Resolves fuel path v) : n.MadeAs v (cutComponents path) := by
  obtain ⟨t, hfind, rfl⟩ := (h.refines.resolves_iff hfuel).mp hv
  have habs : path.head? = some slash := (head?_cutPath path).mp (FileStore.absolute_of_find hfind)
  rw [FileStore.find_eq_some_iff h.refines.files.distinct ((head?_cutPath path).mpr habs),
    components_cutPath habs] at hfind
  rw [← hfind.2]
  exact h.made t hfind.1

theorem recorded_fresh {s : Vfs Tmpfs NodeRef} (h : Vfs.Refines .empty s) :
    Recorded .empty (fresh s) := by
  have hroot : (fresh s).madeAs = fun i => if i = 0 then some [] else none := by
    funext i
    unfold fresh
    rw [h.root]
    simp [eq_comm]
  refine ⟨h, ?_, ?_⟩
  · intro t ht
    cases t with
    | root => exact ⟨[], by rw [hroot]; rfl, rfl⟩
    | file k => exact absurd ht (Nat.not_lt_zero k)
  · intro v cs hv
    rw [hroot] at hv
    dsimp only at hv
    split at hv
    · rename_i hzero
      exact h.used_iff.mpr ⟨.root, trivial, hzero.symm⟩
    · cases hv

theorem openFile_eq {s : Vfs Tmpfs NodeRef} {path : Option (List Byte)} {flags : ℕ} {ret : ℤ}
    (h : n.vfs.fsOpen filesystem fuel path flags = some (ret, s)) :
    n.openFile fuel path flags = some (ret, ⟨s, fun i =>
      if (n.vfs.nodes.nodes i).used = false ∧ (s.nodes.nodes i).used = true then
        path.map components
      else n.madeAs i⟩) := by
  rw [openFile, h]
  rfl

theorem madeAs_openFile_of_used {path : Option (List Byte)} {flags : ℕ} {ret : ℤ}
    (h : n.openFile fuel path flags = some (ret, n')) (hused : (n.vfs.nodes.nodes v).used = true) :
    n'.madeAs v = n.madeAs v := by
  obtain ⟨r, -, hr⟩ := map_eq_some_iff.mp h
  cases hr
  exact if_neg fun hnew => by simp [hused] at hnew

/-- A vnode that comes into use has the name of the path. -/
theorem madeAs_openFile_of_unused {path : Option (List Byte)} {flags : ℕ} {ret : ℤ}
    (h : n.openFile fuel path flags = some (ret, n')) (hunused : (n.vfs.nodes.nodes v).used = false)
    (hused : (n'.vfs.nodes.nodes v).used = true) : n'.madeAs v = path.map components := by
  obtain ⟨r, -, hr⟩ := map_eq_some_iff.mp h
  cases hr
  exact if_pos ⟨hunused, hused⟩

theorem Recorded.openFile (h : Recorded a n) (hfuel : 512 ≤ fuel) (path : Option (List Byte))
    (flags : ℕ) :
    ∃ ret a' n', FileStore.Opens (path.map cutPath) a (ret, a') ∧
      n.openFile fuel path flags = some (ret, n') ∧ Recorded a' n' := by
  obtain ⟨s', hopen, hrefines⟩ := h.refines.fsOpen_cutPath hfuel path flags
  have hopens := FileStore.openFile_opens (path.map cutPath) (flags &&& nmOCreat ≠ 0) a
  have hnamed := openFile_eq hopen
  obtain ⟨⟨ret, a'⟩, hstore⟩ :
      ∃ r, r = a.openFile (path.map cutPath) (flags &&& nmOCreat ≠ 0) := ⟨_, rfl⟩
  rw [← hstore] at hopen hrefines hopens hnamed
  refine ⟨ret, a', _, hopens, hnamed, hrefines, ?_, ?_⟩
  · intro t ht
    rcases hopens.nameOf ht with ⟨hold, hname⟩ | ⟨hnew, p, hp, habs, hname⟩
    · have hused := h.refines.used_iff.mpr ⟨t, hold, rfl⟩
      rw [hname, MadeAs, madeAs_openFile_of_used hnamed hused]
      exact h.made t hold
    · have hunused : (n.vfs.nodes.nodes (nodeOf t)).used = false := by
        rw [← Bool.not_eq_true, h.refines.used_iff]
        rintro ⟨u, hu, heq⟩
        exact hnew (hrefines.nodeOf_inj (hu.mono hopens.length_le) ht heq ▸ hu)
      obtain ⟨q, hq, rfl⟩ := map_eq_some_iff.mp hp
      refine ⟨components q, ?_, ?_⟩
      · rw [madeAs_openFile_of_unused hnamed hunused (hrefines.used_iff.mpr ⟨t, ht, rfl⟩), hq]
        rfl
      · rw [hname, components_cutPath ((head?_cutPath q).mp habs)]
        rfl
  · intro v cs hv
    dsimp only at hv
    split at hv
    · rename_i hnew
      exact hnew.2
    · obtain ⟨t, ht, rfl⟩ := h.refines.used_iff.mp (h.used v cs hv)
      exact hrefines.used_iff.mpr ⟨t, ht.mono hopens.length_le, rfl⟩

theorem Recorded.close (h : Recorded a n) (fd : ℤ) :
    Recorded (a.close fd).2 { n with vfs := (n.vfs.fsClose fd).2 } := by
  refine ⟨(h.refines.fsClose fd).2, ?_, ?_⟩
  · intro t ht
    rw [FileStore.files_close] at ht
    rw [FileStore.nameOf_congr (FileStore.files_close fd a)]
    exact h.made t ht
  · intro v cs hv
    dsimp only
    rw [Vfs.nodes_fsClose]
    exact h.used v cs hv

theorem Reached.recorded (h : Reached fuel n) (hfuel : 512 ≤ fuel) : ∃ a, Recorded a n := by
  induction h with
  | mounted s => exact ⟨.empty, recorded_fresh (Vfs.mounted_refines s).2⟩
  | @openFile n n' path flags ret h hopen ih =>
    obtain ⟨a, ha⟩ := ih
    obtain ⟨ret', a', n'', -, hopen', ha'⟩ := ha.openFile hfuel path flags
    rw [hopen] at hopen'
    cases hopen'
    exact ⟨a', ha'⟩
  | close h fd ih =>
    obtain ⟨a, ha⟩ := ih
    exact ⟨_, ha.close fd⟩

/-! ## Two names, two files -/

/-- The names that the code can tell apart: components that agree after the cut are equal. -/
def Told (cs ds : List (List Byte)) : Prop :=
  (cs.map fun c => c.take 63) = (ds.map fun d => d.take 63) → cs = ds

theorem Recorded.same_vnode_iff (h : Recorded a n) (hfuel : 512 ≤ fuel) {p q : List Byte}
    (hp : n.vfs.Resolves fuel p v) (hq : n.vfs.Resolves fuel q w) :
    (v = w ↔ components p = components q) ↔ Told (components p) (components q) := by
  have hv := h.resolves hfuel hp
  have hw := h.resolves hfuel hq
  have hsame : v = w ↔ cutComponents p = cutComponents q := by
    constructor
    · rintro rfl
      exact hv.unique hw
    · intro hcut
      rw [hcut] at hv
      exact h.vnode_unique hv hw
  rw [hsame]
  constructor
  · intro hiff hcut
    exact hiff.mp hcut
  · intro htold
    exact ⟨htold, fun heq => by rw [cutComponents, cutComponents, heq]⟩

/-- The vnode that an open ends on was made under its path unless an earlier name agrees. -/
theorem Recorded.madeAs_iff {a' : FileStore} {flags : ℕ} {ret : ℤ} (h : Recorded a n)
    (h' : Recorded a' n') (hopen : n.openFile fuel (some path) flags = some (ret, n'))
    (hv : n'.MadeAs v (cutComponents path)) :
    n'.madeAs v = some (components path) ↔
      ∀ i cs, n.madeAs i = some cs → Told cs (components path) := by
  constructor
  · intro hpath i cs hi hcut
    have hkept := madeAs_openFile_of_used hopen (h.used i cs hi)
    rw [hi] at hkept
    obtain rfl : i = v := h'.vnode_unique ⟨cs, hkept, hcut⟩ hv
    rw [hkept] at hpath
    exact some.inj hpath
  · intro htold
    obtain ⟨cs, hcs, hcut⟩ := hv
    cases hused : (n.vfs.nodes.nodes v).used with
    | true => rw [hcs, htold v cs ((madeAs_openFile_of_used hopen hused).symm.trans hcs) hcut]
    | false => exact madeAs_openFile_of_unused hopen hused (h'.used v cs hcs)

/-- After any opens, two paths that resolve name one vnode exactly when they have the same
components, if and only if the code can tell the components apart. Every open returns, and its
descriptor is on a file that was made under the components of its path if and only if the code
can tell them from the components under which every file was made. -/
theorem distinct_names_iff (hfuel : 512 ≤ fuel) (h : Reached fuel n) :
    (∀ p q v w, n.vfs.Resolves fuel p v → n.vfs.Resolves fuel q w →
      ((v = w ↔ components p = components q) ↔ Told (components p) (components q))) ∧
    ∀ path flags, ∃ ret n', n.openFile fuel (some path) flags = some (ret, n') ∧
      (0 ≤ ret → ∃ (fd : FileRef) (v : NodeRef), ret = fd.val ∧ (n'.vfs.fdTable fd).vnode = some v ∧
        (n'.madeAs v = some (components path) ↔
          ∀ i cs, n.madeAs i = some cs → Told cs (components path))) := by
  obtain ⟨a, ha⟩ := h.recorded hfuel
  constructor
  · intro p q v w hp hq
    exact ha.same_vnode_iff hfuel hp hq
  · intro path flags
    obtain ⟨ret, a', n', hopens, hopen, ha'⟩ := ha.openFile hfuel (some path) flags
    refine ⟨ret, n', hopen, ?_⟩
    intro hret
    obtain ⟨fd, t, p, hfd, hhandle, hp, habs, ht, hname⟩ :=
      hopens.granted hret ha.refines.files.distinct
    refine ⟨fd, nodeOf t, hfd, (ha'.refines.opened hhandle).vnode, ?_⟩
    apply ha.madeAs_iff ha' hopen
    obtain rfl : cutPath path = p := some.inj hp
    rw [← components_cutPath ((head?_cutPath path).mp habs), ← hname]
    exact ha'.made t ht

def opened (path : List Byte) : NamedVfs :=
  ((fresh Vfs.atBoot.mounted.2).openFile 512 (some path) nmOCreat).elim
    (fresh Vfs.atBoot.mounted.2) Prod.snd

theorem reached_opened (path : List Byte) : Reached 512 (opened path) := by
  unfold opened
  cases hopen : (fresh Vfs.atBoot.mounted.2).openFile 512 (some path) nmOCreat with
  | none => exact .mounted Vfs.atBoot
  | some r => exact .openFile (.mounted Vfs.atBoot) hopen

theorem opened_resolves :
    (opened [slash, 97]).vfs.Resolves 512 [slash, 97] 1 ∧
      (opened [slash, 97]).vfs.Resolves 512 [slash, slash, 97] 1 :=
  ⟨⟨[97], by decide +kernel⟩, ⟨[97], by decide +kernel⟩⟩

/-- A second slash makes no difference. -/
theorem distinct_names_iff_slashes :
    ((opened [slash, 97]).vfs.Resolves 512 [slash, 97] 1 ∧
      (opened [slash, 97]).vfs.Resolves 512 [slash, slash, 97] 1) ∧
    (((1 : NodeRef) = 1 ↔ components [slash, 97] = components [slash, slash, 97]) ↔
      Told (components [slash, 97]) (components [slash, slash, 97])) :=
  ⟨opened_resolves, (distinct_names_iff (le_refl 512) (reached_opened [slash, 97])).1 [slash, 97]
    [slash, slash, 97] 1 1 opened_resolves.1 opened_resolves.2⟩

def longPath (last : Byte) : List Byte := slash :: (replicate 63 97 ++ [last])

/-- What two opens of one run give: their results, the vnodes of the descriptors 0 and 1, and the
components under which the second vnode was made. -/
structure TwoOpens where
  first : ℤ
  second : ℤ
  firstVnode : Option NodeRef
  secondVnode : Option NodeRef
  madeAs : Option (List (List Byte))
  deriving DecidableEq

def openTwo (first second : List Byte) : Option TwoOpens := do
  let (ret, n) ← (fresh Vfs.atBoot.mounted.2).openFile 512 (some first) nmOCreat
  let (ret', n') ← n.openFile 512 (some second) nmOCreat
  let vnode := (n'.vfs.fdTable 1).vnode
  return ⟨ret, ret', (n'.vfs.fdTable 0).vnode, vnode, vnode.bind n'.madeAs⟩

/-- Two names that differ in their last byte: the second open ends on the file of the first. -/
theorem openTwo_longPath :
    components (longPath 98) ≠ components (longPath 99) ∧
    openTwo (longPath 98) (longPath 99) =
      some ⟨0, 1, some 1, some 1, some (components (longPath 98))⟩ := by
  decide +kernel

end NamedVfs

end NeverMind
