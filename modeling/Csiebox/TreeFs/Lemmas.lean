import Csiebox.TreeFs

namespace Csiebox.TreeFs

open CBytes

section Reads

theorem blocks_flatten (content : Bytes) : (blocks content).flatten = content := by
  induction hn : content.length using Nat.strong_induction_on generalizing content with
  | _ n ih =>
      subst hn
      rw [blocks]
      split_ifs with hlong hempty
      · rw [List.flatten_cons,
          ih (content.drop 4096).length (by rw [List.length_drop]; omega) _ rfl,
          List.take_append_drop]
      · simp [hempty]
      · simp

theorem hashedBytes_data (bss : List Bytes) : hashedBytes (bss.map .data) = some bss.flatten := by
  induction bss with
  | nil => rfl
  | cons bs bss ih => simp [hashedBytes, ih]

variable {fs : TreeFs} {path : Bytes} {content : Bytes}

theorem reads_file (h : (fs.resolve path).bind fs.kind = some (.file content)) :
    Posix.reads fs path = some ((blocks content).map .data) := by
  simp only [Posix.reads, h, Option.bind_some, readsOf]

theorem hashedBytes_file : hashedBytes ((blocks content).map .data) = some content := by
  rw [hashedBytes_data, blocks_flatten]

theorem failed_not_mem_file : ReadResult.failed ∉ (blocks content).map .data := by simp

theorem reads_none (h : (fs.resolve path).bind fs.kind = none) : Posix.reads fs path = none := by
  simp only [Posix.reads, h, Option.bind_none]

end Reads

section Files

theorem contentOf_setKind (fs : TreeFs) (i : Nat) (content : Bytes) :
    (fs.setKind i (.file content)).contentOf i = content := by
  simp [contentOf, setKind]

theorem contentOf_fwrite (fs : TreeFs) (fp : Nat) (bs : Bytes) :
    (Posix.fwrite fs fp bs).contentOf fp = fs.contentOf fp ++ bs :=
  contentOf_setKind fs fp _

end Files

section Resolve

variable {fs fs' : TreeFs}

-- Only the directories decide where a path leads.
theorem walk_congr (hdir : ∀ q, fs'.isDir q = fs.isDir q) (cur : Path) (cs : List Bytes) :
    fs'.walk cur cs = fs.walk cur cs := by
  induction cs generalizing cur with
  | nil => rfl
  | cons c cs ih => simp only [walk, hdir, ih]

theorem resolve_congr (hcwd : fs'.cwd = fs.cwd) (hdir : ∀ q, fs'.isDir q = fs.isDir q)
    (path : Bytes) : fs'.resolve path = fs.resolve path := by
  rw [resolve, resolve, hcwd, walk_congr hdir]

end Resolve

section Store

variable (fs : TreeFs)

-- The numbers of the existing entries are given away.
def Allocated : Prop := ∀ e ∈ fs.entries, e.2 < fs.nextInode

instance : Decidable fs.Allocated := inferInstanceAs (Decidable (∀ e ∈ fs.entries, _))

-- What is found under a path string.
def inodeAt (path : Bytes) : Option Inode := (fs.resolve path).bind fs.inode

variable {fs} {p : Path} {i : Nat} {content : Bytes}

theorem lookup_allocated (hfs : fs.Allocated) {q : Path} {j : Nat} (h : fs.entries.lookup q = some j) :
    j < fs.nextInode := by
  obtain ⟨l₁, l₂, hsplit, -⟩ := List.lookup_eq_some_iff.mp h
  exact hfs (q, j) (by rw [hsplit]; simp)

theorem isDir_lookup (fs : TreeFs) {q : Path} (hq : q ≠ []) :
    fs.isDir q = (((fs.entries.lookup q).map fun j => (fs.inodes j).kind) == some .dir) := by
  rw [isDir, kind, inode, if_neg hq, Option.map_map]
  rfl

theorem isDir_root (fs : TreeFs) : fs.isDir [] = true := rfl

-- A file stays a file, whatever is written to it.
theorem isDir_setKind {old : Bytes} (hfile : (fs.inodes i).kind = .file old) (q : Path) :
    (fs.setKind i (.file content)).isDir q = fs.isDir q := by
  by_cases hq : q = []
  · rw [hq, isDir_root, isDir_root]
  · rw [isDir_lookup _ hq, isDir_lookup _ hq]
    simp only [setKind]
    cases fs.entries.lookup q with
    | none => rfl
    | some j =>
        by_cases hj : j = i
        · subst hj
          simp [hfile]
        · simp [Function.update_of_ne hj]

-- What is made is no directory.
theorem isDir_create (hfs : fs.Allocated) {kind : Kind} (hkind : kind ≠ .dir) (q : Path) :
    (fs.create p kind).isDir q = fs.isDir q := by
  by_cases hq : q = []
  · rw [hq, isDir_root, isDir_root]
  · rw [isDir_lookup _ hq, isDir_lookup _ hq]
    simp only [create, enter, List.lookup_append]
    cases hlookup : fs.entries.lookup q with
    | none =>
        by_cases hqp : q = p
        · simp [hqp, hkind]
        · simp [List.lookup_cons, beq_false_of_ne hqp]
    | some j =>
        have hj := lookup_allocated hfs hlookup
        simp [Function.update_of_ne hj.ne]

theorem isDir_times (fs : TreeFs) (i : Nat) (atime mtime : Int) (q : Path) :
    { fs with inodes := Function.update fs.inodes i { fs.inodes i with atime, mtime } }.isDir q =
      fs.isDir q := by
  by_cases hq : q = []
  · rw [hq, isDir_root, isDir_root]
  · rw [isDir_lookup _ hq, isDir_lookup _ hq]
    cases fs.entries.lookup q with
    | none => rfl
    | some j =>
        by_cases hj : j = i
        · subst hj
          simp
        · simp [Function.update_of_ne hj]

theorem setKind_self {k : Kind} (h : (fs.inodes i).kind = k) : fs.setKind i k = fs := by
  have hinode : { fs.inodes i with kind := k } = fs.inodes i := by rw [← h]
  rw [setKind, hinode, Function.update_eq_self]

-- The inode an opened file is written to.
theorem openAt_spec (hfs : fs.Allocated) {prior : Option Bytes}
    (hkind : fs.kind p = prior.map .file) :
    ∃ (i : Nat) (g : TreeFs), fs.openAt p = some (i, g.setKind i (.file [])) ∧ g.cwd = fs.cwd ∧
      (∀ q, g.isDir q = fs.isDir q) ∧ g.entries.lookup p = some i ∧
      (∃ old, (g.inodes i).kind = .file old) ∧
      ∀ content, prior = some content → g.setKind i (.file content) = fs := by
  have hne : p ≠ [] := by
    rintro rfl
    cases prior <;> simp [kind, inode] at hkind
  have hlookup : fs.kind p = (fs.entries.lookup p).map fun j => (fs.inodes j).kind := by
    rw [kind, inode, if_neg hne, Option.map_map]
    rfl
  rw [openAt]
  cases prior with
  | some old =>
      rw [hkind] at hlookup ⊢
      obtain ⟨i, hi, hold⟩ := Option.map_eq_some_iff.mp hlookup.symm
      refine ⟨i, fs, by simp [hi], rfl, fun _ => rfl, hi, ⟨old, hold⟩, ?_⟩
      rintro content hcontent
      obtain rfl := Option.some.inj hcontent
      exact setKind_self hold
  | none =>
      rw [hkind] at hlookup ⊢
      have hfree := Option.map_eq_none_iff.mp hlookup.symm
      refine ⟨fs.nextInode, fs.create p (.file []), ?_, rfl, isDir_create hfs (by simp), ?_, ⟨[], ?_⟩, ?_⟩
      · simp only [Option.map_none]
        rw [setKind_self (by simp [create])]
      · simp [create, enter, List.lookup_append, hfree]
      · simp [create]
      · simp

theorem allocated_openAt (hfs : fs.Allocated) {g : TreeFs} (hopen : fs.openAt p = some (i, g)) :
    g.Allocated := by
  unfold openAt at hopen
  split at hopen
  · obtain ⟨j, -, heq⟩ := Option.map_eq_some_iff.mp hopen
    obtain ⟨rfl, rfl⟩ := Prod.mk.inj heq
    exact hfs
  · simp at hopen
  · obtain ⟨rfl, rfl⟩ := Prod.mk.inj (Option.some.inj hopen)
    intro e he
    obtain hold | hnew := List.mem_append.mp he
    · exact Nat.lt_succ_of_lt (hfs e hold)
    · rw [List.mem_singleton.mp hnew]
      exact Nat.lt_succ_self _

theorem utimeAt_spec (hlookup : fs.entries.lookup p = some i) (hne : p ≠ []) (atime mtime : Int) :
    (fs.utimeAt p atime mtime).2.cwd = fs.cwd ∧
      (∀ q, (fs.utimeAt p atime mtime).2.isDir q = fs.isDir q) ∧
      (fs.utimeAt p atime mtime).2.inode p = some { fs.inodes i with atime, mtime } := by
  have hutime : (fs.utimeAt p atime mtime).2 =
      { fs with inodes := Function.update fs.inodes i { fs.inodes i with atime, mtime } } := by
    rw [utimeAt, hlookup]
  rw [hutime]
  refine ⟨rfl, isDir_times fs i atime mtime, ?_⟩
  simp [inode, hne, hlookup]

theorem kind_create (hfree : fs.kind p = none) (kind : Kind) : (fs.create p kind).kind p = some kind := by
  have hne : p ≠ [] := by
    rintro rfl
    simp [TreeFs.kind, inode] at hfree
  have hlookup : fs.entries.lookup p = none := by
    rw [TreeFs.kind, inode, if_neg hne] at hfree
    simpa using hfree
  simp [create, enter, TreeFs.kind, inode, hne, List.lookup_append, hlookup]

-- `utime` changes no kind.
theorem kind_times (fs : TreeFs) (i : Nat) (atime mtime : Int) (q : Path) :
    { fs with inodes := Function.update fs.inodes i { fs.inodes i with atime, mtime } }.kind q =
      fs.kind q := by
  by_cases hq : q = []
  · rw [hq]
    rfl
  · rw [kind, kind, inode, inode, if_neg hq, if_neg hq, Option.map_map, Option.map_map]
    cases fs.entries.lookup q with
    | none => rfl
    | some j =>
        by_cases hj : j = i
        · subst hj
          simp
        · simp [Function.update_of_ne hj]

-- What kind of thing a path string leads to.
def kindAt (fs : TreeFs) (path : Bytes) : Option Kind := (fs.resolve path).bind fs.kind

theorem kindAt_utime (fs : TreeFs) (path filepath : Bytes) (atime mtime : Int) :
    (Posix.utime fs filepath atime mtime).2.kindAt path = fs.kindAt path := by
  cases hresolve : fs.resolve filepath with
  | none => simp [Posix.utime, changeAt, hresolve]
  | some q =>
      cases hlookup : fs.entries.lookup q with
      | none => simp [Posix.utime, changeAt, hresolve, utimeAt, hlookup]
      | some i =>
          simp only [Posix.utime, changeAt, hresolve, utimeAt, hlookup]
          have hsame := @resolve_congr fs
            { fs with inodes := Function.update fs.inodes i { fs.inodes i with atime, mtime } }
            rfl (isDir_times fs i atime mtime) path
          rw [kindAt, kindAt, hsame]
          exact Option.bind_congr fun q _ => kind_times fs i atime mtime q

theorem isFree_eq (fs : TreeFs) (p : Path) : fs.isFree p = (fs.kind p).isNone := by
  rw [isFree, kind, Option.isNone_map]

-- A link is made only where nothing is.
theorem kindAt_symlink (hfs : fs.Allocated) (target path : Bytes) :
    (Posix.symlink fs target path).2.kindAt path =
      if fs.kindAt path = none ∧ (fs.resolve path).isSome then some (.link target) else fs.kindAt path := by
  cases hresolve : fs.resolve path with
  | none => simp [Posix.symlink, changeAt, kindAt, hresolve]
  | some p =>
      have hkind : fs.kindAt path = fs.kind p := by simp [kindAt, hresolve]
      rw [hkind]
      simp only [Posix.symlink, changeAt, hresolve, symlinkAt, isFree_eq]
      cases hp : fs.kind p with
      | none =>
          have hsame := @resolve_congr fs (fs.create p (.link target)) rfl (isDir_create hfs (by simp)) path
          simp [kindAt, hsame, hresolve, kind_create hp]
      | some k => simp [hkind, hp]

end Store

end Csiebox.TreeFs

namespace Csiebox

theorem validName_letter {c : UInt8} (hslash : c ≠ slash) (hdot : c ≠ dot) (hnul : c ≠ 0) :
    ValidName [c] := by
  refine ⟨by simp, by simpa using hdot, by simp, by simpa using hslash.symm, ?_⟩
  simpa using hnul

-- The names of the examples: "a", "b", "f", "g", "s" and "u".
theorem validName_a : ValidName [0x61] :=
  validName_letter (by decide) (by decide) (by decide)

theorem validName_b : ValidName [0x62] :=
  validName_letter (by decide) (by decide) (by decide)

theorem validName_f : ValidName [0x66] :=
  validName_letter (by decide) (by decide) (by decide)

theorem validName_g : ValidName [0x67] :=
  validName_letter (by decide) (by decide) (by decide)

theorem validName_s : ValidName [0x73] :=
  validName_letter (by decide) (by decide) (by decide)

theorem validName_u : ValidName [0x75] :=
  validName_letter (by decide) (by decide) (by decide)

-- The paths with their inodes in order, and a process that uses this system.
def exampleFs (entries : List Path) (kind : Nat → Kind) : TreeFs where
  cwd := []
  entries := entries.zipIdx
  inodes i := { kind := kind i, atime := 0, mtime := 0 }
  nextInode := entries.length
  watches := []
  nextWd := 1
  events := []

def exampleHost (fs : TreeFs) : Host TreeFs where
  fs
  garbage _ _ := 0xaa
  locals := 0
  notices := []

end Csiebox
