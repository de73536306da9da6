import Csiebox.Server.Lemmas
import Csiebox.TreeFs.Lemmas

namespace Csiebox.Session

open CBytes

section Files

-- A regular file, and whether the server may read it and may set its times.
structure Stored where
  content : Bytes
  readable : Bool
  owned : Bool
deriving DecidableEq

-- What a path leads to.
inductive Found where
  | nothing
  | file (stored : Stored)
  | other
deriving DecidableEq

def Found.content : Found → Option Bytes
  | .file stored => some stored.content
  | _ => none

def Found.ofPrior (prior : Option Stored) : Found := prior.elim .nothing .file

-- What POSIX says of regular files, for the calls that serve a request: `found` is where a
-- path leads to, through links and directories of any kind, and `writing` says of a handle
-- which file it has open. Opening, reading and setting the times may be refused.
structure Files (G : Type) [Posix G] where
  sound : G → Prop
  found : G → Bytes → Found
  times : G → Bytes → Int × Int
  writing : G → Nat → Bytes → Stored → Prop
  reads_nothing : ∀ {g path}, sound g → found g path = .nothing → Posix.reads g path = none
  reads_file : ∀ {g path old}, sound g → found g path = .file old → old.readable = true →
    ∃ rs, Posix.reads g path = some rs ∧ hashedBytes rs = some old.content
  reads_refused : ∀ {g path old}, sound g → found g path = .file old → old.readable = false →
    Posix.reads g path = none
  creates : ∀ {g path fp g'}, sound g → found g path = .nothing → Posix.fopenWrite g path = some (fp, g') →
    writing g' fp path { content := [], readable := true, owned := true }
  empties : ∀ {g path fp g' old}, sound g → found g path = .file old →
    Posix.fopenWrite g path = some (fp, g') → writing g' fp path { old with content := [] }
  writes : ∀ {g fp path file}, writing g fp path file → ∀ bs,
    writing (Posix.fwrite g fp bs) fp path { file with content := file.content ++ bs }
  shows : ∀ {g fp path file}, writing g fp path file → found g path = .file file
  locks : ∀ {g fp path file}, writing g fp path file → ∀ fl, writing (Posix.setlk g fp fl).2 fp path file
  closes : ∀ {g fp path file}, writing g fp path file →
    sound (Posix.fclose g fp) ∧ found (Posix.fclose g fp) path = .file file
  touches : ∀ {g path old}, sound g → found g path = .file old → ∀ atime mtime,
    sound (Posix.utime g path atime mtime).2 ∧ found (Posix.utime g path atime mtime).2 path = .file old
  sets : ∀ {g path old}, sound g → found g path = .file old → old.owned = true → ∀ atime mtime,
    times (Posix.utime g path atime mtime).2 path = (atime, mtime)
  keeps : ∀ {g path old}, sound g → found g path = .file old → old.owned = false → ∀ atime mtime,
    times (Posix.utime g path atime mtime).2 path = times g path

variable {G : Type} [Posix G] {files : Files G} {g : G} {fp : Nat} {path : Bytes} {file : Stored}

theorem Files.writeChunks (h : files.writing g fp path file) (chunks : List Bytes) :
    files.writing (writeChunks g fp chunks) fp path { file with content := file.content ++
      chunks.flatten } := by
  induction chunks generalizing g file with
  | nil => simpa [Csiebox.writeChunks] using h
  | cons bs chunks ih =>
      have hnext := ih (files.writes h bs)
      rw [List.append_assoc] at hnext
      exact hnext

-- The transfer into an emptied file.
theorem Files.store (file : Stored) (h : files.writing g fp path { file with content := [] })
    (content : Bytes) :
    files.sound (storeFile g fp content) ∧
      files.found (storeFile g fp content) path = .file { file with content } := by
  have hwritten := Files.writeChunks (files.locks h
    { Posix.getlk g fp Flock.zero with type := .wrlck, start := 0, len := 0 }) (chunksOf N content)
  rw [chunksOf_flatten, List.nil_append] at hwritten
  exact files.closes (files.locks hwritten _)

-- A file where the server had none is its own.
def Stored.of (prior : Option Stored) (content : Bytes) : Stored :=
  prior.elim { content, readable := true, owned := true } fun old => { old with content }

theorem Files.opened {prior : Option Stored} {g' : G} (hsound : files.sound g)
    (hprior : files.found g path = .ofPrior prior) (hopen : Posix.fopenWrite g path = some (fp, g'))
    (content : Bytes) :
    files.sound (storeFile g' fp content) ∧
      files.found (storeFile g' fp content) path = .file (.of prior content) := by
  cases prior with
  | none =>
      have hwriting : files.writing g' fp path { content := [], readable := true, owned := true } :=
        files.creates hsound hprior hopen
      exact Files.store { content := [], readable := true, owned := true } hwriting content
  | some old => exact Files.store old (files.empties hsound hprior hopen) content

-- What `md5_file` makes of what is there.
def priorHash (md5 : Bytes → Mem 16) : Option Stored → Bytes
  | some old => if old.readable then (md5 old.content).val else zeros 16
  | none => zeros 16

theorem Files.status {prior : Option Stored} (hsound : files.sound g)
    (hprior : files.found g path = .ofPrior prior) (md5 : Bytes → Mem 16) {st : Bytes}
    (hreg : sIsReg (stMode st) = true) (hash : Bytes) :
    statusOf md5 g path st hash =
      some (if hash = priorHash md5 prior then statusOk else statusMore) := by
  simp only [statusOf, not_dir_of_reg hreg, not_lnk_of_reg hreg, hreg, Bool.false_eq_true, if_false,
    if_true]
  cases prior with
  | none => rw [files.reads_nothing hsound hprior, priorHash]
  | some old =>
      cases hread : old.readable with
      | true =>
          obtain ⟨rs, hreads, hbytes⟩ := files.reads_file hsound hprior hread
          simp [hreads, hbytes, priorHash, hread]
      | false =>
          rw [files.reads_refused hsound hprior hread]
          simp [priorHash, hread]

end Files

section Links

-- What a path leads to if a link at its end is not followed.
inductive Entry where
  | nothing
  | link (target : Bytes)
  | other
deriving DecidableEq

def Entry.ofPrior (prior : Option Bytes) : Entry := prior.elim .nothing .link

-- What POSIX says of symbolic links: one is made only where nothing is, and only if the
-- directory allows it.
structure LinkFiles (G : Type) [Posix G] where
  sound : G → Prop
  entry : G → Bytes → Entry
  readlink_nothing : ∀ {g path}, sound g → entry g path = .nothing → ∀ n, Posix.readlink g path n = none
  readlink_link : ∀ {g path target}, sound g → entry g path = .link target → ∀ n,
    Posix.readlink g path n = some (target.take n)
  makes : ∀ {g path}, sound g → entry g path = .nothing → ∀ target,
    entry (Posix.symlink g target path).2 path =
      if (Posix.symlink g target path).1 = true then .link target else .nothing
  exists_already : ∀ {g path old}, sound g → entry g path = .link old → ∀ target,
    entry (Posix.symlink g target path).2 path = .link old
  utime_entry : ∀ (g : G) path atime mtime, entry (Posix.utime g path atime mtime).2 path = entry g path

end Links

section Memory

open TreeFs

variable {fs : TreeFs} {path : Bytes} {fp : Nat}

-- In the file system in memory every call is permitted.
def treeFound (fs : TreeFs) (path : Bytes) : Found :=
  match fs.kindAt path with
  | none => .nothing
  | some (.file content) => .file { content, readable := true, owned := true }
  | some _ => .other

def treeTimes (fs : TreeFs) (path : Bytes) : Int × Int :=
  ((fs.inodeAt path).map fun inode => (inode.atime, inode.mtime)).getD (0, 0)

theorem treeFound_prior {old : Option Bytes} (h : fs.kindAt path = old.map .file) :
    treeFound fs path = .ofPrior (old.map fun content => { content, readable := true, owned := true }) := by
  rw [treeFound, h]
  cases old <;> rfl

structure TreeWriting (fs : TreeFs) (fp : Nat) (path : Bytes) (file : Stored) : Prop where
  allocated : fs.Allocated
  permitted : file.readable = true ∧ file.owned = true
  opened : ∃ p, fs.resolve path = some p ∧ p ≠ [] ∧ fs.entries.lookup p = some fp
  kind : (fs.inodes fp).kind = .file file.content

theorem treeFound_nothing (h : treeFound fs path = .nothing) : fs.kindAt path = none := by
  unfold treeFound at h
  split at h
  · assumption
  · simp at h
  · simp at h

theorem treeFound_file {old : Stored} (h : treeFound fs path = .file old) :
    fs.kindAt path = some (.file old.content) ∧ old.readable = true ∧ old.owned = true := by
  unfold treeFound at h
  split at h
  · simp at h
  · rename_i content hkind
    obtain rfl := Found.file.inj h
    exact ⟨hkind, rfl, rfl⟩
  · simp at h

theorem treeFound_of_kind {old : Stored} (h : fs.kindAt path = some (.file old.content))
    (hpermitted : old.readable = true ∧ old.owned = true) : treeFound fs path = .file old := by
  obtain ⟨content, readable, owned⟩ := old
  obtain ⟨rfl, rfl⟩ := hpermitted
  simp only [treeFound, h]

theorem TreeWriting.setKind {old : Stored} (h : TreeWriting fs fp path old) (content : Bytes) :
    TreeWriting (fs.setKind fp (.file content)) fp path { old with content } where
  allocated := h.allocated
  permitted := h.permitted
  opened := by
    obtain ⟨p, hresolve, hne, hlookup⟩ := h.opened
    exact ⟨p, (resolve_congr (by rfl) (isDir_setKind h.kind) path).trans hresolve, hne, hlookup⟩
  kind := by simp [TreeFs.setKind]

theorem treeWriting_open (prior : Option Bytes) (hfs : fs.Allocated)
    (hkind : fs.kindAt path = prior.map .file)
    {g : TreeFs} (hopen : Posix.fopenWrite fs path = some (fp, g)) :
    TreeWriting g fp path { content := [], readable := true, owned := true } := by
  obtain ⟨p, hresolve, hat⟩ : ∃ p, fs.resolve path = some p ∧ fs.openAt p = some (fp, g) :=
    Option.bind_eq_some_iff.mp hopen
  have hp : fs.kind p = prior.map .file := by
    rw [← hkind, kindAt, hresolve, Option.bind_some]
  obtain ⟨i, g', hopenAt, hcwd, hdir, hlookup, ⟨old, hold⟩, -⟩ := openAt_spec hfs hp
  have hallocated : (g'.setKind i (.file [])).Allocated := allocated_openAt hfs hopenAt
  obtain ⟨rfl, rfl⟩ := Prod.mk.inj (Option.some.inj (hat.symm.trans hopenAt))
  have hne : p ≠ [] := by
    rintro rfl
    cases prior <;> simp [TreeFs.kind, TreeFs.inode] at hp
  refine ⟨hallocated, ⟨rfl, rfl⟩, ⟨p, ?_, hne, hlookup⟩, by simp [TreeFs.setKind]⟩
  rw [resolve_congr (by rfl) (isDir_setKind hold) path, resolve_congr hcwd hdir, hresolve]

theorem treeWriting_fwrite {file : Stored} (h : TreeWriting fs fp path file) (bs : Bytes) :
    TreeWriting (Posix.fwrite fs fp bs) fp path { file with content := file.content ++ bs } := by
  have hwrite : Posix.fwrite fs fp bs = fs.setKind fp (.file (file.content ++ bs)) := by
    simp [Posix.fwrite, contentOf, h.kind]
  rw [hwrite]
  exact h.setKind (file.content ++ bs)

theorem treeWriting_found {file : Stored} (h : TreeWriting fs fp path file) :
    treeFound fs path = .file file := by
  obtain ⟨p, hresolve, hne, hlookup⟩ := h.opened
  refine treeFound_of_kind ?_ h.permitted
  simp [kindAt, hresolve, TreeFs.kind, TreeFs.inode, hne, hlookup, h.kind]

theorem treeFs_reads_nothing (h : treeFound fs path = .nothing) : Posix.reads fs path = none :=
  reads_none (treeFound_nothing h)

theorem treeFs_reads_file {old : Stored} (h : treeFound fs path = .file old) :
    ∃ rs, Posix.reads fs path = some rs ∧ hashedBytes rs = some old.content :=
  ⟨_, reads_file (treeFound_file h).1, hashedBytes_file⟩

theorem allocated_utime (hfs : fs.Allocated) (atime mtime : Int) :
    (Posix.utime fs path atime mtime).2.Allocated := by
  simp only [Posix.utime, changeAt]
  split
  · exact hfs
  · unfold utimeAt
    split
    · exact hfs
    · exact hfs

theorem treeFound_utime (fs : TreeFs) (path : Bytes) (atime mtime : Int) :
    treeFound (Posix.utime fs path atime mtime).2 path = treeFound fs path := by
  rw [treeFound, treeFound, kindAt_utime]

theorem treeTimes_utime {old : Stored} (h : treeFound fs path = .file old) (atime mtime : Int) :
    treeTimes (Posix.utime fs path atime mtime).2 path = (atime, mtime) := by
  obtain ⟨p, hresolve, hkind⟩ := Option.bind_eq_some_iff.mp (treeFound_file h).1
  obtain ⟨inode, hinode, hfile⟩ := Option.map_eq_some_iff.mp hkind
  have hne : p ≠ [] := by
    rintro rfl
    obtain rfl := Option.some.inj hinode
    simp at hfile
  rw [TreeFs.inode, if_neg hne] at hinode
  obtain ⟨i, hlookup, rfl⟩ := Option.map_eq_some_iff.mp hinode
  have hutime : (Posix.utime fs path atime mtime).2 = (fs.utimeAt p atime mtime).2 := by
    simp [Posix.utime, changeAt, hresolve]
  obtain ⟨hcwd, hdir, htimes⟩ := utimeAt_spec hlookup hne atime mtime
  simp [treeTimes, hutime, inodeAt, resolve_congr hcwd hdir, hresolve, htimes]

theorem treeFs_creates {g : TreeFs} (hfs : fs.Allocated) (h : treeFound fs path = .nothing)
    (hopen : Posix.fopenWrite fs path = some (fp, g)) :
    TreeWriting g fp path { content := [], readable := true, owned := true } :=
  treeWriting_open none hfs (treeFound_nothing h) hopen

theorem treeFs_empties {g : TreeFs} {old : Stored} (hfs : fs.Allocated) (h : treeFound fs path = .file old)
    (hopen : Posix.fopenWrite fs path = some (fp, g)) :
    TreeWriting g fp path { old with content := [] } := by
  obtain ⟨hkind, hread, hown⟩ := treeFound_file h
  have hnew := treeWriting_open (some old.content) hfs hkind hopen
  exact { hnew with permitted := ⟨hread, hown⟩ }

theorem treeFs_refuses_nothing {old : Stored} {P : Prop} (h : treeFound fs path = .file old)
    (hrefused : old.readable = false ∨ old.owned = false) : P := by
  obtain ⟨-, hread, hown⟩ := treeFound_file h
  simp [hread, hown] at hrefused

def treeFiles : Files TreeFs where
  sound := TreeFs.Allocated
  found := treeFound
  times := treeTimes
  writing := TreeWriting
  reads_nothing := fun _ h => treeFs_reads_nothing h
  reads_file := fun _ h _ => treeFs_reads_file h
  reads_refused := fun _ h hread => treeFs_refuses_nothing h (.inl hread)
  creates := treeFs_creates
  empties := treeFs_empties
  writes := treeWriting_fwrite
  shows := treeWriting_found
  locks := fun h _ => h
  closes := fun h => ⟨h.allocated, treeWriting_found h⟩
  touches := fun hfs h atime mtime =>
    ⟨allocated_utime hfs atime mtime, (treeFound_utime _ _ atime mtime).trans h⟩
  sets := fun _ h _ => treeTimes_utime h
  keeps := fun _ h hown => treeFs_refuses_nothing h (.inr hown)

theorem treeFiles_found (fs : TreeFs) (path : Bytes) : treeFiles.found fs path = treeFound fs path := rfl

def treeEntry (fs : TreeFs) (path : Bytes) : Entry :=
  match fs.kindAt path with
  | none => .nothing
  | some (.link target) => .link target
  | some _ => .other

theorem treeEntry_nothing : treeEntry fs path = .nothing ↔ fs.kindAt path = none := by
  unfold treeEntry
  split <;> simp_all

theorem treeEntry_link {target : Bytes} :
    treeEntry fs path = .link target ↔ fs.kindAt path = some (.link target) := by
  unfold treeEntry
  split <;> simp_all

theorem treeFs_readlink_nothing (h : treeEntry fs path = .nothing) (n : Nat) :
    Posix.readlink fs path n = none := by
  have hkind : (fs.resolve path).bind fs.kind = none := treeEntry_nothing.mp h
  simp [Posix.readlink, hkind]

theorem treeFs_readlink_link {target : Bytes} (h : treeEntry fs path = .link target) (n : Nat) :
    Posix.readlink fs path n = some (target.take n) := by
  have hkind : (fs.resolve path).bind fs.kind = some (.link target) := treeEntry_link.mp h
  simp [Posix.readlink, hkind]

theorem symlink_made (h : fs.kindAt path = none) (target : Bytes) :
    (Posix.symlink fs target path).1 = (fs.resolve path).isSome := by
  cases hresolve : fs.resolve path with
  | none => simp [Posix.symlink, changeAt, hresolve]
  | some p =>
      have hfree : fs.kind p = none := by
        rw [← h, kindAt, hresolve, Option.bind_some]
      simp [Posix.symlink, changeAt, hresolve, symlinkAt, isFree_eq, hfree]

theorem treeFs_makes (hfs : fs.Allocated) (h : treeEntry fs path = .nothing) (target : Bytes) :
    treeEntry (Posix.symlink fs target path).2 path =
      if (Posix.symlink fs target path).1 = true then .link target else .nothing := by
  have hnone := treeEntry_nothing.mp h
  have hkind := kindAt_symlink hfs target path
  rw [symlink_made hnone]
  simp only [hnone, true_and] at hkind
  split_ifs with hdirectory
  · rw [if_pos hdirectory] at hkind
    exact treeEntry_link.mpr hkind
  · rw [if_neg hdirectory] at hkind
    exact treeEntry_nothing.mpr hkind

theorem treeFs_exists {old : Bytes} (hfs : fs.Allocated) (h : treeEntry fs path = .link old)
    (target : Bytes) :
    treeEntry (Posix.symlink fs target path).2 path = .link old := by
  have hold := treeEntry_link.mp h
  have hkind := kindAt_symlink hfs target path
  rw [hold, if_neg (by simp)] at hkind
  exact treeEntry_link.mpr hkind

theorem treeEntry_utime (fs : TreeFs) (path : Bytes) (atime mtime : Int) :
    treeEntry (Posix.utime fs path atime mtime).2 path = treeEntry fs path := by
  rw [treeEntry, treeEntry, kindAt_utime]

def treeLinks : LinkFiles TreeFs where
  sound := TreeFs.Allocated
  entry := treeEntry
  readlink_nothing := fun _ h n => treeFs_readlink_nothing h n
  readlink_link := fun _ h n => treeFs_readlink_link h n
  makes := treeFs_makes
  exists_already := treeFs_exists
  utime_entry := treeEntry_utime

end Memory

end Csiebox.Session
