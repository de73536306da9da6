import Csiebox.Server

namespace Csiebox

open CBytes

-- What an entry of a directory can be called.
def ValidName (bs : Bytes) : Prop :=
  bs ≠ [] ∧ bs ≠ [dot] ∧ bs ≠ [dot, dot] ∧ slash ∉ bs ∧ ∀ b ∈ bs, b ≠ 0

instance (bs : Bytes) : Decidable (ValidName bs) :=
  inferInstanceAs (Decidable (_ ∧ _ ∧ _ ∧ _ ∧ _))

abbrev Name := { bs : Bytes // ValidName bs }

theorem Name.noNul (name : Name) : ∀ b ∈ name.val, b ≠ 0 := name.property.2.2.2.2

theorem dot_noNul : ∀ b ∈ [dot], b ≠ 0 := by simp [dot]

theorem dots_noNul : ∀ b ∈ [dot, dot], b ≠ 0 := by simp [dot]

-- A path from the root, as its components.
abbrev Path := List Name

inductive Kind where
  | dir
  | file (content : Bytes)
  | link (target : Bytes)
deriving DecidableEq

structure Inode where
  kind : Kind
  atime : Int
  mtime : Int
deriving DecidableEq

-- The name is empty where the event is about the watched directory itself.
structure Event where
  wd : Nat
  mask : Nat
  name : Bytes
deriving DecidableEq

-- A file system in memory, with the inotify instance of the process that uses it.
-- The order of `entries` is the order in which directories are read.
structure TreeFs where
  cwd : Path
  entries : List (Path × Nat)
  inodes : Nat → Inode
  nextInode : Nat
  watches : List (Nat × Path)
  nextWd : Nat
  events : List Event

namespace TreeFs

section Paths

-- The parts of a path string between its slashes.
def components : Bytes → List Bytes
  | [] => [[]]
  | b :: bs =>
      if b = slash then [] :: components bs
      else match components bs with
        | [] => [[b]]
        | c :: cs => (b :: c) :: cs

variable (fs : TreeFs)

def inode (p : Path) : Option Inode :=
  if p = [] then some { kind := .dir, atime := 0, mtime := 0 }
  else (fs.entries.lookup p).map fs.inodes

def kind (p : Path) : Option Kind := (fs.inode p).map Inode.kind

def isDir (p : Path) : Bool := fs.kind p == some .dir

-- Symbolic links inside a path are not followed.
def walk : Path → List Bytes → Option Path
  | cur, [] => some cur
  | cur, c :: cs =>
      if !fs.isDir cur then none
      else if c = [] ∨ c = [dot] then walk cur cs
      else if c = [dot, dot] then walk cur.dropLast cs
      else if h : ValidName c then walk (cur ++ [⟨c, h⟩]) cs
      else none

def resolve (path : Bytes) : Option Path :=
  fs.walk (if path.head? = some slash then [] else fs.cwd) (components path)

def children (p : Path) : List Dirent :=
  fs.entries.filterMap fun (q, i) =>
    if q ≠ [] ∧ q.dropLast = p then
      q.getLast?.map fun name =>
        { name := ⟨name.val, Name.noNul name⟩, isDir := (fs.inodes i).kind == .dir }
    else none

end Paths

section Stat

def modeOf : Kind → Nat
  | .dir => 0o040755
  | .file _ => 0o100644
  | .link _ => 0o120777

def sizeOf : Kind → Nat
  | .dir => 4096
  | .file content => content.length
  | .link target => target.length

def mkStat (ino nlink : Nat) (inode : Inode) : Mem 144 :=
  ⟨leBytes 8 0 ++ (leBytes 8 ino ++ (leBytes 8 nlink ++ (leBytes 4 (modeOf inode.kind) ++ (zeros 20 ++
    (leBytes 8 (sizeOf inode.kind) ++ (zeros 16 ++ (leBytes 8 (inode.atime % 2 ^ 64).toNat ++
    (leBytes 8 0 ++ (leBytes 8 (inode.mtime % 2 ^ 64).toNat ++ zeros 48))))))))), by simp⟩

-- Directories are given the link count of an empty one.
def nlink (fs : TreeFs) (p : Path) : Nat :=
  if fs.isDir p then 2 else fs.entries.countP fun e => some e.2 == fs.entries.lookup p

def stat (fs : TreeFs) (p : Path) : Option (Mem 144) :=
  (fs.inode p).map (mkStat ((fs.entries.lookup p).getD 0) (fs.nlink p))

end Stat

section Changes

variable (fs : TreeFs)

-- A new entry for an absent path; the inode is `i`.
def enter (p : Path) (i : Nat) : TreeFs := { fs with entries := fs.entries ++ [(p, i)] }

def create (p : Path) (kind : Kind) : TreeFs :=
  { fs.enter p fs.nextInode with
    inodes := Function.update fs.inodes fs.nextInode { kind, atime := 0, mtime := 0 }
    nextInode := fs.nextInode + 1 }

def setKind (i : Nat) (kind : Kind) : TreeFs :=
  { fs with inodes := Function.update fs.inodes i { fs.inodes i with kind } }

def contentOf (i : Nat) : Bytes :=
  match (fs.inodes i).kind with
  | .file content => content
  | _ => []

def erase (p : Path) : TreeFs := { fs with entries := fs.entries.filter fun e => e.1 ≠ p }

def isFree (p : Path) : Bool := (fs.inode p).isNone

def isEmptyDir (p : Path) : Bool := (fs.children p).isEmpty

def mkdirAt (p : Path) : Bool × TreeFs :=
  if fs.isFree p then (true, fs.create p .dir) else (false, fs)

def symlinkAt (target : Bytes) (p : Path) : Bool × TreeFs :=
  if fs.isFree p then (true, fs.create p (.link target)) else (false, fs)

def linkAt (old new : Path) : Bool × TreeFs :=
  match fs.entries.lookup old with
  | some i => if !fs.isDir old && fs.isFree new then (true, fs.enter new i) else (false, fs)
  | none => (false, fs)

def removeAt (p : Path) : Bool × TreeFs :=
  if p = [] ∨ fs.isFree p ∨ (fs.isDir p ∧ ¬fs.isEmptyDir p) then (false, fs)
  else (true, fs.erase p)

def utimeAt (p : Path) (atime mtime : Int) : Bool × TreeFs :=
  match fs.entries.lookup p with
  | some i =>
      (true, { fs with inodes := Function.update fs.inodes i { fs.inodes i with atime, mtime } })
  | none => (false, fs)

def openAt (p : Path) : Option (Nat × TreeFs) :=
  match fs.kind p with
  | some (.file _) => (fs.entries.lookup p).map fun i => (i, fs.setKind i (.file []))
  | some _ => none
  | none => some (fs.nextInode, fs.create p (.file []))

-- The change at the path that `path` names, if it names one.
def changeAt (path : Bytes) (change : Path → Bool × TreeFs) : Bool × TreeFs :=
  match fs.resolve path with
  | none => (false, fs)
  | some p => change p

end Changes

section Inotify

-- `len` counts the name with its padding to a multiple of 16.
def encodeEvent (e : Event) : Bytes :=
  let len := if e.name = [] then 0 else (e.name.length / 16 + 1) * 16
  leBytes 4 e.wd ++ leBytes 4 e.mask ++ leBytes 4 0 ++ leBytes 4 len ++ e.name ++
    zeros (len - e.name.length)

-- The events that fit into `size` bytes, and the others.
def takeEvents (size : Nat) : List Event → Bytes × List Event
  | [] => ([], [])
  | e :: es =>
      let bs := encodeEvent e
      if bs.length ≤ size then
        let (taken, left) := takeEvents (size - bs.length) es
        (bs ++ taken, left)
      else ([], e :: es)

variable (fs : TreeFs)

def addWatchAt (p : Path) : Int × TreeFs :=
  if fs.isFree p then (-1, fs)
  else match fs.watches.find? (·.2 = p) with
    | some (wd, _) => (wd, fs)
    | none => (fs.nextWd, { fs with
        watches := fs.watches ++ [(fs.nextWd, p)]
        nextWd := fs.nextWd + 1 })

def inIgnored : Nat := 0x8000

def removeWatch (wd : Int) : Bool × TreeFs :=
  if fs.watches.any fun w => (w.1 : Int) == wd then
    (true, { fs with
      watches := fs.watches.filter fun w => (w.1 : Int) != wd
      events := fs.events ++ [{ wd := wd.toNat, mask := inIgnored, name := [] }] })
  else (false, fs)

end Inotify

-- The blocks of 4096 bytes that `read` delivers.
def blocks (content : Bytes) : List Bytes :=
  if 4096 < content.length then content.take 4096 :: blocks (content.drop 4096)
  else if content = [] then [] else [content]
termination_by content.length
decreasing_by
  rw [List.length_drop]
  omega

def readsOf : Kind → Option (List ReadResult)
  | .dir => some [.failed]
  | .file content => some ((blocks content).map .data)
  | .link _ => none

instance : Posix TreeFs where
  lstat fs path := (fs.resolve path).bind fs.stat
  readlink fs path size := match (fs.resolve path).bind fs.kind with
    | some (.link target) => some (target.take size)
    | _ => none
  reads fs path := ((fs.resolve path).bind fs.kind).bind readsOf
  fopenRead fs path := match (fs.resolve path).bind fs.kind with
    | some (.file content) => some (0, content)
    | some .dir => some (0, [])
    | _ => none
  fopenWrite fs path := (fs.resolve path).bind fs.openAt
  fwrite fs fp bs := fs.setKind fp (.file (fs.contentOf fp ++ bs))
  fclose fs _ := fs
  getlk _ _ fl := { fl with type := .unlck }
  setlk fs _ _ := (true, fs)
  setlkw fs _ _ := some (true, fs)
  mkdir fs path _ := fs.changeAt path fs.mkdirAt
  symlink fs target path := fs.changeAt path (fs.symlinkAt target)
  link fs old new := match fs.resolve old with
    | none => (false, fs)
    | some p => fs.changeAt new (fs.linkAt p)
  remove fs path := fs.changeAt path fs.removeAt
  utime fs path atime mtime := fs.changeAt path fun p => fs.utimeAt p atime mtime
  chdir fs path := match fs.resolve path with
    | some p => if fs.isDir p then (true, { fs with cwd := p }) else (false, fs)
    | none => (false, fs)
  opendir fs path := (fs.resolve path).bind fun p =>
    if fs.isDir p then
      some ({ name := ⟨[dot], dot_noNul⟩, isDir := true } ::
        { name := ⟨[dot, dot], dots_noNul⟩, isDir := true } :: fs.children p)
    else none
  addWatch fs path := match fs.resolve path with
    | some p => fs.addWatchAt p
    | none => (-1, fs)
  rmWatch fs wd := fs.removeWatch wd
  readEvents fs size :=
    if fs.events = [] then none
    else
      let (bs, left) := takeEvents size fs.events
      some (bs, { fs with events := left })

end TreeFs

end Csiebox
