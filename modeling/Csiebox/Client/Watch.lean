import Csiebox.Client.Events
import Csiebox.Pull.Returns
import Csiebox.TreeFs

namespace Csiebox

open CBytes Program Prog

section Spelling

-- The names of a path, each behind a slash.
def tailName (p : Path) : Bytes := (p.map fun n => slash :: n.val).flatten

-- How `event_path` spells a directory: "." for the root and "./" with the path below it.
def watchName (p : Path) : Bytes := dot :: tailName p

-- A path below the root, its names between slashes.
def pathName (p : Path) : Bytes := (tailName p).drop 1

-- What `traverse_file` is called with for the directory at `p`.
def traverseName (p : Path) : Bytes := p.foldl (fun dirName n => clientPath dirName n.val) dotSlash

-- What the watch loop makes of the name in an event.
def eventPathOf (client : Client) (wd : Nat) (name : Bytes) : Bytes :=
    client.eventPath wd ++ [slash] ++ name

-- What the watch loop does behind the making of `epath`.
def handleAt (md5 : Bytes → Mem 16) (event epath : Bytes) (client : Client) : Code Client := do
  let found ← sys (.lstat epath)
  let st := (found.map Subtype.val).getD (zeros sizeofStat)
  let client ← onCreate md5 event st epath client
  onDelete event epath
  onChange md5 inAttrib event st epath
  onChange md5 inModify event st epath
  ret client

end Spelling

section System

-- An inotify instance: the directory that each watch descriptor has been given out for.
-- `ok` holds of the states that the system can be in.
structure Inotify (F : Type) where
  ok : F → Prop
  given : F → Nat → Option Path

-- The calls that neither add a watch nor change the working directory.
def WatchFree : {ι : Type} → Sys ι → Prop
  | _, .addWatch _ => False
  | _, .chdir _ => False
  | _, _ => True

-- Those that leave the watches alone, too.
def NoWatch : {ι : Type} → Sys ι → Prop
  | _, .addWatch _ => False
  | _, .rmWatch _ => False
  | _, .chdir _ => False
  | _, _ => True

-- The entries of the directories that `spell` spells have names, and fit into PATH_MAX.
def EntriesFit {F : Type} [Posix F] (spell : Path → Bytes) (f : F) : Prop :=
  ∀ p entries, Posix.opendir f (spell p) = some entries → ∀ entry ∈ entries,
    entry.name.val ≠ [] ∧ slash ∉ entry.name.val ∧
      (spell p).length + 1 + entry.name.val.length < pathMax

namespace Inotify

variable {F : Type} (I : Inotify F)

-- An event that reports a creation has the descriptor of a directory and the name of an
-- entry.
structure Reports (f : F) (event : Bytes) : Prop where
  name : ValidName (eventName event)
  given : (I.given f (eventWd event).toNat).isSome

-- No descriptor is given out.
def Passes (f f' : F) : Prop := I.ok f' ∧ ∀ wd p, I.given f' wd = some p → I.given f wd = some p

-- What the system is taken to do.
structure Lawful [Posix F] : Prop where
  keeps : ∀ {ι : Type} (op : Sys ι) (h : Host F) (r : ι) (h' : Host F), WatchFree op → I.ok h.fs →
    Host.exec op h = some (r, h') → I.Passes h.fs h'.fs
  adds : ∀ f p wd f', I.ok f → Posix.addWatch f (watchName p) = (wd, f') → 0 ≤ wd →
    I.ok f' ∧ ∀ n q, I.given f' n = some q → n = wd.toNat ∧ q = p ∨ n ≠ wd.toNat ∧ I.given f n = some q
  events : ∀ f got f', I.ok f → Posix.readEvents f eventBufLen = some (got, f') →
    ∃ events, got = layout events ∧ ∀ event ∈ events, eventHas event.alone inCreate = true →
      I.Reports f' event.alone

-- The table spells every directory that a descriptor was given out for.
def Named (client : Client) (f : F) : Prop :=
  I.ok f ∧ ∀ wd p, I.given f wd = some p → client.eventPath wd = watchName p

end Inotify

-- The server's files during a pull from `home`.
structure HomeLawful {G : Type} [Posix G] (ok : G → Prop) (home : Bytes) : Prop where
  keeps : ∀ {ι : Type} (op : Sys ι) (h : Host G) (r : ι) (h' : Host G), WatchFree op → ok h.fs →
    Host.exec op h = some (r, h') → ok h'.fs
  entries : ∀ g, ok g → EntriesFit (fun p => home ++ tailName p) g
  linkFits : ∀ (g : G) path size target, Posix.readlink g path size = some target → target.length ≤ size

end System

section Reachable

variable {F : Type} [Posix F] (I : Inotify F) (md5 : Bytes → Mem 16)

-- The client behind its first synchronisation, whose inotify instance was new: it has
-- sent its own tree, or got the server's.
inductive Synced : Client → Host F → Prop where
  | traversed {client client' : Client} {h h' : Host F} {l l' : Link UInt8} {out : Bytes}
      (ok : I.ok h.fs) (new : ∀ wd, I.given h.fs wd = none)
      (run : Exec host ⟨clientTraverseFile md5 pathMax dotSlash client, h, l⟩ out ⟨ret client', h', l'⟩) :
      Synced client' h'
  | pulled {G : Type} [Posix G] {okHome : G → Prop} {server : Server} {connFd : Nat} {home : Bytes}
      {client client' : Client} {h : Host F} {sh : Host G} {k : Server → Code Unit}
      {d : Session.Joint F G Client} (ok : I.ok h.fs) (new : ∀ wd, I.given h.fs wd = none)
      (lawful : HomeLawful okHome home) (okServer : okHome sh.fs)
      (run : Session.Runs (Pull.pullStart md5 server connFd home client h sh k) d)
      (left : d.left = ret client') : Synced client' d.leftState

-- The watch of the root.
def watchRoot (client : Client) : Code Client := do
  let wd ← sys (.addWatch [dot])
  setEventPath client wd [dot]

-- The client in its watch loop, with the events it has read and not handled yet.
inductive Watching : Client → Host F → List Bytes → Prop where
  | start {client client' : Client} {h h' : Host F} {l l' : Link UInt8} {out : Bytes}
      (synced : Synced I md5 client h)
      (run : Exec host ⟨watchRoot client, h, l⟩ out ⟨ret client', h', l'⟩) : Watching client' h' []
  | read {client : Client} {h : Host F} {got : Bytes} {f : F} (before : Watching client h [])
      (run : Posix.readEvents h.fs eventBufLen = some (got, f)) :
      Watching client { h with fs := f } (eventsSeen (eventMemory got []) got.length 0)
  | handle {client client' : Client} {h h' : Host F} {l l' : Link UInt8} {out event : Bytes}
      {events : List Bytes} (before : Watching client h (event :: events))
      (run : Exec host ⟨handleEvent md5 event client, h, l⟩ out ⟨ret client', h', l'⟩) :
      Watching client' h' events
  -- what other processes do
  | elsewhere {client : Client} {h : Host F} {events : List Bytes} {f : F}
      (before : Watching client h events) (passes : I.Passes h.fs f) :
      Watching client { h with fs := f } events

end Reachable

end Csiebox
