import Csiebox.Lib.Words
import Csiebox.Pull

namespace Csiebox.Traverse

open CBytes Program Prog Pull

-- What a traversal wants to have at the other end: the content of a path, or a link.
inductive Item where
  | content (st path : Bytes)
  | hardlink (source target st : Bytes)
deriving DecidableEq

section Reading

-- How far a request has been read off the messages. `strings` has the strings received
-- behind an answered request, the next one due and the lengths of the ones behind it;
-- `data` is the place behind the header of a block of file data.
inductive Reading where
  | idle
  | asked (request : Bytes)
  | strings (request : Bytes) (got : List Bytes) (due : List Nat)
  | data
deriving DecidableEq

def itemOf (request : Bytes) (got : List Bytes) : Item :=
  if headerOp request = opSyncMeta then .content (metaStat request) (got.getD 0 [])
  else .hardlink (got.getD 0 []) (got.getD 1 []) (got.getD 2 [])

-- The lengths of the strings behind a request.
def stringLengths (request : Bytes) : List Nat :=
  if headerOp request = opSyncMeta then [metaPathlen request]
  else [hardlinkSrclen request, hardlinkTargetlen request, sizeofStat]

-- An empty string is not sent.
def awaitString (request : Bytes) (got : List Bytes) : List Nat → Reading × List Item
  | [] => (.idle, [itemOf request got])
  | 0 :: due => awaitString request (got ++ [[]]) due
  | _ :: due => (.strings request got due, [])

def readSaid : Reading → Bytes → Reading × List Item
  | .idle, m =>
      if headerOp m = opSyncMeta ∨ headerOp m = opSyncHardlink then (.asked m, [])
      else if headerOp m = opSyncFile ∧ fileDatalen m ≠ 0 then (.data, [])
      else (.idle, [])
  | .asked request, _ => (.asked request, [])
  | .strings request got due, bs => awaitString request (got ++ [bs]) due
  | .data, _ => (.idle, [])

-- A request whose answer is BUSY is going to be repeated.
def readHeard : Reading → Bytes → Reading × List Item
  | .asked request, answer =>
      if headerStatus answer = statusBusy then (.idle, [])
      else awaitString request [] (stringLengths request)
  | r, _ => (r, [])

def readWord (r : Reading) : Word UInt8 → Reading × List Item
  | .said bs => readSaid r bs
  | .heard bs => readHeard r bs

def readWords : Reading → List (Word UInt8) → Reading × List Item
  | r, [] => (r, [])
  | r, w :: ws =>
      ((readWords (readWord r w).1 ws).1, (readWord r w).2 ++ (readWords (readWord r w).1 ws).2)

-- The requests that the messages of a traversal make up.
def itemsIn (ws : List (Word UInt8)) : List Item := (readWords .idle ws).2

end Reading

section Visits

variable {F : Type} [Posix F]

-- The client goes by `d_type` where the server goes by `lstat`.
def clientVisitEntries (f : F) (descend : Bytes → List Visit) (dirName : Bytes) : List Dirent → List Visit
  | [] => []
  | entry :: entries =>
      if entry.name.val.head? = some dot then clientVisitEntries f descend dirName entries
      else match Posix.lstat f (clientPath dirName entry.name.val) with
        | none => []
        | some st =>
            { path := clientPath dirName entry.name.val, st } ::
              ((if entry.isDir then descend (clientPath dirName entry.name.val) else []) ++
                clientVisitEntries f descend dirName entries)

-- What the client's `traverse_file` meets.
def clientVisits (f : F) : Nat → Bytes → List Visit
  | 0, _ => []
  | depth + 1, dirName =>
      match Posix.opendir f dirName with
      | none => []
      | some entries => clientVisitEntries f (clientVisits f depth) dirName entries

-- The same files are found under the same paths.
structure SameTree (f f' : F) : Prop where
  lstat : ∀ path, Posix.lstat f' path = Posix.lstat f path
  opendir : ∀ path, Posix.opendir f' path = Posix.opendir f path

-- Locks leave the tree as it is, and a link's target fits into the buffer for it.
structure Locking (F : Type) [Posix F] : Prop where
  setlkw : ∀ (f f' : F) fp fl granted, Posix.setlkw f fp fl = some (granted, f') → SameTree f f'
  fclose : ∀ (f : F) fp, SameTree f (Posix.fclose f fp)
  linkFits : ∀ (f : F) path size target, Posix.readlink f path size = some target →
    target.length ≤ size

-- What a system does to its tree when no other process uses it.
structure Steady (F : Type) [Posix F] : Prop extends Locking F where
  addWatch : ∀ (f : F) path, SameTree f (Posix.addWatch f path).2

end Visits

section Items

variable (len : Nat)

-- The entries of `hl` for an inode.
def known (hl : List HardLink) (inode : Nat) : List HardLink := hl.filter fun h => h.inode = inode

-- What one visit sends with `hl` as it is then.
def itemsFor (hl : List HardLink) (v : Visit) : List Item :=
  (if linked v.st.val then
    (known hl (stIno v.st.val)).map fun h => .hardlink h.path (v.path.drop len) v.st.val
  else []) ++ [.content v.st.val (v.path.drop len)]

def itemsOf : List HardLink → List Visit → List Item
  | _, [] => []
  | hl, v :: vs => itemsFor len hl v ++ itemsOf (hl ++ linksOf len [v]) vs

end Items

section Bookkeeping

-- A file other than a directory with several links.
def severalLinks (st : Bytes) : Bool := !sIsDir (stMode st) && 1 < stNlink st

-- The paths under which the inode was visited, in order.
def pathsOf (len inode : Nat) (vs : List Visit) : List Bytes :=
  (vs.filter fun v => severalLinks v.st.val && stIno v.st.val == inode).map fun v => v.path.drop len

def contentsOf (inode : Nat) (items : List Item) : List Bytes :=
  items.filterMap fun
    | .content st path => if severalLinks st && stIno st == inode then some path else none
    | .hardlink .. => none

-- The sources and targets of the link messages.
def hardlinksOf (inode : Nat) (items : List Item) : List (Bytes × Bytes) :=
  items.filterMap fun
    | .content .. => none
    | .hardlink source target st =>
        if severalLinks st && stIno st == inode then some (source, target) else none

-- The content of an inode is sent for its first path, a link for each further one, and
-- it names an earlier path. The entries of `hl` are never changed, so that its first `n`
-- are what it was when `cnt` was `n`.
structure Bookkept (len : Nat) (vs : List Visit) (items : List Item) (hl : List HardLink) : Prop where
  contents : ∀ inode, contentsOf inode items = (pathsOf len inode vs).take 1
  targets : ∀ inode, ((hardlinksOf inode items).map Prod.snd).Perm (pathsOf len inode vs).tail
  sources : ∀ inode, ∀ link ∈ hardlinksOf inode items,
    ∃ before behind, pathsOf len inode vs = before ++ link.2 :: behind ∧ link.1 ∈ before
  distinct : ∀ cnt ≤ hl.length, ((hl.take cnt).map HardLink.inode).Nodup

end Bookkeeping

end Csiebox.Traverse
