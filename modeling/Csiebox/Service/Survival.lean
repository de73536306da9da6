import Csiebox.Lib.Total
import Csiebox.Service.Bounds
import Mathlib.Data.ENat.Basic

namespace Csiebox

open CBytes Program Prog

section Property

variable {F : Type} [Posix F]

-- The bytes of the arrays on the stack whose sizes a request with a complete body sends.
def arrayBytes (h : Host F) (l : Link UInt8) : Nat :=
  if Asks opSyncMeta l then ((messageOf sizeofMeta h l).map fun m => metaPathlen m + 1).getD 0
  else if Asks opSyncHardlink l then
    ((messageOf sizeofHardlink h l).map fun m =>
      (hardlinkSrclen m + 1) % 2 ^ 32 + (hardlinkTargetlen m + 1) % 2 ^ 32).getD 0
  else if Asks opRm l then ((messageOf sizeofRm h l).map fun m => (rmPathlen m + 1) % 2 ^ 32).getD 0
  else 0

end Property

section Pull

variable {F C : Type} [Posix F] [Channel UInt8 C]

-- A message of no bytes is not sent.
def posted (c : C) (m : Bytes) : C := if m.length = 0 then c else Channel.sent c

-- `send_meta` repeats its announcement until a complete header has come that is not
-- BUSY; the end of the connection is no answer.
def answered (c : C) : Option C :=
  if 0 < sizeofHeader ∧ sizeofHeader ≤ (Channel.link c).inbox.length then
    if headerStatus (requestHead (Channel.link c)) = statusBusy then
      answered (Channel.skip (Channel.sent c) sizeofHeader)
    else some (Channel.skip (Channel.sent c) sizeofHeader)
  else none
termination_by (Channel.link c).inbox.length
decreasing_by
  simp only [Channel.link_skip, Channel.link_sent, List.length_drop]
  omega

-- `send_hardlink` looks at the header alone, which keeps its bytes when the connection
-- has ended.
def linkAnswered (head : Bytes) (c : C) : Option C :=
  if 0 < sizeofHeader ∧ sizeofHeader ≤ (Channel.link c).inbox.length then
    if headerStatus (requestHead (Channel.link c)) = statusBusy then
      linkAnswered (requestHead (Channel.link c)) (Channel.skip (Channel.sent c) sizeofHeader)
    else some (Channel.skip (Channel.sent c) sizeofHeader)
  else if (Channel.link c).closed = true ∧
      headerStatus (overlay head (Channel.link c).inbox) ≠ statusBusy then
    some (Channel.skip (Channel.sent c) sizeofHeader)
  else none
termination_by (Channel.link c).inbox.length
decreasing_by
  simp only [Channel.link_skip, Channel.link_sent, List.length_drop]
  omega

-- `send_hardlink`.
def hardlinkSent (source target : Bytes) (c : C) : Option C := do
  let c ← linkAnswered (zeros sizeofHeader) c
  return posted (posted c source) target

-- An entry's other names.
def namesSent (st target : Bytes) : List HardLink → C → Option C
  | [], c => some c
  | h :: hs, c =>
      if h.inode = stIno st then do
        let c ← hardlinkSent h.path target (Channel.sent c)
        namesSent st target hs (posted c st)
      else namesSent st target hs c

-- The file system behind `send_file`: a file is to be opened and locked, a link to be read.
def contentSent (f : F) (st path : Bytes) : Option F :=
  if sIsReg (stMode st) then do
    let (fp, _) ← Posix.fopenRead f path
    let (_, f) ← Posix.setlkw f fp { Flock.zero with type := .rdlck }
    let (_, f) ← Posix.setlkw f fp { Flock.zero with type := .unlck }
    return Posix.fclose f fp
  else if sIsLnk (stMode st) then (Posix.readlink f path N).map fun _ => f
  else some f

-- The headers and the blocks of a content of `n` bytes; an empty block ends a content of
-- whole blocks, and only its header is sent.
def chunkSends (chunk n : Nat) : Nat := 2 * (n / chunk) + if n % chunk = 0 then 1 else 2

-- What `send_file` sends of it.
def contentPosted (f : F) (st path : Bytes) (c : C) : C :=
  if sIsReg (stMode st) then
    match Posix.fopenRead f path with
    | none => c
    | some (_, content) => Channel.sent^[chunkSends N content.length] c
  else if sIsLnk (stMode st) then
    match Posix.readlink f path N with
    | none => c
    | some target => posted (Channel.sent c) target
  else c

variable (md5 : Bytes → Mem 16) (len connFd : Nat)

-- One entry of the pull: its digest, the answer to its announcement, its content.
def entrySent (st cpath : Bytes) (f : F) (c : C) : Option (F × C) := do
  let _ ← digestOf md5 f st (cpath.drop len)
  let c ← answered (Channel.sent c)
  let f' ← contentSent f st cpath
  return (f', contentPosted f st cpath (posted c (cpath.drop len)))

-- A file with several names needs its row in `hl`, and a place there.
def entryPulled (st cpath : Bytes) (hl : List HardLink) (f : F) (c : C) :
    Option (List HardLink × F × C) :=
  if !sIsDir (stMode st) && stNlink st != 1 then do
    guard (connFd < maxConns)
    let c ← namesSent st (cpath.drop len) hl c
    let (f, c) ← entrySent md5 len st cpath f c
    guard (hl.length < maxLinks)
    return (hl ++ [{ inode := stIno st, path := cpath.drop len }], f, c)
  else do
    let (f, c) ← entrySent md5 len st cpath f c
    return (hl, f, c)

def visitPulled
    (descend : Bytes → List HardLink → F → C → Option (List HardLink × F × C))
    (dirName : Bytes) :
    List Dirent → List HardLink → F → C → Option (List HardLink × F × C)
  | [], hl, f, c => some (hl, f, c)
  | entry :: entries, hl, f, c =>
      if entry.name.val.head? = some dot then visitPulled descend dirName entries hl f c
      else
        let cpath := snprintfPath dirName entry.name.val
        match Posix.lstat f cpath with
        | none => some (hl, f, c)
        | some st => do
            let (hl, f, c) ← entryPulled md5 len connFd st.val cpath hl f c
            let (hl, f, c) ←
              (if sIsDir (stMode st.val) then descend cpath hl f c else some (hl, f, c))
            visitPulled descend dirName entries hl f c

-- The pull of a directory gets through, down to the depth of the stack.
def treePulled : Nat → Bytes → List HardLink → F → C →
    Option (List HardLink × F × C)
  | 0, _, _, _, _ => none
  | depth + 1, dirName, hl, f, c =>
      match Posix.opendir f dirName with
      | none => some (hl, f, c)
      | some entries => visitPulled md5 len connFd (treePulled depth) dirName entries hl f c

end Pull

section Requests

variable {F : Type} [Posix F]

-- The connection ends inside the body of a request, which has fit so far.
def CutOff (size : Nat) (l : Link UInt8) : Prop :=
  l.closed = true ∧ l.inbox.length < sizeofHeader + headerDatalen (requestHead l) ∧
    l.inbox.length ≤ size

-- The receive of an empty body waits for a byte or for the end of the connection.
def BodyStirs (l : Link UInt8) : Prop :=
  headerDatalen (requestHead l) = 0 → sizeofHeader < l.inbox.length ∨ l.closed = true

-- `get_user_homedir`, where there is a user and the path fits.
def homeFor (server : Server) (connFd : Nat) : Option Bytes := do
  let user ← userString server (server.client connFd)
  guard ((homeOf server.path user).length < pathMax)
  return homeOf server.path user

-- The same with a slash behind it.
def baseFor (server : Server) (connFd : Nat) : Option Bytes := do
  let home ← homeFor server connFd
  guard (home.length + 1 < pathMax)
  return home ++ [slash]

-- A chunk that is shorter than the others, and its bytes.
def LastChunk (c : Bytes × Link UInt8) : Prop :=
  ∃ got payload, received c.2 sizeofFile = some got ∧ fileDatalen (overlay c.1 got) < N ∧
    received (Link.skip c.2 sizeofFile) (fileDatalen (overlay c.1 got)) = some payload

def ChunksEnd (req : Bytes) (l : Link UInt8) : Prop :=
  ∃ c, Relation.ReflTransGen (fun c c' => nextChunk c = some c') (req, l) c ∧ LastChunk c

-- The target of a symbolic link.
def LinkArrives (l : Link UInt8) : Prop :=
  ∃ got target, received l sizeofFile = some got ∧
    received (Link.skip l sizeofFile) (fileDatalen (overlay (zeros sizeofFile) got)) = some target ∧
    target.length ≤ N

-- So many queries of the loop find the lock of another process, the next one does not.
def Queried (f : F) (fp n : Nat) : Prop :=
  ((Posix.getlk f fp)^[n + 1] Flock.zero).type = .unlck ∧
    ∀ m < n, ((Posix.getlk f fp)^[m + 1] Flock.zero).type ≠ .unlck

-- The server can tell whether it wants the content, and the transfer of a content it
-- wants comes to an end. The echo of the header has gone out, and each query of the lock
-- sends the status anew.
def TransferEnds (takes : ℕ∞) (md5 : Bytes → Mem 16) (f : F) (filepath st hash : Bytes)
    (l : Link UInt8) : Prop :=
  ∃ status, statusOf md5 f filepath st hash = some status ∧
    if status = statusMore then
      if sIsLnk (stMode st) then 2 ≤ takes ∧ LinkArrives l
      else ∃ fp f' n, Posix.fopenWrite f filepath = some (fp, f') ∧ Queried f' fp n ∧
        (n + 2 : Nat) ≤ takes ∧ ChunksEnd (zeros sizeofFile) l
    else 2 ≤ takes

def MetaEnds (takes : ℕ∞) (md5 : Bytes → Mem 16) (base : Bytes) (h : Host F) (l : Link UInt8) : Prop :=
  ∃ m path, bodyOf sizeofMeta h l = some m ∧ metaPathlen m < 2 ^ 31 - 1 ∧
    receivedPath base (behindBody l) (metaPathlen m + 1) (metaPathlen m) = some path ∧
    TransferEnds takes md5 h.fs (base ++ path) (metaStat m) (metaHash m)
      (Link.skip (behindBody l) (metaPathlen m))

-- The entry of the account file fits its structure.
def AccountFits (md5 : Bytes → Mem 16) (server : Server) (h : Host F) (req : Bytes) : Prop :=
  ∀ fp content, Posix.fopenRead h.fs server.accountPath = some (fp, content) →
    (findAccount md5 (cString (loginUser req ++ h.fresh pathMax)) (zeros sizeofAccount)
      (lines content)).2.length ≤ sizeofAccount

-- The server behind the call of `login`.
def loginServer (md5 : Bytes → Mem 16) (server : Server) (connFd : Nat) (h : Host F)
    (l : Link UInt8) : Server :=
  { server with client := clientsAfter server connFd (loginEntry md5 server h l) }

-- A login that succeeds has made the home directory.
def loginFs (md5 : Bytes → Mem 16) (server : Server) (h : Host F) (l : Link UInt8) (home : Bytes) : F :=
  match loginEntry md5 server h l with
  | some _ => (Posix.mkdir h.fs home dirSFlag).2
  | none => h.fs

-- A login whose body is complete is answered.
def loginWire (l : Link UInt8) : Wire UInt8 where
  link := behindBody l
  sends := if headerDatalen (requestHead l) ≤ (l.inbox.drop sizeofHeader).length then 1 else 0

-- The connection has a home directory then, and the pull of it gets through, with the
-- last header behind it.
def HomePulled (takes : ℕ∞) (md5 : Bytes → Mem 16) (server : Server) (connFd : Nat) (h : Host F)
    (l : Link UInt8) : Prop :=
  ∃ home entries, homeFor (loginServer md5 server connFd h l) connFd = some home ∧
    Posix.opendir (loginFs md5 server h l home) home = some entries ∧
    if 2 < entries.length then
      ∃ hl f wire, treePulled md5 (home.length + 1) connFd pathMax home (server.hl connFd)
        (loginFs md5 server h l home) (loginWire l) = some (hl, f, wire) ∧
          (wire.sends + 1 : Nat) ≤ takes
    else (loginWire l).sends ≤ takes

-- A request with a path: its connection has a home directory, the echo of its header is
-- taken, and its body is cut off or does not hold the server up.
def Served (takes : ℕ∞) (server : Server) (connFd size : Nat) (l : Link UInt8)
    (ends : Bytes → Prop) : Prop :=
  1 ≤ takes ∧ ∃ base, baseFor server connFd = some base ∧ BodyStirs l ∧ (CutOff size l ∨ ends base)

structure RequestEnds (takes : ℕ∞) (md5 : Bytes → Mem 16) (server : Server) (connFd : Nat)
    (h : Host F) (l : Link UInt8) : Prop where
  login : Asks opLogin l → BodyStirs l ∧ (CutOff sizeofLogin l ∨
      ∃ m, bodyOf sizeofLogin h l = some m ∧ AccountFits md5 server h.tick m) ∧
    HomePulled takes md5 server connFd h l
  syncMeta : Asks opSyncMeta l →
    Served takes server connFd sizeofMeta l fun base => MetaEnds takes md5 base h l
  syncHardlink : Asks opSyncHardlink l →
    Served takes server connFd sizeofHardlink l fun base => (hardlinkPaths base h l).isSome = true
  rm : Asks opRm l → Served takes server connFd sizeofRm l fun base => (rmPaths base h l).isSome = true

-- Either the connection ends before another request, or it sends the header of a request
-- that comes to an end, on a stack with room for its arrays.
def Harmless (stack : Nat) (takes : ℕ∞) (md5 : Bytes → Mem 16) (server : Server) (connFd : Nat)
    (h : Host F) (l : Link UInt8) : Prop :=
  if l.inbox.length < sizeofHeader then l.closed = true
  else headerMagic (requestHead l) = magicReq ∧ arrayBytes h l ≤ stack ∧
    RequestEnds takes md5 server connFd h l

end Requests

end Csiebox
