import Csiebox.Server

namespace Csiebox

open CBytes Program Prog

-- `hl` holds the first `cnt` elements of the array.
structure Client where
  user : Bytes
  passwd : Bytes
  path : Bytes
  clientId : Nat
  eventPath : Nat → Bytes
  hl : List HardLink

def maxWatches : Nat := 1500

def maxClientLinks : Nat := 1000

def eventSize : Nat := 16

def eventBufLen : Nat := 1024 * (eventSize + 16)

def inCreate : Nat := 0x100

def inDelete : Nat := 0x200

def inAttrib : Nat := 0x4

def inModify : Nat := 0x2

def inIsdir : Nat := 0x40000000

-- The mask of every `inotify_add_watch` call.
def watchMask : Nat := inCreate ||| inDelete ||| inAttrib ||| inModify

-- `strcpy(event_path[wd], path)`
def setEventPath (client : Client) (wd : Int) (path : Bytes) : Code Client := do
  checkSize (0 ≤ wd ∧ wd < maxWatches ∧ path.length < pathMax)
  ret { client with eventPath := Function.update client.eventPath wd.toNat path }

namespace Client

-- The loop of `login` ends when the answer is OK, or with 0 when a send fails.
def loginRound (client : Client) (req : Bytes) (_ : Unit) : Code (Unit ⊕ Option Client) := do
  if !(← sendMessage req) then ret (.inr none)
  else do
    let (ok, header) ← recvMessage (zeros sizeofHeader) sizeofHeader
    ret (if ok && headerMagic header == magicRes && headerOp header == opLogin &&
        headerStatus header == statusOk then
      .inr (some { client with clientId := headerClientId header })
    else .inl ())

def login (md5 : Bytes → Mem 16) (client : Client) : Code (Option Client) :=
  let user := overlay (zeros userLenMax) client.user
  iter (loginRound client (loginMessage user (md5 client.passwd).val)) ()

end Client

section Traverse

variable (md5 : Bytes → Mem 16)

-- The loop over `hl`, which has no `break` either.
def clientKnownLinks (st target : Bytes) : List HardLink → Code Unit
  | [] => ret ()
  | h :: hs =>
      if h.inode = stIno st then do
        sendHardlink h.path target
        let _ ← sendMessage st
        clientKnownLinks st target hs
      else clientKnownLinks st target hs

def clientEntry (st cpath : Bytes) (client : Client) : Code Client :=
  if !sIsDir (stMode st) && stNlink st != 1 then do
    clientKnownLinks st (cpath.drop 2) client.hl
    syncFile md5 st cpath
    checkSize (client.hl.length < maxClientLinks)
    ret { client with hl := client.hl ++ [{ inode := stIno st, path := cpath.drop 2 }] }
  else do
    syncFile md5 st cpath
    ret client

-- "./" is followed by the name directly.
def clientPath (dirName name : Bytes) : Bytes :=
  if dirName.length = 2 then (dirName ++ name).take (pathMax - 1) else snprintfPath dirName name

def watchAndDescend (descend : Bytes → Client → Code Client) (cpath : Bytes) (client : Client) :
    Code Client := do
  let wd ← sys (.addWatch cpath)
  let client ← setEventPath client wd cpath
  descend cpath client

def clientVisit (descend : Bytes → Client → Code Client) (dirName : Bytes) :
    List Dirent → Client → Code Client
  | [], client => ret client
  | entry :: entries, client =>
      if entry.name.val.head? = some dot then clientVisit descend dirName entries client
      else do
        let cpath := clientPath dirName entry.name.val
        match ← sys (.lstat cpath) with
        | none => ret client
        | some st =>
            let client ← clientEntry md5 st.val cpath client
            let client ← (if entry.isDir then watchAndDescend descend cpath client else ret client)
            clientVisit descend dirName entries client

def clientTraverseFile : Nat → Bytes → Client → Code Client
  | 0, _, _ => halt .stackOverflow
  | depth + 1, dirName, client => do
      match ← sys (.opendir dirName) with
      | none => ret client
      | some entries => clientVisit md5 (clientTraverseFile depth) dirName entries client

end Traverse

section Pull

def dotSlash : Bytes := [dot, slash]

-- The SYNC_HARDLINK branch of the pull loop.
def pullHardlink : Code Unit := do
  let (_, hardlink) ← recvMessage (zeros sizeofHardlink) sizeofHardlink
  let (_, st) ← recvMessage (zeros sizeofStat) sizeofStat
  let srclen := hardlinkSrclen hardlink
  let targetlen := hardlinkTargetlen hardlink
  let (_, buf1) ← recvMessage (zeros ((srclen + 5) % 2 ^ 32 - 2)) srclen
  let (_, buf2) ← recvMessage (zeros ((targetlen + 5) % 2 ^ 32 - 2)) targetlen
  let _ ← sys (.link (dotSlash ++ cString buf1) (dotSlash ++ cString buf2))
  let _ ← sys (.utime (dotSlash ++ cString buf2) (stAtime st) (stMtime st))
  ret ()

def pullFile (recPath : Bytes) : Code Unit := do
  let req ← sys (.uninit sizeofFile)
  match ← sys (.fopenWrite recPath) with
  | none => halt .nullDeref
  | some fp =>
      let _ ← sys (.setlkw fp { Flock.zero with type := .wrlck })
      receiveChunks N fp req.val (zeros N)
      let _ ← sys (.setlkw fp { Flock.zero with type := .unlck })
      sys (.fclose fp)

-- `int len` sizes an array.
def pullLink (recPath : Bytes) : Code Unit := do
  let file ← sys (.uninit sizeofFile)
  let (_, file) ← recvMessage file.val sizeofFile
  let len := signed 32 (fileDatalen file)
  checkSize (0 ≤ len ∧ len < 2 ^ 31 - 1)
  let (_, buf) ← recvMessage (zeros (len.toNat + 1)) len.toNat
  let _ ← sys (.symlink (cString buf) recPath)
  ret ()

-- What the pull loop does with an entry's path and meta data.
def pullEntry (client : Client) (st recPath : Bytes) : Code Client :=
  if sIsDir (stMode st) then do
    let _ ← sys (.mkdir recPath homeMode)
    let wd ← sys (.addWatch recPath)
    setEventPath client wd recPath
  else if sIsLnk (stMode st) then do
    pullLink recPath
    ret client
  else if sIsReg (stMode st) then do
    pullFile recPath
    ret client
  else ret client

-- One round behind the tests on the announcing header.
def pullMeta (client : Client) (head : Bytes) : Code Client := do
  let (_, «meta») ← recvMessage (zeros sizeofMeta) sizeofMeta
  let _ ← sendMessage (setStatus head statusOk)
  let st := metaStat «meta»
  let pathlen := metaPathlen «meta»
  -- `int pathlen` sizes an array.
  checkSize (pathlen < 2 ^ 31 - 3)
  let (_, buf) ← recvMessage (zeros (pathlen + 1)) pathlen
  let recPath := dotSlash ++ cString buf
  let client ← pullEntry client st recPath
  let _ ← sys (.utime recPath (stAtime st) (stMtime st))
  ret client

-- One round of the pull loop; `header` keeps its contents between rounds.
def pullRound : Bytes × Client → Code ((Bytes × Client) ⊕ Client)
  | (header, client) => do
      let (ok, header) ← recvMessage header sizeofHeader
      if !ok || headerStatus header == statusOk then ret (.inr client)
      else if headerOp header = opSyncHardlink then do
        pullHardlink
        ret (.inl (header, client))
      else do
        let client ← pullMeta client header
        ret (.inl (setStatus header statusOk, client))

def pull (client : Client) : Code Client := iter pullRound (zeros sizeofHeader, client)

end Pull

section Watch

-- The fields of the `inotify_event` at the start of a buffer.
def eventWd (event : Bytes) : Int := signed 32 (leNat (slice 0 4 event))

def eventMask (event : Bytes) : Nat := leNat (slice 4 4 event)

def eventLen (event : Bytes) : Nat := leNat (slice 12 4 event)

def eventName (event : Bytes) : Bytes := cString (event.drop eventSize)

def eventHas (event : Bytes) (flag : Nat) : Bool := eventMask event &&& flag != 0

def announceRm (rm : Bytes) (_ : Unit) : Code (Unit ⊕ Unit) := do
  let _ ← sendMessage rm
  let (_, header) ← recvMessage (zeros sizeofHeader) sizeofHeader
  ret (if headerStatus header = statusBusy then .inl () else .inr ())

def sendRm (path : Bytes) : Code Unit := do
  iter (announceRm (rmMessage path.length)) ()
  let _ ← sendMessage path
  ret ()

-- The four cases of the mask.
def onCreate (md5 : Bytes → Mem 16) (event st epath : Bytes) (client : Client) : Code Client :=
  if eventHas event inCreate then do
    syncFile md5 st epath
    if sIsDir (stMode st) then do
      let wd ← sys (.addWatch epath)
      setEventPath client wd epath
    else ret client
  else ret client

def onDelete (event epath : Bytes) : Code Unit :=
  if eventHas event inDelete then do
    sendRm (epath.drop 2)
    if eventHas event inIsdir then do
      let _ ← sys (.rmWatch (eventWd event))
      ret ()
    else ret ()
  else ret ()

def onChange (md5 : Bytes → Mem 16) (flag : Nat) (event st epath : Bytes) : Code Unit :=
  if eventHas event flag then syncFile md5 st epath else ret ()

def handleEvent (md5 : Bytes → Mem 16) (event : Bytes) (client : Client) : Code Client := do
  let wd := eventWd event
  checkSize (0 ≤ wd ∧ wd < maxWatches)
  let epath ← strcat (client.eventPath wd.toNat) [slash]
  let epath ← strcat epath (eventName event)
  let found ← sys (.lstat epath)
  let st := (found.map Subtype.val).getD (zeros sizeofStat)
  let client ← onCreate md5 event st epath client
  onDelete event epath
  onChange md5 inAttrib event st epath
  onChange md5 inModify event st epath
  ret client

def nextEvent (md5 : Bytes → Mem 16) (buffer : Bytes) (length : Nat) :
    Nat × Client → Code ((Nat × Client) ⊕ Client)
  | (i, client) =>
      if length ≤ i then ret (.inr client)
      else do
        let event := buffer.drop i
        let client ← handleEvent md5 event client
        ret (.inl (i + eventSize + eventLen event, client))

def handleEvents (md5 : Bytes → Mem 16) (buffer : Bytes) (length : Nat) (client : Client) :
    Code Client :=
  iter (nextEvent md5 buffer length) (0, client)

def watchRound (md5 : Bytes → Mem 16) (client : Client) : Code (Client ⊕ Client) := do
  let got ← sys (.readEvents eventBufLen)
  if got.length = 0 then ret (.inr client)
  else do
    let client ← handleEvents md5 (overlay (zeros eventBufLen) got) got.length client
    ret (.inl client)

def watch (md5 : Bytes → Mem 16) (client : Client) : Code Client := iter (watchRound md5) client

end Watch

def pullAll (client : Client) : Code Client := do
  let client ← pull client
  sys (.notice .endOfServerPull)
  ret client

-- What `csiebox_client_run` does behind a successful login, up to "start watch".
def initialSync (md5 : Bytes → Mem 16) (client : Client) : Code Client := do
  let _ ← sys (.chdir client.path)
  match ← sys (.opendir dotSlash) with
  | none => halt .nullDeref
  | some entries =>
      let client := { client with eventPath := fun _ => [], hl := [] }
      let num := min 3 entries.length
      sys (.notice (.num num))
      let client ←
        (if num ≤ 2 then pullAll client else clientTraverseFile md5 pathMax dotSlash client)
      sys (.notice .startWatch)
      ret client

-- `csiebox_client_run` up to "start watch".
def startClient (md5 : Bytes → Mem 16) (client : Client) : Code (Option Client) := do
  match ← client.login md5 with
  | none => ret none
  | some client =>
      let client ← initialSync md5 client
      ret (some client)

def csieboxClientRun (md5 : Bytes → Mem 16) (client : Client) : Code Int := do
  match ← startClient md5 client with
  | none => ret 0
  | some client =>
      let wd ← sys (.addWatch [dot])
      let client ← setEventPath client wd [dot]
      let _ ← watch md5 client
      ret 1

end Csiebox
