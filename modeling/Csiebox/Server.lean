import Csiebox.Send

namespace Csiebox

open CBytes Program Prog

-- `user[USER_LEN_MAX]`, `passwd_hash[MD5_DIGEST_LENGTH]` and the padding.
structure ClientInfo where
  account : Bytes
  connFd : Nat

-- An element of `hl`.
structure HardLink where
  inode : Nat
  path : Bytes
deriving DecidableEq

-- `nullUser` is what `%s` prints where `info` is NULL; `none` is a crash.
-- `hl fd` holds the first `cnt[fd]` elements of the array.
structure Server where
  path : Bytes
  accountPath : Bytes
  nullUser : Option Bytes
  client : Nat → Option ClientInfo
  clientNum : Int
  masterset : Nat → Bool
  hl : Nat → List HardLink

def maxConns : Nat := 200

def maxLinks : Nat := 110

def dirSFlag : Nat := 0o755

def homeMode : Nat := 0o775

def sizeofAccount : Nat := 48

def clientUser (info : ClientInfo) : Bytes := cString info.account

def userString (server : Server) : Option ClientInfo → Option Bytes
  | none => server.nullUser
  | some info => some (clientUser info)

-- The home directory of a user below the server's directory.
def homeOf (path user : Bytes) : Bytes := path ++ slash :: user

def getUserHomedir (server : Server) (info : Option ClientInfo) : Code Bytes :=
  match userString server info with
  | none => halt .nullDeref
  | some user => do
      checkSize ((homeOf server.path user).length < pathMax)
      ret (homeOf server.path user)

section Login

-- `getline` to the end of the file, newlines included.
def lines : Bytes → List Bytes
  | [] => []
  | b :: bs =>
      if b = 0x0a then [b] :: lines bs
      else match lines bs with
        | [] => [[b]]
        | l :: ls => (b :: l) :: ls

-- `strtok` with the delimiter ',': the token and what the next call works on.
def strtok (bs : Bytes) : Option (Bytes × Bytes) :=
  match bs.dropWhile (· = 0x2c) with
  | [] => none
  | b :: rest =>
      some ((b :: rest).takeWhile (· ≠ 0x2c), ((b :: rest).dropWhile (· ≠ 0x2c)).drop 1)

-- The loop of `get_account_info` over the lines of the account file.
def findAccount (md5 : Bytes → Mem 16) (user info : Bytes) : List Bytes → Bool × Bytes
  | [] => (false, info)
  | line :: rest =>
      if line.length ≤ 1 then (false, info)
      else match strtok (cString (line.take (line.length - 1))) with
        | none => findAccount md5 user info rest
        | some (u, more) =>
            if user = u then
              let info := overlay info user
              match strtok more with
              | none => findAccount md5 user info rest
              | some (passwd, _) =>
                  (true, info.take userLenMax ++ (md5 passwd).val ++ info.drop (userLenMax + 16))
            else findAccount md5 user info rest

def getAccountInfo (md5 : Bytes → Mem 16) (server : Server) (user info : Bytes) :
    Code (Bool × Bytes) := do
  match ← sys (.fopenRead server.accountPath) with
  | none => ret (false, info)
  | some (_, content) => ret (findAccount md5 user info (lines content))

def login (md5 : Bytes → Mem 16) (server : Server) (connFd : Nat) (req : Bytes) : Code Server := do
  -- A user name without NUL runs on into the stack.
  let stack ← sys (.uninit pathMax)
  let user := cString (loginUser req ++ stack.val)
  let (found, account) ← getAccountInfo md5 server user (zeros sizeofAccount)
  checkSize (account.length ≤ sizeofAccount)
  let succ := found && loginPasswdHash req == slice userLenMax 16 account
  if succ then do
    let info : ClientInfo := { account, connFd }
    let server := { server with client := Function.update server.client connFd (some info) }
    let homedir ← getUserHomedir server (some info)
    let _ ← sys (.mkdir homedir dirSFlag)
    let _ ← sendMessage (header magicRes opLogin statusOk connFd 0)
    ret server
  else do
    let _ ← sendMessage (header magicRes opLogin statusFail 0 0)
    ret server

def logout (server : Server) (connFd : Nat) : Server :=
  { server with
    client := Function.update server.client connFd none
    masterset := Function.update server.masterset connFd false }

end Login

section Traverse

variable (md5 : Bytes → Mem 16) (len connFd : Nat)

-- The loop over `hl[conn_fd]`: a link message for every element with the inode.
def sendKnownLinks (st target : Bytes) : List HardLink → Code Unit
  | [] => ret ()
  | h :: hs =>
      if h.inode = stIno st then do
        let _ ← sendMessage (header 0 0 statusMore 0 0)
        sendHardlink h.path target
        let _ ← sendMessage st
        sendKnownLinks st target hs
      else sendKnownLinks st target hs

-- The announcing header, the meta data and the content of one entry.
def sendEntry (st cpath : Bytes) : Code Unit := do
  let _ ← sendMessage (header 0 0 statusMore 0 0)
  sendMeta md5 st (cpath.drop len)
  sendFile st cpath

-- `i == cnt[conn_fd]` always holds behind the loop over `hl[conn_fd]`, which has
-- no `break`.
def serverEntry (st cpath : Bytes) (hl : List HardLink) : Code (List HardLink) :=
  if !sIsDir (stMode st) && stNlink st != 1 then do
    checkSize (connFd < maxConns)
    sendKnownLinks st (cpath.drop len) hl
    sendEntry md5 len st cpath
    checkSize (hl.length < maxLinks)
    ret (hl ++ [{ inode := stIno st, path := cpath.drop len }])
  else do
    sendEntry md5 len st cpath
    ret hl

-- The `readdir` loop; a failing `lstat` leaves the directory.
def serverVisit (descend : Bytes → List HardLink → Code (List HardLink)) (dirName : Bytes) :
    List Dirent → List HardLink → Code (List HardLink)
  | [], hl => ret hl
  | entry :: entries, hl =>
      if entry.name.val.head? = some dot then serverVisit descend dirName entries hl
      else do
        let cpath := snprintfPath dirName entry.name.val
        match ← sys (.lstat cpath) with
        | none => ret hl
        | some st =>
            let hl ← serverEntry md5 len connFd st.val cpath hl
            let hl ← (if sIsDir (stMode st.val) then descend cpath hl else ret hl)
            serverVisit descend dirName entries hl

-- `depth` bounds the recursion by the stack.
def serverTraverseFile : Nat → Bytes → List HardLink → Code (List HardLink)
  | 0, _, _ => halt .stackOverflow
  | depth + 1, dirName, hl => do
      match ← sys (.opendir dirName) with
      | none => ret hl
      | some entries =>
          serverVisit md5 len connFd (serverTraverseFile depth) dirName entries hl

end Traverse

section Requests

-- One round of the chunk receiving loop: `req` and `buf` keep their contents
-- between rounds.
def receiveChunk (chunk fp : Nat) : Bytes × Bytes → Code ((Bytes × Bytes) ⊕ Unit)
  | (req, buf) => do
      let (_, req) ← recvMessage req sizeofFile
      let (_, buf) ← recvMessage buf (fileDatalen req)
      checkSize (fileDatalen req ≤ buf.length)
      sys (.fwrite fp (buf.take (fileDatalen req)))
      ret (if fileDatalen req = chunk then .inl (req, buf) else .inr ())

def receiveChunks (chunk fp : Nat) (req buf : Bytes) : Code Unit :=
  iter (receiveChunk chunk fp) (req, buf)

-- The comparison `header.res.status == BLOCK` in the loop has no effect.
def pollLockRound (fp : Nat) (header : Bytes) (fl : Flock) : Code (Flock ⊕ Flock) := do
  let fl ← sys (.getlk fp fl)
  let _ ← sendMessage header
  ret (if fl.type = .unlck then .inr fl else .inl fl)

def pollLock (fp : Nat) (header : Bytes) : Code Flock := iter (pollLockRound fp header) Flock.zero

def receiveFile (filepath header : Bytes) : Code Unit := do
  let buf ← sys (.uninit N)
  match ← sys (.fopenWrite filepath) with
  | none => halt .nullDeref
  | some fp =>
      let fl ← pollLock fp header
      let fl := { fl with type := .wrlck, start := 0, len := 0 }
      let _ ← sys (.setlk fp fl)
      receiveChunks N fp (zeros sizeofFile) buf.val
      let _ ← sys (.setlk fp { fl with type := .unlck })
      sys (.fclose fp)

def receiveLink (filepath header : Bytes) : Code Unit := do
  let buf ← sys (.uninit N)
  let _ ← sendMessage header
  let (_, req) ← recvMessage (zeros sizeofFile) sizeofFile
  let (_, buf) ← recvMessage buf.val (fileDatalen req)
  let _ ← sys (.symlink (cString buf) filepath)
  ret ()

-- The status of the reply to a SYNC_META request.
def metaStatus (md5 : Bytes → Mem 16) (filepath st hash : Bytes) : Code UInt8 :=
  if sIsDir (stMode st) then do
    let _ ← sys (.mkdir filepath homeMode)
    ret statusOk
  else if sIsLnk (stMode st) then do
    let buf := match ← sys (.readlink filepath pathMax) with
      | none => zeros 16
      | some target => (md5 target).val
    ret (if hash = buf then statusOk else statusMore)
  else if sIsReg (stMode st) then do
    let (result, buf) ← md5File md5 filepath (zeros 16)
    ret (if result < 0 ∨ hash ≠ buf then statusMore else statusOk)
  else ret statusOk

-- The reply to a SYNC_META request and the transfer it asks for.
def answerMeta (md5 : Bytes → Mem 16) (filepath st hash : Bytes) : Code Unit := do
  let status ← metaStatus md5 filepath st hash
  let header := header magicRes opSyncMeta status 0 0
  if status = statusMore then
    if sIsLnk (stMode st) then receiveLink filepath header
    else if sIsReg (stMode st) then receiveFile filepath header
    else ret ()
  else do
    let _ ← sendMessage header
    ret ()

def syncMeta (md5 : Bytes → Mem 16) (server : Server) (connFd : Nat) (head : Bytes) :
    Code Unit := do
  let _ ← sendMessage head
  let filepath ← getUserHomedir server (server.client connFd)
  let filepath ← strcat filepath [slash]
  let «meta» ← sys (.uninit sizeofMeta)
  let (ok, «meta») ← completeMessageWithHeader head «meta».val
  if ok then do
    let st := metaStat «meta»
    let pathlen := metaPathlen «meta»
    -- `int pathlen` sizes an array.
    checkSize (pathlen < 2 ^ 31 - 1)
    let (_, recPath) ← recvMessage (zeros (pathlen + 1)) pathlen
    let filepath ← strcat filepath recPath
    answerMeta md5 filepath st (metaHash «meta»)
    let _ ← sys (.utime filepath (stAtime st) (stMtime st))
    ret ()
  else ret ()

def syncHardlink (server : Server) (connFd : Nat) (head : Bytes) : Code Unit := do
  let _ ← sendMessage head
  let filepath ← getUserHomedir server (server.client connFd)
  let filepath ← strcat filepath [slash]
  let hardlink ← sys (.uninit sizeofHardlink)
  let (ok, hardlink) ← completeMessageWithHeader head hardlink.val
  if ok then do
    let srclen := hardlinkSrclen hardlink
    let targetlen := hardlinkTargetlen hardlink
    let (_, srcPath) ← recvMessage (zeros ((srclen + 1) % 2 ^ 32)) srclen
    let (_, targetPath) ← recvMessage (zeros ((targetlen + 1) % 2 ^ 32)) targetlen
    let (_, st) ← recvMessage (zeros sizeofStat) sizeofStat
    let source ← strcat filepath srcPath
    let target ← strcat filepath targetPath
    let _ ← sys (.link source target)
    let _ ← sys (.utime target (stAtime st) (stMtime st))
    ret ()
  else ret ()

def rm (server : Server) (connFd : Nat) (head : Bytes) : Code Unit := do
  let _ ← sendMessage head
  let filepath ← getUserHomedir server (server.client connFd)
  let filepath ← strcat filepath [slash]
  let rm ← sys (.uninit sizeofRm)
  let (ok, rm) ← completeMessageWithHeader head rm.val
  if ok then do
    let (_, buf) ← recvMessage (zeros ((rmPathlen rm + 1) % 2 ^ 32)) (rmPathlen rm)
    let filepath ← strcat filepath buf
    let _ ← sys (.remove filepath)
    ret ()
  else ret ()

-- The last header of a pull; only its status is set.
def sendOk (server : Server) (connFd : Nat) (hl : List HardLink) : Code Server := do
  let last ← sys (.uninit sizeofHeader)
  let _ ← sendMessage (setStatus last.val statusOk)
  ret { server with hl := Function.update server.hl connFd hl }

-- The pull: `hl` is shared with `traverse_file`.
def sendHome (md5 : Bytes → Mem 16) (server : Server) (connFd : Nat) (filepath : Bytes) :
    Code Server := do
  sys (.notice .serverNotEmpty)
  let hl ← serverTraverseFile md5 (filepath.length + 1) connFd pathMax filepath (server.hl connFd)
  sendOk server connFd hl

-- The LOGIN case behind the call of `login`.
def openHome (md5 : Bytes → Mem 16) (server : Server) (connFd : Nat) : Code Server := do
  let filepath ← getUserHomedir server (server.client connFd)
  match ← sys (.opendir filepath) with
  | none => halt .nullDeref
  | some entries =>
      let server ←
        (if 2 < entries.length then sendHome md5 server connFd filepath else ret server)
      ret { server with clientNum := server.clientNum + 1 }

def loginRequest (md5 : Bytes → Mem 16) (server : Server) (connFd : Nat) (head : Bytes) :
    Code Server := do
  let req ← sys (.uninit sizeofLogin)
  let (ok, req) ← completeMessageWithHeader head req.val
  let server ← (if ok then login md5 server connFd req else ret server)
  openHome md5 server connFd

-- What `handle_request` does behind the magic test.
def dispatch (md5 : Bytes → Mem 16) (server : Server) (connFd : Nat) (head : Bytes) :
    Code Server :=
  if headerOp head = opLogin then loginRequest md5 server connFd head
  else if headerOp head = opSyncMeta then do
    syncMeta md5 server connFd head
    ret server
  else if headerOp head = opSyncHardlink then do
    syncHardlink server connFd head
    ret server
  else if headerOp head = opRm then do
    rm server connFd head
    ret server
  -- SYNC_END and the default case do nothing.
  else ret server

def handleRequest (md5 : Bytes → Mem 16) (server : Server) (connFd : Nat) : Code Server := do
  let (ok, head) ← recvMessage (zeros sizeofHeader) sizeofHeader
  if ok then
    if headerMagic head ≠ magicReq then halt .threadExit
    else dispatch md5 server connFd head
  else ret (logout { server with clientNum := server.clientNum - 1 } connFd)

-- The rounds of `csiebox_server_run` that one connection sees.
def serveRound (md5 : Bytes → Mem 16) (connFd : Nat) (server : Server) : Code (Server ⊕ Unit) := do
  let server ← handleRequest md5 server connFd
  ret (.inl server)

end Requests

end Csiebox
