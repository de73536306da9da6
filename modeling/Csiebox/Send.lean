import Csiebox.Common

namespace Csiebox

open CBytes Program Prog

-- The digest in `send_meta`. A failed `readlink` makes -1 the length to hash.
def metaDigest (md5 : Bytes → Mem 16) (st path : Bytes) : Code Bytes :=
  if sIsLnk (stMode st) then do
    match ← sys (.readlink path pathMax) with
    | none => halt .overrun
    | some target => ret (md5 target).val
  else if sIsReg (stMode st) then do
    let (_, hash) ← md5File md5 path (zeros 16)
    ret hash
  else ret (zeros 16)

-- One round of the loop of `send_meta`: a lost answer repeats it too.
def announce (req : Bytes) (_ : Unit) : Code (Unit ⊕ Unit) := do
  let _ ← sendMessage req
  let (ok, header) ← recvMessage (zeros sizeofHeader) sizeofHeader
  ret (if ok && headerStatus header != statusBusy then .inr () else .inl ())

def sendMeta (md5 : Bytes → Mem 16) (st path : Bytes) : Code Unit := do
  let hash ← metaDigest md5 st path
  iter (announce (metaMessage statusMore path.length st hash)) ()
  let _ ← sendMessage path
  ret ()

-- One round of the loop of `send_file`; `rest` is what `fread` has not delivered.
def sendChunk (chunk : Nat) (rest : Bytes) : Code (Bytes ⊕ Unit) := do
  let buf := rest.take chunk
  let _ ← sendMessage (fileMessage buf.length)
  let _ ← sendMessage buf
  ret (if buf.length = chunk then .inl (rest.drop chunk) else .inr ())

def sendChunks (chunk : Nat) (content : Bytes) : Code Unit := iter (sendChunk chunk) content

def sendFile (st path : Bytes) : Code Unit :=
  if sIsReg (stMode st) then do
    match ← sys (.fopenRead path) with
    | none => halt .nullDeref
    | some (fp, content) =>
        let _ ← sys (.setlkw fp { Flock.zero with type := .rdlck })
        sendChunks N content
        let _ ← sys (.setlkw fp { Flock.zero with type := .unlck })
        sys (.fclose fp)
  else if sIsLnk (stMode st) then do
    match ← sys (.readlink path N) with
    | none => halt .overrun
    | some target =>
        let _ ← sendMessage (fileMessage target.length)
        let _ ← sendMessage target
        ret ()
  else ret ()

def awaitVerdict (header : Bytes) : Code (Bytes ⊕ Bytes) := do
  let (ok, header) ← recvMessage header sizeofHeader
  ret (if ok && headerStatus header != statusBlock then .inr header else .inl header)

def syncFile (md5 : Bytes → Mem 16) (st path : Bytes) : Code Unit := do
  sendMeta md5 st (path.drop 2)
  let header ← iter awaitVerdict (zeros sizeofHeader)
  if headerStatus header = statusMore then sendFile st path else ret ()

def announceLink (hl header : Bytes) : Code (Bytes ⊕ Unit) := do
  let _ ← sendMessage hl
  let (_, header) ← recvMessage header sizeofHeader
  ret (if headerStatus header = statusBusy then .inl header else .inr ())

def sendHardlink (oldPath newPath : Bytes) : Code Unit := do
  iter (announceLink (hardlinkMessage oldPath.length newPath.length)) (zeros sizeofHeader)
  let _ ← sendMessage oldPath
  let _ ← sendMessage newPath
  ret ()

end Csiebox
