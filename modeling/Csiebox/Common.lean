import Csiebox.Protocol

namespace Csiebox

open CBytes Program Prog

-- Memory that is written or sized outside its bounds.
def checkSize (fits : Prop) [Decidable fits] : Code Unit :=
  if fits then ret () else halt .overrun

-- `strcat` into an array of `PATH_MAX` bytes.
def strcat (dst src : Bytes) : Code Bytes := do
  checkSize (dst.length + (cString src).length < pathMax)
  ret (dst ++ cString src)

-- `snprintf(cpath, sizeof(cpath), "%s/%s", dir_name, d_name)`
def snprintfPath (dirName name : Bytes) : Bytes := (dirName ++ slash :: name).take (pathMax - 1)

-- What `md5_file` feeds to MD5; `none` is the update with the length -1 of a
-- failed `read`.
def hashedBytes : List ReadResult → Option Bytes
  | [] => some []
  | .failed :: _ => none
  | .data bs :: rs => (hashedBytes rs).map (bs ++ ·)

def md5File (md5 : Bytes → Mem 16) (path digest : Bytes) : Code (Int × Bytes) := do
  match ← sys (.reads path) with
  | none => ret (0, digest)
  | some rs =>
      match hashedBytes rs with
      | none => halt .overrun
      | some bs => ret (1, md5 bs)

-- The result is the truth value of the C function, the second component what
-- `message` holds afterwards.
def recvMessage (message : Bytes) (len : Nat) : Code (Bool × Bytes) :=
  if len = 0 then ret (false, message)
  else do
    let got ← hear len
    checkSize (got.length ≤ message.length)
    ret (got.length == len, overlay message got)

def completeMessageWithHeader (header result : Bytes) : Code (Bool × Bytes) := do
  let got ← hear (headerDatalen header)
  checkSize (sizeofHeader + got.length ≤ result.length)
  ret (got.length == headerDatalen header, overlay result (header ++ got))

def sendMessage (message : Bytes) : Code Bool :=
  if message.length = 0 then ret false else say message

end Csiebox
