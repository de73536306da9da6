import Csiebox.Client

namespace Csiebox

open CBytes Program Prog

def passwdLenMax : Nat := 30

section Config

-- The arrays of `client->arg`, in the order of the structure.
inductive Field where
  | name
  | server
  | user
  | passwd
  | path
deriving DecidableEq

namespace Field

def all : List Field := [name, server, user, passwd, path]

def size : Field → Nat
  | name => 30
  | server => 30
  | user => userLenMax
  | passwd => passwdLenMax
  | path => pathMax

def key : Field → Bytes
  | name => [0x6e, 0x61, 0x6d, 0x65]
  | server => [0x73, 0x65, 0x72, 0x76, 0x65, 0x72]
  | user => [0x75, 0x73, 0x65, 0x72]
  | passwd => [0x70, 0x61, 0x73, 0x73, 0x77, 0x64]
  | path => [0x70, 0x61, 0x74, 0x68]

end Field

abbrev ClientArg := (f : Field) → Mem f.size

-- `memset(tmp, 0, sizeof(csiebox_client))`
def ClientArg.zero : ClientArg := fun f => ⟨zeros f.size, zeros_length _⟩

-- `getdelim` and `getline`: the characters up to the delimiter, with it, and what
-- has not been read; no characters at the end of the file.
def getdelim (delim : UInt8) (text : Bytes) : Bytes × Bytes :=
  let rest := text.dropWhile (· ≠ delim)
  (text.takeWhile (· ≠ delim) ++ rest.take 1, rest.drop 1)

-- `strncpy(dst, val, vallen)`: zeros behind a NUL.
def copyField {n : Nat} (dst : Mem n) (val : Bytes) (hval : val.length ≤ n) : Mem n :=
  let copied := cString val ++ zeros (val.length - (cString val).length)
  ⟨overlay dst.val copied, by
    have hlen : (cString val).length ≤ val.length := (List.takeWhile_prefix _).length_le
    have hfits : copied.length ≤ dst.val.length := by
      simp only [copied, List.length_append, zeros_length, dst.property]
      omega
    rw [overlay_length hfits, dst.property]⟩

-- The fields filled so far and `accept_config`.
abbrev Parsed := ClientArg × (Field → Bool)

-- The five `strcmp` branches.
def acceptConfig (parsed : Parsed) (key val : Bytes) : Parsed :=
  match Field.all.find? (fun f => f.key = key) with
  | none => parsed
  | some f =>
      if h : val.length ≤ f.size then
        (Function.update parsed.1 f (copyField (parsed.1 f) val h), Function.update parsed.2 f true)
      else parsed

-- The loop of `parse_arg`; every round uses up some of the text. Behind a key that
-- ends the file `val[vallen]` lies in front of the buffer.
def parseLines : Nat → Bytes → Parsed → Option Parsed
  | 0, _, parsed => some parsed
  | fuel + 1, text, parsed =>
      let (key, rest) := getdelim 0x3d text
      if key.length ≤ 1 then some parsed
      else
        let (val, rest) := getdelim 0x0a rest
        if val.length = 0 then none
        else parseLines fuel rest
          (acceptConfig parsed (cString (key.take (key.length - 1))) (val.take (val.length - 1)))

-- `none` is a file that is not accepted.
def parseArg (text : Bytes) : Option ClientArg := do
  let (arg, accepted) ← parseLines (text.length + 1) text (.zero, fun _ => false)
  if Field.all.all accepted then some arg else none

end Config

section Login

-- What lies behind `arg.passwd`: `path`, `conn_fd` and `client_id`, which is still 0.
def ClientArg.behindPasswd (arg : ClientArg) (connFd : Nat) : Bytes :=
  (arg .path).val ++ (leBytes 4 connFd ++ leBytes 4 0)

-- The string at `client->arg.passwd`, which need not end in its array.
def ClientArg.passwdText (arg : ClientArg) (connFd : Nat) : Bytes :=
  cString ((arg .passwd).val ++ arg.behindPasswd connFd)

def ClientArg.userText (arg : ClientArg) (connFd : Nat) : Bytes :=
  cString ((arg .user).val ++ ((arg .passwd).val ++ arg.behindPasswd connFd))

-- The request of `login`; `none` when the name runs out of the structure. The
-- digest is written over what the name has left in its place.
def ClientArg.loginRequest (md5 : Bytes → Mem 16) (arg : ClientArg) (connFd : Nat) : Option Bytes :=
  let user := arg.userText connFd
  if sizeofHeader + user.length ≤ sizeofLogin then
    let body := overlay (zeros (sizeofLogin - sizeofHeader)) user
    some (header magicReq opLogin 0 0 (sizeofLogin - sizeofHeader) ++
      (body.take userLenMax ++ ((md5 (arg.passwdText connFd)).val ++ body.drop (userLenMax + 16))))
  else none

end Login

end Csiebox
