import Csiebox.Config.Fields

namespace Csiebox

open CBytes Program

section Strings

variable {n : Nat}

def isSpace (b : UInt8) : Bool := b = 0x20 || (0x09 ≤ b && b ≤ 0x0d)

def isDigit (b : UInt8) : Bool := 0x30 ≤ b && b ≤ 0x39

-- `strtol` in base 10: clamped to a `long`.
def strtol (text : Bytes) : Int :=
  let digits (bs : Bytes) : Int :=
    (bs.takeWhile isDigit).foldl (fun num b => num * 10 + (b.toNat - 0x30 : Nat)) 0
  match text.dropWhile isSpace with
  | 0x2d :: bs => max (-digits bs) (-2 ^ 63)
  | 0x2b :: bs => min (digits bs) (2 ^ 63 - 1)
  | bs => min (digits bs) (2 ^ 63 - 1)

def atoi (text : Bytes) : Int := wrap32 (strtol text)

-- `strncpy` without a check.
def strncpyField (dst : Mem n) (val : Bytes) : Except Fault (Mem n) :=
  if h : val.length ≤ n then .ok (copyField dst val h) else .error .overrun

-- `strcat`; a field without NUL has no end to append to.
def strcatField (dst : Mem n) (text : Bytes) : Except Fault (Mem n) :=
  if h : (cString dst.val).length + text.length < n then
    .ok ⟨overlay dst.val (cString dst.val ++ (text ++ [0])), by
      have hfits : (cString dst.val ++ (text ++ [0])).length ≤ dst.val.length := by
        simp only [List.length_append, List.length_singleton, dst.property]
        omega
      rw [overlay_length hfits, dst.property]⟩
  else .error .overrun

end Strings

inductive ServerKey where
  | path
  | accountPath
  | threadNum
  | runPath
deriving DecidableEq

namespace ServerKey

def all : List ServerKey := [path, accountPath, threadNum, runPath]

def key : ServerKey → Bytes
  | path => [0x70, 0x61, 0x74, 0x68]
  | accountPath => [0x61, 0x63, 0x63, 0x6f, 0x75, 0x6e, 0x74, 0x5f, 0x70, 0x61, 0x74, 0x68]
  | threadNum => [0x74, 0x68, 0x72, 0x65, 0x61, 0x64, 0x5f, 0x6e, 0x75, 0x6d]
  | runPath => [0x72, 0x75, 0x6e, 0x5f, 0x70, 0x61, 0x74, 0x68]

end ServerKey

-- `server->arg` as far as `parse_arg` fills it.
structure ServerArg where
  path : Mem pathMax
  accountPath : Mem pathMax
  threadNum : Int
  runPath : Mem pathMax

namespace ServerArg

-- `memset(tmp, 0, sizeof(csiebox_server))`
def zero : ServerArg where
  path := ⟨zeros pathMax, zeros_length _⟩
  accountPath := ⟨zeros pathMax, zeros_length _⟩
  threadNum := 0
  runPath := ⟨zeros pathMax, zeros_length _⟩

-- The branch of `run_path`.
def appendRunPath (dst : Mem pathMax) (val : Bytes) : Except Fault (Mem pathMax) := do
  let dst ← strncpyField dst val
  strcatField dst [slash]

-- The fields filled so far and `accept_config`.
abbrev Parsed := ServerArg × (ServerKey → Bool)

-- The four `strcmp` branches.
def acceptConfig (parsed : Parsed) (key val : Bytes) : Except Fault Parsed :=
  let (arg, accepted) := parsed
  match ServerKey.all.find? (fun k => k.key = key) with
  | none => .ok parsed
  | some .path =>
      .ok (if h : val.length ≤ pathMax then
          ({ arg with path := copyField arg.path val h }, Function.update accepted .path true)
        else parsed)
  | some .accountPath =>
      .ok (if h : val.length ≤ pathMax then
          ({ arg with accountPath := copyField arg.accountPath val h },
            Function.update accepted .accountPath true)
        else parsed)
  | some .threadNum =>
      .ok ({ arg with threadNum := atoi val }, Function.update accepted .threadNum true)
  | some .runPath => do
      let runPath ← appendRunPath arg.runPath val
      return ({ arg with runPath }, Function.update accepted .runPath true)

def parseArg (text : Bytes) : Except Fault (Option ServerArg) := do
  let (arg, accepted) ← configLoop acceptConfig (text.length + 1) text (.zero, fun _ => false)
  return if ServerKey.all.all accepted then some arg else none

end ServerArg

end Csiebox
