import Csiebox.Lib.Memory
import Csiebox.Lib.Program

namespace Csiebox

open CBytes Program

-- A variable of `n` bytes.
abbrev Mem (n : Nat) := { bs : Bytes // bs.length = n }

def pathMax : Nat := 4096

def slash : UInt8 := 0x2f

def dot : UInt8 := 0x2e

def stIno (st : Bytes) : Nat := leNat (slice 8 8 st)

def stNlink (st : Bytes) : Nat := leNat (slice 16 8 st)

def stMode (st : Bytes) : Nat := leNat (slice 24 4 st)

def stAtime (st : Bytes) : Int := signed 64 (leNat (slice 72 8 st))

def stMtime (st : Bytes) : Int := signed 64 (leNat (slice 88 8 st))

def sIsDir (mode : Nat) : Bool := mode &&& 0o170000 == 0o040000

def sIsReg (mode : Nat) : Bool := mode &&& 0o170000 == 0o100000

def sIsLnk (mode : Nat) : Bool := mode &&& 0o170000 == 0o120000

inductive LockType where
  | rdlck
  | wrlck
  | unlck
deriving DecidableEq

-- `l_whence` is always SEEK_SET; `len = 0` is a range without end.
structure Flock where
  type : LockType
  start : Int
  len : Int
  pid : Int
deriving DecidableEq

-- `memset(&fl, 0, sizeof(fl))`: F_RDLCK is 0.
def Flock.zero : Flock := { type := .rdlck, start := 0, len := 0, pid := 0 }

-- The bytes of a C string.
abbrev CStr := { bs : Bytes // ∀ b ∈ bs, b ≠ 0 }

structure Dirent where
  name : CStr
  isDir : Bool
deriving DecidableEq

inductive ReadResult where
  | data (bs : Bytes)
  | failed

-- The diagnostics on stderr that tell which part of the program runs.
inductive Notice where
  | num (n : Nat)
  | serverNotEmpty
  | endOfServerPull
  | startWatch
deriving DecidableEq

inductive Fault where
  | nullDeref
  | overrun
  | threadExit
  | stackOverflow
deriving DecidableEq

-- The system and library calls of both programs. `uninit` stands for a local
-- variable that the code leaves uninitialised, `reads` for the results of the
-- `read` calls on a newly opened file up to the one that returns 0.
inductive Sys : Type → Type where
  | uninit (n : Nat) : Sys (Mem n)
  | notice (msg : Notice) : Sys Unit
  | lstat (path : Bytes) : Sys (Option (Mem 144))
  | readlink (path : Bytes) (size : Nat) : Sys (Option Bytes)
  | reads (path : Bytes) : Sys (Option (List ReadResult))
  | fopenRead (path : Bytes) : Sys (Option (Nat × Bytes))
  | fopenWrite (path : Bytes) : Sys (Option Nat)
  | fwrite (fp : Nat) (bs : Bytes) : Sys Unit
  | fclose (fp : Nat) : Sys Unit
  | getlk (fp : Nat) (fl : Flock) : Sys Flock
  | setlk (fp : Nat) (fl : Flock) : Sys Bool
  | setlkw (fp : Nat) (fl : Flock) : Sys Bool
  | mkdir (path : Bytes) (mode : Nat) : Sys Bool
  | symlink (target path : Bytes) : Sys Bool
  | link (old new : Bytes) : Sys Bool
  | remove (path : Bytes) : Sys Bool
  | utime (path : Bytes) (atime mtime : Int) : Sys Bool
  | chdir (path : Bytes) : Sys Bool
  | opendir (path : Bytes) : Sys (Option (List Dirent))
  | addWatch (path : Bytes) : Sys Int
  | rmWatch (wd : Int) : Sys Bool
  | readEvents (size : Nat) : Sys Bytes

abbrev Code (α : Type) := Prog Sys UInt8 Fault α

-- What the operating system answers, from its state `F`. A call of another
-- process' doing (a lock that is waited for, an event) can make a call block.
class Posix (F : Type) where
  lstat : F → Bytes → Option (Mem 144)
  readlink : F → Bytes → Nat → Option Bytes
  reads : F → Bytes → Option (List ReadResult)
  fopenRead : F → Bytes → Option (Nat × Bytes)
  fopenWrite : F → Bytes → Option (Nat × F)
  fwrite : F → Nat → Bytes → F
  fclose : F → Nat → F
  getlk : F → Nat → Flock → Flock
  setlk : F → Nat → Flock → Bool × F
  setlkw : F → Nat → Flock → Option (Bool × F)
  mkdir : F → Bytes → Nat → Bool × F
  symlink : F → Bytes → Bytes → Bool × F
  link : F → Bytes → Bytes → Bool × F
  remove : F → Bytes → Bool × F
  utime : F → Bytes → Int → Int → Bool × F
  chdir : F → Bytes → Bool × F
  opendir : F → Bytes → Option (List Dirent)
  addWatch : F → Bytes → Int × F
  rmWatch : F → Int → Bool × F
  readEvents : F → Nat → Option (Bytes × F)

-- One process' view: `garbage k` fills the `k`-th uninitialised variable.
structure Host (F : Type) where
  fs : F
  garbage : Nat → Nat → UInt8
  locals : Nat
  notices : List Notice

section Kernel

variable {F : Type} [Posix F]

def Host.set (h : Host F) (r : α × F) : α × Host F := (r.1, { h with fs := r.2 })

def Host.exec : {γ : Type} → Sys γ → Host F → Option (γ × Host F)
  | _, .uninit n, h =>
      some (⟨(List.range n).map (h.garbage h.locals), by simp⟩, { h with locals := h.locals + 1 })
  | _, .notice msg, h => some ((), { h with notices := h.notices ++ [msg] })
  | _, .lstat path, h => some (Posix.lstat h.fs path, h)
  | _, .readlink path size, h => some (Posix.readlink h.fs path size, h)
  | _, .reads path, h => some (Posix.reads h.fs path, h)
  | _, .fopenRead path, h => some (Posix.fopenRead h.fs path, h)
  | _, .fopenWrite path, h =>
      match Posix.fopenWrite h.fs path with
      | none => some (none, h)
      | some (fp, fs) => some (some fp, { h with fs })
  | _, .fwrite fp bs, h => some ((), { h with fs := Posix.fwrite h.fs fp bs })
  | _, .fclose fp, h => some ((), { h with fs := Posix.fclose h.fs fp })
  | _, .getlk fp fl, h => some (Posix.getlk h.fs fp fl, h)
  | _, .setlk fp fl, h => some (h.set (Posix.setlk h.fs fp fl))
  | _, .setlkw fp fl, h => (Posix.setlkw h.fs fp fl).map h.set
  | _, .mkdir path mode, h => some (h.set (Posix.mkdir h.fs path mode))
  | _, .symlink target path, h => some (h.set (Posix.symlink h.fs target path))
  | _, .link old new, h => some (h.set (Posix.link h.fs old new))
  | _, .remove path, h => some (h.set (Posix.remove h.fs path))
  | _, .utime path atime mtime, h => some (h.set (Posix.utime h.fs path atime mtime))
  | _, .chdir path, h => some (h.set (Posix.chdir h.fs path))
  | _, .opendir path, h => some (Posix.opendir h.fs path, h)
  | _, .addWatch path, h => some (h.set (Posix.addWatch h.fs path))
  | _, .rmWatch wd, h => some (h.set (Posix.rmWatch h.fs wd))
  | _, .readEvents size, h => (Posix.readEvents h.fs size).map h.set

def host : Kernel Sys (Host F) where
  exec := Host.exec

end Kernel

end Csiebox
