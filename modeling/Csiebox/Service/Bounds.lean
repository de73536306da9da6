import Csiebox.Service.Paths
import Csiebox.Lib.Bounds

namespace Csiebox

open CBytes Program Prog

section Bounds

variable {F : Type} [Posix F]

-- Every receive of a call of `handle_request` has room for the bytes it asks for, and
-- what the requests with paths receive is only put where it fits: a length in the
-- variable that sizes an array, a path behind the home directory.
structure ReceivesInBounds (md5 : Bytes → Mem 16) (server : Server) (connFd : Nat) (h : Host F)
    (l : Link UInt8) : Prop where
  room : ∀ out q, Exec host ⟨handleRequest md5 server connFd, h, l⟩ out q → Roomy .overrun q
  contained : Changes l →
    ∀ out q, Exec host ⟨handleRequest md5 server connFd, h, l⟩ out q → Contained host .overrun q

-- The body of a request fits a structure of `size` bytes.
def BodyFits (size : Nat) (l : Link UInt8) : Prop :=
  sizeofHeader + headerDatalen (requestHead l) ≤ size

instance (size : Nat) (l : Link UInt8) : Decidable (BodyFits size l) := inferInstanceAs (Decidable (_ ≤ _))

-- A path of length `len` is put into an array with one more byte, as long as the
-- 32-bit sum does not wrap around.
def LengthFits (len : Nat) : Prop := len < 2 ^ 32 - 1

def Appendable (base path : Bytes) : Prop := base.length + (cString path).length < pathMax

instance (base path : Bytes) : Decidable (Appendable base path) := inferInstanceAs (Decidable (_ < _))

-- The chunk or link length announced at the start of `l`; `req` is what the
-- structure holds before.
def HeaderFits (req : Bytes) (l : Link UInt8) : Prop :=
  ∀ got, received l sizeofFile = some got → fileDatalen (overlay req got) ≤ N

-- One round of the chunk loop behind which there is another one.
def nextChunk : Bytes × Link UInt8 → Option (Bytes × Link UInt8)
  | (req, l) => do
      let got ← received l sizeofFile
      let req := overlay req got
      guard (fileDatalen req = N)
      let _ ← received (Link.skip l sizeofFile) N
      return (req, Link.skip (Link.skip l sizeofFile) N)

-- Every chunk that the loop asks for.
def ChunksFit (req : Bytes) (l : Link UInt8) : Prop :=
  ∀ req' l', Relation.ReflTransGen (fun c c' => nextChunk c = some c') (req, l) (req', l') →
    HeaderFits req' l'

-- The lock of another process is gone at some query of the loop.
def Unlocked (f : F) (fp : Nat) : Prop :=
  ∃ n, ((Posix.getlk f fp)^[n + 1] Flock.zero).type = .unlck

-- What follows the path of a SYNC_META request the server wants the content of.
def TransferFits (md5 : Bytes → Mem 16) (f : F) (filepath st hash : Bytes) (l : Link UInt8) : Prop :=
  statusOf md5 f filepath st hash = some statusMore →
    if sIsLnk (stMode st) then HeaderFits (zeros sizeofFile) l
    else ∀ fp f', Posix.fopenWrite f filepath = some (fp, f') → Unlocked f' fp →
      ChunksFit (zeros sizeofFile) l

-- The path length of a SYNC_META request is an `int` with a successor; while the body
-- has not arrived, some body has such a length.
def PathlenFits (h : Host F) (l : Link UInt8) : Prop :=
  match messageOf sizeofMeta h l with
  | some m => metaPathlen m < 2 ^ 31 - 1
  | none => ∃ body : Bytes, body.length = headerDatalen (requestHead l) ∧
      metaPathlen (overlay (h.fresh sizeofMeta) (requestHead l ++ body)) < 2 ^ 31 - 1

def MetaFits (md5 : Bytes → Mem 16) (base : Bytes) (h : Host F) (l : Link UInt8) : Prop :=
  BodyFits sizeofMeta l ∧ PathlenFits h l ∧ ∀ m, messageOf sizeofMeta h l = some m →
    ∀ path, received (behindBody l) (metaPathlen m) = some path →
      Appendable base path ∧
        TransferFits md5 h.fs (base ++ cString path) (metaStat m) (metaHash m)
          (Link.skip (behindBody l) (metaPathlen m))

def HardlinkFits (base : Bytes) (h : Host F) (l : Link UInt8) : Prop :=
  BodyFits sizeofHardlink l ∧ ∀ m, messageOf sizeofHardlink h l = some m →
    LengthFits (hardlinkSrclen m) ∧
      ∀ src, received (behindBody l) (hardlinkSrclen m) = some src →
        LengthFits (hardlinkTargetlen m) ∧
          ∀ target, received (Link.skip (behindBody l) (hardlinkSrclen m)) (hardlinkTargetlen m) =
              some target → Appendable base src ∧ Appendable base target

def RmFits (base : Bytes) (h : Host F) (l : Link UInt8) : Prop :=
  BodyFits sizeofRm l ∧ ∀ m, messageOf sizeofRm h l = some m →
    LengthFits (rmPathlen m) ∧
      ∀ path, received (behindBody l) (rmPathlen m) = some path → Appendable base path

-- The length fields of the request at the start of `l`.
structure RequestFits (md5 : Bytes → Mem 16) (base : Bytes) (h : Host F) (l : Link UInt8) : Prop where
  login : Asks opLogin l → BodyFits sizeofLogin l
  syncMeta : base.length < pathMax → Asks opSyncMeta l → MetaFits md5 base h l
  syncHardlink : base.length < pathMax → Asks opSyncHardlink l → HardlinkFits base h l
  rm : base.length < pathMax → Asks opRm l → RmFits base h l

end Bounds

end Csiebox
