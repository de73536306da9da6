import Csiebox.Posix

namespace Csiebox

open CBytes

def userLenMax : Nat := 30

def N : Nat := 1048576

def magicReq : UInt8 := 0x90

def magicRes : UInt8 := 0x91

def opLogin : UInt8 := 0x00

def opSyncMeta : UInt8 := 0x01

def opSyncFile : UInt8 := 0x02

def opSyncHardlink : UInt8 := 0x03

def opSyncEnd : UInt8 := 0x04

def opRm : UInt8 := 0x05

def statusOk : UInt8 := 0x00

def statusFail : UInt8 := 0x01

def statusMore : UInt8 := 0x02

def statusBusy : UInt8 := 0x03

def statusBlock : UInt8 := 0x04

section Header

-- The twelve bytes of the common header, its padding zero.
def header (magic op status : UInt8) (clientId datalen : Nat) : Bytes :=
  [magic, op, status, 0] ++ leBytes 2 clientId ++ [0, 0] ++ leBytes 4 datalen

def headerMagic (h : Bytes) : UInt8 := h.getD 0 0

def headerOp (h : Bytes) : UInt8 := h.getD 1 0

def headerStatus (h : Bytes) : UInt8 := h.getD 2 0

def headerClientId (h : Bytes) : Nat := leNat (slice 4 2 h)

def headerDatalen (h : Bytes) : Nat := leNat (slice 8 4 h)

def setStatus (h : Bytes) (status : UInt8) : Bytes := h.set 2 status

end Header

section Messages

def sizeofHeader : Nat := 12

def sizeofLogin : Nat := 60

def sizeofStat : Nat := 144

def sizeofMeta : Nat := 184

def sizeofFile : Nat := 24

def sizeofHardlink : Nat := 20

def sizeofRm : Nat := 16

-- `user` is the whole array of `USER_LEN_MAX` bytes.
def loginBody (user hash : Bytes) : Bytes := user ++ (hash ++ zeros 2)

def loginMessage (user hash : Bytes) : Bytes :=
  header magicReq opLogin 0 0 (sizeofLogin - sizeofHeader) ++ loginBody user hash

def loginUser (m : Bytes) : Bytes := m.drop 12

def loginPasswdHash (m : Bytes) : Bytes := slice 42 16 m

-- `struct stat` is aligned to 8 bytes, hence the gaps before and in the body.
def metaBody (pathlen : Nat) (st hash : Bytes) : Bytes :=
  zeros 4 ++ (leBytes 4 pathlen ++ (zeros 4 ++ (st ++ hash)))

def metaMessage (status : UInt8) (pathlen : Nat) (st hash : Bytes) : Bytes :=
  header magicReq opSyncMeta status 0 (sizeofMeta - sizeofHeader) ++ metaBody pathlen st hash

def metaPathlen (m : Bytes) : Nat := leNat (slice 16 4 m)

def metaStat (m : Bytes) : Bytes := slice 24 144 m

def metaHash (m : Bytes) : Bytes := slice 168 16 m

def fileMessage (datalen : Nat) : Bytes :=
  header magicReq opSyncFile 0 0 (sizeofFile - sizeofHeader) ++ (zeros 4 ++ leBytes 8 datalen)

def fileDatalen (m : Bytes) : Nat := leNat (slice 16 8 m)

def hardlinkBody (srclen targetlen : Nat) : Bytes := leBytes 4 srclen ++ leBytes 4 targetlen

def hardlinkMessage (srclen targetlen : Nat) : Bytes :=
  header magicReq opSyncHardlink 0 0 (sizeofHardlink - sizeofHeader) ++
    hardlinkBody srclen targetlen

def hardlinkSrclen (m : Bytes) : Nat := leNat (slice 12 4 m)

def hardlinkTargetlen (m : Bytes) : Nat := leNat (slice 16 4 m)

def rmMessage (pathlen : Nat) : Bytes :=
  header magicReq opRm 0 0 (sizeofRm - sizeofHeader) ++ leBytes 4 pathlen

def rmPathlen (m : Bytes) : Nat := leNat (slice 12 4 m)

end Messages

end Csiebox
