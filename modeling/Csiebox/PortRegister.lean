import Csiebox.Hash
import Csiebox.Lib.Bytes

namespace Csiebox

open CellHeap CBytes

def defaultRegisterPort : Int := 2500

def registerProtocolBufSize : Nat := 512

def portReserveSize : Nat := 512

-- `strncpy`: at most `size` bytes, with NUL bytes behind a shorter string.
def strncpy (src : Bytes) (size : Nat) : Bytes :=
  let copied := (src.take size).takeWhile (· ≠ 0)
  copied ++ List.replicate (size - copied.length) 0

structure Record where
  name : Bytes
  port : Int

-- The two globals of the registrar, and the heap the records live in.
structure Registrar where
  recordHash : Hash Nat
  records : Heap Record
  portReserve : List Int

-- One pass over the ports: a port that cannot be bound is taken.
def checkPortReserve (bindFails : Nat → Bool) (s : Registrar) : Registrar :=
  { s with portReserve := (List.range portReserveSize).map fun i => if bindFails i then 1 else 0 }

-- The state in which `main` enters its loop.
def Registrar.boot (bindFails : Nat → Bool) : Registrar :=
  checkPortReserve bindFails
    { recordHash := (initHash true Hash.zero 100).2
      records := []
      portReserve := List.replicate portReserveSize 0 }

def getHashCode (name : Bytes) : Int :=
  name.foldl (fun code b => wrap32 (wrap32 (code * 256) + charInt b)) 0

def getNextPort (s : Registrar) : Int × Registrar :=
  match s.portReserve.findIdx? (· == 0) with
  | some i => (i + defaultRegisterPort + 1, { s with portReserve := s.portReserve.set i 1 })
  | none => (-1, s)

-- `mallocRecord` and `mallocNode` are the outcomes of the allocations in
-- `book_port` and in the `put_into_hash` it calls.
def bookPort (mallocRecord mallocNode : Bool) (s : Registrar) (name : Bytes) : Int × Registrar :=
  let code := getHashCode name
  let r := (getFromHash s.recordHash code).2
  let (port, s) := getNextPort s
  if port = -1 then (-1, s)
  else match r with
    | none =>
        if !mallocRecord then (-1, s)
        else
          let r := s.records.length
          let records := alloc s.records { name := strncpy name name.length, port }
          let recordHash := (putIntoHash mallocNode s.recordHash r code).2
          (port, { s with records, recordHash })
    | some r =>
        match read s.records r with
        | none => (-1, s)
        | some record => (port, { s with records := write s.records r { record with port } })

def getPort (s : Registrar) (name : Bytes) : Int :=
  match getFromHash s.recordHash (getHashCode name) with
  | (1, some r) =>
      match read s.records r with
      | none => -1
      | some record => record.port
  | _ => -1

-- The request of one connection: `first` and `second` are what the two `read`
-- calls deliver. `none` means that nothing is written back.
def registrarRequest (mallocRecord mallocNode : Bool) (s : Registrar) (first second : Bytes) :
    Option Int × Registrar :=
  match first with
  | [] => (none, s)
  | act :: _ =>
      if second = [] then (none, s)
      else if act = 0x30 then
        let (port, s) := bookPort mallocRecord mallocNode s second
        (some port, s)
      else if act = 0x31 then (some (getPort s second), s)
      else (none, s)

-- `free(r)`, which accepts NULL.
def freeRecord (records : Heap Record) : Option Nat → Heap Record
  | none => records
  | some r => free records r

-- The `while` loop of `clean_port_reserve` over one chain. `none` is an access
-- outside an object: to a freed node or record, or off the end of `port_reserve`.
def cleanWalk (bindFails : Int → Bool) : Nat → Option Nat → Registrar → Option Registrar
  | _, none, s => some s
  | 0, some _, _ => none
  | fuel + 1, some n, s =>
      match read s.recordHash.heap n with
      | none => none
      | some node =>
          match read s.records node.contain with
          | none => none
          | some { port, .. } =>
              if bindFails port then cleanWalk bindFails fuel node.next s
              else
                let index := port - 1 - defaultRegisterPort
                if index < 0 ∨ s.portReserve.length ≤ index then none
                else
                  let portReserve := s.portReserve.set index.toNat 0
                  let tmpNode := node.next
                  let (_, r, recordHash) := delFromHash s.recordHash node.hashCode
                  let records := freeRecord s.records r
                  cleanWalk bindFails fuel tmpNode { recordHash, records, portReserve }

def cleanBucket (bindFails : Int → Bool) (s : Registrar) (i : Nat) : Option Registrar :=
  cleanWalk bindFails s.recordHash.fuel (s.recordHash.bucket i) s

-- `bindFails` is the outcome of `bind` for each port, fixed during the call.
def cleanPortReserve (bindFails : Int → Bool) (s : Registrar) : Option Registrar := do
  let s ← (List.range s.recordHash.n.toNat).foldlM (cleanBucket bindFails) s
  return checkPortReserve (fun i => bindFails (i + defaultRegisterPort + 1)) s

end Csiebox
