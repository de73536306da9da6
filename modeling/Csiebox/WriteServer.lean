import Csiebox.Lib.Memory
import Mathlib.Logic.Function.Basic
import Mathlib.Logic.Relation

namespace Csiebox.WriteServer

open CBytes

def bufSize : Nat := 512

def fdTableSize : Nat := 1030

def listenFd : Nat := 3

-- `sizeof` of the pointer: the text and its NUL.
def acceptHeader : Bytes := [0x41, 0x43, 0x43, 0x45, 0x50, 0x54, 0x0a, 0]

def rejectHeader : Bytes := [0x52, 0x45, 0x4a, 0x45, 0x43, 0x54, 0x0a, 0]

-- `buf` holds the first `buf_len` bytes.
structure Request where
  connFd : Int
  buf : Bytes
  filename : Option Bytes
  headerDone : Bool
deriving DecidableEq

def initRequest : Request := { connFd := -1, buf := [], filename := none, headerDone := false }

section HandleRead

def crlf : Bytes := [0x0d, 0x0a]

def lf : Bytes := [0x0a]

-- Where the string `needle` begins in the string `hay`.
def strstr (needle : Bytes) : Bytes → Option Nat
  | [] => if needle = [] then some 0 else none
  | b :: bs => if needle <+: b :: bs then some 0 else (strstr needle bs).map (· + 1)

-- File name and body of a first read; `behind` lies behind it in memory. `none` is an
-- exit, or a line end that is found behind what was read.
def splitHeader (got behind : Bytes) : Option (Bytes × Bytes) :=
  let cut := fun i newlineLen : Nat =>
    if i + newlineLen ≤ got.length then
      some ((got ++ behind).take i, got.drop (i + newlineLen))
    else none
  match strstr crlf (cString (got ++ behind)) with
  | some i => cut i 2
  | none => (strstr lf (cString (got ++ behind))).bind (cut · 1)

-- The result and the request of a `read` that delivers `got`.
def handleRead (req : Request) (got behind : Bytes) : Option (Nat × Request) :=
  if got = [] then some (0, req)
  else if req.headerDone then some (1, { req with buf := got })
  else (splitHeader got behind).map fun (name, rest) =>
    (1, { req with filename := some name, buf := rest, headerDone := true })

end HandleRead

section State

-- What a descriptor stands for.
inductive Desc where
  | inherited
  | conn
  | file (name : Bytes) (offset : Nat)
deriving DecidableEq

-- A client's end: everything it has sent, what has not been read, and what it has
-- been sent. `header` is the line it begins with. The server sees `pending` alone.
structure Peer where
  header : Bytes
  sent : Bytes
  pending : Bytes
  ended : Bool
  got : Bytes

-- The two calls of `select`: the one of the outer loop and that of the inner one.
inductive Point where
  | top
  | serving (connFd : Nat)
deriving DecidableEq

structure State where
  masterset : Nat → Bool
  requestP : Nat → Request
  fdTable : Nat → Nat
  descs : Nat → Option Desc
  peers : Nat → Peer
  files : Bytes → Option Bytes
  point : Point

-- The state before the loop: 0 to 2 and the listening descriptor are in use. `files` is
-- what the directory holds.
def State.start (files : Bytes → Option Bytes) (peers : Nat → Peer) : State where
  masterset := Function.update (fun _ => false) listenFd true
  requestP := Function.update (fun _ => initRequest) listenFd { initRequest with connFd := listenFd }
  fdTable := fun _ => 0
  descs := fun fd => if fd ≤ listenFd then some .inherited else none
  peers
  files
  point := .top

namespace State

variable (s : State)

def setPeer (fd : Nat) (change : Peer → Peer) : State :=
  { s with peers := Function.update s.peers fd (change (s.peers fd)) }

def setRequest (fd : Nat) (req : Request) : State :=
  { s with requestP := Function.update s.requestP fd req }

-- `write` to the client of a request.
def reply (fd : Nat) (message : Bytes) : State :=
  s.setPeer (s.requestP fd).connFd.toNat fun p => { p with got := p.got ++ message }

def close (fd : Nat) : State := { s with descs := Function.update s.descs fd none }

-- `FD_CLR`, `close` and `free_request`
def drop (fd : Nat) : State :=
  { (s.close (s.requestP fd).connFd.toNat).setRequest fd initRequest with
    masterset := Function.update s.masterset fd false }

-- `open` with O_CREAT and O_TRUNC
def openFile (fd fresh : Nat) : State :=
  let name := (s.requestP fd).filename.getD []
  { s with
    files := Function.update s.files name (some [])
    descs := Function.update s.descs fresh (some (.file name 0))
    fdTable := Function.update s.fdTable fd fresh }

def writeAt (content : Bytes) (offset : Nat) (bs : Bytes) : Bytes :=
  content.take offset ++ zeros (offset - content.length) ++ bs ++ content.drop (offset + bs.length)

def writeFile (fileFd : Nat) (bs : Bytes) : State :=
  match s.descs fileFd with
  | some (.file name offset) =>
      { s with
        files := Function.update s.files name (some (writeAt ((s.files name).getD []) offset bs))
        descs := Function.update s.descs fileFd (some (.file name (offset + bs.length))) }
  | _ => s

-- The loop that sets `is`.
def taken (maxfd connFd : Nat) : Bool :=
  (List.range maxfd).any fun i =>
    4 ≤ i && s.masterset i && i != connFd && (s.requestP i).filename.isSome &&
      (s.requestP i).filename == (s.requestP connFd).filename

-- `accept` and the lines behind it
def accept (connFd : Nat) (header : Bytes) : State :=
  { s with
    masterset := Function.update s.masterset connFd true
    requestP := Function.update s.requestP connFd { s.requestP connFd with connFd }
    descs := Function.update s.descs connFd (some .conn)
    peers := Function.update s.peers connFd
      { header, sent := [], pending := [], ended := false, got := [] } }

-- One turn of the inner loop on a descriptor that can be read. `fresh` is what `open`
-- returns if it is called.
def round (maxfd connFd : Nat) (got behind : Bytes) (fresh : Nat) : Option State := do
  let s := s.setPeer connFd fun p => { p with pending := p.pending.drop got.length }
  let (ret, req) ← handleRead (s.requestP connFd) got behind
  let s := s.setRequest connFd req
  if s.taken maxfd connFd then
    some { (s.reply connFd rejectHeader).drop connFd with point := .top }
  else
    let s := if s.fdTable connFd = 0 then (s.openFile connFd fresh).reply connFd acceptHeader else s
    let fileFd := s.fdTable connFd
    if ret = 0 then
      let s := { s with fdTable := Function.update s.fdTable connFd 0 }
      some { (s.close fileFd).drop connFd with point := .top }
    else some { s.writeFile fileFd req.buf with point := .serving connFd }

end State

-- A connection of `masterset` that holds a file name.
def Holds (s : State) (fd : Nat) (name : Bytes) : Prop :=
  s.masterset fd = true ∧ (s.requestP fd).filename = some name

def Exclusive (s : State) : Prop :=
  ∀ ⦃a b name⦄, Holds s a name → Holds s b name → a = b

end State

section Run

-- What one `read` can deliver.
def Reads (p : Peer) (got : Bytes) : Prop :=
  got.length ≤ bufSize ∧ got <+: p.pending ∧ (got = [] → p.pending = [] ∧ p.ended = true)

-- The first read succeeds and is split where the client's header ends.
def FirstRead (s : State) (connFd : Nat) (got behind : Bytes) : Prop :=
  (s.requestP connFd).headerDone = false →
    got ≠ [] ∧ ∃ name rest, splitHeader got behind = some (name, rest) ∧
      (s.peers connFd).header ++ rest = got

-- A descriptor the system can give out.
structure Free (maxfd : Nat) (s : State) (fd : Nat) : Prop where
  unused : s.descs fd = none
  small : fd < maxfd ∧ fd < fdTableSize

-- One turn of the inner loop.
structure Serves (maxfd : Nat) (s : State) (connFd : Nat) (got behind : Bytes) (s' : State) : Prop where
  point : s.point = .serving connFd
  reads : Reads (s.peers connFd) got
  first : FirstRead s connFd got behind
  turn : ∃ fresh, Free maxfd s fresh ∧ s.round maxfd connFd got behind fresh = some s'

inductive Step (maxfd : Nat) : State → State → Prop where
  -- the clients
  | send {s : State} (fd : Nat) (bs : Bytes) (open_ : (s.peers fd).ended = false) :
      Step maxfd s (s.setPeer fd fun p => { p with sent := p.sent ++ bs, pending := p.pending ++ bs })
  | finish {s : State} (fd : Nat) : Step maxfd s (s.setPeer fd fun p => { p with ended := true })
  -- the outer loop
  | accept {s : State} (connFd : Nat) (header : Bytes) (top : s.point = .top)
      (free : Free maxfd s connFd) : Step maxfd s (s.accept connFd header)
  | pick {s : State} (connFd : Nat) (top : s.point = .top) (ready : s.masterset connFd = true)
      (range : 4 ≤ connFd ∧ connFd < maxfd) : Step maxfd s { s with point := .serving connFd }
  -- the inner loop
  | suspend {s : State} : Step maxfd s { s with point := .top }
  | serve {s s' : State} {connFd : Nat} {got behind : Bytes}
      (turn : Serves maxfd s connFd got behind s') : Step maxfd s s'

def Reaches (maxfd : Nat) : State → State → Prop := Relation.ReflTransGen (Step maxfd)

end Run

end Csiebox.WriteServer
