import Csiebox.Posix
import Csiebox.WriteServer

namespace Csiebox.EvenServer

open CBytes WriteServer

-- The program with and without READ_SERVER.
inductive Build where
  | readServer
  | writeServer
deriving DecidableEq

-- What the system answers in one turn: the `read` on the connection (`none` is a
-- failed one), `open`, the F_SETLK, whether a `write` to the client raises SIGPIPE,
-- and the reads of the file up to the one that returns 0.
structure Answers where
  read : Option (Bytes × Bytes)
  fresh : Option Nat
  locked : Bool
  pipe : Bool
  file : List ReadResult

-- `fileFd` is the local `file_fd`, `none` is -1. `nullUsed` records that a NULL file
-- name was compared or opened.
structure Machine where
  state : State
  fileFd : Option Nat
  running : Bool
  nullUsed : Bool

def Machine.start (files : Bytes → Option Bytes) (peers : Nat → Peer) : Machine :=
  { state := State.start files peers, fileFd := none, running := true, nullUsed := false }

-- An exit, a signal or a crash.
def Machine.stop (m : Machine) : Machine := { m with running := false }

def Machine.useNull (m : Machine) : Machine := { m with nullUsed := true }

def Machine.go (m : Machine) (state : State) (fileFd : Option Nat) : Machine :=
  { m with state, fileFd }

-- A `write` to the client and what follows it.
def Machine.afterReply (m : Machine) (a : Answers) (next : Machine) : Machine :=
  if a.pipe then m.stop else next

-- `handle_read`; `none` is an exit.
def handleReadResult (req : Request) : Option (Bytes × Bytes) → Option (Int × Request)
  | none => some (-1, req)
  | some (got, behind) => (handleRead req got behind).map fun r => (r.1, r.2)

-- What the read has taken off the connection.
def Answers.got (a : Answers) : Bytes := (a.read.map Prod.fst).getD []

-- `open` on the name of the request, which fails on NULL.
def Answers.open (a : Answers) (req : Request) : Option Nat :=
  if req.filename = none then none else a.fresh

def Answers.heard (a : Answers) (s : State) (connFd : Nat) : State :=
  s.setPeer connFd fun p => { p with pending := p.pending.drop a.got.length }

section WriteBuild

-- Some other connection of `masterset` has a name to be compared with.
def othersNamed (maxfd connFd : Nat) (s : State) : Bool :=
  (List.range maxfd).any fun i =>
    4 ≤ i && s.masterset i && i != connFd && (s.requestP i).filename.isSome

-- From `close:` on.
def dropConn (s : State) (connFd : Nat) : State := { s.drop connFd with point := .top }

-- From `write_end:` on.
def finishWriting (s : State) (connFd : Nat) (fileFd : Option Nat) : State :=
  let s := { s with fdTable := Function.update s.fdTable connFd 0 }
  let s := match fileFd with
    | none => s
    | some fd => s.close fd
  dropConn s connFd

-- The end of the inner loop's body, with an open file.
def writeBody (m : Machine) (s : State) (connFd fileFd : Nat) (ret : Int) (req : Request) : Machine :=
  if ret = 0 then m.go (finishWriting s connFd (some fileFd)) none
  else m.go { s.writeFile fileFd req.buf with point := .serving connFd } (some fileFd)

-- The first turn of a session opens and locks its file.
def openToWrite (m : Machine) (s : State) (connFd : Nat) (a : Answers) (ret : Int) (req : Request) :
    Machine :=
  let m := if req.filename = none then m.useNull else m
  match a.open req with
  | none => m.afterReply a (m.go (finishWriting (s.reply connFd rejectHeader) connFd none) none)
  | some fresh =>
      let s := s.openFile connFd fresh
      if a.locked then
        m.afterReply a (writeBody m (s.reply connFd acceptHeader) connFd fresh ret req)
      else
        m.afterReply a
          (m.go (finishWriting (s.reply connFd rejectHeader) connFd (some fresh)) none)

-- One turn of the inner loop. After a failed read `continue` goes to the loop's test,
-- which fails: the clean-up runs with the `file_fd` of the turn before.
def writeTurn (maxfd connFd : Nat) (m : Machine) (a : Answers) : Machine :=
  let s := a.heard m.state connFd
  match handleReadResult (s.requestP connFd) a.read with
  | none => m.stop
  | some (ret, req) =>
      let s := s.setRequest connFd req
      if req.filename = none ∧ othersNamed maxfd connFd s = true then m.useNull.stop
      else if s.taken maxfd connFd then
        m.afterReply a (m.go (dropConn (s.reply connFd rejectHeader) connFd) none)
      else if ret < 0 then m.go (finishWriting s connFd m.fileFd) none
      else if s.fdTable connFd = 0 then openToWrite m s connFd a ret req
      else writeBody m s connFd (s.fdTable connFd) ret req

end WriteBuild

section ReadBuild

-- The copying loop; a failed `read` ends it like the end of the file.
def copyFile (s : State) (connFd : Nat) : List ReadResult → State
  | [] => s
  | .failed :: _ => s
  | .data bs :: rs => copyFile (s.reply connFd bs) connFd rs

def openToRead (s : State) (fresh : Nat) (name : Bytes) : State :=
  { s with descs := Function.update s.descs fresh (some (.file name 0)) }

-- One turn of the outer loop. After a failed read the connection stays in `masterset`;
-- `break` leaves the outer loop.
def readTurn (connFd : Nat) (m : Machine) (a : Answers) : Machine :=
  let s := a.heard m.state connFd
  match handleReadResult (s.requestP connFd) a.read with
  | none => m.stop
  | some (ret, req) =>
      let s := s.setRequest connFd req
      if ret < 0 then m.go { s with point := .top } none
      else
        let m := if req.filename = none then m.useNull else m
        match a.open req with
        | none => m.afterReply a (m.go (dropConn (s.reply connFd rejectHeader) connFd) none)
        | some fresh =>
            let s := openToRead s fresh (req.filename.getD [])
            if a.locked then
              let s := s.reply connFd acceptHeader
              if ret = 0 then m.stop
              else
                m.afterReply a (m.go (dropConn ((copyFile s connFd a.file).close fresh) connFd) none)
            else
              m.afterReply a
                (m.go (dropConn ((s.reply connFd rejectHeader).close fresh) connFd) none)

end ReadBuild

def turn (build : Build) (maxfd connFd : Nat) (m : Machine) (a : Answers) : Machine :=
  match build with
  | .readServer => readTurn connFd m a
  | .writeServer => writeTurn maxfd connFd m a

section Run

-- The answers the system can give: bytes the client has sent, an error or a signal
-- only on a connection that the client has closed or reset.
structure Answerable (maxfd : Nat) (s : State) (connFd : Nat) (a : Answers) : Prop where
  reads : ∀ got behind, a.read = some (got, behind) → Reads (s.peers connFd) got
  reset : a.read = none → (s.peers connFd).ended = true
  pipe : a.pipe = true → (s.peers connFd).ended = true
  fresh : ∀ fd, a.fresh = some fd → Free maxfd s fd

-- `serves` restricts the turns that are taken.
inductive Step (build : Build) (maxfd : Nat) (serves : Machine → Nat → Answers → Prop) :
    Machine → Machine → Prop where
  -- the clients
  | send {m : Machine} (fd : Nat) (bs : Bytes) (open_ : (m.state.peers fd).ended = false) :
      Step build maxfd serves m { m with state := m.state.setPeer fd fun p =>
        { p with sent := p.sent ++ bs, pending := p.pending ++ bs } }
  | finish {m : Machine} (fd : Nat) :
      Step build maxfd serves m { m with state := m.state.setPeer fd fun p =>
        { p with ended := true } }
  -- the outer loop
  | accept {m : Machine} (connFd : Nat) (header : Bytes) (runs : m.running = true)
      (top : m.state.point = .top) (free : Free maxfd m.state connFd) :
      Step build maxfd serves m { m with state := m.state.accept connFd header }
  | pick {m : Machine} (connFd : Nat) (runs : m.running = true) (top : m.state.point = .top)
      (ready : m.state.masterset connFd = true) (range : 4 ≤ connFd ∧ connFd < maxfd) :
      Step build maxfd serves m (m.go { m.state with point := .serving connFd } none)
  -- the inner loop
  | suspend {m : Machine} (runs : m.running = true) :
      Step build maxfd serves m (m.go { m.state with point := .top } none)
  | turn {m : Machine} {connFd : Nat} {a : Answers} (runs : m.running = true)
      (point : m.state.point = .serving connFd) (answers : Answerable maxfd m.state connFd a)
      (allowed : serves m connFd a) : Step build maxfd serves m (turn build maxfd connFd m a)

def Reaches (build : Build) (maxfd : Nat) (serves : Machine → Nat → Answers → Prop) :
    Machine → Machine → Prop :=
  Relation.ReflTransGen (Step build maxfd serves)

end Run

end Csiebox.EvenServer
