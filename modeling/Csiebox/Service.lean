import Csiebox.Server
import Mathlib.Logic.Relation

namespace Csiebox

open CBytes Program Prog

section Requests

variable {F : Type} [Posix F]

-- What the next uninitialised variable of `n` bytes holds.
def Host.fresh (h : Host F) (n : Nat) : Bytes := (List.range n).map (h.garbage h.locals)

-- The header `handle_request` begins with.
def requestHead (l : Link UInt8) : Bytes := l.inbox.take sizeofHeader

-- The peer's bytes hold a complete header with the request magic and this op.
def Asks (op : UInt8) (l : Link UInt8) : Prop :=
  sizeofHeader ≤ l.inbox.length ∧ headerMagic (requestHead l) = magicReq ∧
    headerOp (requestHead l) = op

instance (op : UInt8) (l : Link UInt8) : Decidable (Asks op l) :=
  inferInstanceAs (Decidable (_ ∧ _ ∧ _))

-- A request structure of `size` bytes as `complete_message_with_header` leaves it;
-- `none` when the body is cut off.
def messageOf (size : Nat) (h : Host F) (l : Link UInt8) : Option Bytes :=
  let body := l.inbox.drop sizeofHeader
  let datalen := headerDatalen (requestHead l)
  if datalen ≤ body.length then
    some (overlay (h.fresh size) (requestHead l ++ body.take datalen))
  else none

-- The account entry of the user a login message names, when its hash matches.
def accountOf (md5 : Bytes → Mem 16) (server : Server) (h : Host F) (req : Bytes) : Option Bytes :=
  match Posix.fopenRead h.fs server.accountPath with
  | none => none
  | some (_, content) =>
      let user := cString (loginUser req ++ h.fresh pathMax)
      let (found, account) := findAccount md5 user (zeros sizeofAccount) (lines content)
      if found && loginPasswdHash req == slice userLenMax 16 account then some account else none

-- The entry that the LOGIN request in `l` puts into `server->client`, if any.
def loginEntry (md5 : Bytes → Mem 16) (server : Server) (h : Host F) (l : Link UInt8) :
    Option Bytes :=
  let h' := { h with locals := h.locals + 1 }
  (messageOf sizeofLogin h l).bind (accountOf md5 server h')

end Requests

section Run

variable {F : Type} [Posix F]

-- The main thread of the server. `links fd` is what has arrived on `fd` and not
-- been read; `logins fd` records the entries that LOGIN requests have put into
-- `server->client[fd]` since the connection was accepted, the latest first. No
-- step reads it.
structure Service (F : Type) where
  server : Server
  host : Host F
  listenFd : Nat
  maxfd : Nat
  links : Nat → Link UInt8
  logins : Nat → List Bytes

-- `csiebox_server_init` and the lines of `csiebox_server_run` before the loop.
def Service.start (path accountPath : Bytes) (nullUser : Option Bytes) (listenFd : Nat)
    (host : Host F) : Service F where
  server := {
    path, accountPath, nullUser
    client := fun _ => none
    clientNum := 0
    masterset := Function.update (fun _ => false) listenFd true
    hl := fun _ => [] }
  host := host
  listenFd := listenFd
  maxfd := 3
  links := fun _ => ⟨[], false⟩
  logins := fun _ => []

-- A connection is accepted.
def Service.accept (w : Service F) (connFd : Nat) : Service F :=
  { w with
    server := { w.server with masterset := Function.update w.server.masterset connFd true }
    maxfd := if w.maxfd < connFd then connFd else w.maxfd
    links := Function.update w.links connFd ⟨[], false⟩
    logins := Function.update w.logins connFd [] }

-- The descriptors of the `for` loop.
def Service.ready (w : Service F) (workset : Nat → Bool) : List Nat :=
  (List.range (w.maxfd + 1)).filter fun i => 4 ≤ i && workset i

-- The peer sends more, or closes its end.
def Arrives (l l' : Link UInt8) : Prop :=
  ∃ more, l'.inbox = l.inbox ++ more ∧ (l.closed = true → more = [] ∧ l'.closed = true)

-- The service after a call of `handle_request` that found `l` on `fd`.
def Service.handled (md5 : Bytes → Mem 16) (w : Service F) (fd : Nat) (l : Link UInt8)
    (server : Server) (host : Host F) (l' : Link UInt8) : Service F :=
  { w with
    server, host
    links := Function.update w.links fd l'
    logins :=
      if Asks opLogin l then
        match loginEntry md5 w.server w.host l with
        | some account => Function.update w.logins fd (account :: w.logins fd)
        | none => w.logins
      else w.logins }

-- The `for` loop: one call of `handle_request` after the other. `G` restricts the
-- calls of a run by the state before the call and the bytes that meet it.
inductive Serves (md5 : Bytes → Mem 16) (G : Service F → Nat → Link UInt8 → Prop) :
    List Nat → Service F → Service F → Prop where
  | done (w : Service F) : Serves md5 G [] w w
  | next {fd : Nat} {fds : List Nat} {w w' : Service F} {l l' : Link UInt8} {out : Bytes}
      {server : Server} {h : Host F} (arrives : Arrives (w.links fd) l) (guarded : G w fd l)
      (handle : Exec host ⟨handleRequest md5 w.server fd, w.host, l⟩ out ⟨ret server, h, l'⟩)
      (rest : Serves md5 G fds (w.handled md5 fd l server h l') w') : Serves md5 G (fd :: fds) w w'

-- One turn of the loop of `csiebox_server_run`. `workset` is what `select` leaves of
-- `masterset`, without the listening descriptor.
inductive Turn (md5 : Bytes → Mem 16) (G : Service F → Nat → Link UInt8 → Prop) :
    Service F → Service F → Prop where
  -- a signal, or an `accept` that is to be retried
  | again (w : Service F) : Turn md5 G w w
  | serve {w w' : Service F} (workset : Nat → Bool)
      (selected : ∀ fd, workset fd = true → w.server.masterset fd = true ∧ fd ≠ w.listenFd)
      (handles : Serves md5 G (w.ready workset) w w') : Turn md5 G w w'
  | accept {w w' : Service F} (connFd : Nat) (fresh : w.server.masterset connFd = false)
      (workset : Nat → Bool)
      (selected : ∀ fd, workset fd = true → w.server.masterset fd = true ∧ fd ≠ w.listenFd)
      (handles : Serves md5 G ((w.accept connFd).ready workset) (w.accept connFd) w') :
      Turn md5 G w w'

-- The states at the top of the loop.
def Reaches (md5 : Bytes → Mem 16) (G : Service F → Nat → Link UInt8 → Prop) :
    Service F → Service F → Prop :=
  Relation.ReflTransGen (Turn md5 G)

end Run

end Csiebox
