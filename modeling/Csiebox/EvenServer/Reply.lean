import Csiebox.EvenServer

namespace Csiebox.EvenServer

open CBytes WriteServer

-- The texts of `accept_header` and `reject_header`.
def acceptText : Bytes := [0x41, 0x43, 0x43, 0x45, 0x50, 0x54, 0x0a]

def rejectText : Bytes := [0x52, 0x45, 0x4a, 0x45, 0x43, 0x54, 0x0a]

-- `sizeof` of a pointer is one more than the length of either text.
theorem acceptHeader_eq : acceptHeader = acceptText ++ [0] := rfl

theorem rejectHeader_eq : rejectHeader = rejectText ++ [0] := rfl

-- A connection whose first read brings a file name; the writes complete.
structure Requested (m : Machine) (connFd : Nat) (a : Answers) (name : Bytes) : Prop where
  conn : (m.state.requestP connFd).connFd = connFd
  header : (m.state.requestP connFd).headerDone = false
  first : ∃ got behind rest, a.read = some (got, behind) ∧ got ≠ [] ∧
    splitHeader got behind = some (name, rest)
  complete : a.pipe = false

-- What the client has been sent.
def Machine.received (m : Machine) (connFd : Nat) : Bytes := (m.state.peers connFd).got

def Answers.readable (a : Answers) : Bool := a.fresh.isSome && a.locked

-- The reply in terms of what the file's reads deliver.
def RepliesExactly (m : Machine) (connFd : Nat) (a : Answers) (content : Bytes) : Prop :=
  (readTurn connFd m a).received connFd =
    m.received connFd ++ if a.readable then acceptText ++ content else rejectText

section Replies

variable {m : Machine} {s : State} {connFd : Nat} {a : Answers} {name : Bytes}

theorem reply_got (message : Bytes) (hconn : (s.requestP connFd).connFd = connFd) :
    ((s.reply connFd message).peers connFd).got = (s.peers connFd).got ++ message := by
  simp [State.reply, State.setPeer, hconn]

@[simp] theorem reply_requestP (message : Bytes) : (s.reply connFd message).requestP = s.requestP := rfl

@[simp] theorem dropConn_peers (s : State) (connFd : Nat) : (dropConn s connFd).peers = s.peers := rfl

@[simp] theorem close_peers (s : State) (fd : Nat) : (s.close fd).peers = s.peers := rfl

@[simp] theorem openToRead_peers (s : State) (fresh : Nat) (name : Bytes) :
    (openToRead s fresh name).peers = s.peers := rfl

@[simp] theorem openToRead_requestP (s : State) (fresh : Nat) (name : Bytes) :
    (openToRead s fresh name).requestP = s.requestP := rfl

theorem copyFile_got (blocks : List Bytes) (hconn : (s.requestP connFd).connFd = connFd) :
    ((copyFile s connFd (blocks.map .data)).peers connFd).got =
      (s.peers connFd).got ++ blocks.flatten := by
  induction blocks generalizing s with
  | nil => simp [copyFile]
  | cons bs blocks ih =>
      have hrest := ih (s := s.reply connFd bs) hconn
      rw [List.map_cons, copyFile, hrest, reply_got bs hconn, List.flatten_cons, List.append_assoc]

-- The whole reply: a header with its NUL, and behind ACCEPT the file.
theorem readTurn_received (h : Requested m connFd a name) {blocks : List Bytes}
    (hfile : a.file = blocks.map .data) :
    (readTurn connFd m a).received connFd =
      m.received connFd ++ if a.readable then acceptHeader ++ blocks.flatten else rejectHeader := by
  obtain ⟨hconn, hheader, ⟨got, behind, rest, hread, hgot, hsplit⟩, hpipe⟩ := h
  have hresult : handleReadResult (((a.heard m.state connFd).requestP) connFd) a.read =
      some (1, { m.state.requestP connFd with
        filename := some name, buf := rest, headerDone := true }) := by
    simp [handleReadResult, hread, handleRead, hgot, hheader, hsplit, Answers.heard, State.setPeer]
  -- the tables after `handle_read`
  let req : Request := { m.state.requestP connFd with
    filename := some name, buf := rest, headerDone := true }
  let s := (a.heard m.state connFd).setRequest connFd req
  have hopen : a.open req = a.fresh := by simp [Answers.open, req]
  have hto : (s.requestP connFd).connFd = connFd := by simpa [s, State.setRequest, req] using hconn
  have hsent : (s.peers connFd).got = m.received connFd := by
    simp [s, State.setRequest, Answers.heard, State.setPeer, Machine.received]
  cases hfresh : a.fresh with
  | none =>
      have hturn : readTurn connFd m a = m.go (dropConn (s.reply connFd rejectHeader) connFd) none := by
        rw [readTurn, hresult]
        simp only [Machine.afterReply, hpipe]
        rw [hopen, hfresh]
        rfl
      rw [hturn]
      simp [Machine.received, Machine.go, Answers.readable, hfresh, reply_got, hto, hsent]
  | some fresh =>
      let s' := openToRead s fresh name
      have hturn : readTurn connFd m a = if a.locked then
            m.go (dropConn ((copyFile (s'.reply connFd acceptHeader) connFd a.file).close fresh) connFd)
              none
          else m.go (dropConn ((s'.reply connFd rejectHeader).close fresh) connFd) none := by
        rw [readTurn, hresult]
        simp only [Machine.afterReply, hpipe]
        rw [hopen, hfresh]
        rfl
      rw [hturn]
      cases hlocked : a.locked with
      | false => simp [Machine.received, Machine.go, Answers.readable, hlocked, reply_got, hto, hsent, s']
      | true =>
          simp [Machine.received, Machine.go, Answers.readable, hfresh, hlocked, hfile, copyFile_got,
            reply_got, hto, hsent, s']

-- The NUL of the header is sent too, whatever the file and its lock.
theorem read_reply_never_exact (h : Requested m connFd a name) {blocks : List Bytes}
    (hfile : a.file = blocks.map .data) : ¬RepliesExactly m connFd a blocks.flatten := by
  unfold RepliesExactly
  rw [readTurn_received h hfile, List.append_right_inj]
  cases a.readable with
  | true => simp [acceptHeader_eq]
  | false => simp [rejectHeader_eq]

end Replies

section Sample

def asksForF : Answers :=
  { read := some ([0x66, 0x0a], []), fresh := some 5, locked := true, pipe := false,
    file := [.data [0x61], .data [0x62]] }

def withClient : Machine :=
  let m := Machine.start (fun _ => some [0x61, 0x62]) fun _ =>
    { header := [], sent := [], pending := [], ended := false, got := [] }
  { m with state := m.state.accept 4 [0x66, 0x0a] }

theorem requested_f : Requested withClient 4 asksForF [0x66] :=
  ⟨by decide +kernel, by decide +kernel, ⟨_, _, [], rfl, by decide, by decide +kernel⟩, rfl⟩

theorem read_reply_never_exact_f :
    ¬RepliesExactly withClient 4 asksForF [[0x61], [0x62]].flatten :=
  read_reply_never_exact requested_f rfl

-- The client of a file "ab" gets ten bytes for nine.
theorem read_reply_carries_nul :
    (readTurn 4 withClient asksForF).received 4 = acceptText ++ 0 :: [0x61, 0x62] ∧
      ¬RepliesExactly withClient 4 asksForF [0x61, 0x62] := by
  have hfile : asksForF.file = [[0x61], [0x62]].map .data := rfl
  have hgot := readTurn_received requested_f hfile
  refine ⟨hgot, ?_⟩
  unfold RepliesExactly
  rw [hgot]
  decide +kernel

end Sample

end Csiebox.EvenServer
