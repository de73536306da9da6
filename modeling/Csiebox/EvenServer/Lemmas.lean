import Csiebox.EvenServer
import Csiebox.WriteServer.Lemmas

namespace Csiebox.EvenServer

open CBytes WriteServer

section Answers

variable {maxfd fd : Nat} {s : State} {a : Answers} {got behind : Bytes}

-- A read that succeeds.
theorem Answerable.of_read (hread : a.read = some (got, behind)) (hreads : Reads (s.peers fd) got)
    (hpipe : a.pipe = false) (hfresh : ∀ x, a.fresh = some x → Free maxfd s x) :
    Answerable maxfd s fd a where
  reads got' behind' h := by
    obtain ⟨rfl, -⟩ := Prod.ext_iff.mp (Option.some.inj (hread.symm.trans h))
    exact hreads
  reset h := by
    rw [hread] at h
    cases h
  pipe h := by
    rw [hpipe] at h
    cases h
  fresh := hfresh

-- A client that has left may have reset its connection.
theorem Answerable.of_ended (hread : a.read = none) (hended : (s.peers fd).ended = true)
    (hfresh : ∀ x, a.fresh = some x → Free maxfd s x) : Answerable maxfd s fd a where
  reads got' behind' h := by
    rw [hread] at h
    cases h
  reset _ := hended
  pipe _ := hended
  fresh := hfresh

end Answers

section Seats

-- A connection is idle, has not been asked for its file, or has one that is open.
inductive Seat (s : State) (fd : Nat) : Prop where
  | idle (h : Idle s fd)
  | asking (h : Asking s fd)
  | holding (name : Bytes) (h : Holding s fd name)
      (file : ∃ path offset, s.descs (s.fdTable fd) = some (.file path offset))

structure Inv (build : Build) (maxfd : Nat) (m : Machine) : Prop where
  low : ∀ fd ≤ listenFd, (m.state.requestP fd).filename = none ∧ m.state.fdTable fd = 0 ∧
    m.state.descs fd = some .inherited
  seat : ∀ fd, 4 ≤ fd → Seat m.state fd
  small : ∀ fd, 4 ≤ fd → m.state.masterset fd = true → fd < maxfd
  exclusive : Exclusive m.state
  apart : ∀ a b, m.state.fdTable a = m.state.fdTable b → m.state.fdTable a ≠ 0 → a = b
  point : ∀ fd, m.state.point = .serving fd → 4 ≤ fd ∧ m.state.masterset fd = true ∧
    ∀ x, m.fileFd = some x → x = m.state.fdTable fd ∧ x ≠ 0
  reading : build = .readServer → ∀ fd, m.state.fdTable fd = 0

variable {s : State} {fd : Nat}

-- The table's entries above 3 are files.
theorem Seat.file_of_table (h : Seat s fd) (hne : s.fdTable fd ≠ 0) :
    ∃ path offset, s.descs (s.fdTable fd) = some (.file path offset) := by
  cases h with
  | idle h => exact absurd h.table hne
  | asking h => exact absurd h.table hne
  | holding name h hfile => exact hfile

theorem Seat.conn_of_member (h : Seat s fd) (hm : s.masterset fd = true) :
    s.descs fd = some .conn ∧ (s.requestP fd).connFd = fd := by
  cases h with
  | idle h => rw [h.out] at hm; cases hm
  | asking h => exact ⟨h.desc, h.conn⟩
  | holding name h _ => exact ⟨h.desc, h.conn⟩

end Seats

section Effects

-- While `fd` is served its request and its peer change.
structure Served (fd : Nat) (s t : State) : Prop where
  masterset : t.masterset = s.masterset
  fdTable : t.fdTable = s.fdTable
  descs : t.descs = s.descs
  files : t.files = s.files
  conn : (t.requestP fd).connFd = (s.requestP fd).connFd
  others : ∀ o, o ≠ fd → t.requestP o = s.requestP o ∧ t.peers o = s.peers o

def closing (descs : Nat → Option Desc) : Option Nat → Nat → Option Desc
  | none => descs
  | some x => Function.update descs x none

-- The session of `fd` has ended and the descriptor `c` was closed.
structure Left (fd : Nat) (s : State) (c : Option Nat) (t : State) : Prop where
  masterset : t.masterset = Function.update s.masterset fd false
  fdTable : t.fdTable = Function.update s.fdTable fd 0
  descs : t.descs = Function.update (closing s.descs c) fd none
  request : t.requestP fd = initRequest
  others : ∀ o, o ≠ fd → t.requestP o = s.requestP o ∧ t.peers o = s.peers o
  point : t.point = .top

-- The session of `fd` goes on with the file descriptor `x`.
structure Kept (fd : Nat) (s : State) (x : Nat) (name : Bytes) (t : State) : Prop where
  masterset : t.masterset = s.masterset
  fdTable : t.fdTable = Function.update s.fdTable fd x
  descs : ∃ path offset, t.descs = Function.update s.descs x (some (.file path offset))
  conn : (t.requestP fd).connFd = (s.requestP fd).connFd
  named : (t.requestP fd).filename = some name
  header : (t.requestP fd).headerDone = true
  others : ∀ o, o ≠ fd → t.requestP o = s.requestP o ∧ t.peers o = s.peers o
  point : t.point = .serving fd

variable {s t : State} {fd : Nat} {a : Answers}

theorem served_heard {req : Request} (hreq : req.connFd = (s.requestP fd).connFd) :
    Served fd s ((a.heard s fd).setRequest fd req) := by
  refine ⟨rfl, rfl, rfl, rfl, ?_, ?_⟩
  · simpa [State.setRequest] using hreq
  · intro o hne
    simp [State.setRequest, Answers.heard, State.setPeer, hne]

theorem Served.reply (h : Served fd s t) (hconn : (s.requestP fd).connFd = fd) (message : Bytes) :
    Served fd s (t.reply fd message) := by
  have hto : (t.requestP fd).connFd.toNat = fd := by rw [h.conn, hconn, Int.toNat_natCast]
  refine ⟨h.masterset, h.fdTable, h.descs, h.files, h.conn, ?_⟩
  intro o hne
  refine ⟨(h.others o hne).1, ?_⟩
  simp only [State.reply, State.setPeer, hto, Function.update_of_ne hne]
  exact (h.others o hne).2

theorem Served.finish (h : Served fd s t) (hconn : (s.requestP fd).connFd = fd) (c : Option Nat) :
    Left fd s c (finishWriting t fd c) ∧ (finishWriting t fd c).files = s.files := by
  have hto : (t.requestP fd).connFd.toNat = fd := by rw [h.conn, hconn, Int.toNat_natCast]
  cases c <;>
    refine ⟨⟨?_, ?_, ?_, ?_, ?_, rfl⟩, h.files⟩ <;>
    simp +contextual [finishWriting, dropConn, State.drop, State.close, State.setRequest, closing,
      h.masterset, h.fdTable, h.descs, hto, h.others]

theorem Served.drop (h : Served fd s t) (hconn : (s.requestP fd).connFd = fd)
    (htable : s.fdTable fd = 0) : Left fd s none (dropConn t fd) := by
  have hto : (t.requestP fd).connFd.toNat = fd := by rw [h.conn, hconn, Int.toNat_natCast]
  refine ⟨?_, ?_, ?_, ?_, ?_, rfl⟩
  · simp [dropConn, State.drop, State.close, State.setRequest, h.masterset]
  · rw [← htable, Function.update_eq_self]
    exact h.fdTable
  · simp [dropConn, State.drop, State.close, State.setRequest, closing, h.descs, hto]
  · simp [dropConn, State.drop, State.close, State.setRequest]
  · simp +contextual [dropConn, State.drop, State.close, State.setRequest, h.others]

end Effects

end Csiebox.EvenServer
