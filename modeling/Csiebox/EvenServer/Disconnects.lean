import Csiebox.EvenServer.Invariant

namespace Csiebox.EvenServer

open CBytes WriteServer

-- Everything the servers keep of the session of `o`.
structure SameSession (s t : State) (o : Nat) : Prop where
  masterset : t.masterset o = s.masterset o
  request : t.requestP o = s.requestP o
  table : t.fdTable o = s.fdTable o
  peer : t.peers o = s.peers o
  conn : t.descs o = s.descs o
  file : s.fdTable o ≠ 0 → t.descs (s.fdTable o) = s.descs (s.fdTable o)
  content : ∀ name, (s.requestP o).filename = some name → t.files name = s.files name

-- The server goes on, has used no NULL name, and leaves the other sessions alone
-- when `fd` disconnects.
structure Survives (m m' : Machine) (fd : Nat) (a : Answers) : Prop where
  running : m'.running = true
  named : m'.nullUsed = false
  others : a.got = [] → ∀ o, o ≠ fd → m.state.masterset o = true → SameSession m.state m'.state o

section Turns

variable {build : Build} {maxfd fd : Nat} {m m' : Machine} {a : Answers}

theorem Inv.member_desc {o : Nat} (hinv : Inv build maxfd m) (hmem : m.state.masterset o = true) :
    ∃ d, m.state.descs o = some d ∧ ¬IsFile d := by
  by_cases h4 : 4 ≤ o
  · exact ⟨_, ((hinv.seat o h4).conn_of_member hmem).1, not_isFile_conn⟩
  · exact ⟨_, (hinv.low_of_lt (by omega)).2.2, not_isFile_inherited⟩

theorem Turned.survives (hinv : Inv build maxfd m) (hpoint : m.state.point = .serving fd)
    (h : Turned build maxfd m fd a m') (hharmless : Harmless build maxfd m fd a)
    (hruns : m.running = true) (hnull : m.nullUsed = false) : Survives m m' fd a := by
  obtain ⟨h4, hmem, -⟩ := hinv.point fd hpoint
  obtain ⟨hdesc, -⟩ := (hinv.seat fd h4).conn_of_member hmem
  cases h with
  | harmed m' hharm _ => exact absurd hharmless hharm
  | stays t _ hserved hrequest =>
      refine ⟨hruns, hnull, fun _ o hne _ => ?_⟩
      exact ⟨congrFun hserved.masterset o, congrFun hrequest o, congrFun hserved.fdTable o,
        (hserved.others o hne).2, congrFun hserved.descs o, fun _ => congrFun hserved.descs _,
        fun name _ => congrFun hserved.files name⟩
  | left c t hc hleft hfiles =>
      refine ⟨hruns, hnull, fun hgot o hne hmem' => ?_⟩
      obtain ⟨d, hd, hnot⟩ := hinv.member_desc hmem'
      refine ⟨?_, (hleft.others o hne).1, ?_, (hleft.others o hne).2, ?_, ?_, ?_⟩
      · simp only [Machine.go, hleft.masterset, Function.update_of_ne hne]
      · simp only [Machine.go, hleft.fdTable, Function.update_of_ne hne]
      · exact (hleft.keeps hc hinv hd hne (.inr hnot)).trans hd.symm
      · intro hopen
        obtain ⟨path, offset, hfile⟩ := hinv.file_of_table hopen
        obtain ⟨hown, hfd⟩ := hinv.apart_files hdesc hne hopen
        exact (hleft.keeps hc hinv hfile hfd (.inl hown)).trans hfile.symm
      · exact fun name _ => congrFun (hfiles hgot) name
  | kept x name t _ _ _ hmore => exact ⟨hruns, hnull, fun hgot => absurd hgot hmore⟩

end Turns

section Runs

variable {build : Build} {maxfd : Nat} {m : Machine}

theorem survives_reaches {files : Bytes → Option Bytes} {peers : Nat → Peer}
    (h : Reaches build maxfd (Harmless build maxfd) (Machine.start files peers) m) :
    m.running = true ∧ m.nullUsed = false := by
  induction h with
  | refl => exact ⟨rfl, rfl⟩
  | tail hreach hstep ih =>
      obtain ⟨hruns, hnull⟩ := ih
      cases hstep with
      | send _ _ _ => exact ⟨hruns, hnull⟩
      | finish _ => exact ⟨hruns, hnull⟩
      | accept _ _ _ _ _ => exact ⟨hruns, hnull⟩
      | pick _ _ _ _ _ => exact ⟨hruns, hnull⟩
      | suspend _ => exact ⟨hruns, hnull⟩
      | turn _ hpoint hanswers hharmless =>
          have hinv := inv_reaches hreach (fun _ _ _ hh => .inl hh) hruns
          have hsurvives := (turn_turned hinv hpoint hanswers).survives hinv hpoint hharmless hruns hnull
          exact ⟨hsurvives.running, hsurvives.named⟩

-- In a run of harmless turns every state is that of a running server, and every
-- harmless turn keeps it so.
theorem disconnects_do_not_stop {files : Bytes → Option Bytes} {peers : Nat → Peer}
    (h : Reaches build maxfd (Harmless build maxfd) (Machine.start files peers) m) :
    m.running = true ∧ m.nullUsed = false ∧
      ∀ fd a, m.state.point = .serving fd → Answerable maxfd m.state fd a →
        Harmless build maxfd m fd a → Survives m (turn build maxfd fd m a) fd a := by
  obtain ⟨hruns, hnull⟩ := survives_reaches h
  have hinv := inv_reaches h (fun _ _ _ hh => .inl hh) hruns
  refine ⟨hruns, hnull, ?_⟩
  intro fd a hpoint hanswers hharmless
  exact (turn_turned hinv hpoint hanswers).survives hinv hpoint hharmless hruns hnull

end Runs

section Samples

def noPeers : Nat → Peer := fun _ => { header := [], sent := [], pending := [], ended := false, got := [] }

def started : Machine := Machine.start (fun _ => none) noPeers

def hangsUp (fd : Nat) (m : Machine) : Machine :=
  { m with state := m.state.setPeer fd fun p => { p with ended := true } }

def tells (fd : Nat) (bs : Bytes) (m : Machine) : Machine :=
  { m with state := m.state.setPeer fd fun p =>
      { p with sent := p.sent ++ bs, pending := p.pending ++ bs } }

def accepts (fd : Nat) (m : Machine) : Machine :=
  { m with state := m.state.accept fd [0x66, 0x0a] }

def picks (fd : Nat) (m : Machine) : Machine := m.go { m.state with point := .serving fd } none

def returns (m : Machine) : Machine := m.go { m.state with point := .top } none

def readsNothing : Answers :=
  { read := some ([], []), fresh := none, locked := false, pipe := false, file := [] }

def readFails : Answers := { readsNothing with read := none }

-- The header line "f" is read, and the file is opened as `fresh`.
def readsHeader (fresh : Nat) : Answers :=
  { read := some ([0x66, 0x0a], []), fresh := some fresh, locked := true, pipe := false, file := [] }

-- A client that connects and leaves before it has sent anything.
def leftEarly : Machine := picks 4 (hangsUp 4 (accepts 4 started))

theorem free_of {m : Machine} {fd : Nat} (hunused : m.state.descs fd = none) (hsmall : fd < 16) :
    Free 16 m.state fd := ⟨hunused, hsmall, by simp only [fdTableSize]; omega⟩

theorem leftEarly_reached (build : Build) (serves : Machine → Nat → Answers → Prop) :
    Reaches build 16 serves started leftEarly := by
  have haccept : Reaches build 16 serves started (accepts 4 started) :=
    .single (.accept 4 _ rfl rfl (free_of rfl (by decide)))
  have hleft : Reaches build 16 serves started (hangsUp 4 (accepts 4 started)) :=
    haccept.tail (.finish 4)
  exact hleft.tail (.pick 4 rfl rfl rfl (by decide))

-- A client whose file "f" is open.
def holdsF : Machine :=
  returns (turn .writeServer 16 4 (picks 4 (tells 4 [0x66, 0x0a] (accepts 4 started))) (readsHeader 5))

theorem readsNothing_answerable {s : State} {fd : Nat} (hpending : (s.peers fd).pending = [])
    (hended : (s.peers fd).ended = true) : Answerable 16 s fd readsNothing :=
  .of_read rfl ⟨Nat.zero_le _, List.nil_prefix, fun _ => ⟨hpending, hended⟩⟩ rfl (fun _ h => by cases h)

theorem readFails_answerable {s : State} {fd : Nat} (hended : (s.peers fd).ended = true) :
    Answerable 16 s fd readFails :=
  .of_ended rfl hended (fun _ h => by cases h)

theorem header_answerable : Answerable 16
    (picks 4 (tells 4 [0x66, 0x0a] (accepts 4 started))).state 4 (readsHeader 5) := by
  refine .of_read rfl ⟨by decide, ⟨[], rfl⟩, fun h => by cases h⟩ rfl ?_
  rintro x ⟨⟩
  exact free_of rfl (by decide)

theorem holdsF_reached {serves : Machine → Nat → Answers → Prop}
    (hserves : serves (picks 4 (tells 4 [0x66, 0x0a] (accepts 4 started))) 4 (readsHeader 5)) :
    Reaches .writeServer 16 serves started holdsF := by
  have haccept : Reaches .writeServer 16 serves started (accepts 4 started) :=
    .single (.accept 4 _ rfl rfl (free_of rfl (by decide)))
  have htells : Reaches .writeServer 16 serves started (tells 4 [0x66, 0x0a] (accepts 4 started)) :=
    haccept.tail (.send 4 _ rfl)
  have hpicks : Reaches .writeServer 16 serves started
      (picks 4 (tells 4 [0x66, 0x0a] (accepts 4 started))) :=
    htells.tail (.pick 4 rfl rfl rfl (by decide))
  have hturn := hpicks.tail (.turn rfl rfl header_answerable hserves)
  exact hturn.tail (.suspend rfl)

-- Beside it a client with the file "g".
def readsSecond : Answers := { readsHeader 7 with read := some ([0x67, 0x0a], []) }

def secondAsks : Machine :=
  picks 6 (tells 6 [0x67, 0x0a] { holdsF with state := holdsF.state.accept 6 [0x67, 0x0a] })

def holdsBoth : Machine := returns (turn .writeServer 16 6 secondAsks readsSecond)

theorem second_answerable : Answerable 16 secondAsks.state 6 readsSecond := by
  refine .of_read rfl ⟨by decide, ⟨[], rfl⟩, fun h => by cases h⟩ rfl ?_
  rintro x ⟨⟩
  exact free_of rfl (by decide)

theorem second_complete : FirstComplete secondAsks 6 readsSecond :=
  fun _ => ⟨_, _, [0x67], [], rfl, by decide, rfl⟩

theorem holdsBoth_reached {serves : Machine → Nat → Answers → Prop}
    (hserves : serves (picks 4 (tells 4 [0x66, 0x0a] (accepts 4 started))) 4 (readsHeader 5))
    (hsecond : serves secondAsks 6 readsSecond) : Reaches .writeServer 16 serves started holdsBoth := by
  have haccept := (holdsF_reached hserves).tail (.accept 6 [0x67, 0x0a] rfl rfl
    (free_of rfl (by decide)))
  have htells := haccept.tail (.send 6 [0x67, 0x0a] rfl)
  have hpicks : Reaches .writeServer 16 serves started secondAsks :=
    htells.tail (.pick 6 rfl rfl rfl (by decide))
  have hturn := hpicks.tail (.turn rfl rfl second_answerable hsecond)
  exact hturn.tail (.suspend rfl)

-- The first of the two resets its connection.
def resetBeside : Machine := picks 4 (hangsUp 4 holdsBoth)

theorem header_complete :
    FirstComplete (picks 4 (tells 4 [0x66, 0x0a] (accepts 4 started))) 4 (readsHeader 5) :=
  fun _ => ⟨_, _, [0x66], [], rfl, by decide, rfl⟩

theorem resetBeside_reached : Reaches .writeServer 16 (Harmless .writeServer 16) started
    (turn .writeServer 16 4 resetBeside readFails) := by
  have hboth : Reaches .writeServer 16 (Harmless .writeServer 16) started holdsBoth :=
    holdsBoth_reached ⟨rfl, .inl header_complete⟩ ⟨rfl, .inl second_complete⟩
  have hpicked : Reaches .writeServer 16 (Harmless .writeServer 16) started resetBeside :=
    (hboth.tail (.finish 4)).tail (.pick 4 rfl rfl rfl (by decide))
  have hheader : FirstComplete resetBeside 4 readFails :=
    fun h => absurd (show true = false from h) (by decide)
  exact hpicked.tail (.turn rfl rfl (readFails_answerable rfl) ⟨rfl, .inl hheader⟩)

theorem disconnects_do_not_stop_beside :
    (turn .writeServer 16 4 resetBeside readFails).running = true ∧
      (turn .writeServer 16 4 resetBeside readFails).nullUsed = false ∧
        ∀ fd a, (turn .writeServer 16 4 resetBeside readFails).state.point = .serving fd →
          Answerable 16 (turn .writeServer 16 4 resetBeside readFails).state fd a →
            Harmless .writeServer 16 (turn .writeServer 16 4 resetBeside readFails) fd a →
              Survives (turn .writeServer 16 4 resetBeside readFails)
                (turn .writeServer 16 fd (turn .writeServer 16 4 resetBeside readFails) a) fd a :=
  disconnects_do_not_stop resetBeside_reached

-- Beside "f" another client connects and leaves before it has sent anything.
def otherWrites : Machine := picks 6 (hangsUp 6 (accepts 6 holdsF))

theorem otherWrites_reached : Reaches .writeServer 16 (fun _ _ _ => True) started otherWrites := by
  have hholds : Reaches .writeServer 16 (fun _ _ _ => True) started holdsF := holdsF_reached trivial
  have haccept := hholds.tail (.accept 6 [0x66, 0x0a] rfl rfl
    (free_of rfl (by decide)))
  have hleft := haccept.tail (.finish 6)
  exact hleft.tail (.pick 6 rfl rfl rfl (by decide))

-- The write server compares the NULL with "f" and ends; the read server opens it.
theorem early_disconnect_stops :
    (∃ m, Reaches .writeServer 16 (fun _ _ _ => True) started m ∧ m.running = false ∧ m.nullUsed = true) ∧
      ∃ m, Reaches .readServer 16 (fun _ _ _ => True) started m ∧ m.nullUsed = true := by
  constructor
  · refine ⟨turn .writeServer 16 6 otherWrites readsNothing, ?_, rfl, rfl⟩
    exact otherWrites_reached.tail (.turn rfl rfl (readsNothing_answerable rfl rfl) trivial)
  · refine ⟨turn .readServer 16 4 leftEarly readsNothing, ?_, rfl⟩
    have hreach := leftEarly_reached .readServer (fun _ _ _ => True)
    exact hreach.tail (.turn rfl rfl (readsNothing_answerable rfl rfl) trivial)

end Samples

end Csiebox.EvenServer
