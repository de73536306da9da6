import Csiebox.EvenServer.Disconnects

namespace Csiebox.EvenServer

open CBytes WriteServer

-- The open files are the entries of `fd_table` of the connections, one for each.
structure Booked (s : State) : Prop where
  files : ∀ x, (∃ path offset, s.descs x = some (.file path offset)) ↔
    ∃ c, s.masterset c = true ∧ s.fdTable c = x ∧ x ≠ 0
  single : ∀ a b, s.masterset a = true → s.masterset b = true → s.fdTable a = s.fdTable b →
    s.fdTable a ≠ 0 → a = b

-- The first read brings the header, and a later one fails only behind another read of
-- the same inner loop.
def NoFirstFailure (m : Machine) (fd : Nat) (a : Answers) : Prop :=
  FirstComplete m fd a ∧ (a.read = none → m.fileFd ≠ none)

-- No open file is without a connection.
def NoLeak (s : State) : Prop :=
  ∀ x path offset, s.descs x = some (.file path offset) →
    ∃ c, s.masterset c = true ∧ s.fdTable c = x

section Leaks

variable {maxfd fd : Nat} {m m' : Machine} {a : Answers} {t : State}

theorem Inv.booked (hinv : Inv .writeServer maxfd m) (h : NoLeak m.state) : Booked m.state where
  files x := by
    constructor
    · intro hfile
      obtain ⟨path, offset, hdesc⟩ := hfile
      obtain ⟨c, hmem, htable⟩ := h x path offset hdesc
      refine ⟨c, hmem, htable, ?_⟩
      intro hzero
      rw [hzero, (hinv.low_of_lt (by omega : 0 < 4)).2.2] at hdesc
      cases hdesc
    · intro hentry
      obtain ⟨c, -, rfl, hne⟩ := hentry
      exact hinv.file_of_table hne
  single c d _ _ := hinv.apart c d

-- The session that holds an open file other than the one of `fd`.
theorem NoLeak.other (h : NoLeak m.state) {x : Nat} {path : Bytes} {offset : Nat}
    (hx : m.state.descs x = some (.file path offset))
    (hne : x ≠ m.state.fdTable fd) :
    ∃ c, c ≠ fd ∧ m.state.masterset c = true ∧ m.state.fdTable c = x := by
  obtain ⟨c, hmem, htable⟩ := h x path offset hx
  refine ⟨c, ?_, hmem, htable⟩
  intro heq
  exact hne (heq ▸ htable.symm)

theorem NoLeak.left {c : Option Nat} (h : NoLeak m.state) (hinv : Inv .writeServer maxfd m)
    (hc : Closes m fd a c) (hleft : Left fd m.state c t) (hread : a.read = none → m.fileFd ≠ none) :
    NoLeak t := by
  intro x path offset hx
  have hxfd : x ≠ fd := by
    intro heq
    rw [hleft.descs, heq, Function.update_self] at hx
    cases hx
  rw [hleft.descs, Function.update_of_ne hxfd] at hx
  have hopen : m.state.descs x = some (.file path offset) ∧ x ≠ m.state.fdTable fd := by
    have hzero : ∀ {y}, m.state.descs y = some (.file path offset) → y ≠ 0 := by
      intro y hy heq
      rw [heq, (hinv.low_of_lt (by omega : 0 < 4)).2.2] at hy
      cases hy
    cases hc with
    | nothing htable => exact ⟨hx, htable ▸ hzero hx⟩
    | leaks hfailed hunset => exact absurd hunset (hread hfailed)
    | own hopened =>
        have hne : x ≠ m.state.fdTable fd := by
          intro heq
          rw [heq, closing, Function.update_self] at hx
          cases hx
        rw [closing, Function.update_of_ne hne] at hx
        exact ⟨hx, hne⟩
    | fresh y htable _ =>
        have hne : x ≠ y := by
          intro heq
          rw [heq, closing, Function.update_self] at hx
          cases hx
        rw [closing, Function.update_of_ne hne] at hx
        exact ⟨hx, htable ▸ hzero hx⟩
  obtain ⟨o, hne, hmem, htable⟩ := h.other hopen.1 hopen.2
  refine ⟨o, ?_, ?_⟩
  · rw [hleft.masterset, Function.update_of_ne hne, hmem]
  · rw [hleft.fdTable, Function.update_of_ne hne, htable]

theorem NoLeak.kept {x : Nat} {name : Bytes} (h : NoLeak m.state) (hinv : Inv .writeServer maxfd m)
    (hmem : m.state.masterset fd = true) (hu : Uses m.state fd name x)
    (hkept : Kept fd m.state x name t) : NoLeak t := by
  obtain ⟨path, offset, hdescs⟩ := hkept.descs
  intro y path' offset' hy
  by_cases hyx : y = x
  · refine ⟨fd, (congrFun hkept.masterset fd).trans hmem, ?_⟩
    rw [hkept.fdTable, Function.update_self, hyx]
  · rw [hdescs, Function.update_of_ne hyx] at hy
    have hne : y ≠ m.state.fdTable fd := by
      cases hu with
      | own _ _ => exact hyx
      | fresh _ htable _ _ =>
          intro heq
          rw [heq, htable, (hinv.low_of_lt (by omega : 0 < 4)).2.2] at hy
          cases hy
    obtain ⟨c, hc, hset, htable⟩ := h.other hy hne
    refine ⟨c, (congrFun hkept.masterset c).trans hset, ?_⟩
    rw [hkept.fdTable, Function.update_of_ne hc, htable]

theorem NoLeak.turned (h : NoLeak m.state) (hinv : Inv .writeServer maxfd m)
    (hpoint : m.state.point = .serving fd) (hturn : Turned .writeServer maxfd m fd a m')
    (hallowed : NoFirstFailure m fd a) (hruns : m'.running = true) : NoLeak m'.state := by
  obtain ⟨hfirst, hread⟩ := hallowed
  obtain ⟨-, hmem, -⟩ := hinv.point fd hpoint
  cases hturn with
  | harmed m' _ hstops =>
      rw [hstops hfirst] at hruns
      cases hruns
  | stays t hbuild _ _ => cases hbuild
  | left c t hc hleft _ => exact h.left hinv hc hleft hread
  | kept x name t _ hu hkept _ => exact h.kept hinv hmem hu hkept

theorem NoLeak.accept (h : NoLeak m.state) (header : Bytes) : NoLeak (m.state.accept fd header) := by
  intro x path offset hx
  have hne : x ≠ fd := by
    intro heq
    rw [heq] at hx
    simp [State.accept] at hx
  obtain ⟨c, hmem, htable⟩ := h x path offset (by simpa [State.accept, hne] using hx)
  refine ⟨c, ?_, htable⟩
  by_cases hc : c = fd
  · simp [State.accept, hc]
  · simpa [State.accept, hc] using hmem

end Leaks

section Runs

variable {maxfd : Nat} {m : Machine} {files : Bytes → Option Bytes} {peers : Nat → Peer}

theorem noLeak_reaches
    (h : Reaches .writeServer maxfd NoFirstFailure (Machine.start files peers) m)
    (hruns : m.running = true) : NoLeak m.state := by
  induction h with
  | refl =>
      intro x path offset hx
      simp only [Machine.start, State.start] at hx
      split_ifs at hx
      cases hx
  | tail hreach hstep ih =>
      have hbefore := hstep.was_running hruns
      have hopen := ih hbefore
      have hinv := inv_reaches hreach (fun _ _ _ hh => .inr hh.1) hbefore
      cases hstep with
      | send _ _ _ => exact hopen
      | finish _ => exact hopen
      | accept connFd header _ _ _ => exact hopen.accept header
      | pick _ _ _ _ _ => exact hopen
      | suspend _ => exact hopen
      | turn _ hpoint hanswers hallowed =>
          exact hopen.turned hinv hpoint (turn_turned hinv hpoint hanswers) hallowed hruns

-- Every session closes its file unless a read fails in the first turn of the inner loop.
theorem descriptors_booked
    (h : Reaches .writeServer maxfd NoFirstFailure (Machine.start files peers) m)
    (hruns : m.running = true) : Booked m.state :=
  (inv_reaches h (fun _ _ _ hh => .inr hh.1) hruns).booked (noLeak_reaches h hruns)

end Runs

section Samples

def resetF : Machine := picks 4 (hangsUp 4 holdsF)

theorem holdsBoth_complete : Reaches .writeServer 16 NoFirstFailure started holdsBoth :=
  holdsBoth_reached ⟨header_complete, fun h => by cases h⟩ ⟨second_complete, fun h => by cases h⟩

theorem descriptors_booked_two : Booked holdsBoth.state ∧
    Booked (turn .writeServer 16 4 resetBeside readsNothing).state := by
  refine ⟨descriptors_booked holdsBoth_complete rfl, ?_⟩
  have hpicked : Reaches .writeServer 16 NoFirstFailure started resetBeside :=
    (holdsBoth_complete.tail (.finish 4)).tail
      (.pick 4 rfl rfl rfl (by decide))
  have hheader : FirstComplete resetBeside 4 readsNothing :=
    fun h => absurd (show true = false from h) (by decide)
  have hturn : Reaches .writeServer 16 NoFirstFailure started
      (turn .writeServer 16 4 resetBeside readsNothing) :=
    hpicked.tail (.turn rfl rfl (readsNothing_answerable rfl rfl) ⟨hheader, fun h => by cases h⟩)
  exact descriptors_booked hturn rfl

-- The client of the file resets its connection between two of its messages: the
-- connection goes and descriptor 5 stays open.
theorem reset_leaks_descriptor :
    Reaches .writeServer 16 FirstComplete started (turn .writeServer 16 4 resetF readFails) ∧
      (turn .writeServer 16 4 resetF readFails).running = true ∧
      (turn .writeServer 16 4 resetF readFails).state.point = .top ∧
      ¬Booked (turn .writeServer 16 4 resetF readFails).state := by
  have hholds : Reaches .writeServer 16 FirstComplete started holdsF := holdsF_reached header_complete
  have hleft : Reaches .writeServer 16 FirstComplete started (hangsUp 4 holdsF) := hholds.tail (.finish 4)
  have hpicked : Reaches .writeServer 16 FirstComplete started resetF :=
    hleft.tail (.pick 4 rfl rfl rfl (by decide))
  have hdone : FirstComplete resetF 4 readFails := by
    intro h
    exact absurd (show true = false from h) (by decide)
  have hreset : Reaches .writeServer 16 FirstComplete started
      (turn .writeServer 16 4 resetF readFails) :=
    hpicked.tail (.turn rfl rfl (readFails_answerable rfl) hdone)
  have hruns : (turn .writeServer 16 4 resetF readFails).running = true := rfl
  refine ⟨hreset, hruns, rfl, ?_⟩
  intro hbooked
  have hfile : (turn .writeServer 16 4 resetF readFails).state.descs 5 = some (.file [0x66] 0) := by
    decide +kernel
  obtain ⟨c, hmem, htable, -⟩ := (hbooked.files 5).mp ⟨_, _, hfile⟩
  have hsmall : c < 16 := by
    by_contra hlarge
    exact hlarge ((inv_reaches hreset (fun _ _ _ h => .inr h) hruns).small c (by omega) hmem)
  have hnone : ∀ c < 16, (turn .writeServer 16 4 resetF readFails).state.fdTable c ≠ 5 := by
    decide +kernel
  exact hnone c hsmall htable

end Samples

end Csiebox.EvenServer
