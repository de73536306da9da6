import Csiebox.EvenServer.Lemmas

namespace Csiebox.EvenServer

open CBytes WriteServer

section Guards

-- The first read of a connection brings a whole header line.
def FirstComplete (m : Machine) (fd : Nat) (a : Answers) : Prop :=
  (m.state.requestP fd).headerDone = false → ∃ got behind name rest,
    a.read = some (got, behind) ∧ got ≠ [] ∧ splitHeader got behind = some (name, rest)

-- No reply goes to a client that is gone, and a client that leaves before its header
-- is read leaves by a reset, in the write server while no file name is held.
structure Harmless (build : Build) (maxfd : Nat) (m : Machine) (fd : Nat) (a : Answers) : Prop where
  pipe : a.pipe = false
  first : FirstComplete m fd a ∨
    a.read = none ∧ (build = .writeServer → othersNamed maxfd fd m.state = false)

-- Which file descriptor the end of a session closes.
inductive Closes (m : Machine) (fd : Nat) (a : Answers) : Option Nat → Prop where
  | nothing (table : m.state.fdTable fd = 0) : Closes m fd a none
  | leaks (failed : a.read = none) (unset : m.fileFd = none) : Closes m fd a none
  | own (opened : m.state.fdTable fd ≠ 0) : Closes m fd a (some (m.state.fdTable fd))
  | fresh (x : Nat) (table : m.state.fdTable fd = 0) (unused : m.state.descs x = none) :
      Closes m fd a (some x)

-- Which file descriptor a session goes on with.
inductive Uses (s : State) (fd : Nat) (name : Bytes) : Nat → Prop where
  | own (opened : s.fdTable fd ≠ 0) (named : (s.requestP fd).filename = some name) :
      Uses s fd name (s.fdTable fd)
  | fresh (x : Nat) (table : s.fdTable fd = 0) (unused : s.descs x = none)
      (free : ∀ other, other ≠ fd → ¬Holds s other name) : Uses s fd name x

-- All ways a turn can go.
inductive Turned (build : Build) (maxfd : Nat) (m : Machine) (fd : Nat) (a : Answers) :
    Machine → Prop where
  | harmed (m' : Machine) (harmful : ¬Harmless build maxfd m fd a)
      (stops : FirstComplete m fd a → m'.running = false) : Turned build maxfd m fd a m'
  | stays (t : State) (reading : build = .readServer) (served : Served fd m.state t)
      (request : t.requestP = m.state.requestP) :
      Turned build maxfd m fd a (m.go { t with point := .top } none)
  | left (c : Option Nat) (t : State) (closes : Closes m fd a c) (left : Left fd m.state c t)
      (files : a.got = [] → t.files = m.state.files) : Turned build maxfd m fd a (m.go t none)
  | kept (x : Nat) (name : Bytes) (t : State) (writing : build = .writeServer)
      (uses : Uses m.state fd name x) (kept : Kept fd m.state x name t) (more : a.got ≠ []) :
      Turned build maxfd m fd a (m.go t (some x))

end Guards

section Cases

variable {build : Build} {maxfd fd : Nat} {m : Machine} {a : Answers}

theorem turned_afterReply {m' next : Machine}
    (hnext : a.pipe = false → Turned build maxfd m fd a next) :
    Turned build maxfd m fd a (m'.afterReply a next) := by
  cases hpipe : a.pipe with
  | false =>
      rw [Machine.afterReply, if_neg (by simp [hpipe])]
      exact hnext hpipe
  | true =>
      rw [Machine.afterReply, if_pos hpipe]
      exact .harmed _ (fun h => by simp [h.pipe] at hpipe) fun _ => rfl

theorem othersNamed_served {s : State} {req : Request} :
    othersNamed maxfd fd ((a.heard s fd).setRequest fd req) = othersNamed maxfd fd s := by
  unfold othersNamed
  congr 1
  funext i
  by_cases hi : i = fd
  · simp [hi]
  · simp [State.setRequest, Answers.heard, State.setPeer, hi]

theorem got_read {got behind : Bytes} (h : a.read = some (got, behind)) : a.got = got := by
  rw [Answers.got, h]; rfl

theorem got_ne_nil {got behind : Bytes} (h : a.read = some (got, behind)) (hgot : got ≠ []) : a.got ≠ [] := by
  rwa [got_read h]

-- What follows `handle_read` in a turn of the write server.
theorem writeTurn_eq {ret : Int} {req : Request}
    (hresult : handleReadResult (m.state.requestP fd) a.read = some (ret, req)) :
    writeTurn maxfd fd m a =
      let s := (a.heard m.state fd).setRequest fd req
      if req.filename = none ∧ othersNamed maxfd fd m.state = true then m.useNull.stop
      else if s.taken maxfd fd = true then
        m.afterReply a (m.go (dropConn (s.reply fd rejectHeader) fd) none)
      else if ret < 0 then m.go (finishWriting s fd m.fileFd) none
      else if m.state.fdTable fd = 0 then openToWrite m s fd a ret req
      else writeBody m s fd (m.state.fdTable fd) ret req := by
  have hreq : (a.heard m.state fd).requestP fd = m.state.requestP fd := rfl
  unfold writeTurn
  simp only [hreq, hresult, othersNamed_served]
  rfl

-- A session that has its file compares its name with no equal one.
theorem taken_holding {name : Bytes} {req : Request} (h : Holding m.state fd name)
    (hex : Exclusive m.state) (hname : req.filename = some name) :
    ((a.heard m.state fd).setRequest fd req).taken maxfd fd = false := by
  rw [Bool.eq_false_iff]
  intro htaken
  obtain ⟨other, hne, -, -, hheld⟩ := (compared_taken hname).mp htaken
  exact hne (hex hheld ⟨h.member, h.named⟩)

-- A turn of the write server on a session that has its file.
theorem writeTurn_holding {name : Bytes} (h : Holding m.state fd name)
    (hfile : ∃ path offset, m.state.descs (m.state.fdTable fd) = some (.file path offset))
    (hex : Exclusive m.state)
    (hlocal : ∀ x, m.fileFd = some x → x = m.state.fdTable fd ∧ x ≠ 0) :
    Turned .writeServer maxfd m fd a (writeTurn maxfd fd m a) := by
  have hturn : ∀ {ret : Int} {req : Request}, req.filename = some name →
      handleReadResult (m.state.requestP fd) a.read = some (ret, req) →
      writeTurn maxfd fd m a =
        let s := (a.heard m.state fd).setRequest fd req
        if ret < 0 then m.go (finishWriting s fd m.fileFd) none
        else writeBody m s fd (m.state.fdTable fd) ret req := by
    intro ret req hname hresult
    rw [writeTurn_eq hresult]
    simp [hname, taken_holding h hex hname, h.opened]
  cases hread : a.read with
  | none =>
      obtain ⟨hleft, hfiles⟩ := (served_heard (a := a) rfl).finish h.conn m.fileFd
      rw [hturn h.named (by rw [hread]; rfl)]
      refine .left m.fileFd _ ?_ hleft fun _ => hfiles
      cases hfd : m.fileFd with
      | none => exact .leaks hread hfd
      | some x =>
          rw [(hlocal x hfd).1]
          exact .own h.opened
  | some r =>
      obtain ⟨got, behind⟩ := r
      by_cases hgot : got = []
      · obtain ⟨hleft, hfiles⟩ := (served_heard (a := a) rfl).finish h.conn (some (m.state.fdTable fd))
        rw [hturn h.named (by rw [hread, hgot]; rfl)]
        exact .left _ _ (.own h.opened) hleft fun _ => hfiles
      · obtain ⟨path, offset, hfile⟩ := hfile
        let req : Request := { m.state.requestP fd with buf := got }
        have hname : req.filename = some name := h.named
        have hserved : Served fd m.state ((a.heard m.state fd).setRequest fd req) := served_heard rfl
        have hresult : handleReadResult (m.state.requestP fd) a.read = some (1, req) := by
          rw [hread, handleReadResult, handleRead_next behind hgot h.header]
          rfl
        have hdesc : ((a.heard m.state fd).setRequest fd req).descs (m.state.fdTable fd) =
            some (.file path offset) := hfile
        rw [hturn hname hresult]
        refine .kept _ name _ rfl (.own h.opened h.named) ?_ (by rwa [got_read hread])
        refine ⟨?_, ?_, ⟨path, offset + got.length, ?_⟩, ?_, ?_, ?_, ?_, rfl⟩
        all_goals simp only [State.writeFile, hdesc]
        · exact hserved.masterset
        · rw [Function.update_eq_self]
          exact hserved.fdTable
        · rfl
        · exact hserved.conn
        · simpa [State.setRequest] using hname
        · simpa [State.setRequest, req] using h.header
        · exact hserved.others

-- The tables while a first turn's file is open.
theorem served_openFile {t : State} {name : Bytes} (x : Nat) (h : Served fd m.state t)
    (hname : (t.requestP fd).filename = some name) (hheader : (t.requestP fd).headerDone = true)
    (hconn : (m.state.requestP fd).connFd = fd) (bs : Bytes) :
    Kept fd m.state x name
        { (((t.openFile fd x).reply fd acceptHeader).writeFile x bs) with point := .serving fd } ∧
      Left fd m.state (some x) (finishWriting ((t.openFile fd x).reply fd rejectHeader) fd (some x)) := by
  have hto : (t.requestP fd).connFd.toNat = fd := by rw [h.conn, hconn, Int.toNat_natCast]
  have hpeer : ∀ o, o ≠ fd → ∀ message,
      ((t.openFile fd x).reply fd message).peers o = m.state.peers o := by
    intro o hne message
    have hreq : ((t.openFile fd x).requestP fd).connFd.toNat = fd := hto
    simp only [State.reply, State.setPeer, hreq, Function.update_of_ne hne]
    exact (h.others o hne).2
  constructor
  · refine ⟨?_, ?_, ?_, ?_, ?_, ?_, ?_, rfl⟩
    all_goals simp only [State.writeFile, State.reply, State.setPeer, State.openFile, Function.update_self]
    · exact h.masterset
    · rw [h.fdTable]
    · refine ⟨(t.requestP fd).filename.getD [], 0 + bs.length, ?_⟩
      rw [h.descs, Function.update_idem]
    · exact h.conn
    · exact hname
    · exact hheader
    · intro o hne
      refine ⟨(h.others o hne).1, ?_⟩
      rw [hto, Function.update_of_ne hne]
      exact (h.others o hne).2
  · refine ⟨?_, ?_, ?_, ?_, ?_, rfl⟩
    · simp [finishWriting, dropConn, State.drop, State.close, State.setRequest, State.reply,
        State.setPeer, State.openFile, h.masterset]
    · simp [finishWriting, dropConn, State.drop, State.close, State.setRequest, State.reply,
        State.setPeer, State.openFile, h.fdTable]
    · simp [finishWriting, dropConn, State.drop, State.close, State.setRequest, State.reply,
        State.setPeer, State.openFile, h.descs, hto, closing]
    · simp [finishWriting, dropConn, State.drop, State.close, State.setRequest]
    · intro o hne
      refine ⟨?_, hpeer o hne rejectHeader⟩
      simp [finishWriting, dropConn, State.drop, State.close, State.setRequest, State.reply,
        State.setPeer, State.openFile, hne, h.others o hne]

-- A first read without a whole header does harm unless it is a reset.
theorem not_harmless_of_first (hheader : (m.state.requestP fd).headerDone = false)
    (hread : ∀ got behind name rest, a.read = some (got, behind) → got ≠ [] →
      splitHeader got behind ≠ some (name, rest))
    (hreset : a.read = none → build = .writeServer ∧ othersNamed maxfd fd m.state = true) :
    ¬FirstComplete m fd a ∧ ¬Harmless build maxfd m fd a := by
  have hfirst : ¬FirstComplete m fd a := by
    intro h
    obtain ⟨got, behind, name, rest, hgot, hne, hsplit⟩ := h hheader
    exact hread got behind name rest hgot hne hsplit
  refine ⟨hfirst, ?_⟩
  intro h
  rcases h.first with h | ⟨hnone, hothers⟩
  · exact hfirst h
  · obtain ⟨hbuild, hnamed⟩ := hreset hnone
    rw [hothers hbuild] at hnamed
    cases hnamed

theorem not_harmless_of_broken (build : Build) (maxfd : Nat) {got behind : Bytes}
    (hheader : (m.state.requestP fd).headerDone = false) (hread : a.read = some (got, behind))
    (hbroken : ¬(got ≠ [] ∧ ∃ name rest, splitHeader got behind = some (name, rest))) :
    ¬FirstComplete m fd a ∧ ¬Harmless build maxfd m fd a := by
  refine not_harmless_of_first hheader ?_ ?_
  · intro got' behind' name rest hsome hne hsplit
    rw [hread] at hsome
    obtain ⟨rfl, rfl⟩ := Prod.ext_iff.mp (Option.some.inj hsome)
    exact hbroken ⟨hne, name, rest, hsplit⟩
  · intro hnone
    rw [hread] at hnone
    cases hnone

-- A connection is reset before its header is read.
theorem writeTurn_reset (h : Asking m.state fd) (hlocal : m.fileFd = none) (hread : a.read = none) :
    Turned .writeServer maxfd m fd a (writeTurn maxfd fd m a) := by
  have hresult : handleReadResult (m.state.requestP fd) a.read = some (-1, m.state.requestP fd) := by
    rw [hread]; rfl
  have hserved : Served fd m.state ((a.heard m.state fd).setRequest fd (m.state.requestP fd)) :=
    served_heard rfl
  have htaken : ((a.heard m.state fd).setRequest fd (m.state.requestP fd)).taken maxfd fd = false := by
    simp [State.taken, State.setRequest, h.named, Option.isSome_iff_ne_none]
  cases hothers : othersNamed maxfd fd m.state with
  | true =>
      have hnothing : ∀ got behind name rest, a.read = some (got, behind) → got ≠ [] →
          splitHeader got behind ≠ some (name, rest) := by
        intro got behind name rest hsome
        rw [hread] at hsome
        cases hsome
      have hharm := @not_harmless_of_first .writeServer _ _ _ _ h.header hnothing
        fun _ => ⟨rfl, hothers⟩
      exact .harmed _ hharm.2 fun hfirst => absurd hfirst hharm.1
  | false =>
      obtain ⟨hleft, hfiles⟩ := hserved.finish h.conn none
      have hturn : writeTurn maxfd fd m a = m.go
          (finishWriting ((a.heard m.state fd).setRequest fd (m.state.requestP fd)) fd none) none := by
        rw [writeTurn_eq hresult]
        simp [hothers, htaken, hlocal]
      rw [hturn]
      exact .left none _ (.nothing h.table) hleft fun _ => hfiles

-- A connection brings its header line.
theorem writeTurn_first {got behind name rest : Bytes} (h : Asking m.state fd)
    (hread : a.read = some (got, behind)) (hgot : got ≠ [])
    (hsplit : splitHeader got behind = some (name, rest))
    (hsmall : ∀ o name, Holds m.state o name → 4 ≤ o ∧ o < maxfd)
    (hfresh : ∀ x, a.fresh = some x → m.state.descs x = none) :
    Turned .writeServer maxfd m fd a (writeTurn maxfd fd m a) := by
  let req : Request := { m.state.requestP fd with filename := some name, buf := rest, headerDone := true }
  have hresult : handleReadResult (m.state.requestP fd) a.read = some (1, req) := by
    rw [hread, handleReadResult, handleRead_first hgot h.header hsplit]
    rfl
  have hserved : Served fd m.state ((a.heard m.state fd).setRequest fd req) := served_heard rfl
  have hfiles : ∀ t : State, a.got = [] → t.files = m.state.files :=
    fun t hnil => absurd hnil (got_ne_nil hread hgot)
  have hopen : a.open req = a.fresh := if_neg (by simp [req])
  rw [writeTurn_eq hresult]
  have hname : ¬(req.filename = none ∧ othersNamed maxfd fd m.state = true) := by simp [req]
  simp only [if_neg hname]
  by_cases htaken : ((a.heard m.state fd).setRequest fd req).taken maxfd fd = true
  · rw [if_pos htaken]
    refine turned_afterReply fun _ => ?_
    exact .left none _ (.nothing h.table) ((hserved.reply h.conn _).drop h.conn h.table) (hfiles _)
  · have hfree : ∀ other, other ≠ fd → ¬Holds m.state other name := by
      intro other hne hheld
      obtain ⟨h4, hmax⟩ := hsmall other name hheld
      exact htaken ((compared_taken rfl).mpr ⟨other, hne, h4, hmax, hheld⟩)
    rw [if_neg htaken, if_neg (by decide), if_pos h.table, openToWrite, hopen]
    have hkeep : (if req.filename = none then m.useNull else m) = m := if_neg (by simp [req])
    simp only [hkeep]
    cases hx : a.fresh with
    | none =>
        refine turned_afterReply fun _ => ?_
        exact .left none _ (.nothing h.table) ((hserved.reply h.conn _).finish h.conn none).1 (hfiles _)
    | some x =>
        have hnamed : (((a.heard m.state fd).setRequest fd req).requestP fd).filename = some name := by
          simp [State.setRequest, req]
        obtain ⟨hkept, hleft⟩ := served_openFile x hserved hnamed
          (by simp [State.setRequest, req]) h.conn req.buf
        dsimp only
        cases hlocked : a.locked with
        | true =>
            rw [if_pos rfl]
            refine turned_afterReply fun _ => ?_
            exact .kept x name _ rfl (.fresh x h.table (hfresh x hx) hfree) hkept
              (by rwa [got_read hread])
        | false =>
            rw [if_neg (by decide)]
            refine turned_afterReply fun _ => ?_
            exact .left (some x) _ (.fresh x h.table (hfresh x hx)) hleft (hfiles _)

-- A turn of the write server on a connection whose header has not been read.
theorem writeTurn_asking (h : Asking m.state fd) (hlocal : m.fileFd = none)
    (hsmall : ∀ o name, Holds m.state o name → 4 ≤ o ∧ o < maxfd)
    (hfresh : ∀ x, a.fresh = some x → m.state.descs x = none) :
    Turned .writeServer maxfd m fd a (writeTurn maxfd fd m a) := by
  cases hread : a.read with
  | none => exact writeTurn_reset h hlocal hread
  | some r =>
      obtain ⟨got, behind⟩ := r
      by_cases hfirst : got ≠ [] ∧ ∃ name rest, splitHeader got behind = some (name, rest)
      · obtain ⟨hgot, name, rest, hsplit⟩ := hfirst
        exact writeTurn_first h hread hgot hsplit hsmall hfresh
      · have hharm := not_harmless_of_broken .writeServer maxfd h.header hread hfirst
        exact .harmed _ hharm.2 fun hcomplete => absurd hcomplete hharm.1

theorem Served.copyFile {s t : State} (h : Served fd s t) (hconn : (s.requestP fd).connFd = fd)
    (file : List ReadResult) : Served fd s (copyFile t fd file) := by
  induction file generalizing t with
  | nil => exact h
  | cons r file ih =>
      cases r with
      | failed => exact h
      | data bs => exact ih (h.reply hconn bs)

theorem Served.openToRead {s t : State} (h : Served fd s t) (x : Nat) (name : Bytes) :
    Served fd (openToRead s x name) (openToRead t x name) := by
  refine ⟨h.masterset, h.fdTable, ?_, h.files, h.conn, h.others⟩
  simp only [EvenServer.openToRead, h.descs]

-- The file of a read session is closed before the session ends.
theorem left_openToRead {s t : State} {x : Nat} {name : Bytes}
    (h : Served fd (openToRead s x name) t) (hconn : (s.requestP fd).connFd = fd)
    (htable : s.fdTable fd = 0) : Left fd s (some x) (dropConn (t.close x) fd) := by
  have hto : (t.requestP fd).connFd.toNat = fd := by
    rw [h.conn]
    exact (congrArg Int.toNat hconn).trans (Int.toNat_natCast fd)
  refine ⟨?_, ?_, ?_, ?_, ?_, rfl⟩
  · simp [dropConn, State.drop, State.close, State.setRequest, h.masterset, openToRead]
  · rw [← htable, Function.update_eq_self]
    exact h.fdTable
  · simp [dropConn, State.drop, State.close, State.setRequest, closing, h.descs, hto, openToRead]
  · simp [dropConn, State.drop, State.close, State.setRequest]
  · intro o hne
    simp only [dropConn, State.drop, State.close, State.setRequest, Function.update_of_ne hne]
    exact h.others o hne

-- A connection brings its header line to the read server.
theorem readTurn_first {got behind name rest : Bytes} (h : Asking m.state fd)
    (hread : a.read = some (got, behind)) (hgot : got ≠ [])
    (hsplit : splitHeader got behind = some (name, rest))
    (hfresh : ∀ x, a.fresh = some x → m.state.descs x = none) :
    Turned .readServer maxfd m fd a (readTurn fd m a) := by
  let req : Request := { m.state.requestP fd with filename := some name, buf := rest, headerDone := true }
  have hresult : handleReadResult ((a.heard m.state fd).requestP fd) a.read = some (1, req) := by
    rw [hread, handleReadResult]
    simp [Answers.heard, State.setPeer, handleRead_first hgot h.header hsplit, req]
  have hserved : Served fd m.state ((a.heard m.state fd).setRequest fd req) := served_heard rfl
  have hfiles : ∀ t : State, a.got = [] → t.files = m.state.files :=
    fun t hnil => absurd hnil (got_ne_nil hread hgot)
  have hopen : a.open req = a.fresh := if_neg (by simp [req])
  have hkeep : (if req.filename = none then m.useNull else m) = m := if_neg (by simp [req])
  rw [readTurn, hresult]
  dsimp only
  rw [if_neg (by decide), hkeep, hopen]
  cases hx : a.fresh with
  | none =>
      refine turned_afterReply fun _ => ?_
      exact .left none _ (.nothing h.table) ((hserved.reply h.conn _).drop h.conn h.table) (hfiles _)
  | some x =>
      have hopened := hserved.openToRead x (req.filename.getD [])
      have hclose : Closes m fd a (some x) := .fresh x h.table (hfresh x hx)
      dsimp only
      cases hlocked : a.locked with
      | false =>
          rw [if_neg (by decide)]
          refine turned_afterReply fun _ => ?_
          exact .left (some x) _ hclose (left_openToRead (hopened.reply h.conn _) h.conn h.table)
            (hfiles _)
      | true =>
          rw [if_pos rfl, if_neg (by decide)]
          refine turned_afterReply fun _ => ?_
          exact .left (some x) _ hclose
            (left_openToRead ((hopened.reply h.conn _).copyFile h.conn _) h.conn h.table) (hfiles _)

theorem readTurn_asking (h : Asking m.state fd)
    (hfresh : ∀ x, a.fresh = some x → m.state.descs x = none) :
    Turned .readServer maxfd m fd a (readTurn fd m a) := by
  cases hread : a.read with
  | none =>
      have hresult : handleReadResult ((a.heard m.state fd).requestP fd) a.read =
          some (-1, m.state.requestP fd) := by rw [hread]; rfl
      rw [readTurn, hresult]
      refine .stays _ rfl (served_heard rfl) ?_
      simp only [State.setRequest, Answers.heard, State.setPeer, Function.update_eq_self]
  | some r =>
      obtain ⟨got, behind⟩ := r
      by_cases hfirst : got ≠ [] ∧ ∃ name rest, splitHeader got behind = some (name, rest)
      · obtain ⟨hgot, name, rest, hsplit⟩ := hfirst
        exact readTurn_first h hread hgot hsplit hfresh
      · have hharm := not_harmless_of_broken .readServer maxfd h.header hread hfirst
        exact .harmed _ hharm.2 fun hcomplete => absurd hcomplete hharm.1

-- Every turn the system can take goes one of these ways.
theorem turn_turned {build : Build} (hinv : Inv build maxfd m) (hpoint : m.state.point = .serving fd)
    (ha : Answerable maxfd m.state fd a) :
    Turned build maxfd m fd a (turn build maxfd fd m a) := by
  obtain ⟨h4, hmem, hlocal⟩ := hinv.point fd hpoint
  have hfresh : ∀ x, a.fresh = some x → m.state.descs x = none := fun x hx => (ha.fresh x hx).unused
  cases hinv.seat fd h4 with
  | idle h =>
      rw [h.out] at hmem
      cases hmem
  | asking h =>
      have hunset : m.fileFd = none := by
        cases hfd : m.fileFd with
        | none => rfl
        | some x =>
            obtain ⟨hx, hne⟩ := hlocal x hfd
            exact absurd (hx.trans h.table) hne
      have hsmall : ∀ o name, Holds m.state o name → 4 ≤ o ∧ o < maxfd := by
        intro o name hheld
        have ho : 4 ≤ o := by
          by_contra hlt
          have hnone := (hinv.low o (by simp only [listenFd]; omega)).1
          rw [hheld.2] at hnone
          cases hnone
        exact ⟨ho, hinv.small o ho hheld.1⟩
      cases build with
      | readServer => exact readTurn_asking h hfresh
      | writeServer => exact writeTurn_asking h hunset hsmall hfresh
  | holding name h hfile =>
      cases build with
      | readServer => exact absurd (hinv.reading rfl fd) h.opened
      | writeServer => exact writeTurn_holding h hfile hinv.exclusive hlocal

end Cases

end Csiebox.EvenServer
