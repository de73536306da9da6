import Csiebox.WriteServer

namespace Csiebox.WriteServer

open CBytes State

section HandleRead

theorem strstr_spec {needle hay : Bytes} {i : Nat} (h : strstr needle hay = some i) :
    needle <+: hay.drop i := by
  induction hay generalizing i with
  | nil =>
      rw [strstr] at h
      split_ifs at h with hn
      rw [hn]
      exact List.nil_prefix
  | cons b bs ih =>
      rw [strstr] at h
      split_ifs at h with hp
      · cases h
        exact hp
      · obtain ⟨j, hj, rfl⟩ := Option.map_eq_some_iff.mp h
        exact ih hj

-- What is found within `got` lies in `got`.
theorem strstr_within {needle got behind : Bytes} {i : Nat}
    (h : strstr needle (cString (got ++ behind)) = some i) (hi : i + needle.length ≤ got.length) :
    got = (got ++ behind).take i ++ needle ++ got.drop (i + needle.length) := by
  have hpre : needle <+: got.drop i ++ behind := by
    obtain ⟨tail, htail⟩ : cString (got ++ behind) <+: got ++ behind := List.takeWhile_prefix _
    rw [← List.drop_append_of_le_length (by omega), ← htail, List.drop_append]
    exact (strstr_spec h).trans (List.prefix_append _ _)
  have hwithin : needle <+: got.drop i :=
    List.prefix_of_prefix_length_le hpre (List.prefix_append _ _)
      (by rw [List.length_drop]; omega)
  obtain ⟨rest, hrest⟩ := hwithin
  rw [List.take_append_of_le_length (by omega), ← List.drop_drop, ← hrest, List.drop_left,
    List.append_assoc, hrest, List.take_append_drop]

theorem splitHeader_line {got behind name rest : Bytes}
    (h : splitHeader got behind = some (name, rest)) :
    got = name ++ crlf ++ rest ∨ got = name ++ lf ++ rest := by
  unfold splitHeader at h
  split at h
  case h_1 i hi =>
      dsimp only at h
      split_ifs at h with hlen
      cases h
      exact .inl (strstr_within hi hlen)
  case h_2 =>
      obtain ⟨i, hi, hcut⟩ := Option.bind_eq_some_iff.mp h
      dsimp only at hcut
      split_ifs at hcut with hlen
      cases hcut
      exact .inr (strstr_within hi hlen)

theorem handleRead_nil (req : Request) (behind : Bytes) :
    handleRead req [] behind = some (0, req) := rfl

theorem handleRead_next {req : Request} {got : Bytes} (behind : Bytes) (hgot : got ≠ [])
    (hdone : req.headerDone = true) :
    handleRead req got behind = some (1, { req with buf := got }) := by
  simp [handleRead, hgot, hdone]

theorem handleRead_first {req : Request} {got behind name rest : Bytes} (hgot : got ≠ [])
    (hdone : req.headerDone = false) (hsplit : splitHeader got behind = some (name, rest)) :
    handleRead req got behind =
      some (1, { req with filename := some name, buf := rest, headerDone := true }) := by
  simp [handleRead, hgot, hdone, hsplit]

end HandleRead

section Tables

variable {s : State} {maxfd connFd : Nat}

theorem taken_iff (name : Bytes) (hname : (s.requestP connFd).filename = some name) :
    s.taken maxfd connFd = true ↔
      ∃ other, other ≠ connFd ∧ 4 ≤ other ∧ other < maxfd ∧ Holds s other name := by
  simp only [taken, List.any_eq_true, List.mem_range, Bool.and_eq_true, decide_eq_true_eq,
    bne_iff_ne, beq_iff_eq, hname, Holds]
  constructor
  · rintro ⟨i, hi, ⟨⟨⟨h4, hm⟩, hne⟩, -⟩, hn⟩
    exact ⟨i, hne, h4, hi, hm, hn⟩
  · rintro ⟨i, hne, h4, hi, hm, hn⟩
    exact ⟨i, hi, ⟨⟨⟨h4, hm⟩, hne⟩, by rw [hn]; rfl⟩, hn⟩

theorem writeAt_end (content bs : Bytes) :
    writeAt content content.length bs = content ++ bs := by
  rw [writeAt, List.take_length, Nat.sub_self, List.drop_eq_nil_of_le (by omega)]
  simp [zeros]

end Tables

section Slots

-- The line a client begins with, and the name in it.
def HeaderOf (header name : Bytes) : Prop := header = name ++ crlf ∨ header = name ++ lf

-- A descriptor the loop does not use, or not any more.
structure Idle (s : State) (fd : Nat) : Prop where
  out : s.masterset fd = false
  named : (s.requestP fd).filename = none
  header : (s.requestP fd).headerDone = false
  table : s.fdTable fd = 0

-- An accepted connection whose header has not been read.
structure Asking (s : State) (fd : Nat) : Prop where
  member : s.masterset fd = true
  conn : (s.requestP fd).connFd = fd
  desc : s.descs fd = some .conn
  named : (s.requestP fd).filename = none
  header : (s.requestP fd).headerDone = false
  table : s.fdTable fd = 0

-- A connection whose header has been read and whose file has been opened.
structure Holding (s : State) (fd : Nat) (name : Bytes) : Prop where
  member : s.masterset fd = true
  conn : (s.requestP fd).connFd = fd
  desc : s.descs fd = some .conn
  named : (s.requestP fd).filename = some name
  header : (s.requestP fd).headerDone = true
  opened : s.fdTable fd ≠ 0

-- Nothing has been read of what the client has sent.
structure Waiting (s : State) (fd : Nat) : Prop extends Asking s fd where
  stream : (s.peers fd).sent = [] ++ (s.peers fd).pending

-- The file holds what has been read behind the header.
structure Writing (s : State) (fd : Nat) (name content : Bytes) : Prop extends Holding s fd name where
  line : HeaderOf (s.peers fd).header name
  file : s.descs (s.fdTable fd) = some (.file name content.length)
  stored : s.files name = some content
  stream : (s.peers fd).sent = ((s.peers fd).header ++ content) ++ (s.peers fd).pending

inductive Slot (s : State) (fd : Nat) : Prop where
  | idle (h : Idle s fd)
  | waiting (h : Waiting s fd)
  | writing (name content : Bytes) (h : Writing s fd name content)

-- What is unread moves with what was sent.
structure Extends (p p' : Peer) : Prop where
  header : p'.header = p.header
  stream : ∀ front, p.sent = front ++ p.pending → p'.sent = front ++ p'.pending

theorem Extends.refl (p : Peer) : Extends p p := ⟨rfl, fun _ h => h⟩

section Frames

variable {s s' : State} {fd : Nat}

theorem Idle.frame (h : Idle s fd) (hset : s'.masterset fd = s.masterset fd)
    (hreq : s'.requestP fd = s.requestP fd) (htable : s'.fdTable fd = s.fdTable fd) : Idle s' fd :=
  ⟨by rw [hset, h.out], by rw [hreq, h.named], by rw [hreq, h.header], by rw [htable, h.table]⟩

theorem Asking.frame (h : Asking s fd) (hset : s'.masterset fd = s.masterset fd)
    (hreq : s'.requestP fd = s.requestP fd) (htable : s'.fdTable fd = s.fdTable fd)
    (hconn : s.descs fd = some .conn → s'.descs fd = some .conn) : Asking s' fd :=
  ⟨by rw [hset, h.member], by rw [hreq, h.conn], hconn h.desc, by rw [hreq, h.named],
    by rw [hreq, h.header], by rw [htable, h.table]⟩

theorem Holding.frame {name : Bytes} (h : Holding s fd name) (hset : s'.masterset fd = s.masterset fd)
    (hreq : s'.requestP fd = s.requestP fd) (htable : s'.fdTable fd = s.fdTable fd)
    (hconn : s.descs fd = some .conn → s'.descs fd = some .conn) : Holding s' fd name :=
  ⟨by rw [hset, h.member], by rw [hreq, h.conn], hconn h.desc, by rw [hreq, h.named],
    by rw [hreq, h.header], by rw [htable]; exact h.opened⟩

-- A slot depends on the entries of its descriptor and on the file it writes to.
theorem Slot.frame (h : Slot s fd) (hset : s'.masterset fd = s.masterset fd)
    (hreq : s'.requestP fd = s.requestP fd) (htable : s'.fdTable fd = s.fdTable fd)
    (hconn : s.descs fd = some .conn → s'.descs fd = some .conn)
    (hpeer : Extends (s.peers fd) (s'.peers fd))
    (hfile : ∀ name content, Writing s fd name content →
      s'.descs (s.fdTable fd) = some (.file name content.length) ∧ s'.files name = some content) :
    Slot s' fd := by
  cases h with
  | idle h => exact .idle (h.frame hset hreq htable)
  | waiting h => exact .waiting ⟨h.toAsking.frame hset hreq htable hconn, hpeer.stream _ h.stream⟩
  | writing name content h =>
      obtain ⟨hdesc, hstored⟩ := hfile name content h
      refine .writing name content ⟨h.toHolding.frame hset hreq htable hconn, ?_, by rw [htable, hdesc],
        hstored, ?_⟩
      · rw [hpeer.header]
        exact h.line
      · rw [hpeer.header]
        exact hpeer.stream _ h.stream

end Frames

end Slots

section Turns

variable (s : State) (fd : Nat) (got : Bytes)

-- The states one turn of the inner loop can lead to.

def heard (p : Peer) : Peer := { p with pending := p.pending.drop got.length }

def State.rejected : State :=
  let p := heard got (s.peers fd)
  { s with
    masterset := Function.update s.masterset fd false
    requestP := Function.update s.requestP fd initRequest
    descs := Function.update s.descs fd none
    peers := Function.update s.peers fd { p with got := p.got ++ rejectHeader }
    point := .top }

def State.opened (name rest : Bytes) (fresh : Nat) : State :=
  let p := heard got (s.peers fd)
  { s with
    requestP := Function.update s.requestP fd
      { s.requestP fd with filename := some name, buf := rest, headerDone := true }
    fdTable := Function.update s.fdTable fd fresh
    descs := Function.update s.descs fresh (some (.file name rest.length))
    files := Function.update s.files name (some rest)
    peers := Function.update s.peers fd { p with got := p.got ++ acceptHeader }
    point := .serving fd }

def State.written (name content : Bytes) : State :=
  { s with
    requestP := Function.update s.requestP fd { s.requestP fd with buf := got }
    descs := Function.update s.descs (s.fdTable fd)
      (some (.file name (content ++ got).length))
    files := Function.update s.files name (some (content ++ got))
    peers := Function.update s.peers fd (heard got (s.peers fd))
    point := .serving fd }

def State.finished : State :=
  { s with
    masterset := Function.update s.masterset fd false
    requestP := Function.update s.requestP fd initRequest
    fdTable := Function.update s.fdTable fd 0
    descs := Function.update (Function.update s.descs (s.fdTable fd) none) fd none
    point := .top }

variable {s fd got} {maxfd : Nat} {behind name rest content : Bytes}

-- The tables when the names are compared.
def State.compared (s : State) (fd : Nat) (got : Bytes) (req : Request) : State :=
  (s.setPeer fd (heard got)).setRequest fd req

theorem compared_taken {req : Request} (hname : req.filename = some name) :
    (s.compared fd got req).taken maxfd fd = true ↔
      ∃ other, other ≠ fd ∧ 4 ≤ other ∧ other < maxfd ∧ Holds s other name := by
  rw [taken_iff name (by simp [State.compared, setRequest, hname])]
  refine exists_congr fun other => and_congr_right fun hne => ?_
  simp [Holds, State.compared, setRequest, setPeer, hne]

theorem round_of_taken {req : Request} {ret : Nat} (fresh : Nat)
    (hread : handleRead (s.requestP fd) got behind = some (ret, req))
    (htaken : (s.compared fd got req).taken maxfd fd = true) :
    s.round maxfd fd got behind fresh =
      some { ((s.compared fd got req).reply fd rejectHeader).drop fd with point := .top } := by
  unfold State.round
  exact (congrArg (Option.bind · _) hread).trans (if_pos htaken)

theorem round_of_free {req : Request} {ret : Nat} (fresh : Nat)
    (hread : handleRead (s.requestP fd) got behind = some (ret, req))
    (htaken : (s.compared fd got req).taken maxfd fd = false) :
    s.round maxfd fd got behind fresh =
      let t := s.compared fd got req
      let t := if t.fdTable fd = 0 then (t.openFile fd fresh).reply fd acceptHeader else t
      if ret = 0 then
        some { ((({ t with fdTable := Function.update t.fdTable fd 0 }).close (t.fdTable fd)).drop fd)
          with point := .top }
      else some { t.writeFile (t.fdTable fd) req.buf with point := .serving fd } := by
  unfold State.round
  exact (congrArg (Option.bind · _) hread).trans (if_neg (ne_true_of_eq_false htaken))

theorem round_rejected (h : Waiting s fd) (hgot : got ≠ [])
    (hsplit : splitHeader got behind = some (name, rest)) (fresh : Nat)
    (hheld : ∃ other, other ≠ fd ∧ 4 ≤ other ∧ other < maxfd ∧ Holds s other name) :
    s.round maxfd fd got behind fresh = some (s.rejected fd got) := by
  rw [round_of_taken fresh (handleRead_first hgot h.header hsplit) ((compared_taken rfl).mpr hheld)]
  simp [State.rejected, State.compared, State.drop, State.reply, State.close, setRequest, setPeer,
    h.conn]

theorem round_opened (h : Waiting s fd) (hgot : got ≠ [])
    (hsplit : splitHeader got behind = some (name, rest)) {fresh : Nat}
    (hheld : ¬∃ other, other ≠ fd ∧ 4 ≤ other ∧ other < maxfd ∧ Holds s other name) :
    s.round maxfd fd got behind fresh = some (s.opened fd got name rest fresh) := by
  rw [round_of_free fresh (handleRead_first hgot h.header hsplit)
    (Bool.eq_false_iff.mpr (mt (compared_taken rfl).mp hheld))]
  have hwrite : writeAt [] 0 rest = rest := writeAt_end [] rest
  simp [State.opened, State.compared, State.openFile, State.reply, State.writeFile, setRequest,
    setPeer, h.conn, h.table, hwrite]

theorem round_written (h : Writing s fd name content) (hgot : got ≠ []) (fresh : Nat)
    (hheld : ¬∃ other, other ≠ fd ∧ 4 ≤ other ∧ other < maxfd ∧ Holds s other name) :
    s.round maxfd fd got behind fresh = some (s.written fd got name content) := by
  rw [round_of_free fresh (handleRead_next behind hgot h.header)
    (Bool.eq_false_iff.mpr (mt (compared_taken (by exact h.named)).mp hheld))]
  have hwrite := writeAt_end content got
  simp [State.written, State.compared, State.writeFile, setRequest, setPeer, h.opened, h.file,
    h.stored, hwrite]

theorem round_finished (h : Writing s fd name content) (fresh : Nat)
    (hheld : ¬∃ other, other ≠ fd ∧ 4 ≤ other ∧ other < maxfd ∧ Holds s other name) :
    s.round maxfd fd [] behind fresh = some (s.finished fd) := by
  rw [round_of_free fresh (handleRead_nil _ behind)
    (Bool.eq_false_iff.mpr (mt (compared_taken h.named).mp hheld))]
  simp [State.finished, State.compared, State.drop, State.close, setRequest, setPeer, heard,
    h.opened, h.conn]

end Turns

section Invariant

variable {maxfd fd : Nat} {s s' : State} {got behind : Bytes}

structure Inv (maxfd : Nat) (s : State) : Prop where
  low : ∀ fd ≤ listenFd, (s.requestP fd).filename = none ∧ s.descs fd = some .inherited
  slot : ∀ fd, 4 ≤ fd → Slot s fd
  small : ∀ fd, 4 ≤ fd → s.masterset fd = true → fd < maxfd
  exclusive : Exclusive s
  point : ∀ fd, s.point = .serving fd → 4 ≤ fd ∧ s.masterset fd = true

theorem Holds.four_le {name : Bytes} (h : Holds s fd name) (hinv : Inv maxfd s) : 4 ≤ fd := by
  by_contra hlt
  have hnone := (hinv.low fd (by simp only [listenFd]; omega)).1
  rw [h.2] at hnone
  cases hnone

theorem inv_start (files : Bytes → Option Bytes) (peers : Nat → Peer) :
    Inv maxfd (State.start files peers) := by
  have hidle : ∀ fd, 4 ≤ fd → Idle (State.start files peers) fd := by
    intro fd h4
    have hne : fd ≠ listenFd := by simp only [listenFd]; omega
    exact ⟨by simp [State.start, hne], by simp [State.start, hne, initRequest],
      by simp [State.start, hne, initRequest], rfl⟩
  have hnone : ∀ fd, ((State.start files peers).requestP fd).filename = none := by
    intro fd
    simp only [State.start, Function.update_apply]
    split_ifs <;> rfl
  refine ⟨fun fd hfd => ⟨hnone fd, if_pos hfd⟩, fun fd h4 => .idle (hidle fd h4), ?_, ?_, ?_⟩
  · intro fd h4 hmem
    rw [(hidle fd h4).out] at hmem
    cases hmem
  · intro a b name ha _
    have := ha.2
    rw [hnone] at this
    cases this
  · rintro fd hpoint
    cases hpoint

-- The four ways a turn of the inner loop can go.
inductive Turn (s : State) (fd : Nat) (got behind : Bytes) : State → Prop where
  | rejected (other : Nat) (name rest : Bytes) (waiting : Waiting s fd) (first : got ≠ [])
      (split : splitHeader got behind = some (name, rest)) (ne : other ≠ fd)
      (held : Holds s other name) : Turn s fd got behind (s.rejected fd got)
  | opened (name rest : Bytes) (fresh : Nat) (waiting : Waiting s fd) (first : got ≠ [])
      (split : splitHeader got behind = some (name, rest))
      (line : (s.peers fd).header ++ rest = got)
      (free : ∀ other, other ≠ fd → ¬Holds s other name) (unused : s.descs fresh = none) :
      Turn s fd got behind (s.opened fd got name rest fresh)
  | written (name content : Bytes) (writing : Writing s fd name content) (more : got ≠ []) :
      Turn s fd got behind (s.written fd got name content)
  | finished (name content : Bytes) (writing : Writing s fd name content) (ended : got = [])
      (drained : (s.peers fd).pending = []) : Turn s fd got behind (s.finished fd)

theorem Serves.turn_cases (h : Serves maxfd s fd got behind s') (hinv : Inv maxfd s) :
    Turn s fd got behind s' := by
  obtain ⟨hpoint, hreads, hfirst, fresh, hfree, hround⟩ := h
  obtain ⟨h4, hmem⟩ := hinv.point fd hpoint
  have hrange : ∀ {name}, (∃ other, other ≠ fd ∧ 4 ≤ other ∧ other < maxfd ∧ Holds s other name) ↔
      ∃ other, other ≠ fd ∧ Holds s other name := by
    refine fun {name} => exists_congr fun other => and_congr_right fun _ => ?_
    refine ⟨fun h => h.2.2, fun h => ?_⟩
    exact ⟨h.four_le hinv, hinv.small other (h.four_le hinv) h.1, h⟩
  cases hinv.slot fd h4 with
  | idle h =>
      rw [h.out] at hmem
      cases hmem
  | waiting h =>
      obtain ⟨hgot, name, rest, hsplit, hline⟩ := hfirst h.header
      by_cases hheld : ∃ other, other ≠ fd ∧ Holds s other name
      · rw [round_rejected h hgot hsplit fresh (hrange.mpr hheld)] at hround
        cases hround
        obtain ⟨other, hne, hholds⟩ := hheld
        exact .rejected other name rest h hgot hsplit hne hholds
      · rw [round_opened h hgot hsplit (mt hrange.mp hheld)] at hround
        cases hround
        exact .opened name rest fresh h hgot hsplit hline
          (fun other hne hholds => hheld ⟨other, hne, hholds⟩) hfree.unused
  | writing name content h =>
      -- names are distinct, so the comparison behind the first read finds nothing
      have hheld : ¬∃ other, other ≠ fd ∧ Holds s other name := by
        rintro ⟨other, hne, hholds⟩
        exact hne (hinv.exclusive hholds ⟨h.member, h.named⟩)
      by_cases hgot : got = []
      · subst hgot
        rw [round_finished h fresh (mt hrange.mp hheld)] at hround
        cases hround
        exact .finished name content h rfl (hreads.2.2 rfl).1
      · rw [round_written h hgot fresh (mt hrange.mp hheld)] at hround
        cases hround
        exact .written name content h hgot

end Invariant

section Preservation

variable {maxfd fd : Nat} {s s' : State} {got behind name rest content : Bytes}

-- The entries of the other descriptors and their files are as before.
structure Apart (fd : Nat) (s s' : State) : Prop where
  masterset : ∀ o, o ≠ fd → s'.masterset o = s.masterset o
  requestP : ∀ o, o ≠ fd → s'.requestP o = s.requestP o
  fdTable : ∀ o, o ≠ fd → s'.fdTable o = s.fdTable o
  peers : ∀ o, o ≠ fd → s'.peers o = s.peers o
  inherited : ∀ o, s.descs o = some .inherited → s'.descs o = some .inherited
  conn : ∀ o, o ≠ fd → s.descs o = some .conn → s'.descs o = some .conn
  file : ∀ o, o ≠ fd → ∀ name content, Writing s o name content →
    s'.descs (s.fdTable o) = some (.file name content.length) ∧ s'.files name = some content

theorem Apart.holds {o : Nat} (h : Apart fd s s') (hne : o ≠ fd) :
    Holds s' o name ↔ Holds s o name := by
  rw [Holds, Holds, h.masterset o hne, h.requestP o hne]

theorem Inv.of_apart (hinv : Inv maxfd s) (h : Apart fd s s') (h4 : 4 ≤ fd)
    (hslot : Slot s' fd) (hsmall : s'.masterset fd = true → fd < maxfd)
    (hname : ∀ name, Holds s' fd name → ∀ other, other ≠ fd → ¬Holds s other name)
    (hpoint : s'.point = .top ∨ s'.point = .serving fd ∧ s'.masterset fd = true) :
    Inv maxfd s' := by
  refine ⟨fun o ho => ?_, fun o ho => ?_, fun o ho hmem => ?_, fun a b name ha hb => ?_,
    fun o ho => ?_⟩
  · have hne : o ≠ fd := by
      simp only [listenFd] at ho
      omega
    rw [h.requestP o hne]
    exact ⟨(hinv.low o ho).1, h.inherited o (hinv.low o ho).2⟩
  · by_cases hne : o = fd
    · rw [hne]
      exact hslot
    · exact (hinv.slot o ho).frame (h.masterset o hne) (h.requestP o hne) (h.fdTable o hne)
        (h.conn o hne) (by rw [h.peers o hne]; exact Extends.refl _) (h.file o hne)
  · by_cases hne : o = fd
    · rw [hne] at hmem ⊢
      exact hsmall hmem
    · rw [h.masterset o hne] at hmem
      exact hinv.small o ho hmem
  · by_cases hafd : a = fd <;> by_cases hbfd : b = fd
    · rw [hafd, hbfd]
    · subst hafd
      exact absurd ((h.holds hbfd).mp hb) (hname name ha b hbfd)
    · subst hbfd
      exact absurd ((h.holds hafd).mp ha) (hname name hb a hafd)
    · exact hinv.exclusive ((h.holds hafd).mp ha) ((h.holds hbfd).mp hb)
  · rcases hpoint with htop | ⟨hserving, hmem⟩
    · rw [htop] at ho
      cases ho
    · rw [hserving] at ho
      cases ho
      exact ⟨h4, hmem⟩

-- Two entries of the descriptor table.
theorem Writing.fdTable_ne {o x : Nat} {d : Option Desc} (h : Writing s o name content)
    (hdesc : s.descs x = d) (hd : d ≠ some (.file name content.length)) : s.fdTable o ≠ x := by
  rintro rfl
  exact hd (hdesc.symm.trans h.file)

theorem Writing.apart_file {o : Nat} {name' content' : Bytes} (h : Writing s o name content)
    (h' : Writing s fd name' content') (hex : Exclusive s) (hne : o ≠ fd) :
    name ≠ name' ∧ s.fdTable o ≠ s.fdTable fd := by
  have hname : name ≠ name' := by
    rintro rfl
    exact hne (hex ⟨h.member, h.named⟩ ⟨h'.member, h'.named⟩)
  refine ⟨hname, h.fdTable_ne h'.file fun heq => hname ?_⟩
  injection heq with heq
  injection heq with heq
  exact heq.symm

theorem rejected_apart (hw : Waiting s fd) : Apart fd s (s.rejected fd got) := by
  have hconn := hw.desc
  refine ⟨fun o hne => by simp [State.rejected, hne], fun o hne => by simp [State.rejected, hne],
    fun o _ => rfl, fun o hne => by simp [State.rejected, hne], fun o ho => ?_,
    fun o hne ho => by simp [State.rejected, hne, ho], fun o _ name content h => ?_⟩
  · have hne : o ≠ fd := by
      rintro rfl
      rw [hconn] at ho
      cases ho
    simp [State.rejected, hne, ho]
  · have hne := h.fdTable_ne hconn (by rintro ⟨⟩)
    simp [State.rejected, hne, h.file, h.stored]

theorem opened_apart {fresh : Nat} (hfree : ∀ other, other ≠ fd → ¬Holds s other name)
    (hunused : s.descs fresh = none) : Apart fd s (s.opened fd got name rest fresh) := by
  have hkeep : ∀ o d, s.descs o = some d → (s.opened fd got name rest fresh).descs o = some d := by
    intro o d ho
    have hne : o ≠ fresh := by
      rintro rfl
      rw [hunused] at ho
      cases ho
    simp [State.opened, hne, ho]
  refine ⟨fun o _ => rfl, fun o hne => by simp [State.opened, hne],
    fun o hne => by simp [State.opened, hne], fun o hne => by simp [State.opened, hne],
    fun o => hkeep o _, fun o _ => hkeep o _, fun o hne name' content h => ⟨hkeep _ _ h.file, ?_⟩⟩
  have hname : name' ≠ name := by
    rintro rfl
    exact hfree o hne ⟨h.member, h.named⟩
  simp [State.opened, hname, h.stored]

theorem written_apart (hw : Writing s fd name content) (hex : Exclusive s) :
    Apart fd s (s.written fd got name content) := by
  have hkeep : ∀ o, o ≠ s.fdTable fd → (s.written fd got name content).descs o = s.descs o :=
    fun o hne => by simp [State.written, hne]
  have hne_file : ∀ {o d}, s.descs o = some d → d ≠ .file name content.length →
      o ≠ s.fdTable fd := by
    rintro o d ho hd rfl
    exact hd (Option.some_inj.mp (ho.symm.trans hw.file))
  refine ⟨fun o _ => rfl, fun o hne => by simp [State.written, hne], fun o _ => rfl,
    fun o hne => by simp [State.written, hne],
    fun o ho => (hkeep o (hne_file ho (by rintro ⟨⟩))).trans ho,
    fun o _ ho => (hkeep o (hne_file ho (by rintro ⟨⟩))).trans ho, fun o hne name' content' h => ?_⟩
  obtain ⟨hname, htable⟩ := h.apart_file hw hex hne
  rw [hkeep _ htable]
  exact ⟨h.file, by simp [State.written, hname, h.stored]⟩

theorem finished_apart (hw : Writing s fd name content) (hex : Exclusive s) :
    Apart fd s (s.finished fd) := by
  have hkeep : ∀ {o d}, s.descs o = some d → d ≠ .file name content.length → o ≠ fd →
      (s.finished fd).descs o = some d := by
    intro o d ho hd hne
    have hfile : o ≠ s.fdTable fd := by
      rintro rfl
      exact hd (Option.some_inj.mp (ho.symm.trans hw.file))
    simp [State.finished, hne, hfile, ho]
  refine ⟨fun o hne => by simp [State.finished, hne], fun o hne => by simp [State.finished, hne],
    fun o hne => by simp [State.finished, hne], fun o _ => rfl, fun o ho => ?_,
    fun o hne ho => hkeep ho (by rintro ⟨⟩) hne, fun o hne name' content' h => ?_⟩
  · refine hkeep ho (by rintro ⟨⟩) ?_
    rintro rfl
    rw [hw.desc] at ho
    cases ho
  · obtain ⟨hname, -⟩ := h.apart_file hw hex hne
    refine ⟨hkeep h.file ?_ (h.fdTable_ne hw.desc (by rintro ⟨⟩)), h.stored⟩
    intro heq
    injection heq with heq
    exact hname heq

theorem accept_apart (header : Bytes) (hfree : s.descs fd = none) :
    Apart fd s (s.accept fd header) := by
  have hkeep : ∀ {o d}, s.descs o = some d → (s.accept fd header).descs o = some d := by
    intro o d ho
    have hne : o ≠ fd := by
      rintro rfl
      rw [hfree] at ho
      cases ho
    simp [State.accept, hne, ho]
  exact ⟨fun o hne => by simp [State.accept, hne], fun o hne => by simp [State.accept, hne],
    fun o _ => rfl, fun o hne => by simp [State.accept, hne], fun o ho => hkeep ho,
    fun o _ ho => hkeep ho, fun o _ name content h => ⟨hkeep h.file, h.stored⟩⟩

-- Where the stream stands behind a read.
theorem heard_stream {p : Peer} {front : Bytes} (h : p.sent = front ++ p.pending)
    (hgot : got <+: p.pending) : p.sent = (front ++ got) ++ (heard got p).pending := by
  obtain ⟨rest, hrest⟩ := hgot
  rw [h, heard, ← hrest, List.drop_left, List.append_assoc]

theorem opened_writing {fresh : Nat} (hw : Waiting s fd)
    (hsplit : splitHeader got behind = some (name, rest))
    (hline : (s.peers fd).header ++ rest = got)
    (hread : got <+: (s.peers fd).pending) (hunused : s.descs fresh = none)
    (hzero : s.descs 0 = some .inherited) :
    Writing (s.opened fd got name rest fresh) fd name rest := by
  have hne : ∀ {o d}, s.descs o = some d → fresh ≠ o := by
    rintro o d ho rfl
    rw [hunused] at ho
    cases ho
  have hname : HeaderOf (s.peers fd).header name := by
    rcases splitHeader_line hsplit with h | h <;> rw [← hline, List.append_left_inj] at h
    · exact .inl h
    · exact .inr h
  refine ⟨⟨hw.member, by simp [State.opened, hw.conn], ?_, by simp [State.opened],
    by simp [State.opened], by simpa [State.opened] using hne hzero⟩,
    by simpa [State.opened, heard] using hname, by simp [State.opened], by simp [State.opened], ?_⟩
  · simp [State.opened, (hne hw.desc).symm, hw.desc]
  · have hstream := heard_stream hw.stream hread
    simpa [State.opened, heard, hline] using hstream

theorem written_writing (hw : Writing s fd name content) (hread : got <+: (s.peers fd).pending) :
    Writing (s.written fd got name content) fd name (content ++ got) := by
  have hne : fd ≠ s.fdTable fd := (hw.fdTable_ne hw.desc (by rintro ⟨⟩)).symm
  refine ⟨⟨hw.member, by simp [State.written, hw.conn], by simp [State.written, hne, hw.desc],
    by simp [State.written, hw.named], by simp [State.written, hw.header], hw.opened⟩,
    by simpa [State.written, heard] using hw.line, by simp [State.written], by simp [State.written], ?_⟩
  have hstream := heard_stream hw.stream hread
  simpa [State.written, heard] using hstream

theorem Inv.turn (hinv : Inv maxfd s) (h : Turn s fd got behind s') (h4 : 4 ≤ fd)
    (hread : got <+: (s.peers fd).pending) : Inv maxfd s' := by
  cases h with
  | rejected other name rest hw hgot hsplit hne hheld =>
      refine hinv.of_apart (rejected_apart hw) h4 (.idle ?_) ?_ ?_ (.inl rfl)
      · exact ⟨by simp [State.rejected], by simp [State.rejected, initRequest],
          by simp [State.rejected, initRequest], hw.table⟩
      · simp [State.rejected]
      · simp [State.rejected, Holds]
  | opened name rest fresh hw hgot hsplit hline hfree hunused =>
      have hwriting : Writing (s.opened fd got name rest fresh) fd name rest :=
        opened_writing hw hsplit hline hread hunused (hinv.low 0 (by simp [listenFd])).2
      refine hinv.of_apart (opened_apart hfree hunused) h4 (.writing _ _ hwriting)
        (fun _ => hinv.small fd h4 hw.member) ?_ (.inr ⟨rfl, hw.member⟩)
      intro name' hholds
      cases hwriting.named.symm.trans hholds.2
      exact hfree
  | written name content hw hgot =>
      have hwriting := written_writing hw hread
      refine hinv.of_apart (written_apart hw hinv.exclusive) h4 (.writing _ _ hwriting)
        (fun _ => hinv.small fd h4 hw.member) ?_ (.inr ⟨rfl, hw.member⟩)
      intro name' hholds other hne hother
      cases hwriting.named.symm.trans hholds.2
      exact hne (hinv.exclusive hother ⟨hw.member, hw.named⟩)
  | finished name content hw hgot hdrained =>
      refine hinv.of_apart (finished_apart hw hinv.exclusive) h4 (.idle ?_) ?_ ?_ (.inl rfl)
      · exact ⟨by simp [State.finished], by simp [State.finished, initRequest],
          by simp [State.finished, initRequest], by simp [State.finished]⟩
      · simp [State.finished]
      · simp [State.finished, Holds]

-- What a client does on its own.
theorem Inv.setPeer (hinv : Inv maxfd s) {change : Peer → Peer}
    (h : Extends (s.peers fd) (change (s.peers fd))) : Inv maxfd (s.setPeer fd change) := by
  refine ⟨hinv.low, fun o ho => ?_, hinv.small, hinv.exclusive, hinv.point⟩
  refine (hinv.slot o ho).frame rfl rfl rfl id ?_ fun name content h => ⟨h.file, h.stored⟩
  by_cases hne : o = fd
  · subst hne
    simpa [State.setPeer] using h
  · simpa [State.setPeer, hne] using Extends.refl _

theorem Inv.at_point (hinv : Inv maxfd s) {point : Point}
    (h : ∀ fd, point = .serving fd → 4 ≤ fd ∧ s.masterset fd = true) :
    Inv maxfd { s with point } :=
  ⟨hinv.low, fun o ho => (hinv.slot o ho).frame rfl rfl rfl id (Extends.refl _)
    fun _ _ h => ⟨h.file, h.stored⟩, hinv.small, hinv.exclusive, h⟩

theorem Inv.accept (hinv : Inv maxfd s) (header : Bytes) (htop : s.point = .top)
    (hfree : Free maxfd s fd) :
    Inv maxfd (s.accept fd header) := by
  have h4 : 4 ≤ fd := by
    by_contra hlt
    have hlow := (hinv.low fd (by simp only [listenFd]; omega)).2
    rw [hfree.unused] at hlow
    cases hlow
  have hidle : Idle s fd := by
    cases hinv.slot fd h4 with
    | idle h => exact h
    | waiting h => cases hfree.unused.symm.trans h.desc
    | writing name content h => cases hfree.unused.symm.trans h.desc
  have hwaiting : Waiting (s.accept fd header) fd :=
    ⟨⟨by simp [State.accept], by simp [State.accept], by simp [State.accept],
      by simp [State.accept, hidle.named], by simp [State.accept, hidle.header], hidle.table⟩,
      by simp [State.accept]⟩
  refine hinv.of_apart (accept_apart header hfree.unused) h4 (.waiting hwaiting)
    (fun _ => hfree.small.1) ?_ (.inl htop)
  intro name hholds
  cases hwaiting.named.symm.trans hholds.2

theorem Inv.step (hinv : Inv maxfd s) (h : Step maxfd s s') : Inv maxfd s' := by
  cases h with
  | send fd bs hopen =>
      refine hinv.setPeer ⟨rfl, fun front hstream => ?_⟩
      simp only [hstream, List.append_assoc]
  | finish fd => exact hinv.setPeer ⟨rfl, fun _ hstream => hstream⟩
  | accept connFd header htop hfree => exact hinv.accept header htop hfree
  | pick connFd htop hready hrange =>
      refine hinv.at_point ?_
      rintro fd ⟨⟩
      exact ⟨hrange.1, hready⟩
  | suspend => exact hinv.at_point (by rintro fd ⟨⟩)
  | serve hturn =>
      exact hinv.turn (hturn.turn_cases hinv) (hinv.point _ hturn.point).1 hturn.reads.2.1

theorem inv_reachable {files : Bytes → Option Bytes} {peers : Nat → Peer}
    (h : Reaches maxfd (State.start files peers) s) : Inv maxfd s := by
  induction h with
  | refl => exact inv_start files peers
  | tail _ hstep ih => exact ih.step hstep

end Preservation

end Csiebox.WriteServer
