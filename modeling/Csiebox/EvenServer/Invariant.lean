import Csiebox.EvenServer.Turns

namespace Csiebox.EvenServer

open CBytes WriteServer

section Frames

variable {build : Build} {maxfd fd : Nat} {m : Machine} {a : Answers} {s t : State}

def IsFile (d : Desc) : Prop := ∃ path offset, d = .file path offset

-- A seat depends on the entries of its own descriptor and of its file.
theorem Seat.frame {o : Nat} (h : Seat s o) (hset : t.masterset o = s.masterset o)
    (hreq : t.requestP o = s.requestP o) (htable : t.fdTable o = s.fdTable o)
    (hconn : s.descs o = some .conn → t.descs o = some .conn)
    (hfile : ∀ d, s.fdTable o ≠ 0 → s.descs (s.fdTable o) = some d → IsFile d →
      ∃ path offset, t.descs (s.fdTable o) = some (.file path offset)) : Seat t o := by
  cases h with
  | idle h => exact .idle (h.frame hset hreq htable)
  | asking h => exact .asking (h.frame hset hreq htable hconn)
  | holding name h hdesc =>
      obtain ⟨path, offset, hdesc⟩ := hdesc
      refine .holding name (h.frame hset hreq htable hconn) ?_
      rw [htable]
      exact hfile _ h.opened hdesc ⟨path, offset, rfl⟩

theorem Inv.low_of_lt {o : Nat} (h : Inv build maxfd m) (ho : o < 4) :
    (m.state.requestP o).filename = none ∧ m.state.fdTable o = 0 ∧
      m.state.descs o = some .inherited :=
  h.low o (by simp only [listenFd]; omega)

theorem Inv.four_le_of_table {o : Nat} (h : Inv build maxfd m) (ho : m.state.fdTable o ≠ 0) :
    4 ≤ o := by
  by_contra hlt
  exact ho (h.low_of_lt (by omega)).2.1

theorem Inv.file_of_table {o : Nat} (h : Inv build maxfd m) (ho : m.state.fdTable o ≠ 0) :
    ∃ path offset, m.state.descs (m.state.fdTable o) = some (.file path offset) :=
  (h.seat o (h.four_le_of_table ho)).file_of_table ho

-- A closed descriptor is the session's own file, or one that was not in use before.
theorem Closes.keeps {c : Option Nat} (hc : Closes m fd a c) (hinv : Inv build maxfd m) {z : Nat}
    {d : Desc} (hz : m.state.descs z = some d) (hother : z ≠ m.state.fdTable fd ∨ ¬IsFile d) :
    closing m.state.descs c z = some d := by
  cases hc with
  | nothing _ => exact hz
  | leaks _ _ => exact hz
  | own hopened =>
      have hne : z ≠ m.state.fdTable fd := by
        rcases hother with hne | hfile
        · exact hne
        · intro heq
          obtain ⟨path, offset, hdesc⟩ := hinv.file_of_table hopened
          rw [heq, hdesc] at hz
          exact hfile ⟨path, offset, (Option.some.inj hz).symm⟩
      rw [closing, Function.update_of_ne hne, hz]
  | fresh x _ hunused =>
      have hne : z ≠ x := by
        intro heq
        rw [heq, hunused] at hz
        cases hz
      rw [closing, Function.update_of_ne hne, hz]

theorem Left.keeps {c : Option Nat} (hleft : Left fd m.state c t) (hc : Closes m fd a c)
    (hinv : Inv build maxfd m) {z : Nat} {d : Desc} (hz : m.state.descs z = some d) (hne : z ≠ fd)
    (hother : z ≠ m.state.fdTable fd ∨ ¬IsFile d) : t.descs z = some d := by
  rw [hleft.descs, Function.update_of_ne hne]
  exact hc.keeps hinv hz hother

theorem Uses.keeps {x : Nat} {name : Bytes} (hu : Uses m.state fd name x) (hinv : Inv build maxfd m)
    {z : Nat} {d : Desc} (hz : m.state.descs z = some d)
    (hother : z ≠ m.state.fdTable fd ∨ ¬IsFile d) : z ≠ x := by
  intro heq
  cases hu with
  | own hopened _ =>
      obtain ⟨path, offset, hdesc⟩ := hinv.file_of_table hopened
      rcases hother with hne | hfile
      · exact hne heq
      · rw [heq, hdesc] at hz
        exact hfile ⟨path, offset, (Option.some.inj hz).symm⟩
  | fresh x _ hunused _ =>
      rw [heq, hunused] at hz
      cases hz

-- The file of another session is none of this one's descriptors.
theorem Inv.apart_files {o : Nat} (hinv : Inv build maxfd m) (hconn : m.state.descs fd = some .conn)
    (hne : o ≠ fd) (ho : m.state.fdTable o ≠ 0) :
    m.state.fdTable o ≠ m.state.fdTable fd ∧ m.state.fdTable o ≠ fd := by
  obtain ⟨path, offset, hdesc⟩ := hinv.file_of_table ho
  constructor
  · exact fun heq => hne (hinv.apart o fd heq ho)
  · intro heq
    rw [heq, hconn] at hdesc
    cases hdesc

theorem not_isFile_conn : ¬IsFile .conn := by
  intro h
  obtain ⟨path, offset, heq⟩ := h
  cases heq

theorem not_isFile_inherited : ¬IsFile .inherited := by
  intro h
  obtain ⟨path, offset, heq⟩ := h
  cases heq

end Frames

section Preservation

variable {build : Build} {maxfd fd : Nat} {m : Machine} {a : Answers} {t : State}

theorem inv_start (files : Bytes → Option Bytes) (peers : Nat → Peer) :
    Inv build maxfd (Machine.start files peers) := by
  have hreq : ∀ fd, ((State.start files peers).requestP fd).filename = none ∧
      ((State.start files peers).requestP fd).headerDone = false := by
    intro fd
    simp only [State.start, Function.update_apply]
    split_ifs <;> exact ⟨rfl, rfl⟩
  refine ⟨fun fd hfd => ⟨(hreq fd).1, rfl, if_pos hfd⟩, fun fd h4 => .idle ?_, ?_, ?_, ?_, ?_, ?_⟩
  · have hne : fd ≠ listenFd := by simp only [listenFd]; omega
    exact ⟨by simp [Machine.start, State.start, hne], (hreq fd).1, (hreq fd).2, rfl⟩
  · intro fd h4 hmem
    have hne : fd ≠ listenFd := by simp only [listenFd]; omega
    simp [Machine.start, State.start, hne] at hmem
  · intro x y name hx _
    have hname := hx.2
    rw [Machine.start, (hreq x).1] at hname
    cases hname
  · exact fun x y _ hne => absurd rfl hne
  · intro fd hpoint
    cases hpoint
  · exact fun _ _ => rfl

theorem Inv.left {c : Option Nat} (hinv : Inv build maxfd m) (h4 : 4 ≤ fd)
    (hmem : m.state.masterset fd = true) (hc : Closes m fd a c) (hleft : Left fd m.state c t) :
    Inv build maxfd (m.go t none) := by
  obtain ⟨hdesc, -⟩ := (hinv.seat fd h4).conn_of_member hmem
  have hset : ∀ o, o ≠ fd → t.masterset o = m.state.masterset o := by
    intro o hne
    rw [hleft.masterset, Function.update_of_ne hne]
  have htable : ∀ o, o ≠ fd → t.fdTable o = m.state.fdTable o := by
    intro o hne
    rw [hleft.fdTable, Function.update_of_ne hne]
  have hout : t.masterset fd = false := by rw [hleft.masterset, Function.update_self]
  have hzero : t.fdTable fd = 0 := by rw [hleft.fdTable, Function.update_self]
  refine ⟨?_, ?_, ?_, ?_, ?_, ?_, ?_⟩
  · intro o ho
    have hne : o ≠ fd := by simp only [listenFd] at ho; omega
    obtain ⟨hname, hno, hinh⟩ := hinv.low o ho
    refine ⟨?_, (htable o hne).trans hno, hleft.keeps hc hinv hinh hne (.inr not_isFile_inherited)⟩
    exact (congrArg Request.filename (hleft.others o hne).1).trans hname
  · intro o ho
    by_cases hne : o = fd
    · subst hne
      exact .idle ⟨hout, congrArg Request.filename hleft.request,
        congrArg Request.headerDone hleft.request, hzero⟩
    · refine (hinv.seat o ho).frame (hset o hne) (hleft.others o hne).1 (htable o hne) ?_ ?_
      · exact fun hconn => hleft.keeps hc hinv hconn hne (.inr not_isFile_conn)
      · intro d hopen hfile hd
        obtain ⟨path, offset, rfl⟩ := hd
        obtain ⟨hown, hfd⟩ := hinv.apart_files hdesc hne hopen
        exact ⟨path, offset, hleft.keeps hc hinv hfile hfd (.inl hown)⟩
  · intro o ho hmem'
    by_cases hne : o = fd
    · subst hne
      exact absurd (hmem'.symm.trans hout) (by decide)
    · exact hinv.small o ho ((hset o hne).symm.trans hmem')
  · have hholds : ∀ {o name}, Holds t o name → Holds m.state o name := by
      intro o name h
      have hne : o ≠ fd := by
        intro heq
        subst heq
        exact absurd (h.1.symm.trans hout) (by decide)
      exact ⟨(hset o hne).symm.trans h.1,
        (congrArg Request.filename (hleft.others o hne).1).symm.trans h.2⟩
    exact fun x y name hx hy => hinv.exclusive (hholds hx) (hholds hy)
  · intro x y hxy hx
    have hxfd : x ≠ fd := fun heq => hx (heq ▸ hzero)
    have hyfd : y ≠ fd := fun heq => hx (hxy.trans (heq ▸ hzero))
    have hxy' : m.state.fdTable x = m.state.fdTable y := by
      rw [← htable x hxfd, ← htable y hyfd]
      exact hxy
    exact hinv.apart x y hxy' fun h0 => hx ((htable x hxfd).trans h0)
  · intro o ho
    cases hleft.point.symm.trans ho
  · intro hread o
    by_cases hne : o = fd
    · exact hne ▸ hzero
    · exact (htable o hne).trans (hinv.reading hread o)

theorem Inv.kept {x : Nat} {name : Bytes} (hinv : Inv .writeServer maxfd m) (h4 : 4 ≤ fd)
    (hmem : m.state.masterset fd = true) (hu : Uses m.state fd name x)
    (hkept : Kept fd m.state x name t) : Inv .writeServer maxfd (m.go t (some x)) := by
  obtain ⟨hdesc, hto⟩ := (hinv.seat fd h4).conn_of_member hmem
  obtain ⟨path, offset, hdescs⟩ := hkept.descs
  have htable : ∀ o, o ≠ fd → t.fdTable o = m.state.fdTable o := by
    intro o hne
    rw [hkept.fdTable, Function.update_of_ne hne]
  have hself : t.fdTable fd = x := by rw [hkept.fdTable, Function.update_self]
  have hkeeps : ∀ {z d}, m.state.descs z = some d → z ≠ m.state.fdTable fd ∨ ¬IsFile d →
      t.descs z = some d := by
    intro z d hz hother
    rw [hdescs, Function.update_of_ne (hu.keeps hinv hz hother), hz]
  have hfile : t.descs x = some (.file path offset) := by rw [hdescs, Function.update_self]
  have hzero : x ≠ 0 := by
    intro heq
    have hinh := hkeeps (hinv.low_of_lt (by omega : 0 < 4)).2.2 (.inr not_isFile_inherited)
    rw [← heq, hfile] at hinh
    cases hinh
  -- a file that another session has is not the one this session goes on with
  have hnew : ∀ o, o ≠ fd → m.state.fdTable o ≠ 0 → m.state.fdTable o ≠ x := by
    intro o hne ho
    obtain ⟨path', offset', hold⟩ := hinv.file_of_table ho
    exact hu.keeps hinv hold (.inl (hinv.apart_files hdesc hne ho).1)
  have hheld : ∀ {other name'}, Holds t other name' → other ≠ fd → Holds m.state other name' := by
    intro other name' h hne
    exact ⟨(congrFun hkept.masterset other).symm.trans h.1,
      (congrArg Request.filename (hkept.others other hne).1).symm.trans h.2⟩
  have hown : ∀ {name'}, Holds t fd name' → ∀ other, other ≠ fd → ¬Holds m.state other name' := by
    intro name' h other hne hother
    cases hkept.named.symm.trans h.2
    cases hu with
    | own hopened hnamed => exact hne (hinv.exclusive hother ⟨hmem, hnamed⟩)
    | fresh x _ _ hfree => exact hfree other hne hother
  refine ⟨?_, ?_, ?_, ?_, ?_, ?_, ?_⟩
  · intro o ho
    have hne : o ≠ fd := by simp only [listenFd] at ho; omega
    obtain ⟨hname, hno, hinh⟩ := hinv.low o ho
    refine ⟨?_, (htable o hne).trans hno, hkeeps hinh (.inr not_isFile_inherited)⟩
    exact (congrArg Request.filename (hkept.others o hne).1).trans hname
  · intro o ho
    by_cases hne : o = fd
    · subst hne
      exact .holding name ⟨(congrFun hkept.masterset o).trans hmem, hkept.conn.trans hto,
        hkeeps hdesc (.inr not_isFile_conn), hkept.named,
          hkept.header, by rw [Machine.go, hself]; exact hzero⟩
        ⟨path, offset, by rw [Machine.go, hself]; exact hfile⟩
    · refine (hinv.seat o ho).frame (congrFun hkept.masterset o) (hkept.others o hne).1 (htable o hne)
        ?_ ?_
      · exact fun hconn => hkeeps hconn (.inr not_isFile_conn)
      · intro d hopen hold hd
        obtain ⟨path', offset', rfl⟩ := hd
        exact ⟨path', offset', hkeeps hold (.inl (hinv.apart_files hdesc hne hopen).1)⟩
  · exact fun o ho hmem' => hinv.small o ho ((congrFun hkept.masterset o).symm.trans hmem')
  · intro y z name' hy hz
    by_cases hyfd : y = fd <;> by_cases hzfd : z = fd
    · rw [hyfd, hzfd]
    · subst hyfd
      exact absurd (hheld hz hzfd) (hown hy z hzfd)
    · subst hzfd
      exact absurd (hheld hy hyfd) (hown hz y hyfd)
    · exact hinv.exclusive (hheld hy hyfd) (hheld hz hzfd)
  · intro y z hyz hy
    by_cases hyfd : y = fd <;> by_cases hzfd : z = fd
    · rw [hyfd, hzfd]
    · subst hyfd
      have hz : m.state.fdTable z = x := (htable z hzfd).symm.trans (hyz.symm.trans hself)
      exact absurd hz (hnew z hzfd (hz ▸ hzero))
    · subst hzfd
      have hx : m.state.fdTable y = x := (htable y hyfd).symm.trans (hyz.trans hself)
      exact absurd hx (hnew y hyfd (hx ▸ hzero))
    · have hyz' : m.state.fdTable y = m.state.fdTable z := by
        rw [← htable y hyfd, ← htable z hzfd]
        exact hyz
      exact hinv.apart y z hyz' fun h0 => hy ((htable y hyfd).trans h0)
  · intro o ho
    cases hkept.point.symm.trans ho
    refine ⟨h4, (congrFun hkept.masterset fd).trans hmem, fun y hy => ?_⟩
    cases hy
    exact ⟨hself.symm, hzero⟩
  · intro hread
    cases hread

-- Peers, files and the place in the program are not part of it.
theorem Inv.at_state (hinv : Inv build maxfd m) (s : State) (x : Option Nat)
    (hset : s.masterset = m.state.masterset) (hreq : s.requestP = m.state.requestP)
    (htable : s.fdTable = m.state.fdTable) (hdescs : s.descs = m.state.descs)
    (hpoint : ∀ fd, s.point = .serving fd → 4 ≤ fd ∧ s.masterset fd = true ∧
      ∀ y, x = some y → y = s.fdTable fd ∧ y ≠ 0) : Inv build maxfd (m.go s x) := by
  refine ⟨?_, fun o ho => ?_, ?_, ?_, ?_, hpoint, ?_⟩
  · simp only [Machine.go, hreq, htable, hdescs]
    exact hinv.low
  · refine (hinv.seat o ho).frame (congrFun hset o) (congrFun hreq o) (congrFun htable o) ?_ ?_
    · exact fun hconn => (congrFun hdescs o).trans hconn
    · intro d _ hfile hd
      obtain ⟨path, offset, rfl⟩ := hd
      exact ⟨path, offset, (congrFun hdescs _).trans hfile⟩
  · simp only [Machine.go, hset]
    exact hinv.small
  · intro y z name hy hz
    have hholds : ∀ {o}, Holds s o name → Holds m.state o name := by
      intro o h
      rwa [Holds, hset, hreq] at h
    exact hinv.exclusive (hholds hy) (hholds hz)
  · simp only [Machine.go, htable]
    exact hinv.apart
  · simp only [Machine.go, htable]
    exact hinv.reading

theorem Inv.accept (hinv : Inv build maxfd m) (header : Bytes) (htop : m.state.point = .top)
    (hfree : Free maxfd m.state fd) :
    Inv build maxfd { m with state := m.state.accept fd header } := by
  have h4 : 4 ≤ fd := by
    by_contra hlt
    have hlow := (hinv.low_of_lt (by omega : fd < 4)).2.2
    rw [hfree.unused] at hlow
    cases hlow
  have hidle : Idle m.state fd := by
    cases hinv.seat fd h4 with
    | idle h => exact h
    | asking h => cases hfree.unused.symm.trans h.desc
    | holding name h _ => cases hfree.unused.symm.trans h.desc
  have hkeeps : ∀ {z d}, m.state.descs z = some d → (m.state.accept fd header).descs z = some d := by
    intro z d hz
    have hne : z ≠ fd := by
      intro heq
      rw [heq, hfree.unused] at hz
      cases hz
    simp [State.accept, hne, hz]
  have hset : ∀ o, o ≠ fd → (m.state.accept fd header).masterset o = m.state.masterset o := by
    intro o hne
    simp [State.accept, hne]
  have hreq : ∀ o, o ≠ fd → (m.state.accept fd header).requestP o = m.state.requestP o := by
    intro o hne
    simp [State.accept, hne]
  have hname : ((m.state.accept fd header).requestP fd).filename = none := by
    simp [State.accept, hidle.named]
  have hholds : ∀ {o name}, Holds (m.state.accept fd header) o name → Holds m.state o name := by
    intro o name h
    have hne : o ≠ fd := by
      intro heq
      subst heq
      cases hname.symm.trans h.2
    exact ⟨(hset o hne).symm.trans h.1, (congrArg Request.filename (hreq o hne)).symm.trans h.2⟩
  refine ⟨fun o ho => ?_, fun o ho => ?_, fun o ho hmem => ?_, fun y z name hy hz => ?_,
    fun y z hyz hy => hinv.apart y z hyz hy, fun o ho => ?_, hinv.reading⟩
  · have hne : o ≠ fd := by simp only [listenFd] at ho; omega
    obtain ⟨hno, htable, hinh⟩ := hinv.low o ho
    exact ⟨(congrArg Request.filename (hreq o hne)).trans hno, htable, hkeeps hinh⟩
  · by_cases hne : o = fd
    · subst hne
      exact .asking ⟨by simp [State.accept], by simp [State.accept], by simp [State.accept], hname,
        by simp [State.accept, hidle.header], hidle.table⟩
    · refine (hinv.seat o ho).frame (hset o hne) (hreq o hne) rfl hkeeps ?_
      intro d hopen hold hd
      obtain ⟨path, offset, rfl⟩ := hd
      exact ⟨path, offset, hkeeps hold⟩
  · by_cases hne : o = fd
    · exact hne ▸ hfree.small.1
    · exact hinv.small o ho ((hset o hne).symm.trans hmem)
  · exact hinv.exclusive (hholds hy) (hholds hz)
  · cases htop.symm.trans ho

theorem Inv.turned (hinv : Inv build maxfd m) {m' : Machine} (hpoint : m.state.point = .serving fd)
    (h : Turned build maxfd m fd a m') (hallowed : Harmless build maxfd m fd a ∨ FirstComplete m fd a)
    (hruns : m'.running = true) : Inv build maxfd m' := by
  obtain ⟨h4, hmem, -⟩ := hinv.point fd hpoint
  cases h with
  | harmed m' hharm hstops =>
      rcases hallowed with hharmless | hfirst
      · exact absurd hharmless hharm
      · rw [hstops hfirst] at hruns
        cases hruns
  | stays t hreading hserved hrequest =>
      refine hinv.at_state _ none hserved.masterset hrequest hserved.fdTable hserved.descs ?_
      intro o ho
      cases ho
  | left c t hc hleft _ => exact hinv.left h4 hmem hc hleft
  | kept x name t hbuild hu hkept _ =>
      subst hbuild
      exact hinv.kept h4 hmem hu hkept

end Preservation

section Runs

variable {build : Build} {maxfd : Nat} {serves : Machine → Nat → Answers → Prop} {m m' : Machine}

theorem Inv.step (hinv : Inv build maxfd m) (h : Step build maxfd serves m m')
    (hserves : ∀ m fd a, serves m fd a → Harmless build maxfd m fd a ∨ FirstComplete m fd a)
    (hruns : m'.running = true) : Inv build maxfd m' := by
  cases h with
  | send fd bs hopen => exact hinv.at_state _ m.fileFd rfl rfl rfl rfl hinv.point
  | finish fd => exact hinv.at_state _ m.fileFd rfl rfl rfl rfl hinv.point
  | accept connFd header _ htop hfree => exact hinv.accept header htop hfree
  | pick connFd _ htop hready hrange =>
      refine hinv.at_state _ none rfl rfl rfl rfl ?_
      intro fd hpoint
      cases hpoint
      exact ⟨hrange.1, hready, fun y hy => by cases hy⟩
  | suspend _ =>
      refine hinv.at_state _ none rfl rfl rfl rfl ?_
      intro fd hpoint
      cases hpoint
  | turn _ hpoint hanswers hallowed =>
      exact hinv.turned hpoint (turn_turned hinv hpoint hanswers) (hserves _ _ _ hallowed) hruns

-- A step is only taken by a running process, the clients' steps apart.
theorem Step.was_running (h : Step build maxfd serves m m') (hruns : m'.running = true) :
    m.running = true := by
  cases h with
  | send _ _ _ => exact hruns
  | finish _ => exact hruns
  | accept _ _ h _ _ => exact h
  | pick _ h _ _ _ => exact h
  | suspend h => exact h
  | turn h _ _ _ => exact h

theorem inv_reaches {files : Bytes → Option Bytes} {peers : Nat → Peer}
    (h : Reaches build maxfd serves (Machine.start files peers) m)
    (hserves : ∀ m fd a, serves m fd a → Harmless build maxfd m fd a ∨ FirstComplete m fd a)
    (hruns : m.running = true) : Inv build maxfd m := by
  induction h with
  | refl => exact inv_start files peers
  | tail _ hstep ih => exact (ih (hstep.was_running hruns)).step hstep hserves hruns

end Runs

end Csiebox.EvenServer
