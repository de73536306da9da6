import Csiebox.Service
import Csiebox.Lib.Logic
import Csiebox.Session.Theorems

namespace Csiebox

open CBytes Program Prog

section Calls

variable {σ : Type} {K : Kernel Sys σ} {I : {δ : Type} → Sys δ → σ → Prop} {E : Fault → σ → Prop}
  {s : σ} {l : Link UInt8}

theorem along_checkSize {Q : Unit → σ → Link UInt8 → Prop} {fits : Prop} [Decidable fits]
    (h : fits → Q () s l) (hE : ¬fits → E .overrun s) : Along K I E (checkSize fits) s l Q := by
  by_cases hfits : fits
  · rw [checkSize_pos hfits]
    exact along_ret (h hfits)
  · rw [checkSize_neg hfits]
    exact along_halt (hE hfits)

theorem along_sendMessage {Q : Bool → σ → Link UInt8 → Prop} {m : Bytes} (h : ∀ b, Q b s l) :
    Along K I E (sendMessage m) s l Q := by
  unfold sendMessage
  split_ifs
  · exact along_ret (h _)
  · exact along_say h

end Calls

section Handle

variable {F : Type} [Posix F] {md5 : Bytes → Mem 16} {server : Server} {connFd : Nat} {h : Host F}
  {l : Link UInt8} {I : {δ : Type} → Sys δ → Host F → Prop} {E : Fault → Host F → Prop}

theorem exec_sendMessage_any (m : Bytes) (h : Host F) (l : Link UInt8) :
    ∃ out b, Exec host ⟨sendMessage m, h, l⟩ out ⟨ret b, h, l⟩ := by
  unfold sendMessage
  split_ifs
  · exact ⟨[], false, .refl _⟩
  · cases hl : l.alive with
    | true => exact ⟨m, true, .single (by simp [step, say, hl])⟩
    | false => exact ⟨[], false, .single (by simp [step, say, hl])⟩

-- The link behind the first `n` bytes.
abbrev Link.skip (l : Link UInt8) (n : Nat) : Link UInt8 := ⟨l.inbox.drop n, l.closed⟩

-- The body of a request, received into a structure of `size` bytes.
theorem along_complete {size : Nat} {result : Bytes} {h' : Host F} (hresult : result = h.fresh size)
    (hE : ¬sizeofHeader + headerDatalen (requestHead l) ≤ size → E .overrun h') :
    Along host I E (completeMessageWithHeader (requestHead l) result) h' (Link.skip l sizeofHeader)
      fun r h₁ l₁ => h₁ = h' ∧ messageOf size h l = (if r.1 then some r.2 else none) ∧
        (r.1 = true → sizeofHeader + headerDatalen (requestHead l) ≤ size ∧
          l₁ = Link.skip l (sizeofHeader + headerDatalen (requestHead l))) := by
  have hsize : result.length = size := by simp [hresult, Host.fresh]
  unfold completeMessageWithHeader
  apply along_bind
  apply along_hear
  · intro hbody
    have htake : ((Link.skip l sizeofHeader).inbox.take (headerDatalen (requestHead l))).length =
        headerDatalen (requestHead l) := List.length_take_of_le hbody
    apply along_bind
    refine along_checkSize (fun hfits => along_ret ⟨rfl, ?_, ?_⟩) fun hfits => hE ?_
    · rw [messageOf, if_pos hbody, beq_iff_eq.mpr htake, if_pos rfl, hresult]
    · intro _
      rw [htake, hsize] at hfits
      simp [hfits, Link.skip]
    · rwa [htake, hsize] at hfits
  · intro hbody _
    apply along_bind
    refine along_checkSize (fun hfits => along_ret ⟨rfl, ?_, ?_⟩) fun hfits => hE ?_
    · rw [messageOf, if_neg (by simpa [Link.skip] using hbody), beq_false_of_ne hbody.ne]
      rfl
    · intro hok
      rw [beq_false_of_ne hbody.ne] at hok
      simp at hok
    · rw [hsize] at hfits
      omega

theorem along_recvHeader {Q : Bool × Bytes → Host F → Link UInt8 → Prop} (hE : E .overrun h)
    (hfull : sizeofHeader ≤ l.inbox.length →
      Q (true, requestHead l) h ⟨l.inbox.drop sizeofHeader, l.closed⟩)
    (hshort : ∀ head, l.inbox.length < sizeofHeader → l.closed = true → Q (false, head) h ⟨[], true⟩) :
    Along host I E (recvMessage (zeros sizeofHeader) sizeofHeader) h l Q := by
  rw [recvMessage, if_neg (by decide)]
  apply along_bind
  apply along_hear
  · intro hlen
    have htake : (l.inbox.take sizeofHeader).length = sizeofHeader := by
      rw [List.length_take]
      omega
    apply along_bind
    refine along_checkSize (fun _ => along_ret ?_) fun _ => hE
    rw [beq_iff_eq.mpr htake, overlay_full (by rw [htake, zeros_length])]
    exact hfull hlen
  · intro hlen hclosed
    apply along_bind
    refine along_checkSize (fun _ => along_ret ?_) fun _ => hE
    rw [beq_false_of_ne (by omega)]
    exact hshort _ hlen hclosed

theorem along_uninit {n : Nat} {Q : Mem n → Host F → Link UInt8 → Prop} (hI : I (.uninit n) h)
    (hQ : ∀ m : Mem n, m.val = h.fresh n → Q m h.tick l) :
    Along host I E (sys (.uninit n) : Code (Mem n)) h l Q := by
  refine along_sys hI ?_
  intro m h' hexec
  simp only [host, Host.exec, Option.some.injEq, Prod.mk.injEq] at hexec
  obtain ⟨rfl, rfl⟩ := hexec
  exact hQ _ rfl

theorem exec_fresh (h : Host F) (l : Link UInt8) (n : Nat) :
    ∃ m : Mem n, m.val = h.fresh n ∧
      Exec host ⟨(sys (.uninit n) : Code (Mem n)), h, l⟩ [] ⟨ret m, h.tick, l⟩ :=
  ⟨_, rfl, exec_sys rfl⟩

-- The table of clients after a LOGIN request that yields this entry.
def clientsAfter (server : Server) (connFd : Nat) : Option Bytes → Nat → Option ClientInfo
  | some account => Function.update server.client connFd (some { account, connFd })
  | none => server.client

theorem ends_login {h : Host F} {req : Bytes} :
    Ends host (login md5 server connFd req) h l fun server' _ _ =>
      server' = { server with client := clientsAfter server connFd (accountOf md5 server h req) } := by
  unfold login
  apply along_bind
  refine along_uninit trivial ?_
  intro stack hstack
  apply along_bind
  have hinfo : Ends host (getAccountInfo md5 server (cString (loginUser req ++ stack.val))
      (zeros sizeofAccount)) h.tick l fun r _ _ =>
        accountOf md5 server h req =
          if r.1 && loginPasswdHash req == slice userLenMax 16 r.2 then some r.2 else none := by
    unfold getAccountInfo
    apply along_bind
    refine along_sys trivial ?_
    intro r h' hexec
    simp only [host, Host.exec, Option.some.injEq, Prod.mk.injEq] at hexec
    obtain ⟨rfl, rfl⟩ := hexec
    rw [accountOf, ← hstack, Host.tick_fs]
    cases Posix.fopenRead h.fs server.accountPath with
    | none => exact along_ret rfl
    | some file => exact along_ret rfl
  refine hinfo.mono ?_
  rintro ⟨found, account⟩ h₁ l₁ haccount
  rw [haccount]
  apply along_bind
  refine along_checkSize (fun _ => ?_) fun _ => trivial
  dsimp only
  split_ifs with hsucc
  · apply along_bind
    refine ends_any.mono ?_
    intro homedir h₂ l₂ _
    apply along_bind
    refine ends_any.mono ?_
    intro made h₃ l₃ _
    apply along_bind
    exact along_sendMessage fun _ => along_ret rfl
  · apply along_bind
    exact along_sendMessage fun _ => along_ret rfl

theorem ends_openHome {h : Host F} :
    Ends host (openHome md5 server connFd) h l fun server' _ _ =>
      ∃ hl, server' = { server with clientNum := server.clientNum + 1, hl } := by
  unfold openHome
  apply along_bind
  refine ends_any.mono ?_
  intro filepath h₁ l₁ _
  apply along_bind
  refine ends_any.mono ?_
  intro entries h₂ l₂ _
  cases entries with
  | none => exact along_halt trivial
  | some entries =>
      apply along_bind
      split_ifs
      · unfold sendHome
        apply along_bind
        refine ends_any.mono ?_
        intro _ h₃ l₃ _
        apply along_bind
        refine ends_any.mono ?_
        intro hl h₄ l₄ _
        unfold sendOk
        apply along_bind
        refine ends_any.mono ?_
        intro last h₅ l₅ _
        apply along_bind
        exact along_sendMessage fun _ => along_ret (along_ret ⟨_, rfl⟩)
      · exact along_ret (along_ret ⟨_, rfl⟩)

theorem ends_loginRequest {h : Host F} {l : Link UInt8} :
    Ends host (loginRequest md5 server connFd (requestHead l)) h
      ⟨l.inbox.drop sizeofHeader, l.closed⟩ fun server' _ _ =>
        ∃ hl, server' = { server with
          client := clientsAfter server connFd (loginEntry md5 server h l)
          clientNum := server.clientNum + 1
          hl } := by
  unfold loginRequest
  apply along_bind
  refine along_uninit trivial ?_
  intro req hreq
  apply along_bind
  refine (along_complete hreq fun _ => trivial).mono ?_
  rintro ⟨ok, message⟩ h₁ l₁ ⟨rfl, hmessage, -⟩
  have hlogin : Ends host (if ok then login md5 server connFd message else ret server) h.tick l₁
      fun server' _ _ =>
        server' = { server with client := clientsAfter server connFd (loginEntry md5 server h l) } := by
    rw [loginEntry, hmessage]
    cases ok with
    | true => exact ends_login
    | false => exact along_ret rfl
  apply along_bind
  refine hlogin.mono ?_
  rintro server₁ h₂ l₂ rfl
  exact ends_openHome

-- What a call of `handle_request` that returns has done to the server.
inductive Handled (md5 : Bytes → Mem 16) (server : Server) (connFd : Nat) (h : Host F)
    (l : Link UInt8) : Server → Prop where
  -- the connection has ended before another header
  | ended (hshort : l.inbox.length < sizeofHeader) (hclosed : l.closed = true) :
      Handled md5 server connFd h l (logout { server with clientNum := server.clientNum - 1 } connFd)
  | login (hasks : Asks opLogin l) (hl : Nat → List HardLink) :
      Handled md5 server connFd h l { server with
        client := clientsAfter server connFd (loginEntry md5 server h l)
        clientNum := server.clientNum + 1
        hl }
  | other (hlen : sizeofHeader ≤ l.inbox.length) (hmagic : headerMagic (requestHead l) = magicReq)
      (hop : headerOp (requestHead l) ≠ opLogin) : Handled md5 server connFd h l server

theorem ends_handleRequest :
    Ends host (handleRequest md5 server connFd) h l fun server' _ _ =>
      Handled md5 server connFd h l server' := by
  unfold handleRequest
  apply along_bind
  apply along_recvHeader trivial
  · intro hlen
    simp only [if_true]
    split_ifs with hmagic
    · exact along_halt trivial
    · rw [not_not] at hmagic
      unfold dispatch
      split_ifs with hlogin hmeta hlink hrm
      · refine ends_loginRequest.mono ?_
        rintro server' h' l' ⟨hl, rfl⟩
        exact .login ⟨hlen, hmagic, hlogin⟩ hl
      · apply along_bind
        exact ends_any.mono fun _ _ _ _ => along_ret (.other hlen hmagic hlogin)
      · apply along_bind
        exact ends_any.mono fun _ _ _ _ => along_ret (.other hlen hmagic hlogin)
      · apply along_bind
        exact ends_any.mono fun _ _ _ _ => along_ret (.other hlen hmagic hlogin)
      · exact along_ret (.other hlen hmagic hlogin)
  · intro head hshort hclosed
    exact along_ret (.ended hshort hclosed)

theorem handleRequest_cases {out : Bytes} {server' : Server} {h' : Host F} {l' : Link UInt8}
    (hrun : Exec host ⟨handleRequest md5 server connFd, h, l⟩ out ⟨ret server', h', l'⟩) :
    Handled md5 server connFd h l server' :=
  ends_handleRequest.returns hrun

end Handle

section Induction

variable {F : Type}

theorem Service.ready_nodup (w : Service F) (workset : Nat → Bool) : (w.ready workset).Nodup :=
  List.nodup_range.filter _

theorem Service.mem_ready {w : Service F} {workset : Nat → Bool} {fd : Nat} (h : fd ∈ w.ready workset) :
    workset fd = true := by
  simp only [Service.ready, List.mem_filter, Bool.and_eq_true] at h
  exact h.2.2

variable [Posix F] {md5 : Bytes → Mem 16} {G : Service F → Nat → Link UInt8 → Prop}
  {w w' : Service F}

-- A call of `handle_request` takes no other descriptor out of `masterset`.
theorem Handled.masterset {server server' : Server} {connFd : Nat} {h : Host F} {l : Link UInt8}
    (hstep : Handled md5 server connFd h l server') {fd : Nat} (hne : fd ≠ connFd) :
    server'.masterset fd = server.masterset fd := by
  cases hstep with
  | ended hshort hclosed => exact Function.update_of_ne hne _ _
  | login hasks hl => rfl
  | other hlen hmagic hop => rfl

-- An invariant of every guarded call on a selected descriptor.
theorem Serves.invariant {fds : List Nat} (h : Serves md5 G fds w w') {J : Service F → Prop}
    (hset : ∀ fd ∈ fds, w.server.masterset fd = true ∧ fd ≠ w.listenFd) (hnodup : fds.Nodup)
    (hstart : J w)
    (hhandle : ∀ w fd l out server h l', w.server.masterset fd = true → fd ≠ w.listenFd →
      Arrives (w.links fd) l → G w fd l →
      Exec host ⟨handleRequest md5 w.server fd, w.host, l⟩ out ⟨ret server, h, l'⟩ → J w →
      J (w.handled md5 fd l server h l')) : J w' := by
  induction h with
  | done w => exact hstart
  | @next fd fds w w' l l' out server h arrives guarded handle rest ih =>
      obtain ⟨hfd, hfds⟩ := List.nodup_cons.mp hnodup
      obtain ⟨hin, hlisten⟩ := hset fd List.mem_cons_self
      refine ih ?_ hfds (hhandle _ _ _ _ _ _ _ hin hlisten arrives guarded handle hstart)
      intro j hj
      obtain ⟨hinj, hlistenj⟩ := hset j (List.mem_cons_of_mem _ hj)
      refine ⟨?_, hlistenj⟩
      exact ((handleRequest_cases handle).masterset (fun he => hfd (he ▸ hj))).trans hinj

-- An invariant of accepting a connection and of every guarded call holds at the
-- top of the loop.
theorem Reaches.invariant (h : Reaches md5 G w w') {J : Service F → Prop} (hstart : J w)
    (haccept : ∀ w connFd, w.server.masterset connFd = false → J w → J (w.accept connFd))
    (hhandle : ∀ w fd l out server h l', w.server.masterset fd = true → fd ≠ w.listenFd →
      Arrives (w.links fd) l → G w fd l →
      Exec host ⟨handleRequest md5 w.server fd, w.host, l⟩ out ⟨ret server, h, l'⟩ → J w →
      J (w.handled md5 fd l server h l')) : J w' := by
  induction h with
  | refl => exact hstart
  | @tail w _ _ hturn ih =>
      cases hturn with
      | again => exact ih
      | serve workset selected handles =>
          exact handles.invariant (fun fd hfd => selected fd (Service.mem_ready hfd))
            (Service.ready_nodup _ _) ih hhandle
      | accept connFd fresh workset selected handles =>
          refine handles.invariant ?_ (Service.ready_nodup _ _) (haccept _ connFd fresh ih) hhandle
          intro fd hfd
          obtain ⟨hin, hlisten⟩ := selected fd (Service.mem_ready hfd)
          refine ⟨?_, hlisten⟩
          by_cases hnew : fd = connFd
          · rw [hnew]
            exact Function.update_self ..
          · exact (Function.update_of_ne hnew _ _).trans hin

end Induction

section Instances

variable {F : Type} [Posix F] {md5 : Bytes → Mem 16} {G : Service F → Nat → Link UInt8 → Prop}

-- A turn that handles one request, evaluated.
theorem turn_evaluate {w : Service F} {fd fuel : Nat} {l : Link UInt8} {server : Server}
    (hset : w.server.masterset fd = true) (hfd : fd ≠ w.listenFd)
    (hready : w.ready (· == fd) = [fd]) (harrives : Arrives (w.links fd) l) (hguard : G w fd l)
    (hresult : (evaluate host fuel ⟨handleRequest md5 w.server fd, w.host, l⟩).2.result =
      some server) :
    ∃ h l', Turn md5 G w (w.handled md5 fd l server h l') := by
  have hrun := exec_result hresult
  generalize (evaluate host fuel ⟨handleRequest md5 w.server fd, w.host, l⟩).2 = p at hrun
  have hserves := Serves.next harrives hguard hrun (.done _)
  rw [← hready] at hserves
  refine ⟨p.state, p.link, .serve (· == fd) ?_ hserves⟩
  intro j hj
  rw [beq_iff_eq.mp hj]
  exact ⟨hset, hfd⟩

-- The account file "a" with the user "u", and the home directory "s/u".
def accountHost : Host TreeFs :=
  exampleHost (exampleFs [[⟨[0x73], validName_s⟩],
    [⟨[0x73], validName_s⟩, ⟨[0x75], validName_u⟩], [⟨[0x61], validName_a⟩]]
    fun i => if i < 2 then .dir else .file [0x75, 0x2c, 0x70, 0x0a])

-- A connection has just been accepted.
def acceptedService (nullUser : Option Bytes) : Service TreeFs :=
  (Service.start [0x73] [0x61] nullUser 3 accountHost).accept 4

theorem accepted_reaches {G : Service TreeFs → Nat → Link UInt8 → Prop} (nullUser : Option Bytes) :
    Reaches Session.md5OfX G (Service.start [0x73] [0x61] nullUser 3 accountHost)
      (acceptedService nullUser) := by
  refine .single (.accept 4 rfl (fun _ => false) (by simp) ?_)
  rw [show ((Service.start [0x73] [0x61] nullUser 3 accountHost).accept 4).ready (fun _ => false) = []
    from rfl]
  exact .done _

-- The LOGIN request of the user "u" with the password "p".
def userLogin : Bytes := loginMessage ([0x75] ++ zeros 29) (Session.md5OfX [0x70]).val

-- The user "u" is logged in.
theorem login_reaches {G : Service TreeFs → Nat → Link UInt8 → Prop}
    (hguard : G (acceptedService none) 4 ⟨userLogin, false⟩) :
    ∃ w info, Reaches Session.md5OfX G (Service.start [0x73] [0x61] none 3 accountHost) w ∧
      w.server.client 4 = some info ∧ w.server.path = [0x73] ∧ clientUser info = [0x75] ∧
      w.server.clientNum = 1 := by
  have hsome : (evaluate host 60 ⟨handleRequest Session.md5OfX (acceptedService none).server 4,
      (acceptedService none).host, ⟨userLogin, false⟩⟩).2.result.map (fun s =>
        ((s.client 4).map clientUser, s.path, s.clientNum)) = some (some [0x75], [0x73], 1) := by
    decide +kernel
  obtain ⟨server, hresult, hserver⟩ := Option.map_eq_some_iff.mp hsome
  obtain ⟨hclient, hrest⟩ := Prod.ext_iff.mp hserver
  obtain ⟨hpath, hnum⟩ := Prod.ext_iff.mp hrest
  obtain ⟨info, hinfo, huser⟩ := Option.map_eq_some_iff.mp hclient
  obtain ⟨h, l', hturn⟩ := turn_evaluate (w := acceptedService none) (by rfl) (by decide) (by decide)
    ⟨userLogin, rfl, by decide⟩ hguard hresult
  exact ⟨_, info, (accepted_reaches none).tail hturn, hinfo, hpath, huser, hnum⟩

end Instances

end Csiebox
