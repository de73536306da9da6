import Csiebox.Service.Lemmas
import Mathlib.Data.Set.Card

namespace Csiebox

open CBytes Program Prog

section Counter

-- The connections with an entry in `server->client`.
def active (server : Server) : Set Nat := {fd | (server.client fd).isSome = true}

-- What `sig_usr` writes to the FIFO: `htonl` of the counter as a `uint32_t`.
def sigUsr (server : Server) : Bytes := (leBytes 4 (server.clientNum % 2 ^ 32).toNat).reverse

structure Counted (server : Server) : Prop where
  finite : (active server).Finite
  count : server.clientNum = (active server).ncard

variable {F : Type} [Posix F]

-- A LOGIN request succeeds, on a connection without an entry, and a connection that
-- ends has an entry.
def CountsRight (md5 : Bytes → Mem 16) (w : Service F) (fd : Nat) (l : Link UInt8) : Prop :=
  (l.inbox.length < sizeofHeader → (w.server.client fd).isSome = true) ∧
    (Asks opLogin l → w.server.client fd = none ∧ (loginEntry md5 w.server w.host l).isSome = true)

variable {md5 : Bytes → Mem 16} {server : Server} {fd : Nat}

theorem active_enter {client : Nat → Option ClientInfo} {info : ClientInfo}
    (hclient : server.client = Function.update client fd (some info)) :
    active server = insert fd {fd | (client fd).isSome = true} := by
  ext j
  by_cases hj : j = fd
  · subst j
    simp [active, hclient]
  · simp [active, hclient, hj]

theorem active_leave {client : Nat → Option ClientInfo}
    (hclient : server.client = Function.update client fd none) :
    active server = {fd | (client fd).isSome = true} \ {fd} := by
  ext j
  by_cases hj : j = fd
  · subst j
    simp [active, hclient]
  · simp [active, hclient, hj]

theorem Counted.enter {server' : Server} (info : ClientInfo) (hc : Counted server)
    (hnone : server.client fd = none)
    (hclient : server'.client = Function.update server.client fd (some info))
    (hnum : server'.clientNum = server.clientNum + 1) : Counted server' := by
  have hactive : active server' = insert fd (active server) := active_enter hclient
  have hnot : fd ∉ active server := by simp [active, hnone]
  constructor
  · rw [hactive]
    exact hc.finite.insert fd
  · rw [hactive, hnum, hc.count, Set.ncard_insert_of_notMem hnot hc.finite]
    push_cast
    rfl

theorem Counted.leave {server' : Server} (hc : Counted server)
    (hsome : (server.client fd).isSome = true)
    (hclient : server'.client = Function.update server.client fd none)
    (hnum : server'.clientNum = server.clientNum - 1) : Counted server' := by
  have hactive : active server' = active server \ {fd} := active_leave hclient
  have hcard := Set.ncard_sdiff_singleton_add_one (show fd ∈ active server from hsome) hc.finite
  constructor
  · rw [hactive]
    exact hc.finite.subset Set.sdiff_subset
  · rw [hactive, hnum, hc.count, ← hcard]
    push_cast
    omega

-- One guarded call of `handle_request`.
theorem Counted.handled {h : Host F} {l : Link UInt8} {server' : Server} (hc : Counted server)
    (hended : l.inbox.length < sizeofHeader → (server.client fd).isSome = true)
    (hlogin : Asks opLogin l → server.client fd = none ∧ (loginEntry md5 server h l).isSome = true)
    (hstep : Handled md5 server fd h l server') : Counted server' := by
  cases hstep with
  | ended hshort hclosed => exact hc.leave (hended hshort) rfl rfl
  | login hasks hl =>
      obtain ⟨hnone, hentry⟩ := hlogin hasks
      obtain ⟨account, haccount⟩ := Option.isSome_iff_exists.mp hentry
      refine Counted.enter { account, connFd := fd } hc hnone ?_ rfl
      rw [haccount, clientsAfter]
  | other hlen hmagic hop => exact hc

omit [Posix F] in
theorem start_counted (path accountPath : Bytes) (nullUser : Option Bytes) (listenFd : Nat)
    (h : Host F) : Counted (Service.start path accountPath nullUser listenFd h).server := by
  have hactive : active (Service.start path accountPath nullUser listenFd h).server = ∅ := by
    simp [active, Service.start]
  constructor
  · rw [hactive]
    exact Set.finite_empty
  · rw [hactive, Set.ncard_empty]
    rfl

-- In a run in which every LOGIN request succeeds on a fresh connection and only
-- logged-in connections end, the counter is the number of entries.
theorem counter_is_active (md5 : Bytes → Mem 16) (path accountPath : Bytes)
    (nullUser : Option Bytes) (listenFd : Nat) (h : Host F) (w : Service F)
    (hreach : Reaches md5 (CountsRight md5)
      (Service.start path accountPath nullUser listenFd h) w) :
    w.server.clientNum = (active w.server).ncard ∧ (active w.server).Finite ∧
      0 ≤ w.server.clientNum ∧
      sigUsr w.server = (leBytes 4 ((active w.server).ncard % 2 ^ 32)).reverse := by
  have hcounted : Counted w.server := by
    apply hreach.invariant (J := fun w => Counted w.server)
    · exact start_counted path accountPath nullUser listenFd h
    · intro w connFd _ hc
      exact ⟨hc.finite, hc.count⟩
    · intro w fd l out server h' l' _ _ _ hguard hrun hc
      exact hc.handled hguard.1 hguard.2 (handleRequest_cases hrun)
  refine ⟨hcounted.count, hcounted.finite, ?_, ?_⟩
  · rw [hcounted.count]
    omega
  · have hmod : (((active w.server).ncard : Int) % 2 ^ 32).toNat = (active w.server).ncard % 2 ^ 32 := by
      omega
    rw [sigUsr, hcounted.count, hmod]

end Counter

section Runs

open Session

-- The user "u" logs in on a new connection.
theorem counter_is_active_login :
    ∃ w, Reaches md5OfX (CountsRight md5OfX) (Service.start [0x73] [0x61] none 3 accountHost) w ∧
      w.server.clientNum = 1 ∧
      w.server.clientNum = (active w.server).ncard ∧ (active w.server).Finite ∧
      0 ≤ w.server.clientNum ∧
      sigUsr w.server = (leBytes 4 ((active w.server).ncard % 2 ^ 32)).reverse := by
  have hguard : CountsRight md5OfX (acceptedService none) 4 ⟨userLogin, false⟩ :=
    ⟨by decide +kernel, fun _ => ⟨rfl, by decide +kernel⟩⟩
  obtain ⟨w, _, hreach, -, -, -, hone⟩ := login_reaches hguard
  exact ⟨w, hreach, hone, counter_is_active md5OfX [0x73] [0x61] none 3 accountHost _ hreach⟩

-- A connection that comes and goes without a LOGIN request leaves -1 behind.
theorem counter_goes_negative :
    ¬∀ w, Reaches md5OfX (fun _ _ _ => True) (Service.start [0x73] [0x61] none 3 accountHost) w →
      w.server.clientNum = (active w.server).ncard := by
  intro hall
  have hnum : (evaluate host 60 ⟨handleRequest md5OfX (acceptedService none).server 4,
      (acceptedService none).host, ⟨[], true⟩⟩).2.result.map (·.clientNum) = some (-1) := by
    decide +kernel
  obtain ⟨server, hresult, hone⟩ := Option.map_eq_some_iff.mp hnum
  obtain ⟨h, l', hturn⟩ := turn_evaluate (G := fun _ _ _ => True) (w := acceptedService none) (by rfl)
    (by decide) (by decide) ⟨[], rfl, by decide⟩ trivial hresult
  have hcount := hall _ ((accepted_reaches none).tail hturn)
  have hneg : server.clientNum = (active server).ncard := hcount
  omega

end Runs

end Csiebox
