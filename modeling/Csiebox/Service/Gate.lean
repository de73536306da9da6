import Csiebox.Service.Paths

namespace Csiebox

open CBytes Program Prog

section Gate

variable {F : Type} [Posix F]

-- The call is given a path.
def GivenPath {δ : Type} (op : Sys δ) (h : Host F) : Prop := ¬CallsAt (fun _ => False) op h

-- A request that changes the home directory, met on `fd`: it goes to the file system
-- only behind a LOGIN request that has succeeded on this connection, and only below
-- the home directory of that login; without an entry it is refused.
structure Gate (md5 : Bytes → Mem 16) (w : Service F) (fd : Nat) (l : Link UInt8) : Prop where
  authenticated : ∀ out δ (op : Sys δ) k h l',
    Exec host ⟨handleRequest md5 w.server fd, w.host, l⟩ out ⟨.call op k, h, l'⟩ → GivenPath op h →
      ∃ account older, w.logins fd = account :: older ∧
        CallsAt (homeOf w.server.path (cString account) ++ [slash] <+: ·) op h
  refused : w.server.client fd = none →
    Along host (CallsAt fun _ => False) (fun _ _ => False) (handleRequest md5 w.server fd) w.host l
      fun server h _ => server = w.server ∧ h.fs = w.host.fs

-- A request that changes the home directory comes on a connection with an entry.
def HasEntry (w : Service F) (fd : Nat) (l : Link UInt8) : Prop :=
  Changes l → (w.server.client fd).isSome = true

-- Entries are the latest recorded logins, and only open connections have one.
structure Recorded (w : Service F) : Prop where
  latest : ∀ fd info, w.server.client fd = some info →
    ∃ older, w.logins fd = info.account :: older
  opened : ∀ fd, w.server.masterset fd = false → w.server.client fd = none

variable {md5 : Bytes → Mem 16} {w : Service F} {fd : Nat} {l : Link UInt8}

omit [Posix F] in
theorem Recorded.accept (hr : Recorded w) (hfresh : w.server.masterset fd = false) :
    Recorded (w.accept fd) := by
  have hnone := hr.opened fd hfresh
  constructor
  · intro j info hj
    have hne : j ≠ fd := by
      rintro rfl
      have hsome : w.server.client j = some info := hj
      rw [hnone] at hsome
      simp at hsome
    obtain ⟨older, holder⟩ := hr.latest j info hj
    exact ⟨older, (Function.update_of_ne hne _ _).trans holder⟩
  · intro j hj
    by_cases hne : j = fd
    · rw [hne]
      exact hnone
    · exact hr.opened j ((Function.update_of_ne hne _ _).symm.trans hj)

theorem Recorded.handled (hr : Recorded w) {server : Server} {h : Host F} {l' : Link UInt8}
    (hset : w.server.masterset fd = true) (hstep : Handled md5 w.server fd w.host l server) :
    Recorded (w.handled md5 fd l server h l') := by
  cases hstep with
  | ended hshort hclosed =>
      have hno : ¬Asks opLogin l := fun hasks => absurd hasks.1 (by omega)
      have hlogins : (w.handled md5 fd l (logout { w.server with
          clientNum := w.server.clientNum - 1 } fd) h l').logins = w.logins := if_neg hno
      constructor
      · intro j info hj
        have hne : j ≠ fd := by
          rintro rfl
          simp [Service.handled, logout] at hj
        rw [hlogins]
        exact hr.latest j info ((Function.update_of_ne hne _ _).symm.trans hj)
      · intro j hj
        by_cases hne : j = fd
        · rw [hne]
          exact Function.update_self ..
        · refine (Function.update_of_ne hne _ _).trans (hr.opened j ?_)
          exact (Function.update_of_ne hne _ _).symm.trans hj
  | login hasks hl =>
      constructor
      · intro j info hj
        cases hentry : loginEntry md5 w.server w.host l with
        | none =>
            simp only [Service.handled, if_pos hasks, hentry, clientsAfter] at hj ⊢
            exact hr.latest j info hj
        | some account =>
            simp only [Service.handled, if_pos hasks, hentry, clientsAfter] at hj ⊢
            by_cases hne : j = fd
            · subst j
              rw [Function.update_self] at hj ⊢
              obtain rfl := Option.some.inj hj
              exact ⟨_, rfl⟩
            · rw [Function.update_of_ne hne] at hj ⊢
              exact hr.latest j info hj
      · intro j hj
        have hne : j ≠ fd := by
          rintro rfl
          have hclear : w.server.masterset j = false := hj
          rw [hset] at hclear
          simp at hclear
        have hnone := hr.opened j hj
        simp only [Service.handled]
        cases loginEntry md5 w.server w.host l with
        | none => exact hnone
        | some account => exact (Function.update_of_ne hne _ _).trans hnone
  | other hlen hmagic hop =>
      have hno : ¬Asks opLogin l := fun hasks => hop hasks.2.2
      constructor
      · intro j info hj
        simp only [Service.handled, if_neg hno]
        exact hr.latest j info hj
      · exact hr.opened

theorem gate_of_recorded (hr : Recorded w) (hchanges : Changes l) (hentry : HasEntry w fd l) :
    Gate md5 w fd l := by
  obtain ⟨info, hinfo⟩ := Option.isSome_iff_exists.mp (hentry hchanges)
  obtain ⟨older, holder⟩ := hr.latest fd info hinfo
  constructor
  · intro out δ op k h l' hrun _
    have halong : Along host (CallsAt (homeOf w.server.path (clientUser info) ++ [slash] <+: ·))
      (fun _ _ => True)
        (handleRequest md5 w.server fd) w.host l fun server' _ _ => server' = w.server :=
      along_changes hinfo hchanges (fun r _ => List.prefix_append _ _) fun _ _ => trivial
    exact ⟨info.account, older, holder, halong.calls hrun⟩
  · intro hnone
    rw [hinfo] at hnone
    simp at hnone

-- In a run in which no such request meets a NULL entry, every one of them passes
-- through the gate.
theorem requests_authenticated (md5 : Bytes → Mem 16) (path accountPath : Bytes)
    (nullUser : Option Bytes) (listenFd : Nat) (h : Host F) (w : Service F)
    (hreach : Reaches md5 HasEntry (Service.start path accountPath nullUser listenFd h) w)
    (fd : Nat) (l : Link UInt8) (hchanges : Changes l) (hentry : HasEntry w fd l) :
    Gate md5 w fd l := by
  have hrecorded : Recorded w := by
    apply hreach.invariant
    · constructor
      · intro j info hj
        simp [Service.start] at hj
      · intro j _
        rfl
    · intro w connFd hfresh hr
      exact hr.accept hfresh
    · intro w fd l out server h l' hset _ _ _ hrun hr
      exact hr.handled hset (handleRequest_cases hrun)
  exact gate_of_recorded hrecorded hchanges hentry

end Gate

section Runs

open Session

-- The request to remove "x".
def removeX : Bytes := rmMessage 1 ++ [0x78]

-- The user "u" logs in and removes a file.
theorem requests_authenticated_remove :
    ∃ w, Reaches md5OfX HasEntry (Service.start [0x73] [0x61] none 3 accountHost) w ∧
      (w.server.client 4).isSome = true ∧ Gate md5OfX w 4 ⟨removeX, false⟩ := by
  have hguard : HasEntry (acceptedService none) 4 ⟨userLogin, false⟩ :=
    fun hchanges => absurd hchanges (by decide +kernel)
  obtain ⟨w, info, hreach, hinfo, -, -, -⟩ := login_reaches hguard
  have hentry : (w.server.client 4).isSome = true := by rw [hinfo]; rfl
  exact ⟨w, hreach, hentry, requests_authenticated md5OfX [0x73] [0x61] none 3 accountHost _ hreach 4
    ⟨removeX, false⟩ (by decide +kernel) fun _ => hentry⟩

def isRemove {δ : Type} : Sys δ → Bool
  | .remove _ => true
  | _ => false

-- "(null)" is what `sprintf` prints for a NULL entry: a peer that has never logged in
-- has a file of that directory removed.
theorem stranger_removes :
    ¬∀ w, Reaches md5OfX (fun _ _ _ => True)
        (Service.start [0x73] [0x61] (some [0x28, 0x6e, 0x75, 0x6c, 0x6c, 0x29]) 3 accountHost) w →
      ∀ fd l, w.server.masterset fd = true → Arrives (w.links fd) l → Changes l →
        Gate md5OfX w fd l := by
  intro hall
  have hgate := hall _ (accepted_reaches _) 4 ⟨removeX, false⟩ (by decide) ⟨removeX, rfl, by decide⟩
    (by decide +kernel)
  have hasks : (evaluate host 5 ⟨handleRequest md5OfX
      (acceptedService (some [0x28, 0x6e, 0x75, 0x6c, 0x6c, 0x29])).server 4, accountHost,
      ⟨removeX, false⟩⟩).2.asks isRemove = true := by
    decide +kernel
  obtain ⟨δ, op, k, hremove, hrun⟩ := exec_asks hasks
  have hgiven : ∀ h : Host TreeFs, GivenPath op h := by
    intro h
    cases op <;> simp [isRemove] at hremove
    exact fun hfalse => hfalse
  obtain ⟨account, older, hlogins, -⟩ := hgate.authenticated _ _ op k _ _ hrun (hgiven _)
  simp [acceptedService, Service.accept] at hlogins

end Runs

end Csiebox
