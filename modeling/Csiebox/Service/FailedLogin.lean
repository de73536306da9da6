import Csiebox.Service.Lemmas

namespace Csiebox

open CBytes Program Prog Session

section FailedLogin

variable {F : Type} [Posix F]

-- The peer can log in with the next request.
def CanLogIn (md5 : Bytes → Mem 16) (server : Server) (connFd : Nat) (h : Host F) : Prop :=
  ∀ l account, Asks opLogin l → loginEntry md5 server h l = some account →
    ∃ out server' h' l', Exec host ⟨handleRequest md5 server connFd, h, l⟩
      (header magicRes opLogin statusOk connFd 0 ++ out) ⟨ret server', h', l'⟩ ∧
        server'.client connFd = some { account, connFd }

-- The request is answered with the FAIL header alone, and nothing has changed.
def FailsAtomically (md5 : Bytes → Mem 16) (server : Server) (connFd : Nat) (h : Host F)
    (l : Link UInt8) : Prop :=
  ∃ server' h' l', Exec host ⟨handleRequest md5 server connFd, h, l⟩
      (header magicRes opLogin statusFail 0 0) ⟨ret server', h', l'⟩ ∧
    server'.client = server.client ∧ server'.clientNum = server.clientNum ∧
    server'.masterset = server.masterset ∧ h'.fs = h.fs ∧ CanLogIn md5 server' connFd h'

variable {md5 : Bytes → Mem 16} {server server' : Server} {connFd : Nat} {h h' : Host F}
  {l l' : Link UInt8} {out : Bytes}

-- A LOGIN request that returns is counted, whatever became of it.
theorem login_counts (hasks : Asks opLogin l)
    (hrun : Exec host ⟨handleRequest md5 server connFd, h, l⟩ out ⟨ret server', h', l'⟩) :
    server'.clientNum = server.clientNum + 1 := by
  cases handleRequest_cases hrun with
  | ended hshort hclosed => exact absurd hasks.1 (by omega)
  | login _ hl => rfl
  | other hlen hmagic hop => exact absurd hasks.2.2 hop

-- No LOGIN request that matches no account is handled as a failure: if the call
-- comes back at all, the table is as it was and the counter is not.
theorem failed_login_never_atomic (md5 : Bytes → Mem 16) (server : Server) (connFd : Nat) (h : Host F)
    (l : Link UInt8) (hasks : Asks opLogin l) (hfail : loginEntry md5 server h l = none) :
    ¬FailsAtomically md5 server connFd h l ∧
      ∀ out server' h' l',
        Exec host ⟨handleRequest md5 server connFd, h, l⟩ out ⟨ret server', h', l'⟩ →
          server'.client = server.client ∧ server'.masterset = server.masterset ∧
            server'.clientNum = server.clientNum + 1 := by
  constructor
  · rintro ⟨server', h', l', hrun, -, hnum, -⟩
    have hcount := login_counts hasks hrun
    omega
  · intro out server' h' l' hrun
    refine ⟨?_, ?_, login_counts hasks hrun⟩
    · cases handleRequest_cases hrun with
      | ended hshort hclosed => exact absurd hasks.1 (by omega)
      | login _ hl =>
          rw [hfail]
          rfl
      | other hlen hmagic hop => rfl
    · cases handleRequest_cases hrun with
      | ended hshort hclosed => exact absurd hasks.1 (by omega)
      | login _ hl => rfl
      | other hlen hmagic hop => rfl

end FailedLogin

section Runs

-- The unknown user "x".
def strangerLogin : Bytes := loginMessage ([0x78] ++ zeros 29) (md5OfX [0x70]).val

theorem failed_login_never_atomic_stranger :
    ¬FailsAtomically md5OfX (acceptedService none).server 4 accountHost ⟨strangerLogin, false⟩ ∧
      ∀ out server' h' l',
        Exec host ⟨handleRequest md5OfX (acceptedService none).server 4, accountHost,
            ⟨strangerLogin, false⟩⟩ out ⟨ret server', h', l'⟩ →
          server'.client = (acceptedService none).server.client ∧
            server'.masterset = (acceptedService none).server.masterset ∧
            server'.clientNum = (acceptedService none).server.clientNum + 1 :=
  failed_login_never_atomic md5OfX (acceptedService none).server 4 accountHost ⟨strangerLogin, false⟩
    (by decide +kernel) (by decide +kernel)

-- On a new connection the request ends in the NULL entry.
theorem stranger_stops_server :
    ¬∀ w, Reaches md5OfX (fun _ _ _ => True) (Service.start [0x73] [0x61] none 3 accountHost) w →
      ∀ l, Asks opLogin l → loginEntry md5OfX w.server w.host l = none →
        FailsAtomically md5OfX w.server 4 w.host l := by
  intro hall
  obtain ⟨server', h', l', hrun, -, hnum, -⟩ := hall _ (accepted_reaches none) ⟨strangerLogin, false⟩
    (by decide +kernel) (by decide +kernel)
  have hcount := login_counts (by decide +kernel) hrun
  omega

end Runs

end Csiebox
