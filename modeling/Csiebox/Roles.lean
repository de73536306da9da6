import Csiebox.Session.Login
import Csiebox.Pull.Theorems
import Csiebox.Push.Outcome

namespace Csiebox.Roles

open CBytes Program Prog Session

section Roles

variable {F G : Type} [Posix F] [Posix G]

-- Both ends before the login. Their notices are counted from here on.
def start (md5 : Bytes → Mem 16) (connFd : Nat) (server : Server) (client : Client) (ch : Host F)
    (sh : Host G) : Joint F G (Option Client) :=
  session md5 connFd server (startClient md5 client) { ch with notices := [] }
    { sh with notices := [] } [] []

variable (c : Joint F G (Option Client))

-- The client has found its directory not empty: it runs `traverse_file`, else
-- the pull loop.
def ClientTraverses : Prop := ∃ n, 2 < n ∧ .num n ∈ c.leftState.notices

-- The server has found the home directory not empty: it runs `traverse_file`,
-- else it goes on to dispatch requests.
def ServerTraverses : Prop := .serverNotEmpty ∈ c.rightState.notices

def Agree : Prop := ¬(ClientTraverses c ∧ ServerTraverses c)

-- What is claimed of every state from `c` on.
def Sound : Prop := ∀ d, Runs c d → Agree d ∧ ¬d.Deadlock

end Roles

section Notices

variable {F G : Type} [Posix F] [Posix G] {c d : Joint F G (Option Client)}

theorem exec_notices {F : Type} [Posix F] {δ : Type} (op : Sys δ) (h : Host F) (r : δ) (h' : Host F)
    (hexec : host.exec op h = some (r, h')) : h.notices <+: h'.notices := by
  cases op with
  | notice msg =>
      simp only [host, Host.exec, Option.some.injEq, Prod.mk.injEq] at hexec
      rw [← hexec.2]
      exact List.prefix_append _ _
  | fopenWrite path =>
      simp only [host, Host.exec] at hexec
      split at hexec <;> cases hexec <;> exact List.prefix_rfl
  | setlkw fp fl =>
      simp only [host, Host.exec, Option.map_eq_some_iff] at hexec
      obtain ⟨result, -, heq⟩ := hexec
      cases heq
      exact List.prefix_rfl
  | readEvents size =>
      simp only [host, Host.exec, Option.map_eq_some_iff] at hexec
      obtain ⟨result, -, heq⟩ := hexec
      cases heq
      exact List.prefix_rfl
  | _ =>
      simp only [host, Host.exec, Host.set, Option.some.injEq, Prod.mk.injEq] at hexec
      obtain ⟨-, rfl⟩ := hexec
      exact List.prefix_rfl

theorem runs_notices (h : Runs c d) :
    c.leftState.notices <+: d.leftState.notices ∧ c.rightState.notices <+: d.rightState.notices :=
  runs_rel (R := fun h h' => h.notices <+: h'.notices) (Q := fun h h' => h.notices <+: h'.notices)
    (fun _ => List.prefix_rfl) (fun _ => List.prefix_rfl) (fun _ _ _ => List.IsPrefix.trans)
    (fun _ _ _ => List.IsPrefix.trans) exec_notices exec_notices h

-- A decision is not taken back.
theorem Agree.of_runs (h : Agree d) (hrun : Runs c d) : Agree c := by
  rintro ⟨⟨n, hn, hmem⟩, hserver⟩
  have hnotices := runs_notices hrun
  exact h ⟨⟨n, hn, hnotices.1.subset hmem⟩, hnotices.2.subset hserver⟩

end Notices

section Soundness

variable {F G : Type} [Posix F] [Posix G] {c d : Joint F G (Option Client)}

-- One run to a sound state is enough.
theorem Sound.of_run (h : Sound d) (hrun : Runs c d) : Sound c := by
  intro e he
  obtain ⟨f, hdf, hef⟩ := net_diamond.confluent hrun he
  obtain ⟨hagree, hfree⟩ := h f hdf
  refine ⟨hagree.of_runs hef, fun hdead => hfree ?_⟩
  rwa [(stable_stop hdead.stop).reach rfl hef]

theorem sound_of_stop (hstop : ∀ e, ¬Step d e) (hagree : Agree d) (hfree : ¬d.Deadlock) : Sound d := by
  intro e he
  rw [(stable_stop hstop).reach rfl he]
  exact ⟨hagree, hfree⟩

-- A client that has been stopped in the pull loop.
theorem sound_of_halt (hhalt : ∃ e, d.left = halt e) (hpull : ¬ClientTraverses d) : Sound d := by
  have hstable := stable_left (K := host) (J := host) (τ := Host G) (γ := Unit)
    (fun (p : Code (Option Client)) (s : Host F) =>
      (∃ e, p = halt e) ∧ s.notices = d.leftState.notices) fun p s i h => by
      obtain ⟨⟨e, rfl⟩, -⟩ := h
      rfl
  intro e he
  obtain ⟨⟨fault, hleft⟩, hnotices⟩ := hstable.reach ⟨hhalt, rfl⟩ he
  refine ⟨fun hboth => hpull ?_, fun hdead => ?_⟩
  · obtain ⟨n, hn, hmem⟩ := hboth.1
    exact ⟨n, hn, hnotices ▸ hmem⟩
  · obtain ⟨n, k, hrecv, -⟩ := hdead.left
    rw [hleft] at hrecv
    simp at hrecv

end Soundness

end Csiebox.Roles
