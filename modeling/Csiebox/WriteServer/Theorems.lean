import Csiebox.WriteServer.Lemmas

namespace Csiebox.WriteServer

open CBytes State

section Turns

variable {maxfd fd : Nat} {s s' : State} {got behind : Bytes}

-- What becomes of a client that asks for the file of another one.
structure Rejected (s : State) (fd : Nat) (s' : State) : Prop where
  files : s'.files = s.files
  others : ∀ o, o ≠ fd → s'.descs o = s.descs o
  closed : s'.descs fd = none
  out : s'.masterset fd = false
  told : (s'.peers fd).got = (s.peers fd).got ++ rejectHeader

theorem Turn.rejects (h : Turn s fd got behind s') (hdone : (s.requestP fd).headerDone = false)
    {name rest : Bytes} (hsplit : splitHeader got behind = some (name, rest))
    {other : Nat} (hne : other ≠ fd) (hheld : Holds s other name) : Rejected s fd s' := by
  cases h with
  | rejected other' name' rest' hw hgot hsplit' hne' hheld' =>
      exact ⟨rfl, fun o ho => by simp [State.rejected, ho], by simp [State.rejected],
        by simp [State.rejected], by simp [State.rejected, heard]⟩
  | opened name' rest' fresh hw hgot hsplit' hline hfree hunused =>
      cases hsplit.symm.trans hsplit'
      exact absurd hheld (hfree other hne)
  | written name' content hw hgot => cases hdone.symm.trans hw.header
  | finished name' content hw hgot hdrained => cases hdone.symm.trans hw.header

-- The file of a client whose stream has ended.
structure Stored (s : State) (fd : Nat) (s' : State) (name body : Bytes) : Prop where
  named : (s.requestP fd).filename = some name
  line : HeaderOf (s.peers fd).header name
  sent : (s.peers fd).sent = (s.peers fd).header ++ body
  file : s'.files name = some body

theorem Turn.stores (h : Turn s fd [] behind s') : ∃ name body, Stored s fd s' name body := by
  cases h with
  | rejected other name rest hw hgot => exact absurd rfl hgot
  | opened name rest fresh hw hgot => exact absurd rfl hgot
  | written name content hw hgot => exact absurd rfl hgot
  | finished name content hw hgot hdrained =>
      refine ⟨name, content, hw.named, hw.line, ?_, hw.stored⟩
      rw [hw.stream, hdrained, List.append_nil]

end Turns

theorem sessions_keep_files_apart {maxfd : Nat} {files : Bytes → Option Bytes}
    {peers : Nat → Peer} {s : State} (h : Reaches maxfd (State.start files peers) s) :
    Exclusive s ∧
      (∀ fd got behind s', Serves maxfd s fd got behind s' →
        (s.requestP fd).headerDone = false →
          ∀ name rest other, splitHeader got behind = some (name, rest) → other ≠ fd →
            Holds s other name → Rejected s fd s') ∧
      ∀ fd behind s', Serves maxfd s fd [] behind s' →
        ∃ name body, Stored s fd s' name body := by
  have hinv := inv_reachable h
  refine ⟨hinv.exclusive, ?_, ?_⟩
  · intro fd got behind s' hserves hdone name rest other hsplit hne hheld
    exact (hserves.turn_cases hinv).rejects hdone hsplit hne hheld
  · intro fd behind s' hserves
    exact (hserves.turn_cases hinv).stores

section Example

-- The line "f\n", behind which client 4 sends "a".
def fLine : Bytes := [0x66, 0x0a]

def twoClients : State :=
  State.start (fun _ => none) fun _ =>
    { header := [], sent := [], pending := [], ended := false, got := [] }

def sends (bs : Bytes) (p : Peer) : Peer := { p with sent := p.sent ++ bs, pending := p.pending ++ bs }

def State.serving (s : State) (fd : Nat) : State := { s with point := .serving fd }

def greeted : State := ((twoClients.accept 4 fLine).setPeer 4 (sends (fLine ++ [0x61]))).serving 4

def afterFirst : State := ((greeted.round 16 4 (fLine ++ [0x61]) [] 5).getD greeted)

-- Client 6 asks for the same file.
def asked : State :=
  ((({ afterFirst with point := .top } : State).accept 6 fLine).setPeer 6 (sends fLine)).serving 6

-- Client 4 has closed its end.
def closed : State := afterFirst.setPeer 4 fun p => { p with ended := true }

theorem serves_round {s : State} {fd : Nat} {got : Bytes} (fresh : Nat)
    (hpoint : s.point = .serving fd) (hreads : Reads (s.peers fd) got)
    (hfirst : FirstRead s fd got []) (hfree : Free 16 s fresh)
    (hsome : (s.round 16 fd got [] fresh).isSome) :
    Serves 16 s fd got [] ((s.round 16 fd got [] fresh).getD s) := by
  obtain ⟨s', hs'⟩ := Option.isSome_iff_exists.mp hsome
  exact ⟨hpoint, hreads, hfirst, fresh, hfree, by rw [hs']; rfl⟩

theorem greeted_serves : Serves 16 greeted 4 (fLine ++ [0x61]) [] afterFirst := by
  refine serves_round 5 rfl ⟨by decide, by decide, by decide⟩ ?_ ⟨by decide, by decide⟩ (by decide)
  exact fun _ => ⟨by decide, [0x66], [0x61], by decide, by decide⟩

theorem afterFirst_reached : Reaches 16 twoClients afterFirst := by
  refine .head (.accept 4 fLine rfl ⟨by decide, by decide⟩) ?_
  refine .head (.send 4 (fLine ++ [0x61]) (by decide)) ?_
  refine .head (.pick 4 rfl (by decide) (by decide)) ?_
  exact .single (.serve greeted_serves)

theorem asked_reached : Reaches 16 twoClients asked := by
  refine afterFirst_reached.trans (.head .suspend ?_)
  refine .head (.accept 6 fLine rfl ⟨by decide, by decide⟩) ?_
  refine .head (.send 6 fLine (by decide)) ?_
  exact .single (.pick 6 rfl (by decide) (by decide))

theorem asked_serves :
    Serves 16 asked 6 fLine [] ((asked.round 16 6 fLine [] 7).getD asked) := by
  refine serves_round 7 rfl ⟨by decide, by decide, by decide⟩ ?_ ⟨by decide, by decide⟩ (by decide)
  exact fun _ => ⟨by decide, [0x66], [], by decide, by decide⟩

theorem closed_serves :
    Serves 16 closed 4 [] [] ((closed.round 16 4 [] [] 7).getD closed) := by
  refine serves_round 7 rfl ⟨by decide, by decide, by decide⟩ ?_ ⟨by decide, by decide⟩ (by decide)
  intro hdone
  exact absurd hdone (by decide)

theorem sessions_keep_files_apart_two_clients :
    Rejected asked 6 ((asked.round 16 6 fLine [] 7).getD asked) ∧
      ∃ name body, Stored closed 4 ((closed.round 16 4 [] [] 7).getD closed) name body := by
  have hclosed : Reaches 16 twoClients closed := afterFirst_reached.tail (.finish 4)
  refine ⟨?_, (sessions_keep_files_apart hclosed).2.2 4 [] _ closed_serves⟩
  exact (sessions_keep_files_apart asked_reached).2.1 6 fLine [] _ asked_serves (by decide)
    [0x66] [] 4 (by decide) (by decide) ⟨by decide, by decide⟩

end Example

end Csiebox.WriteServer
