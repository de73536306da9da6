import Csiebox.EvenServer.Descriptors

namespace Csiebox.EvenServer

open CBytes WriteServer State

section Turns

variable {maxfd fd fresh ret : Nat} {m : Machine} {s t s' : State} {req : Request} {got behind : Bytes}

-- The answers of a turn in which every call succeeds.
def granted (got behind : Bytes) (fresh : Nat) : Answers :=
  { read := some (got, behind), fresh := some fresh, locked := true, pipe := false, file := [] }

theorem granted_result (hread : handleRead (m.state.requestP fd) got behind = some (ret, req)) :
    handleReadResult (((granted got behind fresh).heard m.state fd).requestP fd)
      (granted got behind fresh).read = some ((ret : Int), req) := by
  have hresult : handleReadResult (m.state.requestP fd) (some (got, behind)) = some ((ret : Int), req) := by
    rw [handleReadResult, hread]
    rfl
  exact hresult

-- The end of the inner loop's body, in both models.
theorem writeBody_granted (x : Nat)
    (hround : (if ret = 0 then
        some { ((({ t with fdTable := Function.update t.fdTable fd 0 }).close x).drop fd) with point := .top }
      else some { t.writeFile x req.buf with point := .serving fd }) = some s') :
    ∃ fileFd, writeBody m t fd x ret req = m.go s' fileFd := by
  rw [writeBody]
  by_cases hret : ret = 0
  · rw [if_pos hret] at hround
    cases hround
    exact ⟨none, if_pos (by exact_mod_cast hret)⟩
  · rw [if_neg hret] at hround
    cases hround
    exact ⟨some x, if_neg (by exact_mod_cast hret)⟩

-- The turn of the model in which every call succeeds is a turn of the machine.
theorem writeTurn_granted (hread : handleRead (m.state.requestP fd) got behind = some (ret, req))
    (hnamed : req.filename ≠ none) (hround : m.state.round maxfd fd got behind fresh = some s') :
    ∃ fileFd, writeTurn maxfd fd m (granted got behind fresh) = m.go s' fileFd := by
  have hcompared : ((granted got behind fresh).heard m.state fd).setRequest fd req =
      m.state.compared fd got req := rfl
  have hopen : (granted got behind fresh).open req = some fresh := if_neg hnamed
  have hpos : ¬(ret : Int) < 0 := by omega
  rw [writeTurn, granted_result hread]
  dsimp only
  rw [hcompared, if_neg (fun h => hnamed h.1)]
  cases htaken : (m.state.compared fd got req).taken maxfd fd with
  | true =>
      rw [round_of_taken fresh hread htaken] at hround
      cases hround
      exact ⟨none, rfl⟩
  | false =>
      rw [round_of_free fresh hread htaken] at hround
      dsimp only at hround
      rw [if_neg Bool.false_ne_true, if_neg hpos]
      by_cases hclosed : (m.state.compared fd got req).fdTable fd = 0
      · rw [if_pos hclosed, openToWrite, if_neg hnamed, hopen]
        rw [if_pos hclosed] at hround
        have htable : (((m.state.compared fd got req).openFile fd fresh).reply fd acceptHeader).fdTable fd =
            fresh := Function.update_self ..
        rw [htable] at hround
        exact writeBody_granted fresh hround
      · rw [if_neg hclosed]
        rw [if_neg hclosed] at hround
        exact writeBody_granted _ hround

-- Behind a first read that brings the header the request has a name.
theorem request_named (hslot : Waiting s fd ∨ ∃ name content, Writing s fd name content)
    (hfirst : FirstRead s fd got behind) (hread : handleRead (s.requestP fd) got behind = some (ret, req)) :
    req.filename ≠ none := by
  rcases hslot with h | ⟨name, content, h⟩
  · obtain ⟨hgot, name, rest, hsplit, -⟩ := hfirst h.header
    rw [handleRead_first hgot h.header hsplit] at hread
    cases hread
    simp
  · by_cases hgot : got = []
    · rw [hgot, handleRead_nil] at hread
      cases hread
      rw [h.named]
      simp
    · rw [handleRead_next behind hgot h.header] at hread
      cases hread
      exact h.named.trans_ne (by simp)

end Turns

section Runs

variable {maxfd : Nat} {s : State} {files : Bytes → Option Bytes} {peers : Nat → Peer}

-- The turns that neither stop the server nor leave a file open.
def Smooth (maxfd : Nat) (m : Machine) (fd : Nat) (a : Answers) : Prop :=
  Harmless .writeServer maxfd m fd a ∧ NoFirstFailure m fd a

theorem granted_smooth {m : Machine} {fd fresh : Nat} {got behind : Bytes}
    (hfirst : FirstRead m.state fd got behind) : Smooth maxfd m fd (granted got behind fresh) := by
  have hcomplete : FirstComplete m fd (granted got behind fresh) := by
    intro hheader
    obtain ⟨hgot, name, rest, hsplit, -⟩ := hfirst hheader
    exact ⟨got, behind, name, rest, rfl, hgot, hsplit⟩
  exact ⟨⟨rfl, .inl hcomplete⟩, hcomplete, fun h => by cases h⟩

theorem granted_answerable {m : Machine} {fd fresh : Nat} {got behind : Bytes}
    (hreads : Reads (m.state.peers fd) got) (hfree : Free maxfd m.state fresh) :
    Answerable maxfd m.state fd (granted got behind fresh) := by
  refine .of_read rfl hreads rfl ?_
  rintro x ⟨⟩
  exact hfree

-- A run of the model whose calls succeed is a run of the machine.
theorem reaches_of_rounds (h : WriteServer.Reaches maxfd (State.start files peers) s) :
    ∃ m, Reaches .writeServer maxfd (Smooth maxfd) (Machine.start files peers) m ∧
      m.running = true ∧ m.state = s := by
  induction h with
  | refl => exact ⟨Machine.start files peers, .refl, rfl, rfl⟩
  | tail hreach hstep ih =>
      obtain ⟨m, hm, hruns, rfl⟩ := ih
      cases hstep with
      | send fd bs hopen => exact ⟨_, hm.tail (.send fd bs hopen), hruns, rfl⟩
      | finish fd => exact ⟨_, hm.tail (.finish fd), hruns, rfl⟩
      | accept connFd header htop hfree =>
        exact ⟨_, hm.tail (.accept connFd header hruns htop hfree), hruns, rfl⟩
      | pick connFd htop hready hrange =>
        exact ⟨_, hm.tail (.pick connFd hruns htop hready hrange), hruns, rfl⟩
      | suspend => exact ⟨_, hm.tail (.suspend hruns), hruns, rfl⟩
      | @serve _ connFd got behind hserves =>
          obtain ⟨hpoint, hreads, hfirst, fresh, hfree, hround⟩ := hserves
          have hinv := inv_reachable hreach
          obtain ⟨h4, hmem⟩ := hinv.point connFd hpoint
          obtain ⟨⟨ret, req⟩, hread⟩ : ∃ r, handleRead (m.state.requestP connFd) got behind = some r := by
            cases hread : handleRead (m.state.requestP connFd) got behind with
            | some r => exact ⟨r, rfl⟩
            | none =>
                rw [State.round] at hround
                exact absurd ((congrArg (Option.bind · _) hread).symm.trans hround) (by simp)
          have hnamed : req.filename ≠ none := by
            cases hinv.slot connFd h4 with
            | idle h =>
                rw [h.out] at hmem
                cases hmem
            | waiting h => exact request_named (.inl h) hfirst hread
            | writing name content h => exact request_named (.inr ⟨name, content, h⟩) hfirst hread
          obtain ⟨fileFd, hturn⟩ := writeTurn_granted hread hnamed hround
          have hstep : Step .writeServer maxfd (Smooth maxfd) m
              (writeTurn maxfd connFd m (granted got behind fresh)) :=
            .turn hruns hpoint (granted_answerable hreads hfree) (granted_smooth hfirst)
          rw [hturn] at hstep
          exact ⟨_, hm.tail hstep, hruns, rfl⟩

end Runs

end Csiebox.EvenServer
