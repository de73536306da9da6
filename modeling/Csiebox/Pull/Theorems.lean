import Csiebox.Pull.Outcome
import Csiebox.Session.Theorems

namespace Csiebox.Pull

open CBytes Program Prog Session

section Returns

variable {F G α : Type} [Posix F] [Posix G] {c d : Joint F G α}

-- The client's program has ended.
def Returned (c : Joint F G α) : Prop := ∃ x, c.left = ret x

theorem returned_stable : Stable (Step (F := F) (G := G) (α := α)) Returned :=
  stable_left (fun p _ => ∃ x, p = ret x) fun p s i h => by
    obtain ⟨x, rfl⟩ := h
    rfl

theorem halted_stable : Stable (Step (F := F) (G := G) (α := α)) fun c => ∃ e, c.left = halt e :=
  stable_left (fun p _ => ∃ e, p = halt e) fun p s i h => by
    obtain ⟨e, rfl⟩ := h
    rfl

omit [Posix F] [Posix G] in
theorem not_returned_of_waits (h : Waits c.left c.toLeft) : ¬Returned c := by
  obtain ⟨n, k, hrecv, -⟩ := h
  rintro ⟨x, hret⟩
  rw [hrecv] at hret
  simp at hret

theorem Deadlocks.not_returned (h : Deadlocks c) (hrun : Runs c d) : ¬Returned d := by
  obtain ⟨e, hquiet, hdead⟩ := h
  refine net_diamond.excludes (stable_stop hdead.stop) returned_stable ?_ hquiet.run rfl hrun
  rintro _ rfl
  exact not_returned_of_waits hdead.left

theorem Crashes.not_returned (h : Crashes c) (hrun : Runs c d) : ¬Returned d := by
  obtain ⟨e, hquiet, ⟨fault, hhalt⟩ | ⟨⟨fault, hhalt⟩, hwaits⟩⟩ := h
  · refine net_diamond.excludes halted_stable returned_stable ?_ hquiet.run ⟨fault, hhalt⟩ hrun
    rintro f ⟨_, hleft⟩ ⟨x, hret⟩
    rw [hleft] at hret
    simp at hret
  · have hstop := Net.stop (K := host) (J := host) (hwaits.stop host _)
      (show step host ⟨e.right, e.rightState, ⟨e.toRight, false⟩⟩ = none by rw [hhalt]; rfl)
    refine net_diamond.excludes (stable_stop hstop) returned_stable ?_ hquiet.run rfl hrun
    rintro _ rfl
    exact not_returned_of_waits hwaits

-- What holds behind some run from `c` holds behind all of them.
theorem not_returned_of_runs {start : Joint F G α} (hstart : Runs start c)
    (hnever : ∀ d, Runs c d → ¬Returned d) (hrun : Runs start d) : ¬Returned d := by
  obtain ⟨e, hce, hde⟩ := net_diamond.confluent hstart hrun
  exact fun hd => hnever e hce (returned_stable.reach hd hde)

-- A traversal that meets a file for the second time.
theorem traverse_not_returned (hF : LocksGranted F) (hG : Undisturbed G) {md5 : Bytes → Mem 16}
    {len connFd depth : Nat} {rest : Client → Code α} {header : Mem sizeofHeader} {client : Client}
    {ch : Host F} {sh : Host G} {dirName : Bytes} {hl : List HardLink}
    {k : List HardLink → Code Unit} {a b : Bytes} (hstale : ¬Fresh hl (visits sh.fs depth dirName))
    (hrun : Runs (pullState rest header client ch
      (serverTraverseFile md5 len connFd depth dirName hl >>= k) sh a b) d) : ¬Returned d := by
  rcases traverse_pulls hF hG depth dirName hl header client ch a b with
    hcrash | ⟨hdead, -⟩ | ⟨hfresh, -⟩
  · exact hcrash.not_returned hrun
  · exact hdead.not_returned hrun
  · exact absurd hfresh hstale

end Returns

section Start

variable {F G : Type} [Posix F] [Posix G]

-- Both ends behind a login to a home directory that is not empty, the client's
-- own one being empty; `k` is what the server does behind the OK header.
def pullStart (md5 : Bytes → Mem 16) (server : Server) (connFd : Nat) (home : Bytes) (client : Client)
    (ch : Host F) (sh : Host G) (k : Server → Code Unit) : Joint F G Client :=
  ⟨pull client, ch, sendHome md5 server connFd home >>= k, sh, [], [], [], []⟩

variable {α : Type} {md5 : Bytes → Mem 16} {server : Server} {connFd : Nat} {home : Bytes}
  {rest : Client → Code α} {k : Server → Code Unit}

-- Both ends at the top of their loops.
theorem sendHome_runs (md5 : Bytes → Mem 16) (server : Server) (connFd : Nat) (home : Bytes)
    (client : Client) (rest : Client → Code α) (ch : Host F) (sh : Host G)
    (k : Server → Code Unit) (a b : Bytes) :
    Runs ⟨pull client >>= rest, ch, sendHome md5 server connFd home >>= k, sh, [], [], a, b⟩
      (pullState rest ⟨zeros sizeofHeader, zeros_length _⟩ client ch
        (serverTraverseFile md5 (home.length + 1) connFd pathMax home (server.hl connFd) >>=
          fun hl => sendOk server connFd hl >>= k)
        { sh with notices := sh.notices ++ [.serverNotEmpty] } a b) := by
  have hclient := (exec_unroll (K := host) (s := ch) pullRound (zeros sizeofHeader, client)
    ⟨[], false⟩).bind rest
  have hserver := (exec_sys (β := UInt8) (ε := Fault) (K := host) (s := sh) (l := ⟨[], false⟩)
    (o := .notice .serverNotEmpty) rfl).bind fun _ => do
      let hl ← serverTraverseFile md5 (home.length + 1) connFd pathMax home (server.hl connFd)
      sendOk server connFd hl >>= k
  have hprog : sendHome md5 server connFd home >>= k = (do
      sys (.notice .serverNotEmpty)
      let hl ← serverTraverseFile md5 (home.length + 1) connFd pathMax home (server.hl connFd)
      sendOk server connFd hl >>= k) := by
    rw [sendHome]
    simp only [bind_assoc]
  rw [hprog]
  exact runs_silent hclient hserver a b

-- The OK header ends the client's loop.
theorem sendOk_runs (server : Server) (connFd : Nat) (hl : List HardLink) (header : Mem sizeofHeader)
    (client : Client) (rest : Client → Code α) (ch : Host F) (sh : Host G)
    (k : Server → Code Unit) (a b : Bytes) :
    ∃ b', Runs (pullState rest header client ch (sendOk server connFd hl >>= k) sh a b)
      ⟨rest client, ch, k { server with hl := Function.update server.hl connFd hl }, sh.tick, [], [],
        a, b'⟩ := by
  obtain ⟨last, hlast⟩ := exec_uninit (h := sh) (l := ⟨[], false⟩) sizeofHeader
  have hlength : (setStatus last.val statusOk).length = sizeofHeader := by
    rw [setStatus, List.length_set, last.property]
  have hstatus : headerStatus (setStatus last.val statusOk) = statusOk := by
    rw [headerStatus, setStatus, List.getD_eq_getElem?_getD, List.getElem?_set_self]
    · rfl
    · rw [last.property]
      decide
  have hsend : Exec host ⟨sendOk server connFd hl, sh, ⟨[], false⟩⟩ (setStatus last.val statusOk)
      ⟨ret { server with hl := Function.update server.hl connFd hl }, sh.tick, ⟨[], false⟩⟩ :=
    Exec.after hlast ((exec_sendMessage rfl).bind _)
  have hround : Talk host (pullRound (header.val, client)) ch [(setStatus last.val statusOk, [])]
      (ret (.inr client)) ch := by
    refine Talk.append (by simp) ((talk_recvMessage hlength header.property (by decide)).bind _) ?_
    simp only [ret_bind, hstatus]
    exact .refl _
  have hclient : Talk host (pulling header client rest) ch [(setStatus last.val statusOk, [])]
      (rest client) ch := (hround.bind _).bind rest
  have hruns := (meets_announcement _).runs hclient (.one (hsend.bind k)) a b
  rw [show said [(setStatus last.val statusOk, ([] : Bytes))] = [] from rfl, List.append_nil] at hruns
  exact ⟨_, hruns⟩

theorem pullStart_runs (md5 : Bytes → Mem 16) (server : Server) (connFd : Nat) (home : Bytes)
    (client : Client) (ch : Host F) (sh : Host G) (k : Server → Code Unit) :
    Runs (pullStart md5 server connFd home client ch sh k)
      (pullState ret ⟨zeros sizeofHeader, zeros_length _⟩ client ch
        (serverTraverseFile md5 (home.length + 1) connFd pathMax home (server.hl connFd) >>=
          fun hl => sendOk server connFd hl >>= k)
        { sh with notices := sh.notices ++ [.serverNotEmpty] } [] []) := by
  have hruns := sendHome_runs md5 server connFd home client ret ch sh k [] []
  rwa [show pull client >>= ret = pull client from bind_pure _] at hruns

end Start

section Instances

theorem treeFs_undisturbed : Undisturbed TreeFs where
  granted := treeFs_locksGranted
  unchanged f st path := by
    unfold afterSend
    split_ifs
    · cases Posix.fopenRead f path <;> rfl
    · rfl
  linkFits f path size target hread := by
    simp only [Posix.readlink] at hread
    split at hread
    · cases hread
      exact List.length_take_le _ _
    · simp at hread

-- The home directory of the user "u" with one file under the names a and b.
def homeWithLinks : Host TreeFs :=
  exampleHost { exampleFs [[⟨[0x73], validName_s⟩], [⟨[0x73], validName_s⟩, ⟨[0x75], validName_u⟩]]
      (fun i => if i < 2 then .dir else .file [0x78]) with
    entries := [([⟨[0x73], validName_s⟩], 0), ([⟨[0x73], validName_s⟩, ⟨[0x75], validName_u⟩], 1),
      ([⟨[0x73], validName_s⟩, ⟨[0x75], validName_u⟩, ⟨[0x61], validName_a⟩], 2),
      ([⟨[0x73], validName_s⟩, ⟨[0x75], validName_u⟩, ⟨[0x62], validName_b⟩], 2)]
    nextInode := 3 }

def exampleClient : Client where
  user := [0x75]
  passwd := [0x70]
  path := [slash]
  clientId := 5
  eventPath _ := []
  hl := []

def emptyClient : Host TreeFs := exampleHost (exampleFs [] fun _ => .dir)

theorem homeWithLinks_twice :
    ¬(inodes (visits homeWithLinks.fs pathMax exampleHome)).Nodup := by
  decide +kernel

end Instances

-- A server tree in which a file with several links is met under two names: the
-- client's loop never gets to its end.
theorem pull_of_hard_links_never_ends {F G : Type} [Posix F] [Posix G] (hF : LocksGranted F)
    (hG : Undisturbed G) (md5 : Bytes → Mem 16) (server : Server) (connFd : Nat) (home : Bytes)
    (client : Client) (ch : Host F) (sh : Host G) (k : Server → Code Unit)
    (htwice : ¬(inodes (visits sh.fs pathMax home)).Nodup) :
    ∀ c, Runs (pullStart md5 server connFd home client ch sh k) c → ¬Returned c := by
  intro c hrun
  have hstale : ¬Fresh (server.hl connFd) (visits sh.fs pathMax home) := fun h => htwice h.once
  have hstart := pullStart_runs md5 server connFd home client ch sh k
  exact not_returned_of_runs hstart (fun d => traverse_not_returned hF hG hstale) hrun

-- One file under the names a and b.
theorem pull_of_two_names_is_stuck :
    LocksGranted TreeFs ∧ Undisturbed TreeFs ∧
      ¬(inodes (visits homeWithLinks.fs pathMax exampleHome)).Nodup ∧
      ¬∃ c, Runs (pullStart md5OfX exampleServer 5 exampleHome exampleClient emptyClient
        homeWithLinks fun _ => ret ()) c ∧ Returned c := by
  refine ⟨treeFs_locksGranted, treeFs_undisturbed, homeWithLinks_twice, ?_⟩
  rintro ⟨c, hrun, hreturned⟩
  have hstale : ¬Fresh (exampleServer.hl 5) (visits homeWithLinks.fs pathMax exampleHome) :=
    fun h => homeWithLinks_twice h.once
  have hstart := pullStart_runs md5OfX exampleServer 5 exampleHome exampleClient emptyClient
    homeWithLinks fun _ => ret ()
  exact not_returned_of_runs hstart
    (fun d => traverse_not_returned treeFs_locksGranted treeFs_undisturbed hstale) hrun hreturned

theorem pull_of_hard_links_two_names :
    ¬∃ c, Runs (pullStart md5OfX exampleServer 5 exampleHome exampleClient emptyClient
      homeWithLinks fun _ => ret ()) c ∧ Returned c := by
  rintro ⟨c, hrun, hreturned⟩
  exact pull_of_hard_links_never_ends treeFs_locksGranted treeFs_undisturbed _ _ _ _ _ _ _ _
    homeWithLinks_twice c hrun hreturned

end Csiebox.Pull
