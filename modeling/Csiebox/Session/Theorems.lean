import Csiebox.Session.Lemmas
import Csiebox.TreeFs.Lemmas

namespace Csiebox.Session

open CBytes Program Prog

section Requests

variable {F G α : Type} [Posix F] [Posix G] {md5 : Bytes → Mem 16} {connFd : Nat}
  {server : Server} {home : Bytes}

-- One request between two waits for a header.
theorem request_runs (hwait : LocksGranted F) (hfree : NoOtherLocks G)
    (hin : LoggedIn server connFd home) {r : Request} {client : Host F} {peer : Host G}
    (hready : r.Ready home client.fs peer.fs) (hopens : r.Opens md5 home client.fs peer.fs)
    (k : Unit → Code α) (a b : Bytes) :
    ∃ client' peer' a' b', Runs (session md5 connFd server (r.run md5 >>= k) client peer a b)
      (session md5 connFd server (k ()) client' peer' a' b') := by
  cases r with
  | sync st path =>
      obtain ⟨hp, hsend, htarget⟩ := hready
      obtain ⟨hash, hd⟩ := hsend.digest
      obtain ⟨status, hs⟩ := htarget.status md5 hash
      by_cases hmore : status = statusMore
      · subst hmore
        rcases kind_of_more hs with hlnk | hreg
        · obtain ⟨target, hread, hfit⟩ := (hsend.link hlnk).2
          obtain ⟨b', hrun⟩ := sync_runs_link hin hp hd hs hlnk hread hfit k a b
          exact ⟨_, _, _, b', hrun⟩
        · obtain ⟨⟨handle, content⟩, hread⟩ := (hsend.file hreg).1
          obtain ⟨⟨fp, g⟩, hopen⟩ := hopens hreg hash hd hs
          obtain ⟨b', hrun⟩ := sync_runs_file hwait hfree hin hp hd hs hreg hread hopen k a b
          exact ⟨_, _, _, b', hrun⟩
      · obtain ⟨b', hrun⟩ := sync_runs_done hin hp hd hs hmore k a b
        exact ⟨_, _, _, b', hrun⟩
  | hardlink source target st =>
      obtain ⟨a', b', hrun⟩ := hardlink_runs client peer st hin hready.1 hready.2 k a b
      exact ⟨_, _, a', b', hrun⟩
  | remove path =>
      obtain ⟨a', b', hrun⟩ := remove_runs client peer hin hready k a b
      exact ⟨_, _, a', b', hrun⟩

-- A request whose target cannot be opened stops the server.
theorem request_crashes (hin : LoggedIn server connFd home) {r : Request} {client : Host F}
    {peer : Host G} (hready : r.Ready home client.fs peer.fs)
    (hopens : ¬r.Opens md5 home client.fs peer.fs) (k : Unit → Code α) (a b : Bytes) :
    ∃ c : Joint F G α, Runs (session md5 connFd server (r.run md5 >>= k) client peer a b) c ∧
      c.right = halt .nullDeref := by
  cases r with
  | sync st path =>
      simp only [Request.Opens, not_forall] at hopens
      obtain ⟨hreg, hash, hd, hs, hclosed⟩ := hopens
      have hopen : Posix.fopenWrite peer.fs (home ++ slash :: path.drop 2) = none := by
        cases hfopen : Posix.fopenWrite peer.fs (home ++ slash :: path.drop 2) with
        | none => rfl
        | some opened => exact absurd ⟨opened, hfopen⟩ hclosed
      obtain ⟨c, hrun, -, -, hhalt, -⟩ := sync_runs_halt hd
        (talk_serveMeta_null hin hready.1 (digestOf_length hd) hs hreg hopen) k a b
      exact ⟨c, hrun, hhalt⟩
  | hardlink source target st => exact absurd trivial hopens
  | remove path => exact absurd trivial hopens

theorem runRequests_append (rs qs : List Request) :
    runRequests md5 (rs ++ qs) = (runRequests md5 rs >>= fun _ => runRequests md5 qs) := by
  induction rs with
  | nil => rfl
  | cons r rs ih =>
      simp only [List.cons_append, runRequests, ih, bind_assoc]

end Requests

section Idle

variable {F G : Type} {md5 : Bytes → Mem 16} {connFd : Nat} {server : Server}

theorem Idle.eq {c : Joint F G Unit} (h : Idle md5 connFd server c) :
    c = session md5 connFd server (ret ()) c.leftState c.rightState c.leftSaid c.rightSaid := by
  obtain ⟨_, _, _, _, _, _, _, _⟩ := c
  obtain ⟨rfl, rfl, rfl, rfl⟩ := h
  rfl

theorem session_idle (client : Host F) (peer : Host G) (a b : Bytes) :
    Idle md5 connFd server (session md5 connFd server (ret ()) client peer a b) :=
  ⟨rfl, rfl, rfl, rfl⟩

-- The server waits for a header first.
theorem serve_eq (md5 : Bytes → Mem 16) (connFd : Nat) (server : Server) :
    ∃ k, unroll (serveRound md5 connFd) server = .recv sizeofHeader k :=
  ⟨_, rfl⟩

theorem serve_ne_halt (md5 : Bytes → Mem 16) (connFd : Nat) (server : Server) (e : Fault) :
    unroll (serveRound md5 connFd) server ≠ halt e := by
  obtain ⟨k, hk⟩ := serve_eq md5 connFd server
  rw [hk]
  simp

theorem Idle.stop [Posix F] [Posix G] {c : Joint F G Unit} (h : Idle md5 connFd server c)
    (d : Joint F G Unit) :
    ¬Step c d := by
  obtain ⟨k, hk⟩ := serve_eq md5 connFd server
  rintro (hd | hd)
  · simp [Net.leftStep, h.left, step] at hd
  · simp [Net.rightStep, h.right, hk, h.toRight, step, sizeofHeader] at hd

end Idle

section Lockstep

variable {F G : Type} [Posix F] [Posix G] (md5 : Bytes → Mem 16) (connFd : Nat) (server : Server)
  (home : Bytes) (client : Host F) (peer : Host G)

-- What the requests `done` make of the two ends, started in `client` and `peer`.
def Reaches (done : List Request) (c : Joint F G Unit) : Prop :=
  Runs (session md5 connFd server (runRequests md5 done) client peer [] []) c ∧
    Idle md5 connFd server c

-- The requests end, however the steps of the two ends interleave, with both
-- streams used up and the server at the next header.
def Completes (done : List Request) : Prop :=
  ∃ c, Settles (Step (F := F) (G := G))
    (session md5 connFd server (runRequests md5 done) client peer [] []) c ∧
      Idle md5 connFd server c

variable {md5 connFd server home client peer}

theorem Completes.reaches {done : List Request}
    (h : Completes md5 connFd server client peer done) :
    ∃ c, Reaches md5 connFd server client peer done c := by
  obtain ⟨c, hsettles, hidle⟩ := h
  obtain ⟨n, hn⟩ := hsettles.run
  exact ⟨c, hn.reflTransGen, hidle⟩

theorem Reaches.completes {done : List Request} {c : Joint F G Unit}
    (h : Reaches md5 connFd server client peer done c) :
    Completes md5 connFd server client peer done :=
  ⟨c, ⟨Iter.of_reflTransGen h.1, h.2.stop⟩, h.2⟩

theorem Reaches.snoc {done : List Request} {c : Joint F G Unit}
    (h : Reaches md5 connFd server client peer done c) (r : Request) :
    Runs (session md5 connFd server (runRequests md5 (done ++ [r])) client peer [] [])
      (session md5 connFd server (r.run md5 >>= fun _ => ret ()) c.leftState c.rightState c.leftSaid
        c.rightSaid) := by
  have hrun := h.1
  rw [h.2.eq] at hrun
  rw [runRequests_append]
  exact runs_bind hrun fun _ => runRequests md5 [r]

theorem Reaches.start : Reaches md5 connFd server client peer []
    (session md5 connFd server (ret ()) client peer [] []) :=
  ⟨.refl, session_idle client peer [] []⟩

theorem Reaches.eq_start {c : Joint F G Unit} (h : Reaches md5 connFd server client peer [] c) :
    c = session md5 connFd server (ret ()) client peer [] [] := by
  rcases h.1.cases_head with heq | ⟨d, hstep, -⟩
  · exact heq.symm
  · exact absurd hstep ((session_idle client peer [] []).stop d)

theorem Reaches.not_completes {done : List Request} {c : Joint F G Unit}
    (h : Reaches md5 connFd server client peer done c) (hin : LoggedIn server connFd home)
    {r : Request} (hready : r.Ready home c.leftState.fs c.rightState.fs)
    (hopens : ¬r.Opens md5 home c.leftState.fs c.rightState.fs) :
    ¬Completes md5 connFd server client peer (done ++ [r]) := by
  obtain ⟨crash, hcrash, hhalt⟩ := request_crashes hin hready hopens (fun _ => ret ()) c.leftSaid
    c.rightSaid
  rintro ⟨d, hsettles, hidle⟩
  obtain ⟨n, hn⟩ := (hsettles.reach net_diamond ((h.snoc r).trans hcrash)).run
  have hend := runs_right_halt hn.reflTransGen hhalt
  exact serve_ne_halt md5 connFd server _ (hidle.right.symm.trans hend)

end Lockstep

section Instances

-- The server of the user "u" under the path "s", logged in on descriptor 5.
def exampleServer : Server where
  path := [0x73]
  accountPath := []
  nullUser := none
  client := Function.update (fun _ => none) 5 (some { account := 0x75 :: zeros 47, connFd := 5 })
  clientNum := 1
  masterset := fun _ => true
  hl := fun _ => []

def exampleHome : Bytes := [0x73, slash, 0x75]

theorem exampleServer_loggedIn : LoggedIn exampleServer 5 exampleHome where
  entry := ⟨{ account := 0x75 :: zeros 47, connFd := 5 }, rfl, rfl⟩
  fits := by decide

-- The MD5 digest of "x", the one content of the instances.
def md5OfX (_ : Bytes) : Mem 16 :=
  ⟨[0x9d, 0xd4, 0xe4, 0x61, 0x26, 0x8c, 0x80, 0x34, 0xf5, 0xc8, 0x56, 0x4e, 0x15, 0x5c, 0x67, 0xa6],
    rfl⟩

-- A client with the file a/b, and a server whose home directory is empty.
def clientWithFile : Host TreeFs :=
  exampleHost (exampleFs
    [[⟨[0x61], validName_a⟩], [⟨[0x61], validName_a⟩, ⟨[0x62], validName_b⟩]] fun i =>
      if i = 0 then .dir else .file [0x78])

def emptyHome : Host TreeFs := exampleHost (exampleFs
    [[⟨[0x73], validName_s⟩], [⟨[0x73], validName_s⟩, ⟨[0x75], validName_u⟩]] fun _ => .dir)

def pathOfFile : Bytes := [dot, slash, 0x61, slash, 0x62]

def statOfFile : Mem 144 := TreeFs.mkStat 1 1 { kind := .file [0x78], atime := 0, mtime := 0 }

theorem treeFs_locksGranted : LocksGranted TreeFs := fun _ _ _ => rfl

theorem treeFs_noOtherLocks : NoOtherLocks TreeFs := fun _ _ _ => rfl

theorem statOfFile_kind :
    sIsLnk (stMode statOfFile.val) = false ∧ sIsReg (stMode statOfFile.val) = true := by
  decide +kernel

theorem clientWithFile_kind :
    (clientWithFile.fs.resolve (pathOfFile.drop 2)).bind clientWithFile.fs.kind =
      some (.file [0x78]) := by
  decide +kernel

theorem emptyHome_resolve :
    emptyHome.fs.resolve (exampleHome ++ slash :: pathOfFile.drop 2) = none := by
  decide +kernel

theorem emptyHome_reads :
    Posix.reads emptyHome.fs (exampleHome ++ slash :: pathOfFile.drop 2) = none := by
  simp [Posix.reads, emptyHome_resolve]

-- The home directory with an empty directory a.
def homeWithParent : Host TreeFs := exampleHost (exampleFs
    [[⟨[0x73], validName_s⟩], [⟨[0x73], validName_s⟩, ⟨[0x75], validName_u⟩],
      [⟨[0x73], validName_s⟩, ⟨[0x75], validName_u⟩, ⟨[0x61], validName_a⟩]] fun _ => .dir)

theorem homeWithParent_reads :
    Posix.reads homeWithParent.fs (exampleHome ++ slash :: pathOfFile.drop 2) = none := by
  have hnone : (Posix.reads homeWithParent.fs (exampleHome ++ slash :: pathOfFile.drop 2)).isNone := by
    decide +kernel
  exact Option.isNone_iff_eq_none.mp hnone

-- The file a/b goes to the server, gets a second name c there, and loses the first one.
def updateOfFile : List Request :=
  [.sync statOfFile pathOfFile, .hardlink (pathOfFile.drop 2) [0x63] statOfFile, .remove pathOfFile]

theorem fileRequest_ready {g : TreeFs}
    (hnone : Posix.reads g (exampleHome ++ slash :: pathOfFile.drop 2) = none) :
    (Request.sync statOfFile pathOfFile).Ready exampleHome clientWithFile.fs g := by
  refine ⟨⟨by decide +kernel, by decide⟩, ⟨?_, fun _ => ⟨⟨(0, [0x78]), by decide +kernel⟩, ?_⟩⟩, ?_⟩
  · simp [statOfFile_kind.1]
  · intro rs hrs
    rw [TreeFs.reads_file clientWithFile_kind] at hrs
    cases hrs
    exact TreeFs.failed_not_mem_file
  · intro _ rs hrs
    simp [hnone] at hrs

theorem fileRequest_opens :
    (Request.sync statOfFile pathOfFile).Opens md5OfX exampleHome clientWithFile.fs
      homeWithParent.fs := by
  intro _ hash _ _
  have hopens : (Posix.fopenWrite homeWithParent.fs
      (exampleHome ++ slash :: pathOfFile.drop 2)).isSome := by
    decide +kernel
  exact Option.isSome_iff_exists.mp hopens

-- The parent directory of a/b is missing on the server, and `fopen` fails.
theorem fileRequest_not_opens :
    ¬(Request.sync statOfFile pathOfFile).Opens md5OfX exampleHome clientWithFile.fs
      emptyHome.fs := by
  intro hopens
  have hdigest : digestOf md5OfX clientWithFile.fs statOfFile.val (pathOfFile.drop 2) =
      some (md5OfX [0x78]).val := by
    simp only [digestOf, statOfFile_kind, TreeFs.reads_file clientWithFile_kind,
      TreeFs.hashedBytes_file]
    rfl
  have hstatus : statusOf md5OfX emptyHome.fs (exampleHome ++ slash :: pathOfFile.drop 2)
      statOfFile.val (md5OfX [0x78]).val = some statusMore := by
    have hne : (md5OfX [0x78]).val ≠ zeros 16 := by decide
    simp [statusOf, statOfFile_kind, not_dir_of_reg statOfFile_kind.2, emptyHome_reads, hne]
  obtain ⟨opened, hopen⟩ := hopens statOfFile_kind.2 _ hdigest hstatus
  simp [Posix.fopenWrite, emptyHome_resolve] at hopen

end Instances

-- The requests stay in lockstep exactly as long as the server can open the
-- regular files it asks for.
theorem requests_complete_iff {F G : Type} [Posix F] [Posix G] {md5 : Bytes → Mem 16}
    {connFd : Nat} {server : Server} {home : Bytes} {client : Host F} {peer : Host G}
    (hwait : LocksGranted F) (hfree : NoOtherLocks G) (hin : LoggedIn server connFd home)
    (rs : List Request)
    (hready : ∀ done r rest, rs = done ++ r :: rest →
      ∀ c, Reaches md5 connFd server client peer done c →
        r.Ready home c.leftState.fs c.rightState.fs) :
    (∀ done rest, rs = done ++ rest → Completes md5 connFd server client peer done) ↔
      ∀ done r rest, rs = done ++ r :: rest → ∀ c, Reaches md5 connFd server client peer done c →
        r.Opens md5 home c.leftState.fs c.rightState.fs := by
  constructor
  · intro hall done r rest hrs c hreach
    by_contra hopens
    exact hreach.not_completes hin (hready done r rest hrs c hreach) hopens
      (hall (done ++ [r]) rest (by simp [hrs]))
  · intro hopens done
    induction done using List.reverseRecOn with
    | nil =>
        intro rest _
        exact Reaches.start.completes
    | append_singleton done r ih =>
        intro rest hrs
        have hsplit : rs = done ++ r :: rest := by simp [hrs]
        obtain ⟨c, hreach⟩ := (ih (r :: rest) hsplit).reaches
        obtain ⟨client', peer', a', b', hrun⟩ := request_runs hwait hfree hin
          (hready done r rest hsplit c hreach) (hopens done r rest hsplit c hreach)
          (fun _ => ret ()) c.leftSaid c.rightSaid
        exact Reaches.completes ⟨(hreach.snoc r).trans hrun, session_idle client' peer' a' b'⟩

-- One request for a/b, whose parent directory is missing on the server.
theorem file_without_parent_breaks_lockstep :
    LocksGranted TreeFs ∧ NoOtherLocks TreeFs ∧ LoggedIn exampleServer 5 exampleHome ∧
      (Request.sync statOfFile pathOfFile).Ready exampleHome clientWithFile.fs emptyHome.fs ∧
      ¬Completes md5OfX 5 exampleServer clientWithFile emptyHome [.sync statOfFile pathOfFile] :=
  ⟨treeFs_locksGranted, treeFs_noOtherLocks, exampleServer_loggedIn, fileRequest_ready emptyHome_reads,
    Reaches.start.not_completes exampleServer_loggedIn (fileRequest_ready emptyHome_reads)
      fileRequest_not_opens⟩

theorem requests_complete_iff_update :
    updateOfFile.length = 3 ∧ ∀ done rest, updateOfFile = done ++ rest →
      Completes md5OfX 5 exampleServer clientWithFile homeWithParent done := by
  refine ⟨rfl, ?_⟩
  have hpath : PathFits exampleHome (pathOfFile.drop 2) := ⟨by decide +kernel, by decide⟩
  have hname : PathFits exampleHome [0x63] := ⟨by decide +kernel, by decide⟩
  refine (requests_complete_iff treeFs_locksGranted treeFs_noOtherLocks exampleServer_loggedIn _ ?_).mpr ?_
  · intro done r rest hrs c hreach
    match done, hrs with
    | [], hrs =>
        obtain ⟨rfl, -⟩ := List.cons.inj hrs
        rw [hreach.eq_start]
        exact fileRequest_ready homeWithParent_reads
    | [_], hrs =>
        obtain ⟨rfl, -⟩ := List.cons.inj (List.cons.inj hrs).2
        exact ⟨hpath, hname⟩
    | [_, _], hrs =>
        obtain ⟨rfl, -⟩ := List.cons.inj (List.cons.inj (List.cons.inj hrs).2).2
        exact hpath
    | _ :: _ :: _ :: _, hrs => simp [updateOfFile] at hrs
  · intro done r rest hrs c hreach
    match done, hrs with
    | [], hrs =>
        obtain ⟨rfl, -⟩ := List.cons.inj hrs
        rw [hreach.eq_start]
        exact fileRequest_opens
    | [_], hrs =>
        obtain ⟨rfl, -⟩ := List.cons.inj (List.cons.inj hrs).2
        exact trivial
    | [_, _], hrs =>
        obtain ⟨rfl, -⟩ := List.cons.inj (List.cons.inj (List.cons.inj hrs).2).2
        exact trivial
    | _ :: _ :: _ :: _, hrs => simp [updateOfFile] at hrs

end Csiebox.Session
