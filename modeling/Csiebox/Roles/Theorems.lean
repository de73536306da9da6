import Csiebox.Roles

namespace Csiebox.Roles

open CBytes Program Prog Session Pull Push

section Opening

variable {F G α : Type} [Posix F] [Posix G] {md5 : Bytes → Mem 16} {connFd : Nat} {server : Server}
  {client : Client} {home : Bytes} {ch : Host F} {sh : Host G} {l : Link UInt8}

-- What the client does once it has counted the entries of its directory.
def clientRole (md5 : Bytes → Mem 16) (num : Nat) (client : Client) : Code Client :=
  if num ≤ 2 then pullAll client else clientTraverseFile md5 pathMax dotSlash client

-- What the server does once it has counted those of the home directory.
def serverRole (md5 : Bytes → Mem 16) (server : Server) (connFd : Nat) (home : Bytes) (num : Nat) :
    Code Server :=
  if 2 < num then sendHome md5 server connFd home else ret server

theorem exec_initialSync (md5 : Bytes → Mem 16) (ch : Host F) {entries : List Dirent}
    (hopen : Posix.opendir (Posix.chdir ch.fs client.path).2 dotSlash = some entries)
    (finish : Client → Code α) :
    Exec host ⟨initialSync md5 client >>= finish, ch, l⟩ []
      ⟨clientRole md5 (min 3 entries.length) { client with eventPath := fun _ => [], hl := [] } >>=
          fun client => do
            sys (.notice .startWatch)
            finish client,
        { ch with
          fs := (Posix.chdir ch.fs client.path).2
          notices := ch.notices ++ [.num (min 3 entries.length)] }, l⟩ := by
  have hsync : Exec host ⟨initialSync md5 client, ch, l⟩ []
      ⟨clientRole md5 (min 3 entries.length) { client with eventPath := fun _ => [], hl := [] } >>=
          fun client => do
            sys (.notice .startWatch)
            ret client,
        { ch with
          fs := (Posix.chdir ch.fs client.path).2
          notices := ch.notices ++ [.num (min 3 entries.length)] }, l⟩ := by
    refine Exec.after (exec_sys rfl) (Exec.after (exec_sys rfl) ?_)
    simp only [hopen]
    exact Exec.after (exec_sys rfl) (.refl _)
  have hall := hsync.bind finish
  simp only [bind_assoc, ret_bind] at hall
  exact hall

theorem exec_openHome (md5 : Bytes → Mem 16) (sh : Host G) (hin : LoggedIn server connFd home)
    {entries : List Dirent}
    (hopen : Posix.opendir sh.fs home = some entries) (k : Server → Code Unit) :
    Exec host ⟨openHome md5 server connFd >>= k, sh, l⟩ []
      ⟨serverRole md5 server connFd home entries.length >>= fun server =>
        k { server with clientNum := server.clientNum + 1 }, sh, l⟩ := by
  have hhome : Exec host ⟨openHome md5 server connFd, sh, l⟩ []
      ⟨serverRole md5 server connFd home entries.length >>= fun server =>
        ret { server with clientNum := server.clientNum + 1 }, sh, l⟩ := by
    rw [openHome, getUserHomedir_eq hin, ret_bind]
    refine Exec.after (exec_sys rfl) ?_
    simp only [hopen]
    exact .refl _
  have hall := hhome.bind k
  simp only [bind_assoc, ret_bind] at hall
  exact hall

end Opening

section Cases

variable {F G : Type} [Posix F] [Posix G] {md5 : Bytes → Mem 16} {connFd : Nat} {server : Server}
  {home : Bytes} {ch : Host F} {sh : Host G} {client : Client} {k : Server → Code Unit}
  {c : Joint F G (Option Client)}

def finish (client : Client) : Code (Option Client) := do
  sys (.notice .startWatch)
  ret (some client)

-- The way of the server to its dispatch.
def Serves (G : Type) [Posix G] (md5 : Bytes → Mem 16) (connFd : Nat) (k : Server → Code Unit) : Prop :=
  ∀ (server : Server) (g : Host G), Exec host ⟨k server, g, ⟨[], false⟩⟩ []
    ⟨unroll (serveRound md5 connFd) { server with clientNum := server.clientNum + 1 }, g,
      ⟨[], false⟩⟩

theorem exec_finish (client : Client) (h : Host F) (l : Link UInt8) :
    Exec host ⟨finish client, h, l⟩ []
      ⟨ret (some client), { h with notices := h.notices ++ [.startWatch] }, l⟩ :=
  Exec.after (exec_sys rfl) (.refl _)

omit [Posix F] [Posix G] in
theorem agree_of_left (h : ∀ n, .num n ∈ c.leftState.notices → n ≤ 2) : Agree c := by
  rintro ⟨⟨n, hn, hmem⟩, -⟩
  have hle := h n hmem
  omega

omit [Posix F] [Posix G] in
theorem agree_of_right (h : .serverNotEmpty ∉ c.rightState.notices) : Agree c :=
  fun hboth => h hboth.2

-- Both ends are where the initial synchronisation ends.
theorem sound_of_finished {a b : Bytes} (hagree : Agree (⟨ret (some client), ch,
      unroll (serveRound md5 connFd) server, sh, [], [], a, b⟩ : Joint F G (Option Client))) :
    Sound (⟨ret (some client), ch, unroll (serveRound md5 connFd) server, sh, [], [], a, b⟩ :
      Joint F G (Option Client)) := by
  refine sound_of_stop (Net.stop rfl ((serve_waits md5 connFd server).stop host _)) hagree ?_
  rintro ⟨⟨n, k, hrecv, -⟩, -⟩
  simp at hrecv

omit [Posix F] [Posix G] in
theorem not_deadlock_of_halt (h : (∃ e, c.left = halt e) ∨ ∃ e, c.right = halt e) : ¬c.Deadlock := by
  rintro ⟨⟨n, j, hleft, -⟩, ⟨m, i, hright, -⟩⟩
  rcases h with ⟨e, hhalt⟩ | ⟨e, hhalt⟩
  · rw [hleft] at hhalt
    simp at hhalt
  · rw [hright] at hhalt
    simp at hhalt

-- The client pushes its tree to a server that dispatches requests.
theorem push_sound (hF : Undisturbed F) (hfree : NoOtherLocks G) (hin : LoggedIn server connFd home)
    (hk : Serves G md5 connFd k) (hl : client.hl = []) (hs : sh.notices = []) (a b : Bytes) :
    Sound (⟨clientTraverseFile md5 pathMax dotSlash client >>= finish, ch, k server, sh, [], [], a, b⟩ :
      Joint F G (Option Client)) := by
  have hserve := runs_silent (K := host) (.refl ⟨clientTraverseFile md5 pathMax dotSlash client >>=
    finish, ch, ⟨[], false⟩⟩) (hk server sh) a b
  have hin' : LoggedIn { server with clientNum := server.clientNum + 1 } connFd home :=
    ⟨hin.entry, hin.fits⟩
  have hlinks : LinksFit home client := by
    intro h hmem
    rw [hl] at hmem
    simp at hmem
  refine Sound.of_run ?_ hserve
  have hpushes : Pushes md5 connFd _ home _ finish :=
    clientTraverse_pushes hF hfree hin' pathMax dotSlash client finish ch sh a b (by decide +kernel) hlinks
  rcases hpushes with ⟨d, hquiet, hstop, hhalt⟩ | ⟨client', ch', sh', a', b', -, hquiet⟩
  · refine Sound.of_run (sound_of_stop hstop ?_ (not_deadlock_of_halt hhalt)) hquiet.run
    refine agree_of_right ?_
    rw [hquiet.right, session, hs]
    simp
  · have hend := runs_silent (K := host) (J := host) (exec_finish client' ch' ⟨[], false⟩)
      (.refl ⟨unroll (serveRound md5 connFd) { server with clientNum := server.clientNum + 1 }, sh',
        ⟨[], false⟩⟩) a' b'
    refine Sound.of_run (sound_of_finished (agree_of_right ?_)) (hquiet.run.trans hend)
    rw [show sh'.notices = [] from hquiet.right.trans hs]
    simp

-- What the client does with the pull behind it.
def pulled (client : Client) : Code (Option Client) := do
  sys (.notice .endOfServerPull)
  finish client

theorem pullAll_finish (client : Client) : pullAll client >>= finish = pull client >>= pulled := by
  rw [pullAll]
  simp only [bind_assoc, ret_bind]
  rfl

-- The server sends its tree to a client in the pull loop.
theorem pull_sound (hF : LocksGranted F) (hG : Undisturbed G) (hk : Serves G md5 connFd k)
    (hfresh : Fresh (server.hl connFd) (visits sh.fs pathMax home))
    (hc : ∀ n, .num n ∈ ch.notices → n ≤ 2) (a b : Bytes) :
    Sound (⟨pullAll client >>= finish, ch, sendHome md5 server connFd home >>= k, sh, [], [], a, b⟩ :
      Joint F G (Option Client)) := by
  rw [pullAll_finish]
  refine Sound.of_run ?_ (sendHome_runs md5 server connFd home client pulled ch sh k a b)
  have hkeep : ∀ {d : Joint F G (Option Client)}, d.leftState.notices = ch.notices → Agree d := by
    intro d hd
    refine agree_of_left fun n hmem => hc n ?_
    rwa [hd] at hmem
  have hpulls : Pulls (home.length + 1) pulled _ (pullState pulled ⟨zeros sizeofHeader,
      zeros_length _⟩ client ch (serverTraverseFile md5 (home.length + 1) connFd pathMax home
        (server.hl connFd) >>= fun hl => sendOk server connFd hl >>= k)
      { sh with notices := sh.notices ++ [.serverNotEmpty] } a b) (server.hl connFd)
      (visits sh.fs pathMax home) (fun hl => sendOk server connFd hl >>= k) :=
    traverse_pulls hF hG pathMax home _ _ client ch a b
  rcases hpulls with
    ⟨d, hquiet, hhalt | ⟨hhalt, hwaits⟩⟩ | ⟨-, hstale⟩ | ⟨-, header, client', ch', a', b', hquiet⟩
  · refine Sound.of_run (sound_of_halt hhalt ?_) hquiet.run
    rintro ⟨n, hn, hmem⟩
    rw [hquiet.left] at hmem
    have hle := hc n hmem
    omega
  · obtain ⟨e, hright⟩ := hhalt
    refine Sound.of_run (sound_of_stop ?_ (hkeep hquiet.left) (not_deadlock_of_halt (.inr ⟨e, hright⟩)))
      hquiet.run
    exact Net.stop (hwaits.stop host _) (step_halt hright _ _)
  · exact absurd hfresh hstale
  · obtain ⟨b'', hok⟩ := sendOk_runs server connFd (server.hl connFd ++ linksOf (home.length + 1)
      (visits sh.fs pathMax home)) header client' pulled ch'
      { sh with notices := sh.notices ++ [.serverNotEmpty] } k a' b'
    have hpulled : Exec host ⟨pulled client', ch', ⟨[], false⟩⟩ [] ⟨ret (some client'),
        { ch' with notices := ch'.notices ++ [.endOfServerPull] ++ [.startWatch] }, ⟨[], false⟩⟩ :=
      Exec.after (exec_sys rfl) (exec_finish _ _ _)
    refine Sound.of_run ?_ ((hquiet.run.trans hok).trans (runs_silent hpulled (hk _ _) a' b''))
    refine sound_of_finished (agree_of_left fun n hmem => ?_)
    simp only [List.append_assoc, List.mem_append, List.mem_cons, List.not_mem_nil, or_false,
      reduceCtorEq] at hmem
    exact hc n (hquiet.left ▸ hmem)

-- Both directories are empty: each end waits for the other one.
theorem pull_deadlocks (server : Server) (client : Client) (ch : Host F) (sh : Host G)
    (hk : Serves G md5 connFd k) (a b : Bytes) :
    ∃ c : Joint F G (Option Client),
      Runs ⟨pullAll client >>= finish, ch, k server, sh, [], [], a, b⟩ c ∧ c.Deadlock := by
  rw [pullAll_finish]
  have hclient := (exec_unroll (K := host) (s := ch) pullRound (zeros sizeofHeader, client)
    ⟨[], false⟩).bind pulled
  exact ⟨_, runs_silent hclient (hk server sh) a b,
    pulling_waits ⟨zeros sizeofHeader, zeros_length _⟩ client pulled, serve_waits md5 connFd _⟩

-- Both are not: each end sends its own tree.
theorem push_disagrees (md5 : Bytes → Mem 16) (connFd : Nat) (server : Server) (home : Bytes)
    (sh : Host G) (k : Server → Code Unit) {n : Nat} (hn : 2 < n) (hc : .num n ∈ ch.notices)
    (p : Code (Option Client)) (a b : Bytes) :
    ∃ c : Joint F G (Option Client),
      Runs ⟨p, ch, sendHome md5 server connFd home >>= k, sh, [], [], a, b⟩ c ∧ ¬Agree c := by
  have hnotice := (exec_sys (β := UInt8) (ε := Fault) (K := host) (s := sh) (l := ⟨[], false⟩)
    (o := .notice .serverNotEmpty) rfl)
  have hserver := (hnotice.bind fun _ => do
    let hl ← serverTraverseFile md5 (home.length + 1) connFd pathMax home (server.hl connFd)
    sendOk server connFd hl).bind k
  refine ⟨_, runs_silent (.refl ⟨p, ch, ⟨[], false⟩⟩) hserver a b, fun hagree => ?_⟩
  exact hagree ⟨⟨n, hn, hc⟩, by simp [ServerTraverses]⟩

-- A login that the server accepts, and what the two ends find in their directories.
structure LogsIn (md5 : Bytes → Mem 16) (server : Server) (client : Client) (f : F) (g : G)
    (centries sentries : List Dirent) : Prop where
  accepted : Accepted md5 server g client
  clientDir : Posix.opendir (Posix.chdir f client.path).2 dotSlash = some centries
  homeDir : Posix.opendir (Posix.mkdir g (homeOf server.path client.user) dirSFlag).2
    (homeOf server.path client.user) =
    some sentries

variable {centries sentries : List Dirent}

-- The way from the login to the roles.
theorem opening_runs (connFd : Nat)
    (hin : LogsIn md5 server client ch.fs sh.fs centries sentries) :
    ∃ (client' : Client) (server' : Server) (k : Server → Code Unit) (ch' : Host F) (sh' : Host G)
        (a b : Bytes), client'.hl = [] ∧ server'.hl = server.hl ∧
      LoggedIn server' connFd (homeOf server.path client.user) ∧ Serves G md5 connFd k ∧
      ch'.notices = [.num (min 3 centries.length)] ∧
      sh'.fs = (Posix.mkdir sh.fs (homeOf server.path client.user) dirSFlag).2 ∧ sh'.notices = [] ∧
      Runs (start md5 connFd server client ch sh)
        ⟨clientRole md5 (min 3 centries.length) client' >>= finish, ch',
          serverRole md5 server' connFd (homeOf server.path client.user) sentries.length >>= k, sh',
          [], [], a, b⟩ := by
  have haccepted : Accepted md5 server ({ sh with notices := [] } : Host G).fs client := hin.accepted
  obtain ⟨client', server', k, a, b, hpath, hhl, hlogged, hk, hlogin⟩ :=
    login_runs connFd haccepted { ch with notices := [] }
  have hclient := hin.clientDir
  rw [← hpath] at hclient
  have hleft := exec_initialSync (l := ⟨[], false⟩) md5 { ch with notices := [] } hclient
    fun client => ret (some client)
  have hright := exec_openHome (l := ⟨[], false⟩) md5 { ({ sh with notices := [] } : Host G).tick.tick with
    fs := (Posix.mkdir sh.fs (homeOf server.path client.user) dirSFlag).2 } hlogged hin.homeDir k
  exact ⟨_, server', _, _, _, a, b, rfl, hhl, hlogged, fun server g => hk _ g, rfl, rfl, rfl,
    hlogin.trans (runs_silent hleft hright a b)⟩

theorem empty_deadlocks (connFd : Nat)
    (hin : LogsIn md5 server client ch.fs sh.fs centries sentries)
    (hleft : ¬2 < centries.length) (hright : ¬2 < sentries.length) :
    ∃ c, Runs (start md5 connFd server client ch sh) c ∧ c.Deadlock := by
  obtain ⟨client', server', k, ch', sh', a, b, -, -, -, hk, -, -, -, hrun⟩ := opening_runs connFd hin
  rw [clientRole, if_pos (by omega), serverRole, if_neg hright, ret_bind] at hrun
  obtain ⟨c, hwait, hdead⟩ := pull_deadlocks server' client' ch' sh' hk a b
  exact ⟨c, hrun.trans hwait, hdead⟩

theorem filled_disagree (connFd : Nat)
    (hin : LogsIn md5 server client ch.fs sh.fs centries sentries)
    (hleft : 2 < centries.length) (hright : 2 < sentries.length) :
    ∃ c, Runs (start md5 connFd server client ch sh) c ∧ ¬Agree c := by
  obtain ⟨client', server', k, ch', sh', a, b, -, -, -, -, hc, -, -, hrun⟩ := opening_runs connFd hin
  rw [serverRole, if_pos hright] at hrun
  have hnum : .num (min 3 centries.length) ∈ ch'.notices := by simp [hc]
  obtain ⟨c, hdisagree, hagree⟩ := push_disagrees md5 connFd server' (homeOf server.path client.user) sh' k
    (by omega) hnum _ a b
  exact ⟨c, hrun.trans hdisagree, hagree⟩

end Cases

section Instances

-- The server of the user "u" with the password "p", whose account is in the file a.
def gateServer : Server := { exampleServer with accountPath := [0x61], client := fun _ => none }

def accountText : Bytes := [0x75, 0x2c, 0x70, 0x0a]

-- Its file system, with `more` behind the account file.
def gateHost (more : List Path) : Host TreeFs :=
  exampleHost (exampleFs ([[⟨[0x73], validName_s⟩], [⟨[0x73], validName_s⟩, ⟨[0x75], validName_u⟩],
    [⟨[0x61], validName_a⟩]] ++ more) fun i => if i < 2 then .dir else .file accountText)

-- The home directory with the file f.
def filledHome : Host TreeFs :=
  gateHost [[⟨[0x73], validName_s⟩, ⟨[0x75], validName_u⟩, ⟨[0x66], validName_f⟩]]

theorem accepted_of_account {sh : Host TreeFs}
    (hread : Posix.fopenRead sh.fs gateServer.accountPath = some (0, accountText)) :
    Accepted md5OfX gateServer sh.fs exampleClient where
  short := by decide
  noNul := by decide +kernel
  found := ⟨0, accountText, 0x75 :: zeros 29 ++ (md5OfX []).val ++ zeros 2, hread,
    by decide +kernel, by decide +kernel⟩
  fits := by decide

def dots : List Dirent :=
  [⟨⟨[dot], dot_noNul⟩, true⟩, ⟨⟨[dot, dot], dots_noNul⟩, true⟩]

theorem empty_logsIn :
    LogsIn md5OfX gateServer exampleClient emptyClient.fs (gateHost []).fs dots dots where
  accepted := accepted_of_account (by decide +kernel)
  clientDir := by decide +kernel
  homeDir := by decide +kernel

theorem filled_logsIn : LogsIn md5OfX gateServer exampleClient clientWithFile.fs filledHome.fs
    (dots ++ [⟨⟨[0x61], Name.noNul ⟨_, validName_a⟩⟩, true⟩])
    (dots ++ [⟨⟨[0x66], Name.noNul ⟨_, validName_f⟩⟩, false⟩]) where
  accepted := accepted_of_account (by decide +kernel)
  clientDir := by decide +kernel
  homeDir := by decide +kernel

theorem push_logsIn : LogsIn md5OfX gateServer exampleClient clientWithFile.fs (gateHost []).fs
    (dots ++ [⟨⟨[0x61], Name.noNul ⟨_, validName_a⟩⟩, true⟩]) dots where
  accepted := accepted_of_account (by decide +kernel)
  clientDir := by decide +kernel
  homeDir := by decide +kernel

end Instances

-- After a login the ends agree on who sends first, and neither waits for the
-- other in vain, exactly when one of the two directories is empty and the other
-- one is not; a tree to be pulled must also have no file under two names.
theorem roles_agree {F G : Type} [Posix F] [Posix G] (hF : Undisturbed F) (hG : Undisturbed G)
    (hfree : NoOtherLocks G) {md5 : Bytes → Mem 16} {connFd : Nat} {server : Server}
    {client : Client} {ch : Host F} {sh : Host G} {centries sentries : List Dirent}
    (hin : LogsIn md5 server client ch.fs sh.fs centries sentries) :
    (Sound (start md5 connFd server client ch sh) →
        (2 < centries.length ↔ ¬2 < sentries.length)) ∧
      ((2 < centries.length ↔ ¬2 < sentries.length) →
        (2 < sentries.length → Fresh (server.hl connFd)
          (visits (Posix.mkdir sh.fs (homeOf server.path client.user) dirSFlag).2 pathMax
            (homeOf server.path client.user))) →
        Sound (start md5 connFd server client ch sh)) := by
  constructor
  · intro hsound
    by_contra hone
    rcases (show (2 < centries.length ∧ 2 < sentries.length) ∨
        (¬2 < centries.length ∧ ¬2 < sentries.length) by tauto) with ⟨hleft, hright⟩ | ⟨hleft, hright⟩
    · obtain ⟨c, hrun, hagree⟩ := filled_disagree connFd hin hleft hright
      exact hagree (hsound c hrun).1
    · obtain ⟨c, hrun, hdead⟩ := empty_deadlocks connFd hin hleft hright
      exact (hsound c hrun).2 hdead
  · intro hone hfresh
    obtain ⟨client', server', k, ch', sh', a, b, hl, hhl, hlogged, hk, hc, hfs, hs, hrun⟩ :=
      opening_runs connFd hin
    refine Sound.of_run ?_ hrun
    by_cases hright : 2 < sentries.length
    · have hleft : ¬2 < centries.length := fun hleft => (hone.mp hleft) hright
      rw [clientRole, if_pos (by omega), serverRole, if_pos hright]
      refine pull_sound hF.granted hG hk ?_ ?_ a b
      · rw [hhl, hfs]
        exact hfresh hright
      · intro n hmem
        rw [hc] at hmem
        simp only [List.mem_singleton, Notice.num.injEq] at hmem
        omega
    · have hleft : 2 < centries.length := hone.mpr hright
      rw [clientRole, if_neg (by omega), serverRole, if_neg hright, ret_bind]
      exact push_sound hF hfree hlogged hk hl hs a b

-- Two empty directories, and two that hold a file.
theorem roles_disagree :
    Undisturbed TreeFs ∧ NoOtherLocks TreeFs ∧
      LogsIn md5OfX gateServer exampleClient emptyClient.fs (gateHost []).fs dots dots ∧
      (∃ c, Runs (start md5OfX 5 gateServer exampleClient emptyClient (gateHost [])) c ∧
        c.Deadlock) ∧
      ∃ centries sentries,
        LogsIn md5OfX gateServer exampleClient clientWithFile.fs filledHome.fs centries sentries ∧
          ∃ c, Runs (start md5OfX 5 gateServer exampleClient clientWithFile filledHome) c ∧
            ¬Agree c := by
  refine ⟨treeFs_undisturbed, treeFs_noOtherLocks, empty_logsIn, ?_, _, _, filled_logsIn, ?_⟩
  · exact empty_deadlocks 5 empty_logsIn (by decide) (by decide)
  · exact filled_disagree 5 filled_logsIn (by decide) (by decide)

-- A client with a file, and an empty home directory.
theorem roles_agree_push :
    (Sound (start md5OfX 5 gateServer exampleClient clientWithFile (gateHost [])) →
        (2 < 3 ↔ ¬2 < 2)) ∧
      ((2 < 3 ↔ ¬2 < 2) →
        (2 < 2 → Fresh (gateServer.hl 5)
          (visits (Posix.mkdir (gateHost []).fs (homeOf gateServer.path exampleClient.user) dirSFlag).2
            pathMax (homeOf gateServer.path exampleClient.user))) →
        Sound (start md5OfX 5 gateServer exampleClient clientWithFile (gateHost []))) :=
  roles_agree treeFs_undisturbed treeFs_undisturbed treeFs_noOtherLocks push_logsIn

end Csiebox.Roles
