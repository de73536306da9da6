import Csiebox.Locks.Steps

namespace Csiebox.Locks

open CBytes Program Prog Session

section Passing

variable {F G : Type} [Posix F] [Posix G] {files : Files G} {md5 : Bytes → Mem 16}
  {st path filepath hash : Bytes} {client : Host F} {peer : Host (SharedFs G)}

omit [Posix G] in
theorem setlk_held (s : SharedFs G) (fl : Flock) : (s.setlk fl).2.held = s.held := by
  unfold SharedFs.setlk
  split_ifs <;> rfl

-- No call of the server's touches the locks of others.
theorem exec_held {γ : Type} {op : Sys γ} {r : γ} {h h' : Host (SharedFs G)}
    (hexec : Host.exec op h = some (r, h')) : h'.fs.held = h.fs.held := by
  cases op
  case fopenWrite path =>
    simp only [Host.exec] at hexec
    cases hopen : Posix.fopenWrite h.fs path with
    | none =>
        simp only [hopen, Option.some.injEq, Prod.mk.injEq] at hexec
        rw [← hexec.2]
    | some opened =>
        obtain ⟨⟨fp, base⟩, -, rfl⟩ := Option.map_eq_some_iff.mp hopen
        simp only [hopen, Option.some.injEq, Prod.mk.injEq] at hexec
        rw [← hexec.2]
  case setlk fp fl =>
    obtain ⟨-, rfl⟩ := Prod.mk.inj (Option.some.inj hexec)
    exact setlk_held h.fs fl
  case setlkw fp fl =>
    obtain ⟨r', hset, hlast⟩ := Option.map_eq_some_iff.mp hexec
    have hgranted : (if (h.fs.setlk fl).1 then some (h.fs.setlk fl) else none) = some r' := hset
    split_ifs at hgranted
    cases hgranted
    cases hlast
    exact setlk_held h.fs fl
  case readEvents size =>
    obtain ⟨r', hevents, hlast⟩ := Option.map_eq_some_iff.mp hexec
    obtain ⟨r'', -, rfl⟩ := Option.map_eq_some_iff.mp hevents
    cases hlast
    rfl
  all_goals
    obtain ⟨-, rfl⟩ := Prod.mk.inj (Option.some.inj hexec)
    rfl

theorem unopposed_unheld {s : Polling G} (hheld : s.1.fs.held = []) (head : Head Sys UInt8 Fault) :
    Unopposed files head s := by
  have hfree : ¬s.1.fs.Locked := by
    simp [SharedFs.Locked, hheld]
  cases head with
  | call op =>
      cases op
      case getlk fp fl => simp [Unopposed, hheld]
      all_goals first | trivial | exact fun hlocked => absurd hlocked hfree
  | send bs => exact hfree
  | _ => trivial

-- A run of client and server while nobody holds a lock.
theorem steps_unheld {c d : Net Sys UInt8 Fault (Host F) (Polling G) Unit Unit}
    (h : Net.Runs host polling c d)
    (hheld : c.rightState.1.fs.held = []) :
    Relation.ReflTransGen (Steps (Unopposed files)) c d ∧ d.rightState.1.fs.held = [] := by
  induction h with
  | refl => exact ⟨.refl, hheld⟩
  | tail _ last ih =>
      obtain ⟨hrun, hnone⟩ := ih
      cases last with
      | inl own =>
          obtain ⟨p, s, j, out, -, rfl⟩ := leftStep_eq own
          exact ⟨hrun.tail (.left own), hnone⟩
      | inr own =>
          obtain ⟨p, s, j, out, hown, rfl⟩ := rightStep_eq own
          refine ⟨hrun.tail (.right (unopposed_unheld hnone _) own), ?_⟩
          rcases (step_effect hown).1 with rfl | ⟨γ, op, r, -, hexec⟩
          · exact hnone
          · rw [exec_held (noting_exec.mp hexec).1, hnone]

-- Other processes take locks and give them up again before the server's next step.
theorem locks_pass (held : List Flock) {c : Update F G} (hheld : c.rightState.1.fs.held = [])
    (hclear : ∀ other ∈ held, ∀ mine ∈ c.rightState.1.fs.own, ¬Conflict mine other) :
    ∃ d, Relation.ReflTransGen (Steps (Unopposed files)) c d ∧ d.rightState.1.fs.held = held ∧
      Steps (Unopposed files) d c := by
  refine ⟨_, .single (.other ⟨held, rfl, fun other hother => .inr (hclear other hother)⟩), rfl, ?_⟩
  have hback : Steps (Unopposed files) { c with
      rightState := ({ c.rightState.1 with fs := { c.rightState.1.fs with held } }, c.rightState.2) } _ :=
    .other ⟨[], rfl, by simp⟩
  rwa [← hheld] at hback

-- What `receive_file` has left once the loop has ended.
def takeFile (fp : Nat) (buf : Bytes) (fl : Flock) : Code Unit := do
  let fl := { fl with type := .wrlck, start := 0, len := 0 }
  let _ ← sys (.setlk fp fl)
  receiveChunks N fp (zeros sizeofFile) buf
  let _ ← sys (.setlk fp { fl with type := .unlck })
  sys (.fclose fp)

theorem exec_opened (hs : statusOf md5 peer.fs.base filepath st hash = some statusMore)
    (hreg : sIsReg (stMode st) = true) {fp : Nat} {g : G}
    (hopens : Posix.fopenWrite peer.fs.base filepath = some (fp, g)) :
    ∃ buf : Mem N, Exec host ⟨answerMeta md5 filepath st hash, peer, ⟨[], false⟩⟩ []
      ⟨pollLock fp (verdict statusMore) >>= takeFile fp buf.val,
        { peer.tick with fs := { peer.fs with base := g, buffer := [] } }, ⟨[], false⟩⟩ := by
  obtain ⟨buf, hbuf⟩ := exec_uninit (h := peer) (l := ⟨[], false⟩) N
  have hfopen : Posix.fopenWrite peer.fs filepath =
      some (fp, { peer.fs with base := g, buffer := [] }) := by
    show (Posix.fopenWrite peer.fs.base filepath).map _ = _
    rw [hopens]
    rfl
  have hcall : Exec host ⟨(sys (.fopenWrite filepath) : Code (Option Nat)), peer.tick, ⟨[], false⟩⟩ []
      ⟨ret (some fp), { peer.tick with fs := { peer.fs with base := g, buffer := [] } }, ⟨[], false⟩⟩ :=
    exec_sys (by simp [host, Host.exec, hfopen])
  exact ⟨buf, (exec_answerMeta_more hs hreg).trans (Exec.after hbuf (Exec.after hcall (.refl _)))⟩

theorem exec_polled {h : Host (SharedFs G)} (hheld : h.fs.held = []) (fp : Nat) (reply : Bytes)
    {l : Link UInt8} (hl : l.alive = true) :
    Exec host ⟨pollLock fp reply, h, l⟩ reply ⟨ret { Flock.zero with type := .unlck }, h, l⟩ := by
  have hquery : Posix.getlk h.fs fp Flock.zero = { Flock.zero with type := .unlck } := by
    show h.fs.getlk Flock.zero = _
    simp [SharedFs.getlk, hheld]
  have hround : Exec host ⟨pollLockRound fp reply Flock.zero, h, l⟩ reply
      ⟨ret (.inr { Flock.zero with type := .unlck }), h, l⟩ := by
    refine Exec.after (exec_sys rfl) ?_
    rw [hquery, if_pos rfl]
    exact (exec_sendMessage hl).bind _
  exact exec_iter_done hround

theorem exec_taken (h : Host (SharedFs G)) (fp : Nat) (buf : Mem N) (fl : Flock) (content : Bytes) :
    ∃ h', Exec host ⟨takeFile fp buf.val fl, h, ⟨chunkStream N content, false⟩⟩ [] ⟨ret (), h',
      ⟨[], false⟩⟩ := by
  have hchunks := fun h : Host (SharedFs G) => exec_receiveChunks (h := h) (c := false) (by decide)
    (by decide) fp (zeros_length sizeofFile) buf.property.ge content []
  simp only [List.append_nil] at hchunks
  exact ⟨_, Exec.after (exec_sys rfl) (Exec.after (hchunks _) (Exec.after (exec_sys rfl) (exec_sys rfl)))⟩

theorem exec_awaited (hwait : LocksGranted F) (hreg : sIsReg (stMode st) = true) {handle : Nat}
    {content : Bytes}
    (hread : Posix.fopenRead client.fs path = some (handle, content)) :
    ∃ client', Exec host ⟨awaitTransfer st path, client, ⟨verdict statusMore, false⟩⟩
      (chunkStream N content)
      ⟨ret (), client', ⟨[], false⟩⟩ := by
  have hround : Talk host (awaitVerdict (zeros sizeofHeader)) client [(verdict statusMore, [])]
      (ret (if true && headerStatus (verdict statusMore) != statusBlock then .inr (verdict statusMore)
        else .inl (verdict statusMore))) client :=
    (talk_recvMessage (verdict_reply statusMore).1 (zeros_length _) (by decide)).bind _
  rw [(verdict_reply statusMore).2, if_pos (by decide)] at hround
  have hstream : fileStream client.fs st path = some (chunkStream N content) := by
    rw [fileStream, if_pos hreg, hread]
    rfl
  cases talk_iter_done hround with
  | cons round rest =>
      cases rest
      have hsend : Exec host ⟨if headerStatus (verdict statusMore) =
        statusMore then sendFile st path else ret (),
          client, ⟨[], false⟩⟩ (chunkStream N content)
          ⟨ret (), { client with fs := afterSend client.fs st path }, ⟨[], false⟩⟩ := by
        rw [(verdict_reply statusMore).2, if_pos rfl]
        exact exec_sendFile hwait rfl hstream
      exact ⟨_, Exec.after round hsend⟩

-- Any update is served so while the locks of others come and go: before the server opens
-- the file, before it asks for locks, and before it takes its own.
theorem served_among_locks (hwait : LocksGranted F) {handle : Nat} {content : Bytes}
    (hread : Posix.fopenRead client.fs path = some (handle, content))
    (hs : statusOf md5 peer.fs.base filepath st hash = some statusMore) (hreg : sIsReg (stMode st) = true)
    {fp : Nat} {g : G} (hopens : Posix.fopenWrite peer.fs.base filepath = some (fp, g))
    (hown : peer.fs.own = [])
    (held held' : List Flock) (a b : Bytes) :
    ∃ c₁ c₂ c, Relation.ReflTransGen (Steps (Unopposed files))
      (serving md5 st path filepath hash client peer a b) c₁ ∧
      Relation.ReflTransGen (Steps (Unopposed files)) c₁ c₂ ∧
      Relation.ReflTransGen (Steps (Unopposed files)) c₂ c ∧
      c₁.rightState.1.fs.held = held ∧ c₂.rightState.1.fs.held = held' ∧ c.left = ret () ∧
        c.right = ret () := by
  let peer₀ : Host (SharedFs G) := { peer with fs := { peer.fs with held := [] } }
  have hreleased : Steps (Unopposed files) (serving md5 st path filepath hash client peer a b)
      (serving md5 st path filepath hash client peer₀ a b) := .other ⟨[], rfl, by simp⟩
  have hs₀ : statusOf md5 peer₀.fs.base filepath st hash = some statusMore := hs
  obtain ⟨buf, hopened⟩ := exec_opened hs₀ hreg hopens
  obtain ⟨notes₁, hrun₁⟩ := runs_noting told
    (runs_right (K := host) (p := awaitTransfer st path) (s := client) (i := []) (a := a)
      (b := b) hopened) []
  obtain ⟨hsteps₁, hnone₁⟩ : Relation.ReflTransGen (Steps (Unopposed files)) _ _ ∧ _ :=
    steps_unheld hrun₁ rfl
  obtain ⟨d₁, hto₁, hheld₁, hback₁⟩ :
      ∃ d, Relation.ReflTransGen (Steps (Unopposed files)) _ d ∧ d.rightState.1.fs.held = held ∧ _ :=
    locks_pass held hnone₁ (by simp [Net.noted, peer₀, hown])
  have hpolled := (exec_polled hnone₁ fp (verdict statusMore) (l := ⟨[], false⟩) rfl).bind
    (takeFile fp buf.val)
  obtain ⟨notes₂, hrun₂⟩ := runs_noting told
    (runs_right (K := host) (p := awaitTransfer st path) (s := client) (i := []) (a := a)
      (b := b ++ []) hpolled)
    notes₁
  obtain ⟨hsteps₂, hnone₂⟩ : Relation.ReflTransGen (Steps (Unopposed files)) _ _ ∧ _ :=
    steps_unheld hrun₂ hnone₁
  obtain ⟨d₂, hto₂, hheld₂, hback₂⟩ :
      ∃ d, Relation.ReflTransGen (Steps (Unopposed files)) _ d ∧ d.rightState.1.fs.held = held' ∧ _ :=
    locks_pass held' hnone₂ (by simp [Net.noted, peer₀, hown])
  obtain ⟨client', hawaited⟩ := exec_awaited hwait hreg hread
  obtain ⟨peer', htaken⟩ := exec_taken
    { peer₀.tick with fs := { peer₀.fs with base := g, buffer := [] } } fp buf { Flock.zero with type := .unlck } content
  have hrest := (runs_left (J := (host : Kernel Sys (Host (SharedFs G)))) (w := []) (a := a)
    (b := b ++ [] ++ verdict statusMore) hawaited).trans (runs_right htaken)
  obtain ⟨notes₃, hrun₃⟩ := runs_noting told hrest notes₂
  obtain ⟨hsteps₃, -⟩ : Relation.ReflTransGen (Steps (Unopposed files)) _ _ ∧ _ := steps_unheld hrun₃ hnone₂
  exact ⟨d₁, d₂, _, .head hreleased (hsteps₁.trans hto₁), .head hback₁ (hsteps₂.trans hto₂),
    .head hback₂ hsteps₃,
    hheld₁, hheld₂, rfl, rfl⟩

-- Under a lock that stays, the first reply says MORE all the same.
theorem more_under_lock (client : Host F) (path : Bytes)
    (hs : statusOf md5 peer.fs.base filepath st hash = some statusMore)
    (hreg : sIsReg (stMode st) = true) {fp : Nat} {g : G}
    (hopens : Posix.fopenWrite peer.fs.base filepath = some (fp, g)) (a b : Bytes) :
    ∃ c d : Update F G,
      Relation.ReflTransGen (Steps fun _ _ => True) (serving md5 st path filepath hash client peer a b) c ∧
        Steps (fun _ _ => True) c d ∧ c.rightState.1.fs.held = peer.fs.held ∧
        d.rightSaid = c.rightSaid ++ verdict statusMore := by
  obtain ⟨buf, hopened⟩ := exec_opened hs hreg hopens
  obtain ⟨k, hqueried⟩ : ∃ k, Exec host ⟨pollLock fp (verdict statusMore) >>= takeFile fp buf.val,
      { peer.tick with fs := { peer.fs with base := g, buffer := [] } }, ⟨[], false⟩⟩ []
      ⟨.send (verdict statusMore) k, { peer.tick with fs := { peer.fs with base := g, buffer := [] } },
        ⟨[], false⟩⟩ := by
    have hsend : (sendMessage (verdict statusMore) : Code Bool) = say (verdict statusMore) := by
      rw [sendMessage, if_neg (by rw [(verdict_reply statusMore).1]; decide)]
    have hround : pollLockRound fp (verdict statusMore) Flock.zero =
        Prog.call (.getlk fp Flock.zero) fun fl => Prog.send (verdict statusMore) fun _ =>
          ret (if fl.type = .unlck then Sum.inr fl else Sum.inl fl) := by
      simp only [pollLockRound, hsend]
      rfl
    have hloop := (exec_unroll (K := host)
      (s := { peer.tick with fs := { peer.fs with base := g, buffer := [] } })
      (pollLockRound fp (verdict statusMore)) Flock.zero ⟨[], false⟩).bind (takeFile fp buf.val)
    rw [Prog.unroll, hround] at hloop
    exact ⟨_, hloop.trans (.single rfl)⟩
  obtain ⟨notes, hrun⟩ := runs_noting told
    (runs_right (K := host) (p := awaitTransfer st path) (s := client) (i := []) (a := a) (b := b)
      (hopened.trans hqueried)) []
  refine ⟨_, _, Relation.ReflTransGen.mono (fun _ _ hstep => ?_) _ _ hrun, .right trivial rfl, rfl, rfl⟩
  cases hstep with
  | inl own => exact .left own
  | inr own => exact .right trivial own

end Passing

end Csiebox.Locks
