import Csiebox.Session
import Csiebox.Server.Lemmas

namespace Csiebox.Session

open CBytes Program Prog

section Remove

variable {σ : Type} {K : Kernel Sys σ} {s : σ} {echo : Bytes}

theorem talk_sendRm (hecho : echo.length = sizeofHeader) (hbusy : headerStatus echo ≠ statusBusy)
    (path : Bytes) :
    Talk K (sendRm path) s [([], rmMessage path.length), (echo, []), ([], path)] (ret ()) s := by
  have hround : Talk K (announceRm (rmMessage path.length) ()) s
      [([], rmMessage path.length), (echo, [])]
      (ret (if headerStatus echo = statusBusy then .inl () else .inr ())) s :=
    Talk.seq (talk_sendMessage _) ((talk_recvMessage hecho (zeros_length _) (by decide)).bind _)
  rw [if_neg hbusy] at hround
  exact Talk.seq (talk_iter_done hround) ((talk_sendMessage path).bind _)

end Remove

section Ready

variable {F G : Type} [Posix F] [Posix G] (md5 : Bytes → Mem 16) (home : Bytes)

-- The client can read what it sends: the file, or the link's target.
structure Sendable (f : F) (st path : Bytes) : Prop where
  link : sIsLnk (stMode st) = true → (∃ target, Posix.readlink f (path.drop 2) pathMax = some target) ∧
    ∃ target, Posix.readlink f path N = some target ∧ target.length ≤ N
  file : sIsReg (stMode st) = true → (∃ opened, Posix.fopenRead f path = some opened) ∧
    ∀ rs, Posix.reads f (path.drop 2) = some rs → .failed ∉ rs

-- The server's target of a regular file is absent or can be read.
def Target (g : G) (filepath st : Bytes) : Prop :=
  sIsReg (stMode st) = true → ∀ rs, Posix.reads g filepath = some rs → .failed ∉ rs

def Request.Ready (f : F) (g : G) : Request → Prop
  | .sync st path =>
      PathFits home (path.drop 2) ∧ Sendable f st.val path ∧
        Target g (home ++ slash :: path.drop 2) st.val
  | .hardlink oldPath newPath _ => PathFits home oldPath ∧ PathFits home newPath
  | .remove path => PathFits home (path.drop 2)

-- A regular file that the server asks for can be opened for writing there.
def Request.Opens (f : F) (g : G) : Request → Prop
  | .sync st path =>
      sIsReg (stMode st.val) = true → ∀ hash, digestOf md5 f st.val (path.drop 2) = some hash →
        statusOf md5 g (home ++ slash :: path.drop 2) st.val hash = some statusMore →
          ∃ opened, Posix.fopenWrite g (home ++ slash :: path.drop 2) = some opened
  | _ => True

theorem hashedBytes_isSome {rs : List ReadResult} (h : .failed ∉ rs) :
    ∃ bs, hashedBytes rs = some bs := by
  induction rs with
  | nil => exact ⟨[], rfl⟩
  | cons r rs ih =>
      cases r with
      | failed => simp at h
      | data bs =>
          obtain ⟨more, hmore⟩ := ih fun hmem => h (List.mem_cons_of_mem _ hmem)
          exact ⟨bs ++ more, by simp [hashedBytes, hmore]⟩

variable {md5 home} {f : F} {g : G} {st path hash filepath : Bytes}

theorem Sendable.digest (hs : Sendable f st path) :
    ∃ hash, digestOf md5 f st (path.drop 2) = some hash := by
  unfold digestOf
  split_ifs with hlnk hreg
  · obtain ⟨target, hread⟩ := (hs.link hlnk).1
    exact ⟨_, by rw [hread]; rfl⟩
  · cases hreads : Posix.reads f (path.drop 2) with
    | none => exact ⟨_, rfl⟩
    | some rs =>
        obtain ⟨bs, hbs⟩ := hashedBytes_isSome ((hs.file hreg).2 rs hreads)
        exact ⟨_, by simp only [hbs]; rfl⟩
  · exact ⟨_, rfl⟩

theorem Target.status (ht : Target g filepath st) (md5 : Bytes → Mem 16) (hash : Bytes) :
    ∃ status, statusOf md5 g filepath st hash = some status := by
  unfold statusOf
  split_ifs with hdir hlnk hreg
  · exact ⟨_, rfl⟩
  · cases Posix.readlink g filepath pathMax <;> exact ⟨_, rfl⟩
  · cases hreads : Posix.reads g filepath with
    | none => exact ⟨_, rfl⟩
    | some rs =>
        obtain ⟨bs, hbs⟩ := hashedBytes_isSome (ht hreg rs hreads)
        exact ⟨_, by simp only [hbs]; rfl⟩
  · exact ⟨_, rfl⟩

end Ready

section Meetings

variable (head body path verdict stream : Bytes)

-- The rounds of a SYNC_META request that ends with the verdict.
theorem meets_done : Meets [] []
    [([], head ++ body), (head, []), ([], path), (verdict, [])]
    ((head, []) :: ([], head) :: (body, []) :: (path, []) :: ([([], verdict)] ++ [([], [])])) := by
  refine .left [] (by simp) (.right body (by simp) (.right body (by simp) (.right [] (by simp) ?_)))
  refine .left [] (by simp) (.left [] (by simp) (.right [] (by simp) (.right [] (by simp) ?_)))
  exact .right [] (by simp) (.left [] (by simp) .nil)

-- The rounds of one that goes on with a transfer.
theorem meets_transfer : Meets [] []
    ([([], head ++ body), (head, []), ([], path), (verdict, [])] ++ [([], stream)])
    ((head, []) :: ([], head) :: (body, []) :: (path, []) ::
      ([([], verdict), (stream, [])] ++ [([], [])])) := by
  refine .left [] (by simp) (.right body (by simp) (.right body (by simp) (.right [] (by simp) ?_)))
  refine .left [] (by simp) (.left [] (by simp) (.right [] (by simp) (.right [] (by simp) ?_)))
  refine .left [] (by simp) (.left [] (by simp) (.right [] (by simp) (.right [] (by simp) ?_)))
  exact .nil

-- Of one whose transfer does not come.
theorem meets_unsent : Meets [] []
    ([([], head ++ body), (head, []), ([], path), (verdict, [])] ++ [([], [])])
    ((head, []) :: ([], head) :: (body, []) :: (path, []) :: [([], verdict), ([], [])]) := by
  refine .left [] (by simp) (.right body (by simp) (.right body (by simp) (.right [] (by simp) ?_)))
  refine .left [] (by simp) (.left [] (by simp) (.right [] (by simp) (.right [] (by simp) ?_)))
  exact .right [] (by simp) (.left [] (by simp) (.left [] (by simp) .nil))

theorem meets_hardlink (source target st : Bytes) : Meets [] []
    ([([], head ++ body), (head, []), ([], source), ([], target)] ++ [([], st)])
    ((head, []) :: [([], head), (body, []), (source, []), (target, []), (st, []), ([], [])]) := by
  refine .left [] (by simp) (.right body (by simp) (.right body (by simp) (.right [] (by simp) ?_)))
  refine .left [] (by simp) (.left [] (by simp) (.right [] (by simp) (.left [] (by simp) ?_)))
  refine .right [] (by simp) (.left [] (by simp) (.right [] (by simp) (.right [] (by simp) ?_)))
  exact .nil

theorem meets_remove : Meets [] []
    [([], head ++ body), (head, []), ([], path)]
    ((head, []) :: [([], head), (body, []), (path, []), ([], [])]) := by
  refine .left [] (by simp) (.right body (by simp) (.right body (by simp) (.right [] (by simp) ?_)))
  refine .left [] (by simp) (.left [] (by simp) (.right [] (by simp) (.right [] (by simp) ?_)))
  exact .nil

-- A request whose server stops before the verdict.
theorem meets_crash : Meets [] []
    [([], head ++ body), (head, []), ([], path)]
    [(head, []), ([], head), (body, []), (path, []), ([], [])] := by
  refine .left [] (by simp) (.right body (by simp) (.right body (by simp) (.right [] (by simp) ?_)))
  exact .left [] (by simp) (.left [] (by simp) (.right [] (by simp) (.right [] (by simp) .nil)))

end Meetings

section Sync

variable {F G α : Type} [Posix F] [Posix G] {md5 : Bytes → Mem 16} {connFd : Nat}
  {server : Server} {home : Bytes} {client : Host F} {peer : Host G} {st : Mem 144}
  {path hash : Bytes} {status : UInt8}

abbrev metaHead : Bytes :=
  header magicReq opSyncMeta statusMore 0 (sizeofMeta - sizeofHeader)

abbrev hardlinkHead : Bytes :=
  header magicReq opSyncHardlink 0 0 (sizeofHardlink - sizeofHeader)

abbrev rmHead : Bytes := header magicReq opRm 0 0 (sizeofRm - sizeofHeader)

-- What the client sends before it knows whether the file is wanted.
def syncRequest (st hash path : Bytes) : Bytes := metaHead ++ metaBody path.length st hash ++ path

-- The server's side of a SYNC_META request, with what `answerMeta` does as given.
theorem talk_serveMeta (target : Bytes) (hin : LoggedIn server connFd home)
    (hp : PathFits home target) (hhash : hash.length = 16) {inp out : Bytes}
    {rounds : List (Bytes × Bytes)} {peer' : Host G}
    (hanswer : Talk host (answerMeta md5 (home ++ slash :: target) st.val hash) peer.tick
      ((inp, out) :: rounds) (ret ()) peer') :
    Talk host (unroll (serveRound md5 connFd) server) peer
      ((metaHead, []) :: ([], metaHead) :: (metaBody target.length st.val hash, []) :: (target, []) ::
        ((inp, out) :: rounds ++ [([], [])]))
      (unroll (serveRound md5 connFd) server) { peer' with
        fs := (Posix.utime peer'.fs (home ++ slash :: target) (stAtime st.val) (stMtime st.val)).2 } := by
  refine talk_serve (by simp) (by simp) ?_
  rw [dispatch_syncMeta (by simp)]
  exact (talk_syncMeta hin hp (by simp) (headerDatalen_header _ _ _ _ _ (by decide)) st.property
    hhash hanswer).bind _

-- The same for an answer that does not end.
theorem talk_serveMeta_part (target : Bytes) (hin : LoggedIn server connFd home)
    (hp : PathFits home target) (hhash : hash.length = 16) {inp out : Bytes}
    {rounds : List (Bytes × Bytes)} {q : Code Unit} {peer' : Host G}
    (hanswer : Talk host (answerMeta md5 (home ++ slash :: target) st.val hash) peer.tick
      ((inp, out) :: rounds) q peer') :
    ∃ k : Unit → Code Unit, Talk host (unroll (serveRound md5 connFd) server) peer
      ((metaHead, []) :: ([], metaHead) :: (metaBody target.length st.val hash, []) ::
        (target, []) :: (inp, out) :: rounds) (q >>= k) peer' := by
  have hdispatch := (talk_syncMeta_answer hin hp (header_length _ _ _ _ _)
    (headerDatalen_header magicReq opSyncMeta statusMore 0 _ (by decide)) st.property hhash
    hanswer).bind fun _ => (ret server : Code Server)
  rw [← dispatch_syncMeta (by simp)] at hdispatch
  obtain ⟨k, -, hround⟩ := talk_serve_part (by simp) (by simp) hdispatch
  simp only [bind_assoc] at hround
  exact ⟨_, hround⟩

theorem talk_serveMeta_halt (target : Bytes) (hin : LoggedIn server connFd home)
    (hp : PathFits home target) (hhash : hash.length = 16) {e : Fault} {peer' : Host G}
    (hanswer : Talk host (answerMeta md5 (home ++ slash :: target) st.val hash) peer.tick
      [([], [])] (halt e) peer') :
    Talk host (unroll (serveRound md5 connFd) server) peer
      [(metaHead, []), ([], metaHead), (metaBody target.length st.val hash, []), (target, []),
        ([], [])] (halt e) peer' := by
  obtain ⟨k, hround⟩ := talk_serveMeta_part target hin hp hhash hanswer
  exact hround

-- What the verdict leaves to do for the client.
theorem talk_syncFile_verdict (hd : digestOf md5 client.fs st.val (path.drop 2) = some hash)
    (hstatus : status = statusOk ∨ status = statusMore) :
    Talk host (syncFile md5 st.val path) client
      [([], metaHead ++ metaBody (path.drop 2).length st.val hash), (metaHead, []),
        ([], path.drop 2), (verdict status, [])]
      (if status = statusMore then sendFile st.val path else ret ()) client := by
  refine talk_syncFile hd (by simp) (by simp [statusMore, statusBusy]) (by simp [verdict]) ?_
  rcases hstatus with rfl | rfl <;> simp [verdict, statusOk, statusMore, statusBlock]

theorem sync_runs_done (hin : LoggedIn server connFd home) (hp : PathFits home (path.drop 2))
    (hd : digestOf md5 client.fs st.val (path.drop 2) = some hash)
    (hs : statusOf md5 peer.fs (home ++ slash :: path.drop 2) st.val hash = some status)
    (hne : status ≠ statusMore) (k : Unit → Code α) (a b : Bytes) :
    ∃ b', Runs (session md5 connFd server (syncFile md5 st.val path >>= k) client peer a b)
      (session md5 connFd server (k ()) client { peer.tick with
        fs := (Posix.utime (afterStatus peer.fs (home ++ slash :: path.drop 2) st.val)
          (home ++ slash :: path.drop 2) (stAtime st.val) (stMtime st.val)).2 }
        (a ++ syncRequest st.val hash (path.drop 2)) b') := by
  have hclient := talk_syncFile_verdict hd (statusOf_eq hs)
  rw [if_neg hne] at hclient
  have hserver := talk_serveMeta _ hin hp (digestOf_length hd)
    (talk_answerMeta_done (h := peer.tick) hs hne)
  have hruns := (meets_done ..).runs (hclient.bind k) hserver a b
  rw [show said [([], metaHead ++ metaBody (path.drop 2).length st.val hash), (metaHead, []),
      ([], path.drop 2), (verdict status, [])] = syncRequest st.val hash (path.drop 2) by
    simp [said, syncRequest]] at hruns
  exact ⟨_, hruns⟩

theorem sync_runs_file (hwait : LocksGranted F) (hfree : NoOtherLocks G)
    (hin : LoggedIn server connFd home) (hp : PathFits home (path.drop 2))
    (hd : digestOf md5 client.fs st.val (path.drop 2) = some hash)
    (hs : statusOf md5 peer.fs (home ++ slash :: path.drop 2) st.val hash = some statusMore)
    (hreg : sIsReg (stMode st.val) = true) {handle fp : Nat} {content : Bytes} {g : G}
    (hread : Posix.fopenRead client.fs path = some (handle, content))
    (hopen : Posix.fopenWrite peer.fs (home ++ slash :: path.drop 2) = some (fp, g))
    (k : Unit → Code α) (a b : Bytes) :
    ∃ b', Runs (session md5 connFd server (syncFile md5 st.val path >>= k) client peer a b)
      (session md5 connFd server (k ())
        { client with fs := afterSend client.fs st.val path }
        { peer.tick.tick with
          fs := (Posix.utime (storeFile g fp content)
            (home ++ slash :: path.drop 2) (stAtime st.val) (stMtime st.val)).2 }
        (a ++ (syncRequest st.val hash (path.drop 2) ++ chunkStream N content)) b') := by
  have hclient := talk_syncFile_verdict hd (.inr (rfl : statusMore = statusMore))
  rw [if_pos rfl] at hclient
  have hstream : fileStream client.fs st.val path = some (chunkStream N content) := by
    rw [fileStream, if_pos hreg, hread]
    rfl
  have hsend : Talk host (sendFile st.val path) client [([], chunkStream N content)] (ret ())
      { client with fs := afterSend client.fs st.val path } :=
    .one (exec_sendFile hwait rfl hstream)
  have hserver := talk_serveMeta _ hin hp (digestOf_length hd)
    (talk_answerMeta_file (h := peer.tick) hfree hs hreg hopen content)
  have hruns := (meets_transfer ..).runs ((hclient.trans hsend).bind k) hserver a b
  rw [show said ([([], metaHead ++ metaBody (path.drop 2).length st.val hash), (metaHead, []),
      ([], path.drop 2), (verdict statusMore, [])] ++ [([], chunkStream N content)]) =
        syncRequest st.val hash (path.drop 2) ++ chunkStream N content by
    simp [said, syncRequest]] at hruns
  exact ⟨_, hruns⟩

theorem sync_runs_link (hin : LoggedIn server connFd home) (hp : PathFits home (path.drop 2))
    (hd : digestOf md5 client.fs st.val (path.drop 2) = some hash)
    (hs : statusOf md5 peer.fs (home ++ slash :: path.drop 2) st.val hash = some statusMore)
    (hlnk : sIsLnk (stMode st.val) = true) {target : Bytes}
    (hread : Posix.readlink client.fs path N = some target) (hfit : target.length ≤ N)
    (k : Unit → Code α) (a b : Bytes) :
    ∃ b', Runs (session md5 connFd server (syncFile md5 st.val path >>= k) client peer a b)
      (session md5 connFd server (k ()) client
        { peer.tick.tick with
          fs := (Posix.utime (Posix.symlink peer.fs (cString (overlay (peer.tick.stale N).val target))
              (home ++ slash :: path.drop 2)).2
            (home ++ slash :: path.drop 2) (stAtime st.val) (stMtime st.val)).2 }
        (a ++ (syncRequest st.val hash (path.drop 2) ++ (fileMessage target.length ++ target))) b') := by
  have hclient := talk_syncFile_verdict hd (.inr (rfl : statusMore = statusMore))
  rw [if_pos rfl] at hclient
  have hreg : ¬sIsReg (stMode st.val) = true := fun h => by simp [not_lnk_of_reg h] at hlnk
  have hstream : fileStream client.fs st.val path = some (fileMessage target.length ++ target) := by
    rw [fileStream, if_neg hreg, if_pos hlnk, hread]
    rfl
  have hsend : Talk host (sendFile st.val path) client
      [([], fileMessage target.length ++ target)] (ret ()) client :=
    .one (exec_sendFile_unlocked hreg rfl hstream)
  have hserver := talk_serveMeta _ hin hp (digestOf_length hd)
    (talk_answerMeta_link (h := peer.tick) hs hlnk hfit)
  have hruns := (meets_transfer ..).runs ((hclient.trans hsend).bind k) hserver a b
  rw [show said ([([], metaHead ++ metaBody (path.drop 2).length st.val hash), (metaHead, []),
      ([], path.drop 2), (verdict statusMore, [])] ++ [([], fileMessage target.length ++ target)]) =
        syncRequest st.val hash (path.drop 2) ++ (fileMessage target.length ++ target) by
    simp [said, syncRequest]] at hruns
  exact ⟨_, hruns⟩

-- A server that is stopped before the verdict leaves the client waiting for it.
theorem sync_runs_halt (hd : digestOf md5 client.fs st.val (path.drop 2) = some hash) {e : Fault}
    {peer' : Host G}
    (hserver : Talk host (unroll (serveRound md5 connFd) server) peer
      [(metaHead, []), ([], metaHead), (metaBody (path.drop 2).length st.val hash, []),
        (path.drop 2, []), ([], [])] (halt e) peer') (k : Unit → Code α) (a b : Bytes) :
    ∃ c : Joint F G α, Runs
      (session md5 connFd server (syncFile md5 st.val path >>= k) client peer a b) c ∧
        c.leftState = client ∧ c.rightState = peer' ∧ c.right = halt e ∧ Waits c.left c.toLeft := by
  have hmeta : Talk host (sendMeta md5 st.val (path.drop 2)) client
      [([], metaHead ++ metaBody (path.drop 2).length st.val hash), (metaHead, []),
        ([], path.drop 2)] (ret ()) client :=
    talk_sendMeta hd (by simp) (by simp [statusMore, statusBusy])
  have hloop := ((exec_unroll (K := host) (s := client) awaitVerdict (zeros sizeofHeader)
    ⟨[], false⟩).bind fun header =>
      if headerStatus header = statusMore then sendFile st.val path else ret ()).bind k
  have hclient : Talk host (syncFile md5 st.val path >>= k) client
      [([], metaHead ++ metaBody (path.drop 2).length st.val hash), (metaHead, []),
        ([], path.drop 2)] _ client :=
    Talk.append (by simp) ((hmeta.bind _).bind k) hloop
  exact ⟨_, (meets_crash ..).runs hclient hserver a b, rfl, rfl, rfl, sizeofHeader, _, rfl,
    by simp [sizeofHeader]⟩

-- A regular file that cannot be opened is dereferenced as a null pointer.
theorem talk_serveMeta_null (hin : LoggedIn server connFd home) (hp : PathFits home (path.drop 2))
    (hhash : hash.length = 16)
    (hs : statusOf md5 peer.fs (home ++ slash :: path.drop 2) st.val hash = some statusMore)
    (hreg : sIsReg (stMode st.val) = true)
    (hopen : Posix.fopenWrite peer.fs (home ++ slash :: path.drop 2) = none) :
    Talk host (unroll (serveRound md5 connFd) server) peer
      [(metaHead, []), ([], metaHead), (metaBody (path.drop 2).length st.val hash, []),
        (path.drop 2, []), ([], [])] (halt .nullDeref) peer.tick.tick :=
  talk_serveMeta_halt _ hin hp hhash (talk_answerMeta_crash (h := peer.tick) hs hreg hopen)

theorem hardlink_runs (client : Host F) (peer : Host G) (st : Mem 144)
    (hin : LoggedIn server connFd home) {source target : Bytes}
    (hsource : PathFits home source) (htarget : PathFits home target) (k : Unit → Code α)
    (a b : Bytes) :
    ∃ a' b', Runs
      (session md5 connFd server ((Request.hardlink source target st).run md5 >>= k) client peer a b)
      (session md5 connFd server (k ()) client { peer.tick with
        fs := (Posix.utime (Posix.link peer.fs (home ++ slash :: source)
          (home ++ slash :: target)).2 (home ++ slash :: target) (stAtime st.val)
          (stMtime st.val)).2 } a' b') := by
  have hclient : Talk host ((Request.hardlink source target st).run md5) client
      ([([], hardlinkMessage source.length target.length), (hardlinkHead, []), ([], source),
        ([], target)] ++ [([], st.val)]) (ret ()) client :=
    Talk.seq (talk_sendHardlink (by simp) (by simp [statusBusy]) source target)
      ((talk_sendMessage st.val).bind _)
  have hdispatch := (talk_syncHardlink (h := peer) hin hsource htarget (header_length _ _ _ _ _)
    (headerDatalen_header magicReq opSyncHardlink 0 0 _ (by decide)) st.property).bind
      fun _ => (ret server : Code Server)
  rw [← dispatch_syncHardlink (by simp)] at hdispatch
  exact ⟨_, _, (meets_hardlink ..).runs (hclient.bind k)
    (talk_serve (by simp) (by simp) hdispatch) a b⟩

theorem remove_runs (client : Host F) (peer : Host G) (hin : LoggedIn server connFd home)
    (hp : PathFits home (path.drop 2))
    (k : Unit → Code α) (a b : Bytes) :
    ∃ a' b', Runs
      (session md5 connFd server ((Request.remove path).run md5 >>= k) client peer a b)
      (session md5 connFd server (k ()) client { peer.tick with
        fs := (Posix.remove peer.fs (home ++ slash :: path.drop 2)).2 } a' b') := by
  have hclient : Talk host (sendRm (path.drop 2)) client
      [([], rmMessage (path.drop 2).length), (rmHead, []), ([], path.drop 2)] (ret ()) client :=
    talk_sendRm (by simp) (by simp [statusBusy]) (path.drop 2)
  have hdispatch := (talk_rm (h := peer) hin hp (header_length _ _ _ _ _)
    (headerDatalen_header magicReq opRm 0 0 _ (by decide))).bind fun _ => (ret server : Code Server)
  rw [← dispatch_rm (by simp)] at hdispatch
  exact ⟨_, _, (meets_remove ..).runs (hclient.bind k)
    (talk_serve (by simp) (by simp) hdispatch) a b⟩

end Sync

end Csiebox.Session
