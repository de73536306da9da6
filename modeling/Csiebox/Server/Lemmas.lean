import Csiebox.Server
import Csiebox.Send.Lemmas

namespace Csiebox

open CBytes Program Prog

section Chunks

-- The pieces in which `send_file` sends a content.
def chunksOf (chunk : Nat) (content : Bytes) : List Bytes :=
  if 0 < chunk ∧ chunk ≤ content.length then
    content.take chunk :: chunksOf chunk (content.drop chunk)
  else [content]
termination_by content.length
decreasing_by
  rw [List.length_drop]
  omega

theorem chunksOf_flatten (chunk : Nat) (content : Bytes) :
    (chunksOf chunk content).flatten = content := by
  induction hn : content.length using Nat.strong_induction_on generalizing content with
  | _ n ih =>
      subst hn
      rw [chunksOf]
      split_ifs with h
      · rw [List.flatten_cons, ih (content.drop chunk).length (by rw [List.length_drop]; omega) _ rfl,
          List.take_append_drop]
      · simp

variable {F : Type} [Posix F] {h : Host F}

def writeChunks (f : F) (fp : Nat) (chunks : List Bytes) : F :=
  chunks.foldl (fun f bs => Posix.fwrite f fp bs) f

-- One round on a complete chunk.
theorem exec_receiveChunk (chunk fp : Nat) {req : Bytes} (buf payload rest : Bytes) {c : Bool}
    (hreq : req.length = sizeofFile) (hfit : payload.length ≤ buf.length)
    (hbig : payload.length < 2 ^ 64) :
    Exec host ⟨receiveChunk chunk fp (req, buf), h,
        ⟨fileMessage payload.length ++ (payload ++ rest), c⟩⟩ []
      ⟨ret (if payload.length = chunk then
            .inl (fileMessage payload.length, overlay buf payload) else .inr ()),
        { h with fs := Posix.fwrite h.fs fp payload }, ⟨rest, c⟩⟩ := by
  have hdatalen : fileDatalen (fileMessage payload.length) = payload.length :=
    fileDatalen_fileMessage hbig
  refine Exec.after (exec_recvMessage_full _ (fileMessage_length _) hreq (by decide)) ?_
  refine Exec.after (exec_recvMessage _ hdatalen.symm (by rw [hdatalen]; exact hfit)) ?_
  simp only [hdatalen, overlay_length hfit, checkSize_pos hfit, ret_bind]
  refine Exec.after (exec_sys rfl) ?_
  rw [show (overlay buf payload).take payload.length = payload by simp [overlay]]
  exact .refl _

theorem exec_receiveChunks {chunk : Nat} (hchunk : 0 < chunk) (hbig : chunk < 2 ^ 64) (fp : Nat)
    {req buf : Bytes} {c : Bool} (hreq : req.length = sizeofFile) (hbuf : chunk ≤ buf.length)
    (content rest : Bytes) :
    Exec host ⟨receiveChunks chunk fp req buf, h, ⟨chunkStream chunk content ++ rest, c⟩⟩ []
      ⟨ret (), { h with fs := writeChunks h.fs fp (chunksOf chunk content) }, ⟨rest, c⟩⟩ := by
  induction hn : content.length using Nat.strong_induction_on generalizing content h req buf with
  | _ n ih =>
      subst hn
      rw [chunkStream, chunksOf]
      by_cases hfull : chunk ≤ content.length
      · have htake : (content.take chunk).length = chunk := List.length_take_of_le hfull
        have hround := exec_receiveChunk (h := h) (c := c) chunk fp buf (content.take chunk)
          (chunkStream chunk (content.drop chunk) ++ rest) hreq (htake.trans_le hbuf) (by omega)
        rw [if_pos htake, htake] at hround
        have hrest := ih (h := { h with fs := Posix.fwrite h.fs fp (content.take chunk) })
          (content.drop chunk).length (by rw [List.length_drop]; omega)
          (fileMessage_length chunk)
          ((overlay_length (htake.trans_le hbuf)).symm ▸ hbuf) _ rfl
        rw [if_pos ⟨hchunk, hfull⟩, if_pos ⟨hchunk, hfull⟩, List.append_assoc, List.append_assoc]
        exact (exec_iter_more hround).trans hrest
      · have hround := exec_receiveChunk (h := h) (c := c) chunk fp buf content rest hreq
          (by omega) (by omega)
        rw [if_neg (by omega)] at hround
        rw [if_neg (fun h => hfull h.2), if_neg (fun h => hfull h.2), List.append_assoc]
        exact exec_iter_done hround

end Chunks

section Status

variable {F : Type} [Posix F] (md5 : Bytes → Mem 16)

-- The status of the reply to SYNC_META; `none` is a crash in `md5_file`.
def statusOf (g : F) (filepath st hash : Bytes) : Option UInt8 :=
  let answer := fun digest => if hash = digest then statusOk else statusMore
  if sIsDir (stMode st) then some statusOk
  else if sIsLnk (stMode st) then
    match Posix.readlink g filepath pathMax with
    | none => some (answer (zeros 16))
    | some target => some (answer (md5 target).val)
  else if sIsReg (stMode st) then
    match Posix.reads g filepath with
    | none => some (answer (zeros 16))
    | some rs => (hashedBytes rs).map fun bs => answer (md5 bs).val
  else some statusOk

def afterStatus (g : F) (filepath st : Bytes) : F :=
  if sIsDir (stMode st) then (Posix.mkdir g filepath homeMode).2 else g

variable {md5} {h : Host F} {l : Link UInt8} {filepath st hash : Bytes} {status : UInt8}

theorem exec_metaStatus (hs : statusOf md5 h.fs filepath st hash = some status) :
    Exec host ⟨metaStatus md5 filepath st hash, h, l⟩ []
      ⟨ret status, { h with fs := afterStatus h.fs filepath st }, l⟩ := by
  unfold statusOf at hs
  unfold metaStatus afterStatus
  by_cases hdir : sIsDir (stMode st)
  · simp only [hdir, if_true, Option.some.injEq] at hs ⊢
    subst hs
    exact Exec.after (exec_sys rfl) (.refl _)
  · simp only [hdir, Bool.false_eq_true, if_false] at hs ⊢
    by_cases hlnk : sIsLnk (stMode st)
    · simp only [hlnk, if_true] at hs ⊢
      refine Exec.after (exec_sys rfl) ?_
      cases hread : Posix.readlink h.fs filepath pathMax <;> simp only [hread] at hs ⊢ <;>
        cases hs <;> exact .refl _
    · simp only [hlnk, Bool.false_eq_true, if_false] at hs ⊢
      by_cases hreg : sIsReg (stMode st)
      · simp only [hreg, if_true] at hs ⊢
        cases hreads : Posix.reads h.fs filepath with
        | none =>
            simp only [hreads, Option.some.injEq] at hs
            subst hs
            refine Exec.after (exec_md5File_absent hreads) ?_
            simpa using Exec.refl _
        | some rs =>
            simp only [hreads] at hs
            obtain ⟨bs, hbytes, rfl⟩ := Option.map_eq_some_iff.mp hs
            refine Exec.after (exec_md5File hreads hbytes) ?_
            simpa using Exec.refl _
      · simp only [hreg, Bool.false_eq_true, if_false, Option.some.injEq] at hs ⊢
        subst hs
        exact .refl _

theorem exec_metaStatus_crash (hs : statusOf md5 h.fs filepath st hash = none) :
    Exec host ⟨metaStatus md5 filepath st hash, h, l⟩ [] ⟨halt .overrun, h, l⟩ := by
  unfold statusOf at hs
  unfold metaStatus
  split_ifs at hs with hdir hlnk hreg
  · split at hs <;> simp at hs
  · rw [if_neg hdir, if_neg hlnk, if_pos hreg]
    cases hreads : Posix.reads h.fs filepath with
    | none => simp [hreads] at hs
    | some rs =>
        simp only [hreads] at hs
        have hbytes := Option.map_eq_none_iff.mp hs
        exact (exec_md5File_crash hreads hbytes).bind _

-- Only a symbolic link or a regular file is asked for.
theorem kind_of_more {g : F} (hs : statusOf md5 g filepath st hash = some statusMore) :
    sIsLnk (stMode st) = true ∨ sIsReg (stMode st) = true := by
  by_contra hkind
  simp only [not_or, Bool.not_eq_true] at hkind
  simp only [statusOf, hkind.1, hkind.2, Bool.false_eq_true, if_false, ite_self] at hs
  exact absurd (Option.some.inj hs) (by decide)

theorem statusOf_eq {g : F} (hs : statusOf md5 g filepath st hash = some status) :
    status = statusOk ∨ status = statusMore := by
  have hanswer : ∀ digest : Bytes, (if hash = digest then statusOk else statusMore) = statusOk ∨
      (if hash = digest then statusOk else statusMore) = statusMore := by
    intro digest
    split_ifs <;> simp
  unfold statusOf at hs
  split_ifs at hs
  · exact .inl (Option.some.inj hs).symm
  · split at hs <;> cases hs <;> exact hanswer _
  · split at hs
    · cases hs
      exact hanswer _
    · obtain ⟨bs, -, rfl⟩ := Option.map_eq_some_iff.mp hs
      exact hanswer _
  · exact .inl (Option.some.inj hs).symm

end Status

section Answer

variable {F : Type} [Posix F] {md5 : Bytes → Mem 16} {h : Host F}
  {filepath header st hash target content : Bytes}

-- No other process holds a lock on a file of this system.
def NoOtherLocks (F : Type) [Posix F] : Prop :=
  ∀ (f : F) fp fl, (Posix.getlk f fp fl).type = .unlck

-- What the transfer leaves in an opened file.
def storeFile (g : F) (fp : Nat) (content : Bytes) : F :=
  let fl := { Posix.getlk g fp Flock.zero with type := .wrlck, start := 0, len := 0 }
  let g := writeChunks (Posix.setlk g fp fl).2 fp (chunksOf N content)
  Posix.fclose (Posix.setlk g fp { fl with type := .unlck }).2 fp

theorem talk_pollLock (hfree : NoOtherLocks F) (header : Bytes) (fp : Nat) :
    Talk host (pollLock fp header) h [([], header)]
      (ret (Posix.getlk h.fs fp Flock.zero)) h := by
  have hround : Talk host (pollLockRound fp header Flock.zero) h [([], header)]
      (ret (if (Posix.getlk h.fs fp Flock.zero).type = .unlck then
          .inr (Posix.getlk h.fs fp Flock.zero) else .inl (Posix.getlk h.fs fp Flock.zero))) h :=
    Talk.after (exec_sys rfl) ((talk_sendMessage header).bind _)
  rw [if_pos (hfree _ _ _)] at hround
  exact talk_iter_done hround

theorem talk_receiveFile (hfree : NoOtherLocks F) {fp : Nat} {g : F}
    (hopen : Posix.fopenWrite h.fs filepath = some (fp, g)) (content : Bytes) :
    Talk host (receiveFile filepath header) h [([], header), (chunkStream N content, [])] (ret ())
      { h.tick with fs := storeFile g fp content } := by
  obtain ⟨buf, hbuf⟩ := exec_uninit (h := h) (l := ⟨[], false⟩) N
  have hfopen : Exec host ⟨(sys (.fopenWrite filepath) : Code (Option Nat)), h.tick, ⟨[], false⟩⟩ []
      ⟨ret (some fp), { h.tick with fs := g }, ⟨[], false⟩⟩ :=
    exec_sys (by simp [host, Host.exec, hopen])
  have hchunks := fun h : Host F => exec_receiveChunks (h := h) (c := false) (by decide)
    (by decide) fp (zeros_length sizeofFile) buf.property.ge content []
  simp only [List.append_nil] at hchunks
  refine Talk.after hbuf (Talk.after hfopen (Talk.seq (talk_pollLock hfree header fp) (.one ?_)))
  refine Exec.after (exec_sys rfl) ?_
  exact Exec.after (hchunks _) (Exec.after (exec_sys rfl) (exec_sys rfl))

-- The target is the counted bytes with what the buffer holds behind them.
theorem talk_receiveLink (filepath header : Bytes) (hfit : target.length ≤ N) :
    Talk host (receiveLink filepath header) h
      [([], header), (fileMessage target.length ++ target, [])] (ret ())
      { h.tick with fs := (Posix.symlink h.fs (cString (overlay (h.stale N).val target)) filepath).2 } := by
  have hdatalen : fileDatalen (fileMessage target.length) = target.length :=
    fileDatalen_fileMessage (hfit.trans_lt (by decide))
  refine Talk.after (exec_stale N) (Talk.seq (talk_sendMessage header) (.one ?_))
  refine Exec.after (exec_recvMessage_full _ (fileMessage_length _) (zeros_length _) (by decide)) ?_
  have hrecv := exec_recvAll (K := host) (s := h.tick) hdatalen.symm
    ((hdatalen.trans_le hfit).trans (h.stale N).property.ge)
  exact Exec.after hrecv (Exec.after (exec_sys rfl) (.refl _))

-- The verdict that `handle_request` sends.
def verdict (status : UInt8) : Bytes := Csiebox.header magicRes opSyncMeta status 0 0

theorem talk_answerMeta_done {status : UInt8}
    (hs : statusOf md5 h.fs filepath st hash = some status) (hne : status ≠ statusMore) :
    Talk host (answerMeta md5 filepath st hash) h [([], verdict status)] (ret ())
      { h with fs := afterStatus h.fs filepath st } := by
  refine Talk.after (exec_metaStatus hs) ?_
  rw [if_neg hne]
  exact (talk_sendMessage _).bind _

theorem talk_answerMeta_file (hfree : NoOtherLocks F) {fp : Nat} {g : F}
    (hs : statusOf md5 h.fs filepath st hash = some statusMore) (hreg : sIsReg (stMode st) = true)
    (hopen : Posix.fopenWrite h.fs filepath = some (fp, g)) (content : Bytes) :
    Talk host (answerMeta md5 filepath st hash) h
      [([], verdict statusMore), (chunkStream N content, [])] (ret ())
      { h.tick with fs := storeFile g fp content } := by
  have hsame : afterStatus h.fs filepath st = h.fs := by simp [afterStatus, not_dir_of_reg hreg]
  refine Talk.after (exec_metaStatus hs) ?_
  rw [if_pos rfl, not_lnk_of_reg hreg, hreg, hsame]
  exact talk_receiveFile hfree hopen content

theorem talk_answerMeta_crash (hs : statusOf md5 h.fs filepath st hash = some statusMore)
    (hreg : sIsReg (stMode st) = true) (hopen : Posix.fopenWrite h.fs filepath = none) :
    Talk host (answerMeta md5 filepath st hash) h [([], [])] (halt .nullDeref) h.tick := by
  have hsame : afterStatus h.fs filepath st = h.fs := by simp [afterStatus, not_dir_of_reg hreg]
  obtain ⟨buf, hbuf⟩ := exec_uninit (h := h) (l := ⟨[], false⟩) N
  have hfopen : Exec host ⟨(sys (.fopenWrite filepath) : Code (Option Nat)), h.tick, ⟨[], false⟩⟩ []
      ⟨ret none, h.tick, ⟨[], false⟩⟩ :=
    exec_sys (by simp [host, Host.exec, hopen])
  refine .one (Exec.after (exec_metaStatus hs) ?_)
  rw [if_pos rfl, not_lnk_of_reg hreg, hreg, hsame]
  exact Exec.after hbuf (Exec.after hfopen (.refl _))

theorem talk_answerMeta_link (hs : statusOf md5 h.fs filepath st hash = some statusMore)
    (hlnk : sIsLnk (stMode st) = true) (hfit : target.length ≤ N) :
    Talk host (answerMeta md5 filepath st hash) h
      [([], verdict statusMore), (fileMessage target.length ++ target, [])] (ret ())
      { h.tick with fs := (Posix.symlink h.fs (cString (overlay (h.stale N).val target)) filepath).2 } := by
  have hsame : afterStatus h.fs filepath st = h.fs := by simp [afterStatus, not_dir_of_lnk hlnk]
  refine Talk.after (exec_metaStatus hs) ?_
  rw [if_pos rfl, if_pos hlnk, hsame]
  exact talk_receiveLink filepath (verdict statusMore) hfit

theorem talk_answerMeta_unread (hs : statusOf md5 h.fs filepath st hash = none) :
    Talk host (answerMeta md5 filepath st hash) h [([], [])] (halt .overrun) h :=
  .one ((exec_metaStatus_crash hs).bind _)

-- The server asks for a file and waits for its first header.
theorem talk_receiveFile_waits (hfree : NoOtherLocks F) (header : Bytes) {fp : Nat} {g : F}
    (hopen : Posix.fopenWrite h.fs filepath = some (fp, g)) :
    ∃ q g', Talk host (receiveFile filepath header) h [([], header), ([], [])] q
      { h.tick with fs := g' } ∧ Waits q [] := by
  obtain ⟨buf, hbuf⟩ := exec_uninit (h := h) (l := ⟨[], false⟩) N
  have hfopen : Exec host ⟨(sys (.fopenWrite filepath) : Code (Option Nat)), h.tick, ⟨[], false⟩⟩ []
      ⟨ret (some fp), { h.tick with fs := g }, ⟨[], false⟩⟩ :=
    exec_sys (by simp [host, Host.exec, hopen])
  have hpoll := talk_pollLock (h := { h.tick with fs := g }) hfree header fp
  let fl := { Posix.getlk g fp Flock.zero with type := .wrlck, start := 0, len := 0 }
  have hlock := exec_sys (K := host) (s := { h.tick with fs := g }) (β := UInt8) (ε := Fault)
    (l := ⟨[], false⟩) (o := .setlk fp fl) rfl
  have hloop := (exec_unroll (K := host) (s := { h.tick with fs := (Posix.setlk g fp fl).2 })
    (receiveChunk N fp) (zeros sizeofFile, buf.val) ⟨[], false⟩).bind fun _ => do
      let _ ← sys (.setlk fp { fl with type := .unlck })
      sys (.fclose fp)
  refine ⟨_, (Posix.setlk g fp fl).2, Talk.after hbuf (Talk.after hfopen
    (Talk.seq hpoll (.one (Exec.after hlock hloop)))), sizeofFile, _, rfl, ?_⟩
  simp [sizeofFile]

theorem talk_receiveLink_waits (filepath header : Bytes) :
    ∃ q, Talk host (receiveLink filepath header) h [([], header), ([], [])] q h.tick ∧
      Waits q [] := by
  obtain ⟨buf, hbuf⟩ := exec_uninit (h := h) (l := ⟨[], false⟩) N
  exact ⟨_, Talk.after hbuf (Talk.seq (talk_sendMessage header) (.one (.refl _))), sizeofFile, _, rfl,
    by simp [sizeofFile]⟩

-- The server's side of a transfer that does not come.
theorem talk_answerMeta_waits (hfree : NoOtherLocks F)
    (hs : statusOf md5 h.fs filepath st hash = some statusMore)
    (hopens : sIsReg (stMode st) = true → ∃ opened, Posix.fopenWrite h.fs filepath = some opened) :
    ∃ q h', Talk host (answerMeta md5 filepath st hash) h [([], verdict statusMore), ([], [])] q h' ∧
      h'.notices = h.notices ∧ Waits q [] := by
  rcases kind_of_more hs with hlnk | hreg
  · have hsame : afterStatus h.fs filepath st = h.fs := by simp [afterStatus, not_dir_of_lnk hlnk]
    obtain ⟨q, hlink, hwaits⟩ := talk_receiveLink_waits (h := h) filepath (verdict statusMore)
    refine ⟨q, h.tick, Talk.after (exec_metaStatus hs) ?_, rfl, hwaits⟩
    rw [if_pos rfl, if_pos hlnk, hsame]
    exact hlink
  · have hsame : afterStatus h.fs filepath st = h.fs := by simp [afterStatus, not_dir_of_reg hreg]
    obtain ⟨⟨fp, g⟩, hopen⟩ := hopens hreg
    obtain ⟨q, g', hfile, hwaits⟩ := talk_receiveFile_waits (h := h) hfree
      (verdict statusMore) hopen
    refine ⟨q, { h.tick with fs := g' }, Talk.after (exec_metaStatus hs) ?_, rfl, hwaits⟩
    rw [if_pos rfl, not_lnk_of_reg hreg, hreg, hsame]
    exact hfile

end Answer

section Requests

variable {F : Type} [Posix F] {md5 : Bytes → Mem 16} {h h' : Host F} {server : Server}
  {connFd : Nat} {home head path st hash : Bytes}

-- The connection belongs to a user whose home directory is `home`.
structure LoggedIn (server : Server) (connFd : Nat) (home : Bytes) : Prop where
  entry : ∃ info, server.client connFd = some info ∧ home = homeOf server.path (clientUser info)
  fits : home.length + 1 < pathMax

-- A path that the server can take up behind `home`.
structure PathFits (home path : Bytes) : Prop where
  noNul : ∀ b ∈ path, b ≠ 0
  fits : home.length + 1 + path.length < pathMax

theorem getUserHomedir_eq (hin : LoggedIn server connFd home) :
    getUserHomedir server (server.client connFd) = ret home := by
  obtain ⟨info, hentry, rfl⟩ := hin.entry
  have hfit := hin.fits
  rw [hentry, getUserHomedir]
  simp only [userString]
  rw [checkSize_pos (by omega), ret_bind]

theorem strcat_slash (hin : LoggedIn server connFd home) :
    strcat home [slash] = ret (home ++ [slash]) :=
  strcat_fits hin.fits

theorem strcat_path (hp : PathFits home path) :
    strcat (home ++ [slash]) (overlay (zeros (path.length + 1)) path) =
      ret (home ++ slash :: path) := by
  have hfit := hp.fits
  rw [strcat_fits] <;> rw [cString_received hp.noNul]
  · simp
  · simpa using hfit

theorem PathFits.length_lt (hp : PathFits home path) : path.length < pathMax := by
  have hfit := hp.fits
  omega

theorem strcat_overlong {n : Nat} (hnul : ∀ b ∈ path, b ≠ 0)
    (hlong : ¬home.length + 1 + path.length < pathMax) :
    strcat (home ++ [slash]) (overlay (zeros n) path) = halt .overrun := by
  rw [strcat, cString_overlay, cString_eq_self hnul, checkSize_neg (by simpa using hlong), halt_bind]

-- The requests with paths begin alike: the echo of the header, the home directory, the body.
theorem talk_body {size : Nat} {body : Bytes} {f : Bytes → Bool × Bytes → Code Unit} {q : Code Unit}
    {rounds : List (Bytes × Bytes)} (hin : LoggedIn server connFd home)
    (hhead : head.length = sizeofHeader) (hlen : headerDatalen head = size - sizeofHeader)
    (hbody : body.length = size - sizeofHeader) (hsize : sizeofHeader ≤ size)
    (hrest : Talk host (f (home ++ [slash]) (true, head ++ body)) h.tick rounds q h') :
    Talk host (do
        let _ ← sendMessage head
        let filepath ← getUserHomedir server (server.client connFd)
        let filepath ← strcat filepath [slash]
        let message ← sys (.uninit size)
        let r ← completeMessageWithHeader head message.val
        f filepath r) h (([], head) :: (body, []) :: rounds) q h' := by
  obtain ⟨buf, hbuf⟩ := exec_uninit (h := h) (l := ⟨[], false⟩) size
  have hcomplete := exec_completeMessage (K := host) (s := h.tick) (c := false) []
    (hbody.trans hlen.symm) hhead (buf.property.trans (by omega))
  rw [List.append_nil] at hcomplete
  refine Talk.seq (talk_sendMessage head) ?_
  rw [getUserHomedir_eq hin, ret_bind, strcat_slash hin, ret_bind]
  exact Talk.after hbuf (Talk.seq (.one hcomplete) hrest)

-- A SYNC_META request behind its header up to the path.
theorem talk_syncMeta_path (hin : LoggedIn server connFd home) (hsmall : path.length < pathMax)
    (hhead : head.length = sizeofHeader) (hlen : headerDatalen head = sizeofMeta - sizeofHeader)
    (hst : st.length = sizeofStat) (hhash : hash.length = 16) :
    Talk host (syncMeta md5 server connFd head) h
      [([], head), (metaBody path.length st hash, []), (path, [])]
      (do
        let filepath ← strcat (home ++ [slash]) (overlay (zeros (path.length + 1)) path)
        answerMeta md5 filepath st hash
        let _ ← sys (.utime filepath (stAtime st) (stMtime st))
        ret ()) h.tick := by
  have hpath : path.length < 4096 := hsmall
  refine talk_body hin hhead hlen (metaBody_length path.length hst hhash) (by decide) ?_
  simp only [if_true, metaPathlen_body hhead (show path.length < 2 ^ 32 by omega),
    metaStat_body hhead hst, metaHash_body hhead hst hhash]
  rw [checkSize_pos (by omega), ret_bind]
  exact Talk.seq (.one (exec_recvAll rfl (by simp))) (.nil _ _)

-- The rest of it where the path fits: the answer, wherever it ends.
theorem talk_syncMeta_answer (hin : LoggedIn server connFd home) (hp : PathFits home path)
    (hhead : head.length = sizeofHeader) (hlen : headerDatalen head = sizeofMeta - sizeofHeader)
    (hst : st.length = sizeofStat) (hhash : hash.length = 16)
    {inp out : Bytes} {rounds : List (Bytes × Bytes)} {q : Code Unit}
    (hanswer : Talk host (answerMeta md5 (home ++ slash :: path) st hash) h.tick
      ((inp, out) :: rounds) q h') :
    Talk host (syncMeta md5 server connFd head) h
      (([], head) :: (metaBody path.length st hash, []) :: (path, []) :: (inp, out) :: rounds)
      (q >>= fun _ => do
        let _ ← sys (.utime (home ++ slash :: path) (stAtime st) (stMtime st))
        ret ()) h' := by
  refine (talk_syncMeta_path hin hp.length_lt hhead hlen hst hhash).trans ?_
  simp only [strcat_path hp, ret_bind]
  exact hanswer.bind _

-- A path that does not fit is written over the end of the array.
theorem talk_syncMeta_overlong (hin : LoggedIn server connFd home) (hsmall : path.length < pathMax)
    (hnul : ∀ b ∈ path, b ≠ 0) (hlong : ¬home.length + 1 + path.length < pathMax)
    (hhead : head.length = sizeofHeader) (hlen : headerDatalen head = sizeofMeta - sizeofHeader)
    (hst : st.length = sizeofStat) (hhash : hash.length = 16) :
    Talk host (syncMeta md5 server connFd head) h
      [([], head), (metaBody path.length st hash, []), (path, []), ([], [])]
      (halt .overrun) h.tick := by
  refine (talk_syncMeta_path hin hsmall hhead hlen hst hhash).trans (.one ?_)
  rw [strcat_overlong hnul hlong]
  exact .refl _

theorem talk_syncMeta (hin : LoggedIn server connFd home) (hp : PathFits home path)
    (hhead : head.length = sizeofHeader) (hlen : headerDatalen head = sizeofMeta - sizeofHeader)
    (hst : st.length = sizeofStat) (hhash : hash.length = 16)
    {inp out : Bytes} {rounds : List (Bytes × Bytes)}
    (hanswer : Talk host (answerMeta md5 (home ++ slash :: path) st hash) h.tick
      ((inp, out) :: rounds) (ret ()) h') :
    Talk host (syncMeta md5 server connFd head) h
      (([], head) :: (metaBody path.length st hash, []) :: (path, []) ::
        ((inp, out) :: rounds ++ [([], [])]))
      (ret ()) { h' with
        fs := (Posix.utime h'.fs (home ++ slash :: path) (stAtime st) (stMtime st)).2 } := by
  refine (talk_syncMeta_answer hin hp hhead hlen hst hhash hanswer).trans (.one ?_)
  rw [ret_bind]
  exact Exec.after (exec_sys rfl) (.refl _)

theorem length_mod {n : Nat} (hsmall : n < pathMax) : (n + 1) % 2 ^ 32 = n + 1 := by
  have hn : n < 4096 := hsmall
  exact Nat.mod_eq_of_lt (by omega)

theorem exec_recvPath {σ : Type} {K : Kernel Sys σ} {s : σ} (hsmall : path.length < pathMax) :
    Exec K ⟨recvMessage (zeros ((path.length + 1) % 2 ^ 32)) path.length, s, ⟨path, false⟩⟩ []
      ⟨ret (decide (0 < path.length), overlay (zeros (path.length + 1)) path), s,
        ⟨[], false⟩⟩ := by
  rw [length_mod hsmall]
  exact exec_recvAll rfl (by simp)

-- A SYNC_HARDLINK request behind its header up to the last receive.
theorem talk_syncHardlink_received {target : Bytes} (hin : LoggedIn server connFd home)
    (hpath : path.length < pathMax) (htarget : target.length < pathMax)
    (hhead : head.length = sizeofHeader)
    (hlen : headerDatalen head = sizeofHardlink - sizeofHeader) (hst : st.length = sizeofStat) :
    Talk host (syncHardlink server connFd head) h
      [([], head), (hardlinkBody path.length target.length, []), (path, []), (target, []), (st, [])]
      (do
        let source ← strcat (home ++ [slash]) (overlay (zeros (path.length + 1)) path)
        let target ← strcat (home ++ [slash]) (overlay (zeros (target.length + 1)) target)
        let _ ← sys (.link source target)
        let _ ← sys (.utime target (stAtime st) (stMtime st))
        ret ()) h.tick := by
  have hpath' : path.length < 4096 := hpath
  have htarget' : target.length < 4096 := htarget
  refine talk_body hin hhead hlen (hardlinkBody_length path.length target.length) (by decide) ?_
  simp only [if_true, hardlinkSrclen_body hhead (show path.length < 2 ^ 32 by omega),
    hardlinkTargetlen_body hhead (show target.length < 2 ^ 32 by omega)]
  refine Talk.seq (.one (exec_recvPath hpath)) (Talk.seq (.one (exec_recvPath htarget)) ?_)
  exact Talk.seq (talk_recvMessage hst (zeros_length _) (by decide)) (.nil _ _)

theorem talk_syncHardlink {target : Bytes} (hin : LoggedIn server connFd home)
    (hp : PathFits home path) (ht : PathFits home target) (hhead : head.length = sizeofHeader)
    (hlen : headerDatalen head = sizeofHardlink - sizeofHeader) (hst : st.length = sizeofStat) :
    Talk host (syncHardlink server connFd head) h
      [([], head), (hardlinkBody path.length target.length, []), (path, []), (target, []), (st, []),
        ([], [])]
      (ret ()) { h.tick with
        fs := (Posix.utime (Posix.link h.fs (home ++ slash :: path) (home ++ slash :: target)).2
          (home ++ slash :: target) (stAtime st) (stMtime st)).2 } := by
  refine (talk_syncHardlink_received hin hp.length_lt ht.length_lt hhead hlen hst).trans (.one ?_)
  simp only [strcat_path hp, strcat_path ht, ret_bind]
  exact Exec.after (exec_sys rfl) (Exec.after (exec_sys rfl) (.refl _))

theorem talk_syncHardlink_overlong {target : Bytes} (hin : LoggedIn server connFd home)
    (hp : PathFits home path) (htarget : target.length < pathMax) (hnul : ∀ b ∈ target, b ≠ 0)
    (hlong : ¬home.length + 1 + target.length < pathMax) (hhead : head.length = sizeofHeader)
    (hlen : headerDatalen head = sizeofHardlink - sizeofHeader) (hst : st.length = sizeofStat) :
    Talk host (syncHardlink server connFd head) h
      [([], head), (hardlinkBody path.length target.length, []), (path, []), (target, []), (st, []),
        ([], [])]
      (halt .overrun) h.tick := by
  refine (talk_syncHardlink_received hin hp.length_lt htarget hhead hlen hst).trans (.one ?_)
  simp only [strcat_path hp, strcat_overlong hnul hlong, ret_bind]
  exact .refl _

theorem talk_rm (hin : LoggedIn server connFd home) (hp : PathFits home path)
    (hhead : head.length = sizeofHeader) (hlen : headerDatalen head = sizeofRm - sizeofHeader) :
    Talk host (rm server connFd head) h
      [([], head), (leBytes 4 path.length, []), (path, []), ([], [])]
      (ret ()) { h.tick with fs := (Posix.remove h.fs (home ++ slash :: path)).2 } := by
  have hpath : path.length < 4096 := hp.length_lt
  refine talk_body hin hhead hlen (leBytes_length 4 path.length) (by decide) ?_
  simp only [if_true, rmPathlen_body hhead (show path.length < 2 ^ 32 by omega)]
  refine Talk.seq (.one (exec_recvPath hp.length_lt)) ?_
  simp only [strcat_path hp, ret_bind]
  exact .one (Exec.after (exec_sys rfl) (.refl _))

-- One round of the server's loop: the header is taken from the connection, the
-- rest is the request's own talk.
theorem talk_serve {server' : Server} {rounds : List (Bytes × Bytes)}
    (hhead : head.length = sizeofHeader) (hmagic : headerMagic head = magicReq)
    (htalk : Talk host (dispatch md5 server connFd head) h rounds (ret server') h') :
    Talk host (unroll (serveRound md5 connFd) server) h ((head, []) :: rounds)
      (unroll (serveRound md5 connFd) server') h' := by
  have hrequest : Talk host (handleRequest md5 server connFd) h ((head, []) :: rounds)
      (ret server') h' := by
    refine Talk.seq (talk_recvMessage hhead (zeros_length _) (by decide)) ?_
    simp only [if_true, hmagic, ne_eq, not_true_eq_false, if_false]
    exact htalk
  exact talk_unroll (by simp) (hrequest.bind _)

-- A round up to some point, and the way from the end of its request to the next
-- header.
theorem talk_serve_part {rounds : List (Bytes × Bytes)} {q : Code Server}
    (hhead : head.length = sizeofHeader) (hmagic : headerMagic head = magicReq)
    (htalk : Talk host (dispatch md5 server connFd head) h rounds q h') :
    ∃ k : Server → Code Unit,
      (∀ (server : Server) (g : Host F), Exec host ⟨k server, g, ⟨[], false⟩⟩ []
        ⟨unroll (serveRound md5 connFd) server, g, ⟨[], false⟩⟩) ∧
      Talk host (unroll (serveRound md5 connFd) server) h ((head, []) :: rounds) (q >>= k) h' := by
  have hrequest : Talk host (handleRequest md5 server connFd) h ((head, []) :: rounds) q h' := by
    refine Talk.seq (talk_recvMessage hhead (zeros_length _) (by decide)) ?_
    simp only [if_true, hmagic, ne_eq, not_true_eq_false, if_false]
    exact htalk
  have hround : Talk host (unroll (serveRound md5 connFd) server) h ((head, []) :: rounds) _ h' :=
    (hrequest.bind _).bind _
  rw [bind_assoc] at hround
  exact ⟨_, fun server g => exec_unroll (serveRound md5 connFd) server ⟨[], false⟩, hround⟩

theorem talk_serve_halt {rounds : List (Bytes × Bytes)} {e : Fault}
    (hhead : head.length = sizeofHeader) (hmagic : headerMagic head = magicReq)
    (htalk : Talk host (dispatch md5 server connFd head) h rounds (halt e) h') :
    Talk host (unroll (serveRound md5 connFd) server) h ((head, []) :: rounds) (halt e) h' := by
  obtain ⟨k, -, hround⟩ := talk_serve_part hhead hmagic htalk
  exact hround

theorem dispatch_syncMeta (hop : headerOp head = opSyncMeta) :
    dispatch md5 server connFd head =
      (syncMeta md5 server connFd head >>= fun _ => ret server) := by
  rw [dispatch, hop, if_neg (by decide), if_pos rfl]

theorem dispatch_syncHardlink (hop : headerOp head = opSyncHardlink) :
    dispatch md5 server connFd head =
      (syncHardlink server connFd head >>= fun _ => ret server) := by
  rw [dispatch, hop, if_neg (by decide), if_neg (by decide), if_pos rfl]

theorem dispatch_rm (hop : headerOp head = opRm) :
    dispatch md5 server connFd head = (rm server connFd head >>= fun _ => ret server) := by
  rw [dispatch, hop, if_neg (by decide), if_neg (by decide), if_neg (by decide), if_pos rfl]

end Requests

end Csiebox
