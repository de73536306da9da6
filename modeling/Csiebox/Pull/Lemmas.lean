import Csiebox.Pull
import Csiebox.Server.Lemmas

namespace Csiebox.Pull

open CBytes Program Prog Session

-- The header in front of every entry, and what the client makes of it.
abbrev announcement : Bytes := header 0 0 statusMore 0 0

abbrev echo : Mem sizeofHeader := ⟨setStatus announcement statusOk, by simp [setStatus]⟩

-- The times of the sender's file.
def touch {F : Type} [Posix F] (h : Host F) (path st : Bytes) : Host F :=
  { h with fs := (Posix.utime h.fs path (stAtime st) (stMtime st)).2 }

section Rounds

variable {F α : Type} [Posix F] {h h' : Host F} {client : Client} {st : Mem 144}
  {path hash : Bytes}

theorem metaMessage_length (status : UInt8) (pathlen : Nat) (hst : st.val.length = sizeofStat)
    (hhash : hash.length = 16) : (metaMessage status pathlen st.val hash).length = sizeofMeta := by
  rw [metaMessage, List.length_append, header_length, metaBody_length pathlen hst hhash]
  rfl

-- The client's part of an entry up to the entry's own content.
theorem talk_pullMeta (client : Client) (hpath : path.length < pathMax) (hhash : hash.length = 16)
    (h : Host F) :
    Talk host (pullMeta client announcement) h
      [(metaMessage statusMore path.length st.val hash, echo.val), (path, [])]
      (pullEntry client st.val (dotSlash ++ cString path) >>= fun client => do
        let _ ← sys (.utime (dotSlash ++ cString path) (stAtime st.val) (stMtime st.val))
        ret client) h := by
  have hsmall : path.length < 4096 := hpath
  have hmeta := exec_recvMessage_full (K := host) (s := h) (c := false) []
    (metaMessage_length statusMore path.length st.property hhash) (zeros_length sizeofMeta)
    (by decide)
  rw [List.append_nil] at hmeta
  have hecho : Exec host ⟨sendMessage echo.val, h, ⟨[], false⟩⟩ echo.val
      ⟨ret (decide (0 < echo.val.length)), h, ⟨[], false⟩⟩ := exec_sendMessage rfl
  have hpathlen : metaPathlen (metaMessage statusMore path.length st.val hash) = path.length :=
    metaPathlen_body (header_length _ _ _ _ _) (by omega)
  have hstat : metaStat (metaMessage statusMore path.length st.val hash) = st.val :=
    metaStat_body (header_length _ _ _ _ _) st.property
  refine .cons ((Exec.after hmeta (hecho.bind _)).cast rfl) ?_
  simp only [ret_bind, hpathlen, hstat]
  rw [checkSize_pos (by omega), ret_bind]
  refine Talk.seq (.one (exec_recvAll rfl (by simp))) ?_
  simp only [cString_overlay]
  exact .nil _ _

-- A round of the pull loop up to the entry's own content, and what is left to
-- do behind it.
theorem talk_pulling (header : Mem sizeofHeader) (client : Client) (rest : Client → Code α)
    (st : Mem 144) (hpath : path.length < pathMax) (hhash : hash.length = 16) (h : Host F) :
    ∃ k : Client → Code α,
      (∀ (client : Client) (g : Host F), Exec host ⟨k client, g, ⟨[], false⟩⟩ []
        ⟨pulling echo client rest, touch g (dotSlash ++ cString path) st.val, ⟨[], false⟩⟩) ∧
      Talk host (pulling header client rest) h
        [(announcement, []), (metaMessage statusMore path.length st.val hash, echo.val), (path, [])]
        (pullEntry client st.val (dotSlash ++ cString path) >>= k) h := by
  have hround : Talk host (pullRound (header.val, client)) h
      [(announcement, []), (metaMessage statusMore path.length st.val hash, echo.val), (path, [])]
      ((pullEntry client st.val (dotSlash ++ cString path) >>= fun client => do
        let _ ← sys (.utime (dotSlash ++ cString path) (stAtime st.val) (stMtime st.val))
        ret client) >>= fun client => ret (.inl (echo.val, client))) h := by
    refine Talk.seq (talk_recvMessage (header_length _ _ _ _ _) header.property (by decide)) ?_
    exact (talk_pullMeta client hpath hhash h).bind _
  have hloop : Talk host (pulling header client rest) h _ _ h := (hround.bind _).bind rest
  simp only [bind_assoc] at hloop
  refine ⟨_, fun client g => ?_, hloop⟩
  exact Exec.after (exec_sys rfl) ((exec_unroll pullRound (echo.val, client) ⟨[], false⟩).bind rest)

end Rounds

section Entries

variable {F : Type} [Posix F] {h : Host F} {client : Client} {st recPath : Bytes} {l : Link UInt8}

theorem exec_setEventPath {wd : Int} {path : Bytes}
    (hfit : 0 ≤ wd ∧ wd < maxWatches ∧ path.length < pathMax) :
    Exec host ⟨setEventPath client wd path, h, l⟩ []
      ⟨ret { client with eventPath := Function.update client.eventPath wd.toNat path }, h, l⟩ := by
  rw [setEventPath, checkSize_pos hfit]
  exact .refl _

theorem exec_setEventPath_overrun {wd : Int} {path : Bytes}
    (hfit : ¬(0 ≤ wd ∧ wd < maxWatches ∧ path.length < pathMax)) :
    Exec host ⟨setEventPath client wd path, h, l⟩ [] ⟨halt .overrun, h, l⟩ := by
  rw [setEventPath, checkSize_neg hfit]
  exact .refl _

-- A directory: it is made and watched.
def madeDir (g : F) (recPath : Bytes) : Int × F :=
  Posix.addWatch (Posix.mkdir g recPath homeMode).2 recPath

theorem exec_pullEntry_dir (hdir : sIsDir (stMode st) = true)
    (hfit : 0 ≤ (madeDir h.fs recPath).1 ∧ (madeDir h.fs recPath).1 < maxWatches ∧
      recPath.length < pathMax) :
    Exec host ⟨pullEntry client st recPath, h, l⟩ []
      ⟨ret { client with
        eventPath := Function.update client.eventPath (madeDir h.fs recPath).1.toNat recPath },
        { h with fs := (madeDir h.fs recPath).2 }, l⟩ := by
  rw [pullEntry, if_pos hdir]
  refine Exec.after (exec_sys rfl) (Exec.after (exec_sys rfl) ?_)
  exact exec_setEventPath hfit

theorem exec_pullEntry_dir_overrun (hdir : sIsDir (stMode st) = true)
    (hfit : ¬(0 ≤ (madeDir h.fs recPath).1 ∧ (madeDir h.fs recPath).1 < maxWatches ∧
      recPath.length < pathMax)) :
    Exec host ⟨pullEntry client st recPath, h, l⟩ []
      ⟨halt .overrun, { h with fs := (madeDir h.fs recPath).2 }, l⟩ := by
  rw [pullEntry, if_pos hdir]
  refine Exec.after (exec_sys rfl) (Exec.after (exec_sys rfl) ?_)
  exact exec_setEventPath_overrun hfit

-- What a transfer leaves in a file that the client has opened.
def pulledFile (g : F) (fp : Nat) (content : Bytes) : F :=
  let g := writeChunks (waitLock g fp { Flock.zero with type := .wrlck }) fp (chunksOf N content)
  Posix.fclose (waitLock g fp { Flock.zero with type := .unlck }) fp

theorem exec_fopenWrite {path : Bytes} {fp : Nat} {g : F}
    (hopen : Posix.fopenWrite h.fs path = some (fp, g)) :
    Exec host ⟨(sys (.fopenWrite path) : Code (Option Nat)), h, l⟩ []
      ⟨ret (some fp), { h with fs := g }, l⟩ :=
  exec_sys (by simp [host, Host.exec, hopen])

theorem exec_fopenWrite_null {path : Bytes} (hopen : Posix.fopenWrite h.fs path = none) :
    Exec host ⟨(sys (.fopenWrite path) : Code (Option Nat)), h, l⟩ [] ⟨ret none, h, l⟩ :=
  exec_sys (by simp [host, Host.exec, hopen])

theorem exec_pullFile (hwait : LocksGranted F) {fp : Nat} {g : F}
    (hopen : Posix.fopenWrite h.fs recPath = some (fp, g)) (content : Bytes) :
    Exec host ⟨pullFile recPath, h, ⟨chunkStream N content, false⟩⟩ []
      ⟨ret (), { h.tick with fs := pulledFile g fp content }, ⟨[], false⟩⟩ := by
  obtain ⟨req, hreq⟩ := exec_uninit (h := h) (l := ⟨chunkStream N content, false⟩) sizeofFile
  have hfopen := exec_fopenWrite (h := h.tick) (l := ⟨chunkStream N content, false⟩) hopen
  obtain ⟨_, hlock⟩ := exec_setlkw (h := { h.tick with fs := g })
    (l := ⟨chunkStream N content, false⟩) hwait fp { Flock.zero with type := .wrlck }
  have hchunks := fun h : Host F => exec_receiveChunks (h := h) (c := false) (by decide)
    (by decide) fp req.property (zeros_length N).ge content []
  simp only [List.append_nil] at hchunks
  obtain ⟨_, hunlock⟩ := exec_setlkw (h := { h.tick with
    fs := writeChunks (waitLock g fp { Flock.zero with type := .wrlck }) fp (chunksOf N content) })
    (l := ⟨[], false⟩) hwait fp { Flock.zero with type := .unlck }
  refine Exec.after hreq (Exec.after hfopen (Exec.after hlock (Exec.after (hchunks _) ?_)))
  exact Exec.after hunlock (exec_sys rfl)

-- The same while the stream is still missing.
theorem exec_pullFile_waits (hwait : LocksGranted F) {fp : Nat} {g : F}
    (hopen : Posix.fopenWrite h.fs recPath = some (fp, g)) :
    ∃ q g', Exec host ⟨pullFile recPath, h, ⟨[], false⟩⟩ [] ⟨q, { h.tick with fs := g' }, ⟨[], false⟩⟩ ∧
      Waits q [] := by
  obtain ⟨req, hreq⟩ := exec_uninit (h := h) (l := ⟨[], false⟩) sizeofFile
  have hfopen := exec_fopenWrite (h := h.tick) (l := ⟨[], false⟩) hopen
  obtain ⟨_, hlock⟩ := exec_setlkw (h := { h.tick with fs := g }) (l := ⟨[], false⟩) hwait fp
    { Flock.zero with type := .wrlck }
  have hloop := (exec_unroll (K := host) (s := { h.tick with
    fs := waitLock g fp { Flock.zero with type := .wrlck } }) (receiveChunk N fp)
    (req.val, zeros N) ⟨[], false⟩).bind fun _ => do
      let _ ← sys (.setlkw fp { Flock.zero with type := .unlck })
      sys (.fclose fp)
  exact ⟨_, _, Exec.after hreq (Exec.after hfopen (Exec.after hlock hloop)),
    sizeofFile, _, rfl, by decide⟩

theorem exec_pullFile_null (hopen : Posix.fopenWrite h.fs recPath = none) :
    Exec host ⟨pullFile recPath, h, l⟩ [] ⟨halt .nullDeref, h.tick, l⟩ := by
  obtain ⟨req, hreq⟩ := exec_uninit (h := h) (l := l) sizeofFile
  exact Exec.after hreq (Exec.after (exec_fopenWrite_null hopen) (.refl _))

theorem exec_pullLink {target : Bytes} (hfit : target.length ≤ N) :
    Exec host ⟨pullLink recPath, h, ⟨fileMessage target.length ++ target, false⟩⟩ []
      ⟨ret (), { h.tick with fs := (Posix.symlink h.fs (cString target) recPath).2 },
        ⟨[], false⟩⟩ := by
  have hsmall : target.length ≤ 1048576 := hfit
  have hdatalen : fileDatalen (fileMessage target.length) = target.length :=
    fileDatalen_fileMessage (by omega)
  have hsigned : signed 32 target.length = target.length := by
    rw [signed, Int.bmod_eq_of_le] <;> omega
  obtain ⟨file, hfile⟩ := exec_uninit (h := h) (l := ⟨fileMessage target.length ++ target, false⟩)
    sizeofFile
  refine Exec.after hfile (Exec.after (exec_recvMessage_full _ (fileMessage_length _) file.property
    (by decide)) ?_)
  simp only [hdatalen, hsigned, Int.toNat_natCast]
  rw [checkSize_pos (by omega), ret_bind]
  refine Exec.after (exec_recvAll rfl (by simp)) ?_
  simp only [cString_overlay]
  exact Exec.after (exec_sys rfl) (.refl _)

theorem exec_pullLink_waits (h : Host F) (recPath : Bytes) :
    ∃ q, Exec host ⟨pullLink recPath, h, ⟨[], false⟩⟩ [] ⟨q, h.tick, ⟨[], false⟩⟩ ∧ Waits q [] := by
  obtain ⟨file, hfile⟩ := exec_uninit (h := h) (l := ⟨[], false⟩) sizeofFile
  exact ⟨_, Exec.after hfile (.refl _), sizeofFile, _, rfl, by decide⟩

end Entries

end Csiebox.Pull
