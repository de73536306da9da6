import Csiebox.Send
import Csiebox.Common.Lemmas

namespace Csiebox

open CBytes Program Prog

section Digest

variable {F : Type} [Posix F] (md5 : Bytes → Mem 16)

-- The digest that `send_meta` puts into the message; `none` is a crash.
def digestOf (f : F) (st path : Bytes) : Option Bytes :=
  if sIsLnk (stMode st) then (Posix.readlink f path pathMax).map fun target => (md5 target).val
  else if sIsReg (stMode st) then
    match Posix.reads f path with
    | none => some (zeros 16)
    | some rs => (hashedBytes rs).map fun bs => (md5 bs).val
  else some (zeros 16)

variable {md5} {h : Host F} {l : Link UInt8} {st path hash : Bytes}

theorem exec_metaDigest (hd : digestOf md5 h.fs st path = some hash) :
    Exec host ⟨metaDigest md5 st path, h, l⟩ [] ⟨ret hash, h, l⟩ := by
  unfold digestOf at hd
  unfold metaDigest
  by_cases hlnk : sIsLnk (stMode st)
  · rw [if_pos hlnk] at hd ⊢
    obtain ⟨target, hread, rfl⟩ := Option.map_eq_some_iff.mp hd
    refine Exec.seq (exec_sys rfl) ?_
    simp only [hread]
    exact .refl _
  · rw [if_neg hlnk] at hd ⊢
    by_cases hreg : sIsReg (stMode st)
    · rw [if_pos hreg] at hd ⊢
      cases hreads : Posix.reads h.fs path with
      | none =>
          simp only [hreads] at hd
          cases hd
          exact Exec.seq (exec_md5File_absent hreads) (.refl _)
      | some rs =>
          simp only [hreads] at hd
          obtain ⟨bs, hbytes, rfl⟩ := Option.map_eq_some_iff.mp hd
          exact Exec.seq (exec_md5File hreads hbytes) (.refl _)
    · rw [if_neg hreg] at hd ⊢
      cases hd
      exact .refl _

theorem exec_metaDigest_crash (hd : digestOf md5 h.fs st path = none) :
    Exec host ⟨metaDigest md5 st path, h, l⟩ [] ⟨halt .overrun, h, l⟩ := by
  unfold digestOf at hd
  unfold metaDigest
  by_cases hlnk : sIsLnk (stMode st)
  · rw [if_pos hlnk] at hd ⊢
    have hread := Option.map_eq_none_iff.mp hd
    refine Exec.seq (exec_sys rfl) ?_
    simp only [hread]
    exact .refl _
  · rw [if_neg hlnk] at hd ⊢
    by_cases hreg : sIsReg (stMode st)
    · rw [if_pos hreg] at hd ⊢
      cases hreads : Posix.reads h.fs path with
      | none => simp [hreads] at hd
      | some rs =>
          simp only [hreads] at hd
          have hbytes := Option.map_eq_none_iff.mp hd
          exact (exec_md5File_crash hreads hbytes).bind _
    · rw [if_neg hreg] at hd
      simp at hd

theorem digestOf_length {f : F} (hd : digestOf md5 f st path = some hash) : hash.length = 16 := by
  unfold digestOf at hd
  split_ifs at hd
  · obtain ⟨target, -, rfl⟩ := Option.map_eq_some_iff.mp hd
    exact (md5 target).property
  · split at hd
    · cases hd
      exact zeros_length 16
    · obtain ⟨bs, -, rfl⟩ := Option.map_eq_some_iff.mp hd
      exact (md5 bs).property
  · cases hd
    exact zeros_length 16

end Digest

section Meta

variable {F : Type} [Posix F] {md5 : Bytes → Mem 16} {h : Host F} {st path hash echo : Bytes}

-- The peer of `send_meta` answers the message before it gets the path.
theorem talk_sendMeta (hd : digestOf md5 h.fs st path = some hash)
    (hecho : echo.length = sizeofHeader) (hbusy : headerStatus echo ≠ statusBusy) :
    Talk host (sendMeta md5 st path) h
      [([], metaMessage statusMore path.length st hash), (echo, []), ([], path)] (ret ()) h := by
  have hround : Talk host (announce (metaMessage statusMore path.length st hash) ()) h
      [([], metaMessage statusMore path.length st hash), (echo, [])]
      (ret (if true && headerStatus echo != statusBusy then .inr () else .inl ())) h :=
    Talk.seq (talk_sendMessage _) ((talk_recvMessage hecho (zeros_length _) (by decide)).bind _)
  rw [if_pos (by simpa using hbusy)] at hround
  refine .prepend ((exec_metaDigest hd).bind _) ?_
  exact Talk.seq (talk_iter_done hround) ((talk_sendMessage path).bind _)

-- The message is out, the answer is not there.
theorem exec_sendMeta_waits {l : Link UInt8} (hl : l.alive = true)
    (hd : digestOf md5 h.fs st path = some hash) :
    ∃ q : Code Unit, Exec host ⟨sendMeta md5 st path, h, l⟩
      (metaMessage statusMore path.length st hash) ⟨q, h, l⟩ ∧ ∃ k, q = .recv sizeofHeader k := by
  have hsend := exec_sendMessage (K := host) (s := h) (l := l)
    (m := metaMessage statusMore path.length st hash) hl
  exact ⟨_, Exec.after (exec_metaDigest hd)
    (((exec_unroll (announce (metaMessage statusMore path.length st hash)) () l).bind _).trans
      (((hsend.bind _).bind _).bind _)), _, rfl⟩

-- Up to the second answer, which says whether the file is wanted.
theorem talk_syncFile {verdict : Bytes} (hd : digestOf md5 h.fs st (path.drop 2) = some hash)
    (hecho : echo.length = sizeofHeader) (hbusy : headerStatus echo ≠ statusBusy)
    (hverdict : verdict.length = sizeofHeader) (hblock : headerStatus verdict ≠ statusBlock) :
    Talk host (syncFile md5 st path) h
      [([], metaMessage statusMore (path.drop 2).length st hash), (echo, []), ([], path.drop 2),
        (verdict, [])]
      (if headerStatus verdict = statusMore then sendFile st path else ret ()) h := by
  have hround : Talk host (awaitVerdict (zeros sizeofHeader)) h [(verdict, [])]
      (ret (if true && headerStatus verdict != statusBlock then .inr verdict else .inl verdict)) h :=
    (talk_recvMessage hverdict (zeros_length _) (by decide)).bind _
  rw [if_pos (by simpa using hblock)] at hround
  exact Talk.seq (talk_sendMeta hd hecho hbusy) ((talk_iter_done hround).bind _)

end Meta

section File

-- What `send_file` sends for a regular file.
def chunkStream (chunk : Nat) (content : Bytes) : Bytes :=
  if 0 < chunk ∧ chunk ≤ content.length then
    fileMessage chunk ++ (content.take chunk ++ chunkStream chunk (content.drop chunk))
  else fileMessage content.length ++ content
termination_by content.length
decreasing_by
  rw [List.length_drop]
  omega

variable {σ : Type} {K : Kernel Sys σ} {s : σ} {l : Link UInt8}

theorem exec_sendPayload {α : Type} {k : Code α} {q : Proc Sys UInt8 Fault σ α} {out : Bytes}
    (hl : l.alive = true) (buf : Bytes) (hk : Exec K ⟨k, s, l⟩ out q) :
    Exec K ⟨sendMessage (fileMessage buf.length) >>= fun _ => sendMessage buf >>= fun _ => k, s, l⟩
      (fileMessage buf.length ++ (buf ++ out)) q :=
  Exec.seq (exec_sendMessage hl) (Exec.seq (exec_sendMessage hl) hk)

theorem exec_sendChunk (hl : l.alive = true) (chunk : Nat) (rest : Bytes) :
    Exec K ⟨sendChunk chunk rest, s, l⟩
      (fileMessage (rest.take chunk).length ++ rest.take chunk)
      ⟨ret (if (rest.take chunk).length = chunk then .inl (rest.drop chunk) else .inr ()), s, l⟩ :=
  (exec_sendPayload hl _ (.refl _)).cast (by rw [List.append_nil])

theorem exec_sendChunks {chunk : Nat} (hchunk : 0 < chunk) (hl : l.alive = true) (content : Bytes) :
    Exec K ⟨sendChunks chunk content, s, l⟩ (chunkStream chunk content) ⟨ret (), s, l⟩ := by
  induction hn : content.length using Nat.strong_induction_on generalizing content with
  | _ n ih =>
      subst hn
      have hround := exec_sendChunk (K := K) (s := s) hl chunk content
      rw [chunkStream]
      by_cases hfull : chunk ≤ content.length
      · have htake : (content.take chunk).length = chunk := List.length_take_of_le hfull
        have hrest := ih (content.drop chunk).length (by rw [List.length_drop]; omega) _ rfl
        rw [if_pos htake, htake] at hround
        rw [if_pos ⟨hchunk, hfull⟩, ← List.append_assoc]
        exact (exec_iter_more hround).trans hrest
      · have htake : content.take chunk = content := List.take_of_length_le (by omega)
        rw [htake, if_neg (by omega)] at hround
        rw [if_neg (fun h => hfull h.2)]
        exact exec_iter_done hround

end File

section SendFile

variable {F : Type} [Posix F]

-- No lock has to be waited for.
def LocksGranted (F : Type) [Posix F] : Prop :=
  ∀ (f : F) fp fl, (Posix.setlkw f fp fl).isSome

def waitLock (f : F) (fp : Nat) (fl : Flock) : F := ((Posix.setlkw f fp fl).map Prod.snd).getD f

-- What `send_file` sends; `none` is a crash.
def fileStream (f : F) (st path : Bytes) : Option Bytes :=
  if sIsReg (stMode st) then (Posix.fopenRead f path).map fun r => chunkStream N r.2
  else if sIsLnk (stMode st) then
    (Posix.readlink f path N).map fun target => fileMessage target.length ++ target
  else some []

def afterSend (f : F) (st path : Bytes) : F :=
  if sIsReg (stMode st) then
    match Posix.fopenRead f path with
    | none => f
    | some (fp, _) =>
        Posix.fclose (waitLock (waitLock f fp { Flock.zero with type := .rdlck }) fp
          { Flock.zero with type := .unlck }) fp
  else f

variable {h : Host F} {l : Link UInt8} {st path stream : Bytes}

theorem exec_setlkw (hwait : LocksGranted F) (fp : Nat) (fl : Flock) :
    ∃ granted, Exec host ⟨(sys (.setlkw fp fl) : Code Bool), h, l⟩ []
      ⟨ret granted, { h with fs := waitLock h.fs fp fl }, l⟩ := by
  obtain ⟨⟨granted, f⟩, hlock⟩ := Option.isSome_iff_exists.mp (hwait h.fs fp fl)
  refine ⟨granted, exec_sys ?_⟩
  simp [host, Host.exec, hlock, waitLock, Host.set]

-- What is not a regular file is sent without a lock.
theorem exec_sendFile_unlocked (hreg : ¬sIsReg (stMode st) = true) (hl : l.alive = true)
    (hstream : fileStream h.fs st path = some stream) :
    Exec host ⟨sendFile st path, h, l⟩ stream ⟨ret (), h, l⟩ := by
  unfold fileStream at hstream
  unfold sendFile
  rw [if_neg hreg] at hstream ⊢
  by_cases hlnk : sIsLnk (stMode st)
  · rw [if_pos hlnk] at hstream ⊢
    obtain ⟨target, hread, rfl⟩ := Option.map_eq_some_iff.mp hstream
    refine Exec.after (exec_sys rfl) ?_
    simp only [hread]
    exact (exec_sendPayload hl target (.refl _)).cast (by rw [List.append_nil])
  · rw [if_neg hlnk] at hstream ⊢
    cases hstream
    exact .refl _

theorem exec_sendFile (hwait : LocksGranted F) (hl : l.alive = true)
    (hstream : fileStream h.fs st path = some stream) :
    Exec host ⟨sendFile st path, h, l⟩ stream
      ⟨ret (), { h with fs := afterSend h.fs st path }, l⟩ := by
  by_cases hreg : sIsReg (stMode st)
  · unfold fileStream at hstream
    unfold sendFile afterSend
    rw [if_pos hreg] at hstream ⊢
    obtain ⟨⟨fp, content⟩, hopen, rfl⟩ := Option.map_eq_some_iff.mp hstream
    refine Exec.after (exec_sys rfl) ?_
    simp only [hopen, hreg, if_true]
    obtain ⟨_, hlock⟩ := exec_setlkw (h := h) (l := l) hwait fp { Flock.zero with type := .rdlck }
    refine Exec.after hlock ?_
    obtain ⟨_, hunlock⟩ := exec_setlkw (h := { h with
      fs := waitLock h.fs fp { Flock.zero with type := .rdlck } }) (l := l) hwait fp
      { Flock.zero with type := .unlck }
    rw [← List.append_nil (chunkStream N content)]
    exact Exec.seq (exec_sendChunks (by decide) hl content) (Exec.after hunlock (exec_sys rfl))
  · rw [afterSend, if_neg hreg]
    exact exec_sendFile_unlocked hreg hl hstream

theorem exec_sendFile_crash (hstream : fileStream h.fs st path = none) :
    ∃ e, Exec host ⟨sendFile st path, h, l⟩ [] ⟨halt e, h, l⟩ := by
  unfold fileStream at hstream
  unfold sendFile
  by_cases hreg : sIsReg (stMode st)
  · rw [if_pos hreg] at hstream ⊢
    have hopen := Option.map_eq_none_iff.mp hstream
    refine ⟨.nullDeref, Exec.after (exec_sys rfl) ?_⟩
    simp only [hopen]
    exact .refl _
  · rw [if_neg hreg] at hstream ⊢
    by_cases hlnk : sIsLnk (stMode st)
    · rw [if_pos hlnk] at hstream ⊢
      have hread := Option.map_eq_none_iff.mp hstream
      refine ⟨.overrun, Exec.after (exec_sys rfl) ?_⟩
      simp only [hread]
      exact .refl _
    · rw [if_neg hlnk] at hstream
      simp at hstream

end SendFile

section Hardlink

variable {σ : Type} {K : Kernel Sys σ} {s : σ} {echo : Bytes}

theorem talk_sendHardlink (hecho : echo.length = sizeofHeader)
    (hbusy : headerStatus echo ≠ statusBusy) (oldPath newPath : Bytes) :
    Talk K (sendHardlink oldPath newPath) s
      [([], hardlinkMessage oldPath.length newPath.length), (echo, []), ([], oldPath),
        ([], newPath)] (ret ()) s := by
  have hround : Talk K
      (announceLink (hardlinkMessage oldPath.length newPath.length) (zeros sizeofHeader)) s
      [([], hardlinkMessage oldPath.length newPath.length), (echo, [])]
      (ret (if headerStatus echo = statusBusy then .inl echo else .inr ())) s :=
    Talk.seq (talk_sendMessage _) ((talk_recvMessage hecho (zeros_length _) (by decide)).bind _)
  rw [if_neg hbusy] at hround
  exact Talk.seq (talk_iter_done hround)
    (Talk.seq (talk_sendMessage oldPath) ((talk_sendMessage newPath).bind _))

variable {l : Link UInt8}

-- The link message is out, the answer is not there.
theorem exec_sendHardlink_waits (hl : l.alive = true) (source target : Bytes) :
    ∃ q : Code Unit, Exec K ⟨sendHardlink source target, s, l⟩
      (hardlinkMessage source.length target.length) ⟨q, s, l⟩ ∧ ∃ k, q = .recv sizeofHeader k := by
  have hsend := exec_sendMessage (K := K) (s := s) (l := l)
    (m := hardlinkMessage source.length target.length) hl
  exact ⟨_, ((exec_unroll (announceLink (hardlinkMessage source.length target.length))
    (zeros sizeofHeader) l).bind _).trans (((hsend.bind _).bind _).bind _), _, rfl⟩

end Hardlink

end Csiebox
