import Csiebox.Session.Files
import Csiebox.Session.Theorems

namespace Csiebox.Session

open CBytes Program Prog TreeFs

section Converges

variable {F G : Type} [Posix F] [Posix G]

-- A regular file of the client, under the two names that `sync_file` uses for it.
structure ClientFile (f : F) (path content : Bytes) : Prop where
  opens : ∃ handle, Posix.fopenRead f path = some (handle, content)
  hashed : ∃ rs, Posix.reads f (path.drop 2) = some rs ∧ hashedBytes rs = some content

-- One `sync_file`, served to its end however the steps interleave: besides the request
-- the client sends `data`, and the server has the file with the times of `st`.
def Synced (files : Files G) (md5 : Bytes → Mem 16) (connFd : Nat) (server : Server)
    (home path content : Bytes) (client : Host F) (peer : Host G) (st : Mem 144) (data : Bytes)
    (peer' : Host G) : Prop :=
  ∃ client' b', Settles (Step (F := F) (G := G))
      (session md5 connFd server (syncFile md5 st.val path) client peer [] [])
      (session md5 connFd server (ret ()) client' peer'
        (syncRequest st.val (md5 content).val (path.drop 2) ++ data) b') ∧
    (∃ new, files.found peer'.fs (home ++ slash :: path.drop 2) = .file new ∧ new.content = content) ∧
    files.times peer'.fs (home ++ slash :: path.drop 2) = (stAtime st.val, stMtime st.val)

-- If the file can be opened at all, transferring it whatever the digests say leaves what is
-- there in `g`.
def Transparent (files : Files G) (filepath content : Bytes) (peer : Host G) (st : Mem 144) (g : G) :
    Prop :=
  ∀ fp opened, Posix.fopenWrite peer.fs filepath = some (fp, opened) →
    ∃ h : Host G, Talk host (receiveFile filepath (verdict statusMore)) peer
        [([], verdict statusMore), (chunkStream N content, [])] (ret ()) h ∧
      let touched := (Posix.utime h.fs filepath (stAtime st.val) (stMtime st.val)).2
      files.found touched filepath = files.found g filepath ∧
        files.times touched filepath = files.times g filepath

-- The push of a file converges: data goes over exactly when it is needed, nothing
-- differs from a transfer, and a second push of the same content sends no data.
def Converges (files : Files G) (md5 : Bytes → Mem 16) (connFd : Nat) (server : Server)
    (home path content : Bytes) (prior : Option Stored) (client : Host F) (peer : Host G) (st : Mem 144) :
    Prop :=
  ∃ peer', Synced files md5 connFd server home path content client peer st
      (if prior.map Stored.content = some content then [] else chunkStream N content) peer' ∧
    Transparent files (home ++ slash :: path.drop 2) content peer st peer'.fs ∧
    ∀ (client₂ : Host F) (st₂ : Mem 144), sIsReg (stMode st₂.val) = true →
      ClientFile client₂.fs path content →
        ∃ peer₂, Synced files md5 connFd server home path content client₂ peer' st₂ [] peer₂

-- What the server is to allow: to read the file that is there and to set its times, and to
-- open it for writing where it has to change.
def Allows (g : G) (filepath content : Bytes) : Option Stored → Prop
  | none => (Posix.fopenWrite g filepath).isSome = true
  | some old => old.readable = true ∧ old.owned = true ∧
      (old.content = content ∨ (Posix.fopenWrite g filepath).isSome = true)

variable {files : Files G} {md5 : Bytes → Mem 16} {connFd : Nat} {server : Server}
    {home path content : Bytes}
  {prior : Option Stored} {client : Host F} {peer : Host G} {st : Mem 144}

theorem ClientFile.digest (h : ClientFile client.fs path content) (md5 : Bytes → Mem 16)
    (hreg : sIsReg (stMode st.val) = true) :
    digestOf md5 client.fs st.val (path.drop 2) = some (md5 content).val := by
  obtain ⟨rs, hreads, hbytes⟩ := h.hashed
  simp [digestOf, not_lnk_of_reg hreg, hreg, hreads, hbytes]

theorem settles_of_runs {client' : Host F} {peer' : Host G} {a b a' b' : Bytes}
    (h : Runs (session md5 connFd server (syncFile md5 st.val path >>= fun _ => ret ()) client peer a b)
      (session md5 connFd server (ret ()) client' peer' a' b')) :
    Settles Step (session md5 connFd server (syncFile md5 st.val path) client peer a b)
      (session md5 connFd server (ret ()) client' peer' a' b') := by
  have hret : (syncFile md5 st.val path >>= fun _ => ret ()) = syncFile md5 st.val path :=
    bind_ret_right _
  rw [hret] at h
  exact ⟨Iter.of_reflTransGen h, (session_idle client' peer' a' b').stop⟩

-- A session settles in one way only.
theorem settled_same {start : Joint F G Unit} {client₁ client₂ : Host F} {peer₁ peer₂ : Host G}
    {a₁ a₂ b₁ b₂ : Bytes}
    (h₁ : Settles Step start (session md5 connFd server (ret ()) client₁ peer₁ a₁ b₁))
    (h₂ : Settles Step start (session md5 connFd server (ret ()) client₂ peer₂ a₂ b₂)) :
    peer₁ = peer₂ ∧ a₁ = a₂ := by
  obtain ⟨n, hrun⟩ := h₂.run
  have hend := h₁.unique net_diamond hrun.reflTransGen (session_idle client₂ peer₂ a₂ b₂).stop
  simp only [session, Net.mk.injEq] at hend
  obtain ⟨-, -, -, hpeer, -, -, ha, -⟩ := hend
  exact ⟨hpeer.symm, ha.symm⟩

theorem Synced.times {data : Bytes} {peer' : Host G}
    (h : Synced files md5 connFd server home path content client peer st data peer') :
    files.times peer'.fs (home ++ slash :: path.drop 2) = (stAtime st.val, stMtime st.val) := by
  obtain ⟨-, -, -, -, htimes⟩ := h
  exact htimes

-- Equal digests, and only the times are set.
theorem sync_quiet (hin : LoggedIn server connFd home) (hp : PathFits home (path.drop 2))
    (hreg : sIsReg (stMode st.val) = true) (hfile : ClientFile client.fs path content)
    (hsound : files.sound peer.fs)
    (hprior : files.found peer.fs (home ++ slash :: path.drop 2) = .ofPrior prior)
    (hequal : (md5 content).val = priorHash md5 prior) :
    ∃ client' peer' b', Settles (Step (F := F) (G := G))
        (session md5 connFd server (syncFile md5 st.val path) client peer [] [])
        (session md5 connFd server (ret ()) client' peer'
          (syncRequest st.val (md5 content).val (path.drop 2) ++ []) b') ∧
      peer'.fs = (Posix.utime peer.fs (home ++ slash :: path.drop 2) (stAtime st.val)
          (stMtime st.val)).2 := by
  have hstatus := files.status hsound hprior md5 hreg (md5 content).val
  rw [if_pos hequal] at hstatus
  obtain ⟨b', hrun⟩ := sync_runs_done hin hp (hfile.digest md5 hreg) hstatus (by decide)
    (fun _ => ret ()) [] []
  have hafter : afterStatus peer.fs (home ++ slash :: path.drop 2) st.val = peer.fs := by
    rw [afterStatus, not_dir_of_reg hreg]
    rfl
  rw [hafter, List.nil_append, ← List.append_nil (syncRequest _ _ _)] at hrun
  exact ⟨_, _, b', settles_of_runs hrun, rfl⟩

-- Different digests: the file is opened, filled and touched.
theorem sync_transfers (hwait : LocksGranted F) (hfree : NoOtherLocks G) (hin : LoggedIn server connFd home)
    (hp : PathFits home (path.drop 2)) (hreg : sIsReg (stMode st.val) = true)
    (hfile : ClientFile client.fs path content) (hsound : files.sound peer.fs)
    (hprior : files.found peer.fs (home ++ slash :: path.drop 2) = .ofPrior prior)
    (hdiffers : (md5 content).val ≠ priorHash md5 prior) {fp : Nat} {g : G}
    (hopen : Posix.fopenWrite peer.fs (home ++ slash :: path.drop 2) = some (fp, g)) :
    ∃ client' peer' b', Settles (Step (F := F) (G := G))
        (session md5 connFd server (syncFile md5 st.val path) client peer [] [])
        (session md5 connFd server (ret ()) client' peer'
          (syncRequest st.val (md5 content).val (path.drop 2) ++ chunkStream N content) b') ∧
      peer'.fs = (Posix.utime (storeFile g fp content) (home ++ slash :: path.drop 2) (stAtime st.val)
        (stMtime st.val)).2 := by
  have hstatus := files.status hsound hprior md5 hreg (md5 content).val
  rw [if_neg hdiffers] at hstatus
  obtain ⟨handle, hread⟩ := hfile.opens
  obtain ⟨b', hrun⟩ := sync_runs_file hwait hfree hin hp (hfile.digest md5 hreg) hstatus hreg hread hopen
    (fun _ => ret ()) [] []
  rw [List.nil_append] at hrun
  exact ⟨_, _, b', settles_of_runs hrun, rfl⟩

-- The file that is to change cannot be opened, and the server is stopped.
theorem sync_stops (hin : LoggedIn server connFd home) (hp : PathFits home (path.drop 2))
    (hreg : sIsReg (stMode st.val) = true) (hfile : ClientFile client.fs path content)
    (hsound : files.sound peer.fs)
    (hprior : files.found peer.fs (home ++ slash :: path.drop 2) = .ofPrior prior)
    (hdiffers : (md5 content).val ≠ priorHash md5 prior)
    (hopen : Posix.fopenWrite peer.fs (home ++ slash :: path.drop 2) = none) (data : Bytes)
    (peer' : Host G) :
    ¬Synced files md5 connFd server home path content client peer st data peer' := by
  have hstatus := files.status hsound hprior md5 hreg (md5 content).val
  rw [if_neg hdiffers] at hstatus
  obtain ⟨c, hrun, -, -, hhalt, -⟩ := sync_runs_halt (hfile.digest md5 hreg)
    (talk_serveMeta_null hin hp (md5 content).property hstatus hreg hopen)
    (fun _ => (ret () : Code Unit)) [] []
  have hret : (syncFile md5 st.val path >>= fun _ => ret ()) = syncFile md5 st.val path :=
    bind_ret_right _
  rw [hret] at hrun
  rintro ⟨client', b', hsettles, -⟩
  obtain ⟨n, hn⟩ := (hsettles.reach net_diamond hrun).run
  have hend := runs_right_halt hn.reflTransGen hhalt
  exact serve_ne_halt md5 connFd server _ hend

theorem chunkStream_ne_nil (content : Bytes) : chunkStream N content ≠ [] := by
  have hmessage : ∀ n, fileMessage n ≠ [] := by
    intro n hnil
    have hlength := fileMessage_length n
    rw [hnil] at hlength
    simp [sizeofFile] at hlength
  rw [chunkStream]
  split_ifs <;> simp [hmessage]

-- A file that cannot be read is always asked for.
theorem sync_not_quiet (hwait : LocksGranted F) (hfree : NoOtherLocks G) (hin : LoggedIn server connFd home)
    (hp : PathFits home (path.drop 2)) (hreg : sIsReg (stMode st.val) = true)
    (hfile : ClientFile client.fs path content) (hsound : files.sound peer.fs)
    (hprior : files.found peer.fs (home ++ slash :: path.drop 2) = .ofPrior prior)
    (hdiffers : (md5 content).val ≠ priorHash md5 prior) (peer' : Host G) :
    ¬Synced files md5 connFd server home path content client peer st [] peer' := by
  intro hsynced
  cases hopen : Posix.fopenWrite peer.fs (home ++ slash :: path.drop 2) with
  | none => exact sync_stops hin hp hreg hfile hsound hprior hdiffers hopen [] peer' hsynced
  | some opened =>
      obtain ⟨fp, g⟩ := opened
      obtain ⟨client₁, peer₁, b₁, hsettles, -⟩ : ∃ client' peer' b', Settles (Step (F := F) (G := G))
          (session md5 connFd server (syncFile md5 st.val path) client peer [] [])
          (session md5 connFd server (ret ()) client' peer'
            (syncRequest st.val (md5 content).val (path.drop 2) ++ chunkStream N content) b') ∧ _ :=
        sync_transfers hwait hfree hin hp hreg hfile hsound hprior hdiffers hopen
      obtain ⟨client₂, b₂, hsettles₂, -⟩ := hsynced
      have hsaid := (settled_same hsettles hsettles₂).2
      exact chunkStream_ne_nil content (List.append_cancel_left hsaid)

theorem hash_eq_iff (hinj : ∀ old, prior = some old → md5 old.content = md5 content → old.content = content)
    (hnonzero : (md5 content).val ≠ zeros 16) :
    (md5 content).val = priorHash md5 prior ↔
      ∃ old, prior = some old ∧ old.readable = true ∧ old.content = content := by
  constructor
  · intro hequal
    cases prior with
    | none => exact absurd hequal hnonzero
    | some old =>
        cases hread : old.readable with
        | false =>
            rw [priorHash, hread] at hequal
            exact absurd hequal hnonzero
        | true =>
            rw [priorHash, hread, if_pos rfl] at hequal
            exact ⟨old, rfl, hread, hinj old rfl (Subtype.ext hequal.symm)⟩
  · rintro ⟨old, rfl, hread, rfl⟩
    rw [priorHash, hread, if_pos rfl]

end Converges

section Allowed

variable {F G : Type} [Posix F] [Posix G] {files : Files G} {md5 : Bytes → Mem 16} {connFd : Nat}
  {server : Server} {home path content : Bytes} {prior : Option Stored} {client : Host F} {peer : Host G}
  {st : Mem 144}

theorem Stored.of_permitted {g : G} {filepath : Bytes} (hallows : Allows g filepath content prior) :
    (Stored.of prior content).readable = true ∧ (Stored.of prior content).owned = true := by
  cases prior with
  | none => exact ⟨rfl, rfl⟩
  | some old => exact ⟨hallows.1, hallows.2.1⟩

theorem Stored.of_content (prior : Option Stored) (content : Bytes) :
    (Stored.of prior content).content = content := by
  cases prior <;> rfl

theorem prior_eq_iff : prior.map Stored.content = some content ↔ ∃ old, prior = some old ∧
    old.content = content :=
  Option.map_eq_some_iff

-- What is allowed is done.
theorem sync_stores (hwait : LocksGranted F) (hfree : NoOtherLocks G) (hin : LoggedIn server connFd home)
    (hp : PathFits home (path.drop 2)) (hreg : sIsReg (stMode st.val) = true)
    (hfile : ClientFile client.fs path content) (hsound : files.sound peer.fs)
    (hprior : files.found peer.fs (home ++ slash :: path.drop 2) = .ofPrior prior)
    (hinj : ∀ old, prior = some old → md5 old.content = md5 content → old.content = content)
    (hnonzero : (md5 content).val ≠ zeros 16)
    (hallows : Allows peer.fs (home ++ slash :: path.drop 2) content prior) :
    ∃ peer', Synced files md5 connFd server home path content client peer st
        (if prior.map Stored.content = some content then [] else chunkStream N content) peer' ∧
      files.sound peer'.fs ∧
      files.found peer'.fs (home ++ slash :: path.drop 2) = .file (.of prior content) := by
  have hpermitted := Stored.of_permitted hallows
  by_cases hequal : (md5 content).val = priorHash md5 prior
  · obtain ⟨old, rfl, -, hsame⟩ := (hash_eq_iff hinj hnonzero).mp hequal
    obtain ⟨client', peer', b', hsettles, hfs⟩ := sync_quiet hin hp hreg hfile hsound hprior hequal
    have htouched := files.touches hsound hprior (stAtime st.val) (stMtime st.val)
    have htimes := files.sets hsound hprior hallows.2.1 (stAtime st.val) (stMtime st.val)
    rw [← hfs] at htouched htimes
    refine ⟨peer', ⟨client', b', ?_, ⟨old, htouched.2, hsame⟩, htimes⟩, htouched.1, ?_⟩
    · rwa [if_pos (prior_eq_iff.mpr ⟨old, rfl, hsame⟩)]
    · rw [htouched.2, ← hsame]
      rfl
  · have hdata : ¬prior.map Stored.content = some content := by
      intro hmap
      obtain ⟨old, rfl, hsame⟩ := prior_eq_iff.mp hmap
      exact hequal ((hash_eq_iff hinj hnonzero).mpr ⟨old, rfl, hallows.1, hsame⟩)
    have hopens : (Posix.fopenWrite peer.fs (home ++ slash :: path.drop 2)).isSome = true := by
      cases prior with
      | none => exact hallows
      | some old => exact hallows.2.2.resolve_left fun hsame => hdata (prior_eq_iff.mpr ⟨old, rfl, hsame⟩)
    obtain ⟨⟨fp, g⟩, hopen⟩ := Option.isSome_iff_exists.mp hopens
    obtain ⟨client', peer', b', hsettles, hfs⟩ :=
      sync_transfers hwait hfree hin hp hreg hfile hsound hprior hequal hopen
    obtain ⟨hsound', hfound⟩ := Files.opened hsound hprior hopen content
    have htouched := files.touches hsound' hfound (stAtime st.val) (stMtime st.val)
    have htimes := files.sets hsound' hfound hpermitted.2 (stAtime st.val) (stMtime st.val)
    rw [← hfs] at htouched htimes
    refine ⟨peer', ⟨client', b', ?_, ⟨_, htouched.2, Stored.of_content prior content⟩, htimes⟩,
      htouched.1, htouched.2⟩
    rwa [if_neg hdata]

-- A transfer would have come to the same.
theorem transparent_of_stored (hfree : NoOtherLocks G) {filepath : Bytes} (hsound : files.sound peer.fs)
    (hprior : files.found peer.fs filepath = .ofPrior prior)
    (hallows : Allows peer.fs filepath content prior)
    {g : G} (hfound : files.found g filepath = .file (.of prior content))
    (htimes : files.times g filepath = (stAtime st.val, stMtime st.val)) :
    Transparent files filepath content peer st g := by
  intro fp opened hopen
  obtain ⟨hsound', hstored⟩ := Files.opened hsound hprior hopen content
  refine ⟨_, talk_receiveFile hfree hopen content, ?_, ?_⟩
  · exact (files.touches hsound' hstored _ _).2.trans hfound.symm
  · exact (files.sets hsound' hstored (Stored.of_permitted hallows).2 _ _).trans htimes.symm

-- The second push finds the content.
theorem sync_again (hin : LoggedIn server connFd home) (hp : PathFits home (path.drop 2))
    (hreg : sIsReg (stMode st.val) = true) (hfile : ClientFile client.fs path content)
    (hsound : files.sound peer.fs) {new : Stored}
    (hfound : files.found peer.fs (home ++ slash :: path.drop 2) = .file new)
    (hcontent : new.content = content)
    (hpermitted : new.readable = true ∧ new.owned = true) :
    ∃ peer', Synced files md5 connFd server home path content client peer st [] peer' := by
  have hprior : files.found peer.fs (home ++ slash :: path.drop 2) = .ofPrior (some new) := hfound
  have hequal : (md5 content).val = priorHash md5 (some new) := by
    rw [priorHash, if_pos hpermitted.1, hcontent]
  obtain ⟨client', peer', b', hsettles, hfs⟩ := sync_quiet hin hp hreg hfile hsound hprior hequal
  have htouched := files.touches hsound hfound (stAtime st.val) (stMtime st.val)
  have htimes := files.sets hsound hfound hpermitted.2 (stAtime st.val) (stMtime st.val)
  rw [← hfs] at htouched htimes
  exact ⟨peer', client', b', hsettles, ⟨new, htouched.2, hcontent⟩, htimes⟩

-- Where the server ends up if the push ends at all.
theorem Synced.stored {old : Stored} {data : Bytes} {peer' : Host G} (hwait : LocksGranted F)
    (hfree : NoOtherLocks G) (hin : LoggedIn server connFd home) (hp : PathFits home (path.drop 2))
    (hreg : sIsReg (stMode st.val) = true) (hfile : ClientFile client.fs path content)
    (hsound : files.sound peer.fs)
    (hprior : files.found peer.fs (home ++ slash :: path.drop 2) = .ofPrior (some old))
    (hinj : md5 old.content = md5 content → old.content = content) (hnonzero : (md5 content).val ≠ zeros 16)
    (hsynced : Synced files md5 connFd server home path content client peer st data peer') :
    files.sound peer'.fs ∧
      files.found peer'.fs (home ++ slash :: path.drop 2) = .file { old with content } := by
  by_cases hequal : (md5 content).val = priorHash md5 (some old)
  · have hsame : old.content = content := by
      obtain ⟨_, hold, -, hsame⟩ :=
        (hash_eq_iff (fun _ h => Option.some.inj h ▸ hinj) hnonzero).mp hequal
      rw [Option.some.inj hold]
      exact hsame
    obtain ⟨client₁, peer₁, b₁, hsettles, hfs⟩ := sync_quiet hin hp hreg hfile hsound hprior hequal
    obtain ⟨client₂, b₂, hsettles₂, -⟩ := hsynced
    obtain ⟨rfl, -⟩ := settled_same hsettles hsettles₂
    rw [hfs, ← hsame]
    exact files.touches hsound hprior _ _
  · cases hopen : Posix.fopenWrite peer.fs (home ++ slash :: path.drop 2) with
    | none => exact absurd hsynced (sync_stops hin hp hreg hfile hsound hprior hequal hopen data peer')
    | some opened =>
        obtain ⟨fp, g⟩ := opened
        obtain ⟨client₁, peer₁, b₁, hsettles, hfs⟩ :=
          sync_transfers hwait hfree hin hp hreg hfile hsound hprior hequal hopen
        obtain ⟨client₂, b₂, hsettles₂, -⟩ := hsynced
        obtain ⟨rfl, -⟩ := settled_same hsettles hsettles₂
        obtain ⟨hsound', hfound⟩ := Files.opened hsound hprior hopen content
        rw [hfs]
        exact files.touches hsound' hfound _ _

-- Two files that differ in their times.
def statAt (mtime : Int) : Mem 144 := TreeFs.mkStat 1 1 { kind := .file [], atime := 0, mtime }

theorem statAt_times : stMtime (statAt 0).val ≠ stMtime (statAt 1).val := by
  decide +kernel

theorem statAt_regular : sIsReg (stMode (statAt 0).val) = true ∧ sIsReg (stMode (statAt 1).val) = true := by
  decide +kernel

-- The times of a file that is not the server's stay, whatever is sent.
theorem Synced.times_kept {new : Stored} {data : Bytes} {peer' : Host G} (hin : LoggedIn server connFd home)
    (hp : PathFits home (path.drop 2)) (hreg : sIsReg (stMode st.val) = true)
    (hfile : ClientFile client.fs path content) (hsound : files.sound peer.fs)
    (hfound : files.found peer.fs (home ++ slash :: path.drop 2) = .file new)
    (hcontent : new.content = content)
    (hread : new.readable = true) (hown : new.owned = false)
    (hsynced : Synced files md5 connFd server home path content client peer st data peer') :
    files.times peer.fs (home ++ slash :: path.drop 2) = (stAtime st.val, stMtime st.val) := by
  have hprior : files.found peer.fs (home ++ slash :: path.drop 2) = .ofPrior (some new) := hfound
  have hequal : (md5 content).val = priorHash md5 (some new) := by
    rw [priorHash, if_pos hread, hcontent]
  obtain ⟨client₁, peer₁, b₁, hsettles, hfs⟩ := sync_quiet hin hp hreg hfile hsound hprior hequal
  obtain ⟨client₂, b₂, hsettles₂, -, htimes⟩ := hsynced
  obtain ⟨rfl, -⟩ := settled_same hsettles hsettles₂
  rw [← htimes, hfs]
  exact (files.keeps hsound hfound hown _ _).symm

end Allowed

-- A push converges exactly where the server may do what it takes.
theorem sync_converges_iff {F G : Type} [Posix F] [Posix G] (files : Files G) {md5 : Bytes → Mem 16}
    {connFd : Nat} {server : Server} {home path content : Bytes} {prior : Option Stored} {client : Host F}
    {peer : Host G} {st : Mem 144} (hwait : LocksGranted F) (hfree : NoOtherLocks G)
    (hin : LoggedIn server connFd home) (hp : PathFits home (path.drop 2))
    (hreg : sIsReg (stMode st.val) = true) (hfile : ClientFile client.fs path content)
    (hsound : files.sound peer.fs)
    (hprior : files.found peer.fs (home ++ slash :: path.drop 2) = .ofPrior prior)
    (hinj : ∀ old, prior = some old → md5 old.content = md5 content → old.content = content)
    (hnonzero : (md5 content).val ≠ zeros 16) :
    Converges files md5 connFd server home path content prior client peer st ↔
      Allows peer.fs (home ++ slash :: path.drop 2) content prior := by
  constructor
  · rintro ⟨peer', hsynced, -, hagain⟩
    have hopens : (md5 content).val ≠ priorHash md5 prior →
        (Posix.fopenWrite peer.fs (home ++ slash :: path.drop 2)).isSome = true := by
      intro hdiffers
      rw [Option.isSome_iff_ne_none]
      intro hopen
      exact sync_stops hin hp hreg hfile hsound hprior hdiffers hopen _ peer' hsynced
    cases prior with
    | none => exact hopens hnonzero
    | some old =>
        obtain ⟨hsound', hfound⟩ :=
          hsynced.stored hwait hfree hin hp hreg hfile hsound hprior (hinj old rfl) hnonzero
        have hread : old.readable = true := by
          by_contra hno
          have hprior' : files.found peer'.fs (home ++ slash :: path.drop 2) =
              .ofPrior (some { old with content }) := hfound
          have hdiffers : (md5 content).val ≠ priorHash md5 (some { old with content }) := by
            rw [priorHash, if_neg hno]
            exact hnonzero
          obtain ⟨peer₂, hsynced₂⟩ := hagain client st hreg hfile
          exact sync_not_quiet hwait hfree hin hp hreg hfile hsound' hprior' hdiffers peer₂ hsynced₂
        have hown : old.owned = true := by
          by_contra hno
          have hkept : ∀ mtime, sIsReg (stMode (statAt mtime).val) = true →
              files.times peer'.fs (home ++ slash :: path.drop 2) =
                (stAtime (statAt mtime).val, stMtime (statAt mtime).val) := by
            intro mtime hregular
            obtain ⟨peer₂, hsynced₂⟩ := hagain client (statAt mtime) hregular hfile
            exact hsynced₂.times_kept hin hp hregular hfile hsound' hfound rfl hread (by simpa using hno)
          have hzero := hkept 0 statAt_regular.1
          rw [hkept 1 statAt_regular.2, Prod.mk.injEq] at hzero
          exact statAt_times hzero.2.symm
        refine ⟨hread, hown, ?_⟩
        by_cases hsame : old.content = content
        · exact .inl hsame
        · refine .inr (hopens fun hequal => hsame ?_)
          obtain ⟨_, hold, -, hcontent⟩ := (hash_eq_iff hinj hnonzero).mp hequal
          rw [Option.some.inj hold]
          exact hcontent
  · intro hallows
    obtain ⟨peer', hsynced, hsound', hfound⟩ :=
      sync_stores hwait hfree hin hp hreg hfile hsound hprior hinj hnonzero hallows
    have htimes := hsynced.times
    refine ⟨peer', hsynced, transparent_of_stored hfree hsound hprior hallows hfound htimes, ?_⟩
    intro client₂ st₂ hreg₂ hfile₂
    exact sync_again hin hp hreg₂ hfile₂ hsound' hfound (Stored.of_content prior content)
      (Stored.of_permitted hallows)

section Instances

theorem clientFile_of {fs : TreeFs} {path content : Bytes}
    (hopen : Posix.fopenRead fs path = some (0, content))
    (hkind : (fs.resolve (path.drop 2)).bind fs.kind = some (.file content)) :
    ClientFile fs path content :=
  ⟨⟨0, hopen⟩, _, reads_file hkind, hashedBytes_file⟩

-- The file b at the top of the client's tree, and an empty home directory.
def clientWithTopFile : Host TreeFs :=
  exampleHost (exampleFs [[⟨[0x62], validName_b⟩]] fun _ => .file [0x78])

theorem sync_converges_top_file :
    Converges treeFiles md5OfX 5 exampleServer exampleHome [dot, slash, 0x62] [0x78] none clientWithTopFile
      emptyHome statOfFile := by
  have hfile : ClientFile clientWithTopFile.fs [dot, slash, 0x62] [0x78] :=
    clientFile_of (by decide +kernel) (by decide +kernel)
  have hprior : treeFiles.found emptyHome.fs (exampleHome ++ slash :: [dot, slash, 0x62].drop 2) =
      .ofPrior none := by
    decide +kernel
  have hallows : Allows emptyHome.fs (exampleHome ++ slash :: [dot, slash, 0x62].drop 2) [0x78] none := by
    have hopens : (Posix.fopenWrite emptyHome.fs (exampleHome ++ slash :: [0x62])).isSome = true := by
      decide +kernel
    exact hopens
  exact (sync_converges_iff treeFiles treeFs_locksGranted treeFs_noOtherLocks exampleServer_loggedIn
    ⟨by decide +kernel, by decide +kernel⟩ statOfFile_kind.2 hfile
    (show emptyHome.fs.Allocated by decide +kernel) hprior (by simp) (by decide)).mpr hallows

-- The file a/b, and a home directory without a.
theorem sync_without_directory :
    LocksGranted TreeFs ∧ NoOtherLocks TreeFs ∧ LoggedIn exampleServer 5 exampleHome ∧
      PathFits exampleHome (pathOfFile.drop 2) ∧ sIsReg (stMode statOfFile.val) = true ∧
      ClientFile clientWithFile.fs pathOfFile [0x78] ∧ treeFiles.sound emptyHome.fs ∧
      treeFiles.found emptyHome.fs (exampleHome ++ slash :: pathOfFile.drop 2) = .ofPrior none ∧
      (md5OfX [0x78]).val ≠ zeros 16 ∧
      ¬Converges treeFiles md5OfX 5 exampleServer exampleHome pathOfFile [0x78] none clientWithFile emptyHome
        statOfFile := by
  have hfits : PathFits exampleHome (pathOfFile.drop 2) := ⟨by decide +kernel, by decide +kernel⟩
  have hfile : ClientFile clientWithFile.fs pathOfFile [0x78] :=
    clientFile_of (by decide +kernel) clientWithFile_kind
  have hsound : treeFiles.sound emptyHome.fs := show emptyHome.fs.Allocated by decide +kernel
  have hprior : treeFiles.found emptyHome.fs (exampleHome ++ slash :: pathOfFile.drop 2) =
      .ofPrior none := by
    decide +kernel
  have hopen : Posix.fopenWrite emptyHome.fs (exampleHome ++ slash :: pathOfFile.drop 2) = none := by
    simp [Posix.fopenWrite, emptyHome_resolve]
  refine ⟨treeFs_locksGranted, treeFs_noOtherLocks, exampleServer_loggedIn, hfits, statOfFile_kind.2, hfile,
    hsound, hprior, by decide, ?_⟩
  rintro ⟨peer', hsynced, -, -⟩
  exact sync_stops exampleServer_loggedIn hfits statOfFile_kind.2 hfile hsound hprior (by decide) hopen _
    peer' hsynced

end Instances

end Csiebox.Session
