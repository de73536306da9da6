import Csiebox.Lib.Calls
import Csiebox.Pull.Theorems

namespace Csiebox.Pull

open CBytes Program Prog Session

section Stuck

variable {F β γ : Type} [Posix F]

-- A program that has been stopped, or waits for a lock that is not given up.
structure Stuck (q : Code β) (h : Host F) : Prop where
  unreturned : ∀ x, q ≠ ret x
  blocked : ∀ l, step host ⟨q, h, l⟩ = none

variable {h : Host F}

theorem stuck_halt (e : Fault) : Stuck (halt e : Code β) h := ⟨by simp, fun _ => rfl⟩

theorem bind_ne_ret {q : Code β} {f : β → Code γ} (hq : ∀ x, q ≠ ret x) (y : γ) : (q >>= f) ≠ ret y := by
  cases q with
  | ret x => exact absurd rfl (hq x)
  | _ => simp [Bind.bind, Prog.bind]

theorem Stuck.bind {q : Code β} (hq : Stuck q h) (f : β → Code γ) : Stuck (q >>= f) h := by
  refine ⟨bind_ne_ret hq.unreturned, fun l => ?_⟩
  cases hstep : step host (⟨q >>= f, h, l⟩ : Proc Sys UInt8 Fault (Host F) γ) with
  | none => rfl
  | some r =>
      rcases step_bind_cases hstep with ⟨x, hret⟩ | ⟨p', s', l', hfirst, -⟩
      · exact absurd hret (hq.unreturned x)
      · rw [hq.blocked l] at hfirst
        cases hfirst

-- A lock is granted, or the program waits for it for ever.
theorem setlkw_cases (h : Host F) (fp : Nat) (fl : Flock) (k : Bool → Code β) :
    (∃ granted g, ∀ l, Exec host ⟨(sys (.setlkw fp fl) : Code Bool) >>= k, h, l⟩ []
      ⟨k granted, { h with fs := g }, l⟩) ∨ Stuck ((sys (.setlkw fp fl) : Code Bool) >>= k) h := by
  cases hlock : Posix.setlkw h.fs fp fl with
  | none =>
      refine .inr (Stuck.bind ⟨by simp [sys], fun l => ?_⟩ k)
      simp [step, sys, host, Host.exec, hlock]
  | some r =>
      obtain ⟨granted, g⟩ := r
      refine .inl ⟨granted, g, fun l => Exec.after (exec_sys ?_) (.refl _)⟩
      simp [host, Host.exec, hlock, Host.set]

end Stuck

section Yields

variable {F G α : Type} [Posix F] [Posix G] {c d : Joint F G α} {Good : α → Host F → Prop}

-- Whenever the client's program has ended, its result is good.
def Yields (Good : α → Host F → Prop) (c : Joint F G α) : Prop :=
  ∀ d x, Runs c d → d.left = ret x → Good x d.leftState

-- One run says what all of them lead to.
theorem Yields.prepend (h : Yields Good d) (hrun : Runs c d) : Yields Good c := by
  intro e x hce hret
  obtain ⟨f, hdf, hef⟩ := net_diamond.confluent hrun hce
  have hstable := stable_left (K := host) (J := host) (τ := Host G) (γ := Unit)
    (fun (p : Code α) (s : Host F) => p = ret x ∧ s = e.leftState) fun p s i hp => by
      obtain ⟨rfl, -⟩ := hp
      rfl
  obtain ⟨hleft, hstate⟩ := hstable.reach ⟨hret, rfl⟩ hef
  rw [← hstate]
  exact h f x hdf hleft

theorem yields_of_never (h : ∀ d, Runs c d → ¬Returned d) : Yields Good c :=
  fun d x hrun hret => absurd ⟨x, hret⟩ (h d hrun)

theorem yields_of_stuck (h : Stuck c.left c.leftState) : Yields Good c := by
  have hstable := stable_left (K := host) (J := host) (τ := Host G) (γ := Unit)
    (fun (p : Code α) (s : Host F) => Stuck p s) fun p s i hp => hp.blocked _
  refine yields_of_never fun d hrun hret => ?_
  obtain ⟨x, hret⟩ := hret
  exact (hstable.reach h hrun).unreturned x hret

theorem yields_of_waits (hleft : Waits c.left c.toLeft) (hright : Stuck c.right c.rightState) :
    Yields Good c := by
  have hstop := Net.stop (K := host) (J := host) (hleft.stop host _) (hright.blocked _)
  refine yields_of_never fun d hrun => ?_
  rw [(stable_stop hstop).reach rfl hrun]
  exact not_returned_of_waits hleft

theorem yields_ret {x : α} (hret : c.left = ret x) (h : Good x c.leftState) : Yields Good c := by
  have hstable := stable_left (K := host) (J := host) (τ := Host G) (γ := Unit)
    (fun (p : Code α) (s : Host F) => p = ret x ∧ s = c.leftState) fun p s i hp => by
      obtain ⟨rfl, -⟩ := hp
      rfl
  intro d y hrun hy
  obtain ⟨hleft, hstate⟩ := hstable.reach ⟨hret, rfl⟩ hrun
  obtain rfl : y = x := by
    rw [hleft] at hy
    cases hy
    rfl
  rw [hstate]
  exact h

end Yields

section Receiver

variable {F : Type} [Posix F] {client : Client} {st recPath : Bytes} {h : Host F}

-- The program uses up the bytes it is given, and has returned or is stuck then.
def Takes {β : Type} (p : Code β) (h : Host F) (inbox : Bytes) : Prop :=
  (∃ x h', Exec host ⟨p, h, ⟨inbox, false⟩⟩ [] ⟨ret x, h', ⟨[], false⟩⟩) ∨
    ∃ q h', Exec host ⟨p, h, ⟨inbox, false⟩⟩ [] ⟨q, h', ⟨[], false⟩⟩ ∧ Stuck q h'

theorem Takes.bind_ret {β γ : Type} {p : Code β} {inbox : Bytes} (hp : Takes p h inbox) (f : β → γ) :
    Takes (p >>= fun x => ret (f x)) h inbox := by
  rcases hp with ⟨x, h', hrun⟩ | ⟨q, h', hrun, hstuck⟩
  · exact .inl ⟨f x, h', hrun.bind _⟩
  · exact .inr ⟨_, h', hrun.bind _, hstuck.bind _⟩

-- A program that waits for the content of an entry, or that needs none.
structure Receives {β : Type} (p : Code β) (h : Host F) (st : Bytes) : Prop where
  takes : ∀ stream, Streams st stream → Takes p h stream
  waits : sIsReg (stMode st) = true ∨ sIsLnk (stMode st) = true →
    ∃ q h', Exec host ⟨p, h, ⟨[], false⟩⟩ [] ⟨q, h', ⟨[], false⟩⟩ ∧ Waits q []

-- A program that is stuck before it looks for any content.
def StuckFirst {β : Type} (p : Code β) (h : Host F) : Prop :=
  ∃ q h', Exec host ⟨p, h, ⟨[], false⟩⟩ [] ⟨q, h', ⟨[], false⟩⟩ ∧ Stuck q h'

theorem pullFile_cases (hreg : sIsReg (stMode st) = true) (h : Host F) (recPath : Bytes) :
    StuckFirst (pullFile recPath) h ∨ Receives (pullFile recPath) h st := by
  cases hopen : Posix.fopenWrite h.fs recPath with
  | none => exact .inl ⟨_, h.tick, exec_pullFile_null hopen, stuck_halt _⟩
  | some opened =>
      obtain ⟨fp, g⟩ := opened
      obtain ⟨req, hreq⟩ := exec_uninit (F := F) (h := h) (l := ⟨[], false⟩) sizeofFile
      have hfopen := exec_fopenWrite (h := h.tick) (l := ⟨[], false⟩) hopen
      have hstart : ∀ i, Exec host ⟨pullFile recPath, h, ⟨i, false⟩⟩ [] _ := fun i =>
        (Exec.after hreq (Exec.after hfopen (.refl _))).frame i
      simp only [List.nil_append] at hstart
      rcases setlkw_cases { h.tick with fs := g } fp { Flock.zero with type := .wrlck }
        (fun _ => do
          receiveChunks N fp req.val (zeros N)
          let _ ← sys (.setlkw fp { Flock.zero with type := .unlck })
          sys (.fclose fp)) with ⟨granted, g', hlock⟩ | hstuck
      · refine .inr ⟨fun stream hstream => ?_, fun _ => ?_⟩
        · rw [Streams, if_pos hreg] at hstream
          obtain ⟨content, rfl⟩ := hstream
          have hchunks := exec_receiveChunks (h := { h.tick with fs := g' }) (c := false) (by decide)
            (by decide) fp req.property (zeros_length N).ge content []
          rw [List.append_nil] at hchunks
          have hbefore := (hstart (chunkStream N content)).trans
            ((hlock ⟨chunkStream N content, false⟩).trans (hchunks.bind _))
          rcases setlkw_cases { h.tick with fs := writeChunks g' fp (chunksOf N content) } fp
            { Flock.zero with type := .unlck } (fun _ => (sys (.fclose fp) : Code Unit)) with
            ⟨granted', g'', hunlock⟩ | hstuck
          · exact .inl ⟨(), _, hbefore.trans ((hunlock ⟨[], false⟩).trans (exec_sys rfl))⟩
          · exact .inr ⟨_, _, hbefore, hstuck⟩
        · have hloop := (exec_unroll (K := host) (s := { h.tick with fs := g' }) (receiveChunk N fp)
            (req.val, zeros N) ⟨[], false⟩).bind fun _ => do
              let _ ← sys (.setlkw fp { Flock.zero with type := .unlck })
              sys (.fclose fp)
          exact ⟨_, _, (hstart []).trans ((hlock ⟨[], false⟩).trans hloop), sizeofFile, _, rfl, by decide⟩
      · exact .inl ⟨_, _, hstart [], hstuck⟩

theorem pullEntry_receives (client : Client) (st recPath : Bytes) (h : Host F) :
    StuckFirst (pullEntry client st recPath) h ∨ Receives (pullEntry client st recPath) h st := by
  by_cases hdir : sIsDir (stMode st)
  · by_cases hfit : 0 ≤ (madeDir h.fs recPath).1 ∧ (madeDir h.fs recPath).1 < maxWatches ∧
      recPath.length < pathMax
    · refine .inr ⟨fun stream hstream => ?_, fun hkind => ?_⟩
      · have hnone : stream = [] := by
          simpa [Streams, not_reg_of_dir hdir, not_lnk_of_dir hdir] using hstream
        subst hnone
        exact .inl ⟨_, _, exec_pullEntry_dir hdir hfit⟩
      · simp [not_reg_of_dir hdir, not_lnk_of_dir hdir] at hkind
    · exact .inl ⟨_, _, exec_pullEntry_dir_overrun hdir hfit, stuck_halt _⟩
  · rw [pullEntry, if_neg hdir]
    by_cases hlnk : sIsLnk (stMode st)
    · rw [if_pos hlnk]
      have hreg : ¬sIsReg (stMode st) = true := fun hreg => by simp [not_lnk_of_reg hreg] at hlnk
      refine .inr ⟨fun stream hstream => ?_, fun _ => ?_⟩
      · rw [Streams, if_neg hreg, if_pos hlnk] at hstream
        obtain ⟨target, hfit, rfl⟩ := hstream
        exact .inl ⟨client, _, (exec_pullLink hfit).bind _⟩
      · obtain ⟨q, hq, n, k, rfl, hn⟩ := exec_pullLink_waits h recPath
        exact ⟨_, _, hq.bind _, n, _, rfl, hn⟩
    · rw [if_neg hlnk]
      by_cases hreg : sIsReg (stMode st)
      · rw [if_pos hreg]
        rcases pullFile_cases hreg h recPath with ⟨q, h', hrun, hstuck⟩ | hreceives
        · exact .inl ⟨_, _, hrun.bind _, hstuck.bind _⟩
        · refine .inr ⟨fun stream hstream => ?_, fun hkind => ?_⟩
          · exact (hreceives.takes stream hstream).bind_ret fun _ => client
          · obtain ⟨q, h', hrun, n, k, rfl, hn⟩ := hreceives.waits hkind
            exact ⟨_, h', hrun.bind _, n, _, rfl, hn⟩
      · rw [if_neg hreg]
        refine .inr ⟨fun stream hstream => ?_, fun hkind => by simp [hreg, hlnk] at hkind⟩
        rw [Streams, if_neg hreg, if_neg hlnk] at hstream
        subst hstream
        exact .inl ⟨client, h, .refl _⟩

end Receiver

section Sender

variable {G : Type} [Posix G] {st cpath : Bytes} {l : Link UInt8}

-- The server sends an entry's content, or it is stuck before it or behind it.
theorem sendFile_cases (hfits : ∀ (g : G) path size target, Posix.readlink g path size = some target →
      target.length ≤ size) (st cpath : Bytes) (h : Host G) (hl : l.alive = true) :
    (∃ stream h', Streams st stream ∧ Exec host ⟨sendFile st cpath, h, l⟩ stream ⟨ret (), h', l⟩) ∨
      ∃ out q h', Exec host ⟨sendFile st cpath, h, l⟩ out ⟨q, h', l⟩ ∧ Stuck q h' ∧
        ((out = [] ∧ (sIsReg (stMode st) = true ∨ sIsLnk (stMode st) = true)) ∨ Streams st out) := by
  by_cases hreg : sIsReg (stMode st)
  · cases hopen : Posix.fopenRead h.fs cpath with
    | none =>
        have hstream : fileStream h.fs st cpath = none := by simp [fileStream, hreg, hopen]
        obtain ⟨e, hcrash⟩ := exec_sendFile_crash (l := l) hstream
        exact .inr ⟨[], _, h, hcrash, stuck_halt e, .inl ⟨rfl, .inl hreg⟩⟩
    | some opened =>
        obtain ⟨fp, content⟩ := opened
        have hstreams : Streams st (chunkStream N content) := by
          rw [Streams, if_pos hreg]
          exact ⟨content, rfl⟩
        have hstart : Exec host ⟨sendFile st cpath, h, l⟩ [] ⟨(do
            let _ ← sys (.setlkw fp { Flock.zero with type := .rdlck })
            sendChunks N content
            let _ ← sys (.setlkw fp { Flock.zero with type := .unlck })
            sys (.fclose fp)), h, l⟩ := by
          rw [sendFile, if_pos hreg]
          refine Exec.after (exec_sys rfl) ?_
          simp only [hopen]
          exact .refl _
        rcases setlkw_cases h fp { Flock.zero with type := .rdlck } (fun _ => do
            sendChunks N content
            let _ ← sys (.setlkw fp { Flock.zero with type := .unlck })
            sys (.fclose fp)) with ⟨granted, g, hlock⟩ | hstuck
        · have hsent := hstart.trans ((hlock l).trans
            ((exec_sendChunks (K := host) (by decide) hl content).bind _))
          simp only [List.nil_append] at hsent
          rcases setlkw_cases { h with fs := g } fp { Flock.zero with type := .unlck }
            (fun _ => (sys (.fclose fp) : Code Unit)) with ⟨granted', g', hunlock⟩ | hstuck
          · refine .inl ⟨_, _, hstreams, ((hsent.trans ((hunlock l).trans (exec_sys rfl))).cast ?_)⟩
            simp only [List.append_nil]
          · exact .inr ⟨_, _, _, hsent, hstuck, .inr hstreams⟩
        · exact .inr ⟨[], _, _, hstart, hstuck, .inl ⟨rfl, .inl hreg⟩⟩
  · by_cases hlnk : sIsLnk (stMode st)
    · cases hread : Posix.readlink h.fs cpath N with
      | none =>
          have hstream : fileStream h.fs st cpath = none := by simp [fileStream, hreg, hlnk, hread]
          obtain ⟨e, hcrash⟩ := exec_sendFile_crash (l := l) hstream
          exact .inr ⟨[], _, h, hcrash, stuck_halt e, .inl ⟨rfl, .inr hlnk⟩⟩
      | some target =>
          refine .inl ⟨fileMessage target.length ++ target, h, ?_, ?_⟩
          · rw [Streams, if_neg hreg, if_pos hlnk]
            exact ⟨target, hfits _ _ _ _ hread, rfl⟩
          · rw [sendFile, if_neg hreg, if_pos hlnk]
            refine Exec.after (exec_sys rfl) ?_
            simp only [hread]
            exact (exec_sendPayload hl target (.refl _)).cast (by rw [List.append_nil])
    · refine .inl ⟨[], h, ?_, ?_⟩
      · rw [Streams, if_neg hreg, if_neg hlnk]
      · rw [sendFile, if_neg hreg, if_neg hlnk]
        exact .refl _

end Sender

section Entry

variable {F G α : Type} [Posix F] [Posix G] {md5 : Bytes → Mem 16} {len : Nat} {home : Bytes}
  {rest : Client → Code α} {Good : α → Host F → Prop}

-- What a pull carries along: `J` of the client and `ok` of the server's files, while the
-- traversal goes from `home` to the paths of `Entry`.
structure Carries (J : Client → Host F → Prop) (ok : G → Prop) (Entry : Bytes → Prop) (home : Bytes)
    (len : Nat) : Prop where
  fits : ∀ (g : G) path size target, Posix.readlink g path size = some target → target.length ≤ size
  below : ∀ g dirName entries, ok g → dirName = home ∨ Entry dirName →
    Posix.opendir g dirName = some entries → ∀ entry ∈ entries, entry.name.val.head? ≠ some dot →
      Entry (snprintfPath dirName entry.name.val)
  takes : ∀ cpath, Entry cpath → ∀ (st : Mem 144) client ch stream client' ch', J client ch →
    Exec host ⟨pullEntry client st.val (dotSlash ++ cString (cpath.drop len)), ch, ⟨stream, false⟩⟩ []
      ⟨ret client', ch', ⟨[], false⟩⟩ →
    J client' (touch ch' (dotSlash ++ cString (cpath.drop len)) st.val)
  sends : ∀ (st cpath : Bytes) (h h' : Host G) out, ok h.fs →
    Exec host ⟨sendFile st cpath, h, ⟨[], false⟩⟩ out ⟨ret (), h', ⟨[], false⟩⟩ → ok h'.fs

-- Every state of the traversal from which `k` is to run.
def Next (J : Client → Host F → Prop) (ok : G → Prop) (Good : α → Host F → Prop)
    (rest : Client → Code α) (k : Code Unit) : Prop :=
  ∀ header client ch (sh : Host G) a b, J client ch → ok sh.fs →
    Yields Good (pullState rest header client ch k sh a b)

variable {J : Client → Host F → Prop} {ok : G → Prop} {Entry : Bytes → Prop}

theorem sendEntry_yields (hcarries : Carries J ok Entry home len) {cpath : Bytes}
    (hentry : Entry cpath) (hpath : (cpath.drop len).length < pathMax) (st : Mem 144)
    {k : Unit → Code Unit} (hnext : Next J ok Good rest (k ())) :
    Next J ok Good rest (sendEntry md5 len st.val cpath >>= k) := by
  intro header client ch sh a b hJ hok
  cases hd : digestOf md5 sh.fs st.val (cpath.drop len) with
  | none =>
      obtain ⟨q, hq, j, rfl⟩ := exec_pulling_announced header client rest ch
      have hserver : Talk host (sendEntry md5 len st.val cpath >>= k) sh [([], announcement)]
          (halt .overrun) sh := .one ((exec_sendEntry_crash hd rfl).bind k)
      refine Yields.prepend ?_ ((meets_announcement _).runs hq hserver a b)
      exact yields_of_waits ⟨sizeofMeta, j, rfl, by simp [sizeofMeta]⟩ (stuck_halt _)
  | some hash =>
      obtain ⟨finish, hfinish, hclient⟩ := talk_pulling header client rest st hpath
        (digestOf_length hd) ch
      have hserver := (talk_sendEntry hd).bind k
      rcases pullEntry_receives client st.val (dotSlash ++ cString (cpath.drop len)) ch with
        ⟨q, ch', hrun, hstuck⟩ | hreceives
      · have hleft := hclient.trans (.one (hrun.bind finish))
        exact (yields_of_stuck (hstuck.bind finish)).prepend ((meets_path ..).runs hleft hserver a b)
      · rcases sendFile_cases hcarries.fits st.val cpath sh (l := ⟨[], false⟩) rfl with
          ⟨stream, sh', hstream, hsend⟩ | ⟨out, q', sh', hsend, hstuck, hout⟩
        · have hright := hserver.trans (.one (hsend.bind k))
          rcases hreceives.takes stream hstream with ⟨client', ch', hrun⟩ | ⟨q, ch', hrun, hstuck⟩
          · have hleft := hclient.trans (.one (Exec.after hrun (hfinish _ _)))
            refine Yields.prepend ?_ ((meets_entry ..).runs hleft hright a b)
            exact hnext _ _ _ _ _ _ (hcarries.takes cpath hentry st client ch _ _ _ hJ hrun)
              (hcarries.sends _ _ _ _ _ hok hsend)
          · have hleft := hclient.trans (.one (hrun.bind finish))
            exact (yields_of_stuck (hstuck.bind finish)).prepend ((meets_entry ..).runs hleft hright a b)
        · have hright := hserver.trans (.one (hsend.bind k))
          rcases hout with ⟨rfl, hkind⟩ | hstream
          · obtain ⟨q, ch', hrun, n, j, rfl, hn⟩ := hreceives.waits hkind
            have hleft := hclient.trans (.one (hrun.bind finish))
            exact (yields_of_waits ⟨n, _, rfl, hn⟩ (hstuck.bind k)).prepend
              ((meets_entry ..).runs hleft hright a b)
          · rcases hreceives.takes out hstream with ⟨client', ch', hrun⟩ | ⟨q, ch', hrun, hleft⟩
            · have hleft := hclient.trans (.one (Exec.after hrun (hfinish _ _)))
              exact (yields_of_waits (pulling_waits echo client' rest) (hstuck.bind k)).prepend
                ((meets_entry ..).runs hleft hright a b)
            · have hclient' := hclient.trans (.one (hrun.bind finish))
              exact (yields_of_stuck (hleft.bind finish)).prepend
                ((meets_entry ..).runs hclient' hright a b)

theorem yields_server_halt (e : Fault) : Next J ok Good rest (halt e) :=
  fun header client _ _ _ _ _ _ => yields_of_waits (pulling_waits header client rest) (stuck_halt e)

theorem serverEntry_yields (hcarries : Carries J ok Entry home len) {connFd : Nat} {cpath : Bytes}
    (hentry : Entry cpath) (hpath : (cpath.drop len).length < pathMax) (st : Mem 144)
    (hl : List HardLink) {k : List HardLink → Code Unit} (hnext : ∀ hl, Next J ok Good rest (k hl)) :
    Next J ok Good rest (serverEntry md5 len connFd st.val cpath hl >>= k) := by
  by_cases hlinked : linked st.val
  · by_cases hfd : connFd < maxConns
    · rw [serverEntry_linked hlinked, checkSize_pos hfd, ret_bind]
      by_cases hknown : ∃ h ∈ hl, h.inode = stIno st.val
      · intro header client ch sh a b _ _
        exact yields_of_never fun d => (deadlocks_known hknown _).not_returned
      · have hnew : ∀ h ∈ hl, h.inode ≠ stIno st.val := by simpa using hknown
        rw [sendKnownLinks_none hnew, ret_bind]
        refine sendEntry_yields hcarries hentry hpath st ?_
        by_cases hroom : hl.length < maxLinks
        · rw [checkSize_pos hroom, ret_bind]
          exact hnext _
        · rw [checkSize_neg hroom, halt_bind]
          exact yields_server_halt _
    · rw [serverEntry_linked hlinked, checkSize_neg hfd, halt_bind]
      exact yields_server_halt _
  · rw [serverEntry_single hlinked]
    exact sendEntry_yields hcarries hentry hpath st (hnext _)

theorem serverVisit_yields (hcarries : Carries J ok Entry home len) {connFd : Nat}
    {descend : Bytes → List HardLink → Code (List HardLink)}
    (hdescend : ∀ dirName hl (k : List HardLink → Code Unit), Entry dirName →
      (∀ hl, Next J ok Good rest (k hl)) → Next J ok Good rest (descend dirName hl >>= k))
    (dirName : Bytes) (entries : List Dirent)
    (hentries : ∀ entry ∈ entries, entry.name.val.head? ≠ some dot →
      Entry (snprintfPath dirName entry.name.val))
    (hl : List HardLink) {k : List HardLink → Code Unit} (hnext : ∀ hl, Next J ok Good rest (k hl)) :
    Next J ok Good rest (serverVisit md5 len connFd descend dirName entries hl >>= k) := by
  induction entries generalizing hl with
  | nil => exact hnext hl
  | cons entry entries ih =>
      have hrest := ih fun e he => hentries e (List.mem_cons_of_mem _ he)
      rw [serverVisit]
      split_ifs with hhidden
      · exact hrest hl
      · have hentry := hentries entry (List.mem_cons_self ..) hhidden
        intro header client ch sh a b hJ hok
        have hlstat := (exec_sys (β := UInt8) (ε := Fault) (K := host) (s := sh) (l := ⟨[], false⟩)
          (o := .lstat (snprintfPath dirName entry.name.val)) rfl)
        cases hst : Posix.lstat sh.fs (snprintfPath dirName entry.name.val) with
        | none =>
            rw [hst] at hlstat
            exact (hnext hl header client ch sh a b hJ hok).prepend
              (quiet_right header client ch a b ((hlstat.bind _).bind k)).run
        | some st =>
            rw [hst] at hlstat
            refine Yields.prepend ?_ (quiet_right header client ch a b ((hlstat.bind _).bind k)).run
            simp only [ret_bind, bind_assoc]
            refine serverEntry_yields hcarries hentry (snprintfPath_length _ _ len) st hl
              (fun hl => ?_) header client ch sh a b hJ hok
            split_ifs with hdir
            · exact hdescend _ hl _ hentry hrest
            · exact hrest hl

theorem traverse_yields (hcarries : Carries J ok Entry home len) {connFd : Nat} (depth : Nat)
    (dirName : Bytes) (hdir : dirName = home ∨ Entry dirName) (hl : List HardLink)
    {k : List HardLink → Code Unit} (hnext : ∀ hl, Next J ok Good rest (k hl)) :
    Next J ok Good rest (serverTraverseFile md5 len connFd depth dirName hl >>= k) := by
  induction depth generalizing dirName hl k with
  | zero => exact yields_server_halt _
  | succ depth ih =>
      rw [serverTraverseFile]
      intro header client ch sh a b hJ hok
      have hopendir := (exec_sys (β := UInt8) (ε := Fault) (K := host) (s := sh) (l := ⟨[], false⟩)
        (o := .opendir dirName) rfl)
      cases hentries : Posix.opendir sh.fs dirName with
      | none =>
          rw [hentries] at hopendir
          exact (hnext hl header client ch sh a b hJ hok).prepend
            (quiet_right header client ch a b ((hopendir.bind _).bind k)).run
      | some entries =>
          rw [hentries] at hopendir
          refine Yields.prepend ?_ (quiet_right header client ch a b ((hopendir.bind _).bind k)).run
          exact serverVisit_yields hcarries (fun dirName hl k hentry hnext =>
            ih dirName (.inr hentry) hl hnext) dirName entries
            (hcarries.below sh.fs dirName entries hok hdir hentries) hl hnext header client ch sh a b
            hJ hok

end Entry

section Start

variable {F G : Type} [Posix F] [Posix G] {md5 : Bytes → Mem 16} {J : Client → Host F → Prop}
  {ok : G → Prop} {Entry : Bytes → Prop} {home : Bytes}

-- What a pull that has come to its end has carried along.
theorem pull_yields (hcarries : Carries J ok Entry home (home.length + 1)) (server : Server)
    (connFd : Nat) {client : Client} {ch : Host F} {sh : Host G} (k : Server → Code Unit)
    (hJ : J client ch) (hok : ok sh.fs) : Yields J (pullStart md5 server connFd home client ch sh k) := by
  refine Yields.prepend ?_ (pullStart_runs md5 server connFd home client ch sh k)
  refine traverse_yields hcarries pathMax home (.inl rfl) (server.hl connFd) (fun hl => ?_) _ _ _ _ _ _
    hJ hok
  intro header client ch sh a b hJ _
  obtain ⟨b', hrun⟩ := sendOk_runs server connFd hl header client ret ch sh k a b
  exact (yields_ret rfl hJ).prepend hrun

end Start

end Csiebox.Pull
