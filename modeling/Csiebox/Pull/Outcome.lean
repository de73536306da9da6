import Csiebox.Pull.Lemmas

namespace Csiebox.Pull

open CBytes Program Prog Session

section Sender

variable {G : Type} [Posix G] {md5 : Bytes → Mem 16} {h : Host G} {st cpath hash : Bytes}
  {len : Nat} {l : Link UInt8}

theorem talk_sendEntry (hd : digestOf md5 h.fs st (cpath.drop len) = some hash) :
    Talk host (sendEntry md5 len st cpath) h
      [([], announcement), ([], metaMessage statusMore (cpath.drop len).length st hash),
        (echo.val, []), ([], cpath.drop len)] (sendFile st cpath) h := by
  have hmeta := talk_sendMeta hd echo.property (by decide)
  exact Talk.seq (talk_sendMessage announcement) (Talk.seq hmeta (.nil _ _))

theorem exec_sendEntry_crash (hd : digestOf md5 h.fs st (cpath.drop len) = none)
    (hl : l.alive = true) :
    Exec host ⟨sendEntry md5 len st cpath, h, l⟩ announcement ⟨halt .overrun, h, l⟩ := by
  have hmeta := ((exec_metaDigest_crash (l := l) hd).bind fun hash => do
    iter (announce (metaMessage statusMore (cpath.drop len).length st hash)) ()
    let _ ← sendMessage (cpath.drop len)
    ret ()).bind fun _ => sendFile st cpath
  exact (Exec.seq (exec_sendMessage hl) hmeta).cast (by simp)

-- What a client that has been told of an entry may get for it.
def Streams (st stream : Bytes) : Prop :=
  if sIsReg (stMode st) then ∃ content, stream = chunkStream N content
  else if sIsLnk (stMode st) then
    ∃ target : Bytes, target.length ≤ N ∧ stream = fileMessage target.length ++ target
  else stream = []

theorem streams_fileStream (hG : Undisturbed G) {f : G} {stream : Bytes}
    (hstream : fileStream f st cpath = some stream) : Streams st stream := by
  unfold fileStream at hstream
  unfold Streams
  split_ifs at hstream ⊢ with hreg hlnk
  · obtain ⟨⟨fp, content⟩, -, rfl⟩ := Option.map_eq_some_iff.mp hstream
    exact ⟨content, rfl⟩
  · obtain ⟨target, hread, rfl⟩ := Option.map_eq_some_iff.mp hstream
    exact ⟨target, hG.linkFits _ _ _ _ hread, rfl⟩
  · exact (Option.some.inj hstream).symm

theorem kind_of_no_stream {f : G} (hstream : fileStream f st cpath = none) :
    sIsReg (stMode st) = true ∨ sIsLnk (stMode st) = true := by
  by_contra hkind
  rw [not_or, Bool.not_eq_true, Bool.not_eq_true] at hkind
  simp [fileStream, hkind.1, hkind.2] at hstream

end Sender

section Receiver

variable {F : Type} [Posix F]

-- The client takes up an entry, or it is stopped before it looks for a stream.
theorem pullEntry_cases (hwait : LocksGranted F) (client : Client) (st recPath : Bytes)
    (h : Host F) :
    (∃ e h', h'.notices = h.notices ∧ Exec host ⟨pullEntry client st recPath, h, ⟨[], false⟩⟩ []
      ⟨halt e, h', ⟨[], false⟩⟩) ∨
    ((∀ stream, Streams st stream → ∃ client' h', h'.notices = h.notices ∧
        Exec host ⟨pullEntry client st recPath, h, ⟨stream, false⟩⟩ []
          ⟨ret client', h', ⟨[], false⟩⟩) ∧
      (sIsReg (stMode st) = true ∨ sIsLnk (stMode st) = true → ∃ q h', h'.notices = h.notices ∧
        Exec host ⟨pullEntry client st recPath, h, ⟨[], false⟩⟩ [] ⟨q, h', ⟨[], false⟩⟩ ∧
          Waits q [])) := by
  by_cases hdir : sIsDir (stMode st)
  · by_cases hfit : 0 ≤ (madeDir h.fs recPath).1 ∧ (madeDir h.fs recPath).1 < maxWatches ∧
      recPath.length < pathMax
    · refine .inr ⟨fun stream hstream => ?_, fun hkind => ?_⟩
      · have hnone : stream = [] := by
          simpa [Streams, not_reg_of_dir hdir, not_lnk_of_dir hdir] using hstream
        subst hnone
        exact ⟨_, { h with fs := (madeDir h.fs recPath).2 }, rfl, exec_pullEntry_dir hdir hfit⟩
      · simp [not_reg_of_dir hdir, not_lnk_of_dir hdir] at hkind
    · exact .inl ⟨_, { h with fs := (madeDir h.fs recPath).2 }, rfl,
        exec_pullEntry_dir_overrun hdir hfit⟩
  · rw [pullEntry, if_neg hdir]
    by_cases hlnk : sIsLnk (stMode st)
    · rw [if_pos hlnk]
      have hreg : ¬sIsReg (stMode st) = true := fun hreg => by simp [not_lnk_of_reg hreg] at hlnk
      refine .inr ⟨fun stream hstream => ?_, fun _ => ?_⟩
      · rw [Streams, if_neg hreg, if_pos hlnk] at hstream
        obtain ⟨target, hfit, rfl⟩ := hstream
        exact ⟨client, { h.tick with fs := (Posix.symlink h.fs (cString target) recPath).2 }, rfl,
          (exec_pullLink hfit).bind _⟩
      · obtain ⟨q, hq, n, k, rfl, hn⟩ := exec_pullLink_waits h recPath
        exact ⟨_, h.tick, rfl, hq.bind _, n, _, rfl, hn⟩
    · rw [if_neg hlnk]
      by_cases hreg : sIsReg (stMode st)
      · rw [if_pos hreg]
        cases hopen : Posix.fopenWrite h.fs recPath with
        | none => exact .inl ⟨_, h.tick, rfl, (exec_pullFile_null hopen).bind _⟩
        | some opened =>
            obtain ⟨fp, g⟩ := opened
            refine .inr ⟨fun stream hstream => ?_, fun _ => ?_⟩
            · rw [Streams, if_pos hreg] at hstream
              obtain ⟨content, rfl⟩ := hstream
              exact ⟨client, { h.tick with fs := pulledFile g fp content }, rfl,
                (exec_pullFile hwait hopen content).bind _⟩
            · obtain ⟨q, g', hq, n, k, rfl, hn⟩ := exec_pullFile_waits hwait hopen
              exact ⟨_, { h.tick with fs := g' }, rfl, hq.bind _, n, _, rfl, hn⟩
      · rw [if_neg hreg]
        refine .inr ⟨fun stream hstream => ?_, fun hkind => by simp [hreg, hlnk] at hkind⟩
        rw [Streams, if_neg hreg, if_neg hlnk] at hstream
        subst hstream
        exact ⟨client, h, rfl, .refl _⟩

end Receiver

section Meetings

variable (ann body reply path stream : Bytes)

-- The rounds of an entry that both ends finish.
theorem meets_entry : Meets [] []
    ([(ann, []), (body, reply), (path, [])] ++ [(stream, [])])
    ([([], ann), ([], body), (reply, []), ([], path)] ++ [([], stream)]) := by
  refine .right [] (by simp) (.left [] (by simp) (.right [] (by simp) (.left [] (by simp) ?_)))
  refine .right [] (by simp) (.right [] (by simp) (.left [] (by simp) (.right [] (by simp) ?_)))
  exact .left [] (by simp) .nil

-- Of one where the client gets no further than the path.
theorem meets_path : Meets [] []
    ([(ann, []), (body, reply), (path, [])] ++ [([], [])])
    [([], ann), ([], body), (reply, []), ([], path)] := by
  refine .right [] (by simp) (.left [] (by simp) (.right [] (by simp) (.left [] (by simp) ?_)))
  exact .right [] (by simp) (.right [] (by simp) (.left [] (by simp) (.left [] (by simp) .nil)))

-- Of one where the server is stopped behind the announcement.
theorem meets_announcement : Meets [] [] [(ann, [])] [([], ann)] :=
  .right [] (by simp) (.left [] (by simp) .nil)

end Meetings

section Entry

variable {F G α : Type} [Posix F] [Posix G] {md5 : Bytes → Mem 16} {len : Nat}
  {rest : Client → Code α} {header : Mem sizeofHeader} {client : Client} {ch : Host F}
  {sh : Host G} {st : Mem 144} {cpath : Bytes} {k : Unit → Code Unit} {a b : Bytes}

-- The client has read the announcement and waits for the meta data.
theorem exec_pulling_announced (header : Mem sizeofHeader) (client : Client)
    (rest : Client → Code α) (ch : Host F) :
    ∃ q : Code α, Talk host (pulling header client rest) ch [(announcement, [])] q ch ∧
      ∃ k, q = .recv sizeofMeta k := by
  have hhead : Talk host (recvMessage header.val sizeofHeader) ch [(announcement, [])]
      (ret (true, announcement)) ch :=
    talk_recvMessage (header_length _ _ _ _ _) header.property (by decide)
  exact ⟨_, ((hhead.bind _).bind _).bind rest, _, rfl⟩

theorem entry_outcome (hF : LocksGranted F) (hG : Undisturbed G)
    (hpath : (cpath.drop len).length < pathMax) :
    Crashes (pullState rest header client ch (sendEntry md5 len st.val cpath >>= k) sh a b) ∨
      ∃ client' ch' a' b',
        Quiet (pullState rest header client ch (sendEntry md5 len st.val cpath >>= k) sh a b)
          (pullState rest echo client' ch' (k ()) sh a' b') := by
  cases hd : digestOf md5 sh.fs st.val (cpath.drop len) with
  | none =>
      obtain ⟨q, hq, j, rfl⟩ := exec_pulling_announced header client rest ch
      have hserver : Talk host (sendEntry md5 len st.val cpath >>= k) sh [([], announcement)]
          (halt .overrun) sh := .one ((exec_sendEntry_crash hd rfl).bind k)
      exact .inl ⟨_, ⟨(meets_announcement _).runs hq hserver a b, rfl, rfl⟩,
        .inr ⟨⟨_, rfl⟩, sizeofMeta, j, rfl, by simp [sizeofMeta]⟩⟩
  | some hash =>
      obtain ⟨finish, hfinish, hclient⟩ := talk_pulling header client rest st hpath
        (digestOf_length hd) ch
      have hserver := (talk_sendEntry hd).bind k
      rcases pullEntry_cases hF client st.val (dotSlash ++ cString (cpath.drop len)) ch with
        ⟨e, ch', hnotices, hcrash⟩ | ⟨hdone, hwaits⟩
      · have hleft := hclient.trans (.one (hcrash.bind finish))
        exact .inl ⟨_, ⟨(meets_path ..).runs hleft hserver a b, hnotices, rfl⟩, .inl ⟨e, rfl⟩⟩
      · cases hstream : fileStream sh.fs st.val cpath with
        | none =>
            obtain ⟨q, ch', hnotices, hq, n, j, rfl, hn⟩ := hwaits (kind_of_no_stream hstream)
            obtain ⟨e, hcrash⟩ := exec_sendFile_crash (l := ⟨[], false⟩) hstream
            have hleft := hclient.trans (.one (hq.bind finish))
            have hright := hserver.trans (.one (hcrash.bind k))
            exact .inl ⟨_, ⟨(meets_entry ..).runs hleft hright a b, hnotices, rfl⟩,
              .inr ⟨⟨e, rfl⟩, n, _, rfl, hn⟩⟩
        | some stream =>
            obtain ⟨client', ch', hnotices, hentry⟩ := hdone stream (streams_fileStream hG hstream)
            have hsend := exec_sendFile (l := ⟨[], false⟩) hG.granted rfl hstream
            rw [hG.unchanged] at hsend
            have hleft := hclient.trans (.one (Exec.after hentry (hfinish _ _)))
            have hright := hserver.trans (.one (hsend.bind k))
            exact .inr ⟨client', touch ch' _ st.val, _, _,
              ⟨(meets_entry ..).runs hleft hright a b, hnotices, rfl⟩⟩

end Entry

section KnownLinks

variable {G : Type} {h : Host G} {st target : Bytes} {l : Link UInt8}

theorem sendKnownLinks_none {hl : List HardLink} (hnew : ∀ h ∈ hl, h.inode ≠ stIno st) :
    sendKnownLinks st target hl = ret () := by
  induction hl with
  | nil => rfl
  | cons h hs ih =>
      rw [sendKnownLinks, if_neg (hnew h (List.mem_cons_self ..))]
      exact ih fun h' hh => hnew h' (List.mem_cons_of_mem _ hh)

-- The server announces a link like any entry, sends the link message and waits
-- for an answer.
theorem exec_sendKnownLinks_waits [Posix G] (h : Host G) (target : Bytes) {hl : List HardLink}
    (hl' : l.alive = true)
    (hknown : ∃ h ∈ hl, h.inode = stIno st) :
    ∃ (source : Bytes) (q : Code Unit), Exec host ⟨sendKnownLinks st target hl, h, l⟩
      (announcement ++ hardlinkMessage source.length target.length) ⟨q, h, l⟩ ∧
        ∃ k, q = .recv sizeofHeader k := by
  induction hl with
  | nil => simp at hknown
  | cons link links ih =>
      rw [sendKnownLinks]
      split_ifs with hmatch
      · obtain ⟨q, hq, k, rfl⟩ := exec_sendHardlink_waits (K := host) (s := h) hl' link.path target
        exact ⟨link.path, _, Exec.seq (exec_sendMessage hl') (hq.bind _), _, rfl⟩
      · obtain ⟨known, hmem, hinode⟩ := hknown
        rcases List.mem_cons.mp hmem with rfl | hmem
        · exact absurd hinode hmatch
        · exact ih ⟨known, hmem, hinode⟩

theorem hardlinkMessage_length (srclen targetlen : Nat) :
    (hardlinkMessage srclen targetlen).length = sizeofHardlink := by
  rw [hardlinkMessage, List.length_append, header_length, hardlinkBody_length]
  rfl

end KnownLinks

section ServerEntry

variable {F G α : Type} [Posix F] [Posix G] {md5 : Bytes → Mem 16} {len connFd : Nat}
  {rest : Client → Code α} {header : Mem sizeofHeader} {client : Client} {ch : Host F}
  {sh : Host G} {st : Mem 144} {cpath : Bytes} {hl : List HardLink}
  {k : List HardLink → Code Unit} {a b : Bytes}

theorem pulling_waits (header : Mem sizeofHeader) (client : Client) (rest : Client → Code α) :
    Waits (pulling header client rest) [] :=
  ⟨sizeofHeader, _, rfl, by simp [sizeofHeader]⟩

theorem fresh_single {v : Visit} :
    Fresh hl [v] ↔ (linked v.st.val = true → ∀ h ∈ hl, h.inode ≠ stIno v.st.val) := by
  by_cases hlinked : linked v.st.val
  · have hinodes : inodes [v] = [stIno v.st.val] := by simp [inodes, hlinked]
    refine ⟨fun h _ link hmem heq => h.new link hmem (by simp [hinodes, heq]), fun h => ⟨?_, ?_⟩⟩
    · simp [hinodes]
    · intro link hmem
      simpa [hinodes] using h hlinked link hmem
  · have hinodes : inodes [v] = [] := by simp [inodes, hlinked]
    exact ⟨fun _ h => absurd h hlinked, fun _ => ⟨by simp [hinodes], by simp [hinodes]⟩⟩

-- The server's program is stopped while the client waits for an announcement.
theorem crashes_halt (e : Fault) : Crashes (pullState rest header client ch (halt e) sh a b) :=
  ⟨_, .refl _, .inr ⟨⟨e, rfl⟩, pulling_waits header client rest⟩⟩

theorem serverEntry_linked (hlinked : linked st.val = true) :
    serverEntry md5 len connFd st.val cpath hl >>= k = (do
      checkSize (connFd < maxConns)
      sendKnownLinks st.val (cpath.drop len) hl
      sendEntry md5 len st.val cpath
      checkSize (hl.length < maxLinks)
      k (hl ++ linksOf len [⟨cpath, st⟩])) := by
  have hlinks : linksOf len [⟨cpath, st⟩] = [{ inode := stIno st.val, path := cpath.drop len }] := by
    simp [linksOf, hlinked]
  have hbranch : (!sIsDir (stMode st.val) && stNlink st.val != 1) = true := hlinked
  rw [serverEntry, if_pos hbranch, hlinks]
  simp only [bind_assoc, ret_bind]

theorem serverEntry_single (hlinked : ¬linked st.val = true) :
    serverEntry md5 len connFd st.val cpath hl >>= k = (do
      sendEntry md5 len st.val cpath
      k (hl ++ linksOf len [⟨cpath, st⟩])) := by
  have hlinks : linksOf len [⟨cpath, st⟩] = [] := by simp [linksOf, hlinked]
  have hbranch : ¬(!sIsDir (stMode st.val) && stNlink st.val != 1) = true := hlinked
  rw [serverEntry, if_neg hbranch, hlinks, List.append_nil]
  simp only [bind_assoc, ret_bind]

-- A file that `hl` knows stops both ends: the client takes the announcement for
-- the one of an entry, and waits for meta data.
theorem deadlocks_known (hknown : ∃ h ∈ hl, h.inode = stIno st.val) (k : Unit → Code Unit) :
    Deadlocks (pullState rest header client ch
      (sendKnownLinks st.val (cpath.drop len) hl >>= k) sh a b) := by
  obtain ⟨q, hq, j, rfl⟩ := exec_pulling_announced header client rest ch
  obtain ⟨source, q, hsend, i, rfl⟩ := exec_sendKnownLinks_waits (l := ⟨[], false⟩) sh
    (cpath.drop len) rfl hknown
  have hsent := runs_right (K := host) (J := host) (p := pulling header client rest) (s := ch)
    (i := []) (a := a) (b := b) (hsend.bind k)
  cases hq with
  | cons round rest' =>
      cases rest'
      have hread := runs_left (K := host) (J := host) (r := recv sizeofHeader i >>= k) (u := sh)
        (w := []) (a := a) (b := b ++ (announcement ++
          hardlinkMessage source.length (cpath.drop len).length))
        (round.frame (hardlinkMessage source.length (cpath.drop len).length))
      refine ⟨_, ⟨hsent.trans hread, rfl, rfl⟩, ⟨sizeofMeta, j, rfl, ?_⟩, ⟨sizeofHeader, _, rfl, ?_⟩⟩
      · simp [hardlinkMessage_length, sizeofHardlink, sizeofMeta]
      · simp [sizeofHeader]

-- What becomes of a state whose server is to send `vs` and go on with `k`: an end
-- is stopped, both wait for ever at a file met twice, or both get through.
def Pulls (len : Nat) (rest : Client → Code α) (sh : Host G) (start : Joint F G α)
    (hl : List HardLink) (vs : List Visit) (k : List HardLink → Code Unit) : Prop :=
  Crashes start ∨ (Deadlocks start ∧ ¬Fresh hl vs) ∨
    (Fresh hl vs ∧ ∃ header client ch a b,
      Quiet start (pullState rest header client ch (k (hl ++ linksOf len vs)) sh a b))

theorem serverEntry_pulls (hF : LocksGranted F) (hG : Undisturbed G)
    (hpath : (cpath.drop len).length < pathMax) :
    Pulls len rest sh (pullState rest header client ch
      (serverEntry md5 len connFd st.val cpath hl >>= k) sh a b) hl [⟨cpath, st⟩] k := by
  by_cases hlinked : linked st.val
  · by_cases hfd : connFd < maxConns
    · simp only [serverEntry_linked hlinked, checkSize_pos hfd, ret_bind]
      by_cases hknown : ∃ h ∈ hl, h.inode = stIno st.val
      · refine .inr (.inl ⟨deadlocks_known hknown _, fun hfresh => ?_⟩)
        obtain ⟨link, hmem, hinode⟩ := hknown
        exact fresh_single.mp hfresh hlinked link hmem hinode
      · have hnew : ∀ h ∈ hl, h.inode ≠ stIno st.val := by simpa using hknown
        have hfresh : Fresh hl [⟨cpath, st⟩] := fresh_single.mpr fun _ => hnew
        rw [sendKnownLinks_none hnew, ret_bind]
        rcases entry_outcome hF hG hpath with hcrash | ⟨client', ch', a', b', hquiet⟩
        · exact .inl hcrash
        · by_cases hroom : hl.length < maxLinks
          · simp only [checkSize_pos hroom, ret_bind] at hquiet ⊢
            exact .inr (.inr ⟨hfresh, echo, client', ch', a', b', hquiet⟩)
          · simp only [checkSize_neg hroom, halt_bind] at hquiet ⊢
            exact .inl ((crashes_halt _).prepend hquiet)
    · simp only [serverEntry_linked hlinked, checkSize_neg hfd]
      exact .inl (crashes_halt _)
  · have hfresh : Fresh hl [⟨cpath, st⟩] := fresh_single.mpr fun h => absurd h hlinked
    simp only [serverEntry_single hlinked]
    rcases entry_outcome hF hG hpath with hcrash | ⟨client', ch', a', b', hquiet⟩
    · exact .inl hcrash
    · exact .inr (.inr ⟨hfresh, echo, client', ch', a', b', hquiet⟩)

end ServerEntry

section Traversal

variable {F G α : Type} [Posix F] [Posix G] {md5 : Bytes → Mem 16} {len connFd : Nat}
  {rest : Client → Code α} {sh : Host G} {start : Joint F G α} {hl : List HardLink}
  {us vs : List Visit} {j k : List HardLink → Code Unit}

theorem Pulls.nil (header : Mem sizeofHeader) (client : Client) (ch : Host F) (a b : Bytes) :
    Pulls len rest sh (pullState rest header client ch (k hl) sh a b) hl [] k := by
  refine .inr (.inr ⟨fresh_nil, header, client, ch, a, b, ?_⟩)
  rw [show linksOf len [] = [] from rfl, List.append_nil]
  exact .refl _

-- First `us`, then `vs`.
theorem Pulls.append (h : Pulls len rest sh start hl us j)
    (hnext : ∀ header client (ch : Host F) a b,
      Pulls len rest sh (pullState rest header client ch (j (hl ++ linksOf len us)) sh a b)
        (hl ++ linksOf len us) vs k) : Pulls len rest sh start hl (us ++ vs) k := by
  rcases h with hcrash | ⟨hdead, hfresh⟩ | ⟨hfresh, header, client, ch, a, b, hquiet⟩
  · exact .inl hcrash
  · exact .inr (.inl ⟨hdead, fun h => hfresh ((fresh_append len).mp h).1⟩)
  · rcases hnext header client ch a b with hcrash | ⟨hdead, hold⟩ |
      ⟨hnew, header', client', ch', a', b', hquiet'⟩
    · exact .inl (hcrash.prepend hquiet)
    · exact .inr (.inl ⟨hdead.prepend hquiet, fun h => hold ((fresh_append len).mp h).2⟩)
    · refine .inr (.inr ⟨(fresh_append len).mpr ⟨hfresh, hnew⟩, header', client', ch', a', b', ?_⟩)
      rw [linksOf_append, ← List.append_assoc]
      exact hquiet.trans hquiet'

theorem Pulls.prepend {c : Joint F G α} (h : Pulls len rest sh start hl vs k) (hquiet : Quiet c start) :
    Pulls len rest sh c hl vs k := by
  rcases h with hcrash | ⟨hdead, hold⟩ | ⟨hfresh, header, client, ch, a, b, hquiet'⟩
  · exact .inl (hcrash.prepend hquiet)
  · exact .inr (.inl ⟨hdead.prepend hquiet, hold⟩)
  · exact .inr (.inr ⟨hfresh, header, client, ch, a, b, hquiet.trans hquiet'⟩)

-- Steps of the server alone.
theorem quiet_right {p q : Code Unit} (header : Mem sizeofHeader) (client : Client) (ch : Host F)
    (a b : Bytes) (h : Exec host ⟨p, sh, ⟨[], false⟩⟩ [] ⟨q, sh, ⟨[], false⟩⟩) :
    Quiet (pullState rest header client ch p sh a b) (pullState rest header client ch q sh a b) := by
  have hrun := runs_right (K := host) (p := pulling header client rest) (s := ch) (i := [])
    (a := a) (b := b) h
  rw [List.append_nil, List.append_nil] at hrun
  exact ⟨hrun, rfl, rfl⟩

theorem snprintfPath_length (dirName name : Bytes) (len : Nat) :
    ((snprintfPath dirName name).drop len).length < pathMax := by
  have htake : (snprintfPath dirName name).length ≤ pathMax - 1 := List.length_take_le _ _
  have hpos : 0 < pathMax := by decide
  rw [List.length_drop]
  omega

theorem serverVisit_pulls (hF : LocksGranted F) (hG : Undisturbed G)
    {descend : Bytes → List HardLink → Code (List HardLink)} {below : Bytes → List Visit}
    (hdescend : ∀ dirName hl k header client ch a b,
      Pulls len rest sh (pullState (F := F) rest header client ch (descend dirName hl >>= k) sh a b)
        hl (below dirName) k)
    (dirName : Bytes) (entries : List Dirent) (hl : List HardLink) (header : Mem sizeofHeader)
    (client : Client) (ch : Host F) (a b : Bytes) :
    Pulls len rest sh (pullState rest header client ch
      (serverVisit md5 len connFd descend dirName entries hl >>= k) sh a b) hl
      (visitEntries sh.fs below dirName entries) k := by
  induction entries generalizing hl header client ch a b with
  | nil => exact .nil header client ch a b
  | cons entry entries ih =>
      rw [serverVisit, visitEntries]
      split_ifs with hhidden
      · exact ih hl header client ch a b
      · have hlstat := (exec_sys (β := UInt8) (ε := Fault) (K := host) (s := sh) (l := ⟨[], false⟩)
          (o := .lstat (snprintfPath dirName entry.name.val)) rfl)
        cases hst : Posix.lstat sh.fs (snprintfPath dirName entry.name.val) with
        | none =>
            rw [hst] at hlstat
            exact (Pulls.nil header client ch a b).prepend
              (quiet_right header client ch a b ((hlstat.bind _).bind k))
        | some st =>
            rw [hst] at hlstat
            refine Pulls.prepend ?_ (quiet_right header client ch a b ((hlstat.bind _).bind k))
            simp only [ret_bind, bind_assoc]
            refine (serverEntry_pulls hF hG (snprintfPath_length _ _ len)).append
              fun header client ch a b => ?_
            split_ifs with hdir
            · exact (hdescend _ _ _ header client ch a b).append fun header client ch a b =>
                ih _ header client ch a b
            · exact ih _ header client ch a b

theorem traverse_pulls (hF : LocksGranted F) (hG : Undisturbed G) (depth : Nat) (dirName : Bytes)
    (hl : List HardLink) (header : Mem sizeofHeader) (client : Client) (ch : Host F) (a b : Bytes) :
    Pulls len rest sh (pullState rest header client ch
      (serverTraverseFile md5 len connFd depth dirName hl >>= k) sh a b) hl
      (visits sh.fs depth dirName) k := by
  induction depth generalizing dirName hl header client ch a b k with
  | zero => exact .inl (crashes_halt _)
  | succ depth ih =>
      rw [serverTraverseFile, visits]
      have hopendir := (exec_sys (β := UInt8) (ε := Fault) (K := host) (s := sh) (l := ⟨[], false⟩)
        (o := .opendir dirName) rfl)
      cases hentries : Posix.opendir sh.fs dirName with
      | none =>
          rw [hentries] at hopendir
          exact (Pulls.nil header client ch a b).prepend
            (quiet_right header client ch a b ((hopendir.bind _).bind k))
      | some entries =>
          rw [hentries] at hopendir
          refine Pulls.prepend ?_ (quiet_right header client ch a b ((hopendir.bind _).bind k))
          exact serverVisit_pulls hF hG (fun dirName hl k header client ch a b =>
            ih dirName hl header client ch a b) dirName entries hl header client ch a b

end Traversal

end Csiebox.Pull
