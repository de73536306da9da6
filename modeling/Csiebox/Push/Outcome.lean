import Csiebox.Pull
import Csiebox.Session.Lemmas

namespace Csiebox.Push

open CBytes Program Prog Session Pull

section Ends

variable {F G α : Type} [Posix F] [Posix G]

-- One end has been stopped, and nothing moves any more.
def Stops (c : Joint F G α) : Prop :=
  ∃ d, Quiet c d ∧ (∀ e, ¬Step d e) ∧ ((∃ e, d.left = halt e) ∨ ∃ e, d.right = halt e)

variable {c d : Joint F G α}

theorem Stops.prepend (h : Stops d) (hquiet : Quiet c d) : Stops c := by
  obtain ⟨e, he, hend⟩ := h
  exact ⟨e, hquiet.trans he, hend⟩

theorem step_halt {σ β : Type} {Op : Type → Type} {K : Kernel Op σ} {p : Prog Op β Fault α} {e : Fault}
    (hp : p = halt e) (s : σ) (l : Link β) : step K ⟨p, s, l⟩ = none := by
  subst hp
  rfl

-- The server is stopped and the client waits for it.
theorem stops_right (hquiet : Quiet c d) {e : Fault} (hright : d.right = halt e)
    (hleft : Waits d.left d.toLeft) : Stops c :=
  ⟨d, hquiet, Net.stop (hleft.stop host _) (step_halt hright _ _), .inr ⟨e, hright⟩⟩

theorem stops_left (hquiet : Quiet c d) {e : Fault} (hleft : d.left = halt e)
    (hright : Waits d.right d.toRight) : Stops c :=
  ⟨d, hquiet, Net.stop (step_halt hleft _ _) (hright.stop host _), .inl ⟨e, hleft⟩⟩

end Ends

section Serving

variable {F G α : Type} [Posix F] [Posix G] {md5 : Bytes → Mem 16} {connFd : Nat}
  {server : Server} {home : Bytes} {client : Host F} {peer : Host G} {st : Mem 144}
  {path hash : Bytes} {k : Unit → Code α} {a b : Bytes}

theorem serve_waits (md5 : Bytes → Mem 16) (connFd : Nat) (server : Server) :
    Waits (unroll (serveRound md5 connFd) server) [] :=
  ⟨sizeofHeader, _, rfl, by simp [sizeofHeader]⟩

-- The client is stopped between two requests.
theorem stops_between {p : Code α} {client' : Host F} {e : Fault}
    (h : Exec host ⟨p, client, ⟨[], false⟩⟩ [] ⟨halt e, client', ⟨[], false⟩⟩)
    (hnotices : client'.notices = client.notices) :
    Stops (session md5 connFd server p client peer a b) := by
  have hrun := runs_left (K := host) (J := host) (r := unroll (serveRound md5 connFd) server)
    (u := peer) (w := []) (a := a) (b := b) h
  exact stops_left ⟨hrun, hnotices, rfl⟩ rfl (serve_waits md5 connFd server)

-- The client goes on alone.
theorem quiet_left {p q : Code α} {client' : Host F}
    (h : Exec host ⟨p, client, ⟨[], false⟩⟩ [] ⟨q, client', ⟨[], false⟩⟩)
    (hnotices : client'.notices = client.notices) :
    Quiet (session md5 connFd server p client peer a b)
      (session md5 connFd server q client' peer a b) := by
  have hrun := runs_left (K := host) (J := host) (r := unroll (serveRound md5 connFd) server)
    (u := peer) (w := []) (a := a) (b := b) h
  rw [List.append_nil, List.append_nil] at hrun
  exact ⟨hrun, hnotices, rfl⟩

theorem talk_serveMeta_overlong {target : Bytes} (hin : LoggedIn server connFd home)
    (hsmall : target.length < pathMax) (hnul : ∀ b ∈ target, b ≠ 0)
    (hlong : ¬home.length + 1 + target.length < pathMax) (hhash : hash.length = 16) :
    Talk host (unroll (serveRound md5 connFd) server) peer
      [(metaHead, []), ([], metaHead), (metaBody target.length st.val hash, []), (target, []),
        ([], [])] (halt .overrun) peer.tick := by
  refine talk_serve_halt (by simp) (by simp) ?_
  rw [dispatch_syncMeta (by simp)]
  exact (talk_syncMeta_overlong hin hsmall hnul hlong (by simp)
    (headerDatalen_header _ _ _ _ _ (by decide)) st.property hhash).bind _

-- The client is stopped when it is to send the content.
theorem sync_unsent (hfree : NoOtherLocks G) (hin : LoggedIn server connFd home)
    (hp : PathFits home (path.drop 2))
    (hd : digestOf md5 client.fs st.val (path.drop 2) = some hash)
    (hs : statusOf md5 peer.fs (home ++ slash :: path.drop 2) st.val hash = some statusMore)
    (hopens : sIsReg (stMode st.val) = true →
      ∃ opened, Posix.fopenWrite peer.fs (home ++ slash :: path.drop 2) = some opened)
    (hstream : fileStream client.fs st.val path = none) :
    Stops (session md5 connFd server (syncFile md5 st.val path >>= k) client peer a b) := by
  have hclient := (talk_syncFile_verdict hd (.inr (rfl : statusMore = statusMore))).bind k
  rw [if_pos rfl] at hclient
  obtain ⟨e, hcrash⟩ := exec_sendFile_crash (l := ⟨[], false⟩) hstream
  obtain ⟨q, peer', hanswer, hnotices, n, j, rfl, hn⟩ := talk_answerMeta_waits (h := peer.tick)
    hfree hs hopens
  obtain ⟨finish, hserver⟩ := talk_serveMeta_part _ hin hp (digestOf_length hd) hanswer
  have hrun := (meets_unsent ..).runs (hclient.trans (.one (hcrash.bind k))) hserver a b
  exact stops_left ⟨hrun, rfl, hnotices⟩ rfl ⟨n, _, rfl, hn⟩

-- Both ends get through a transfer.
theorem sync_transfers (hF : Undisturbed F) (hfree : NoOtherLocks G)
    (hin : LoggedIn server connFd home) (hp : PathFits home (path.drop 2))
    (hd : digestOf md5 client.fs st.val (path.drop 2) = some hash)
    (hs : statusOf md5 peer.fs (home ++ slash :: path.drop 2) st.val hash = some statusMore)
    (hopens : sIsReg (stMode st.val) = true →
      ∃ opened, Posix.fopenWrite peer.fs (home ++ slash :: path.drop 2) = some opened)
    {stream : Bytes} (hstream : fileStream client.fs st.val path = some stream) :
    ∃ client' peer' a' b',
      Quiet (session md5 connFd server (syncFile md5 st.val path >>= k) client peer a b)
        (session md5 connFd server (k ()) client' peer' a' b') := by
  unfold fileStream at hstream
  rcases kind_of_more hs with hlnk | hreg
  · have hreg : ¬sIsReg (stMode st.val) = true := fun hreg => by simp [not_lnk_of_reg hreg] at hlnk
    rw [if_neg hreg, if_pos hlnk] at hstream
    obtain ⟨target, hread, rfl⟩ := Option.map_eq_some_iff.mp hstream
    obtain ⟨b', hrun⟩ := sync_runs_link hin hp hd hs hlnk hread (hF.linkFits _ _ _ _ hread) k a b
    exact ⟨_, _, _, b', hrun, rfl, rfl⟩
  · rw [if_pos hreg] at hstream
    obtain ⟨⟨handle, content⟩, hread, rfl⟩ := Option.map_eq_some_iff.mp hstream
    obtain ⟨⟨fp, g⟩, hopen⟩ := hopens hreg
    obtain ⟨b', hrun⟩ := sync_runs_file hF.granted hfree hin hp hd hs hreg hread hopen k a b
    exact ⟨_, _, _, b', hrun, rfl, rfl⟩

-- One SYNC_META request, whatever the two systems say to it.
theorem sync_outcome (hF : Undisturbed F) (hfree : NoOtherLocks G) (hin : LoggedIn server connFd home)
    (hsmall : (path.drop 2).length < pathMax) (hnul : ∀ b ∈ path.drop 2, b ≠ 0)
    (st : Mem 144) (k : Unit → Code α) (client : Host F) (peer : Host G) (a b : Bytes) :
    Stops (session md5 connFd server (syncFile md5 st.val path >>= k) client peer a b) ∨
      (PathFits home (path.drop 2) ∧ ∃ client' peer' a' b',
        Quiet (session md5 connFd server (syncFile md5 st.val path >>= k) client peer a b)
          (session md5 connFd server (k ()) client' peer' a' b')) := by
  cases hd : digestOf md5 client.fs st.val (path.drop 2) with
  | none =>
      have hcrash := (((exec_metaDigest_crash (l := ⟨[], false⟩) hd).bind fun hash => do
        iter (announce (metaMessage statusMore (path.drop 2).length st.val hash)) ()
        let _ ← sendMessage (path.drop 2)
        ret ()).bind fun _ => do
          let header ← iter awaitVerdict (zeros sizeofHeader)
          if headerStatus header = statusMore then sendFile st.val path else ret ()).bind k
      exact .inl (stops_between hcrash rfl)
  | some hash =>
      have hhalt : ∀ {e : Fault} {peer' : Host G},
          Talk host (unroll (serveRound md5 connFd) server) peer
            [(metaHead, []), ([], metaHead), (metaBody (path.drop 2).length st.val hash, []),
              (path.drop 2, []), ([], [])] (halt e) peer' → peer'.notices = peer.notices →
          Stops (session md5 connFd server (syncFile md5 st.val path >>= k) client peer a b) := by
        intro e peer' htalk hnotices
        obtain ⟨c, hrun, hleft, hright, hhalt, hwaits⟩ := sync_runs_halt hd htalk k a b
        exact stops_right ⟨hrun, by rw [hleft]; rfl, by rw [hright]; exact hnotices⟩ hhalt hwaits
      by_cases hfit : home.length + 1 + (path.drop 2).length < pathMax
      · have hp : PathFits home (path.drop 2) := ⟨hnul, hfit⟩
        cases hs : statusOf md5 peer.fs (home ++ slash :: path.drop 2) st.val hash with
        | none =>
            exact .inl (hhalt (talk_serveMeta_halt _ hin hp (digestOf_length hd)
              (talk_answerMeta_unread (h := peer.tick) hs)) rfl)
        | some status =>
            by_cases hmore : status = statusMore
            · subst hmore
              by_cases hopens : sIsReg (stMode st.val) = true →
                  ∃ opened, Posix.fopenWrite peer.fs (home ++ slash :: path.drop 2) = some opened
              · cases hstream : fileStream client.fs st.val path with
                | none => exact .inl (sync_unsent hfree hin hp hd hs hopens hstream)
                | some stream =>
                    exact .inr ⟨hp, sync_transfers hF hfree hin hp hd hs hopens hstream⟩
              · rw [Classical.not_imp] at hopens
                have hopen : Posix.fopenWrite peer.fs (home ++ slash :: path.drop 2) = none :=
                  Option.eq_none_iff_forall_ne_some.mpr (not_exists.mp hopens.2)
                exact .inl (hhalt
                  (talk_serveMeta_null hin hp (digestOf_length hd) hs hopens.1 hopen) rfl)
            · obtain ⟨b', hrun⟩ := sync_runs_done hin hp hd hs hmore k a b
              exact .inr ⟨hp, _, _, _, b', hrun, rfl, rfl⟩
      · exact .inl (hhalt (talk_serveMeta_overlong hin hsmall hnul hfit (digestOf_length hd)) rfl)

end Serving

section KnownLinks

variable {F G α : Type} [Posix F] [Posix G] {md5 : Bytes → Mem 16} {connFd : Nat}
  {server : Server} {home : Bytes} {client : Host F} {peer : Host G} {st : Mem 144}
  {path : Bytes} {k : Unit → Code α} {a b : Bytes}

theorem clientKnownLinks_cons (md5 : Bytes → Mem 16) (target : Bytes) (link : HardLink)
    (links : List HardLink) :
    clientKnownLinks st.val target (link :: links) =
      if link.inode = stIno st.val then do
        (Request.hardlink link.path target st).run md5
        clientKnownLinks st.val target links
      else clientKnownLinks st.val target links := by
  rw [clientKnownLinks]
  split_ifs
  · simp only [Request.run, bind_assoc, ret_bind]
  · rfl

-- Link messages whose paths the server can take up.
theorem knownLinks_quiet (hin : LoggedIn server connFd home) {target : Bytes}
    (ht : PathFits home target) {links : List HardLink} (hl : ∀ h ∈ links, PathFits home h.path)
    (st : Mem 144) (k : Unit → Code α) (client : Host F) (peer : Host G) (a b : Bytes) :
    ∃ peer' a' b',
      Quiet (session md5 connFd server (clientKnownLinks st.val target links >>= k) client peer a b)
        (session md5 connFd server (k ()) client peer' a' b') := by
  induction links generalizing peer a b with
  | nil => exact ⟨peer, a, b, .refl _⟩
  | cons link links ih =>
      rw [clientKnownLinks_cons md5]
      have hrest := ih fun h hh => hl h (List.mem_cons_of_mem _ hh)
      split_ifs with hmatch
      · rw [bind_assoc]
        obtain ⟨a', b', hrun⟩ := hardlink_runs client peer st hin (hl link (List.mem_cons_self ..)) ht
          (fun _ => clientKnownLinks st.val target links >>= k) a b
        obtain ⟨peer'', a'', b'', hquiet⟩ := hrest _ a' b'
        exact ⟨peer'', a'', b'', Quiet.trans ⟨hrun, rfl, rfl⟩ hquiet⟩
      · exact hrest peer a b

-- A client whose server has been stopped does not get behind its next request.
theorem exec_alone (md5 : Bytes → Mem 16) (st : Mem 144) (path : Bytes) (k : Unit → Code α)
    (client : Host F)
    (target : Bytes) (links : List HardLink) :
    ∃ out q, Exec host ⟨clientKnownLinks st.val target links >>= fun _ =>
        syncFile md5 st.val path >>= k, client, ⟨[], false⟩⟩ out ⟨q, client, ⟨[], false⟩⟩ ∧
      ((∃ e, q = halt e) ∨ Waits q []) := by
  induction links with
  | nil =>
      cases hd : digestOf md5 client.fs st.val (path.drop 2) with
      | none =>
          have hcrash := exec_metaDigest_crash (l := ⟨[], false⟩) hd
          exact ⟨_, _, ((hcrash.bind _).bind _).bind k, .inl ⟨_, rfl⟩⟩
      | some hash =>
          obtain ⟨q, hmeta, j, rfl⟩ := exec_sendMeta_waits (l := ⟨[], false⟩) rfl hd
          exact ⟨_, _, (hmeta.bind _).bind k, .inr ⟨_, _, rfl, by simp [sizeofHeader]⟩⟩
  | cons link links ih =>
      rw [clientKnownLinks]
      split_ifs with hmatch
      · obtain ⟨q, hlink, j, rfl⟩ := exec_sendHardlink_waits (K := host) (s := client)
          (l := ⟨[], false⟩) rfl link.path target
        exact ⟨_, _, (hlink.bind _).bind _, .inr ⟨_, _, rfl, by simp [sizeofHeader]⟩⟩
      · exact ih

theorem talk_serveHardlink_overlong (md5 : Bytes → Mem 16) (st : Mem 144) (peer : Host G)
    {source target : Bytes} (hin : LoggedIn server connFd home)
    (hp : PathFits home source) (hsmall : target.length < pathMax) (hnul : ∀ b ∈ target, b ≠ 0)
    (hlong : ¬home.length + 1 + target.length < pathMax) :
    Talk host (unroll (serveRound md5 connFd) server) peer
      ((hardlinkHead, []) :: [([], hardlinkHead), (hardlinkBody source.length target.length, []),
        (source, []), (target, []), (st.val, []), ([], [])]) (halt .overrun) peer.tick := by
  refine talk_serve_halt (by simp) (by simp) ?_
  rw [dispatch_syncHardlink (by simp)]
  exact (talk_syncHardlink_overlong hin hp hsmall hnul hlong (by simp)
    (headerDatalen_header _ _ _ _ _ (by decide)) st.property).bind _

-- A path that does not fit stops the server at the first link message or, where
-- there is none, at the file itself.
theorem overlong_stops (md5 : Bytes → Mem 16) (hF : Undisturbed F) (hfree : NoOtherLocks G)
    (hin : LoggedIn server connFd home) (hsmall : (path.drop 2).length < pathMax)
    (hnul : ∀ b ∈ path.drop 2, b ≠ 0) (hlong : ¬home.length + 1 + (path.drop 2).length < pathMax)
    {links : List HardLink} (hl : ∀ h ∈ links, PathFits home h.path) (st : Mem 144)
    (k : Unit → Code α) (client : Host F) (peer : Host G) (a b : Bytes) :
    Stops (session md5 connFd server (clientKnownLinks st.val (path.drop 2) links >>= fun _ =>
      syncFile md5 st.val path >>= k) client peer a b) := by
  induction links with
  | nil =>
      rcases sync_outcome hF hfree hin hsmall hnul st k client peer a b with hstop | ⟨hp, -⟩
      · exact hstop
      · exact absurd hp.fits hlong
  | cons link links ih =>
      by_cases hmatch : link.inode = stIno st.val
      · have hclient : Talk host ((Request.hardlink link.path (path.drop 2) st).run md5) client
            ([([], hardlinkHead ++ hardlinkBody link.path.length (path.drop 2).length),
              (hardlinkHead, []), ([], link.path), ([], path.drop 2)] ++ [([], st.val)])
            (ret ()) client :=
          Talk.seq (talk_sendHardlink (by simp) (by simp [statusBusy]) _ _)
            ((talk_sendMessage st.val).bind _)
        have hserver := talk_serveHardlink_overlong md5 st peer hin
          (hl link (List.mem_cons_self ..)) hsmall hnul hlong
        have hrun := (meets_hardlink ..).runs (hclient.bind fun _ =>
          clientKnownLinks st.val (path.drop 2) links >>= fun _ => syncFile md5 st.val path >>= k)
          hserver a b
        obtain ⟨out, q, halone, hend⟩ := exec_alone md5 st path k client (path.drop 2) links
        have hleft := hrun.trans (runs_left halone)
        rw [clientKnownLinks_cons md5, if_pos hmatch, bind_assoc]
        refine ⟨_, ⟨hleft, rfl, rfl⟩, Net.stop ?_ rfl, .inr ⟨_, rfl⟩⟩
        rcases hend with ⟨e, rfl⟩ | hwaits
        · rfl
        · exact hwaits.stop host _
      · rw [clientKnownLinks_cons md5, if_neg hmatch]
        exact ih fun h hh => hl h (List.mem_cons_of_mem _ hh)

end KnownLinks

section Traversal

variable {F G α : Type} [Posix F] [Posix G] {md5 : Bytes → Mem 16} {connFd : Nat}
  {server : Server} {home : Bytes}

-- The paths in `hl` have been taken up by the server before.
def LinksFit (home : Bytes) (client : Client) : Prop := ∀ h ∈ client.hl, PathFits home h.path

-- What becomes of a state whose client is to push something and go on with `k`.
def Pushes (md5 : Bytes → Mem 16) (connFd : Nat) (server : Server) (home : Bytes)
    (start : Joint F G α) (k : Client → Code α) : Prop :=
  Stops start ∨ ∃ client ch sh a b, LinksFit home client ∧
    Quiet start (session md5 connFd server (k client) ch sh a b)

variable {start c : Joint F G α} {j k : Client → Code α}

theorem Pushes.prepend (h : Pushes md5 connFd server home start k) (hquiet : Quiet c start) :
    Pushes md5 connFd server home c k := by
  rcases h with hstop | ⟨client, ch, sh, a, b, hl, hquiet'⟩
  · exact .inl (hstop.prepend hquiet)
  · exact .inr ⟨client, ch, sh, a, b, hl, hquiet.trans hquiet'⟩

theorem Pushes.seq (h : Pushes md5 connFd server home start j)
    (hnext : ∀ client (ch : Host F) (sh : Host G) a b, LinksFit home client →
      Pushes md5 connFd server home (session md5 connFd server (j client) ch sh a b) k) :
    Pushes md5 connFd server home start k := by
  rcases h with hstop | ⟨client, ch, sh, a, b, hl, hquiet⟩
  · exact .inl hstop
  · exact (hnext client ch sh a b hl).prepend hquiet

theorem Pushes.done {client : Client} (hl : LinksFit home client) (ch : Host F) (sh : Host G)
    (a b : Bytes) :
    Pushes md5 connFd server home (session md5 connFd server (k client) ch sh a b) k :=
  .inr ⟨client, ch, sh, a, b, hl, .refl _⟩

-- A check that fails stops the client.
theorem stops_checkSize {fits : Prop} [Decidable fits] (hfits : ¬fits) (p : Unit → Code α)
    (ch : Host F) (sh : Host G) (a b : Bytes) :
    Stops (session md5 connFd server (checkSize fits >>= p) ch sh a b) := by
  rw [checkSize_neg hfits]
  exact stops_between (.refl _) rfl

theorem clientEntry_pushes (hF : Undisturbed F) (hfree : NoOtherLocks G)
    (hin : LoggedIn server connFd home) {st : Mem 144} {cpath : Bytes} {client : Client}
    (hsmall : (cpath.drop 2).length < pathMax) (hnul : ∀ b ∈ cpath.drop 2, b ≠ 0)
    (hl : LinksFit home client) (ch : Host F) (sh : Host G) (a b : Bytes) :
    Pushes md5 connFd server home
      (session md5 connFd server (clientEntry md5 st.val cpath client >>= k) ch sh a b) k := by
  unfold clientEntry
  split_ifs with hlinked
  · by_cases hfit : home.length + 1 + (cpath.drop 2).length < pathMax
    · have hp : PathFits home (cpath.drop 2) := ⟨hnul, hfit⟩
      rw [bind_assoc]
      obtain ⟨sh', a', b', hlinks⟩ := knownLinks_quiet hin hp hl st
        (fun _ => (do
          syncFile md5 st.val cpath
          checkSize (client.hl.length < maxClientLinks)
          ret { client with hl := client.hl ++ [{ inode := stIno st.val, path := cpath.drop 2 }] }) >>=
            k) ch sh a b
      refine Pushes.prepend ?_ hlinks
      rw [bind_assoc]
      rcases sync_outcome hF hfree hin hsmall hnul st _ ch sh' a' b' with
        hstop | ⟨-, ch', sh'', a'', b'', hquiet⟩
      · exact .inl hstop
      · refine Pushes.prepend ?_ hquiet
        rw [bind_assoc]
        by_cases hroom : client.hl.length < maxClientLinks
        · rw [checkSize_pos hroom, ret_bind, ret_bind]
          refine .done (fun h hh => ?_) ch' sh'' a'' b''
          rcases List.mem_append.mp hh with hh | hh
          · exact hl h hh
          · rw [List.mem_singleton.mp hh]
            exact hp
        · exact .inl (stops_checkSize hroom _ ch' sh'' a'' b'')
    · have hstop := overlong_stops md5 hF hfree hin hsmall hnul hfit hl st (fun _ => (do
        checkSize (client.hl.length < maxClientLinks)
        ret { client with hl := client.hl ++ [{ inode := stIno st.val, path := cpath.drop 2 }] }) >>=
          k) ch sh a b
      simp only [bind_assoc] at hstop ⊢
      exact .inl hstop
  · rw [bind_assoc]
    rcases sync_outcome hF hfree hin hsmall hnul st (fun _ => ret client >>= k) ch sh a b with
      hstop | ⟨-, ch', sh', a', b', hquiet⟩
    · exact .inl hstop
    · exact .inr ⟨client, ch', sh', a', b', hl, hquiet⟩

-- What the traversal of a directory is known to do below the one at hand.
def Descends (F G α : Type) [Posix F] [Posix G] (md5 : Bytes → Mem 16) (connFd : Nat)
    (server : Server) (home : Bytes) (descend : Bytes → Client → Code Client) : Prop :=
  ∀ dirName client (k : Client → Code α) (ch : Host F) (sh : Host G) a b,
    (∀ b ∈ dirName, b ≠ 0) → LinksFit home client →
      Pushes md5 connFd server home (session md5 connFd server (descend dirName client >>= k) ch sh a b) k

theorem watchAndDescend_pushes {descend : Bytes → Client → Code Client}
    (hdescend : Descends F G α md5 connFd server home descend) {cpath : Bytes} {client : Client}
    (hnul : ∀ b ∈ cpath, b ≠ 0) (hl : LinksFit home client) (ch : Host F) (sh : Host G)
    (a b : Bytes) :
    Pushes md5 connFd server home
      (session md5 connFd server (watchAndDescend descend cpath client >>= k) ch sh a b) k := by
  have hwatch := exec_sys (K := host) (s := ch) (β := UInt8) (ε := Fault) (l := ⟨[], false⟩)
    (o := .addWatch cpath) rfl
  refine Pushes.prepend ?_ (quiet_left ((hwatch.bind _).bind k) rfl)
  rw [ret_bind, setEventPath]
  simp only [bind_assoc]
  by_cases hfit : 0 ≤ (Posix.addWatch ch.fs cpath).1 ∧
    (Posix.addWatch ch.fs cpath).1 < maxWatches ∧ cpath.length < pathMax
  · rw [checkSize_pos hfit, ret_bind, ret_bind]
    exact hdescend cpath _ k _ sh a b hnul hl
  · exact .inl (stops_checkSize hfit _ _ sh a b)

theorem clientPath_nul {dirName name : Bytes} (hdir : ∀ b ∈ dirName, b ≠ 0)
    (hname : ∀ b ∈ name, b ≠ 0) : ∀ b ∈ clientPath dirName name, b ≠ 0 := by
  intro b hb
  unfold clientPath snprintfPath at hb
  split_ifs at hb
  · rcases List.mem_append.mp (List.mem_of_mem_take hb) with hb | hb
    · exact hdir b hb
    · exact hname b hb
  · rcases List.mem_append.mp (List.mem_of_mem_take hb) with hb | hb
    · exact hdir b hb
    · rcases List.mem_cons.mp hb with rfl | hb
      · decide
      · exact hname b hb

theorem clientPath_length (dirName name : Bytes) : (clientPath dirName name).length < pathMax := by
  have hpos : 0 < pathMax := by decide
  unfold clientPath snprintfPath
  split_ifs
  · have htake := List.length_take_le (pathMax - 1) (dirName ++ name)
    omega
  · have htake := List.length_take_le (pathMax - 1) (dirName ++ slash :: name)
    omega

theorem clientVisit_pushes (hF : Undisturbed F) (hfree : NoOtherLocks G)
    (hin : LoggedIn server connFd home) {descend : Bytes → Client → Code Client}
    (hdescend : Descends F G α md5 connFd server home descend)
    {dirName : Bytes} (hdir : ∀ b ∈ dirName, b ≠ 0) (entries : List Dirent) {client : Client}
    (hl : LinksFit home client) (ch : Host F) (sh : Host G) (a b : Bytes) :
    Pushes md5 connFd server home
      (session md5 connFd server (clientVisit md5 descend dirName entries client >>= k) ch sh a b)
      k := by
  induction entries generalizing client ch sh a b with
  | nil => exact .done hl ch sh a b
  | cons entry entries ih =>
      rw [clientVisit]
      by_cases hhidden : entry.name.val.head? = some dot
      · rw [if_pos hhidden]
        exact ih hl ch sh a b
      · rw [if_neg hhidden]
        have hnul := clientPath_nul hdir entry.name.property
        have hsmall : ((clientPath dirName entry.name.val).drop 2).length < pathMax := by
          have hlength := clientPath_length dirName entry.name.val
          rw [List.length_drop]
          omega
        have hlstat := exec_sys (K := host) (s := ch) (β := UInt8) (ε := Fault) (l := ⟨[], false⟩)
          (o := .lstat (clientPath dirName entry.name.val)) rfl
        refine Pushes.prepend ?_ (quiet_left ((hlstat.bind _).bind k) rfl)
        rw [ret_bind]
        cases hst : Posix.lstat ch.fs (clientPath dirName entry.name.val) with
        | none =>
            simp only
            exact .done hl ch sh a b
        | some st =>
            simp only [bind_assoc]
            refine (clientEntry_pushes hF hfree hin hsmall
              (fun b hb => hnul b (List.mem_of_mem_drop hb)) hl ch sh a b).seq
              fun client ch sh a b hl => ?_
            split_ifs with hisdir
            · exact (watchAndDescend_pushes hdescend hnul hl ch sh a b).seq
                fun client ch sh a b hl => ih hl ch sh a b
            · exact ih hl ch sh a b

theorem clientTraverse_pushes (hF : Undisturbed F) (hfree : NoOtherLocks G)
    (hin : LoggedIn server connFd home) (depth : Nat) :
    Descends F G α md5 connFd server home (clientTraverseFile md5 depth) := by
  induction depth with
  | zero =>
      intro dirName client k ch sh a b hdir hl
      exact .inl (stops_between (.refl _) rfl)
  | succ depth ih =>
      intro dirName client k ch sh a b hdir hl
      have hopendir := exec_sys (K := host) (s := ch) (β := UInt8) (ε := Fault) (l := ⟨[], false⟩)
        (o := .opendir dirName) rfl
      refine Pushes.prepend ?_ (quiet_left ((hopendir.bind _).bind k) rfl)
      rw [ret_bind]
      cases hentries : Posix.opendir ch.fs dirName with
      | none =>
          simp only
          exact .done hl ch sh a b
      | some entries => exact clientVisit_pushes hF hfree hin ih hdir entries hl ch sh a b

end Traversal

end Csiebox.Push
