import Csiebox.Session.Converges

namespace Csiebox.Session

open CBytes Program Prog TreeFs

section Links

variable {F G : Type} [Posix F] [Posix G]

-- A symbolic link of the client, under the two names that `sync_file` uses for it.
structure ClientLink (f : F) (path target : Bytes) : Prop where
  hashed : Posix.readlink f (path.drop 2) pathMax = some target
  sent : Posix.readlink f path N = some target
  short : target.length < pathMax
  terminated : ∀ b ∈ target, b ≠ 0

-- One `sync_file`, served to its end however the steps interleave, leaves a link to
-- `target` under the path on the server.
def LinkPushed (links : LinkFiles G) (md5 : Bytes → Mem 16) (connFd : Nat) (server : Server)
    (home path target : Bytes) (client : Host F) (peer : Host G) (st : Mem 144) : Prop :=
  ∃ client' peer' a' b', Settles (Step (F := F) (G := G))
      (session md5 connFd server (syncFile md5 st.val path) client peer [] [])
      (session md5 connFd server (ret ()) client' peer' a' b') ∧
    links.entry peer'.fs (home ++ slash :: path.drop 2) = .link target

-- The digest of what `readlink` says, or of nothing.
def priorDigest (md5 : Bytes → Mem 16) (prior : Option Bytes) : Bytes :=
  (prior.map fun old => (md5 (old.take pathMax)).val).getD (zeros 16)

-- The string that `symlink` is given: the received bytes up to the next NUL of the buffer.
def madeTarget {G : Type} (peer : Host G) (target : Bytes) : Bytes :=
    cString (overlay (peer.tick.stale N).val target)

-- The link that the server has behind the request; one that is there is never replaced.
def linkAfter (md5 : Bytes → Mem 16) (peer : Host G) (filepath target : Bytes) (prior : Option Bytes) :
    Option Bytes :=
  if (md5 target).val = priorDigest md5 prior then prior
  else if prior = none ∧ (Posix.symlink peer.fs (madeTarget peer target) filepath).1 = true then
    some (madeTarget peer target)
  else prior

variable {links : LinkFiles G} {md5 : Bytes → Mem 16} {connFd : Nat} {server : Server}
  {home path target : Bytes} {prior : Option Bytes} {client : Host F} {peer : Host G} {st : Mem 144}

theorem ClientLink.digest (h : ClientLink client.fs path target) (md5 : Bytes → Mem 16)
    (hlnk : sIsLnk (stMode st.val) = true) :
    digestOf md5 client.fs st.val (path.drop 2) = some (md5 target).val := by
  simp [digestOf, hlnk, h.hashed]

theorem LinkFiles.status {g : G} {filepath : Bytes} (hsound : links.sound g)
    (hprior : links.entry g filepath = .ofPrior prior) (md5 : Bytes → Mem 16)
    (hlnk : sIsLnk (stMode st.val) = true) (hash : Bytes) :
    statusOf md5 g filepath st.val hash =
      some (if hash = priorDigest md5 prior then statusOk else statusMore) := by
  rw [statusOf, not_dir_of_lnk hlnk, hlnk]
  cases prior with
  | none =>
      rw [links.readlink_nothing hsound hprior]
      rfl
  | some old =>
      rw [links.readlink_link hsound hprior]
      rfl

-- Equal digests, and only the times are set.
theorem link_settles_equal (hin : LoggedIn server connFd home) (hp : PathFits home (path.drop 2))
    (hlnk : sIsLnk (stMode st.val) = true) (hlink : ClientLink client.fs path target)
    (hsound : links.sound peer.fs)
    (hprior : links.entry peer.fs (home ++ slash :: path.drop 2) = .ofPrior prior)
    (hequal : (md5 target).val = priorDigest md5 prior) :
    ∃ client' peer' a' b', Settles (Step (F := F) (G := G))
        (session md5 connFd server (syncFile md5 st.val path) client peer [] [])
        (session md5 connFd server (ret ()) client' peer' a' b') ∧
      links.entry peer'.fs (home ++ slash :: path.drop 2) = .ofPrior prior := by
  have hstatus := links.status hsound hprior md5 hlnk (md5 target).val
  rw [if_pos hequal] at hstatus
  obtain ⟨b', hrun⟩ := sync_runs_done hin hp (hlink.digest md5 hlnk) hstatus (by decide)
    (fun _ => ret ()) [] []
  refine ⟨_, _, _, b', settles_of_runs hrun, ?_⟩
  have hafter : afterStatus peer.fs (home ++ slash :: path.drop 2) st.val = peer.fs := by
    rw [afterStatus, not_dir_of_lnk hlnk]
    rfl
  rw [hafter, links.utime_entry]
  exact hprior

-- Different digests, and `symlink` is tried.
theorem link_settles_more (hin : LoggedIn server connFd home) (hp : PathFits home (path.drop 2))
    (hlnk : sIsLnk (stMode st.val) = true) (hlink : ClientLink client.fs path target)
    (hsound : links.sound peer.fs)
    (hprior : links.entry peer.fs (home ++ slash :: path.drop 2) = .ofPrior prior)
    (hdiffers : (md5 target).val ≠ priorDigest md5 prior) :
    ∃ client' peer' a' b', Settles (Step (F := F) (G := G))
        (session md5 connFd server (syncFile md5 st.val path) client peer [] [])
        (session md5 connFd server (ret ()) client' peer' a' b') ∧
      links.entry peer'.fs (home ++ slash :: path.drop 2) = .ofPrior
        (if prior = none ∧
            (Posix.symlink peer.fs (madeTarget peer target) (home ++ slash :: path.drop 2)).1 = true then
          some (madeTarget peer target) else prior) := by
  have hstatus := links.status hsound hprior md5 hlnk (md5 target).val
  rw [if_neg hdiffers] at hstatus
  have hfit : target.length ≤ N := hlink.short.le.trans (by decide)
  obtain ⟨b', hrun⟩ := sync_runs_link hin hp (hlink.digest md5 hlnk) hstatus hlnk hlink.sent hfit
    (fun _ => ret ()) [] []
  refine ⟨_, _, _, b', settles_of_runs hrun, ?_⟩
  rw [links.utime_entry]
  cases prior with
  | none =>
      refine (links.makes hsound hprior (madeTarget peer target)).trans ?_
      simp only [true_and]
      split_ifs <;> rfl
  | some old =>
      refine (links.exists_already hsound hprior (madeTarget peer target)).trans ?_
      simp [Entry.ofPrior]

theorem link_settles (hin : LoggedIn server connFd home) (hp : PathFits home (path.drop 2))
    (hlnk : sIsLnk (stMode st.val) = true) (hlink : ClientLink client.fs path target)
    (hsound : links.sound peer.fs)
    (hprior : links.entry peer.fs (home ++ slash :: path.drop 2) = .ofPrior prior) :
    ∃ client' peer' a' b', Settles (Step (F := F) (G := G))
        (session md5 connFd server (syncFile md5 st.val path) client peer [] [])
        (session md5 connFd server (ret ()) client' peer' a' b') ∧
      links.entry peer'.fs (home ++ slash :: path.drop 2) =
        .ofPrior (linkAfter md5 peer (home ++ slash :: path.drop 2) target prior) := by
  unfold linkAfter
  by_cases hequal : (md5 target).val = priorDigest md5 prior
  · rw [if_pos hequal]
    exact link_settles_equal hin hp hlnk hlink hsound hprior hequal
  · rw [if_neg hequal]
    exact link_settles_more hin hp hlnk hlink hsound hprior hequal

theorem Entry.ofPrior_eq_link {prior : Option Bytes} : Entry.ofPrior prior = .link target ↔
    prior = some target := by
  cases prior <;> simp [Entry.ofPrior]

theorem linkPushed_iff (hin : LoggedIn server connFd home) (hp : PathFits home (path.drop 2))
    (hlnk : sIsLnk (stMode st.val) = true) (hlink : ClientLink client.fs path target)
    (hsound : links.sound peer.fs)
    (hprior : links.entry peer.fs (home ++ slash :: path.drop 2) = .ofPrior prior) :
    LinkPushed links md5 connFd server home path target client peer st ↔
      linkAfter md5 peer (home ++ slash :: path.drop 2) target prior = some target := by
  obtain ⟨client', peer', a', b', hsettles, hafter⟩ : ∃ client' peer' a' b',
      Settles (Step (F := F) (G := G))
          (session md5 connFd server (syncFile md5 st.val path) client peer [] [])
          (session md5 connFd server (ret ()) client' peer' a' b') ∧
        links.entry peer'.fs (home ++ slash :: path.drop 2) =
          .ofPrior (linkAfter md5 peer (home ++ slash :: path.drop 2) target prior) :=
    link_settles hin hp hlnk hlink hsound hprior
  constructor
  · rintro ⟨client₂, peer₂, a₂, b₂, hsettles₂, hpushed⟩
    obtain ⟨rfl, -⟩ := settled_same hsettles hsettles₂
    exact Entry.ofPrior_eq_link.mp (hafter.symm.trans hpushed)
  · intro hsame
    exact ⟨client', peer', a', b', hsettles, hafter.trans (Entry.ofPrior_eq_link.mpr hsame)⟩

-- The bytes behind the target in the receive buffer.
theorem head?_stale {F : Type} (h : Host F) {n len : Nat} (hlen : len < n) :
    ((h.stale n).val.drop len).head? = some (h.garbage h.locals len) := by
  simp [Host.stale, List.head?_drop, hlen]

theorem madeTarget_eq_iff {G : Type} {peer : Host G} (hlink : ClientLink client.fs path target) :
    madeTarget peer target = target ↔ peer.garbage (peer.locals + 1) target.length = 0 := by
  rw [madeTarget, overlay, cString_append_eq_iff hlink.terminated,
    head?_stale _ (hlink.short.trans (by decide))]
  simp [Host.tick]

theorem linkAfter_eq_iff (hlink : ClientLink client.fs path target) (filepath : Bytes) :
    linkAfter md5 peer filepath target prior = some target ↔ prior = some target ∨
      prior = none ∧ (Posix.symlink peer.fs target filepath).1 = true ∧ (md5 target).val ≠ zeros 16 ∧
        peer.garbage (peer.locals + 1) target.length = 0 := by
  rw [← madeTarget_eq_iff hlink]
  unfold linkAfter
  cases prior with
  | none =>
      by_cases hdigest : (md5 target).val = zeros 16
      · simp [priorDigest, hdigest]
      · by_cases hsame : madeTarget peer target = target
        · simp [priorDigest, hdigest, hsame]
        · simp [priorDigest, hdigest, hsame]
  | some old => simp

end Links

-- The push of a link succeeds exactly where the server has the link already, or has
-- nothing, may make a link and has a NUL behind the target in the receive buffer.
theorem push_link_iff {F G : Type} [Posix F] [Posix G] (links : LinkFiles G) {md5 : Bytes → Mem 16}
    {connFd : Nat} {server : Server} {home path target : Bytes} {prior : Option Bytes} {client : Host F}
    {peer : Host G} {st : Mem 144} (hin : LoggedIn server connFd home) (hp : PathFits home (path.drop 2))
    (hlnk : sIsLnk (stMode st.val) = true) (hlink : ClientLink client.fs path target)
    (hsound : links.sound peer.fs)
    (hprior : links.entry peer.fs (home ++ slash :: path.drop 2) = .ofPrior prior) :
    LinkPushed links md5 connFd server home path target client peer st ↔ prior = some target ∨
      prior = none ∧ (Posix.symlink peer.fs target (home ++ slash :: path.drop 2)).1 = true ∧
        (md5 target).val ≠ zeros 16 ∧ peer.garbage (peer.locals + 1) target.length = 0 :=
  (linkPushed_iff hin hp hlnk hlink hsound hprior).trans (linkAfter_eq_iff hlink _)

section Instances

-- The link a at the top of the client's tree, to "x".
def clientWithLink : Host TreeFs :=
  exampleHost (exampleFs [[⟨[0x61], validName_a⟩]] fun _ => .link [0x78])

def statOfLink : Mem 144 := TreeFs.mkStat 0 1 { kind := .link [0x78], atime := 0, mtime := 0 }

-- The home directory holds the link a to "y".
def homeWithLink : Host TreeFs := exampleHost (exampleFs
    [[⟨[0x73], validName_s⟩], [⟨[0x73], validName_s⟩, ⟨[0x75], validName_u⟩],
      [⟨[0x73], validName_s⟩, ⟨[0x75], validName_u⟩, ⟨[0x61], validName_a⟩]]
    fun i => if i = 2 then .link [0x79] else .dir)

theorem clientWithLink_has : ClientLink clientWithLink.fs [dot, slash, 0x61] [0x78] :=
  ⟨by decide +kernel, by decide +kernel, by decide +kernel, by decide +kernel⟩

theorem linkPath_fits : PathFits exampleHome ([dot, slash, 0x61].drop 2) :=
  ⟨by decide +kernel, by decide +kernel⟩

-- A server whose buffers happen to be zero.
theorem push_link_zeroed :
    LinkPushed treeLinks md5OfX 5 exampleServer exampleHome [dot, slash, 0x61] [0x78] clientWithLink
      { emptyHome with garbage := fun _ _ => 0 } statOfLink := by
  have hprior : treeLinks.entry emptyHome.fs (exampleHome ++ slash :: [0x61]) = .ofPrior none := by
    decide +kernel
  have hmade : (Posix.symlink emptyHome.fs [0x78] (exampleHome ++ slash :: [0x61])).1 = true := by
    decide +kernel
  have hlnk : sIsLnk (stMode statOfLink.val) = true := by decide +kernel
  have hdigest : (md5OfX [0x78]).val ≠ zeros 16 := by decide
  rw [push_link_iff treeLinks exampleServer_loggedIn linkPath_fits hlnk clientWithLink_has
    (show ({ emptyHome with garbage := fun _ _ => 0 } : Host TreeFs).fs.Allocated by decide +kernel) hprior]
  exact .inr ⟨rfl, hmade, hdigest, rfl⟩

-- Old bytes of the buffer run on behind the target, and a link to another target stays.
theorem push_link_stale :
    LoggedIn exampleServer 5 exampleHome ∧ PathFits exampleHome ([dot, slash, 0x61].drop 2) ∧
      sIsLnk (stMode statOfLink.val) = true ∧ ClientLink clientWithLink.fs [dot, slash, 0x61] [0x78] ∧
      (treeLinks.sound emptyHome.fs ∧
        treeLinks.entry emptyHome.fs (exampleHome ++ slash :: [0x61]) = .ofPrior none ∧
        (Posix.symlink emptyHome.fs [0x78] (exampleHome ++ slash :: [0x61])).1 = true ∧
        ¬LinkPushed treeLinks md5OfX 5 exampleServer exampleHome [dot, slash, 0x61] [0x78] clientWithLink
          emptyHome statOfLink) ∧
      treeLinks.sound homeWithLink.fs ∧
      treeLinks.entry homeWithLink.fs (exampleHome ++ slash :: [0x61]) = .ofPrior (some [0x79]) ∧
      ¬LinkPushed treeLinks md5OfX 5 exampleServer exampleHome [dot, slash, 0x61] [0x78] clientWithLink
        homeWithLink statOfLink := by
  have hlnk : sIsLnk (stMode statOfLink.val) = true := by decide +kernel
  have habsent : treeLinks.entry emptyHome.fs (exampleHome ++ slash :: [0x61]) = .ofPrior none := by
    decide +kernel
  have hother : treeLinks.entry homeWithLink.fs (exampleHome ++ slash :: [0x61]) =
      .ofPrior (some [0x79]) := by
    decide +kernel
  have hempty : treeLinks.sound emptyHome.fs := show emptyHome.fs.Allocated by decide +kernel
  have hlinked : treeLinks.sound homeWithLink.fs := show homeWithLink.fs.Allocated by decide +kernel
  refine ⟨exampleServer_loggedIn, linkPath_fits, hlnk, clientWithLink_has,
    ⟨hempty, habsent, by decide +kernel, ?_⟩, hlinked, hother, ?_⟩
  · rw [linkPushed_iff exampleServer_loggedIn linkPath_fits hlnk clientWithLink_has hempty habsent,
      linkAfter_eq_iff clientWithLink_has]
    rintro (hsame | ⟨-, -, -, hzero⟩)
    · simp at hsame
    · exact absurd hzero (by decide)
  · rw [linkPushed_iff exampleServer_loggedIn linkPath_fits hlnk clientWithLink_has hlinked hother,
      linkAfter_eq_iff clientWithLink_has]
    rintro (hsame | ⟨hnone, -⟩)
    · exact absurd hsame (by decide)
    · simp at hnone

end Instances

end Csiebox.Session
