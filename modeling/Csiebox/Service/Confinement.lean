import Csiebox.Service.Gate
import Csiebox.Service.Places

namespace Csiebox

open CBytes Program Prog Session TreeFs Lexical

section Reached

variable {F : Type} [Posix F] {md5 : Bytes → Mem 16} {server : Server} {connFd : Nat} {info : ClientInfo}
  {h : Host F} {l : Link UInt8}

omit [Posix F] in
theorem base_fits {server : Server} {info : ClientInfo}
    (hfits : (baseOf server info).length < pathMax) (hentry : server.client connFd = some info) :
    (getUserHomedir server (server.client connFd) >>= fun filepath => strcat filepath [slash]) =
      ret (baseOf server info) := by
  have hlen : (homeOf server.path (clientUser info)).length + 1 < pathMax := by
    simpa [baseOf, Nat.add_assoc] using hfits
  simp only [hentry, getUserHomedir, userString]
  rw [checkSize_pos (by omega), ret_bind, ret_bind, strcat_fits hlen]
  rfl

theorem exec_bodyOf {size : Nat} {m result : Bytes} {h' : Host F} (hbody : bodyOf size h l = some m)
    (hresult : result = h.fresh size) :
    Exec host ⟨completeMessageWithHeader (requestHead l) result, h', Link.skip l sizeofHeader⟩ []
      ⟨ret (true, m), h', behindBody l⟩ := by
  obtain ⟨hfits, hm⟩ := bodyOf_eq_some.mp hbody
  rw [messageOf] at hm
  split_ifs at hm with hlen
  have htake : ((l.inbox.drop sizeofHeader).take (headerDatalen (requestHead l))).length =
      headerDatalen (requestHead l) := List.length_take_of_le hlen
  have hsize : result.length = size := by simp [hresult, Host.fresh]
  refine Exec.after (exec_hear_take hlen) ?_
  rw [checkSize_pos (by rw [htake, hsize]; exact hfits), ret_bind, beq_iff_eq.mpr htake, hresult,
    Option.some.inj hm, List.drop_drop]
  exact .refl _

theorem exec_into (message : Bytes) {got : Bytes} {len : Nat} (hgot : received l len = some got)
    (hfits : got.length ≤ message.length) :
    ∃ ok, Exec host ⟨recvMessage message len, h, l⟩ [] ⟨ret (ok, overlay message got), h,
      Link.skip l len⟩ := by
  rw [received] at hgot
  split_ifs at hgot with hready
  obtain rfl := Option.some.inj hgot
  by_cases hzero : len = 0
  · subst hzero
    refine ⟨false, ?_⟩
    rw [List.take_zero, overlay_nil]
    exact .refl _
  · refine ⟨(l.inbox.take len).length == len, ?_⟩
    rw [recvMessage, if_neg hzero]
    by_cases hlen : len ≤ l.inbox.length
    · refine Exec.after (exec_hear_take hlen) ?_
      rw [checkSize_pos hfits, ret_bind]
      exact .refl _
    · have hclosed : l.closed = true := hready.resolve_left hlen
      have hall : l.inbox.take len = l.inbox := List.take_of_length_le (by omega)
      have hnone : l.inbox.drop len = [] := List.drop_eq_nil_of_le (by omega)
      have hlink : l = ⟨l.inbox, true⟩ := by rw [← hclosed]
      rw [hall] at hfits ⊢
      rw [Link.skip, hnone, hclosed]
      nth_rewrite 1 [hlink]
      refine Exec.after (exec_hear_short (Nat.lt_of_not_le hlen)) ?_
      rw [checkSize_pos hfits, ret_bind]
      exact .refl _

theorem exec_received {size len : Nat} {got : Bytes} (hgot : received l len = some got)
    (hsize : got.length ≤ size) :
    ∃ ok message, cString message = cString got ∧
      Exec host ⟨recvMessage (zeros size) len, h, l⟩ [] ⟨ret (ok, message), h, Link.skip l len⟩ := by
  obtain ⟨ok, hrun⟩ := exec_into (h := h) (zeros size) hgot (by rwa [zeros_length])
  exact ⟨ok, _, cString_overlay _ _, hrun⟩

-- A run comes to the call, and finds the files as `fs`.
def Comes (p : Proc Sys UInt8 Fault (Host F) α) (op : Sys γ) (fs : F) : Prop :=
  ∃ out k h' l', Exec host p out ⟨.call op k, h', l'⟩ ∧ h'.fs = fs

theorem Comes.after {p : Code α} {f : α → Code δ} {a : α} {h₁ : Host F} {l₁ : Link UInt8} {out : Bytes}
    {op : Sys γ} {fs : F} (hp : Exec host ⟨p, h, l⟩ out ⟨ret a, h₁, l₁⟩) (hf : Comes ⟨f a, h₁, l₁⟩ op fs) :
    Comes ⟨p >>= f, h, l⟩ op fs := by
  obtain ⟨out', k, h', l', hrun, hfs⟩ := hf
  exact ⟨_, k, h', l', hp.seq hrun, hfs⟩

theorem Comes.bind {p : Code α} {f : α → Code δ} {op : Sys γ} {fs : F} (hp : Comes ⟨p, h, l⟩ op fs) :
    Comes ⟨p >>= f, h, l⟩ op fs := by
  obtain ⟨out, k, h', l', hrun, hfs⟩ := hp
  exact ⟨out, _, h', l', hrun.bind f, hfs⟩

theorem comes_sys (op : Sys γ) : Comes ⟨(sys op : Code γ), h, l⟩ op h.fs :=
  ⟨[], ret, h, l, .refl _, rfl⟩

-- Behind its paths each request comes to its calls.
theorem comes_utime {filepath : Bytes} (atime mtime : Int) : Comes ⟨(do
    let _ ← sys (.utime filepath atime mtime)
    ret () : Code Unit), h, l⟩ (.utime filepath atime mtime) h.fs :=
  .bind (comes_sys _)

theorem comes_afterRm {filepath : Bytes} : Comes ⟨afterRm filepath, h, l⟩ (.remove filepath) h.fs :=
  .bind (comes_sys _)

theorem comes_afterHardlink {source target st : Bytes} :
    Comes ⟨afterHardlink source target st, h, l⟩ (.link source target) h.fs ∧
      Comes ⟨afterHardlink source target st, h, l⟩ (.utime target (stAtime st) (stMtime st))
        (Posix.link h.fs source target).2 :=
  ⟨.bind (comes_sys _), .after (exec_sys rfl) (comes_utime _ _)⟩

-- The answer to a META request, kind by kind.
section Answers

variable (md5 : Bytes → Mem 16) (filepath hash : Bytes) (h : Host F) (l : Link UInt8) {st : Bytes}

theorem exec_answer_dir (hdir : sIsDir (stMode st) = true) :
    Comes ⟨answerMeta md5 filepath st hash, h, l⟩ (.mkdir filepath homeMode) h.fs ∧
      ∃ out, Exec host ⟨answerMeta md5 filepath st hash, h, l⟩ out
        ⟨ret (), (h.set (Posix.mkdir h.fs filepath homeMode)).2, l⟩ := by
  have hstatus : metaStatus md5 filepath st hash =
      (sys (.mkdir filepath homeMode) >>= fun _ => ret statusOk) := by rw [metaStatus, if_pos hdir]
  unfold answerMeta
  rw [hstatus]
  refine ⟨.bind (.bind (comes_sys _)), ?_⟩
  obtain ⟨out, b, hsend⟩ := exec_sendMessage_any (header magicRes opSyncMeta statusOk 0 0)
    (h.set (Posix.mkdir h.fs filepath homeMode)).2 l
  refine ⟨out ++ [], Exec.after (Exec.after (exec_sys rfl) (.refl _)) ?_⟩
  rw [if_neg (by decide)]
  exact hsend.seq (.refl _)

theorem exec_receiveLink (head : Bytes) {text : Bytes} (htext : linkSent h l = some text) :
    ∃ out l', Exec host ⟨receiveLink filepath head, h, l⟩ out
      ⟨ret (), (h.tick.set (Posix.symlink h.fs text filepath)).2, l'⟩ := by
  simp only [linkSent, Option.bind_eq_bind, Option.bind_eq_some_iff, Option.guard_eq_some',
    Option.pure_def, Option.some.injEq] at htext
  obtain ⟨got, hgot, bs, hbs, -, hfits, rfl⟩ := htext
  obtain ⟨buf, hbuf, huninit⟩ := exec_fresh h l N
  rw [← hbuf]
  obtain ⟨out, b, hsend⟩ := exec_sendMessage_any head h.tick l
  obtain ⟨ok₁, hreq⟩ := exec_into (h := h.tick) (zeros sizeofFile) hgot
    (by rw [zeros_length]; exact received_length hgot)
  obtain ⟨ok₂, hbody⟩ := exec_into (h := h.tick) buf.val hbs (by rwa [buf.property])
  unfold receiveLink
  exact ⟨_, _, Exec.after huninit (hsend.seq (hreq.seq (hbody.seq (Exec.after (exec_sys rfl) (.refl _)))))⟩

theorem exec_answer_link (hdir : ¬sIsDir (stMode st) = true) (hlnk : sIsLnk (stMode st) = true) :
    Comes ⟨answerMeta md5 filepath st hash, h, l⟩ (.readlink filepath pathMax) h.fs ∧
      (hash = linkDigest md5 (Posix.readlink h.fs filepath pathMax) →
        ∃ out, Exec host ⟨answerMeta md5 filepath st hash, h, l⟩ out ⟨ret (), h, l⟩) ∧
      (hash ≠ linkDigest md5 (Posix.readlink h.fs filepath pathMax) → ∀ text ∈ linkSent h l,
        ∃ out l', Exec host ⟨answerMeta md5 filepath st hash, h, l⟩ out
          ⟨ret (), (h.tick.set (Posix.symlink h.fs text filepath)).2, l'⟩) := by
  unfold answerMeta
  rw [metaStatus_link hdir hlnk]
  refine ⟨.bind (.bind (comes_sys _)), fun hsame => ?_, fun hother text htext => ?_⟩
  · obtain ⟨out, b, hsend⟩ := exec_sendMessage_any (header magicRes opSyncMeta statusOk 0 0) h l
    refine ⟨out ++ [], Exec.after (Exec.after (exec_sys rfl) (.refl _)) ?_⟩
    dsimp only
    rw [if_pos hsame, if_neg (by decide)]
    exact hsend.seq (.refl _)
  · obtain ⟨out, l', hlink⟩ :=
      exec_receiveLink filepath h l (header magicRes opSyncMeta statusMore 0 0) htext
    refine ⟨out, l', Exec.after (Exec.after (exec_sys rfl) (.refl _)) ?_⟩
    dsimp only
    rw [if_neg hother, if_pos rfl, if_pos hlnk]
    exact hlink

theorem exec_answer_other (hdir : ¬sIsDir (stMode st) = true) (hlnk : ¬sIsLnk (stMode st) = true)
    (hreg : ¬sIsReg (stMode st) = true) :
    ∃ out, Exec host ⟨answerMeta md5 filepath st hash, h, l⟩ out ⟨ret (), h, l⟩ := by
  have hstatus : metaStatus md5 filepath st hash = ret statusOk := by
    rw [metaStatus, if_neg hdir, if_neg hlnk, if_neg hreg]
  obtain ⟨out, b, hsend⟩ := exec_sendMessage_any (header magicRes opSyncMeta statusOk 0 0) h l
  unfold answerMeta
  rw [hstatus, ret_bind]
  dsimp only
  rw [if_neg (by decide)]
  exact ⟨_, hsend.seq (.refl _)⟩

theorem comes_answer_file (hdir : ¬sIsDir (stMode st) = true) (hlnk : ¬sIsLnk (stMode st) = true)
    (hreg : sIsReg (stMode st) = true) :
    Comes ⟨answerMeta md5 filepath st hash, h, l⟩ (.reads filepath) h.fs := by
  unfold answerMeta
  rw [metaStatus, if_neg hdir, if_neg hlnk, if_pos hreg]
  exact .bind (.bind (.bind (comes_sys _)))

end Answers

-- The answer's first call has the path, and `utime` is behind the answer.
theorem comes_afterMeta_first (md5 : Bytes → Mem 16) (filepath m : Bytes) (h : Host F) (l : Link UInt8) :
    ∃ (γ : Type) (op : Sys γ), Comes ⟨afterMeta md5 filepath m, h, l⟩ op h.fs ∧
      ∀ P (h' : Host F), CallsAt P op h' → P filepath := by
  by_cases hdir : sIsDir (stMode (metaStat m)) = true
  · exact ⟨_, _, .bind (exec_answer_dir md5 filepath _ h l hdir).1, fun P h' => id⟩
  by_cases hlnk : sIsLnk (stMode (metaStat m)) = true
  · exact ⟨_, _, .bind (exec_answer_link md5 filepath _ h l hdir hlnk).1, fun P h' => id⟩
  by_cases hreg : sIsReg (stMode (metaStat m)) = true
  · exact ⟨_, _, .bind (comes_answer_file md5 filepath _ h l hdir hlnk hreg), fun P h' => id⟩
  · obtain ⟨out, hanswer⟩ := exec_answer_other md5 filepath (metaHash m) h l hdir hlnk hreg
    exact ⟨_, _, .after hanswer (comes_utime _ _), fun P h' => id⟩

-- What a request comes to behind its paths, its handling comes to.
theorem comes_dispatch {op : Sys γ} {fs : F} (hlen : sizeofHeader ≤ l.inbox.length)
    (hmagic : headerMagic (requestHead l) = magicReq)
    (hcomes : Comes ⟨dispatch md5 server connFd (requestHead l), h, Link.skip l sizeofHeader⟩ op fs) :
    Comes ⟨handleRequest md5 server connFd, h, l⟩ op fs := by
  have htake : (l.inbox.take sizeofHeader).length = sizeofHeader := List.length_take_of_le hlen
  have hhead : Exec host ⟨recvMessage (zeros sizeofHeader) sizeofHeader, h, l⟩ []
      ⟨ret (true, requestHead l), h, Link.skip l sizeofHeader⟩ := by
    rw [recvMessage, if_neg (by decide)]
    refine Exec.after (exec_hear_take hlen) ?_
    rw [checkSize_pos (by rw [htake, zeros_length]), ret_bind, beq_iff_eq.mpr htake,
      overlay_full (by rw [htake, zeros_length])]
    exact .refl _
  unfold handleRequest
  refine .after hhead ?_
  simpa [hmagic] using hcomes

-- The echo of the header, the home directory and the body.
theorem comes_body {size : Nat} {m : Bytes} {f : Bytes → Bool × Bytes → Code Unit} {op : Sys γ} {fs : F}
    (hroom : (baseOf server info).length < pathMax) (hentry : server.client connFd = some info)
    (hbody : bodyOf size h l = some m)
    (hcomes : Comes ⟨f (baseOf server info) (true, m), h.tick, behindBody l⟩ op fs) :
    Comes ⟨do
        let _ ← sendMessage (requestHead l)
        let filepath ← getUserHomedir server (server.client connFd)
        let filepath ← strcat filepath [slash]
        let message ← sys (.uninit size)
        let r ← completeMessageWithHeader (requestHead l) message.val
        f filepath r, h, Link.skip l sizeofHeader⟩ op fs := by
  obtain ⟨out, b, hsend⟩ := exec_sendMessage_any (requestHead l) h (Link.skip l sizeofHeader)
  refine .after hsend ?_
  rw [← bind_assoc, base_fits hroom hentry, ret_bind]
  exact .after (exec_sys rfl) (.after (exec_bodyOf hbody rfl) hcomes)

theorem comes_meta (hentry : server.client connFd = some info) (hasks : Asks opSyncMeta l) {m r : Bytes}
    (hbody : bodyOf sizeofMeta h l = some m) (hpaths : metaPaths (baseOf server info) h l = some [r])
    {op : Sys γ} {fs : F}
    (hcomes : Comes ⟨afterMeta md5 (baseOf server info ++ r) m, h.tick,
      Link.skip (behindBody l) (metaPathlen m)⟩ op fs) :
    Comes ⟨handleRequest md5 server connFd, h, l⟩ op fs := by
  obtain ⟨m', r', hbody', hlen, hr, hsame⟩ := metaPaths_eq_some.mp hpaths
  obtain rfl := Option.some.inj (hbody.symm.trans hbody')
  obtain rfl := List.singleton_inj.mp hsame
  obtain ⟨got, hgot, hsize, hfits, rfl⟩ := receivedPath_eq_some.mp hr
  have hop := hasks.2.2
  refine comes_dispatch hasks.1 hasks.2.1 ?_
  rw [dispatch, if_neg (by rw [hop]; decide), if_pos hop]
  apply Comes.bind
  unfold syncMeta
  refine comes_body (by omega) hentry hbody ?_
  obtain ⟨ok, message, hstring, hrecv⟩ := exec_received (h := h.tick) (l := behindBody l) hgot hsize
  simp only [if_true, checkSize_pos hlen, ret_bind]
  refine .after hrecv ?_
  rw [strcat_fits (by rw [hstring]; exact hfits), ret_bind, hstring]
  exact hcomes

theorem comes_hardlink (md5 : Bytes → Mem 16) (hentry : server.client connFd = some info)
    (hasks : Asks opSyncHardlink l)
    {src target : Bytes} (hpaths : hardlinkPaths (baseOf server info) h l = some [src, target]) :
    ∃ st l', ∀ {γ : Type} {op : Sys γ} {fs : F},
      Comes ⟨afterHardlink (baseOf server info ++ src) (baseOf server info ++ target) st, h.tick,
        l'⟩ op fs →
        Comes ⟨handleRequest md5 server connFd, h, l⟩ op fs := by
  obtain ⟨m, src', target', st, hbody, hsrc, htarget, hst, hsame⟩ := hardlinkPaths_eq_some.mp hpaths
  obtain ⟨rfl, rfl⟩ : src' = src ∧ target' = target := by simpa using hsame
  obtain ⟨src, hgot₁, hsize₁, hfits₁, rfl⟩ := receivedPath_eq_some.mp hsrc
  obtain ⟨target, hgot₂, hsize₂, hfits₂, rfl⟩ := receivedPath_eq_some.mp htarget
  have hop := hasks.2.2
  obtain ⟨ok₁, message₁, hstring₁, hrecv₁⟩ :=
    exec_received (h := h.tick) (l := behindBody l) hgot₁ hsize₁
  obtain ⟨ok₂, message₂, hstring₂, hrecv₂⟩ :=
    exec_received (h := h.tick) (l := Link.skip (behindBody l) (hardlinkSrclen m)) hgot₂ hsize₂
  have hskip : received (Link.skip (Link.skip (behindBody l) (hardlinkSrclen m))
      (hardlinkTargetlen m)) sizeofStat = some st := by
    rw [← hst]
    simp only [Link.skip, List.drop_drop]
  obtain ⟨ok₃, message₃, -, hrecv₃⟩ := exec_received (h := h.tick) hskip (received_length hst)
  refine ⟨message₃, Link.skip (Link.skip (Link.skip (behindBody l) (hardlinkSrclen m))
    (hardlinkTargetlen m)) sizeofStat, ?_⟩
  intro γ op fs hcomes
  refine comes_dispatch hasks.1 hasks.2.1 ?_
  rw [dispatch, if_neg (by rw [hop]; decide), if_neg (by rw [hop]; decide), if_pos hop]
  apply Comes.bind
  unfold syncHardlink
  refine comes_body (by omega) hentry hbody ?_
  simp only [if_true]
  refine .after hrecv₁ (.after hrecv₂ (.after hrecv₃ ?_))
  rw [strcat_fits (by rw [hstring₁]; exact hfits₁), ret_bind,
    strcat_fits (by rw [hstring₂]; exact hfits₂), ret_bind, hstring₁, hstring₂]
  exact hcomes

theorem comes_rm (hentry : server.client connFd = some info) (hasks : Asks opRm l) {r : Bytes}
    (hpaths : rmPaths (baseOf server info) h l = some [r]) :
    Comes ⟨handleRequest md5 server connFd, h, l⟩ (.remove (baseOf server info ++ r)) h.fs := by
  obtain ⟨m, r', hbody, hr, hsame⟩ := rmPaths_eq_some.mp hpaths
  obtain rfl := List.singleton_inj.mp hsame
  obtain ⟨got, hgot, hsize, hfits, rfl⟩ := receivedPath_eq_some.mp hr
  have hop := hasks.2.2
  refine comes_dispatch hasks.1 hasks.2.1 ?_
  rw [dispatch, if_neg (by rw [hop]; decide), if_neg (by rw [hop]; decide),
    if_neg (by rw [hop]; decide), if_pos hop]
  apply Comes.bind
  unfold rm
  refine comes_body (by omega) hentry hbody ?_
  obtain ⟨ok, message, hstring, hrecv⟩ := exec_received (h := h.tick) (l := behindBody l) hgot hsize
  simp only [if_true]
  refine .after hrecv ?_
  rw [strcat_fits (by rw [hstring]; exact hfits), ret_bind, hstring]
  exact comes_afterRm (h := h.tick)

end Reached

section Confinement

variable {F : Type} [Posix F]

-- Every path that the handling of a request gives to a call lies in the home directory, with
-- "." and ".." resolved lexically, and no call of it reads or changes anything in the home
-- directory of another user.
structure Confined (cwd : Path) (users : List Bytes) (md5 : Bytes → Mem 16) (server : Server) (connFd : Nat)
    (info : ClientInfo) (h : Host F) (l : Link UInt8) : Prop where
  lexical : ∀ out δ (op : Sys δ) k h' l', Exec host ⟨handleRequest md5 server connFd, h, l⟩ out
    ⟨.call op k, h', l'⟩ → CallsAt (Inside (homeOf server.path (clientUser info))) op h'
  apart : ∀ out δ (op : Sys δ) k h' l', Exec host ⟨handleRequest md5 server connFd, h, l⟩ out
    ⟨.call op k, h', l'⟩ → CallAvoids (OthersPlace cwd users server info h.fs) cwd op h'

section Conditions

variable {md5 : Bytes → Mem 16} {server : Server} {connFd : Nat} {info : ClientInfo} {h : Host F}
  {l : Link UInt8} {A : Path → Prop} {cwd : Path}

theorem lexical_iff (md5 : Bytes → Mem 16) (hentry : server.client connFd = some info)
    (hchanges : Changes l) :
    (∀ out δ (op : Sys δ) k h' l', Exec host ⟨handleRequest md5 server connFd, h, l⟩ out
        ⟨.call op k, h', l'⟩ → CallsAt (Inside (homeOf server.path (clientUser info))) op h') ↔
      ∀ r ∈ givenPaths (baseOf server info) h l, StaysHome (homeOf server.path (clientUser info)) r := by
  have hne : homeOf server.path (clientUser info) ≠ [] := by simp [homeOf]
  have hinside : ∀ r, Inside (homeOf server.path (clientUser info)) (baseOf server info ++ r) ↔
      StaysHome (homeOf server.path (clientUser info)) r := by
    intro r
    rw [← inside_iff r hne, baseOf, homeOf, List.append_assoc _ [slash], List.singleton_append]
  constructor
  · intro hconfined r hr
    have hcalls : ∀ {γ : Type} {op : Sys γ} {fs : F}, Comes ⟨handleRequest md5 server connFd, h, l⟩ op fs →
        ∃ h' : Host F, CallsAt (Inside (homeOf server.path (clientUser info))) op h' := by
      rintro γ op fs ⟨out, k, h', l', hrun, -⟩
      exact ⟨h', hconfined _ _ _ _ _ _ hrun⟩
    apply (hinside r).mp
    obtain ⟨hasks, m, hbody, hpaths⟩ | ⟨hasks, src, target, hpaths, hr⟩ | ⟨hasks, hpaths⟩ := given_cases hr
    · obtain ⟨γ, op, hfirst, hop⟩ := comes_afterMeta_first md5 (baseOf server info ++ r) m h.tick
        (Link.skip (behindBody l) (metaPathlen m))
      obtain ⟨h', hat⟩ := hcalls (comes_meta hentry hasks hbody hpaths hfirst)
      exact hop _ h' hat
    · obtain ⟨st, l', hcomes⟩ := comes_hardlink md5 hentry hasks hpaths
      obtain ⟨h', hold, hnew⟩ := hcalls (hcomes comes_afterHardlink.1)
      rcases hr with rfl | rfl
      · exact hold
      · exact hnew
    · obtain ⟨h', hat⟩ := hcalls (comes_rm hentry hasks hpaths)
      exact hat
  · intro hstays out δ op k h' l' hrun
    have halong : Along host (CallsAt (Inside (homeOf server.path (clientUser info)))) (fun _ _ => True)
        (handleRequest md5 server connFd) h l fun server' _ _ => server' = server :=
      along_changes hentry hchanges (fun r hr => (hinside r).mpr (hstays r hr)) fun _ _ => trivial
    exact halong.calls hrun

theorem callAvoids_fs {op : Sys γ} {h' : Host F} (hfs : h.fs = h'.fs) :
    CallAvoids A cwd op h ↔ CallAvoids A cwd op h' := by
  cases op <;> simp only [CallAvoids, hfs]

theorem apart_iff (laws : LinkLaws F) (hsound : laws.Sound h.fs) (hentry : server.client connFd = some info)
    (hchanges : Changes l) :
    (∀ out δ (op : Sys δ) k h' l', Exec host ⟨handleRequest md5 server connFd, h, l⟩ out
        ⟨.call op k, h', l'⟩ → CallAvoids A cwd op h') ↔
      RequestAvoids A cwd md5 (baseOf server info) h l := by
  constructor
  · intro hapart
    have hcalls : ∀ {γ : Type} {op : Sys γ} (h' : Host F),
        Comes ⟨handleRequest md5 server connFd, h, l⟩ op h'.fs → CallAvoids A cwd op h' := by
      rintro γ op h' ⟨out, k, h'', l', hrun, hfs⟩
      exact (callAvoids_fs hfs).mp (hapart _ _ _ _ _ _ hrun)
    constructor
    · intro hasks m r hbody hpaths
      have hmeta : ∀ {γ : Type} {op : Sys γ} (h' : Host F),
          Comes ⟨afterMeta md5 (baseOf server info ++ r) m, h.tick,
            Link.skip (behindBody l) (metaPathlen m)⟩
            op h'.fs → CallAvoids A cwd op h' :=
        fun h' hcomes => hcalls h' (comes_meta hentry hasks hbody hpaths hcomes)
      unfold MetaAvoids
      split_ifs with hdir hlnk hsame
      · obtain ⟨hfirst, out, hanswer⟩ := exec_answer_dir md5 (baseOf server info ++ r) (metaHash m) h.tick
          (Link.skip (behindBody l) (metaPathlen m)) hdir
        exact ⟨hmeta h.tick (.bind hfirst), (laws.mkdir _ _ _ hsound).avoids_iff.mp
          (hmeta _ (.after hanswer (comes_utime _ _)))⟩
      · obtain ⟨hfirst, hknown, -⟩ := exec_answer_link md5 (baseOf server info ++ r) (metaHash m) h.tick
          (Link.skip (behindBody l) (metaPathlen m)) hdir hlnk
        obtain ⟨out, hanswer⟩ := hknown hsame
        exact ⟨hmeta h.tick (.bind hfirst), hmeta h.tick (.after hanswer (comes_utime _ _))⟩
      · obtain ⟨hfirst, -, hmade⟩ := exec_answer_link md5 (baseOf server info ++ r) (metaHash m) h.tick
          (Link.skip (behindBody l) (metaPathlen m)) hdir hlnk
        refine ⟨hmeta h.tick (.bind hfirst), fun text htext => ?_⟩
        obtain ⟨out, l', hanswer⟩ := hmade hsame text htext
        exact hmeta _ (.after hanswer (comes_utime _ _))
      · by_cases hreg : sIsReg (stMode (metaStat m)) = true
        · exact hmeta h.tick (.bind (comes_answer_file md5 _ _ h.tick _ hdir hlnk hreg))
        · obtain ⟨out, hanswer⟩ := exec_answer_other md5 (baseOf server info ++ r) (metaHash m) h.tick
            (Link.skip (behindBody l) (metaPathlen m)) hdir hlnk hreg
          exact hmeta h.tick (.after hanswer (comes_utime _ _))
    · intro hasks src target hpaths
      obtain ⟨st, l', hcomes⟩ := comes_hardlink md5 hentry hasks hpaths
      have hfirst := hcalls h.tick (hcomes comes_afterHardlink.1)
      exact ⟨hfirst.1, hfirst.2, hcalls (h.tick.set (Posix.link h.fs _ _)).2 (hcomes comes_afterHardlink.2)⟩
    · intro hasks r hpaths
      exact hcalls h (comes_rm hentry hasks hpaths)
  · intro hat out δ op k h' l' hrun
    exact (along_request_avoids hsound hentry hchanges hat).calls hrun

end Conditions

-- Both hold exactly if the paths of the request are right: they do not climb out of the home
-- directory, and the system does not come to another one with them.
theorem confined_iff (laws : LinkLaws F) (cwd : Path) (users : List Bytes) (md5 : Bytes → Mem 16)
    (server : Server) (connFd : Nat) (info : ClientInfo) (h : Host F) (l : Link UInt8)
    (hsound : laws.Sound h.fs) (hentry : server.client connFd = some info) (hchanges : Changes l) :
    Confined cwd users md5 server connFd info h l ↔
      (∀ r ∈ givenPaths (baseOf server info) h l, StaysHome (homeOf server.path (clientUser info)) r) ∧
        RequestAvoids (OthersPlace cwd users server info h.fs) cwd md5 (baseOf server info) h l := by
  rw [← lexical_iff md5 hentry hchanges, ← apart_iff laws hsound hentry hchanges]
  exact ⟨fun hconfined => ⟨hconfined.lexical, hconfined.apart⟩, fun ⟨hlexical, hapart⟩ =>
    ⟨hlexical, hapart⟩⟩

omit [Posix F] in
-- The path of a complete request to remove a file.
theorem given_remove {base r : Bytes} (h : Host F) (closed : Bool) (hnul : ∀ b ∈ r, b ≠ 0)
    (hfits : base.length + r.length < pathMax) :
    givenPaths base h ⟨rmMessage r.length ++ r, closed⟩ = [r] := by
  have hsmall : r.length < 2 ^ 32 - 1 := by
    simp only [pathMax] at hfits
    omega
  have hhead : requestHead ⟨rmMessage r.length ++ r, closed⟩ =
      header magicReq opRm 0 0 (sizeofRm - sizeofHeader) := by
    rw [requestHead, rmMessage, List.append_assoc]
    exact List.take_left' (header_length ..)
  have hdatalen : headerDatalen (requestHead ⟨rmMessage r.length ++ r, closed⟩) = 4 := by
    rw [hhead, headerDatalen_header _ _ _ _ _ (by decide)]
    rfl
  have hlength : (rmMessage r.length).length = sizeofRm := by
    simp [rmMessage, sizeofHeader, sizeofRm]
  have hasks : Asks opRm ⟨rmMessage r.length ++ r, closed⟩ := by
    rw [Asks, hhead]
    refine ⟨?_, rfl, rfl⟩
    rw [List.length_append, hlength]
    exact Nat.le_add_right_of_le (by decide)
  have hbody : bodyOf sizeofRm h ⟨rmMessage r.length ++ r, closed⟩ = some (rmMessage r.length) := by
    refine bodyOf_eq_some.mpr ⟨by rw [hdatalen]; decide, ?_⟩
    have hdrop : (rmMessage r.length ++ r).drop sizeofHeader = leBytes 4 r.length ++ r := by
      rw [rmMessage, List.append_assoc]
      exact List.drop_left' (header_length ..)
    have hfull : requestHead ⟨rmMessage r.length ++ r, closed⟩ ++ (leBytes 4 r.length ++ r).take 4 =
        rmMessage r.length := by
      rw [hhead, rmMessage, List.take_left' (leBytes_length ..)]
    simp only [messageOf, hdatalen, hdrop, hfull]
    rw [if_pos (by simp), overlay_full (by rw [hlength]; simp [Host.fresh])]
  have hpathlen : rmPathlen (rmMessage r.length) = r.length :=
    rmPathlen_body (header_length ..) (by omega)
  have hrest : (behindBody ⟨rmMessage r.length ++ r, closed⟩).inbox = r := by
    rw [behindBody, hdatalen]
    exact List.drop_left' hlength
  have hreceived : received (behindBody ⟨rmMessage r.length ++ r, closed⟩) r.length = some r := by
    rw [received, hrest, if_pos (.inl le_rfl), List.take_length]
  have hpaths : rmPaths base h ⟨rmMessage r.length ++ r, closed⟩ = some [r] := by
    refine rmPaths_eq_some.mpr ⟨_, r, hbody, ?_, rfl⟩
    rw [hpathlen]
    refine receivedPath_eq_some.mpr ⟨r, hreceived, ?_, ?_, cString_eq_self hnul⟩
    · rw [Nat.mod_eq_of_lt (by omega)]
      omega
    · rwa [cString_eq_self hnul]
  have hop := hasks.2.2
  rw [givenPaths, if_neg (fun hm => absurd (hm.2.2.symm.trans hop) (by decide)),
    if_neg (fun hm => absurd (hm.2.2.symm.trans hop) (by decide)), if_pos hasks, hpaths]
  rfl

-- The user "u" removes "x" inside the home directory, and "v" beside it.
def removeV : Bytes := rmMessage 4 ++ [dot, dot, slash, 0x76]

theorem validName_v : ValidName [0x76] :=
  validName_letter (by decide) (by decide) (by decide)

theorem validName_x : ValidName [0x78] :=
  validName_letter (by decide) (by decide) (by decide)

-- The home directories of "u" and "v", each with a file "x".
def twoHomes : Host TreeFs :=
  exampleHost (exampleFs [[⟨[0x73], validName_s⟩], [⟨[0x73], validName_s⟩, ⟨[0x75], validName_u⟩],
    [⟨[0x73], validName_s⟩, ⟨[0x76], validName_v⟩],
    [⟨[0x73], validName_s⟩, ⟨[0x75], validName_u⟩, ⟨[0x78], validName_x⟩],
    [⟨[0x73], validName_s⟩, ⟨[0x76], validName_v⟩, ⟨[0x78], validName_x⟩]]
    fun i => if i < 3 then .dir else .file [])

def infoOfU : ClientInfo := { account := [0x75] ++ zeros 47, connFd := 4 }

-- Only "u" is logged in.
def serverOfU : Server where
  path := [0x73]
  accountPath := [0x61]
  nullUser := none
  client := Function.update (fun _ => none) 4 (some infoOfU)
  clientNum := 1
  masterset fd := fd == 3 || fd == 4
  hl _ := []

theorem confined_remove :
    Confined [] [[0x75], [0x76]] md5OfX serverOfU 4 infoOfU twoHomes ⟨removeX, false⟩ := by
  have hgiven : givenPaths ([0x73] ++ [slash, 0x75] ++ [slash]) twoHomes ⟨removeX, false⟩ = [[0x78]] := by
    rw [removeX]
    exact given_remove (r := [0x78]) twoHomes false (by decide +kernel) (by decide +kernel)
  have hbase : baseOf serverOfU infoOfU = [0x73] ++ [slash, 0x75] ++ [slash] := by decide +kernel
  have hhome : homeOf serverOfU.path (clientUser infoOfU) = [0x73] ++ [slash, 0x75] := by decide +kernel
  have hplain : twoHomes.fs.Plain := by decide +kernel
  apply (confined_iff linkLaws [] _ md5OfX serverOfU 4 infoOfU twoHomes _ hplain rfl
    (by decide +kernel)).mpr
  rw [hbase, hhome, hgiven]
  refine ⟨by decide +kernel, fun hasks => absurd hasks (by decide +kernel),
    fun hasks => absurd hasks (by decide +kernel), fun hasks r hpaths place hplace => ?_⟩
  obtain rfl : r = [0x78] := by
    have hpath := givenPaths_rm hasks hpaths
    rw [hgiven] at hpath
    simpa using hpath.symm
  have hx : leadsTo [] twoHomes.fs false ([0x73] ++ [slash, 0x75] ++ [slash] ++ [0x78]) =
      some [⟨[0x73], validName_s⟩, ⟨[0x75], validName_u⟩, ⟨[0x78], validName_x⟩] := by decide +kernel
  have hv : leadsTo [] twoHomes.fs true ([0x73] ++ [slash, 0x76]) =
      some [⟨[0x73], validName_s⟩, ⟨[0x76], validName_v⟩] := by decide +kernel
  obtain rfl := Option.some.inj (hx.symm.trans hplace)
  rintro ⟨user, huser, hother, home, hhome, place', hbelow, hsame⟩
  have huser' : user = [0x76] := by
    have hu : clientUser infoOfU = [0x75] := by decide +kernel
    rw [hu] at hother
    simpa [hother] using huser
  rw [huser'] at hhome
  obtain rfl := Option.some.inj (hv.symm.trans hhome)
  have hne : place' ≠ [] := by
    rintro rfl
    exact absurd hbelow (by decide)
  have hplace' := hsame.elim id (hplain.one_file (by decide) (by decide) hne)
  rw [← hplace'] at hbelow
  exact absurd hbelow (by decide +kernel)

theorem remove_leaves_home :
    ¬∀ w, Reaches md5OfX (fun _ _ _ => True) (Service.start [0x73] [0x61] none 3 accountHost) w →
      ∀ cwd users info l, w.server.client 4 = some info → Changes l →
        Confined cwd users md5OfX w.server 4 info w.host l := by
  intro hall
  obtain ⟨w, info, hreach, hentry, hpath, huser, -⟩ := login_reaches (G := fun _ _ _ => True) trivial
  have hchanges : Changes ⟨removeV, false⟩ := by decide +kernel
  have hstays := (lexical_iff md5OfX hentry hchanges).mp
    (hall w hreach [] [] info _ hentry hchanges).lexical
  have hgiven : givenPaths ([0x73] ++ [slash, 0x75] ++ [slash]) w.host ⟨removeV, false⟩ =
      [[dot, dot, slash, 0x76]] := by
    rw [removeV]
    exact given_remove (r := [dot, dot, slash, 0x76]) w.host false (by decide +kernel) (by decide +kernel)
  rw [baseOf, homeOf, hpath, huser, hgiven] at hstays
  exact absurd hstays (by decide +kernel)

end Confinement

end Csiebox
