import Csiebox.Service.Bounds.Rules

namespace Csiebox

open CBytes Program Prog

section Chunks

variable {F : Type} [Posix F] {md5 : Bytes → Mem 16} {h : Host F} {l : Link UInt8}
  {filepath st hash header : Bytes}

theorem fits_linkBody (buf : Mem N) : FitsHost (do
    let (_, req) ← recvMessage (zeros sizeofFile) sizeofFile
    let (_, buf) ← recvMessage buf.val (fileDatalen req)
    let _ ← sys (.symlink (cString buf) filepath)
    ret ()) h l ↔ HeaderFits (zeros sizeofFile) l := by
  have hsym : ∀ (buf : Bytes) (h : Host F) l, FitsHost (do
      let _ ← sys (.symlink (cString buf) filepath)
      ret ()) h l := fun buf h l => fits_sys.mpr fun _ _ _ => fits_ret
  rw [fits_recvMessage (g := fun req => do
    let (_, buf) ← recvMessage buf.val (fileDatalen req)
    let _ ← sys (.symlink (cString buf) filepath)
    ret ()) (fun _ _ => rfl) ?_]
  · rw [zeros_length]
    refine (and_iff_right (le_refl _)).trans (forall_congr' fun got => imp_congr_right fun _ => ?_)
    rw [fits_recvMessage (g := fun buf => do
      let _ ← sys (.symlink (cString buf) filepath)
      ret ()) (fun _ _ => rfl) (fun _ _ _ => by rintro ⟨⟩), buf.property]
    exact and_iff_left fun _ _ => hsym _ _ _
  · exact fun _ m _ => recvMessage_ne_halt (by rintro ⟨⟩)

-- A link is received after one header.
theorem fits_receiveLink : FitsHost (receiveLink filepath header) h l ↔
    HeaderFits (zeros sizeofFile) l := by
  unfold receiveLink
  rw [fits_uninit]
  simp only [fits_sendMessage]
  constructor
  · intro hall
    obtain ⟨buf, hbuf⟩ := exists_fresh (h := h) N
    exact (fits_linkBody buf).mp (hall buf hbuf)
  · exact fun hfit buf _ => (fits_linkBody buf).mpr hfit

theorem exec_pollLockRound (header : Bytes) (h : Host F) (l : Link UInt8) (fp : Nat) (fl : Flock) :
    ∃ out, Exec host ⟨pollLockRound fp header fl, h, l⟩ out
      ⟨ret (if (Posix.getlk h.fs fp fl).type = .unlck then .inr (Posix.getlk h.fs fp fl)
        else .inl (Posix.getlk h.fs fp fl)), h, l⟩ := by
  obtain ⟨out, b, hsend⟩ := exec_sendMessage_any header h l
  exact ⟨_, Exec.after (exec_sys rfl) (hsend.seq (.refl _))⟩

theorem exec_pollLock (header : Bytes) (l : Link UInt8) {fp n : Nat} {fl : Flock}
    (hn : ((Posix.getlk h.fs fp)^[n + 1] fl).type = .unlck) :
    ∃ out fl', Exec host ⟨iter (pollLockRound fp header) fl, h, l⟩ out ⟨ret fl', h, l⟩ := by
  induction n generalizing fl with
  | zero =>
      change (Posix.getlk h.fs fp fl).type = .unlck at hn
      obtain ⟨out, hround⟩ := exec_pollLockRound header h l fp fl
      rw [if_pos hn] at hround
      exact ⟨out, _, exec_iter_done hround⟩
  | succ n ih =>
      obtain ⟨out, hround⟩ := exec_pollLockRound header h l fp fl
      by_cases hfree : (Posix.getlk h.fs fp fl).type = .unlck
      · rw [if_pos hfree] at hround
        exact ⟨out, _, exec_iter_done hround⟩
      · rw [if_neg hfree] at hround
        obtain ⟨out', fl', hrest⟩ := ih hn
        exact ⟨_, fl', (exec_iter_more hround).trans hrest⟩

theorem ends_pollLock (fp : Nat) :
    Ends host (pollLock fp header) h l fun _ h' l' => h' = h ∧ l' = l ∧ Unlocked h.fs fp := by
  refine along_iter (fun fl h' l' => h' = h ∧ l' = l ∧ ∃ n, fl = (Posix.getlk h.fs fp)^[n] Flock.zero)
    ⟨rfl, rfl, 0, rfl⟩ ?_
  rintro fl h₁ l₁ ⟨hh, hl, n, hn⟩
  subst h₁ l₁
  apply along_bind
  refine along_sys trivial fun fl' h' hexec => ?_
  cases hexec
  apply along_bind
  refine along_sendMessage fun _ => along_ret ?_
  have hnext : Posix.getlk h.fs fp fl = (Posix.getlk h.fs fp)^[n + 1] Flock.zero := by
    rw [Function.iterate_succ_apply', hn]
  split_ifs with hfree
  · rw [hnext] at hfree
    exact ⟨rfl, rfl, n, hfree⟩
  · exact ⟨rfl, rfl, n + 1, hnext⟩

theorem ends_recvMessage {message : Bytes} {len : Nat} :
    Ends host (recvMessage message len) h l fun r h' l' => h' = h ∧ l' = Link.skip l len ∧
      ∃ got, received l len = some got ∧ r.2 = overlay message got := by
  unfold recvMessage
  split_ifs with hzero
  · subst hzero
    exact along_ret ⟨rfl, rfl, [], by simp [received], (overlay_nil message).symm⟩
  · apply along_bind
    apply along_hear
    · intro hlen
      apply along_bind
      exact along_checkSize (fun _ => along_ret ⟨rfl, rfl, _, if_pos (.inl hlen), rfl⟩)
        fun _ => trivial
    · intro hlen hclosed
      have hall : received l len = some l.inbox := by
        rw [received, if_pos (.inr hclosed), List.take_of_length_le hlen.le]
      have hskip : Link.skip l len = ⟨[], true⟩ := by
        rw [Link.skip, List.drop_eq_nil_of_le hlen.le, hclosed]
      apply along_bind
      exact along_checkSize (fun _ => along_ret ⟨rfl, hskip.symm, _, hall, rfl⟩) fun _ => trivial

variable {fp : Nat} {req buf : Bytes}

-- What a round leaves behind when there is another one.
theorem ends_receiveChunk (hreq : req.length = sizeofFile) (hbuf : buf.length = N) :
    Ends host (receiveChunk N fp (req, buf)) h l fun r _ l' => ∀ c, r = .inl c →
      nextChunk (req, l) = some (c.1, l') ∧ c.1.length = sizeofFile ∧ c.2.length = N := by
  unfold receiveChunk
  apply along_bind
  refine ends_recvMessage.mono ?_
  rintro ⟨ok, req'⟩ h₁ l₁ ⟨-, rfl, got, hgot, rfl⟩
  apply along_bind
  refine ends_recvMessage.mono ?_
  rintro ⟨ok', buf'⟩ h₂ l₂ ⟨-, rfl, payload, hpayload, rfl⟩
  apply along_bind
  refine along_checkSize (fun _ => ?_) fun _ => trivial
  apply along_bind
  refine along_sys trivial fun _ h₃ _ => along_ret ?_
  intro c hc
  split_ifs at hc with hfull
  cases hc
  rw [hfull] at hpayload ⊢
  have hgotlen := received_length hgot
  have hpaylen := received_length hpayload
  refine ⟨?_, ?_, ?_⟩
  · simp [nextChunk, hgot, hfull, hpayload]
  · rw [overlay_length (by omega), hreq]
  · rw [overlay_length (by omega), hbuf]

def Host.write (h : Host F) (fp : Nat) (bs : Bytes) : Host F :=
  { h with fs := Posix.fwrite h.fs fp bs }

theorem fits_receiveChunk {α : Type} {E : (Bytes × Bytes) ⊕ Unit → Code α}
    (hreq : req.length = sizeofFile) (hbuf : buf.length = N) :
    FitsHost (receiveChunk N fp (req, buf) >>= E) h l ↔
      ∀ got, received l sizeofFile = some got → fileDatalen (overlay req got) ≤ N ∧
        ∀ payload, received (Link.skip l sizeofFile) (fileDatalen (overlay req got)) = some payload →
          FitsHost (E (if fileDatalen (overlay req got) = N then
              .inl (overlay req got, overlay buf payload) else .inr ()))
            (h.write fp ((overlay buf payload).take (fileDatalen (overlay req got))))
            (Link.skip (Link.skip l sizeofFile) (fileDatalen (overlay req got))) := by
  have hwrite : ∀ (req' buf' : Bytes) (h : Host F) l, buf'.length = N → fileDatalen req' ≤ N →
      (FitsHost (do
        checkSize (fileDatalen req' ≤ buf'.length)
        sys (.fwrite fp (buf'.take (fileDatalen req')))
        E (if fileDatalen req' = N then .inl (req', buf') else .inr ())) h l ↔
      FitsHost (E (if fileDatalen req' = N then .inl (req', buf') else .inr ()))
        (h.write fp (buf'.take (fileDatalen req'))) l) := by
    intro req' buf' h l hlen hfit
    rw [fits_checkSize, forall_prop_of_true (by omega), FitsHost, fits_sys]
    constructor
    · intro hall
      exact hall () _ rfl
    · rintro hE _ _ ⟨⟩
      exact hE
  unfold receiveChunk
  simp only [bind_assoc, ret_bind]
  rw [fits_recvMessage (g := fun req' => do
    let r ← recvMessage buf (fileDatalen req')
    checkSize (fileDatalen req' ≤ r.2.length)
    sys (.fwrite fp (r.2.take (fileDatalen req')))
    E (if fileDatalen req' = N then .inl (req', r.2) else .inr ())) (fun _ _ => rfl) ?_]
  · rw [hreq]
    refine (and_iff_right (le_refl _)).trans (forall_congr' fun got => imp_congr_right fun _ => ?_)
    rw [fits_recvMessage (g := fun buf' => do
      checkSize (fileDatalen (overlay req got) ≤ buf'.length)
      sys (.fwrite fp (buf'.take (fileDatalen (overlay req got))))
      E (if fileDatalen (overlay req got) = N then .inl (overlay req got, buf') else .inr ()))
      (fun _ _ => rfl) ?_, hbuf]
    · refine and_congr_right fun hfit => forall_congr' fun payload => imp_congr_right fun hr => ?_
      have hpaylen := received_length hr
      exact hwrite _ _ _ _ (by rw [overlay_length (by omega), hbuf]) hfit
    · intro hlen m hm
      rw [checkSize_pos (by omega)]
      rintro ⟨⟩
  · intro _ req' _
    rcases Nat.eq_zero_or_pos (fileDatalen req') with hzero | hpos
    · refine recvMessage_ne_halt ?_
      dsimp only
      rw [checkSize_pos (by omega)]
      rintro ⟨⟩
    · rw [recvMessage, if_neg hpos.ne']
      rintro ⟨⟩

omit [Posix F] in
theorem nextChunk_eq_some {req' : Bytes} {l' : Link UInt8} :
    nextChunk (req, l) = some (req', l') ↔
      ∃ got payload, received l sizeofFile = some got ∧ fileDatalen (overlay req got) = N ∧
        received (Link.skip l sizeofFile) N = some payload ∧ overlay req got = req' ∧
        Link.skip (Link.skip l sizeofFile) N = l' := by
  simp [nextChunk, Option.bind_eq_some_iff, Option.guard_eq_some']

theorem fits_receiveChunks (hreq : req.length = sizeofFile) (hbuf : buf.length = N) :
    FitsHost (receiveChunks N fp req buf) h l ↔ ChunksFit req l := by
  constructor
  · intro hfits
    -- the loop stands in front of every chunk it asks for
    have hloop : ∀ c, Relation.ReflTransGen (fun c c' => nextChunk c = some c') (req, l) c →
        ∃ (h' : Host F) (buf' : Bytes), c.1.length = sizeofFile ∧ buf'.length = N ∧
          FitsHost (receiveChunks N fp c.1 buf') h' c.2 := by
      intro c hreach
      induction hreach with
      | refl => exact ⟨h, buf, hreq, hbuf, hfits⟩
      | @tail b c _ hnext ih =>
          obtain ⟨req₁, l₁⟩ := b
          obtain ⟨req₂, l₂⟩ := c
          obtain ⟨h₁, buf₁, hreq₁, hbuf₁, hrest⟩ := ih
          obtain ⟨got, payload, hgot, hfull, hpayload, rfl, rfl⟩ := nextChunk_eq_some.mp hnext
          have hround := ((fits_receiveChunk hreq₁ hbuf₁).mp (fits_iter_unfold.mp hrest) got hgot).2
          rw [hfull] at hround
          have hafter := hround payload hpayload
          rw [if_pos rfl] at hafter
          have hgotlen := received_length hgot
          have hpaylen := received_length hpayload
          dsimp only at hreq₁
          exact ⟨_, overlay buf₁ payload, by rw [overlay_length (by omega), hreq₁],
            by rw [overlay_length (by omega), hbuf₁], hafter⟩
    intro req' l' hreach got hgot
    obtain ⟨h', buf', hreq', hbuf', hrest⟩ := hloop _ hreach
    exact ((fits_receiveChunk hreq' hbuf').mp (fits_iter_unfold.mp hrest) got hgot).1
  · intro hchunks
    refine fits_iter (fun c _ l => c.1.length = sizeofFile ∧ c.2.length = N ∧ ChunksFit c.1 l)
      ⟨hreq, hbuf, hchunks⟩ ?_
    rintro ⟨req₁, buf₁⟩ h₁ l₁ ⟨hreq₁, hbuf₁, hchunks₁⟩
    dsimp only at hreq₁ hbuf₁ hchunks₁
    constructor
    · have hround : FitsHost (receiveChunk N fp (req₁, buf₁) >>= pure) h₁ l₁ :=
        (fits_receiveChunk hreq₁ hbuf₁).mpr fun got hgot =>
          ⟨hchunks₁ _ _ .refl got hgot, fun _ _ => fits_ret⟩
      rwa [bind_pure] at hround
    · refine (ends_receiveChunk hreq₁ hbuf₁).mono fun r h₂ l₂ hr c hc => ?_
      obtain ⟨hnext, hreq₂, hbuf₂⟩ := hr c hc
      exact ⟨hreq₂, hbuf₂, fun req' l' hreach => hchunks₁ req' l' (.head hnext hreach)⟩

end Chunks

section Transfer

variable {F : Type} [Posix F] {md5 : Bytes → Mem 16} {h : Host F} {l : Link UInt8}
  {filepath st hash header : Bytes}

-- The lock is polled before anything is received.
theorem fits_pollLock {α : Type} {fp : Nat} {f : Flock → Code α} {P : Prop}
    (hne : ∀ fl, f fl ≠ halt .overrun) (hf : ∀ fl, FitsHost (f fl) h l ↔ P) :
    FitsHost (pollLock fp header >>= f) h l ↔ (Unlocked h.fs fp → P) := by
  constructor
  · rintro hfits ⟨n, hn⟩
    obtain ⟨out, fl, hpoll⟩ := exec_pollLock header l hn
    exact (hf fl).mp (hfits.along (hpoll.bind f))
  · intro hP
    have hpoll : FitsHost (pollLock fp header) h l := by
      refine fits_iter (fun _ _ _ => True) trivial fun fl h' l' _ => ⟨?_, ?_⟩
      · refine fits_sys.mpr fun _ _ _ => fits_sendMessage.mpr fits_ret
      · exact ends_any.mono fun _ _ _ _ _ _ => trivial
    refine throughout_bind (lifts_tight hne) ((hpoll.ends (ends_pollLock fp)).mono ?_)
    rintro fl _ _ ⟨rfl, rfl, hfree⟩
    exact (hf fl).mpr (hP hfree)

theorem fits_openedFile (buf : Mem N) : FitsHost (do
    match ← sys (.fopenWrite filepath) with
    | none => halt .nullDeref
    | some fp =>
        let fl ← pollLock fp header
        let fl := { fl with type := .wrlck, start := 0, len := 0 }
        let _ ← sys (.setlk fp fl)
        receiveChunks N fp (zeros sizeofFile) buf.val
        let _ ← sys (.setlk fp { fl with type := .unlck })
        sys (.fclose fp)) h l ↔
    ∀ fp f', Posix.fopenWrite h.fs filepath = some (fp, f') → Unlocked f' fp →
      ChunksFit (zeros sizeofFile) l := by
  have hrest : ∀ (fp : Nat) (h : Host F) (fl : Flock), FitsHost (do
      let _ ← sys (.setlk fp { fl with type := .wrlck, start := 0, len := 0 })
      receiveChunks N fp (zeros sizeofFile) buf.val
      let _ ← sys (.setlk fp { fl with type := .unlck, start := 0, len := 0 })
      sys (.fclose fp)) h l ↔ ChunksFit (zeros sizeofFile) l := by
    intro fp h fl
    have hchunks : ∀ h : Host F, FitsHost (do
        receiveChunks N fp (zeros sizeofFile) buf.val
        let _ ← sys (.setlk fp { fl with type := .unlck, start := 0, len := 0 })
        sys (.fclose fp)) h l ↔ ChunksFit (zeros sizeofFile) l := by
      intro h
      rw [FitsHost, fits_bind_iff (fun _ => by rintro ⟨⟩)
        (fun _ _ _ => fits_sys.mpr fun _ _ _ => fits_end_sys)]
      exact fits_receiveChunks (zeros_length _) buf.property
    rw [FitsHost, fits_sys]
    exact ⟨fun hall => (hchunks _).mp (hall _ _ rfl), fun hfit _ _ _ => (hchunks _).mpr hfit⟩
  rw [FitsHost, fits_sys]
  constructor
  · intro hall fp f' hopen
    have hpoll := hall (some fp) { h with fs := f' } (by simp [host, Host.exec, hopen])
    exact (fits_pollLock (fun _ => by rintro ⟨⟩) fun fl => hrest fp _ fl).mp hpoll
  · intro hfit r h' hexec
    cases hopen : Posix.fopenWrite h.fs filepath with
    | none =>
        simp only [host, Host.exec, hopen, Option.some.injEq, Prod.mk.injEq] at hexec
        obtain ⟨rfl, rfl⟩ := hexec
        exact fits_halt
    | some opened =>
        obtain ⟨fp, f'⟩ := opened
        simp only [host, Host.exec, hopen, Option.some.injEq, Prod.mk.injEq] at hexec
        obtain ⟨rfl, rfl⟩ := hexec
        exact (fits_pollLock (fun _ => by rintro ⟨⟩) fun fl => hrest fp _ fl).mpr (hfit fp f' hopen)

theorem fits_receiveFile : FitsHost (receiveFile filepath header) h l ↔
    ∀ fp f', Posix.fopenWrite h.fs filepath = some (fp, f') → Unlocked f' fp →
      ChunksFit (zeros sizeofFile) l := by
  unfold receiveFile
  rw [fits_uninit]
  constructor
  · intro hall
    obtain ⟨buf, hbuf⟩ := exists_fresh (h := h) N
    exact (fits_openedFile (h := h.tick) buf).mp (hall buf hbuf)
  · exact fun hfit buf _ => (fits_openedFile (h := h.tick) buf).mpr hfit

-- No receive is made for the status of the reply.
theorem fits_metaStatus {α : Type} {f : UInt8 → Code α} (hne : ∀ status, f status ≠ halt .overrun) :
    FitsHost (metaStatus md5 filepath st hash >>= f) h l ↔
      ∀ status, statusOf md5 h.fs filepath st hash = some status →
        FitsHost (f status) { h with fs := afterStatus h.fs filepath st } l := by
  constructor
  · intro hfits status hs
    exact hfits.along ((exec_metaStatus hs).bind f)
  · intro hall
    have hquiet : FitsHost (metaStatus md5 filepath st hash) h l := by
      unfold metaStatus
      split_ifs
      · exact fits_sys.mpr fun _ _ _ => fits_ret
      · exact fits_sys.mpr fun _ _ _ => fits_ret
      · rw [md5File, bind_assoc]
        refine fits_sys.mpr fun rs h₁ _ => ?_
        cases rs with
        | none => exact fits_ret
        | some rs =>
            dsimp only
            split
            · exact fits_halt
            · exact fits_ret
      · exact fits_ret
    refine throughout_bind (lifts_tight hne) (hquiet.ends ?_)
    cases hs : statusOf md5 h.fs filepath st hash with
    | none => exact (ends_of_halt (exec_metaStatus_crash hs)).mono fun _ _ _ hfalse => hfalse.elim
    | some status =>
        refine (ends_of_exec (exec_metaStatus hs)).mono ?_
        rintro _ _ _ ⟨rfl, rfl, rfl⟩
        exact hall _ hs

theorem fits_answerMeta : FitsHost (answerMeta md5 filepath st hash) h l ↔
    TransferFits md5 h.fs filepath st hash l := by
  unfold answerMeta
  rw [fits_metaStatus]
  · constructor
    · intro hall hs
      have hfits := hall statusMore hs
      rw [if_pos rfl] at hfits
      by_cases hlnk : sIsLnk (stMode st) = true
      · rw [if_pos hlnk] at hfits ⊢
        exact fits_receiveLink.mp hfits
      · have hreg := (kind_of_more hs).resolve_left hlnk
        rw [if_neg hlnk, if_pos hreg] at hfits
        rw [if_neg hlnk]
        have hfile := fits_receiveFile.mp hfits
        rwa [afterStatus, not_dir_of_reg hreg] at hfile
    · intro htransfer status hs
      split_ifs with hmore hlnk hreg
      · subst hmore
        have hfit := htransfer hs
        rw [if_pos hlnk] at hfit
        exact fits_receiveLink.mpr hfit
      · subst hmore
        have hfit := htransfer hs
        rw [if_neg hlnk] at hfit
        refine fits_receiveFile.mpr ?_
        rwa [afterStatus, not_dir_of_reg hreg]
      · exact fits_ret
      · exact fits_sendMessage.mpr fits_ret
  · intro status
    dsimp only
    split_ifs
    · rintro ⟨⟩
    · rintro ⟨⟩
    · rintro ⟨⟩
    · rintro ⟨⟩

end Transfer

section Handlers

variable {F : Type} [Posix F] {md5 : Bytes → Mem 16} {server : Server} {connFd : Nat} {info : ClientInfo}
  {h : Host F} {l : Link UInt8}

theorem fits_base {α : Type} {g : Bytes → Code α} (hentry : server.client connFd = some info) :
    FitsHost (getUserHomedir server (server.client connFd) >>= fun filepath =>
        strcat filepath [slash] >>= g) h l ↔
      ((baseOf server info).length < pathMax → FitsHost (g (baseOf server info)) h l) := by
  have hslash : Appendable (homeOf server.path (clientUser info)) [slash] ↔
      (baseOf server info).length < pathMax := by
    have hstring : cString [slash] = [slash] := by decide
    rw [Appendable, hstring, baseOf, ← List.length_append]
  simp only [hentry, getUserHomedir, userString, bind_assoc, ret_bind]
  rw [fits_checkSize, strcat_eq]
  by_cases happ : Appendable (homeOf server.path (clientUser info)) [slash]
  · have hshort : (homeOf server.path (clientUser info)).length < pathMax :=
      (Nat.le_add_right _ _).trans_lt happ
    rw [if_pos happ]
    exact ⟨fun hfits _ => hfits hshort, fun hfits _ => hfits (hslash.mp happ)⟩
  · rw [if_neg happ]
    exact ⟨fun _ hbase => absurd (hslash.mpr hbase) happ, fun _ _ => fits_halt⟩

omit [Posix F] in
theorem pathlenFits_iff :
    PathlenFits h l ↔
      (∃ body : Bytes, body.length = headerDatalen (requestHead l) ∧
        metaPathlen (overlay (h.fresh sizeofMeta) (requestHead l ++ body)) < 2 ^ 31 - 1) ∧
      ∀ m, messageOf sizeofMeta h l = some m → metaPathlen m < 2 ^ 31 - 1 := by
  unfold PathlenFits
  cases hm : messageOf sizeofMeta h l with
  | none => simp
  | some m =>
      dsimp only [messageOf] at hm
      split_ifs at hm with hbody
      cases hm
      simp only [Option.some.injEq, forall_eq']
      exact ⟨fun hlen => ⟨⟨_, List.length_take_of_le hbody, hlen⟩, hlen⟩, fun hboth => hboth.2⟩

-- A structure, the body of the request, and what follows when it is complete.
theorem fits_body {size : Nat} (rest : Bytes → Code Unit) :
    FitsHost (do
      let m ← sys (.uninit size)
      let (ok, m) ← completeMessageWithHeader (requestHead l) m.val
      if ok then rest m else ret ()) h (Link.skip l sizeofHeader) ↔
      BodyFits size l ∧
        (∃ body : Bytes, body.length = headerDatalen (requestHead l) ∧
          rest (overlay (h.fresh size) (requestHead l ++ body)) ≠ halt .overrun) ∧
        ∀ m, messageOf size h l = some m →
          rest m ≠ halt .overrun ∧ FitsHost (rest m) h.tick (behindBody l) := by
  let after : Bool × Bytes → Code Unit := fun r => if r.1 then rest r.2 else ret ()
  have hfalse : ∀ m, after (false, m) ≠ halt .overrun := fun _ => by rintro ⟨⟩
  have hquiet : ∀ m (h : Host F) l, FitsHost (after (false, m)) h l := fun _ _ _ => fits_ret
  rw [fits_uninit]
  constructor
  · intro hall
    obtain ⟨m, hm⟩ := exists_fresh (h := h) size
    exact (fits_complete (f := after) hm hfalse hquiet).mp (hall m hm)
  · exact fun hfit m hm => (fits_complete (f := after) hm hfalse hquiet).mpr hfit

-- What the three requests do behind their body.

def metaRest (md5 : Bytes → Mem 16) (base m : Bytes) : Code Unit := do
  checkSize (metaPathlen m < 2 ^ 31 - 1)
  let (_, recPath) ← recvMessage (zeros (metaPathlen m + 1)) (metaPathlen m)
  let filepath ← strcat base recPath
  answerMeta md5 filepath (metaStat m) (metaHash m)
  let _ ← sys (.utime filepath (stAtime (metaStat m)) (stMtime (metaStat m)))
  ret ()

def hardlinkRest (base m : Bytes) : Code Unit := do
  let srclen := hardlinkSrclen m
  let targetlen := hardlinkTargetlen m
  let (_, srcPath) ← recvMessage (zeros ((srclen + 1) % 2 ^ 32)) srclen
  let (_, targetPath) ← recvMessage (zeros ((targetlen + 1) % 2 ^ 32)) targetlen
  let (_, st) ← recvMessage (zeros sizeofStat) sizeofStat
  let source ← strcat base srcPath
  let target ← strcat base targetPath
  let _ ← sys (.link source target)
  let _ ← sys (.utime target (stAtime st) (stMtime st))
  ret ()

def rmRest (base m : Bytes) : Code Unit := do
  let (_, buf) ← recvMessage (zeros ((rmPathlen m + 1) % 2 ^ 32)) (rmPathlen m)
  let filepath ← strcat base buf
  let _ ← sys (.remove filepath)
  ret ()

theorem strcat_zeros_ne_halt {α : Type} {base : Bytes} {g : Bytes → Code α} (hbase : base.length < pathMax)
    (hg : ∀ m, g m ≠ halt .overrun) (n : Nat) : strcat base (zeros n) >>= g ≠ halt .overrun := by
  rw [strcat_eq, if_pos (appendable_zeros hbase n)]
  exact hg _

theorem answerMeta_ne_halt {filepath st hash : Bytes} :
    answerMeta md5 filepath st hash ≠ halt .overrun := by
  unfold answerMeta
  refine bind_ne_halt ?_ fun status => ?_
  · unfold metaStatus
    split_ifs <;> rintro ⟨⟩
  · dsimp only
    split_ifs <;> rintro ⟨⟩

theorem metaRest_ne_halt {base m : Bytes} (hbase : base.length < pathMax) :
    metaRest md5 base m ≠ halt .overrun ↔ metaPathlen m < 2 ^ 31 - 1 := by
  constructor
  · intro hne
    by_contra hlen
    rw [metaRest, checkSize_neg hlen] at hne
    exact hne rfl
  · intro hlen
    rw [metaRest, checkSize_pos hlen]
    exact recvMessage_ne_halt (strcat_zeros_ne_halt hbase
      (fun _ => bind_ne_halt answerMeta_ne_halt fun _ => by rintro ⟨⟩) _)

theorem fits_metaRest {base m : Bytes} (hbase : base.length < pathMax) :
    FitsHost (metaRest md5 base m) h l ↔ (metaPathlen m < 2 ^ 31 - 1 →
      ∀ path, received l (metaPathlen m) = some path → Appendable base path ∧
        TransferFits md5 h.fs (base ++ cString path) (metaStat m) (metaHash m)
          (Link.skip l (metaPathlen m))) := by
  unfold metaRest
  rw [fits_checkSize]
  refine forall_congr' fun _ => ?_
  rw [fits_recvPath hbase (fun _ _ => rfl)
    fun _ => bind_ne_halt answerMeta_ne_halt fun _ => by rintro ⟨⟩]
  refine (and_iff_right (Nat.le_succ _)).trans ?_
  refine forall_congr' fun path => imp_congr_right fun _ => and_congr_right fun _ => ?_
  rw [FitsHost, fits_bind_iff (fun _ => by rintro ⟨⟩)
    (fun _ _ _ => fits_sys.mpr fun _ _ _ => fits_ret)]
  exact fits_answerMeta

theorem fits_syncMeta (hentry : server.client connFd = some info) :
    FitsHost (syncMeta md5 server connFd (requestHead l)) h (Link.skip l sizeofHeader) ↔
      ((baseOf server info).length < pathMax → MetaFits md5 (baseOf server info) h l) := by
  unfold syncMeta
  rw [fits_sendMessage]
  refine (fits_base hentry).trans (forall_congr' fun hbase => ?_)
  refine (fits_body (metaRest md5 (baseOf server info))).trans (and_congr_right fun _ => ?_)
  simp only [metaRest_ne_halt hbase, fits_metaRest hbase, pathlenFits_iff, Host.tick_fs]
  constructor
  · rintro ⟨hsome, hall⟩
    exact ⟨⟨hsome, fun m hm => (hall m hm).1⟩, fun m hm => (hall m hm).2 (hall m hm).1⟩
  · rintro ⟨⟨hsome, hlen⟩, hpath⟩
    exact ⟨hsome, fun m hm => ⟨hlen m hm, fun _ => hpath m hm⟩⟩

theorem length_le_size_iff {n : Nat} (hn : n < 2 ^ 32) : n ≤ (n + 1) % 2 ^ 32 ↔ LengthFits n := by
  rw [LengthFits]
  omega

theorem field_lt (off : Nat) (m : Bytes) : leNat (slice off 4 m) < 2 ^ 32 := by
  have hlen : (slice off 4 m).length ≤ 4 := List.length_take_le _ _
  calc leNat (slice off 4 m) < 256 ^ (slice off 4 m).length := leNat_lt _
    _ ≤ 256 ^ 4 := Nat.pow_le_pow_right (by decide) hlen
    _ = 2 ^ 32 := by norm_num

theorem srclen_fits (m : Bytes) :
    hardlinkSrclen m ≤ (hardlinkSrclen m + 1) % 2 ^ 32 ↔ LengthFits (hardlinkSrclen m) :=
  length_le_size_iff (field_lt 12 m)

theorem targetlen_fits (m : Bytes) :
    hardlinkTargetlen m ≤ (hardlinkTargetlen m + 1) % 2 ^ 32 ↔ LengthFits (hardlinkTargetlen m) :=
  length_le_size_iff (field_lt 16 m)

theorem rmPathlen_fits (m : Bytes) :
    rmPathlen m ≤ (rmPathlen m + 1) % 2 ^ 32 ↔ LengthFits (rmPathlen m) :=
  length_le_size_iff (field_lt 12 m)

-- The paths are appended when the meta data has come.
theorem fits_appendLink {base src target : Bytes} {size size' : Nat} :
    FitsHost (do
      let (_, st) ← recvMessage (zeros sizeofStat) sizeofStat
      let source ← strcat base (overlay (zeros size) src)
      let target ← strcat base (overlay (zeros size') target)
      let _ ← sys (.link source target)
      let _ ← sys (.utime target (stAtime st) (stMtime st))
      ret ()) h l ↔ Appendable base src ∧ Appendable base target := by
  rw [fits_recv (g := fun st => do
    let source ← strcat base (overlay (zeros size) src)
    let target ← strcat base (overlay (zeros size') target)
    let _ ← sys (.link source target)
    let _ ← sys (.utime target (stAtime st) (stMtime st))
    ret ()) (fun _ _ => rfl) (by decide)]
  simp only [strcat_eq, appendable_overlay]
  constructor
  · rintro ⟨-, ⟨bs, -, hne⟩, -⟩
    split_ifs at hne with hsrc htarget
    · exact ⟨hsrc, htarget⟩
    · exact absurd rfl hne
    · exact absurd rfl hne
  · rintro ⟨hsrc, htarget⟩
    simp only [if_pos hsrc, if_pos htarget]
    refine ⟨(zeros_length _).ge, ⟨zeros sizeofStat, zeros_length _, by rintro ⟨⟩⟩, fun _ _ => ?_⟩
    exact ⟨by rintro ⟨⟩, fits_sys.mpr fun _ _ _ => fits_sys.mpr fun _ _ _ => fits_ret⟩

theorem hardlinkRest_ne_halt {base m : Bytes} : hardlinkRest base m ≠ halt .overrun := by
  unfold hardlinkRest
  refine recvMessage_ne_halt (recvMessage_ne_halt ?_)
  dsimp only
  rw [recvMessage, if_neg (by decide)]
  rintro ⟨⟩

theorem fits_hardlinkRest {base m : Bytes} :
    FitsHost (hardlinkRest base m) h l ↔ LengthFits (hardlinkSrclen m) ∧
      ∀ src, received l (hardlinkSrclen m) = some src → LengthFits (hardlinkTargetlen m) ∧
        ∀ target, received (Link.skip l (hardlinkSrclen m)) (hardlinkTargetlen m) = some target →
          Appendable base src ∧ Appendable base target := by
  have hstat : ∀ src target : Bytes, (do
      let (_, st) ← recvMessage (zeros sizeofStat) sizeofStat
      let source ← strcat base src
      let target ← strcat base target
      let _ ← sys (.link source target)
      let _ ← sys (.utime target (stAtime st) (stMtime st))
      ret () : Code Unit) ≠ halt .overrun := by
    intro src target
    rw [recvMessage, if_neg (by decide)]
    rintro ⟨⟩
  unfold hardlinkRest
  rw [fits_recvMessage (fun _ _ => rfl) fun _ _ _ => recvMessage_ne_halt (hstat _ _), zeros_length,
    srclen_fits]
  refine and_congr_right fun _ => forall_congr' fun src => imp_congr_right fun _ => ?_
  rw [fits_recvMessage (fun _ _ => rfl) fun _ _ _ => hstat _ _, zeros_length, targetlen_fits]
  refine and_congr_right fun _ => forall_congr' fun target => imp_congr_right fun _ => ?_
  exact fits_appendLink

theorem fits_syncHardlink (hentry : server.client connFd = some info) :
    FitsHost (syncHardlink server connFd (requestHead l)) h (Link.skip l sizeofHeader) ↔
      ((baseOf server info).length < pathMax → HardlinkFits (baseOf server info) h l) := by
  unfold syncHardlink
  rw [fits_sendMessage]
  refine (fits_base hentry).trans (forall_congr' fun hbase => ?_)
  refine (fits_body (hardlinkRest (baseOf server info))).trans (and_congr_right fun _ => ?_)
  simp only [fits_hardlinkRest]
  constructor
  · exact fun hboth m hm => (hboth.2 m hm).2
  · exact fun hall => ⟨⟨zeros _, zeros_length _, hardlinkRest_ne_halt⟩,
      fun m hm => ⟨hardlinkRest_ne_halt, hall m hm⟩⟩

theorem fits_rmRest {base m : Bytes} (hbase : base.length < pathMax) :
    FitsHost (rmRest base m) h l ↔ LengthFits (rmPathlen m) ∧
      ∀ path, received l (rmPathlen m) = some path → Appendable base path := by
  unfold rmRest
  rw [fits_recvPath hbase (fun _ _ => rfl) (fun _ => by rintro ⟨⟩), rmPathlen_fits]
  refine and_congr_right fun _ => forall_congr' fun path => imp_congr_right fun _ => ?_
  exact and_iff_left (fits_sys.mpr fun _ _ _ => fits_ret)

theorem fits_rm (hentry : server.client connFd = some info) :
    FitsHost (rm server connFd (requestHead l)) h (Link.skip l sizeofHeader) ↔
      ((baseOf server info).length < pathMax → RmFits (baseOf server info) h l) := by
  unfold rm
  rw [fits_sendMessage]
  refine (fits_base hentry).trans (forall_congr' fun hbase => ?_)
  have hne : ∀ m, rmRest (baseOf server info) m ≠ halt .overrun := fun m =>
    recvMessage_ne_halt (strcat_zeros_ne_halt hbase (fun _ => by rintro ⟨⟩) _)
  refine (fits_body (rmRest (baseOf server info))).trans (and_congr_right fun _ => ?_)
  simp only [fits_rmRest hbase]
  constructor
  · exact fun hboth m hm => (hboth.2 m hm).2
  · exact fun hall => ⟨⟨zeros _, zeros_length _, hne _⟩, fun m hm => ⟨hne m, hall m hm⟩⟩

end Handlers

end Csiebox
