import Csiebox.Locks
import Csiebox.Server.Lemmas

namespace Csiebox.Locks

open CBytes Program Prog Session

section Locking

variable {G : Type} {s : SharedFs G} {fl : Flock}

-- A query finds no lock exactly if none is in the way of what it asks for.
theorem getlk_unlck_iff :
    (s.getlk fl).type = .unlck ↔ ∀ other ∈ s.held, ¬Conflict fl other := by
  unfold SharedFs.getlk
  cases hfind : s.held.find? fun other => Conflict fl other with
  | none =>
      rw [List.find?_eq_none] at hfind
      simpa using hfind
  | some other =>
      have hconflict : Conflict fl other := by simpa using List.find?_some hfind
      refine iff_of_false hconflict.2.2.1 fun hall => ?_
      exact hall other (List.mem_of_find?_eq_some hfind) hconflict

theorem setlk_base (s : SharedFs G) (fl : Flock) : (s.setlk fl).2.base = s.base := by
  unfold SharedFs.setlk
  split_ifs <;> rfl

end Locking

section Schedules

variable {G : Type} {s s' : Polling G}

-- The others touch neither the files nor the history.
theorem others_base (hsteps : Relation.ReflTransGen Others s s') :
    s'.1.fs.base = s.1.fs.base ∧ s'.2 = s.2 := by
  induction hsteps with
  | refl => exact ⟨rfl, rfl⟩
  | tail _ last ih =>
      obtain ⟨held, rfl, -⟩ := last
      exact ih

end Schedules

section Replies

variable {reply : Bytes} {asked : List LockType} {ws : List (Word UInt8)}

-- One reply has gone out for each query, and each was told of a lock.
structure Refused (reply : Bytes) (asked : List LockType) (ws : List (Word UInt8)) : Prop where
  locked : ∀ a ∈ asked, a ≠ .unlck
  sent : sentBytes ws = (List.replicate asked.length reply).flatten

-- The last query still waits for its reply.
def Due (reply : Bytes) (asked : List LockType) (ws : List (Word UInt8)) : Prop :=
  ∃ before a, asked = before ++ [a] ∧ Refused reply before ws

-- One reply has gone out for each query, and the last query only found no lock.
structure Granted (reply : Bytes) (asked : List LockType) (ws : List (Word UInt8)) : Prop where
  last : ∃ before, asked = before ++ [.unlck] ∧ ∀ a ∈ before, a ≠ .unlck
  sent : sentBytes ws = (List.replicate asked.length reply).flatten

theorem refused_start : Refused reply [] [] :=
  ⟨by simp, rfl⟩

theorem Due.replied {before : List LockType} {a : LockType} (h : Refused reply before ws) :
    sentBytes (ws ++ [.said reply]) = (List.replicate (before ++ [a]).length reply).flatten := by
  rw [sentBytes_append, h.sent, List.length_append, List.length_singleton, List.replicate_succ',
    List.flatten_append]
  simp [sentBytes]

theorem sentBytes_heard (bs : Bytes) : sentBytes (ws ++ [.heard bs]) = sentBytes ws := by
  rw [sentBytes_append]
  exact List.append_nil _

theorem Granted.heard (h : Granted reply asked ws) (bs : Bytes) : Granted reply asked (ws ++ [.heard bs]) :=
  ⟨h.last, by rw [sentBytes_heard, h.sent]⟩

end Replies

section Assurance

variable {G : Type} [Posix G] {files : Files G} {filepath reply : Bytes} {base : G}
  {s : Polling G} {ws : List (Word UInt8)}

-- Where the server stands between queries and replies.
def Stands (reply : Bytes) : Head Sys UInt8 Fault → List LockType → List (Word UInt8) → Prop
  | .call (.getlk _ _), asked, ws => Refused reply asked ws
  | .send bs, asked, ws => bs = reply ∧ Due reply asked ws
  | .recv _, asked, ws => Granted reply asked ws
  | .halt _, asked, ws => Granted reply asked ws
  | _, asked, ws => Refused reply asked ws ∨ Granted reply asked ws

-- What the server does to the file: it is opened as it was found, and written and closed
-- through the handle that is open; no other call touches it.
def Touches (files : Files G) (filepath : Bytes) (base : G) : Head Sys UInt8 Fault → Polling G → Prop
  | .call (.fopenWrite path), s => path = filepath ∧ s.1.fs.base = base
  | .call (.fwrite fp _), s => ∃ file, files.writing s.1.fs.base fp filepath file
  | .call (.fclose fp), s => ∃ file, files.writing s.1.fs.base fp filepath file
  | .call op, s => (Host.exec op s.1).isSome ∧ ∀ r h, Host.exec op s.1 = some (r, h) →
    h.fs.base = s.1.fs.base
  | _, _ => True

-- What holds of the server in every schedule on its way through a transfer.
def Careful (files : Files G) (filepath reply : Bytes) (base : G) (head : Head Sys UInt8 Fault)
    (s : Polling G)
    (ws : List (Word UInt8)) : Prop :=
  Stands reply head s.2 ws ∧ Touches files filepath base head s

abbrev Serves (files : Files G) (filepath reply : Bytes) (base : G) (p : Code α) (s : Polling G)
    (ws : List (Word UInt8)) (Q : α → Polling G → List (Word UInt8) → Prop) : Prop :=
  Assures polling Others (fun _ _ => True) (Careful files filepath reply base) p s ws Q

variable {α γ : Type} {Q : α → Polling G → List (Word UInt8) → Prop}

-- A call that is neither of the file nor a query.
def plain : {γ : Type} → Sys γ → Bool
  | _, .fopenWrite _ => false
  | _, .fwrite _ _ => false
  | _, .fclose _ => false
  | _, .getlk _ _ => false
  | _, _ => true

theorem plain_told {op : Sys γ} (hop : plain op = true) (r : γ) : told γ op r = [] := by
  cases op <;> first | rfl | simp [plain] at hop

theorem careful_plain {op : Sys γ} (hop : plain op = true)
    (hstands : Refused reply s.2 ws ∨ Granted reply s.2 ws)
    (hgoes : (Host.exec op s.1).isSome)
    (hbase : ∀ r h, Host.exec op s.1 = some (r, h) → h.fs.base = s.1.fs.base) :
    Careful files filepath reply base (.call op) s ws := by
  cases op <;> first | exact ⟨hstands, hgoes, hbase⟩ | simp [plain] at hop

-- A call that leaves the files as they are.
theorem serves_plain {op : Sys γ} {f : γ → Code α} (hop : plain op = true)
    (hstands : Refused reply s.2 ws ∨ Granted reply s.2 ws)
    (hgoes : ∀ h : Host (SharedFs G), (Host.exec op h).isSome)
    (hbase : ∀ (h : Host (SharedFs G)) r h', Host.exec op h = some (r, h') → h'.fs.base = h.fs.base)
    (hnext : ∀ t t' : Polling G, ∀ r, t.1.fs.base = s.1.fs.base → Host.exec op t.1 = some (r, t'.1) →
      t'.1.fs.base = s.1.fs.base → t'.2 = s.2 → Serves files filepath reply base (f r) t' ws Q) :
    Serves files filepath reply base (sys op >>= f) s ws Q := by
  refine assures_call fun t ht => ?_
  obtain ⟨hsame, hasked⟩ := others_base ht
  rw [← hasked] at hstands
  refine ⟨careful_plain hop hstands (hgoes t.1) (hbase t.1), fun _ r t' hexec => ?_⟩
  obtain ⟨hexec, hnotes⟩ := noting_exec.mp hexec
  rw [plain_told hop, List.append_nil] at hnotes
  exact hnext t t' r hsame hexec ((hbase t.1 r t'.1 hexec).trans hsame) (hnotes.trans hasked)

theorem serves_hear {n : Nat} {f : Bytes → Code α} (hgranted : Granted reply s.2 ws)
    (hnext : ∀ t, t.1.fs.base = s.1.fs.base → t.2 = s.2 → ∀ bs,
      Serves files filepath reply base (f bs) t (ws ++ [.heard bs]) Q) :
    Serves files filepath reply base (hear n >>= f) s ws Q := by
  refine assures_hear fun t ht => ?_
  obtain ⟨hsame, hasked⟩ := others_base ht
  rw [← hasked] at hgranted
  exact ⟨⟨hgranted, trivial⟩, fun _ bs _ => hnext t hsame hasked bs⟩

theorem serves_halt {e : Fault} (hgranted : Granted reply s.2 ws) :
    Serves files filepath reply base (halt e : Code α) s ws Q := by
  refine assures_halt fun t ht => ?_
  rw [← (others_base ht).2] at hgranted
  exact ⟨hgranted, trivial⟩

theorem serves_checkSize {fits : Prop} [Decidable fits] {f : Unit → Code α}
    (hgranted : Granted reply s.2 ws)
    (hnext : fits → Serves files filepath reply base (f ()) s ws Q) :
    Serves files filepath reply base (checkSize fits >>= f) s ws Q := by
  by_cases hfits : fits
  · rw [checkSize_pos hfits]
    exact hnext hfits
  · rw [checkSize_neg hfits]
    exact serves_halt hgranted

theorem serves_recvMessage {message : Bytes} {n : Nat} {f : Bool × Bytes → Code α}
    (hgranted : Granted reply s.2 ws)
    (hnext : ∀ t r ws', t.1.fs.base = s.1.fs.base → t.2 = s.2 → Granted reply t.2 ws' →
      Serves files filepath reply base (f r) t ws' Q) :
    Serves files filepath reply base (recvMessage message n >>= f) s ws Q := by
  unfold recvMessage
  split_ifs
  · exact hnext s _ ws rfl rfl hgranted
  · rw [bind_assoc]
    refine serves_hear hgranted fun t hsame hasked bs => ?_
    rw [bind_assoc]
    have hheard : Granted reply t.2 (ws ++ [.heard bs]) := by
      rw [hasked]
      exact hgranted.heard bs
    exact serves_checkSize hheard fun _ => hnext t _ _ hsame hasked hheard

end Assurance

section Transfer

variable {G : Type} [Posix G] {files : Files G} {filepath reply : Bytes} {base : G} {s : Polling G}
  {ws : List (Word UInt8)} {fp : Nat}

-- The handle is open on the file.
def Open (files : Files G) (filepath : Bytes) (fp : Nat) (g : G) : Prop :=
  ∃ file, files.writing g fp filepath file

theorem Open.passOn {g : G} (hopen : Open files filepath fp g) (bs : Bytes) :
    Open files filepath fp (passOn g fp bs) := by
  obtain ⟨file, hfile⟩ := hopen
  unfold Locks.passOn
  split_ifs
  · exact ⟨file, hfile⟩
  · exact ⟨_, files.writes hfile bs⟩

theorem serves_receiveChunk {req buf : Bytes} (hopen : Open files filepath fp s.1.fs.base)
    (hgranted : Granted reply s.2 ws) :
    Serves files filepath reply base (receiveChunk N fp (req, buf)) s ws fun _ t ws =>
      Granted reply t.2 ws ∧ Open files filepath fp t.1.fs.base := by
  unfold receiveChunk
  refine serves_recvMessage hgranted fun t _ ws' hsame hasked hgranted' => ?_
  refine serves_recvMessage hgranted' fun t' r' ws'' hsame' hasked' hgranted'' => ?_
  refine serves_checkSize hgranted'' fun _ => assures_call fun u hu => ?_
  obtain ⟨hlast, hnotes⟩ := others_base hu
  have hopen' : Open files filepath fp u.1.fs.base := by rwa [hlast, hsame', hsame]
  rw [← hnotes] at hgranted''
  refine ⟨⟨.inr hgranted'', hopen'⟩, fun _ x u' hexec => ?_⟩
  obtain ⟨hexec, hadded⟩ := noting_exec.mp hexec
  obtain ⟨-, hstate⟩ := Prod.mk.inj (Option.some.inj hexec)
  have hwritten : Open files filepath fp u'.1.fs.base := by
    rw [← hstate]
    exact hopen'.passOn _
  have hrest : Granted reply u'.2 ws'' := by
    rw [hadded]
    simpa [told] using hgranted''
  refine assures_ret fun v hv => ?_
  obtain ⟨hsame, hasked⟩ := others_base hv
  rw [hsame, hasked]
  exact ⟨hrest, hwritten⟩

theorem serves_receiveChunks {req buf : Bytes} (hopen : Open files filepath fp s.1.fs.base)
    (hgranted : Granted reply s.2 ws) :
    Serves files filepath reply base (receiveChunks N fp req buf) s ws fun _ t ws =>
      Granted reply t.2 ws ∧ Open files filepath fp t.1.fs.base := by
  refine assures_iter (fun _ t ws => Granted reply t.2 ws ∧ Open files filepath fp t.1.fs.base) ?_ ?_
    ⟨hgranted, hopen⟩ ?_
  · rintro c t ws ⟨hgranted, -⟩
    exact ⟨.inr hgranted, trivial⟩
  · rintro c t t' ws hJ hstep
    obtain ⟨hsame, hasked⟩ := others_base (.single hstep)
    rwa [hsame, hasked]
  · rintro ⟨req, buf⟩ t ws ⟨hgranted, hopen⟩
    refine (serves_receiveChunk hopen hgranted).mono fun r t ws hJ => ?_
    cases r <;> exact hJ

-- The loop queries and replies by turns, up to a query that finds no lock.
theorem serves_pollLock (hopen : Open files filepath fp s.1.fs.base) (hreply : reply ≠ [])
    (hstart : Refused reply s.2 ws) :
    Serves files filepath reply base (pollLock fp reply) s ws fun _ t ws =>
      Granted reply t.2 ws ∧ Open files filepath fp t.1.fs.base := by
  refine assures_iter (fun _ t ws => Refused reply t.2 ws ∧ Open files filepath fp t.1.fs.base) ?_ ?_
    ⟨hstart, hopen⟩ ?_
  · rintro fl t ws ⟨hrefused, -⟩
    exact ⟨.inl hrefused, trivial⟩
  · rintro fl t t' ws hJ hstep
    obtain ⟨hsame, hasked⟩ := others_base (.single hstep)
    rwa [hsame, hasked]
  · rintro fl t ws ⟨hrefused, hopen⟩
    refine assures_call fun u hu => ?_
    obtain ⟨hsame, hasked⟩ := others_base hu
    rw [← hasked] at hrefused
    rw [← hsame] at hopen
    refine ⟨⟨hrefused, rfl, fun r h hexec => ?_⟩, fun _ fl' u' hexec => ?_⟩
    · obtain ⟨-, rfl⟩ := Prod.mk.inj (Option.some.inj hexec)
      rfl
    obtain ⟨hexec, hadded⟩ := noting_exec.mp hexec
    obtain ⟨-, hstate⟩ := Prod.mk.inj (Option.some.inj hexec)
    have hnotes : u'.2 = u.2 ++ [fl'.type] := hadded
    rw [hstate] at hopen
    rw [sendMessage, if_neg (by simpa using hreply)]
    refine assures_say fun v hv => ?_
    obtain ⟨-, hkept⟩ := others_base hv
    refine ⟨⟨⟨rfl, u.2, fl'.type, hkept.trans hnotes, hrefused⟩, trivial⟩, fun _ =>
      assures_ret fun w hw => ?_⟩
    obtain ⟨hfiles, hhistory⟩ := others_base (hv.trans hw)
    rw [← hfiles] at hopen
    rw [hnotes] at hhistory
    have hsent := Due.replied (a := fl'.type) hrefused
    rw [← hhistory] at hsent
    split_ifs with hfree
    · exact ⟨⟨⟨u.2, by rw [hhistory, hfree], hrefused.locked⟩, hsent⟩, hopen⟩
    · refine ⟨⟨?_, hsent⟩, hopen⟩
      rw [hhistory]
      intro a ha
      rw [List.mem_append, List.mem_singleton] at ha
      obtain ha | rfl := ha
      · exact hrefused.locked a ha
      · exact hfree

theorem serves_close (hopen : Open files filepath fp s.1.fs.base) (hgranted : Granted reply s.2 ws) :
    Serves files filepath reply base (sys (.fclose fp)) s ws fun _ t ws => Granted reply t.2 ws := by
  rw [← bind_pure (sys (.fclose fp) : Code Unit)]
  refine assures_call fun t ht => ?_
  obtain ⟨hsame, hasked⟩ := others_base ht
  rw [← hasked] at hgranted
  rw [← hsame] at hopen
  refine ⟨⟨.inr hgranted, hopen⟩, fun _ r t' hexec => assures_ret fun u hu => ?_⟩
  have hadded : t'.2 = t.2 ++ [] := (noting_exec.mp hexec).2
  rw [(others_base hu).2, hadded, List.append_nil]
  exact hgranted

theorem serves_receiveFile (hreply : reply ≠ []) (hstart : Refused reply s.2 ws)
    (hbase : s.1.fs.base = base)
    {g : G} (hopens : Posix.fopenWrite base filepath = some (fp, g)) (hopen : Open files filepath fp g) :
    Serves files filepath reply base (receiveFile filepath reply) s ws fun _ t ws =>
      Granted reply t.2 ws := by
  unfold receiveFile
  refine serves_plain rfl (.inl hstart) (fun _ => rfl)
    (fun h r h' hexec => ?_) fun t t' buf _ _ hsame hasked => ?_
  · obtain ⟨-, rfl⟩ := Prod.mk.inj (Option.some.inj hexec)
    rfl
  rw [← hasked] at hstart
  refine assures_call fun u hu => ?_
  obtain ⟨hkept, hnotes⟩ := others_base hu
  rw [← hnotes] at hstart
  have hthere : u.1.fs.base = base := by rw [hkept, hsame, hbase]
  refine ⟨⟨.inl hstart, rfl, hthere⟩, fun _ opened u' hexec => ?_⟩
  obtain ⟨hexec, hadded⟩ := noting_exec.mp hexec
  have hfopen : Posix.fopenWrite u.1.fs filepath = some (fp, { u.1.fs with base := g, buffer := [] }) := by
    show (Posix.fopenWrite u.1.fs.base filepath).map _ = _
    rw [hthere, hopens]
    rfl
  simp only [host, Host.exec, hfopen, Option.some.injEq, Prod.mk.injEq] at hexec
  obtain ⟨rfl, hstate⟩ := hexec
  have hrefused : Refused reply u'.2 ws := by
    rw [hadded]
    simpa [told] using hstart
  have hnow : Open files filepath fp u'.1.fs.base := by
    rw [← hstate]
    exact hopen
  refine assures_bind ((serves_pollLock hnow hreply hrefused).mono ?_)
  rintro fl v ws' ⟨hgranted, hopen'⟩
  have hsetlk : ∀ fl (h : Host (SharedFs G)) r h', Host.exec (.setlk fp fl) h = some (r, h') →
      h'.fs.base = h.fs.base := by
    rintro fl h r h' hexec
    obtain ⟨-, rfl⟩ := Prod.mk.inj (Option.some.inj hexec)
    exact setlk_base _ _
  refine serves_plain rfl (.inr hgranted) (fun _ => rfl) (hsetlk _) fun w w' granted _ _ hsame hasked => ?_
  rw [← hsame] at hopen'
  rw [← hasked] at hgranted
  refine assures_bind ((serves_receiveChunks hopen' hgranted).mono ?_)
  rintro _ x ws'' ⟨hgranted, hopen'⟩
  refine serves_plain rfl (.inr hgranted) (fun _ => rfl) (hsetlk _) fun y y' r _ _ hsame hasked => ?_
  rw [← hsame] at hopen'
  rw [← hasked] at hgranted
  exact serves_close hopen' hgranted

theorem serves_metaStatus {md5 : Bytes → Mem 16} {st hash : Bytes} (hstart : Refused reply s.2 ws)
    (hs : statusOf md5 s.1.fs.base filepath st hash = some statusMore) (hreg : sIsReg (stMode st) = true) :
    Serves files filepath reply base (metaStatus md5 filepath st hash) s ws fun status t ws =>
      status = statusMore ∧ Refused reply t.2 ws ∧ t.1.fs.base = s.1.fs.base := by
  have hdir : ¬sIsDir (stMode st) = true := by simp [not_dir_of_reg hreg]
  have hlnk : ¬sIsLnk (stMode st) = true := by simp [not_lnk_of_reg hreg]
  rw [statusOf, if_neg hdir, if_neg hlnk, if_pos hreg] at hs
  rw [metaStatus, if_neg hdir, if_neg hlnk, if_pos hreg, md5File, bind_assoc]
  refine serves_plain rfl (.inl hstart) (fun _ => rfl)
    (fun h r h' hexec => ?_) fun t t' r hbefore hexec hsame hasked => ?_
  · obtain ⟨-, rfl⟩ := Prod.mk.inj (Option.some.inj hexec)
    rfl
  obtain ⟨hreads, -⟩ := Prod.mk.inj (Option.some.inj hexec)
  have hread : r = Posix.reads s.1.fs.base filepath := by
    rw [← hreads, ← hbefore]
    rfl
  rw [← hread] at hs
  have hkept : ∀ u, Relation.ReflTransGen Others t' u → Refused reply u.2 ws ∧
      u.1.fs.base = s.1.fs.base := by
    intro u hu
    obtain ⟨hbase, hnotes⟩ := others_base hu
    rw [hbase, hnotes, hasked]
    exact ⟨hstart, hsame⟩
  cases r with
  | none => exact assures_ret fun u hu => ⟨by simpa using hs, hkept u hu⟩
  | some rs =>
      obtain ⟨bs, hbytes, hstatus⟩ := Option.map_eq_some_iff.mp hs
      simp only [hbytes]
      exact assures_ret fun u hu => ⟨by simpa using hstatus, hkept u hu⟩

theorem exec_answerMeta_more {md5 : Bytes → Mem 16} {st hash : Bytes} {l : Link UInt8}
    {h : Host (SharedFs G)}
    (hs : statusOf md5 h.fs.base filepath st hash = some statusMore) (hreg : sIsReg (stMode st) = true) :
    Exec host ⟨answerMeta md5 filepath st hash, h, l⟩ [] ⟨receiveFile filepath (verdict statusMore),
      h, l⟩ := by
  have hshared : statusOf md5 h.fs filepath st hash = some statusMore := hs
  have hlnk : ¬sIsLnk (stMode st) = true := by simp [not_lnk_of_reg hreg]
  have hsame : afterStatus h.fs filepath st = h.fs := by simp [afterStatus, not_dir_of_reg hreg]
  refine Exec.after (exec_metaStatus hshared) ?_
  rw [if_pos rfl, if_neg hlnk, if_pos hreg, hsame]
  exact .refl _

-- In every schedule the server replies MORE once for each query.
theorem serves_answerMeta {md5 : Bytes → Mem 16} {st hash : Bytes} {prior : Option Stored}
    {peer : Host (SharedFs G)}
    {g : G} (hsound : files.sound peer.fs.base)
    (hprior : files.found peer.fs.base filepath = .ofPrior prior)
    (hs : statusOf md5 peer.fs.base filepath st hash = some statusMore) (hreg : sIsReg (stMode st) = true)
    (hopens : Posix.fopenWrite peer.fs.base filepath = some (fp, g)) :
    Serves files filepath (verdict statusMore) peer.fs.base (answerMeta md5 filepath st hash) (peer, []) []
      fun _ t ws => Granted (verdict statusMore) t.2 ws := by
  have hlnk : ¬sIsLnk (stMode st) = true := by simp [not_lnk_of_reg hreg]
  have hopen : Open files filepath fp g := by
    cases prior with
    | none => exact ⟨_, files.creates hsound hprior hopens⟩
    | some old => exact ⟨_, files.empties hsound hprior hopens⟩
  unfold answerMeta
  refine assures_bind ((serves_metaStatus refused_start hs hreg).mono ?_)
  rintro _ t ws ⟨rfl, hrefused, hbase⟩
  rw [if_pos rfl, if_neg hlnk, if_pos hreg]
  exact serves_receiveFile (by simp [verdict, header]) hrefused hbase hopens hopen

end Transfer

section Client

variable {F : Type} [Posix F] {h : Host F} {ws : List (Word UInt8)}

-- Up to the verdict the client only waits; what it does then does not matter here.
theorem assures_awaitTransfer (st path : Bytes) :
    Assures host (fun _ _ => False) (fun _ _ => True)
      (fun head _ ws => Acts head → sizeofHeader ≤ (heardBytes ws).length)
      (awaitTransfer st path) h ws fun _ _ _ => True := by
  have hround : ∀ header (h : Host F) ws, Assures host (fun _ _ => False) (fun _ _ => True)
      (fun head _ ws => Acts head → sizeofHeader ≤ (heardBytes ws).length) (awaitVerdict header) h ws
      fun r _ ws => r.elim (fun _ => True) fun _ => sizeofHeader ≤ (heardBytes ws).length := by
    intro header h ws
    rw [awaitVerdict, recvMessage, if_neg (by simp [sizeofHeader]), bind_assoc]
    refine assures_hear fun t _ => ⟨False.elim, fun _ bs hbs => ?_⟩
    have hheard : sizeofHeader ≤ (heardBytes (ws ++ [.heard bs])).length := by
      rw [heardBytes_append, List.length_append]
      simp only [heardBytes, List.append_nil]
      omega
    refine assures_bind (assures_any (fun _ _ ws' _ => ?_) fun r _ ws' => assures_ret fun _ _ => ?_)
    · rw [heardBytes_append, List.length_append]
      omega
    · split_ifs
      · show sizeofHeader ≤ _
        rw [heardBytes_append, List.length_append]
        omega
      · exact trivial
  refine assures_bind ((assures_iter (fun _ _ _ => True) (fun _ _ _ _ => False.elim)
    (fun _ _ _ _ _ hfalse => hfalse.elim) trivial fun header h ws _ => hround header h ws).mono ?_)
  intro header t ws' hheard
  refine assures_any (fun _ _ ws'' _ => ?_) fun _ _ _ => trivial
  rw [heardBytes_append, List.length_append]
  omega

end Client

end Csiebox.Locks
