import Csiebox.Locks.Lemmas
import Csiebox.Session.Theorems

namespace Csiebox.Locks

open CBytes Program Prog Session

section Replies

variable {F G : Type} {b : Bytes} {c : Update F G}

theorem verdict_reply (status : UInt8) : replyOf status (verdict status) :=
  ⟨by simp [verdict], by simp [verdict]⟩

theorem verdict_ne_nil (status : UInt8) : verdict status ≠ [] := by
  simp [verdict, header]

theorem blocked_of_none (h : c.rightSaid = b ++ []) : Blocked b c :=
  ⟨[], by simp, h⟩

theorem answered_of_verdict (h : c.rightSaid = b ++ verdict statusMore) : Answered b c :=
  ⟨[], verdict statusMore, by simp, verdict_reply statusMore, h⟩

-- The first reply says MORE.
theorem not_block_first {n : Nat} {r rest : Bytes} (hblock : replyOf statusBlock r)
    (h : r ++ rest = (List.replicate (n + 1) (verdict statusMore)).flatten) : False := by
  obtain ⟨hlength, hstatus⟩ := hblock
  have hfirst : r = verdict statusMore := by
    rw [List.replicate_succ, List.flatten_cons] at h
    exact (List.append_inj h (hlength.trans (verdict_reply statusMore).1.symm)).1
  rw [hfirst, (verdict_reply statusMore).2] at hstatus
  exact absurd hstatus (by decide +kernel)

theorem not_blocked {n : Nat}
    (h : c.rightSaid = b ++ (List.replicate (n + 1) (verdict statusMore)).flatten) :
    ¬Blocked b c := by
  rintro ⟨rs, hblock, hrs⟩
  have hflat := List.append_cancel_left (hrs.symm.trans h)
  cases rs with
  | nil => simp [verdict_ne_nil] at hflat
  | cons r rs =>
      rw [List.flatten_cons] at hflat
      exact not_block_first (hblock r (List.mem_cons_self ..)) hflat

-- One reply that is not a BLOCK: there was one query.
theorem answered_once {n : Nat}
    (h : c.rightSaid = b ++ (List.replicate (n + 1) (verdict statusMore)).flatten)
    (hanswered : Answered b c) : n = 0 := by
  obtain ⟨rs, more, hblock, hmore, hrs⟩ := hanswered
  have hflat := List.append_cancel_left (hrs.symm.trans h)
  cases rs with
  | nil =>
      have hlength := congrArg List.length hflat
      simp only [List.flatten_nil, List.nil_append, hmore.1, List.replicate_succ, List.flatten_cons,
        List.length_append, (verdict_reply statusMore).1] at hlength
      cases n with
      | zero => rfl
      | succ n =>
          simp only [List.replicate_succ, List.flatten_cons, List.length_append,
            (verdict_reply statusMore).1, sizeofHeader] at hlength
          omega
  | cons r rs =>
      rw [List.flatten_cons, List.append_assoc] at hflat
      exact (not_block_first (hblock r (List.mem_cons_self ..)) hflat).elim

end Replies

section Steps

variable {F G : Type} [Posix F] [Posix G] {files : Files G} {filepath reply : Bytes} {base : G}
  {c d : Update F G} {ws : List (Word UInt8)}

-- The history of an end that has notes only grows.
theorem steps_asked {C : Head Sys UInt8 Fault → Polling G → Prop} (hstep : Steps C c d) :
    c.rightState.2 <+: d.rightState.2 := by
  cases hstep with
  | left own =>
      obtain ⟨p, s, j, out, -, rfl⟩ := leftStep_eq own
      exact List.prefix_rfl
  | right _ own =>
      obtain ⟨p, s, j, out, hown, rfl⟩ := rightStep_eq own
      rcases (step_effect hown).1 with rfl | ⟨γ, op, r, -, hexec⟩
      · exact List.prefix_rfl
      · exact ⟨_, (noting_exec.mp hexec).2.symm⟩
  | other change =>
      obtain ⟨held, rfl, -⟩ := change
      exact List.prefix_rfl

-- Where nobody is in the way, every query finds no lock.
theorem steps_unlocked (hstep : Steps (Unopposed files) c d) (h : ∀ a ∈ c.rightState.2, a = .unlck) :
    ∀ a ∈ d.rightState.2, a = .unlck := by
  cases hstep with
  | left own =>
      obtain ⟨p, s, j, out, -, rfl⟩ := leftStep_eq own
      exact h
  | right allowed own =>
      obtain ⟨p, s, j, out, hown, rfl⟩ := rightStep_eq own
      rcases (step_effect hown).1 with rfl | ⟨γ, op, r, hcall, hexec⟩
      · exact h
      · rw [hcall] at allowed
        obtain ⟨hexec, hadded⟩ := noting_exec.mp hexec
        intro a ha
        rw [hadded, List.mem_append] at ha
        obtain ha | ha := ha
        · exact h a ha
        · cases op <;> simp only [told, List.not_mem_nil, List.mem_singleton] at ha
          obtain ⟨rfl, -⟩ := Prod.mk.inj (Option.some.inj hexec)
          rw [ha]
          exact getlk_unlck_iff.mpr allowed
  | other change =>
      obtain ⟨held, rfl, -⟩ := change
      exact h

-- Opening empties the file, which shows unless it was empty.
theorem opened_same_iff {g : G} {fp : Nat} {prior : Option Stored} (hsound : files.sound base)
    (hprior : files.found base filepath = .ofPrior prior)
    (hopens : Posix.fopenWrite base filepath = some (fp, g)) :
    files.found g filepath = files.found base filepath ↔ (files.found base filepath).content = some [] := by
  cases prior with
  | none =>
      rw [files.shows (files.creates hsound hprior hopens), hprior]
      simp [Found.ofPrior, Found.content]
  | some old =>
      rw [files.shows (files.empties hsound hprior hopens), hprior]
      obtain ⟨content, readable, owned⟩ := old
      simp [Found.ofPrior, Found.content, eq_comm]

theorem exec_fopenWrite {h h' : Host (SharedFs G)} {fp : Nat} {g : G} {r : Option Nat}
    (hopens : Posix.fopenWrite h.fs.base filepath = some (fp, g))
    (hexec : Host.exec (.fopenWrite filepath) h = some (r, h')) : h'.fs.base = g := by
  have hfopen : Posix.fopenWrite h.fs filepath = some (fp, { h.fs with base := g, buffer := [] }) := by
    show (Posix.fopenWrite h.fs.base filepath).map _ = _
    rw [hopens]
    rfl
  simp only [Host.exec, hfopen, Option.some.injEq, Prod.mk.injEq] at hexec
  rw [← hexec.2]

-- What a call passes on shows in the file.
theorem passOn_same_iff {g : G} {fp : Nat} {file : Stored} (hfile : files.writing g fp filepath file)
    (bs : Bytes) :
    files.found (passOn g fp bs) filepath = files.found g filepath ↔ bs = [] := by
  by_cases hnone : bs = []
  · simp [passOn, hnone]
  · rw [passOn, if_neg hnone, files.shows (files.writes hfile bs), files.shows hfile]
    obtain ⟨content, readable, owned⟩ := file
    simp [hnone]

theorem closed_same_iff {g : G} {fp : Nat} {file : Stored} (hfile : files.writing g fp filepath file)
    (bs : Bytes) :
    files.found (Posix.fclose (passOn g fp bs) fp) filepath = files.found g filepath ↔ bs = [] := by
  rw [← passOn_same_iff hfile bs]
  obtain ⟨file', hfile'⟩ := Open.passOn ⟨file, hfile⟩ bs
  rw [(files.closes hfile').2, files.shows hfile']

variable {fp : Nat} {g : G} {prior : Option Stored}

-- A call of the server under a lock leaves the file as it is exactly if nobody is in its
-- way, queries apart.
theorem content_same_iff {γ : Type} {op : Sys γ} {r : γ} {s : Polling G} {h : Host (SharedFs G)}
    (hsound : files.sound base) (hprior : files.found base filepath = .ofPrior prior)
    (hopens : Posix.fopenWrite base filepath = some (fp, g))
    (htouches : Touches files filepath base (.call op) s) (hquery : told γ op r = [])
    (hexec : Host.exec op s.1 = some (r, h)) :
    (s.1.fs.Locked → files.found h.fs.base filepath = files.found s.1.fs.base filepath) ↔
      Unopposed files (.call op) s := by
  cases op
  case fopenWrite path =>
    obtain ⟨rfl, hbase⟩ := htouches
    rw [exec_fopenWrite (by rw [hbase, hopens]) hexec, Unopposed, hbase,
      opened_same_iff hsound hprior hopens]
  case fwrite fp bs =>
    obtain ⟨file, hfile⟩ := htouches
    obtain ⟨-, rfl⟩ := Prod.mk.inj (Option.some.inj hexec)
    exact imp_congr_right fun _ => passOn_same_iff hfile (s.1.fs.passed bs)
  case fclose fp =>
    obtain ⟨file, hfile⟩ := htouches
    obtain ⟨-, rfl⟩ := Prod.mk.inj (Option.some.inj hexec)
    exact imp_congr_right fun _ => closed_same_iff hfile s.1.fs.buffer
  case getlk fp fl => simp [told] at hquery
  all_goals exact iff_of_true (fun _ => congrArg (files.found · filepath) (htouches.2 r h hexec)) trivial

-- One step is orderly where nobody is in the way.
theorem orderly_of_unopposed (hsound : files.sound base)
    (hprior : files.found base filepath = .ofPrior prior)
    (hopens : Posix.fopenWrite base filepath = some (fp, g))
    (hcareful : (∀ x, c.right ≠ ret x) → Careful files filepath reply base c.right.head c.rightState ws)
    (hstep : Steps (Unopposed files) c d) : Orderly files filepath c d := by
  cases hstep with
  | left own =>
      obtain ⟨p, s, j, out, -, rfl⟩ := leftStep_eq own
      exact ⟨fun _ => rfl, fun r _ hr hne => absurd (List.append_right_eq_self.mp hr.symm) hne⟩
  | right allowed own =>
      obtain ⟨p, s, j, out, hown, rfl⟩ := rightStep_eq own
      have hne : ∀ x, c.right ≠ ret x := by
        intro x hx
        simp [hx, step] at hown
      obtain ⟨hstate, hout⟩ := step_effect hown
      constructor
      · intro hlocked
        rcases hstate with rfl | ⟨γ, op, r, hcall, hexec⟩
        · rfl
        · have htouches := (hcareful hne).2
          rw [hcall] at allowed htouches
          have hhost := (noting_exec.mp hexec).1
          by_cases hquery : told γ op r = []
          · exact (content_same_iff hsound hprior hopens htouches hquery hhost).mpr allowed hlocked
          · cases op <;> first | exact absurd rfl hquery | skip
            obtain ⟨-, hsame⟩ := Prod.mk.inj (Option.some.inj hhost)
            rw [← hsame]
      · intro r hlocked hr hne
        cases hout with
        | inl hnil => exact absurd ((List.append_cancel_left hr).symm.trans hnil) hne
        | inr hsend =>
            rw [hsend] at allowed
            exact absurd hlocked allowed
  | other change =>
      obtain ⟨held, rfl, -⟩ := change
      exact ⟨fun _ => rfl, fun r _ hr hne => absurd (List.append_right_eq_self.mp hr.symm) hne⟩

omit [Posix F] in
-- And an orderly step of the server met nobody, if no query was told of a lock.
theorem unopposed_of_orderly {s' : Polling G} {p : Code Unit} {j out : Bytes}
    (hsound : files.sound base) (hprior : files.found base filepath = .ofPrior prior)
    (hopens : Posix.fopenWrite base filepath = some (fp, g))
    (hcareful : Careful files filepath (verdict statusMore) base c.right.head c.rightState ws)
    (hown : step polling ⟨c.right, c.rightState, ⟨c.toRight, false⟩⟩ = some (⟨p, s', ⟨j, false⟩⟩, out))
    (horderly : Orderly files filepath c { c with
      right := p, rightState := s', toRight := j, toLeft := c.toLeft ++ out,
        rightSaid := c.rightSaid ++ out })
    (hasked : ∀ a ∈ s'.2, a = .unlck) : Unopposed files c.right.head c.rightState := by
  obtain ⟨hstands, htouches⟩ := hcareful
  obtain ⟨left, leftState, right, rightState, toLeft, toRight, leftSaid, rightSaid⟩ := c
  cases right with
  | call op k =>
      simp only [step, Option.map_eq_some_iff, Prod.mk.injEq, Proc.mk.injEq] at hown
      obtain ⟨⟨r, t⟩, hexec, ⟨-, rfl, -⟩, -⟩ := hown
      obtain ⟨hhost, hadded⟩ := noting_exec.mp hexec
      by_cases hquery : told _ op r = []
      · exact (content_same_iff hsound hprior hopens htouches hquery hhost).mp horderly.content
      · cases op <;> first | exact absurd rfl hquery | skip
        obtain ⟨rfl, -⟩ := Prod.mk.inj (Option.some.inj hhost)
        refine getlk_unlck_iff.mp (hasked _ ?_)
        rw [hadded]
        exact List.mem_append_right _ (List.mem_singleton_self _)
  | send bs k =>
      obtain ⟨rfl, -⟩ := hstands
      simp only [step, Link.alive, Bool.not_false, Bool.true_or, if_true, Option.some.injEq,
        Prod.mk.injEq] at hown
      obtain ⟨-, rfl⟩ := hown
      intro hlocked
      have hstatus := horderly.blocked (verdict statusMore) hlocked rfl (verdict_ne_nil statusMore)
      exact absurd ((verdict_reply statusMore).2.symm.trans hstatus) (by decide +kernel)
  | _ => trivial

end Steps

section Serving

variable {F G : Type} [Posix F] [Posix G] {files : Files G} {md5 : Bytes → Mem 16}
  {st path filepath hash : Bytes} {client : Host F} {peer : Host (SharedFs G)}

-- A request of the client's `sync_file` comes to this: the client has sent it and read the
-- first answer, the server has read it.
theorem serving_reached {connFd : Nat} {server : Server} {home : Bytes} {st : Mem 144}
    (hin : LoggedIn server connFd home) (hp : PathFits home (path.drop 2))
    (hd : digestOf md5 client.fs st.val (path.drop 2) = some hash) (a b : Bytes) :
    ∃ k asked a' b', Net.Runs host polling
      ((session md5 connFd server (syncFile md5 st.val path) client peer a b).noted [])
      ⟨awaitTransfer st.val path, client, answerMeta md5 (home ++ slash :: path.drop 2) st.val hash >>= k,
        (peer.tick, asked), [], [], a', b'⟩ := by
  have hanswer : Talk host (answerMeta md5 (home ++ slash :: path.drop 2) st.val hash) peer.tick [([], [])]
      (answerMeta md5 (home ++ slash :: path.drop 2) st.val hash) peer.tick := .one (.refl _)
  obtain ⟨k, hserver⟩ := talk_serveMeta_part _ hin hp (digestOf_length hd) hanswer
  have hmeta : Talk host (sendMeta md5 st.val (path.drop 2)) client
      [([], metaHead ++ metaBody (path.drop 2).length st.val hash), (metaHead, []),
        ([], path.drop 2)] (ret ()) client :=
    talk_sendMeta hd (by simp) (by simp [statusMore, statusBusy])
  have hclient : Talk host (syncFile md5 st.val path) client
      [([], metaHead ++ metaBody (path.drop 2).length st.val hash), (metaHead, []),
        ([], path.drop 2)] (awaitTransfer st.val path) client := hmeta.bind _
  obtain ⟨asked, hrun⟩ := runs_noting told ((meets_crash ..).runs hclient hserver a b) []
  exact ⟨k, asked, _, _, hrun⟩

-- What every schedule comes to: the server stands where it may stand, and it has sent one
-- reply for each query that has had one.
theorem careful_everywhere {C : Head Sys UInt8 Fault → Polling G → Prop} {prior : Option Stored}
    (hsound : files.sound peer.fs.base) (hprior : files.found peer.fs.base filepath = .ofPrior prior)
    (hs : statusOf md5 peer.fs.base filepath st hash = some statusMore) (hreg : sIsReg (stMode st) = true)
    {fp : Nat} {g : G} (hopens : Posix.fopenWrite peer.fs.base filepath = some (fp, g)) {a b : Bytes}
    {c : Update F G}
    (hrun : Relation.ReflTransGen (Steps C) (serving md5 st path filepath hash client peer a b) c) :
    ∃ ws, c.rightSaid = b ++ sentBytes ws ∧
      (∀ x, c.right = ret x → Granted (verdict statusMore) c.rightState.2 ws) ∧
      ((∀ x, c.right ≠ ret x) →
        Careful files filepath (verdict statusMore) peer.fs.base c.right.head c.rightState ws) ∧
      ∃ ws', (Acts c.left.head → sizeofHeader ≤ (heardBytes ws').length) ∧
        sentBytes ws = heardBytes ws' ++ c.toLeft := by
  have hfree : Relation.ReflTransGen (Steps fun _ _ => True)
      (serving md5 st path filepath hash client peer a b) c := by
    refine Relation.ReflTransGen.mono (fun _ _ hstep => ?_) _ _ hrun
    cases hstep with
    | left own => exact .left own
    | right _ own => exact .right trivial own
    | other change => exact .other change
  obtain ⟨ws, hright, hsaid⟩ := disturbed_right hfree
  obtain ⟨ws', more, hleft, hmore, hheard⟩ := disturbed_left hfree
  have hserver := serves_answerMeta hsound hprior hs hreg hopens _ ws _ _ _ hright
  have hclient := @assures_awaitTransfer F _ client [] st path _ ws' _ _ _ hleft
  rw [List.nil_append] at hserver hclient
  have hsame : more = sentBytes ws := List.append_cancel_left (hmore.symm.trans hsaid)
  refine ⟨ws, hsaid, hserver.1, hserver.2, ws', fun hacts => hclient.2 (fun x hx => ?_) hacts, ?_⟩
  · rw [hx] at hacts
    exact hacts
  · rw [← hsame]
    exact hheard

theorem unlocked_everywhere {a b : Bytes} {c : Update F G}
    (hrun : Relation.ReflTransGen (Steps (Unopposed files))
      (serving md5 st path filepath hash client peer a b) c) : ∀ a ∈ c.rightState.2, a = .unlck := by
  induction hrun with
  | refl => simp [serving]
  | tail _ last ih => exact steps_unlocked last ih

section Unlocked

variable {reply : Bytes} {asked : List LockType} {ws : List (Word UInt8)}

theorem Refused.unlocked (h : Refused reply asked ws) (hfree : ∀ a ∈ asked, a = .unlck) :
    sentBytes ws = [] := by
  have hnone : asked = [] := List.eq_nil_iff_forall_not_mem.mpr fun a ha => h.locked a ha (hfree a ha)
  rw [h.sent, hnone]
  rfl

theorem Granted.unlocked (h : Granted reply asked ws) (hfree : ∀ a ∈ asked, a = .unlck) :
    asked = [.unlck] ∧ sentBytes ws = reply := by
  obtain ⟨before, rfl, hlocked⟩ := h.last
  have hnone : before = [] :=
    List.eq_nil_iff_forall_not_mem.mpr fun a ha =>
      hlocked a ha (hfree a (List.mem_append_left _ ha))
  subst hnone
  exact ⟨rfl, by simpa using h.sent⟩

-- Where no query is told of a lock, the one reply has gone out or not.
theorem Stands.unlocked {head : Head Sys UInt8 Fault} (h : Stands reply head asked ws)
    (hfree : ∀ a ∈ asked, a = .unlck) :
    sentBytes ws = [] ∨ asked = [.unlck] ∧ sentBytes ws = reply := by
  have heither : ∀ {asked}, (∀ a ∈ asked, a = .unlck) → Refused reply asked ws ∨ Granted reply asked ws →
      sentBytes ws = [] ∨ asked = [.unlck] ∧ sentBytes ws = reply := by
    rintro asked hfree (hrefused | hgranted)
    · exact .inl (hrefused.unlocked hfree)
    · exact .inr (hgranted.unlocked hfree)
  cases head with
  | call op => cases op <;> first | exact .inl (Refused.unlocked h hfree) | exact heither hfree h
  | send bs =>
      obtain ⟨-, before, a, rfl, hrefused⟩ := h
      exact .inl (hrefused.unlocked fun a ha => hfree a (List.mem_append_left _ ha))
  | recv n => exact .inr (Granted.unlocked h hfree)
  | halt e => exact .inr (Granted.unlocked h hfree)
  | _ => exact heither hfree h

end Unlocked

omit [Posix F] in
-- Before its reply the server does not wait.
theorem right_goes_on {base : G} {reply : Bytes} {c : Update F G} {ws : List (Word UInt8)}
    (hne : ∀ x, c.right ≠ ret x) (hcareful : Careful files filepath reply base c.right.head c.rightState ws)
    (hfree : ∀ a ∈ c.rightState.2, a = .unlck) (hnone : sentBytes ws = []) (hreply : reply ≠ []) :
    ∃ d, c.rightStep polling = some d := by
  obtain ⟨left, leftState, right, rightState, toLeft, toRight, leftSaid, rightSaid⟩ := c
  have hnot : ¬Granted reply rightState.2 ws := by
    intro hgranted
    exact hreply ((hgranted.unlocked hfree).2.symm.trans hnone)
  obtain ⟨hstands, htouches⟩ := hcareful
  cases right with
  | ret x => exact absurd rfl (hne x)
  | halt e => exact absurd hstands hnot
  | recv n k => exact absurd hstands hnot
  | call op k =>
      have hgoes : (Host.exec op rightState.1).isSome := by
        cases op
        case fopenWrite path =>
          simp only [Host.exec]
          cases Posix.fopenWrite rightState.1.fs path <;> rfl
        all_goals first | rfl | exact htouches.1
      obtain ⟨⟨r, h⟩, hexec⟩ := Option.isSome_iff_exists.mp hgoes
      have hstep : polling.exec op rightState = some (r, h, rightState.2 ++ told _ op r) :=
        noting_exec.mpr ⟨hexec, rfl⟩
      exact ⟨_, by simp only [Net.rightStep, step, hstep, Option.map_some]; rfl⟩
  | send bs k =>
      have halive : (⟨toRight, false⟩ : Link UInt8).alive = true := rfl
      exact ⟨_, by simp only [Net.rightStep, step, halive, if_true, Option.map_some]; rfl⟩
  | loop body x k => exact ⟨_, rfl⟩

end Serving

end Csiebox.Locks
