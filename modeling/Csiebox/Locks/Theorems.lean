import Csiebox.Locks.Passing

namespace Csiebox.Locks

open CBytes Program Prog Session

section Serving

variable {F G : Type} [Posix F] [Posix G] {files : Files G} {md5 : Bytes → Mem 16}
  {st path filepath hash : Bytes} {client : Host F} {peer : Host (SharedFs G)}

theorem patient_where_unopposed {prior : Option Stored} (hsound : files.sound peer.fs.base)
    (hprior : files.found peer.fs.base filepath = .ofPrior prior)
    (hs : statusOf md5 peer.fs.base filepath st hash = some statusMore) (hreg : sIsReg (stMode st) = true)
    {fp : Nat} {g : G} (hopens : Posix.fopenWrite peer.fs.base filepath = some (fp, g)) {a b : Bytes}
    {c : Update F G}
    (hrun : Relation.ReflTransGen (Steps (Unopposed files))
      (serving md5 st path filepath hash client peer a b) c) :
    Patient files (Steps (Unopposed files)) filepath b c := by
  obtain ⟨ws, hsaid, hreturned, hcareful, ws', hacts, hheard⟩ :=
    careful_everywhere hsound hprior hs hreg hopens hrun
  have hfree := unlocked_everywhere hrun
  have hsent : sentBytes ws = [] ∨ c.rightState.2 = [.unlck] ∧ sentBytes ws = verdict statusMore := by
    by_cases hret : ∃ x, c.right = ret x
    · obtain ⟨x, hx⟩ := hret
      exact .inr ((hreturned x hx).unlocked hfree)
    · exact (hcareful fun x hx => hret ⟨x, hx⟩).1.unlocked hfree
  have hanswered : sentBytes ws = verdict statusMore → Answered b c := by
    intro hall
    rw [hall] at hsaid
    exact answered_of_verdict hsaid
  have hone : sentBytes ws = verdict statusMore →
      c.rightSaid = b ++ (List.replicate (0 + 1) (verdict statusMore)).flatten := by
    intro hall
    rw [hsaid, hall]
    simp
  constructor
  case orderly => exact fun d hstep => orderly_of_unopposed hsound hprior hopens hcareful hstep
  case replies =>
    obtain hnone | ⟨-, hall⟩ := hsent
    · rw [hnone] at hsaid
      exact .inl (blocked_of_none hsaid)
    · exact .inr (hanswered hall)
  case queried =>
    intro hreply
    obtain hnone | ⟨hasked, -⟩ := hsent
    · obtain ⟨rs, more, -, hmore, hrs⟩ := hreply
      rw [hsaid, hnone, List.append_cancel_left_eq] at hrs
      have hlength := congrArg List.length hrs
      rw [List.length_append, hmore.1] at hlength
      simp [sizeofHeader] at hlength
    · rw [hasked]
      rfl
  case goesOn =>
    intro hblocked
    obtain hnone | ⟨-, hall⟩ := hsent
    · have hne : ∀ x, c.right ≠ ret x := by
        intro x hx
        have hall := ((hreturned x hx).unlocked hfree).2
        rw [hnone] at hall
        exact verdict_ne_nil statusMore hall.symm
      exact right_goes_on hne (hcareful hne) hfree hnone (verdict_ne_nil statusMore)
    · exact absurd hblocked (not_blocked (hone hall))
  case served => exact fun hret => hanswered ((hreturned () hret).unlocked hfree).2
  case client =>
    intro hhead
    have hlength := hacts hhead
    have htotal := congrArg List.length hheard
    rw [List.length_append] at htotal
    obtain hnone | ⟨-, hall⟩ := hsent
    · rw [hnone] at htotal
      simp only [List.length_nil, sizeofHeader] at htotal hlength
      omega
    · rw [hall, (verdict_reply statusMore).1] at htotal
      exact ⟨hanswered hall, List.eq_nil_of_length_eq_zero (by omega)⟩

-- In every schedule a request that has been served has had one MORE for each query, and
-- the last query only found no lock.
theorem polls_replied {prior : Option Stored} (hsound : files.sound peer.fs.base)
    (hprior : files.found peer.fs.base filepath = .ofPrior prior)
    (hs : statusOf md5 peer.fs.base filepath st hash = some statusMore) (hreg : sIsReg (stMode st) = true)
    {fp : Nat} {g : G} (hopens : Posix.fopenWrite peer.fs.base filepath = some (fp, g)) {a b : Bytes}
    {c : Update F G}
    (hrun : Relation.ReflTransGen (Steps fun _ _ => True)
      (serving md5 st path filepath hash client peer a b) c) (hserved : c.right = ret ()) :
    ∃ before, c.rightState.2 = before ++ [.unlck] ∧ (∀ a ∈ before, a ≠ .unlck) ∧
      c.rightSaid = b ++ (List.replicate (before.length + 1) (verdict statusMore)).flatten := by
  obtain ⟨ws, hsaid, hreturned, -⟩ := careful_everywhere hsound hprior hs hreg hopens hrun
  obtain ⟨⟨before, hasked, hlocked⟩, hsent⟩ := hreturned () hserved
  refine ⟨before, hasked, hlocked, ?_⟩
  rw [hsaid, hsent, hasked, List.length_append, List.length_singleton]

-- A run whose steps are orderly, up to a state whose history has no lock in it, met nobody.
theorem unopposed_of_orderly_run {prior : Option Stored} (hsound : files.sound peer.fs.base)
    (hprior : files.found peer.fs.base filepath = .ofPrior prior)
    (hs : statusOf md5 peer.fs.base filepath st hash = some statusMore) (hreg : sIsReg (stMode st) = true)
    {fp : Nat} {g : G} (hopens : Posix.fopenWrite peer.fs.base filepath = some (fp, g)) {a b : Bytes}
    {c : Update F G}
    (hrun : Relation.ReflTransGen (fun c d => Steps (fun _ _ => True) c d ∧ Orderly files filepath c d)
      (serving md5 st path filepath hash client peer a b) c) (hfree : ∀ a ∈ c.rightState.2, a = .unlck) :
    Relation.ReflTransGen (Steps (Unopposed files))
      (serving md5 st path filepath hash client peer a b) c := by
  induction hrun with
  | refl => exact .refl
  | @tail c d hbefore last ih =>
      obtain ⟨hstep, horderly⟩ := last
      have hprefix := ih fun a ha => hfree a ((steps_asked hstep).subset ha)
      refine hprefix.tail ?_
      cases hstep with
      | left own => exact .left own
      | right _ own =>
          refine .right ?_ own
          obtain ⟨p, s, j, out, hown, rfl⟩ := rightStep_eq own
          have hne : ∀ x, c.right ≠ ret x := by
            intro x hx
            simp [hx, step] at hown
          obtain ⟨ws, -, -, hcareful, -⟩ := careful_everywhere hsound hprior hs hreg hopens hprefix
          exact unopposed_of_orderly hsound hprior hopens (hcareful hne) hown horderly hfree
      | other change => exact .other change

-- In every run in which nobody is in the server's way the request is served as it should
-- be; and a request that has been served has been served so only in these runs.
theorem locked_file_update (client : Host F) (path : Bytes) {prior : Option Stored}
    (hsound : files.sound peer.fs.base)
    (hprior : files.found peer.fs.base filepath = .ofPrior prior)
    (hs : statusOf md5 peer.fs.base filepath st hash = some statusMore) (hreg : sIsReg (stMode st) = true)
    {fp : Nat} {g : G} (hopens : Posix.fopenWrite peer.fs.base filepath = some (fp, g)) (a b : Bytes) :
    (∀ c, Relation.ReflTransGen (Steps (Unopposed files))
      (serving md5 st path filepath hash client peer a b) c →
      Patient files (Steps (Unopposed files)) filepath b c) ∧
    ∀ c, c.right = ret () →
      (Relation.ReflTransGen (fun c d => Steps (fun _ _ => True) c d ∧ Orderly files filepath c d)
          (serving md5 st path filepath hash client peer a b) c ∧ Answered b c ↔
        Relation.ReflTransGen (Steps (Unopposed files))
          (serving md5 st path filepath hash client peer a b) c) := by
  refine ⟨fun c hrun => patient_where_unopposed hsound hprior hs hreg hopens hrun, fun c hserved =>
    ⟨?_, ?_⟩⟩
  · rintro ⟨hrun, hanswered⟩
    obtain ⟨before, hasked, -, hsaid⟩ := polls_replied hsound hprior hs hreg hopens
      (Relation.ReflTransGen.mono (fun _ _ hstep => hstep.1) _ _ hrun) hserved
    have hnone : before = [] := List.eq_nil_of_length_eq_zero (answered_once hsaid hanswered)
    refine unopposed_of_orderly_run hsound hprior hs hreg hopens hrun fun a ha => ?_
    rw [hasked, hnone] at ha
    exact List.mem_singleton.mp ha
  · intro hrun
    refine ⟨?_, (patient_where_unopposed hsound hprior hs hreg hopens hrun).served hserved⟩
    clear hserved
    induction hrun with
    | refl => exact .refl
    | tail hbefore last ih =>
        have hpatient := patient_where_unopposed hsound hprior hs hreg hopens hbefore
        refine ih.tail ⟨?_, hpatient.orderly _ last⟩
        cases last with
        | left own => exact .left own
        | right _ own => exact .right trivial own
        | other change => exact .other change

end Serving

section Instances

-- The server's home directory with the file a in it.
def sharedFs : TreeFs :=
  exampleFs [[⟨[0x73], validName_s⟩], [⟨[0x73], validName_s⟩, ⟨[0x75], validName_u⟩],
    [⟨[0x73], validName_s⟩, ⟨[0x75], validName_u⟩, ⟨[0x61], validName_a⟩]]
    fun i => if i = 2 then .file [0x78] else .dir

-- Another process has locked the file or not.
def sharedHome (held : List Flock) : Host (SharedFs TreeFs) where
  fs := {
    base := sharedFs
    held
    own := []
    buffer := []
    passes := fun n => n / 4096 * 4096 }
  garbage := fun _ _ => 0
  locals := 0
  notices := []

def sharedPath : Bytes := exampleHome ++ [slash, 0x61]

-- The content is to change.
def sharedServing (held : List Flock) : Update TreeFs TreeFs :=
  serving md5OfX statOfFile.val pathOfFile sharedPath (zeros 16) clientWithFile (sharedHome held) [] []

theorem sharedFs_kindAt : sharedFs.kindAt sharedPath = (some [0x78]).map .file := by decide +kernel

theorem sharedFs_differs : zeros 16 ≠ priorHash md5OfX (some ⟨[0x78], true, true⟩) := by decide +kernel

section Shared

variable (held : List Flock)

theorem sharedHome_base : (sharedHome held).fs.base = sharedFs := rfl

theorem sharedHome_sound : treeFiles.sound (sharedHome held).fs.base :=
  show sharedFs.Allocated by decide +kernel

theorem sharedHome_found : treeFiles.found (sharedHome held).fs.base sharedPath =
    .ofPrior (some { content := [0x78], readable := true, owned := true }) := by
  rw [treeFiles_found, sharedHome_base]
  exact treeFound_prior sharedFs_kindAt

theorem sharedHome_wants :
    statusOf md5OfX (sharedHome held).fs.base sharedPath statOfFile.val (zeros 16) = some statusMore := by
  rw [Files.status (sharedHome_sound held) (sharedHome_found held) md5OfX statOfFile_kind.2,
    if_neg sharedFs_differs]

theorem sharedHome_opens :
    ∃ opened, Posix.fopenWrite (sharedHome held).fs.base sharedPath = some opened := by
  rw [sharedHome_base]
  have hopens : (Posix.fopenWrite sharedFs sharedPath).isSome := by decide +kernel
  exact Option.isSome_iff_exists.mp hopens

end Shared

theorem whole_conflict : Conflict whole whole := by decide +kernel

-- Another process has locked the whole file when the server is about to ask for locks, and
-- again when the server is about to lock the file itself; it is served all the same.
theorem locked_file_update_passing :
    ∃ c₁ c₂ c, Relation.ReflTransGen (Steps (Unopposed treeFiles)) (sharedServing [whole]) c₁ ∧
      c₁.rightState.1.fs.Locked ∧ Relation.ReflTransGen (Steps (Unopposed treeFiles)) c₁ c₂ ∧
      c₂.rightState.1.fs.Locked ∧ Relation.ReflTransGen (Steps (Unopposed treeFiles)) c₂ c ∧
      c.left = ret () ∧ c.right = ret () ∧
      Patient treeFiles (Steps (Unopposed treeFiles)) sharedPath [] c ∧
      Relation.ReflTransGen (fun c d => Steps (fun _ _ => True) c d ∧ Orderly treeFiles sharedPath c d)
        (sharedServing [whole]) c ∧ Answered [] c := by
  obtain ⟨⟨fp, g⟩, hopens⟩ := sharedHome_opens [whole]
  have hreads : (Posix.fopenRead clientWithFile.fs pathOfFile).isSome := by decide +kernel
  obtain ⟨⟨handle, content⟩, hread⟩ := Option.isSome_iff_exists.mp hreads
  obtain ⟨c₁, c₂, c, hto₁, hto₂, hto, hheld₁, hheld₂, hleft, hright⟩ :=
    served_among_locks treeFs_locksGranted hread (sharedHome_wants [whole]) statOfFile_kind.2 hopens rfl
      [whole] [whole] [] []
  obtain ⟨hpatient, hserved⟩ := locked_file_update clientWithFile pathOfFile (sharedHome_sound [whole])
    (sharedHome_found [whole]) (sharedHome_wants [whole]) statOfFile_kind.2 hopens [] []
  have hrun := (hto₁.trans hto₂).trans hto
  have hlocked : ∀ c : Update TreeFs TreeFs, c.rightState.1.fs.held = [whole] →
      c.rightState.1.fs.Locked := by
    intro c hheld
    exact ⟨whole, by rw [hheld]; exact List.mem_singleton_self _, whole_conflict⟩
  exact ⟨c₁, c₂, c, hto₁, hlocked c₁ hheld₁, hto₂, hlocked c₂ hheld₂, hto, hleft, hright, hpatient c hrun,
    (hserved c hright).mpr hrun⟩

-- Another process has locked the file, and the first reply says MORE.
theorem more_while_locked :
    ¬∀ c, Relation.ReflTransGen (Steps fun _ _ => True) (sharedServing [whole]) c →
      Patient treeFiles (Steps fun _ _ => True) sharedPath [] c := by
  intro hall
  obtain ⟨⟨fp, g⟩, hopens⟩ := sharedHome_opens [whole]
  obtain ⟨c, d, hrun, hstep, hheld, hsaid⟩ := more_under_lock clientWithFile pathOfFile
    (sharedHome_wants [whole]) statOfFile_kind.2 hopens [] []
  have hlocked : c.rightState.1.fs.Locked :=
    ⟨whole, by rw [hheld]; exact List.mem_singleton_self _, whole_conflict⟩
  have hstatus := ((hall c hrun).orderly d hstep).blocked _ hlocked hsaid (verdict_ne_nil statusMore)
  exact absurd ((verdict_reply statusMore).2.symm.trans hstatus) (by decide +kernel)

end Instances

end Csiebox.Locks
