import Csiebox.Client.DirFs

namespace Csiebox

open CBytes Program Prog

section Events

variable {F : Type} [Posix F] {I : Inotify F} {md5 : Bytes → Mem 16} {client client' : Client}
  {event : Bytes} {h : Host F} {l : Link UInt8}

-- The path that an event is handled at.
theorem handleEvent_eq (md5 : Bytes → Mem 16) (event : Bytes) (client : Client) :
    handleEvent md5 event client = (do
      checkSize (0 ≤ eventWd event ∧ eventWd event < maxWatches)
      checkSize ((client.eventPath (eventWd event).toNat).length + 1 < pathMax)
      checkSize ((client.eventPath (eventWd event).toNat).length + 1 + (eventName event).length < pathMax)
      handleAt md5 event (eventPathOf client (eventWd event).toNat (eventName event)) client) := by
  have hname : cString (eventName event) = eventName event := cString_eq_self cString_nonzero
  have hslash : cString [slash] = [slash] := by decide
  simp only [handleEvent, handleAt, strcat, hslash, hname, eventPathOf, bind_assoc, ret_bind,
    List.length_append, List.length_singleton]

theorem ends_handleAt (hI : I.Lawful) {epath : Bytes}
    (hspelled : eventHas event inCreate = true → ∃ p, epath = watchName p)
    (hnamed : I.Named client h.fs) :
    Ends host (handleAt md5 event epath client) h l fun client' h' _ => I.Grows client client' h'.fs := by
  have hlstat : Code.WatchFree (sys (.lstat epath)) := calls_sys trivial
  refine along_bind ((ends_named hI hlstat hnamed).mono fun found h l hnamed => ?_)
  generalize (found.map Subtype.val).getD (zeros sizeofStat) = st
  have hcreate : Ends host (onCreate md5 event st epath client) h l
      fun client' h' _ => I.Grows client client' h'.fs := by
    unfold onCreate
    split_ifs with hflag hdir
    · obtain ⟨p, rfl⟩ := hspelled hflag
      exact along_bind ((ends_named hI (watchFree_of (calls_syncFile noWatch_sends)) hnamed).mono
        fun _ h l hnamed =>
        ends_watch hI p hnamed)
    · exact along_bind ((ends_named hI (watchFree_of (calls_syncFile noWatch_sends)) hnamed).mono
        fun _ h l hnamed =>
        along_ret (hnamed.grows rfl))
    · exact along_ret (hnamed.grows rfl)
  refine along_bind (hcreate.mono fun client' h l hgrows => ?_)
  refine along_bind ((ends_named hI (calls_onDelete fun _ => trivial) hgrows.named).mono
    fun _ h l hnamed => ?_)
  refine along_bind ((ends_named hI (watchFree_of (calls_onChange noWatch_sends)) hnamed).mono
    fun _ h l hnamed => ?_)
  refine along_bind ((ends_named hI (watchFree_of (calls_onChange noWatch_sends)) hnamed).mono
    fun _ h l hnamed => ?_)
  exact along_ret ⟨hnamed, hgrows.spelled⟩

-- What is known of an event that has been read: a creation is reported under an entry's
-- name, and in a directory that the table spells.
def Located (client : Client) (event : Bytes) : Prop :=
  eventHas event inCreate = true → ValidName (eventName event) ∧ Spelled client (eventWd event).toNat

theorem Located.spelled (hlocated : Located client event) (hflag : eventHas event inCreate = true) :
    ∃ p, eventPathOf client (eventWd event).toNat (eventName event) = watchName p := by
  obtain ⟨hname, p, hp⟩ := hlocated hflag
  refine ⟨p ++ [⟨_, hname⟩], ?_⟩
  rw [watchName_snoc, eventPathOf, hp, List.append_assoc]
  rfl

theorem ends_handleEvent (hI : I.Lawful) (hlocated : Located client event)
    (hnamed : I.Named client h.fs) :
    Ends host (handleEvent md5 event client) h l fun client' h' _ => I.Grows client client' h'.fs := by
  rw [handleEvent_eq]
  refine along_bind (ends_checkSize fun _ => along_bind (ends_checkSize fun _ => ?_))
  exact along_bind (ends_checkSize fun _ => ends_handleAt hI hlocated.spelled hnamed)

end Events

section Reading

variable {F : Type} [Posix F] {I : Inotify F} {client : Client} {f f' : F} {got : Bytes}

-- Every event that has been read is located.
theorem located_read (hI : I.Lawful) (hok : I.ok f) (hnamed : I.Named client f')
    (hread : Posix.readEvents f eventBufLen = some (got, f')) :
    ∀ x ∈ eventsSeen (eventMemory got []) got.length 0, Located client x := by
  obtain ⟨events, rfl, hreports⟩ := hI.events f got f' hok hread
  have hmemory : eventMemory (layout events) [] =
      [] ++ (layout events ++ zeros (eventBufLen - (layout events).length)) := by
    simp only [eventMemory, overlay, zeros, List.drop_replicate, List.append_nil, List.nil_append]
  intro x hx hflag
  have hseen := eventsSeen_named [] (zeros (eventBufLen - (layout events).length)) events x
  rw [List.length_nil, Nat.zero_add, ← hmemory] at hseen
  obtain ⟨event, hmem, name, rfl, hname⟩ := hseen hx
  have hflag' : eventHas event.alone inCreate = true := by
    rw [eventHas, InotifyEvent.alone, eventMask_head, ← eventMask_head event name]
    exact hflag
  have hreport := hreports event hmem hflag'
  have hnonempty : event.name.val ≠ [] := by
    rw [← eventName_alone]
    exact hreport.name.1
  obtain rfl := hname hnonempty
  obtain ⟨p, hp⟩ := Option.isSome_iff_exists.mp hreport.given
  exact ⟨hreport.name, p, hnamed.2 _ p hp⟩

end Reading

section Pulling

variable {F : Type} [Posix F] {I : Inotify F} {md5 : Bytes → Mem 16} {client : Client}
  {h : Host F} {l : Link UInt8}

theorem ends_pullEntry (hI : I.Lawful) {st : Bytes} (p : Path) (hnamed : I.Named client h.fs) :
    Ends host (pullEntry client st (watchName p)) h l fun client' h' _ => I.Named client' h'.fs := by
  rw [pullEntry]
  split_ifs
  · have hmkdir : Code.WatchFree (sys (.mkdir (watchName p) homeMode)) := calls_sys trivial
    refine along_bind ((ends_named hI hmkdir hnamed).mono fun _ h l hnamed => ?_)
    exact (ends_watch hI p hnamed).mono fun _ _ _ hgrows => hgrows.named
  · exact along_bind ((ends_named hI (watchFree_of (calls_pullLink noWatch_pulls)) hnamed).mono
      fun _ h l hnamed => along_ret hnamed)
  · exact along_bind ((ends_named hI (watchFree_of (calls_pullFile noWatch_pulls)) hnamed).mono
      fun _ h l hnamed => along_ret hnamed)
  · exact along_ret hnamed

-- The entries below a server's home directory.
def HomeEntry (home cpath : Bytes) : Prop := ∃ p ≠ [], cpath = home ++ tailName p

theorem homeEntry_recPath (home : Bytes) {p : Path} (hp : p ≠ []) :
    dotSlash ++ cString ((home ++ tailName p).drop (home.length + 1)) = watchName p := by
  rw [← List.drop_drop, List.drop_left, watchName_pathName hp]
  exact congrArg (dotSlash ++ ·) (cString_eq_self (pathName_nonzero p))

theorem carries_named (hI : I.Lawful) {G : Type} [Posix G] {okHome : G → Prop} {home : Bytes}
    (hhome : HomeLawful okHome home) :
    Pull.Carries (fun client (h : Host F) => I.Named client h.fs) okHome (HomeEntry home) home
      (home.length + 1) where
  fits := hhome.linkFits
  below g dirName entries hok hdir hopen entry hentry hshown := by
    obtain ⟨p, rfl⟩ : ∃ p, dirName = home ++ tailName p := by
      rcases hdir with rfl | ⟨p, -, rfl⟩
      · exact ⟨[], (List.append_nil _).symm⟩
      · exact ⟨p, rfl⟩
    obtain ⟨hname, hslash, hlen⟩ := hhome.entries g hok p entries hopen entry hentry
    refine ⟨p ++ [⟨_, validName_of_entry ⟨hname, hslash⟩ hshown⟩], by simp, ?_⟩
    have hfit : (home ++ tailName p).length + 1 + entry.name.val.length < pathMax := hlen
    rw [snprintfPath, List.take_of_length_le, tailName_snoc, List.append_assoc]
    rw [List.length_append, List.length_cons]
    omega
  takes cpath hentry st client ch stream client' ch' hnamed hrun := by
    obtain ⟨p, hp, rfl⟩ := hentry
    rw [homeEntry_recPath home hp] at hrun ⊢
    have hentry := (ends_pullEntry hI p hnamed).returns hrun
    exact hentry.passes (hI.keeps (.utime (watchName p) (stAtime st.val) (stMtime st.val)) ch' _ _ trivial
      hentry.1 rfl)
  sends st cpath h h' out hok hrun :=
    (ends_calls (K := host) (J := fun h : Host G => okHome h.fs)
      (fun op s r s' hop hJ hexec => hhome.keeps op s r s' hop hJ hexec)
        (watchFree_of (calls_sendFile noWatch_sends)) hok).returns hrun

end Pulling

section Reach

variable {F : Type} [Posix F] {I : Inotify F} {md5 : Bytes → Mem 16} {client : Client} {h : Host F}

-- Whichever way the directories got their watches, the table spells them.
theorem Synced.named (hI : I.Lawful) (hentries : ∀ f, I.ok f → EntriesFit traverseName f)
    (hsynced : Synced I md5 client h) : I.Named client h.fs := by
  have hempty : ∀ (client : Client) (f : F), I.ok f → (∀ wd, I.given f wd = none) → I.Named client f :=
    fun client f hok hnew => ⟨hok, fun wd p hgiven => by simp [hnew] at hgiven⟩
  cases hsynced with
  | traversed ok new run =>
      have hshort : (watchName []).length < pathMax := by decide
      exact ((ends_clientTraverse hI hentries pathMax hshort (hempty _ _ ok new)).returns run).named
  | pulled ok new lawful okServer run left =>
      exact Pull.pull_yields (carries_named hI lawful) _ _ _ (hempty _ _ ok new) okServer _ _ run left

-- The events of a buffer, handled one after the other.
theorem watching_events {l : Link UInt8} {events : List Bytes} (hreach : Watching I md5 client h events) :
    Ends host (events.foldlM (fun client event => handleEvent md5 event client) client) h l
      fun client' h' _ => Watching I md5 client' h' [] := by
  induction events generalizing client h l with
  | nil => exact along_ret hreach
  | cons event events ih =>
      rw [List.foldlM_cons]
      exact along_bind (ends_iff.mpr fun out client' h' l' hrun => ih (hreach.handle hrun))

-- A round of the watch loop.
theorem watching_round {l : Link UInt8} (hreach : Watching I md5 client h []) :
    Ends host (watchRound md5 client) h l fun next h' _ =>
      ∀ client', next = .inl client' → Watching I md5 client' h' [] := by
  refine along_bind (along_sys trivial fun got h' hexec => ?_)
  obtain ⟨⟨got, f⟩, hread, heq⟩ := Option.map_eq_some_iff.mp hexec
  obtain ⟨rfl, rfl⟩ := Prod.mk.inj heq
  split_ifs
  · exact along_ret (by simp)
  · have hmemory : overlay (zeros eventBufLen) got = eventMemory got [] := (List.append_nil _).symm
    have hevents := (events_sameEnds md5 (eventMemory got []) got.length 0 client).ends
      (watching_events (l := l) (hreach.read hread))
    rw [← hmemory] at hevents
    refine along_bind (hevents.mono fun client' h' _ hdone => along_ret fun _ hnext => ?_)
    obtain rfl := Sum.inl.inj hnext
    exact hdone

end Reach

section Agreement

variable {F : Type} [Posix F] {I : Inotify F} {md5 : Bytes → Mem 16} {client : Client} {h : Host F}
  {events : List Bytes}

section Example

def dirA : Name := ⟨[0x61], validName_a⟩

end Example

end Agreement

end Csiebox
