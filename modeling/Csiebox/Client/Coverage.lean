import Csiebox.Client.Watch.Theorems
import Mathlib.Data.List.Nodup

namespace Csiebox

open CBytes Program Prog

section System

-- The directories behind the watches: which are there, which have been at any time, and
-- which one an active watch is on.
structure Directories (F : Type) extends Inotify F where
  present : F → Dir → Prop
  born : F → Dir → Prop
  watched : F → Nat → Dir → Prop

namespace Directories

variable {F : Type} (D : Directories F)

-- Directories come and go but do not come back, and descriptors are not given out again.
-- A watch stays while its directory does, unless it is one of the `lost`.
structure Continues (lost : Nat → Prop) (f f' : F) : Prop where
  born : ∀ d, D.born f d → D.born f' d
  present : ∀ d, D.born f d → D.present f' d → D.present f d
  given : ∀ wd p, D.given f wd = some p → D.given f' wd = some p
  watched : ∀ wd d, ¬lost wd → D.watched f wd d → D.present f' d → D.watched f' wd d

def noneLost (_ : Nat) : Prop := False

-- What the system is taken to do, apart from what it does to the descriptors.
structure Lawful [Posix F] : Prop where
  base : D.toInotify.Lawful
  born_of_present : ∀ f d, D.ok f → D.present f d → D.born f d
  born_of_watched : ∀ f wd d, D.ok f → D.watched f wd d → D.born f d
  keeps : ∀ {ι : Type} (op : Sys ι) (h : Host F) (r : ι) (h' : Host F), NoWatch op → D.ok h.fs →
    Host.exec op h = some (r, h') → D.Continues noneLost h.fs h'.fs
  -- a new watch is on the directory that is at the path
  adds : ∀ f p wd f', D.ok f → Posix.addWatch f (watchName p) = (wd, f') → 0 ≤ wd →
    D.Continues noneLost f f' ∧ D.given f' wd.toNat = some p ∧
      ∀ d, D.born f d → D.present f' d → d.path = p → D.watched f' wd.toNat d
  -- one watch is removed
  removes : ∀ f wd, D.ok f → D.Continues (fun n => (n : Int) = wd) f (Posix.rmWatch f wd).2
  stats : ∀ f d, D.ok f → D.present f d →
    ∃ st, Posix.lstat f (watchName d.path) = some st ∧ sIsDir (stMode st.val) = true

end Directories

end System

section Reachable

variable {F : Type} [Posix F] (D : Directories F)

-- The event reports the creation of a directory that has been at this path.
def Directories.Announces (f : F) (event : Bytes) (d : Dir) : Prop :=
  eventHas event inCreate = true ∧ D.born f d ∧
    ∃ (p : Path) (n : Name), D.given f (eventWd event).toNat = some p ∧ eventName event = n.val ∧
      d.path = p ++ [n]

-- The watch loop from a tree on whose directories are all watched, while every event it
-- handles meets `guard`. `known` are the first directories and those whose creation has
-- been handled.
inductive Monitors (md5 : Bytes → Mem 16) (guard : F → Bytes → Prop) :
    Client → Host F → List Bytes → (Dir → Prop) → Prop where
  | start {client : Client} {h : Host F} (named : D.Named client h.fs)
      (whole : ∀ d, D.present h.fs d → ∃ wd, D.watched h.fs wd d) :
      Monitors md5 guard client h [] (D.present h.fs)
  | read {client : Client} {h : Host F} {known : Dir → Prop} {got : Bytes} {f : F}
      (before : Monitors md5 guard client h [] known)
      (run : Posix.readEvents h.fs eventBufLen = some (got, f)) :
      Monitors md5 guard client { h with fs := f } (eventsSeen (eventMemory got []) got.length 0) known
  | handle {client client' : Client} {h h' : Host F} {l l' : Link UInt8} {out event : Bytes}
      {events : List Bytes} {known : Dir → Prop}
      (before : Monitors md5 guard client h (event :: events) known) (meets : guard h.fs event)
      (run : Exec host ⟨handleEvent md5 event client, h, l⟩ out ⟨ret client', h', l'⟩) :
      Monitors md5 guard client' h' events fun d => known d ∨ D.Announces h.fs event d
  -- what other processes do
  | elsewhere {client : Client} {h : Host F} {events : List Bytes} {known : Dir → Prop} {f : F}
      (before : Monitors md5 guard client h events known) (passes : D.Passes h.fs f)
      (continues : D.Continues Directories.noneLost h.fs f) :
      Monitors md5 guard client { h with fs := f } events known

def Directories.Covered (f : F) (known : Dir → Prop) : Prop :=
  ∀ d, known d → D.present f d → ∃ wd, D.watched f wd d

-- The deletion of a directory, reported by a watch that is still active.
def Directories.Unwatches (f : F) (event : Bytes) : Prop :=
  eventHas event inDelete = true ∧ eventHas event inIsdir = true ∧ ∃ d, D.watched f (eventWd event).toNat d

end Reachable

section Steps

variable {F : Type} {D : Directories F} {lost : Nat → Prop} {f f' f'' : F}

theorem Directories.Continues.trans (hfirst : D.Continues lost f f') (hnext : D.Continues lost f' f'')
    (hborn : ∀ wd d, D.watched f wd d → D.born f d) : D.Continues lost f f'' where
  born d hd := hnext.born d (hfirst.born d hd)
  present d hd hpresent := hfirst.present d hd (hnext.present d (hfirst.born d hd) hpresent)
  given wd p hwd := hnext.given wd p (hfirst.given wd p hwd)
  watched wd d hkept hwd hpresent := hnext.watched wd d hkept
    (hfirst.watched wd d hkept hwd (hnext.present d (hfirst.born d (hborn wd d hwd)) hpresent)) hpresent

theorem Directories.Continues.weaken {lost' : Nat → Prop} (h : D.Continues lost f f')
    (hlost : ∀ wd, lost wd → lost' wd) : D.Continues lost' f f' :=
  ⟨h.born, h.present, h.given, fun wd d hkept => h.watched wd d fun hwd => hkept (hlost wd hwd)⟩

theorem Directories.Continues.refl (f : F) : D.Continues lost f f :=
  ⟨fun _ h => h, fun _ _ h => h, fun _ _ h => h, fun _ _ _ h _ => h⟩

end Steps

section Handling

variable {F : Type} [Posix F] {D : Directories F} {md5 : Bytes → Mem 16} {client : Client}
  {event epath : Bytes} {h : Host F} {l : Link UInt8} {known : Dir → Prop}

-- The descriptor whose watch the handling of an event removes.
def Removed (event : Bytes) (wd : Nat) : Prop :=
  eventHas event inDelete = true ∧ eventHas event inIsdir = true ∧ (wd : Int) = eventWd event

-- How far the handling of an event has come from `f`: the directories of `made` are
-- watched by now.
structure Handles (D : Directories F) (event : Bytes) (made : Dir → Prop) (f f' : F) : Prop where
  ok : D.ok f'
  continues : D.Continues (Removed event) f f'
  born : ∀ d, made d → D.born f d
  covered : ∀ d, made d → D.present f' d → ∃ wd, ¬Removed event wd ∧ D.watched f' wd d

variable {made : Dir → Prop} {f f' f'' : F}

omit [Posix F] in
theorem Handles.step (hborn : ∀ wd d, D.watched f wd d → D.born f d) (hhandles : Handles D event made f f')
    (hok : D.ok f'') (hnext : D.Continues (Removed event) f' f'') : Handles D event made f f'' where
  ok := hok
  continues := hhandles.continues.trans hnext hborn
  born := hhandles.born
  covered d hd hpresent := by
    have hbefore := hnext.present d (hhandles.continues.born d (hhandles.born d hd)) hpresent
    obtain ⟨wd, hkept, hwd⟩ := hhandles.covered d hd hbefore
    exact ⟨wd, hkept, hnext.watched wd d hkept hwd hpresent⟩

theorem keeps_handles (hD : D.Lawful) (hok : D.ok f) :
    Keeps host NoWatch fun h : Host F => Handles D event made f h.fs := by
  intro ι op h r h' hop hhandles hexec
  have hpasses := hD.base.keeps op h r h' (by cases op <;> trivial) hhandles.ok hexec
  exact hhandles.step (fun wd d => hD.born_of_watched f wd d hok) hpasses.1
    ((hD.keeps op h r h' hop hhandles.ok hexec).weaken fun _ => False.elim)

theorem ends_handles {α : Type} {p : Code α} (hD : D.Lawful) (hok : D.ok f) (hp : p.NoWatch)
    (hhandles : Handles D event made f h.fs) :
    Ends host p h l fun _ h' _ => Handles D event made f h'.fs :=
  ends_calls (keeps_handles hD hok) hp hhandles

theorem ends_onDelete (hD : D.Lawful) (hok : D.ok f) (hhandles : Handles D event made f h.fs) :
    Ends host (onDelete event epath) h l fun _ h' _ => Handles D event made f h'.fs := by
  unfold onDelete
  split_ifs with hdelete hisdir
  · refine along_bind ((ends_handles hD hok calls_sendRm hhandles).mono fun _ h l hhandles => ?_)
    refine along_bind (along_sys trivial fun r h' hexec => along_ret ?_)
    obtain ⟨-, rfl⟩ := Prod.mk.inj (Option.some.inj hexec)
    have hpasses := hD.base.keeps (.rmWatch (eventWd event)) h _ _ trivial hhandles.ok rfl
    exact hhandles.step (fun wd d => hD.born_of_watched f wd d hok) hpasses.1
      ((hD.removes h.fs (eventWd event) hhandles.ok).weaken fun wd hwd => ⟨hdelete, hisdir, hwd⟩)
  · exact along_bind ((ends_handles hD hok calls_sendRm hhandles).mono fun _ _ _ h => along_ret h)
  · exact along_ret hhandles

omit [Posix F] in
theorem Directories.Announces.spelling {d : Dir} (hannounces : D.Announces f event d)
    (hnamed : D.Named client f) :
    eventPathOf client (eventWd event).toNat (eventName event) = watchName d.path := by
  obtain ⟨-, -, p, n, hgiven, hname, hpath⟩ := hannounces
  rw [eventPathOf, hnamed.2 _ p hgiven, hname, hpath, watchName_snoc, List.append_assoc]
  rfl

-- The directory that an event is about is not the one that reports it.
omit [Posix F] in
theorem Directories.Announces.reporter {d : Dir} {wd : Nat} (hannounces : D.Announces f event d)
    (hcontinues : D.Continues lost f f') (hgiven : D.given f' wd = some d.path) : ¬Removed event wd := by
  rintro ⟨-, -, hwd⟩
  obtain ⟨-, -, p, n, hreporter, -, hpath⟩ := hannounces
  have hkept := hcontinues.given _ p hreporter
  rw [← hwd, Int.toNat_natCast, hgiven, hpath] at hkept
  have hlength := congrArg List.length (Option.some.inj hkept)
  simp at hlength

-- A directory that is there when its creation is handled gets a watch.
theorem ends_onCreate (hD : D.Lawful) (hlocated : Located client event) (hnamed : D.Named client h.fs)
    (hepath : epath = eventPathOf client (eventWd event).toNat (eventName event)) :
    Ends host (onCreate md5 event (((Posix.lstat h.fs epath).map Subtype.val).getD (zeros sizeofStat)) epath
      client) h l fun _ h' _ => Handles D event (D.Announces h.fs event) h.fs h'.fs := by
  have hstart : Handles D event (fun _ => False) h.fs h.fs :=
    ⟨hnamed.1, .refl _, fun _ => False.elim, fun _ => False.elim⟩
  unfold onCreate
  by_cases hflag : eventHas event inCreate = true
  · rw [if_pos hflag]
    refine along_bind ((ends_handles hD hnamed.1 (calls_syncFile noWatch_sends) hstart).mono
      fun _ h' l hsynced => ?_)
    split_ifs with hdir
    · refine along_bind (along_sys trivial fun wd h'' hexec => ?_)
      refine along_bind (ends_checkSize fun hfits => along_ret ?_)
      obtain ⟨hadded, rfl⟩ := Prod.mk.inj (Option.some.inj hexec)
      obtain ⟨q, hq⟩ := hlocated.spelled hflag
      rw [← hepath] at hq
      subst hq
      have hadd : Posix.addWatch h'.fs (watchName q) = (wd, (Posix.addWatch h'.fs (watchName q)).2) :=
        Prod.ext hadded rfl
      obtain ⟨hok, -⟩ := hD.base.adds h'.fs q wd _ hsynced.ok hadd hfits.1
      obtain ⟨hnext, hgiven, hwatched⟩ := hD.adds h'.fs q wd _ hsynced.ok hadd hfits.1
      have hdone := hsynced.step (fun wd d => hD.born_of_watched h.fs wd d hnamed.1) hok
        (hnext.weaken fun _ => False.elim)
      refine ⟨hok, hdone.continues, fun d hd => hd.2.1, fun d hd hpresent => ⟨wd.toNat, ?_, ?_⟩⟩
      · have hpath := watchName_injective (hepath.trans (hd.spelling hnamed))
        exact hd.reporter hdone.continues (hgiven.trans (congrArg some hpath))
      · exact hwatched d (hsynced.continues.born d hd.2.1) hpresent
          (watchName_injective (hepath.trans (hd.spelling hnamed))).symm
    · refine along_ret ⟨hsynced.ok, hsynced.continues, fun d hd => hd.2.1, fun d hd hpresent => ?_⟩
      obtain ⟨st, hst, hisdir⟩ := hD.stats h.fs d hnamed.1 (hsynced.continues.present d hd.2.1 hpresent)
      rw [hepath, hd.spelling hnamed, hst] at hdir
      exact absurd hisdir hdir
  · rw [if_neg hflag]
    exact along_ret ⟨hnamed.1, .refl _, fun d hd => hd.2.1, fun d hd => absurd hd.1 hflag⟩

theorem ends_handleEvent_handles (hD : D.Lawful) (hlocated : Located client event)
    (hnamed : D.Named client h.fs) :
    Ends host (handleEvent md5 event client) h l fun _ h' _ =>
      Handles D event (D.Announces h.fs event) h.fs h'.fs := by
  rw [handleEvent_eq]
  refine along_bind (ends_checkSize fun _ => along_bind (ends_checkSize fun _ => ?_))
  refine along_bind (ends_checkSize fun _ => along_bind (along_sys trivial fun found h' hexec => ?_))
  obtain ⟨rfl, rfl⟩ := Prod.mk.inj (Option.some.inj hexec)
  refine along_bind ((ends_onCreate hD hlocated hnamed rfl).mono fun _ h' l hhandles => ?_)
  refine along_bind ((ends_onDelete hD hnamed.1 hhandles).mono fun _ h' l hhandles => ?_)
  refine along_bind ((ends_handles hD hnamed.1 (calls_onChange noWatch_sends) hhandles).mono
    fun _ h' l hhandles => ?_)
  refine along_bind ((ends_handles hD hnamed.1 (calls_onChange noWatch_sends) hhandles).mono
    fun _ h' l hhandles => ?_)
  exact along_ret hhandles

end Handling

section Runs

variable {F : Type} [Posix F] {D : Directories F} {md5 : Bytes → Mem 16} {client : Client} {h : Host F}
  {events : List Bytes} {known : Dir → Prop}

-- What every state of a run has that does not unwatch a directory.
structure Monitored (D : Directories F) (client : Client) (f : F) (events : List Bytes)
    (known : Dir → Prop) : Prop where
  named : D.Named client f
  located : ∀ event ∈ events, Located client event
  born : ∀ d, known d → D.born f d
  covered : D.Covered f known

omit [Posix F] in
theorem Monitored.passes {f f' : F} (hmonitored : Monitored D client f events known)
    (hpasses : D.Passes f f') (hcontinues : D.Continues Directories.noneLost f f') :
    Monitored D client f' events known where
  named := hmonitored.named.passes hpasses
  located := hmonitored.located
  born d hd := hcontinues.born d (hmonitored.born d hd)
  covered d hd hpresent := by
    obtain ⟨wd, hwd⟩ := hmonitored.covered d hd (hcontinues.present d (hmonitored.born d hd) hpresent)
    exact ⟨wd, hcontinues.watched wd d id hwd hpresent⟩

omit [Posix F] in
theorem Monitored.handle {client' : Client} {h' : Host F} {event : Bytes}
    (hmonitored : Monitored D client h.fs (event :: events) known)
    (hharmless : ¬D.Unwatches h.fs event) (hgrows : D.Grows client client' h'.fs)
    (hhandles : Handles D event (D.Announces h.fs event) h.fs h'.fs) :
    Monitored D client' h'.fs events fun d => known d ∨ D.Announces h.fs event d where
  named := hgrows.named
  located e he hflag := by
    obtain ⟨hname, hspelled⟩ := hmonitored.located e (List.mem_cons_of_mem _ he) hflag
    exact ⟨hname, hgrows.spelled _ hspelled⟩
  born d hd := by
    rcases hd with hd | hd
    · exact hhandles.continues.born d (hmonitored.born d hd)
    · exact hhandles.continues.born d hd.2.1
  covered d hd hpresent := by
    rcases hd with hd | hd
    · have hbefore := hhandles.continues.present d (hmonitored.born d hd) hpresent
      obtain ⟨wd, hwd⟩ := hmonitored.covered d hd hbefore
      refine ⟨wd, hhandles.continues.watched wd d ?_ hwd hpresent⟩
      rintro ⟨hdelete, hisdir, heq⟩
      refine hharmless ⟨hdelete, hisdir, d, ?_⟩
      rwa [← heq, Int.toNat_natCast]
    · obtain ⟨wd, -, hwd⟩ := hhandles.covered d hd hpresent
      exact ⟨wd, hwd⟩

-- In a run in which no deletion of a directory is reported by an active watch, every
-- directory that is there and known is watched.
theorem monitored_of_monitors (hD : D.Lawful)
    (hreach : Monitors D md5 (fun f event => ¬D.Unwatches f event) client h events known) :
    Monitored D client h.fs events known := by
  induction hreach with
  | start named whole => exact
    ⟨named, by simp, fun d => hD.born_of_present _ d named.1, fun d hd _ => whole d hd⟩
  | @read client h known got f before run ih =>
      have hexec : Host.exec (.readEvents eventBufLen) h = some (got, { h with fs := f }) := by
        simp [Host.exec, run, Host.set]
      have hpasses := hD.base.keeps (.readEvents eventBufLen) h got _ trivial ih.named.1 hexec
      have hcontinues := hD.keeps (.readEvents eventBufLen) h got _ trivial ih.named.1 hexec
      have hpassed := ih.passes hpasses hcontinues
      exact { hpassed with located := located_read hD.base ih.named.1 hpassed.named run }
  | @handle client client' h h' l l' out event events known before meets run ih =>
      have hlocated := ih.located event (List.mem_cons_self ..)
      exact ih.handle meets ((ends_handleEvent hD.base hlocated ih.named).returns run)
        ((ends_handleEvent_handles hD hlocated ih.named).returns run)
  | elsewhere before passes continues ih => exact ih.passes passes continues

end Runs

namespace DirFs

section Laws

variable {fs : DirFs} {wd : Nat} {d : Dir}

def directories : Directories DirFs where
  toInotify := inotify
  present fs d := d ∈ fs.dirs
  born fs d := d.generation < fs.nextGeneration
  watched fs wd d := wd ∈ fs.active ∧ fs.givenFor wd = some d

theorem continues_of_same {fs' : DirFs} {lost : Nat → Prop} (hfollows : Follows fs fs')
    (hwatches : ∀ wd d, fs.givenFor wd = some d → fs'.givenFor wd = some d)
    (hactive : ∀ wd ∈ fs.active, ¬lost wd → wd ∈ fs'.active) : directories.Continues lost fs fs' where
  born d hd := by
    change d.generation < fs'.nextGeneration
    rwa [hfollows.next]
  present d _ hd := by
    change d ∈ fs.dirs
    rw [← hfollows.dirs]
    exact hd
  given wd p hwd := by
    obtain ⟨d, hd, rfl⟩ := Option.map_eq_some_iff.mp hwd
    exact Option.map_eq_some_iff.mpr ⟨d, hwatches wd d hd, rfl⟩
  watched wd d hkept hwd _ := ⟨hactive wd hwd.1 hkept, hwatches wd d hwd.2⟩

theorem watch_active (fs : DirFs) (d : Dir) :
    (∀ wd ∈ fs.active, wd ∈ (fs.watch d).2.active) ∧ (fs.watch d).1.toNat ∈ (fs.watch d).2.active := by
  unfold watch
  cases hwd : fs.descriptor d with
  | some wd => exact ⟨fun _ h => h, (descriptor_given hwd).1⟩
  | none => exact ⟨fun wd h => List.mem_append_left _ h,
    List.mem_append_right _ (List.mem_singleton.mpr rfl)⟩

-- A new descriptor is not one of the old ones.
theorem watch_keeps (fs : DirFs) (d e : Dir) (wd : Nat) (hwd : fs.givenFor wd = some e) :
    (fs.watch d).2.givenFor wd = some e := by
  unfold watch
  cases fs.descriptor d with
  | some n => exact hwd
  | none =>
      have hold : wd ≠ fs.watches.length + 1 := by
        rintro rfl
        simp [givenFor] at hwd
      rw [givenFor_append, if_neg hold]
      exact hwd

theorem unwatch_active (fs : DirFs) (wd : Int) :
    ∀ n ∈ fs.active, ¬(n : Int) = wd → n ∈ (fs.unwatch wd).2.active := by
  intro n hn hne
  unfold unwatch
  split_ifs with hwd
  · exact List.mem_filter.mpr ⟨hn, by simpa using fun heq : n = wd.toNat => hne (by omega)⟩
  · exact hn

theorem born_of_given (hsound : fs.Sound) (hd : fs.givenFor wd = some d) :
    d.generation < fs.nextGeneration := by
  unfold givenFor at hd
  split_ifs at hd
  exact hsound.watchesBorn d (List.mem_of_getElem? hd)

theorem dir_of_path (hsound : fs.Sound) {e : Dir} (hd : d ∈ fs.dirs) (he : e ∈ fs.dirs)
    (hpath : d.path = e.path) : d = e :=
  List.inj_on_of_nodup_map hsound.single hd he hpath

theorem directories_lawful : directories.Lawful where
  base := inotify_lawful
  born_of_present _ d hsound hd := Sound.dirsBorn hsound d hd
  born_of_watched _ _ _ hsound hd := born_of_given hsound hd.2
  keeps op h r h' hop _ hexec := by
    rcases exec_noWatch op h r h' hop hexec with heq | heq <;> rw [heq]
    · exact .refl _
    · exact continues_of_same ⟨rfl, rfl, fun _ hevent => by simp at hevent⟩ (fun _ _ h => h) fun _ h _ => h
  adds f p wd f' hsound hadd hwd := by
    obtain ⟨d, hmem, rfl, hwatch⟩ := addWatch_eq hadd hwd
    obtain rfl : f' = (f.watch d).2 := by rw [hwatch]
    obtain rfl : wd = (f.watch d).1 := by rw [hwatch]
    obtain ⟨n, hn, hgiven⟩ := watch_given f d
    have hown : (f.watch d).2.givenFor (f.watch d).1.toNat = some d := by
      rw [hgiven, hn, Int.toNat_natCast, if_pos rfl]
    refine ⟨continues_of_same (follows_watch f d) (fun wd e => watch_keeps f d e wd) fun wd hwd _ =>
      (watch_active f d).1 wd hwd,
      Option.map_eq_some_iff.mpr ⟨d, hown, rfl⟩, fun e _ he hpath => ⟨(watch_active f d).2, ?_⟩⟩
    change e ∈ (f.watch d).2.dirs at he
    rw [(follows_watch f d).dirs] at he
    rw [dir_of_path hsound he hmem hpath]
    exact hown
  removes f wd _ := continues_of_same (follows_unwatch f wd)
    (fun n d hd => (congrArg (fun watches => if n = 0 then none else watches[n - 1]?)
      (unwatch_watches f wd)).trans hd) (unwatch_active f wd)
  stats f d _ hd := by
    have hfound : f.find (watchName d.path) ≠ none := fun hnone => by
      have hall := List.find?_eq_none.mp hnone d hd
      simp at hall
    obtain ⟨e, he⟩ := Option.ne_none_iff_exists'.mp hfound
    have hdir : sIsDir (stMode (TreeFs.mkStat 0 2 { kind := .dir, atime := 0, mtime := 0 }).val) =
        true := by
      decide +kernel
    exact ⟨_, congrArg (Option.map fun _ =>
      TreeFs.mkStat 0 2 { kind := .dir, atime := 0, mtime := 0 }) he, hdir⟩

end Laws

end DirFs

section Example

-- An entry "a" of the directory of watch 1.
def eventOfA (mask : Nat) : InotifyEvent where
  wd := 1
  mask
  cookie := 0
  name := ⟨[0x61], by decide +kernel⟩
  pad := 15
  fits := by decide
  padded := by decide

def rootDir : Dir := ⟨[], 0⟩

def childDir : Dir := ⟨[dirA], 1⟩

def hostOf (fs : DirFs) : Host DirFs where
  fs
  garbage _ _ := 0xaa
  locals := 0
  notices := []

-- The root is watch 1 and "a" is watch 2.
def watchingClient : Client :=
  { Pull.exampleClient with eventPath := fun wd => watchName (if wd = 2 then [dirA] else []) }

def afterEvent (mask : Nat) (fs : DirFs) (answers : Nat) : Proc Sys UInt8 Fault (Host DirFs) Client :=
  (evaluate host 60 ⟨handleEvent Session.md5OfX (eventOfA mask).alone watchingClient, hostOf fs,
    ⟨zeros answers, false⟩⟩).2

theorem exec_afterEvent {mask answers : Nat} {fs : DirFs} {client : Client}
    (h : (afterEvent mask fs answers).result = some client) : ∃ out,
      Exec host ⟨handleEvent Session.md5OfX (eventOfA mask).alone watchingClient, hostOf fs,
        ⟨zeros answers, false⟩⟩
        out ⟨ret client, (afterEvent mask fs answers).state, (afterEvent mask fs answers).link⟩ := by
  unfold afterEvent at h ⊢
  exact ⟨_, exec_result h⟩

theorem eventsSeen_eventOfA (mask : Nat) :
    eventsSeen (eventMemory (layout [eventOfA mask]) []) (layout [eventOfA mask]).length 0 =
      [(eventOfA mask).alone] :=
  (eventsSeen_memory [eventOfA mask] []).mpr fun h => by cases h

-- Both directories are there and watched, and then "a" is removed.
def beforeRmdir : DirFs where
  dirs := [rootDir, childDir]
  nextGeneration := 2
  watches := [rootDir, childDir]
  active := [1, 2]
  queue := []

def afterRmdir : DirFs :=
  { beforeRmdir with dirs := [rootDir], active := [1], queue := [eventOfA (inDelete ||| inIsdir)] }

-- The root alone is there and watched, and then "a" is made.
def beforeMkdir : DirFs where
  dirs := [rootDir]
  nextGeneration := 1
  watches := [rootDir]
  active := [1]
  queue := []

def afterMkdir : DirFs :=
  { beforeMkdir with
    dirs := [rootDir, childDir], nextGeneration := 2, queue := [eventOfA (inCreate ||| inIsdir)] }

-- One change, reported by one event, and the handling of that.
theorem monitors_event (guard : DirFs → Bytes → Prop) {before after : DirFs} {mask : Nat} {client : Client}
    {h : Host DirFs} {l l' : Link UInt8} {out : Bytes}
    (hnamed : DirFs.directories.Named watchingClient before)
    (hwhole : ∀ d ∈ before.dirs, ∃ wd, wd ∈ before.active ∧ before.givenFor wd = some d)
    (hpasses : DirFs.directories.Passes before after)
    (hcontinues : DirFs.directories.Continues Directories.noneLost before after)
    (hqueue : after.queue = [eventOfA mask])
    (hguard : guard { after with queue := [] } (eventOfA mask).alone)
    (hrun : Exec host ⟨handleEvent Session.md5OfX (eventOfA mask).alone watchingClient,
      hostOf { after with queue := [] }, l⟩ out ⟨ret client, h, l'⟩) :
    Monitors DirFs.directories Session.md5OfX guard client h [] fun d =>
      d ∈ before.dirs ∨ DirFs.directories.Announces { after with queue := [] } (eventOfA mask).alone d := by
  have hstart : Monitors DirFs.directories Session.md5OfX guard watchingClient (hostOf before) [] _ :=
    .start hnamed hwhole
  have hlayout : (layout [eventOfA mask]).length = 32 := by
    simp [layout, InotifyEvent.bytes_length, InotifyEvent.len, eventOfA, eventSize]
  have hread : Posix.readEvents after eventBufLen =
      some (layout [eventOfA mask], { after with queue := [] }) := by
    simp only [Posix.readEvents, hqueue]
    refine if_neg ?_
    rw [hlayout]
    rintro (hempty | hsmall)
    · cases hempty
    · exact absurd hsmall (by decide)
  have hevents := (hstart.elsewhere hpasses hcontinues).read hread
  rw [eventsSeen_eventOfA] at hevents
  exact hevents.handle hguard hrun

theorem watchingClient_named {fs : DirFs} (hsound : fs.Sound)
    (hgiven : ∀ wd d, fs.givenFor wd = some d → d.path = if wd = 2 then [dirA] else []) :
    DirFs.directories.Named watchingClient fs := by
  refine ⟨hsound, fun wd p hwd => ?_⟩
  obtain ⟨d, hd, rfl⟩ := Option.map_eq_some_iff.mp hwd
  rw [hgiven wd d hd]
  rfl

theorem givenFor_two {fs : DirFs} (hwatches : fs.watches = [rootDir, childDir]) {wd : Nat} {d : Dir}
    (hd : fs.givenFor wd = some d) : wd = 1 ∧ d = rootDir ∨ wd = 2 ∧ d = childDir := by
  unfold DirFs.givenFor at hd
  rw [hwatches] at hd
  match wd with
  | 0 => simp at hd
  | 1 => exact .inl ⟨rfl, (by simpa using hd : rootDir = d).symm⟩
  | 2 => exact .inr ⟨rfl, (by simpa using hd : childDir = d).symm⟩
  | _ + 3 => simp at hd

end Example

-- `inotify_rm_watch` is given the descriptor of the directory that the removed one was in.
theorem rmdir_unwatches_parent : DirFs.directories.Lawful ∧
    ¬∀ client h events known,
      Monitors DirFs.directories Session.md5OfX (fun _ _ => True) client h events known →
        DirFs.directories.Covered h.fs known := by
  refine ⟨DirFs.directories_lawful, fun hall => ?_⟩
  have hcomputed : (afterEvent (inDelete ||| inIsdir)
    { afterRmdir with queue := [] } 12).result.isSome = true ∧
      rootDir ∈ (afterEvent (inDelete ||| inIsdir) { afterRmdir with queue := [] } 12).state.fs.dirs ∧
      (afterEvent (inDelete ||| inIsdir) { afterRmdir with queue := [] } 12).state.fs.active = [] := by
    decide +kernel
  obtain ⟨hresult, hpresent, hnone⟩ := hcomputed
  obtain ⟨client, hclient⟩ := Option.isSome_iff_exists.mp hresult
  obtain ⟨out, hrun⟩ := exec_afterEvent hclient
  have hsound : beforeRmdir.Sound :=
    ⟨by decide +kernel, by decide +kernel, by decide +kernel, by decide +kernel, by simp [beforeRmdir]⟩
  have hnamed : DirFs.directories.Named watchingClient beforeRmdir := by
    refine watchingClient_named hsound fun wd d hd => ?_
    rcases givenFor_two rfl hd with ⟨rfl, rfl⟩ | ⟨rfl, rfl⟩ <;> rfl
  have hsound' : afterRmdir.Sound := by
    refine ⟨by decide +kernel, by decide +kernel, by decide +kernel, by decide +kernel, fun event hevent hflag => ?_⟩
    rw [List.mem_singleton.mp hevent] at hflag
    exact absurd hflag (by decide +kernel)
  have hcontinues : DirFs.directories.Continues Directories.noneLost beforeRmdir afterRmdir := by
    refine ⟨fun _ h => h, fun d _ hd => ?_, fun _ _ h => h, fun wd d _ hwd hd => ⟨?_, hwd.2⟩⟩
    · exact List.mem_cons.mpr (.inl (List.mem_singleton.mp hd))
    · rcases givenFor_two rfl hwd.2 with ⟨rfl, -⟩ | ⟨-, rfl⟩
      · exact List.mem_singleton.mpr rfl
      · exact absurd (List.mem_singleton.mp hd) (by decide)
  have hreach := monitors_event (fun _ _ => True) hnamed (by decide) ⟨hsound', fun _ _ h =>
    h⟩ hcontinues rfl
    trivial hrun
  obtain ⟨wd, hactive, -⟩ := hall _ _ _ _ hreach rootDir (.inl (by decide)) hpresent
  rw [hnone] at hactive
  simp at hactive

-- Without such an event, the directories that exist and are known have their watches.
theorem directories_watched {F : Type} [Posix F] {D : Directories F} (hD : D.Lawful)
    {md5 : Bytes → Mem 16} {client : Client} {h : Host F} {events : List Bytes} {known : Dir → Prop}
    (hreach : Monitors D md5 (fun f event => ¬D.Unwatches f event) client h events known) :
    D.Covered h.fs known :=
  (monitored_of_monitors hD hreach).covered

-- The directory that has been made gets its watch.
theorem directories_watched_mkdir : ∃ client h known,
    Monitors DirFs.directories Session.md5OfX (fun f event =>
      ¬DirFs.directories.Unwatches f event) client h []
      known ∧ known childDir ∧ DirFs.directories.present h.fs childDir ∧
        ∃ wd, DirFs.directories.watched h.fs wd childDir := by
  have hcomputed : (afterEvent (inCreate ||| inIsdir)
    { afterMkdir with queue := [] } 24).result.isSome = true ∧
      childDir ∈ (afterEvent (inCreate ||| inIsdir) { afterMkdir with queue := [] } 24).state.fs.dirs := by
    decide +kernel
  obtain ⟨hresult, hpresent⟩ := hcomputed
  obtain ⟨client, hclient⟩ := Option.isSome_iff_exists.mp hresult
  obtain ⟨out, hrun⟩ := exec_afterEvent hclient
  have hroot : ∀ wd d, beforeMkdir.givenFor wd = some d → wd = 1 ∧ d = rootDir := by
    intro wd d hd
    unfold DirFs.givenFor at hd
    match wd with
    | 0 => simp at hd
    | 1 => exact ⟨rfl, (by simpa [beforeMkdir] using hd : rootDir = d).symm⟩
    | _ + 2 => simp [beforeMkdir] at hd
  have hsound : beforeMkdir.Sound :=
    ⟨by decide +kernel, by decide +kernel, by decide +kernel, by decide +kernel, by simp [beforeMkdir]⟩
  have hnamed : DirFs.directories.Named watchingClient beforeMkdir := by
    refine watchingClient_named hsound fun wd d hd => ?_
    obtain ⟨rfl, rfl⟩ := hroot wd d hd
    rfl
  have hsound' : afterMkdir.Sound := by
    refine ⟨by decide +kernel, by decide +kernel, by decide +kernel, by decide +kernel, fun event hevent _ => ?_⟩
    rw [List.mem_singleton.mp hevent]
    decide +kernel
  have hcontinues : DirFs.directories.Continues Directories.noneLost beforeMkdir afterMkdir := by
    refine ⟨fun d hd => ?_, fun d hborn hd => ?_, fun _ _ h => h, fun _ _ _ hwd _ => hwd⟩
    · exact Nat.lt_succ_of_lt hd
    · rcases List.mem_cons.mp hd with rfl | hchild
      · exact List.mem_singleton.mpr rfl
      · rw [List.mem_singleton.mp hchild] at hborn
        exact (Nat.lt_irrefl 1 hborn).elim
  have hharmless : ¬DirFs.directories.Unwatches { afterMkdir with queue := [] }
      (eventOfA (inCreate ||| inIsdir)).alone := fun h => absurd h.1 (by decide +kernel)
  have hreach := monitors_event (fun f event => ¬DirFs.directories.Unwatches f event) hnamed (by decide)
    ⟨hsound', fun _ _ h => h⟩ hcontinues rfl hharmless hrun
  have hknown : DirFs.directories.Announces { afterMkdir with queue := [] }
      (eventOfA (inCreate ||| inIsdir)).alone childDir :=
    ⟨by decide +kernel, Nat.lt_succ_self 1, [], dirA, by decide +kernel, by decide +kernel, rfl⟩
  exact ⟨_, _, _, hreach, .inr hknown, hpresent,
    directories_watched DirFs.directories_lawful hreach childDir (.inr hknown) hpresent⟩

end Csiebox
