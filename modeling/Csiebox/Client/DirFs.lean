import Csiebox.Client.Watch.Lemmas

namespace Csiebox

open CBytes Program Prog

-- A directory, told from others that are at its path at other times.
structure Dir where
  path : Path
  generation : Nat
deriving DecidableEq

-- A system of directories, as a process sees it whose working directory is the root. Watch
-- descriptor `i + 1` has been given out for `watches[i]`.
structure DirFs where
  dirs : List Dir
  nextGeneration : Nat
  watches : List Dir
  active : List Nat
  queue : List InotifyEvent

namespace DirFs

section Calls

variable (fs : DirFs)

def find (path : Bytes) : Option Dir := fs.dirs.find? fun d => watchName d.path = path

def children (p : Path) : List Dirent :=
  fs.dirs.filterMap fun d =>
    if d.path ≠ [] ∧ d.path.dropLast = p then
      d.path.getLast?.map fun name => { name := ⟨name.val, Name.noNul name⟩, isDir := true }
    else none

-- The descriptor of an active watch.
def descriptor (d : Dir) : Option Nat := fs.active.find? fun wd => wd ≠ 0 ∧ fs.watches[wd - 1]? = some d

def watch (d : Dir) : Int × DirFs :=
  match fs.descriptor d with
  | some wd => (wd, fs)
  | none => (fs.watches.length + 1, { fs with
      watches := fs.watches ++ [d]
      active := fs.active ++ [fs.watches.length + 1] })

-- IN_IGNORED
def ignored (wd : Nat) : InotifyEvent where
  wd
  mask := 0x8000
  cookie := 0
  name := ⟨[], nil_noNul⟩
  pad := 0
  fits := by simp
  padded := nil_unpadded

def unwatch (wd : Int) : Bool × DirFs :=
  if wd.toNat ∈ fs.active ∧ 0 ≤ wd then
    (true, { fs with
      active := fs.active.filter (· ≠ wd.toNat)
      queue := fs.queue ++ [ignored wd.toNat] })
  else (false, fs)

end Calls

-- There are no files to read, and nothing can be made.
instance : Posix DirFs where
  lstat fs path := (fs.find path).map fun _ => TreeFs.mkStat 0 2 { kind := .dir, atime := 0, mtime := 0 }
  readlink _ _ _ := none
  reads _ _ := none
  fopenRead _ _ := none
  fopenWrite _ _ := none
  fwrite fs _ _ := fs
  fclose fs _ := fs
  getlk _ _ fl := { fl with type := .unlck }
  setlk fs _ _ := (true, fs)
  setlkw fs _ _ := some (true, fs)
  mkdir fs _ _ := (false, fs)
  symlink fs _ _ := (false, fs)
  link fs _ _ := (false, fs)
  remove fs _ := (false, fs)
  utime fs _ _ _ := (false, fs)
  chdir fs _ := (false, fs)
  opendir fs path := (fs.dirs.find? fun d => traverseName d.path = path).map fun d => fs.children d.path
  addWatch fs path := match fs.find path with
    | some d => fs.watch d
    | none => (-1, fs)
  rmWatch fs wd := fs.unwatch wd
  readEvents fs size :=
    if fs.queue = [] ∨ size < (layout fs.queue).length then none
    else some (layout fs.queue, { fs with queue := [] })

section Laws

-- Which directory a descriptor was given out for.
def givenFor (fs : DirFs) (wd : Nat) : Option Dir := if wd = 0 then none else fs.watches[wd - 1]?

-- Paths are short and lead to one directory each, generations are numbered in order, and a
-- creation is reported by a watch and under an entry's name.
structure Sound (fs : DirFs) : Prop where
  short : ∀ d ∈ fs.dirs, (watchName d.path).length + 1 < pathMax
  single : (fs.dirs.map Dir.path).Nodup
  dirsBorn : ∀ d ∈ fs.dirs, d.generation < fs.nextGeneration
  watchesBorn : ∀ d ∈ fs.watches, d.generation < fs.nextGeneration
  created : ∀ event ∈ fs.queue, eventHas event.alone inCreate = true →
    ValidName (eventName event.alone) ∧ (fs.givenFor (eventWd event.alone).toNat).isSome

def inotify : Inotify DirFs where
  ok := Sound
  given fs wd := (fs.givenFor wd).map Dir.path

variable {fs : DirFs} {wd : Nat} {d e : Dir} {p : Path}

theorem inotify_given (fs : DirFs) (wd : Nat) : inotify.given fs wd = (fs.givenFor wd).map Dir.path := rfl

theorem find_path (hfound : fs.find (watchName p) = some d) : d ∈ fs.dirs ∧ d.path = p := by
  unfold find at hfound
  have hname := List.find?_some hfound
  exact ⟨List.mem_of_find?_eq_some hfound, watchName_injective (of_decide_eq_true hname)⟩

theorem descriptor_given (hwd : fs.descriptor d = some wd) : wd ∈ fs.active ∧ fs.givenFor wd = some d := by
  have hmem := List.mem_of_find?_eq_some hwd
  have hgiven := List.find?_some hwd
  simp only [ne_eq, decide_eq_true_eq] at hgiven
  exact ⟨hmem, by rw [givenFor, if_neg hgiven.1, hgiven.2]⟩

-- Descriptors are given out once.
theorem givenFor_append (fs : DirFs) (d : Dir) (active : List Nat) (wd : Nat) :
    givenFor { fs with watches := fs.watches ++ [d], active } wd =
      if wd = fs.watches.length + 1 then some d else fs.givenFor wd := by
  unfold givenFor
  by_cases hzero : wd = 0
  · rw [if_pos hzero, if_pos hzero, if_neg (by omega)]
  · rw [if_neg hzero, if_neg hzero, List.getElem?_append]
    split_ifs with hold hnew hnew
    · omega
    · rfl
    · simp [hnew]
    · rw [List.getElem?_eq_none (by simp; omega), List.getElem?_eq_none (by omega)]

-- What adding a watch does to the descriptors.
theorem watch_given (fs : DirFs) (d : Dir) : ∃ wd : Nat, (fs.watch d).1 = wd ∧
    ∀ n, (fs.watch d).2.givenFor n = if n = wd then some d else fs.givenFor n := by
  unfold watch
  cases hwd : fs.descriptor d with
  | some wd =>
      refine ⟨wd, rfl, fun n => ?_⟩
      split_ifs with hn
      · rw [hn]
        exact (descriptor_given hwd).2
      · rfl
  | none => exact ⟨fs.watches.length + 1, rfl, givenFor_append fs d _⟩

theorem watch_watches (fs : DirFs) (d : Dir) :
    (fs.watch d).2.watches = fs.watches ∨ (fs.watch d).2.watches = fs.watches ++ [d] := by
  unfold watch
  cases fs.descriptor d with
  | some wd => exact .inl rfl
  | none => exact .inr rfl

-- What all calls have in common: directories neither come nor go, and no creation is added.
structure Follows (fs fs' : DirFs) : Prop where
  dirs : fs'.dirs = fs.dirs
  next : fs'.nextGeneration = fs.nextGeneration
  queue : ∀ event ∈ fs'.queue, eventHas event.alone inCreate = true → event ∈ fs.queue

theorem Follows.refl (fs : DirFs) : Follows fs fs := ⟨rfl, rfl, fun _ hevent _ => hevent⟩

theorem Follows.sound {fs' : DirFs} (hfollows : Follows fs fs') (hsound : fs.Sound)
    (hwatches : ∀ d ∈ fs'.watches, d ∈ fs.watches ∨ d ∈ fs.dirs)
    (hgiven : ∀ wd, (fs.givenFor wd).isSome → (fs'.givenFor wd).isSome) : fs'.Sound where
  short := by
    rw [hfollows.dirs]
    exact hsound.short
  single := by
    rw [hfollows.dirs]
    exact hsound.single
  dirsBorn := by
    rw [hfollows.dirs, hfollows.next]
    exact hsound.dirsBorn
  watchesBorn d hd := by
    rw [hfollows.next]
    exact (hwatches d hd).elim (hsound.watchesBorn d) (hsound.dirsBorn d)
  created event hevent hflag := by
    obtain ⟨hname, hwd⟩ := hsound.created event (hfollows.queue event hevent hflag) hflag
    exact ⟨hname, hgiven _ hwd⟩

theorem Follows.passes {fs' : DirFs} (hfollows : Follows fs fs') (hsame : fs'.watches = fs.watches)
    (hsound : fs.Sound) : inotify.Passes fs fs' := by
  have hgiven : ∀ wd, fs'.givenFor wd = fs.givenFor wd := fun wd => by rw [givenFor, givenFor, hsame]
  refine ⟨hfollows.sound hsound ?_ ?_, fun wd p hwd => ?_⟩
  · rw [hsame]
    exact fun d => Or.inl
  · intro wd hwd
    rwa [hgiven]
  · rwa [inotify_given, hgiven] at hwd

theorem follows_watch (fs : DirFs) (d : Dir) : Follows fs (fs.watch d).2 := by
  unfold watch
  cases fs.descriptor d <;> exact ⟨rfl, rfl, fun _ hevent _ => hevent⟩

theorem sound_watch (hsound : fs.Sound) (hd : d ∈ fs.dirs) : (fs.watch d).2.Sound := by
  obtain ⟨n, -, hgiven⟩ := watch_given fs d
  refine (follows_watch fs d).sound hsound (fun e he => ?_) fun wd hwd => ?_
  · rcases watch_watches fs d with hsame | hnew
    · exact .inl (hsame ▸ he)
    · rw [hnew, List.mem_append, List.mem_singleton] at he
      rcases he with hold | rfl
      · exact .inl hold
      · exact .inr hd
  · rw [hgiven]
    split_ifs
    · rfl
    · exact hwd

theorem ignored_not_create (wd : Nat) : eventHas (ignored wd).alone inCreate = false := by
  have hmask : (ignored wd).mask = 0x8000 := rfl
  rw [eventHas, InotifyEvent.alone, eventMask_head, hmask]
  decide

theorem follows_unwatch (fs : DirFs) (wd : Int) : Follows fs (fs.unwatch wd).2 := by
  unfold unwatch
  split_ifs
  · refine ⟨rfl, rfl, fun event hevent hflag => ?_⟩
    rcases List.mem_append.mp hevent with hold | hnew
    · exact hold
    · rw [List.mem_singleton.mp hnew, ignored_not_create] at hflag
      cases hflag
  · exact .refl fs

theorem unwatch_watches (fs : DirFs) (wd : Int) : (fs.unwatch wd).2.watches = fs.watches := by
  unfold unwatch
  split_ifs <;> rfl

-- The other calls change nothing but, at most, empty the queue.
theorem exec_noWatch {ι : Type} (op : Sys ι) (h : Host DirFs) (r : ι) (h' : Host DirFs)
    (hop : NoWatch op) (hexec : Host.exec op h = some (r, h')) :
    h'.fs = h.fs ∨ h'.fs = { h.fs with queue := [] } := by
  cases op with
  | addWatch path => exact absurd hop (by simp [NoWatch])
  | rmWatch wd => exact absurd hop (by simp [NoWatch])
  | chdir path => exact absurd hop (by simp [NoWatch])
  | readEvents size =>
      simp only [Host.exec, Posix.readEvents, Option.map_eq_some_iff] at hexec
      obtain ⟨⟨got, f⟩, hread, heq⟩ := hexec
      split_ifs at hread
      obtain ⟨-, rfl⟩ := Prod.mk.inj (Option.some.inj hread)
      obtain ⟨-, rfl⟩ := Prod.mk.inj heq
      exact .inr rfl
  | setlkw fp fl =>
      simp only [Host.exec, Posix.setlkw, Option.map_some, Option.some.injEq] at hexec
      obtain ⟨-, rfl⟩ := Prod.mk.inj hexec
      exact .inl rfl
  | _ =>
      obtain ⟨-, rfl⟩ := Prod.mk.inj (Option.some.inj hexec)
      exact .inl rfl

theorem passes_exec {ι : Type} (op : Sys ι) (h : Host DirFs) (r : ι) (h' : Host DirFs)
    (hop : WatchFree op) (hsound : h.fs.Sound) (hexec : Host.exec op h = some (r, h')) :
    inotify.Passes h.fs h'.fs := by
  have hother : NoWatch op → inotify.Passes h.fs h'.fs := fun hno => by
    rcases exec_noWatch op h r h' hno hexec with heq | heq <;> rw [heq]
    · exact (Follows.refl h.fs).passes rfl hsound
    · exact Follows.passes ⟨rfl, rfl, fun _ hevent => by simp at hevent⟩ rfl hsound
  cases op with
  | addWatch path => exact absurd hop (by simp [WatchFree])
  | chdir path => exact absurd hop (by simp [WatchFree])
  | rmWatch wd =>
      obtain ⟨-, rfl⟩ := Prod.mk.inj (Option.some.inj hexec)
      exact (follows_unwatch h.fs wd).passes (unwatch_watches h.fs wd) hsound
  | _ => exact hother trivial

-- A watch that has been added is on the directory of that path.
theorem addWatch_eq {f f' : DirFs} {wd : Int} (hadd : Posix.addWatch f (watchName p) = (wd, f'))
    (hwd : 0 ≤ wd) :
    ∃ d ∈ f.dirs, d.path = p ∧ f.watch d = (wd, f') := by
  cases hfound : f.find (watchName p) with
  | none =>
      simp only [Posix.addWatch, hfound, Prod.mk.injEq] at hadd
      omega
  | some d =>
      simp only [Posix.addWatch, hfound] at hadd
      obtain ⟨hmem, hpath⟩ := find_path hfound
      exact ⟨d, hmem, hpath, hadd⟩

theorem inotify_lawful : inotify.Lawful where
  keeps op h r h' hop hok hexec := passes_exec op h r h' hop hok hexec
  adds f p wd f' hok hadd hwd := by
    obtain ⟨d, hmem, rfl, hwatch⟩ := addWatch_eq hadd hwd
    obtain ⟨n, hn, hgiven⟩ := watch_given f d
    rw [hwatch] at hn hgiven
    subst hn
    refine ⟨by rw [show f' = (f.watch d).2 by rw [hwatch]]; exact sound_watch hok hmem, fun m q hm => ?_⟩
    rw [inotify_given, hgiven] at hm
    split_ifs at hm with hnew
    · exact .inl ⟨hnew, (Option.some.inj hm).symm⟩
    · exact .inr ⟨hnew, hm⟩
  events f got f' hok hread := by
    change f.Sound at hok
    simp only [Posix.readEvents] at hread
    split_ifs at hread
    obtain ⟨rfl, rfl⟩ := Prod.mk.inj (Option.some.inj hread)
    refine ⟨f.queue, rfl, fun event hevent hflag => ?_⟩
    obtain ⟨hname, hgiven⟩ := hok.created event hevent hflag
    exact ⟨hname, by rw [inotify_given, Option.isSome_map]; exact hgiven⟩

end Laws

end DirFs

end Csiebox
