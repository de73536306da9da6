import Csiebox.Replica.Lemmas

namespace Csiebox.Replica

open CBytes TreeFs

variable {f f' : TreeFs} {cwd p q : Path} {dirs : List Path} {on on' : Set Path} {client : Client}

section Calls

theorem isFree_false (hkind : f.kind q ≠ none) : f.isFree q = false := by
  rw [isFree_eq]
  cases hk : f.kind q with
  | none => exact absurd hk hkind
  | some k => rfl

theorem addWatchAt_known (hkind : f.kind q ≠ none) (hpaths : (f.watches.map Prod.snd).Nodup)
    {w : Nat × Path} (hw : w ∈ f.watches) (hq : w.2 = q) : f.addWatchAt q = ((w.1 : Int), f) := by
  have hfree := isFree_false hkind
  have hfind : f.watches.find? (fun w => w.2 = q) = some w := by
    cases hfound : f.watches.find? fun w => w.2 = q with
    | none => exact absurd hq (by simpa using List.find?_eq_none.mp hfound w hw)
    | some v =>
        have hv : v.2 = w.2 := by
          rw [hq]
          simpa using List.find?_some hfound
        rw [List.inj_on_of_nodup_map hpaths (List.mem_of_find?_eq_some hfound) hw hv]
  simp [addWatchAt, hfree, hfind]

theorem addWatchAt_new (hkind : f.kind q ≠ none) (hnew : ∀ w ∈ f.watches, w.2 ≠ q) :
    f.addWatchAt q = ((f.nextWd : Int), { f with
      watches := f.watches ++ [(f.nextWd, q)]
      nextWd := f.nextWd + 1 }) := by
  have hfree := isFree_false hkind
  have hfind : f.watches.find? (fun w => w.2 = q) = none := by
    rw [List.find?_eq_none]
    exact fun w hw => by simpa using hnew w hw
  simp [addWatchAt, hfree, hfind]

end Calls

theorem Watching.start (hf : Unwatched f) (cwd : Path) (dirs : List Path) (client : Client) :
    Watching cwd dirs ∅ client f where
  next := by rw [hf.nextWd, hf.watches]; rfl
  given := by simp [hf.watches]
  wds := by simp [hf.watches]
  paths := by simp [hf.watches]
  room := by rw [hf.nextWd]; decide
  named := by simp [hf.watches]
  covers := by simp

theorem Watching.mono (h : Watching cwd dirs on client f) (hset : ∀ p ∈ on', p ∈ dirs → p ∈ on) :
    Watching cwd dirs on' client f :=
  { h with covers := fun p hp hdir => h.covers p (hset p hp hdir) hdir }

-- Watched directories are directories of the tree, each one counted once.
theorem Watching.length_lt (h : Watching cwd dirs on client f) (hp : p ∈ dirs)
    (hnew : ∀ w ∈ f.watches, w.2 ≠ cwd ++ p) : f.watches.length < dirs.length := by
  have hnodup : ((cwd ++ p) :: f.watches.map Prod.snd).Nodup := by
    refine List.nodup_cons.mpr ⟨fun hmem => ?_, h.paths⟩
    obtain ⟨w, hw, heq⟩ := List.mem_map.mp hmem
    exact hnew w hw heq
  have hsub : (cwd ++ p) :: f.watches.map Prod.snd ⊆ dirs.map (cwd ++ ·) := by
    intro q hq
    rcases List.mem_cons.mp hq with rfl | hq
    · exact List.mem_map_of_mem hp
    · obtain ⟨w, hw, rfl⟩ := List.mem_map.mp hq
      obtain ⟨r, hr, hpath, -⟩ := h.named w hw
      rw [hpath]
      exact List.mem_map_of_mem hr
  have hlen := (List.subperm_of_subset hnodup hsub).length_le
  simp only [List.length_cons, List.length_map] at hlen
  omega

-- When every directory is watched, the table has had room for all.
theorem Watching.full (h : Watching cwd dirs on client f) (hdirs : dirs.Nodup) (hon : ∀ p ∈ dirs, p ∈ on) :
    dirs.length < maxWatches := by
  have hnodup : (dirs.map (cwd ++ ·)).Nodup := hdirs.map (List.append_right_injective cwd)
  have hsub : dirs.map (cwd ++ ·) ⊆ f.watches.map Prod.snd := by
    intro q hq
    obtain ⟨p, hp, rfl⟩ := List.mem_map.mp hq
    obtain ⟨w, hw, heq⟩ := h.covers p (hon p hp) hp
    exact List.mem_map.mpr ⟨w, hw, heq⟩
  have hlen := (List.subperm_of_subset hnodup hsub).length_le
  have hroom := h.room
  rw [h.next] at hroom
  simp only [List.length_map] at hlen
  omega

-- `inotify_add_watch` and `strcpy` for a directory that may be watched already. The
-- descriptor is too large only when there are too many directories.
theorem Watching.watch (h : Watching cwd dirs on client f) (hp : p ∈ dirs)
    (hkind : f.kind (cwd ++ p) ≠ none) :
    ∃ wd : Nat, (f.addWatchAt (cwd ++ p)).1 = wd ∧
      (wd < maxWatches → Watching cwd dirs (insert p on)
        { client with eventPath := Function.update client.eventPath wd (joined [dot] p) }
        (f.addWatchAt (cwd ++ p)).2) ∧
      (¬wd < maxWatches → maxWatches ≤ dirs.length) := by
  by_cases hknown : ∃ w ∈ f.watches, w.2 = cwd ++ p
  · obtain ⟨w, hw, hpath⟩ := hknown
    refine ⟨w.1, by rw [addWatchAt_known hkind h.paths hw hpath], fun _ => ?_, fun hbig => ?_⟩
    · rw [addWatchAt_known hkind h.paths hw hpath]
      refine { h with named := fun v hv => ?_, covers := fun r hr hdir => ?_ }
      · by_cases hvw : v.1 = w.1
        · have hsame := List.inj_on_of_nodup_map h.wds hv hw hvw
          exact ⟨p, hp, by rw [hsame, hpath], by simp [hvw]⟩
        · obtain ⟨r, hr, hrpath, hname⟩ := h.named v hv
          exact ⟨r, hr, hrpath, by rw [← hname]; exact Function.update_of_ne hvw ..⟩
      · rcases hr with rfl | hr
        · exact ⟨w, hw, hpath⟩
        · exact h.covers r hr hdir
    · have hgiven := h.given w hw
      have hroom := h.room
      omega
  · have hnew : ∀ w ∈ f.watches, w.2 ≠ cwd ++ p := fun w hw heq => hknown ⟨w, hw, heq⟩
    have hlen := h.length_lt hp hnew
    refine ⟨f.nextWd, by rw [addWatchAt_new hkind hnew], fun hsmall => ?_, fun hbig => ?_⟩
    · rw [addWatchAt_new hkind hnew]
      constructor
      · rw [List.length_append, List.length_singleton, h.next]
      · intro w hw
        rcases List.mem_append.mp hw with hw | hw
        · exact Nat.lt_succ_of_lt (h.given w hw)
        · rw [List.mem_singleton.mp hw]
          exact Nat.lt_succ_self _
      · rw [List.map_append, List.nodup_append]
        refine ⟨h.wds, by simp, fun a ha b hb hab => ?_⟩
        obtain ⟨w, hw, rfl⟩ := List.mem_map.mp ha
        simp only [List.map_cons, List.map_nil, List.mem_singleton] at hb
        have hgiven := h.given w hw
        omega
      · rw [List.map_append, List.nodup_append]
        refine ⟨h.paths, by simp, fun a ha b hb hab => ?_⟩
        obtain ⟨w, hw, rfl⟩ := List.mem_map.mp ha
        simp only [List.map_cons, List.map_nil, List.mem_singleton] at hb
        exact hnew w hw (hab.trans hb)
      · exact hsmall
      · intro w hw
        rcases List.mem_append.mp hw with hw | hw
        · obtain ⟨r, hr, hrpath, hname⟩ := h.named w hw
          have hgiven := h.given w hw
          refine ⟨r, hr, hrpath, ?_⟩
          rw [← hname]
          exact Function.update_of_ne (by omega) ..
        · rw [List.mem_singleton.mp hw]
          exact ⟨p, hp, rfl, Function.update_self ..⟩
      · intro r hr hdir
        rcases hr with rfl | hr
        · exact ⟨(f.nextWd, cwd ++ r), by simp, rfl⟩
        · obtain ⟨w, hw, heq⟩ := h.covers r hr hdir
          exact ⟨w, List.mem_append_left _ hw, heq⟩
    · have hnext := h.next
      omega

end Csiebox.Replica
