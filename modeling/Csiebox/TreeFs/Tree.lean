import Csiebox.TreeFs.Paths
import Mathlib.Data.List.Nodup

namespace Csiebox.TreeFs

open CBytes

section Changes

variable {fs fs' : TreeFs} {p q : Path} {i : Nat} {k : Kind}

theorem lookup_of_mem (hfs : fs.Plain) (h : (p, i) ∈ fs.entries) : fs.entries.lookup p = some i := by
  have hnodup := hfs.paths
  clear hfs
  revert h hnodup
  induction fs.entries with
  | nil => simp
  | cons e entries ih =>
      intro h hnodup
      rw [List.map_cons, List.nodup_cons] at hnodup
      rcases List.mem_cons.mp h with rfl | h
      · simp
      · have hne : p ≠ e.1 := fun heq => hnodup.1 (heq ▸ List.mem_map_of_mem (f := Prod.fst) h)
        rw [List.lookup_cons, beq_false_of_ne hne]
        exact ih h hnodup.2

theorem Plain.ne_nil (hfs : fs.Plain) (h : fs.entries.lookup p = some i) : p ≠ [] :=
  (hfs.parents _ (mem_of_lookup h)).1

-- An inode is found under one path.
theorem Plain.one_path (hfs : fs.Plain) (hp : fs.entries.lookup p = some i)
    (hq : fs.entries.lookup q = some i) : p = q := by
  have hmem := mem_of_lookup hp
  have hmem' := mem_of_lookup hq
  exact congrArg Prod.fst (List.inj_on_of_nodup_map hfs.inodes hmem hmem' rfl)

theorem kind_create_eq (hfs : fs.Allocated) (hfree : fs.kind p = none) (k : Kind) :
    (fs.create p k).kind = Function.update fs.kind p (some k) := by
  funext q
  by_cases hq : q = p
  · rw [hq, Function.update_self]
    exact kind_create hfree k
  rw [Function.update_of_ne hq]
  by_cases hnil : q = []
  · rw [hnil]
    rfl
  rw [kind_eq hnil, kind_eq hnil]
  simp only [create, enter, List.lookup_append]
  cases hlookup : fs.entries.lookup q with
  | none => simp [List.lookup_cons, beq_false_of_ne hq]
  | some j => simp [Function.update_of_ne (lookup_allocated hfs hlookup).ne]

-- Only the kinds decide what is a directory.
theorem Plain.of_kind (hfs : fs.Plain) (hentries : fs'.entries = fs.entries)
    (hnext : fs'.nextInode = fs.nextInode) (hdir : ∀ q, fs.isDir q = true → fs'.isDir q = true) :
    fs'.Plain := by
  refine ⟨by rw [hentries]; exact hfs.paths, by rw [hentries]; exact hfs.inodes, ?_, ?_⟩
  · rw [hentries]
    exact fun e he => ⟨(hfs.parents e he).1, hdir _ (hfs.parents e he).2⟩
  · rw [Allocated, hentries, hnext]
    exact hfs.allocated

theorem Plain.create (hfs : fs.Plain) (hfree : fs.kind p = none) (hparent : fs.isDir p.dropLast = true)
    (k : Kind) : (fs.create p k).Plain := by
  have hp : p ≠ [] := by
    rintro rfl
    simp [TreeFs.kind, inode] at hfree
  have hlookup : fs.entries.lookup p = none := by
    rw [kind_eq hp] at hfree
    exact Option.map_eq_none_iff.mp hfree
  have hdir : ∀ q, fs.isDir q = true → (fs.create p k).isDir q = true := by
    intro q hq
    rw [isDir_iff] at hq ⊢
    have hne : q ≠ p := by
      rintro rfl
      rw [hfree] at hq
      simp at hq
    rw [kind_create_eq hfs.allocated hfree, Function.update_of_ne hne, hq]
  have hentries : (fs.create p k).entries = fs.entries ++ [(p, fs.nextInode)] := rfl
  constructor
  · rw [hentries, List.map_append, List.nodup_append]
    refine ⟨hfs.paths, by simp, fun a ha b hb hab => ?_⟩
    obtain ⟨⟨q, j⟩, hmem, rfl⟩ := List.mem_map.mp ha
    simp only [List.map_cons, List.map_nil, List.mem_singleton] at hb
    have hq : q = p := hab.trans hb
    rw [hq] at hmem
    rw [lookup_of_mem hfs hmem] at hlookup
    simp at hlookup
  · rw [hentries, List.map_append, List.nodup_append]
    refine ⟨hfs.inodes, by simp, fun a ha b hb hab => ?_⟩
    obtain ⟨e, hmem, rfl⟩ := List.mem_map.mp ha
    simp only [List.map_cons, List.map_nil, List.mem_singleton] at hb
    have hlt := hfs.allocated e hmem
    omega
  · intro e he
    rw [hentries] at he
    rcases List.mem_append.mp he with he | he
    · exact ⟨(hfs.parents e he).1, hdir _ (hfs.parents e he).2⟩
    · obtain rfl := List.mem_singleton.mp he
      exact ⟨hp, hdir _ hparent⟩
  · intro e he
    rw [hentries] at he
    have hnext : (fs.create p k).nextInode = fs.nextInode + 1 := rfl
    rw [hnext]
    rcases List.mem_append.mp he with he | he
    · have hlt := hfs.allocated e he
      omega
    · obtain rfl := List.mem_singleton.mp he
      exact Nat.lt_succ_self _

end Changes

section Put

-- The path `p` has become a `k`, and nothing else is different.
structure Put (fs fs' : TreeFs) (p : Path) (k : Kind) : Prop where
  plain : fs'.Plain
  cwd : fs'.cwd = fs.cwd
  kind : fs'.kind = Function.update fs.kind p (some k)
  watches : fs'.watches = fs.watches ∧ fs'.nextWd = fs.nextWd

-- What may be at a path before it becomes a `k`.
def Admits : Option Kind → Kind → Prop
  | none, _ => True
  | some .dir, .dir => True
  | some (.file _), .file _ => True
  | some (.link old), .link target => old = target
  | _, _ => False

instance (old : Option Kind) (k : Kind) : Decidable (Admits old k) := by
  unfold Admits
  split <;> infer_instance

variable {fs fs' fs'' : TreeFs} {p : Path} {k : Kind}

theorem Put.self (hfs : fs.Plain) (hkind : fs.kind p = some k) : Put fs fs p k where
  plain := hfs
  cwd := rfl
  kind := by rw [← hkind, Function.update_eq_self]
  watches := ⟨rfl, rfl⟩

theorem Put.trans {k' : Kind} (h : Put fs fs' p k) (h' : Put fs' fs'' p k') : Put fs fs'' p k' where
  plain := h'.plain
  cwd := h'.cwd.trans h.cwd
  kind := by rw [h'.kind, h.kind, Function.update_idem]
  watches := ⟨h'.watches.1.trans h.watches.1, h'.watches.2.trans h.watches.2⟩

-- `utime` changes no kind.
theorem Put.utime (h : Put fs fs' p k) (path : Bytes) (atime mtime : Int) :
    Put fs (Posix.utime fs' path atime mtime).2 p k := by
  cases hresolve : fs'.resolve path with
  | none => simpa [Posix.utime, changeAt, hresolve] using h
  | some q =>
      cases hlookup : fs'.entries.lookup q with
      | none => simpa [Posix.utime, changeAt, hresolve, utimeAt, hlookup] using h
      | some i =>
          have hutime : (Posix.utime fs' path atime mtime).2 = { fs' with
              inodes := Function.update fs'.inodes i { fs'.inodes i with atime, mtime } } := by
            simp [Posix.utime, changeAt, hresolve, utimeAt, hlookup]
          rw [hutime]
          refine ⟨h.plain.of_kind rfl rfl fun q hq => ?_, h.cwd, ?_, h.watches⟩
          · rw [isDir_times]
            exact hq
          · rw [← h.kind]
            exact funext fun q => kind_times fs' i atime mtime q

-- Directories stay directories.
theorem Put.isDir (h : Put fs fs' p k) (hadmits : Admits (fs.kind p) k) {q : Path}
    (hq : fs.isDir q = true) : fs'.isDir q = true := by
  rw [isDir_iff] at hq ⊢
  rw [h.kind]
  by_cases hqp : q = p
  · subst hqp
    rw [hq] at hadmits
    cases k with
    | dir => rw [Function.update_self]
    | file _ => exact hadmits.elim
    | link _ => exact hadmits.elim
  · rw [Function.update_of_ne hqp, hq]

-- A path leads where it led before.
theorem walk_mono (hdir : ∀ q, fs.isDir q = true → fs'.isDir q = true) {cur : Path} {cs : List Bytes}
    (h : fs.walk cur cs = some p) : fs'.walk cur cs = some p := by
  induction cs generalizing cur with
  | nil => exact h
  | cons c cs ih =>
      rw [walk] at h ⊢
      by_cases hcur : fs.isDir cur = true
      · simp only [hcur, hdir _ hcur, Bool.not_true, Bool.false_eq_true, if_false] at h ⊢
        split_ifs at h ⊢ <;> exact ih h
      · simp [hcur] at h

theorem resolve_mono (hcwd : fs'.cwd = fs.cwd) (hdir : ∀ q, fs.isDir q = true → fs'.isDir q = true)
    {path : Bytes} (h : fs.resolve path = some p) : fs'.resolve path = some p := by
  rw [resolve] at h ⊢
  rw [hcwd]
  exact walk_mono hdir h

end Put

end Csiebox.TreeFs
