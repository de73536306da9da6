import Csiebox.TreeFs.Lemmas

namespace Csiebox.TreeFs

open CBytes

theorem components_ne_nil (p : Bytes) : components p ≠ [] := by
  cases p with
  | nil => simp [components]
  | cons b bs =>
      rw [components]
      split_ifs
      · simp
      · split <;> simp

theorem components_append (p r : Bytes) :
    components (p ++ slash :: r) = components p ++ components r := by
  induction p with
  | nil => simp [components]
  | cons b bs ih =>
      rw [List.cons_append, components, components, ih]
      split_ifs with hb
      · rfl
      · cases hc : components bs with
        | nil => exact absurd hc (components_ne_nil bs)
        | cons c cs => rfl

-- How `traverse_file` joins a directory and a name, and where it goes from there.
def joined (base : Bytes) : Path → Bytes
  | [] => base
  | n :: p => joined (base ++ slash :: n.val) p

section Strings

theorem joined_eq (base : Bytes) (p : Path) : joined base p = base ++ joined [] p := by
  induction p generalizing base with
  | nil => simp [joined]
  | cons n p ih =>
      rw [joined, joined, ih, List.nil_append, ih (slash :: n.val), List.append_assoc]

-- The path relative to the directory that the walk starts from, as it is sent.
def sent : Path → Bytes
  | [] => []
  | n :: p => joined n.val p

end Strings

section Walk

variable {fs : TreeFs} {base : Bytes} {b : Path}

theorem components_name (n : Name) : components n.val = [n.val] := by
  have hplain : ∀ bs : Bytes, bs ≠ [] → slash ∉ bs → components bs = [bs] := by
    intro bs hne hslash
    induction bs with
    | nil => exact absurd rfl hne
    | cons c cs ih =>
        rw [List.mem_cons, not_or] at hslash
        rw [components, if_neg (Ne.symm hslash.1)]
        cases cs with
        | nil => rfl
        | cons d ds => rw [ih (by simp) hslash.2]
  exact hplain n.val n.property.1 n.property.2.2.2.1

theorem components_joined (base : Bytes) (p : Path) :
    components (joined base p) = components base ++ p.map Subtype.val := by
  induction p generalizing base with
  | nil => simp [joined]
  | cons n p ih => rw [joined, ih, components_append, components_name]; simp

theorem walk_append (fs : TreeFs) (cur : Path) (cs ds : List Bytes) :
    fs.walk cur (cs ++ ds) = (fs.walk cur cs).bind fun p => fs.walk p ds := by
  induction cs generalizing cur with
  | nil => rfl
  | cons c cs ih =>
      simp only [List.cons_append, walk, ih]
      split_ifs <;> rfl

theorem walk_name (hdir : fs.isDir b = true) (n : Name) : fs.walk b [n.val] = some (b ++ [n]) := by
  obtain ⟨hne, hdot, hdots, -, -⟩ := n.property
  simp [walk, hdir, hne, hdot, hdots, n.property]

-- Every entry lies in a directory, no path and no inode is entered twice.
structure Plain (fs : TreeFs) : Prop where
  paths : (fs.entries.map Prod.fst).Nodup
  inodes : (fs.entries.map Prod.snd).Nodup
  parents : ∀ e ∈ fs.entries, e.1 ≠ [] ∧ fs.isDir e.1.dropLast = true
  allocated : fs.Allocated

instance (fs : TreeFs) : Decidable fs.Plain :=
  decidable_of_iff ((fs.entries.map Prod.fst).Nodup ∧ (fs.entries.map Prod.snd).Nodup ∧
    (∀ e ∈ fs.entries, e.1 ≠ [] ∧ fs.isDir e.1.dropLast = true) ∧ fs.Allocated)
    ⟨fun h => ⟨h.1, h.2.1, h.2.2.1, h.2.2.2⟩, fun h => ⟨h.1, h.2, h.3, h.4⟩⟩

theorem isDir_iff (fs : TreeFs) (p : Path) : fs.isDir p = true ↔ fs.kind p = some .dir := by
  rw [isDir, beq_iff_eq]

theorem kind_eq {p : Path} (hp : p ≠ []) :
    fs.kind p = (fs.entries.lookup p).map fun i => (fs.inodes i).kind := by
  rw [kind, inode, if_neg hp, Option.map_map]
  rfl

theorem mem_of_lookup {p : Path} {i : Nat} (h : fs.entries.lookup p = some i) : (p, i) ∈ fs.entries := by
  obtain ⟨l₁, l₂, hsplit, -⟩ := List.lookup_eq_some_iff.mp h
  rw [hsplit]
  simp

-- What exists has its parent.
theorem Plain.parent (hfs : fs.Plain) {p : Path} (hp : p ≠ []) (hkind : fs.kind p ≠ none) :
    fs.isDir p.dropLast = true := by
  rw [kind_eq hp, ne_eq, Option.map_eq_none_iff] at hkind
  obtain ⟨i, hi⟩ := Option.ne_none_iff_exists'.mp hkind
  exact (hfs.parents _ (mem_of_lookup hi)).2

theorem Plain.above (hfs : fs.Plain) (p q : Path) (hq : q ≠ []) (hkind : fs.kind (p ++ q) ≠ none) :
    fs.isDir p = true := by
  induction q using List.reverseRecOn with
  | nil => exact absurd rfl hq
  | append_singleton q n ih =>
      have hparent := hfs.parent (by simp) hkind
      rw [← List.append_assoc, List.dropLast_concat] at hparent
      by_cases hq' : q = []
      · rwa [hq', List.append_nil] at hparent
      · refine ih hq' ?_
        rw [(isDir_iff fs _).mp hparent]
        simp

-- A path of names leads where it says, if its directory is there.
theorem Plain.walk_names (hfs : fs.Plain) (p : Path) (n : Name) (hdir : fs.isDir (b ++ p) = true) :
    fs.walk b ((p ++ [n]).map Subtype.val) = some (b ++ (p ++ [n])) := by
  have hwalk : fs.walk b (p.map Subtype.val) = some (b ++ p) := by
    induction p using List.reverseRecOn with
    | nil => simp [walk]
    | append_singleton p m ih =>
        have hparent := hfs.above (b ++ p) [m] (by simp) (by
          rw [List.append_assoc, (isDir_iff fs _).mp hdir]
          simp)
        rw [List.map_append, walk_append, ih hparent, Option.bind_some, ← List.append_assoc]
        exact walk_name hparent m
  rw [List.map_append, walk_append, hwalk, Option.bind_some, ← List.append_assoc]
  exact walk_name hdir n

end Walk

end Csiebox.TreeFs
