import Csiebox.Replica
import Mathlib.Data.List.Perm.Subperm

namespace Csiebox.Replica

open CBytes TreeFs Program Prog

section Stat

theorem StatOf.isDir {st : Bytes} {k : Kind} (h : StatOf st k) : sIsDir (stMode st) = (k == .dir) := by
  have hfile : sIsDir 0o100644 = false := by decide
  have hlink : sIsDir 0o120777 = false := by decide
  rw [h.mode]
  cases k with
  | dir => decide
  | file _ => simp [modeOf, hfile]
  | link _ => simp [modeOf, hlink]

theorem StatOf.isReg {st content : Bytes} (h : StatOf st (.file content)) : sIsReg (stMode st) = true := by
  rw [h.mode, modeOf]
  decide

end Stat

section Reading

variable {fs : TreeFs} {base : Bytes} {b d p : Path} {k : Kind} {entries : List Dirent}

-- The entries of a directory, as far as a traversal looks at them.
structure Lists (fs : TreeFs) (b d : Path) (entries : List Dirent) : Prop where
  sound : ∀ e ∈ entries, e.name.val.head? ≠ some dot → ∃ n : Name, e.name.val = n.val ∧
    fs.kind (b ++ (d ++ [n])) ≠ none ∧ e.isDir = fs.isDir (b ++ (d ++ [n]))
  complete : ∀ n : Name, fs.kind (b ++ (d ++ [n])) ≠ none → ∃ e ∈ entries, e.name.val = n.val
  names : (entries.map fun e => e.name.val).Nodup

end Reading

end Csiebox.Replica
