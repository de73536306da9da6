import Csiebox.Lib.Tour
import Csiebox.Replica.Watches

namespace Csiebox.Replica

open CBytes TreeFs

variable {src dst f f' g g' : TreeFs} {b d p q : Path} {on on' : Set Path} {k : Kind} {home : Bytes}

theorem append_injective (d : Path) : Function.Injective (d ++ · : Path → Path) :=
  fun _ _ h => List.append_cancel_left h

theorem Same.refl (hsrc : src.Plain) : Same src src := ⟨hsrc, rfl, rfl, rfl⟩

theorem Same.trans (h : Same src f) (h' : Same f f') : Same src f' :=
  ⟨h'.plain, h'.cwd.trans h.cwd, h'.kind.trans h.kind, h'.stat.trans h.stat⟩

theorem Same.shown (h : Same src f) (b : Path) : shown f b = shown src b := by
  funext p
  rw [Replica.shown, Replica.shown, h.kind]

theorem Same.isDir (h : Same src f) (q : Path) : f.isDir q = src.isDir q := by
  rw [TreeFs.isDir, TreeFs.isDir, h.kind]

theorem Same.resolve (h : Same src f) (path : Bytes) : f.resolve path = src.resolve path :=
  resolve_congr h.cwd h.isDir path

theorem Copying.start (h : Copyable home src b dst d) : Copying src b dst d ∅ src dst where
  source := .refl h.source
  target := h.target
  cwd := rfl
  copies := .refl _ _ _
  dirs := fun _ h => h

theorem Copying.congr (h : Copying src b dst d on f g) (hset : on = on') : Copying src b dst d on' f g := by
  rwa [← hset]

theorem admits_self (k : Kind) : TreeFs.Admits (some k) k := by
  cases k <;> simp [TreeFs.Admits]

-- What is at the place of `p` in the meantime can still become a `k`.
theorem Copying.admits (h : Copying src b dst d on f g) (hcopy : Copyable home src b dst d) (hp : p ≠ [])
    (hk : shown src b p = some k) : TreeFs.Admits (g.kind (d ++ p)) k := by
  rcases h.copies.either (append_injective d) p with hnew | hold
  · rw [hnew, hk]
    exact admits_self k
  · rw [hold]
    exact hcopy.admits p k hp hk

-- Copying a directory comes before copying what is in it.
theorem Copying.parent (h : Copying src b dst d on f g) (hcopy : Copyable home src b dst d)
    (hsrc : shown src b q = some .dir) (hq : q = [] ∨ q ∈ on) : g.isDir (d ++ q) = true := by
  rcases hq with rfl | hq
  · rw [List.append_nil]
    exact h.dirs d hcopy.targetDir
  · have hcopied := h.copies.copied q hq
    rw [isDir_iff]
    rw [← hsrc]
    exact hcopied

theorem Copying.put (h : Copying src b dst d on f g) (hcopy : Copyable home src b dst d) (hp : p ≠ [])
    (hk : shown src b p = some k) (hput : Put g g' (d ++ p) k) :
    Copying src b dst d (insert p on) f g' where
  source := h.source
  target := hput.plain
  cwd := hput.cwd.trans h.cwd
  copies := by
    rw [hput.kind, ← hk]
    exact h.copies.put (append_injective d) p
  dirs := fun q hq => hput.isDir (h.admits hcopy hp hk) (h.dirs q hq)

end Csiebox.Replica
