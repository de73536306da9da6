import Csiebox.Replica.Push.Traversal

namespace Csiebox.Replica

open CBytes TreeFs Program Prog Session Pull

section Push

variable {md5 : Bytes → Mem 16} {connFd : Nat} {server : Server} {home : Bytes} {d : Path}
  {client : Client} {ch sh : Host TreeFs} {a b : Bytes}

-- The client's tree is at the server's already.
theorem Pushable.again {src dst f g f' : TreeFs} {on : Set Path} (hpush : Pushable md5 home src dst d)
    (hsame : Same src f') (hc : Copying src src.cwd dst d on f g)
    (hon : ∀ p k, p ≠ [] → shown src src.cwd p = some k → p ∈ on) : Pushable md5 home f' g d := by
  have hshown : shown f' f'.cwd = shown src src.cwd := by rw [hsame.cwd, hsame.shown]
  have hcopied : ∀ p k, p ≠ [] → shown f' f'.cwd p = some k → g.kind (d ++ p) = some k := by
    intro p k hp hk
    rw [hshown] at hk
    rw [← hk]
    exact hc.copies.copied p (hon p k hp hk)
  constructor
  · constructor
    · exact hsame.plain
    · rw [hsame.isDir, hsame.cwd]
      exact hpush.sourceDir
    · exact hc.target
    · exact hc.dirs d hpush.targetDir
    · intro p k hp hk
      rw [hcopied p k hp hk]
      exact admits_self k
    · rw [hshown]
      exact hpush.fits
  · exact ⟨hpush.home.1, resolve_mono hc.cwd hc.dirs hpush.home.2⟩
  · rw [hshown]
    exact hpush.noLinks
  · rw [hshown]
    exact hpush.nonzero
  · intro p content old hk hold _
    have hp : p ≠ [] := by
      rintro rfl
      have hroot := (isDir_iff g d).mp (hc.dirs d hpush.targetDir)
      rw [List.append_nil, hroot] at hold
      simp at hold
    have hnew := hcopied p _ hp hk
    rw [hold, Option.some.injEq] at hnew
    exact Kind.file.inj hnew

end Push

section Instances

end Instances

end Csiebox.Replica
