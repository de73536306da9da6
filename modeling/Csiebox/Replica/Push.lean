import Csiebox.Pull.Theorems
import Csiebox.Replica.Copying
import Csiebox.Session.Converges

namespace Csiebox.Replica

open CBytes TreeFs Program Prog Session Pull Push

section Messages

-- The digest that `sync_file` sends.
def hashOf (md5 : Bytes → Mem 16) : Kind → Bytes
  | .file content => (md5 content).val
  | _ => zeros 16

-- The content goes over if the server has not got it.
def dataOf (old : Option Kind) : Kind → Bytes
  | .file content => if old = some (.file content) then [] else chunkStream N content
  | _ => []

-- The request for the path `p` of the client's tree.
def requested (md5 : Bytes → Mem 16) (src : TreeFs) (p : Path) : Bytes :=
  match src.stat (src.cwd ++ p), src.kind (src.cwd ++ p) with
  | some st, some k => syncRequest st.val (hashOf md5 k) (sent p)
  | _, _ => []

-- What the client says for it in all, when the server starts with `dst`.
def pushed (md5 : Bytes → Mem 16) (src dst : TreeFs) (d p : Path) : Bytes :=
  requested md5 src p ++ ((src.kind (src.cwd ++ p)).map (dataOf (dst.kind (d ++ p)))).getD []

-- The trees of a push: no symbolic links on the client's side, and digests that tell
-- apart what they have to.
structure Pushable (md5 : Bytes → Mem 16) (home : Bytes) (src dst : TreeFs) (d : Path) : Prop
    extends Copyable home src src.cwd dst d where
  home : home ≠ [] ∧ dst.resolve home = some d
  noLinks : ∀ p target, shown src src.cwd p ≠ some (.link target)
  nonzero : ∀ p content, shown src src.cwd p = some (.file content) → (md5 content).val ≠ zeros 16
  injective : ∀ p content old, shown src src.cwd p = some (.file content) →
    dst.kind (d ++ p) = some (.file old) → md5 old = md5 content → old = content

end Messages

section Sync

variable {α : Type} {md5 : Bytes → Mem 16} {connFd : Nat} {server : Server} {home : Bytes}
  {src dst f g : TreeFs} {base : Bytes} {b d p : Path} {k : Kind} {on : Set Path} {st : Mem 144}
  {ch sh : Host TreeFs}

end Sync

end Csiebox.Replica
