import Csiebox.Pull.Outcome
import Csiebox.Replica.Pull

namespace Csiebox.Replica

open CBytes TreeFs Program Prog Session Pull

section Visits

variable {α : Type} {md5 : Bytes → Mem 16} {connFd : Nat} {home : Bytes} {dst : TreeFs} {b p q : Path}
  {kind : Kind} {on : Set Path} {st : Mem 144} {rest : Client → Code α} {ch sh : Host TreeFs}
  {c : Joint TreeFs TreeFs α} {a said : Bytes} {hl : List HardLink} {k : List HardLink → Code Unit}
  {descend : Bytes → List HardLink → Code (List HardLink)} {n : Name}

end Visits

end Csiebox.Replica
