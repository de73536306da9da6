import Csiebox.Service.Survival.Lemmas
import Csiebox.Service.Survival.Pull

namespace Csiebox

open CBytes Program Prog

section Login

variable {F : Type} [Posix F] {md5 : Bytes → Mem 16} {server : Server} {connFd : Nat} {h : Host F}
  {l : Link UInt8} {n : Nat} {takes : ℕ∞} {req : Bytes}

section Granting

variable {wire : Wire UInt8} {Q : Server → Host F → Wire UInt8 → Prop}

end Granting

end Login

section Requests

variable {F : Type} [Posix F] {md5 : Bytes → Mem 16} {server : Server} {connFd : Nat} {h : Host F}
  {l : Link UInt8} {takes : ℕ∞} {stack : Nat}

end Requests

section Runs

variable {F : Type} [Posix F] {md5 : Bytes → Mem 16} {w w' : Service F}
  {G : Service F → Nat → Link UInt8 → Prop}

-- No other connection is touched.
theorem Handled.others {server server' : Server} {connFd : Nat} {h : Host F} {l : Link UInt8}
    (hdone : Handled md5 server connFd h l server') {j : Nat} (hj : j ≠ connFd) :
    server'.masterset j = server.masterset j ∧ server'.client j = server.client j := by
  cases hdone with
  | ended hshort hclosed => exact ⟨Function.update_of_ne hj _ _, Function.update_of_ne hj _ _⟩
  | login hasks hl =>
      refine ⟨rfl, ?_⟩
      cases hentry : loginEntry md5 server h l with
      | none => rfl
      | some account => exact Function.update_of_ne hj _ _
  | other hlen hmagic hop => exact ⟨rfl, rfl⟩

end Runs

section Instances

open Session

end Instances

end Csiebox
