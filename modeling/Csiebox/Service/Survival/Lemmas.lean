import Csiebox.Service.Bounds.Lemmas
import Csiebox.Service.Survival.Rules

namespace Csiebox

open CBytes Program Prog

section Lasts

variable {F : Type} [Posix F] {α γ : Type} {h : Host F} {l : Link UInt8} {n : Nat} {takes : ℕ∞}

end Lasts

section Transfer

variable {F : Type} [Posix F] {md5 : Bytes → Mem 16} {h : Host F} {l : Link UInt8} {n : Nat}
  {takes : ℕ∞} {filepath st hash header : Bytes} {fp : Nat} {req buf : Bytes}

end Transfer

section Handlers

variable {F : Type} [Posix F] {md5 : Bytes → Mem 16} {server : Server} {connFd : Nat} {h : Host F}
  {l : Link UInt8} {n : Nat} {takes : ℕ∞} {base m : Bytes}

end Handlers

end Csiebox
