import Csiebox.Push.Outcome
import Csiebox.Replica.Push

namespace Csiebox.Replica

open CBytes TreeFs Program Prog Session

section Strings

-- The string under which the client's traversal opens a directory.
def dirString (q : Path) : Bytes := if q = [] then dotSlash else joined [dot] q

variable {fs : TreeFs} {q : Path} {n : Name}

end Strings

section Runs

variable {α : Type} {md5 : Bytes → Mem 16} {connFd : Nat} {server : Server} {src dst : TreeFs} {d : Path}
  {start c : Joint TreeFs TreeFs α}

-- The client would write behind the end of `event_path`.
def Overruns (c : Joint TreeFs TreeFs α) : Prop :=
  ∃ e, Quiet c e ∧ (∀ e', ¬Step e e') ∧ e.left = halt .overrun

theorem Overruns.prepend (h : Overruns start) (hquiet : Quiet c start) : Overruns c := by
  obtain ⟨e, he, hend⟩ := h
  exact ⟨e, hquiet.trans he, hend⟩

-- The client has pushed the paths in `on`, has said `said` and goes on with `k`.
def PushAt (md5 : Bytes → Mem 16) (connFd : Nat) (server : Server) (src dst : TreeFs) (d : Path)
    (k : Client → Code α) (on : Set Path) (said : Bytes) (c : Joint TreeFs TreeFs α) : Prop :=
  ∃ (client : Client) (ch sh : Host TreeFs) (b : Bytes), Copying src src.cwd dst d on ch.fs sh.fs ∧
    Watching src.cwd (dirsOf src src.cwd) on client ch.fs ∧
    c = session md5 connFd server (k client) ch sh said b

-- The client's way through its tree.
def pushGuide (α : Type) (md5 : Bytes → Mem 16) (connFd : Nat) (server : Server) (src dst : TreeFs)
    (d : Path) :
    Tour.Guide (Joint TreeFs TreeFs α) (Client → Code α) Path UInt8 where
  Run := Quiet
  Bad c := Overruns c ∧ maxWatches ≤ (dirsOf src src.cwd).length
  At := PushAt md5 connFd server src dst d
  word := pushed md5 src dst d
  refl := .refl
  trans := .trans
  bad hquiet h := ⟨h.1.prepend hquiet, h.2⟩

end Runs

section Visits

variable {α : Type} {md5 : Bytes → Mem 16} {connFd : Nat} {server : Server} {home : Bytes}
  {src dst : TreeFs} {d p q : Path} {kind : Kind} {on : Set Path} {st : Mem 144} {client : Client}
  {ch sh : Host TreeFs} {c : Joint TreeFs TreeFs α} {a b : Bytes} {k : Client → Code α}
  {descend : Bytes → Client → Code Client}

-- What the traversal of the directory `q` is to do.
def Descends (α : Type) (md5 : Bytes → Mem 16) (connFd : Nat) (server : Server) (src dst : TreeFs)
    (d : Path) (descend : Bytes → Client → Code Client) (q : Path) : Prop :=
  ∀ (k : Client → Code α) (on : Set Path) (said : Bytes) (c : Joint TreeFs TreeFs α),
    (q = [] ∨ q ∈ on) → (∀ r ∈ below src src.cwd q, r ∉ on) →
      PushAt md5 connFd server src dst d (fun client => descend (dirString q) client >>= k) on said c →
        (pushGuide α md5 connFd server src dst d).Tours on (below src src.cwd q) c said k

end Visits

end Csiebox.Replica
