import Csiebox.Replica.Pull.Traversal
import Csiebox.Replica.Push.Theorems
import Csiebox.Roles.Theorems

namespace Csiebox.Replica

open CBytes TreeFs Program Prog Session Pull Roles

section Trees

variable {fs f g src dst : TreeFs} {q b d : Path} {path : Bytes} {entries : List Dirent} {client : Client}
  {cwd : Path} {dirs dirs' : List Path} {on : Set Path}

-- The two ends hold the same tree, and every directory of it is watched.
structure InStep (client : Client) (f g : TreeFs) (d : Path) : Prop where
  tree : ∀ p, shown f f.cwd p = shown g d p
  watched : Watching f.cwd (dirsOf f f.cwd) Set.univ client f

theorem Watching.congr (h : Watching cwd dirs on client f) (hdirs : ∀ p, p ∈ dirs ↔ p ∈ dirs') :
    Watching cwd dirs' on client f := by
  refine { h with named := fun w hw => ?_, covers := fun p hp hmem => h.covers p hp ((hdirs p).mpr hmem) }
  obtain ⟨p, hp, hnamed⟩ := h.named w hw
  exact ⟨p, (hdirs p).mp hp, hnamed⟩

end Trees

section Opening

variable {md5 : Bytes → Mem 16} {server : Server} {client : Client} {ch sh : Host TreeFs}
  {centries sentries : List Dirent}

end Opening

section Ends

variable {md5 : Bytes → Mem 16} {connFd : Nat} {server : Server} {home : Bytes} {client : Client}
  {ch sh : Host TreeFs} {d : Path} {k : Server → Code Unit} {c : Joint TreeFs TreeFs (Option Client)}

-- Both ends come to "start watch" with the tree `tree`, the client holding it below its
-- current directory and the server below `d`, however their steps interleave.
def Reproduces (md5 : Bytes → Mem 16) (connFd : Nat) (d : Path) (tree : Path → Option Kind)
    (c : Joint TreeFs TreeFs (Option Client)) : Prop :=
  ∃ (client : Client) (server : Server) (ch sh : Host TreeFs) (a b : Bytes),
    Settles Step c (session md5 connFd server (ret (some client)) ch sh a b) ∧
    InStep client ch.fs sh.fs d ∧ ∀ p, shown sh.fs d p = tree p

-- The client gets to a directory for which `event_path` has no row.
def Breaks (c : Joint TreeFs TreeFs (Option Client)) : Prop := ∃ e, Runs c e ∧ e.left = halt .overrun

variable {c' : Joint TreeFs TreeFs (Option Client)} {tree : Path → Option Kind}

theorem Reproduces.prepend (h : Reproduces md5 connFd d tree c') (hrun : Runs c c') :
    Reproduces md5 connFd d tree c := by
  obtain ⟨client, server, ch, sh, a, b, hsettles, hrest⟩ := h
  exact ⟨client, server, ch, sh, a, b, hsettles.prepend hrun, hrest⟩

theorem Breaks.prepend (h : Breaks c') (hrun : Runs c c') : Breaks c := by
  obtain ⟨e, he, hhalt⟩ := h
  exact ⟨e, hrun.trans he, hhalt⟩

end Ends

section Instances

end Instances

end Csiebox.Replica
