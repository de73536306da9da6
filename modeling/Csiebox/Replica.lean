import Csiebox.Lib.Mirror
import Csiebox.TreeFs.Tree
import Csiebox.Push.Outcome

namespace Csiebox.Replica

open CBytes TreeFs

section Trees

-- Both traversals leave out the names that start with a dot.
def Visible (p : Path) : Prop := ∀ n ∈ p, n.val.head? ≠ some dot

instance (p : Path) : Decidable (Visible p) := inferInstanceAs (Decidable (∀ n ∈ p, _))

variable (fs : TreeFs) (b : Path)

-- The tree that a traversal from the directory `b` meets.
def shown (p : Path) : Option Kind := if Visible p then fs.kind (b ++ p) else none

-- Its directories, without the one it starts from.
def dirsOf : List Path :=
  (fs.entries.map Prod.fst).filterMap fun q =>
    if b <+: q ∧ q ≠ b ∧ shown fs b (q.drop b.length) = some .dir then some (q.drop b.length) else none

-- What lies below the directory `d` of the tree.
def below (d : Path) : Set Path := {p | (shown fs b p).isSome ∧ d <+: p ∧ p ≠ d}

-- What is met under the entries that `readdir` gives for `d`.
def meets (d : Path) (entries : List Dirent) : Set Path :=
  {p | (shown fs b p).isSome ∧ ∃ e ∈ entries, ∃ n : Name, e.name.val = n.val ∧ d ++ [n] <+: p}

end Trees

section Copies

-- Other watches on the same tree.
structure Same (fs f : TreeFs) : Prop where
  plain : f.Plain
  cwd : f.cwd = fs.cwd
  kind : f.kind = fs.kind
  stat : f.stat = fs.stat

-- The tree below `b` can be put below `d` of another file system: what is there already is
-- of the same kind, and the paths that the two ends use for it fit into their buffers.
structure Copyable (home : Bytes) (src : TreeFs) (b : Path) (dst : TreeFs) (d : Path) : Prop where
  source : src.Plain
  sourceDir : src.isDir b = true
  target : dst.Plain
  targetDir : dst.isDir d = true
  admits : ∀ p k, p ≠ [] → shown src b p = some k → TreeFs.Admits (dst.kind (d ++ p)) k
  fits : ∀ p k, shown src b p = some k →
    (joined [dot] p).length < pathMax ∧ (joined home p).length < pathMax

-- From `src` and `dst` the two ends have come to `f` and `g` with the paths of `on` copied.
structure Copying (src : TreeFs) (b : Path) (dst : TreeFs) (d : Path) (on : Set Path) (f g : TreeFs) :
    Prop where
  source : Same src f
  target : g.Plain
  cwd : g.cwd = dst.cwd
  copies : Mirror.Copies (d ++ ·) (shown src b) on dst.kind g.kind
  dirs : ∀ q, dst.isDir q = true → g.isDir q = true

end Copies

-- What `lstat` says of a file without further links, as far as the traversals look at it.
structure StatOf (st : Bytes) (k : Kind) : Prop where
  mode : stMode st = modeOf k
  single : k ≠ .dir → stNlink st = 1

-- The inotify instance of a process that has just started.
structure Unwatched (f : TreeFs) : Prop where
  watches : f.watches = []
  nextWd : f.nextWd = 1

-- The client's watches, made since the process started: one for every directory of `dirs`
-- that is in `on`, each with the path string the watch loop is to use.
structure Watching (cwd : Path) (dirs : List Path) (on : Set Path) (client : Client) (f : TreeFs) :
    Prop where
  next : f.nextWd = f.watches.length + 1
  given : ∀ w ∈ f.watches, w.1 < f.nextWd
  wds : (f.watches.map Prod.fst).Nodup
  paths : (f.watches.map Prod.snd).Nodup
  room : f.nextWd ≤ maxWatches
  named : ∀ w ∈ f.watches, ∃ p ∈ dirs, w.2 = cwd ++ p ∧ client.eventPath w.1 = joined [dot] p
  covers : ∀ p ∈ on, p ∈ dirs → ∃ w ∈ f.watches, w.2 = cwd ++ p

end Csiebox.Replica
