import Csiebox.Session
import Csiebox.Send.Lemmas

namespace Csiebox.Pull

open CBytes Program Prog Session

-- An entry that `traverse_file` meets: its path and what `lstat` says of it.
structure Visit where
  path : Bytes
  st : Mem 144

-- The files that both traversals look up in `hl`.
def linked (st : Bytes) : Bool := !sIsDir (stMode st) && stNlink st != 1

section Visits

variable {G : Type} [Posix G] (g : G)

def visitEntries (descend : Bytes → List Visit) (dirName : Bytes) : List Dirent → List Visit
  | [] => []
  | entry :: entries =>
      if entry.name.val.head? = some dot then visitEntries descend dirName entries
      else match Posix.lstat g (snprintfPath dirName entry.name.val) with
        | none => []
        | some st =>
            { path := snprintfPath dirName entry.name.val, st } ::
              ((if sIsDir (stMode st.val) then descend (snprintfPath dirName entry.name.val) else []) ++
                visitEntries descend dirName entries)

-- What the server's `traverse_file` meets while the file system stays as it is.
def visits : Nat → Bytes → List Visit
  | 0, _ => []
  | depth + 1, dirName =>
      match Posix.opendir g dirName with
      | none => []
      | some entries => visitEntries g (visits depth) dirName entries

end Visits

section Links

def linksOf (len : Nat) (vs : List Visit) : List HardLink :=
  (vs.filter fun v => linked v.st.val).map fun v => { inode := stIno v.st.val, path := v.path.drop len }

def inodes (vs : List Visit) : List Nat :=
  (vs.filter fun v => linked v.st.val).map fun v => stIno v.st.val

-- Every file with several links is met once, and none of them is in `hl` before.
structure Fresh (hl : List HardLink) (vs : List Visit) : Prop where
  once : (inodes vs).Nodup
  new : ∀ h ∈ hl, h.inode ∉ inodes vs

variable {hl : List HardLink} {v : Visit} {us vs : List Visit}

theorem inodes_append : inodes (us ++ vs) = inodes us ++ inodes vs := by simp [inodes]

theorem linksOf_append (len : Nat) : linksOf len (us ++ vs) = linksOf len us ++ linksOf len vs := by
  simp [linksOf]

theorem linksOf_inodes (len : Nat) : (linksOf len vs).map HardLink.inode = inodes vs := by
  simp [linksOf, inodes]

theorem inode_mem_linksOf (len : Nat) {i : Nat} :
    i ∈ inodes vs ↔ ∃ h ∈ linksOf len vs, h.inode = i := by
  rw [← linksOf_inodes len, List.mem_map]

theorem fresh_nil : Fresh hl [] := ⟨by simp [inodes], by simp [inodes]⟩

theorem fresh_append (len : Nat) :
    Fresh hl (us ++ vs) ↔ Fresh hl us ∧ Fresh (hl ++ linksOf len us) vs := by
  constructor
  · rintro ⟨honce, hnew⟩
    rw [inodes_append, List.nodup_append] at honce
    refine ⟨⟨honce.1, fun h hh hmem => hnew h hh ?_⟩, ⟨honce.2.1, fun h hh hmem => ?_⟩⟩
    · rw [inodes_append]
      exact List.mem_append_left _ hmem
    · rcases List.mem_append.mp hh with hold | hus
      · refine hnew h hold ?_
        rw [inodes_append]
        exact List.mem_append_right _ hmem
      · exact honce.2.2 _ ((inode_mem_linksOf len).mpr ⟨h, hus, rfl⟩) _ hmem rfl
  · rintro ⟨hus, hvs⟩
    refine ⟨?_, fun h hh hmem => ?_⟩
    · rw [inodes_append, List.nodup_append]
      refine ⟨hus.once, hvs.once, fun i hi j hj hij => ?_⟩
      subst hij
      obtain ⟨h, hh, rfl⟩ := (inode_mem_linksOf len).mp hi
      exact hvs.new h (List.mem_append_right _ hh) hj
    · rw [inodes_append, List.mem_append] at hmem
      rcases hmem with hmem | hmem
      · exact hus.new h hh hmem
      · exact hvs.new h (List.mem_append_left _ hh) hmem

end Links

section Ends

variable {F G α : Type} [Posix F] [Posix G] {c d e : Joint F G α}

-- The client has been stopped, or the server has while the client waits for it.
def Crashes (c : Joint F G α) : Prop :=
  ∃ d, Quiet c d ∧
    ((∃ e, d.left = halt e) ∨ (∃ e, d.right = halt e) ∧ Waits d.left d.toLeft)

def Deadlocks (c : Joint F G α) : Prop :=
  ∃ d, Quiet c d ∧ d.Deadlock

theorem Crashes.prepend (h' : Crashes d) (h : Quiet c d) : Crashes c := by
  obtain ⟨e, he, hend⟩ := h'
  exact ⟨e, h.trans he, hend⟩

theorem Deadlocks.prepend (h' : Deadlocks d) (h : Quiet c d) : Deadlocks c := by
  obtain ⟨e, he, hend⟩ := h'
  exact ⟨e, h.trans he, hend⟩

end Ends

section States

variable {F G α : Type}

-- The client at the top of the pull loop, with what follows it.
def pulling (header : Mem sizeofHeader) (client : Client) (rest : Client → Code α) : Code α :=
  unroll pullRound (header.val, client) >>= rest

-- The client there, the server at `program`, nothing in flight.
def pullState (rest : Client → Code α) (header : Mem sizeofHeader) (client : Client) (ch : Host F)
    (program : Code Unit) (sh : Host G) (a b : Bytes) : Joint F G α :=
  ⟨pulling header client rest, ch, program, sh, [], [], a, b⟩

end States

-- What one file system is taken to do when no other process uses it.
structure Undisturbed (G : Type) [Posix G] : Prop where
  granted : LocksGranted G
  unchanged : ∀ (f : G) st path, afterSend f st path = f
  linkFits : ∀ (f : G) path size target, Posix.readlink f path size = some target →
    target.length ≤ size

end Csiebox.Pull
