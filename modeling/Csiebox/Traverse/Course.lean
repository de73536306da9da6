import Csiebox.Client.Calls
import Csiebox.Traverse.Lemmas

namespace Csiebox.Traverse

open CBytes Program Prog Pull

section Course

variable {G : Type} [Posix G]

def courseEntries (g : G) (descend : Bytes → List (Option Visit)) (dirName : Bytes) :
    List Dirent → List (Option Visit)
  | [] => []
  | entry :: entries =>
      if entry.name.val.head? = some dot then courseEntries g descend dirName entries
      else match Posix.lstat g (snprintfPath dirName entry.name.val) with
        | none => []
        | some st =>
            some { path := snprintfPath dirName entry.name.val, st } ::
              ((if sIsDir (stMode st.val) then descend (snprintfPath dirName entry.name.val) else []) ++
                courseEntries g descend dirName entries)

-- The visits of the server's traversal, with `none` where the stack is used up.
def course (g : G) : Nat → Bytes → List (Option Visit)
  | 0, _ => [none]
  | depth + 1, dirName =>
      match Posix.opendir g dirName with
      | none => []
      | some entries => courseEntries g (course g depth) dirName entries

-- The sending part of the traversal.
def sendCourse (md5 : Bytes → Mem 16) (len connFd : Nat) :
    List (Option Visit) → List HardLink → Code (List HardLink)
  | [], hl => ret hl
  | none :: _, _ => halt .stackOverflow
  | some v :: vs, hl => do
      let hl ← serverEntry md5 len connFd v.st.val v.path hl
      sendCourse md5 len connFd vs hl

-- The same is read under the same paths.
structure SameFiles (g g' : G) : Prop extends SameTree g g' where
  readlink : ∀ path size, Posix.readlink g' path size = Posix.readlink g path size
  reads : ∀ path, Posix.reads g' path = Posix.reads g path
  fopenRead : ∀ path, Posix.fopenRead g' path = Posix.fopenRead g path

-- What a system does when no other process uses it: a lock is granted, and neither
-- locking nor closing a file changes what is read.
structure Unshared (G : Type) [Posix G] : Prop where
  granted : LocksGranted G
  setlkw : ∀ (g g' : G) fp fl result, Posix.setlkw g fp fl = some (result, g') → SameFiles g g'
  fclose : ∀ (g : G) fp, SameFiles g (Posix.fclose g fp)
  linkFits : ∀ (g : G) path size target, Posix.readlink g path size = some target →
    target.length ≤ size

end Course

section Calls

def SendCall : {ι : Type} → Sys ι → Prop
  | _, .readlink .. => True
  | _, .reads _ => True
  | _, .fopenRead _ => True
  | _, .setlkw .. => True
  | _, .fclose _ => True
  | _, _ => False

theorem sendCalls_sendCall : SendCalls SendCall :=
  ⟨fun _ _ => trivial, fun _ => trivial, fun _ => trivial, fun _ _ => trivial, fun _ => trivial⟩

variable {G : Type} [Posix G] {g g' g'' : G}

theorem SameFiles.refl (g : G) : SameFiles g g :=
  ⟨.refl g, fun _ _ => rfl, fun _ => rfl, fun _ => rfl⟩

theorem SameFiles.trans (h : SameFiles g g') (h' : SameFiles g' g'') : SameFiles g g'' where
  toSameTree := h.toSameTree.trans h'.toSameTree
  readlink path size := (h'.readlink path size).trans (h.readlink path size)
  reads path := (h'.reads path).trans (h.reads path)
  fopenRead path := (h'.fopenRead path).trans (h.fopenRead path)

theorem keeps_sendCall (hG : Unshared G) (g : G) : Keeps host SendCall fun h : Host G =>
    SameFiles g h.fs := by
  intro ι op h r h' hop hsame hexec
  cases op with
  | setlkw fp fl =>
      obtain ⟨⟨granted, g'⟩, hlock, hset⟩ := Option.map_eq_some_iff.mp hexec
      obtain ⟨rfl, rfl⟩ := Prod.mk.inj hset
      exact hsame.trans (hG.setlkw _ _ _ _ _ hlock)
  | fclose fp =>
      cases hexec
      exact hsame.trans (hG.fclose h.fs fp)
  | readlink path size =>
      cases hexec
      exact hsame
  | reads path =>
      cases hexec
      exact hsame
  | fopenRead path =>
      cases hexec
      exact hsame
  | _ => exact absurd hop (by simp [SendCall])

-- What is read behind a part of the traversal.
theorem sameFiles_behind (hG : Unshared G) {α : Type} {p : Code α} (hp : p.Calls SendCall) {h h' : Host G}
    {l l' : Link UInt8} {ws : List (Word UInt8)} {a : α} (hsame : SameFiles g h.fs)
    (hrun : Spoken host ⟨p, h, l⟩ ws ⟨ret a, h', l'⟩) : SameFiles g h'.fs := by
  obtain ⟨out, hexec⟩ := hrun.exec
  exact (run_calls (keeps_sendCall hG g) hexec hp hsame).2

end Calls

section Flat

variable {G α : Type} [Posix G] {g : G} {md5 : Bytes → Mem 16} {len connFd : Nat}

theorem sendCourse_append (us vs : List (Option Visit)) (hl : List HardLink) :
    sendCourse md5 len connFd (us ++ vs) hl =
      sendCourse md5 len connFd us hl >>= sendCourse md5 len connFd vs := by
  induction us generalizing hl with
  | nil => rfl
  | cons u us ih =>
      cases u with
      | none => rfl
      | some v => simp only [List.cons_append, sendCourse, ih, bind_assoc]

-- Programs whose messages are the same wherever the files are those of `g`.
def AlikeOn (g : G) (p q : Code α) : Prop :=
  ∀ (h : Host G) l, SameFiles g h.fs → Alike host host ⟨p, h, l⟩ ⟨q, h, l⟩

theorem alikeOn_bind (hG : Unshared G) {β : Type} {p : Code β} (hp : p.Calls SendCall) {f f' : β → Code α}
    (h : ∀ b, AlikeOn g (f b) (f' b)) : AlikeOn g (p >>= f) (p >>= f') :=
  fun _ _ hsame => alike_bind fun _ b _ _ hrun => h b _ _ (sameFiles_behind hG hp hsame hrun)

-- A look at the file system is no message.
theorem alikeOn_look {β : Type} {o : Sys β} {b : β} {f : β → Code α} {q : Code α}
    (ho : ∀ h : Host G, SameFiles g h.fs → Host.exec o h = some (b, h)) (h : AlikeOn g (f b) q) :
    AlikeOn g (sys o >>= f) q := by
  intro s l hsame
  have hstep : step host ⟨(sys o : Code β) >>= f, s, l⟩ = some (⟨f b, s, l⟩, []) := by
    simp only [step, sys, Bind.bind, Prog.bind]
    exact Option.map_eq_some_iff.mpr ⟨(b, s), ho s hsame, rfl⟩
  exact (alike_silent hstep rfl).trans (h s l hsame)

theorem alikeOn_visit (hG : Unshared G) {descend : Bytes → List HardLink → Code (List HardLink)}
    {below : Bytes → List (Option Visit)}
    (hdescend : ∀ dirName hl (k k' : List HardLink → Code α), (∀ hl, AlikeOn g (k hl) (k' hl)) →
      AlikeOn g (descend dirName hl >>= k) (sendCourse md5 len connFd (below dirName) hl >>= k'))
    (dirName : Bytes) (entries : List Dirent) (hl : List HardLink) {k k' : List HardLink → Code α}
    (hk : ∀ hl, AlikeOn g (k hl) (k' hl)) :
    AlikeOn g (serverVisit md5 len connFd descend dirName entries hl >>= k)
      (sendCourse md5 len connFd (courseEntries g below dirName entries) hl >>= k') := by
  induction entries generalizing hl with
  | nil => exact hk hl
  | cons entry entries ih =>
      rw [serverVisit, courseEntries]
      by_cases hhidden : entry.name.val.head? = some dot
      · rw [if_pos hhidden, if_pos hhidden]
        exact ih hl
      · rw [if_neg hhidden, if_neg hhidden]
        simp only [bind_assoc]
        refine alikeOn_look (b := Posix.lstat g (snprintfPath dirName entry.name.val))
          (fun h hsame => by rw [← hsame.lstat]; rfl) ?_
        cases Posix.lstat g (snprintfPath dirName entry.name.val) with
        | none => exact hk hl
        | some st =>
            simp only [sendCourse, sendCourse_append, bind_assoc]
            refine alikeOn_bind hG (calls_serverEntry sendCalls_sendCall) fun hl => ?_
            split_ifs
            · exact hdescend _ hl _ _ ih
            · exact ih hl

-- The traversal sends what its course says.
theorem alikeOn_course (hG : Unshared G) (depth : Nat) (dirName : Bytes) (hl : List HardLink)
    {k k' : List HardLink → Code α} (hk : ∀ hl, AlikeOn g (k hl) (k' hl)) :
    AlikeOn g (serverTraverseFile md5 len connFd depth dirName hl >>= k)
      (sendCourse md5 len connFd (course g depth dirName) hl >>= k') := by
  induction depth generalizing dirName hl k k' with
  | zero => exact fun h l _ => .refl _
  | succ depth ih =>
      rw [serverTraverseFile, course]
      simp only [bind_assoc]
      refine alikeOn_look (b := Posix.opendir g dirName) (fun h hsame => by rw [← hsame.opendir]; rfl) ?_
      cases Posix.opendir g dirName with
      | none => exact hk hl
      | some entries => exact alikeOn_visit hG (fun dirName hl k k' hk =>
        ih dirName hl hk) dirName entries hl hk

end Flat

end Csiebox.Traverse
