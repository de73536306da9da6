import Csiebox.Pull.Theorems
import Csiebox.Replica.Copying
import Csiebox.Session.Converges

namespace Csiebox.Replica

open CBytes TreeFs Program Prog Session Pull

section Messages

-- The trees of a pull: no symbolic links on the server's side. The server looks up the files
-- to be hashed in its own working directory, where no directory may be in their place.
structure Pullable (home : Bytes) (src : TreeFs) (b : Path) (dst : TreeFs) : Prop
    extends Copyable home src b dst dst.cwd where
  home : home ≠ [] ∧ src.resolve home = some b
  noLinks : ∀ p target, shown src b p ≠ some (.link target)
  stray : ∀ p content, shown src b p = some (.file content) →
    (src.resolve (sent p)).bind src.kind ≠ some .dir

end Messages

section Client

variable {src dst : TreeFs} {home : Bytes} {b p : Path} {k : Kind} {on : Set Path} {st : Mem 144}
  {client : Client} {sh ch : Host TreeFs}

-- `utime` at the end of an entry.
theorem Copying.touch (h : Copying src b dst dst.cwd on sh.fs ch.fs)
    (hcopy : Copyable home src b dst dst.cwd) (hp : p ≠ []) (hk : shown src b p = some k) (hon : p ∈ on)
    (path st : Bytes) :
    Copying src b dst dst.cwd on sh.fs (touch ch path st).fs ∧
      (touch ch path st).fs.watches = ch.fs.watches ∧ (touch ch path st).fs.nextWd = ch.fs.nextWd := by
  have hkind : ch.fs.kind (dst.cwd ++ p) = some k := by
    rw [← hk]
    exact h.copies.copied p hon
  have hput := (Put.self h.target hkind).utime path (stAtime st) (stMtime st)
  have hnew := h.put hcopy hp hk hput
  rw [Set.insert_eq_of_mem hon] at hnew
  exact ⟨hnew, hput.watches⟩

end Client

section Entry

variable {α : Type} {md5 : Bytes → Mem 16} {home : Bytes} {dst : TreeFs} {b p : Path} {k : Kind}
  {on : Set Path} {st : Mem 144} {rest : Client → Code α} {header : Mem sizeofHeader} {client : Client}
  {ch sh : Host TreeFs}
  {c start : Joint TreeFs TreeFs α}

-- The client has written behind the end of `event_path`.
def ClientOverruns (c : Joint TreeFs TreeFs α) : Prop := ∃ e, Quiet c e ∧ e.left = halt .overrun

theorem ClientOverruns.prepend (h : ClientOverruns start) (hquiet : Quiet c start) : ClientOverruns c := by
  obtain ⟨e, he, hend⟩ := h
  exact ⟨e, hquiet.trans he, hend⟩

-- `send_meta` finds a digest, be it that of another file.
theorem Pullable.digest (hpull : Pullable home sh.fs b dst) (md5 : Bytes → Mem 16)
    (hk : shown sh.fs b p = some k) (hst : StatOf st.val k) :
    ∃ hash, digestOf md5 sh.fs st.val (sent p) = some hash := by
  cases k with
  | link target => exact absurd hk (hpull.noLinks p target)
  | dir =>
      have hlnk : ¬sIsLnk (stMode st.val) = true := by rw [hst.mode]; decide
      have hreg : ¬sIsReg (stMode st.val) = true := by rw [hst.mode]; decide
      exact ⟨zeros 16, by rw [digestOf, if_neg hlnk, if_neg hreg]⟩
  | file content =>
      have hreg := hst.isReg
      have hstray := hpull.stray p content hk
      simp only [digestOf, not_lnk_of_reg hreg, hreg, Bool.false_eq_true, if_false, if_true]
      cases hkind : (sh.fs.resolve (sent p)).bind sh.fs.kind with
      | none => exact ⟨zeros 16, by rw [reads_none hkind]⟩
      | some other =>
          cases other with
          | dir => exact absurd hkind hstray
          | file bs => exact ⟨(md5 bs).val, by rw [reads_file hkind]; simp only [hashedBytes_file]; rfl⟩
          | link target =>
              have hreads : Posix.reads sh.fs (sent p) = none := by simp [Posix.reads, hkind, readsOf]
              exact ⟨zeros 16, by rw [hreads]⟩

end Entry

end Csiebox.Replica
