import Csiebox.Common
import Csiebox.Protocol.Lemmas
import Csiebox.Lib.Dialogue

namespace Csiebox

open CBytes Program Prog

section Messages

variable {σ : Type} {K : Kernel Sys σ} {s : σ}

theorem checkSize_pos {fits : Prop} [Decidable fits] (h : fits) : checkSize fits = ret () := if_pos h

theorem checkSize_neg {fits : Prop} [Decidable fits] (h : ¬fits) : checkSize fits = halt .overrun :=
  if_neg h

@[simp] theorem recvMessage_zero (message : Bytes) : recvMessage message 0 = ret (false, message) :=
  rfl

-- A complete receive, of length 0 too.
theorem exec_recvMessage {message bs : Bytes} {len : Nat} {c : Bool} (rest : Bytes) (hlen : bs.length = len)
    (hfit : len ≤ message.length) :
    Exec K ⟨recvMessage message len, s, ⟨bs ++ rest, c⟩⟩ []
      ⟨ret (decide (0 < len), overlay message bs), s, ⟨rest, c⟩⟩ := by
  by_cases h0 : len = 0
  · subst h0
    obtain rfl := List.eq_nil_of_length_eq_zero hlen
    simpa using Exec.refl _
  · rw [recvMessage, if_neg h0]
    refine Exec.seq (exec_hear hlen) ?_
    rw [checkSize_pos (by omega), ret_bind, beq_iff_eq.mpr hlen,
      decide_eq_true (Nat.pos_of_ne_zero h0)]
    exact .refl _

theorem exec_recvMessage_full {message bs : Bytes} {len : Nat} {c : Bool} (rest : Bytes)
    (hlen : bs.length = len) (hfit : message.length = len) (hpos : 0 < len) :
    Exec K ⟨recvMessage message len, s, ⟨bs ++ rest, c⟩⟩ [] ⟨ret (true, bs), s, ⟨rest, c⟩⟩ := by
  have h := exec_recvMessage (K := K) (s := s) (c := c) rest hlen hfit.ge
  rwa [overlay_full (by omega), decide_eq_true hpos] at h

theorem exec_recvAll {message bs : Bytes} {len : Nat} (hlen : bs.length = len)
    (hfit : len ≤ message.length) :
    Exec K ⟨recvMessage message len, s, ⟨bs, false⟩⟩ []
      ⟨ret (decide (0 < len), overlay message bs), s, ⟨[], false⟩⟩ := by
  have h := exec_recvMessage (K := K) (s := s) (c := false) [] hlen hfit
  rwa [List.append_nil] at h

-- A receive that the end of the connection cuts short.
theorem exec_recvMessage_short {message bs : Bytes} {len : Nat} (hlen : bs.length < len)
    (hfit : bs.length ≤ message.length) :
    Exec K ⟨recvMessage message len, s, ⟨bs, true⟩⟩ []
      ⟨ret (false, overlay message bs), s, ⟨[], true⟩⟩ := by
  rw [recvMessage, if_neg (by omega)]
  refine Exec.seq (exec_hear_short hlen) ?_
  rw [checkSize_pos hfit, ret_bind, beq_false_of_ne (by omega)]
  exact .refl _

theorem exec_sendMessage {m : Bytes} {l : Link UInt8} (h : l.alive = true) :
    Exec K ⟨sendMessage m, s, l⟩ m ⟨ret (decide (0 < m.length)), s, l⟩ := by
  by_cases h0 : m.length = 0
  · obtain rfl := List.eq_nil_of_length_eq_zero h0
    exact .refl _
  · rw [sendMessage, if_neg h0, decide_eq_true (Nat.pos_of_ne_zero h0)]
    exact exec_say h

theorem talk_sendMessage (message : Bytes) :
    Talk K (sendMessage message) s [([], message)] (ret (decide (0 < message.length))) s :=
  .one (exec_sendMessage rfl)

theorem talk_recvMessage {message bs : Bytes} {len : Nat} (hlen : bs.length = len)
    (hfit : message.length = len) (hpos : 0 < len) :
    Talk K (recvMessage message len) s [(bs, [])] (ret (true, bs)) s :=
  .one (by simpa using exec_recvMessage_full [] hlen hfit hpos)

theorem exec_completeMessage {head result bs : Bytes} {c : Bool} (rest : Bytes)
    (hlen : bs.length = headerDatalen head) (hhead : head.length = sizeofHeader)
    (hfit : result.length = sizeofHeader + bs.length) :
    Exec K ⟨completeMessageWithHeader head result, s, ⟨bs ++ rest, c⟩⟩ []
      ⟨ret (true, head ++ bs), s, ⟨rest, c⟩⟩ := by
  refine Exec.seq (exec_hear hlen) ?_
  rw [checkSize_pos (by omega), ret_bind, overlay_full (by simp [hhead, hfit]),
    beq_iff_eq.mpr hlen]
  exact .refl _

theorem strcat_fits {dst src : Bytes} (h : dst.length + (cString src).length < pathMax) :
    strcat dst src = ret (dst ++ cString src) := by
  rw [strcat, checkSize_pos h, ret_bind]

-- A path read into a zeroed array that is one byte longer.
theorem cString_received {path : Bytes} (h : ∀ b ∈ path, b ≠ 0) :
    cString (overlay (zeros (path.length + 1)) path) = path := by
  rw [cString_overlay, cString_eq_self h]

end Messages

section Host

variable {F : Type} {h : Host F} {l : Link UInt8}

def Host.tick (h : Host F) : Host F := { h with locals := h.locals + 1 }

@[simp] theorem Host.tick_fs (h : Host F) : h.tick.fs = h.fs := rfl

@[simp] theorem Host.tick_notices (h : Host F) : h.tick.notices = h.notices := rfl

-- What the next local variable holds before it is written.
def Host.stale (h : Host F) (n : Nat) : Mem n :=
  ⟨(List.range n).map (h.garbage h.locals), by simp⟩

theorem exec_stale [Posix F] (n : Nat) :
    Exec host ⟨(sys (.uninit n) : Code (Mem n)), h, l⟩ [] ⟨ret (h.stale n), h.tick, l⟩ :=
  exec_sys rfl

theorem exec_uninit [Posix F] (n : Nat) :
    ∃ m : Mem n, Exec host ⟨(sys (.uninit n) : Code (Mem n)), h, l⟩ [] ⟨ret m, h.tick, l⟩ :=
  ⟨_, exec_stale n⟩

end Host

section Digest

variable {F : Type} [Posix F] {md5 : Bytes → Mem 16} {h : Host F} {l : Link UInt8}

theorem exec_md5File_absent {path digest : Bytes} (hreads : Posix.reads h.fs path = none) :
    Exec host ⟨md5File md5 path digest, h, l⟩ [] ⟨ret (0, digest), h, l⟩ := by
  refine Exec.seq (exec_sys rfl) ?_
  simp only [hreads]
  exact .refl _

theorem exec_md5File {path digest bs : Bytes} {rs : List ReadResult}
    (hreads : Posix.reads h.fs path = some rs) (hbytes : hashedBytes rs = some bs) :
    Exec host ⟨md5File md5 path digest, h, l⟩ [] ⟨ret (1, (md5 bs).val), h, l⟩ := by
  refine Exec.seq (exec_sys rfl) ?_
  simp only [hreads, hbytes]
  exact .refl _

theorem exec_md5File_crash {path digest : Bytes} {rs : List ReadResult}
    (hreads : Posix.reads h.fs path = some rs) (hbytes : hashedBytes rs = none) :
    Exec host ⟨md5File md5 path digest, h, l⟩ [] ⟨halt .overrun, h, l⟩ := by
  refine Exec.seq (exec_sys rfl) ?_
  simp only [hreads, hbytes]
  exact .refl _

end Digest

end Csiebox
