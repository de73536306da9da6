import Csiebox.Service.Survival
import Csiebox.Service.Bounds.Rules
import Csiebox.Lib.Total

namespace Csiebox

open CBytes Program Prog

section Rules

variable {F C : Type} [Posix F] [Channel UInt8 C] {α γ : Type} {h h' : Host F} {c : C}
  {Q : α → Host F → C → Prop}

abbrev TotalHost (p : Code α) (h : Host F) (c : C) (Q : α → Host F → C → Prop) : Prop :=
  Total host p h c Q

abbrev Returns (p : Code α) (h : Host F) (c : C) : Prop := TotalHost p h c fun _ _ _ => True

theorem total_seq {p : Code γ} {f : γ → Code α} :
    TotalHost (p >>= f) h c Q ↔ TotalHost p h c fun a h c => TotalHost (f a) h c Q :=
  total_bind

theorem total_checkSize {fits : Prop} [Decidable fits] {f : Unit → Code α} :
    TotalHost (checkSize fits >>= f) h c Q ↔ fits ∧ TotalHost (f ()) h c Q := by
  by_cases hfits : fits
  · rw [checkSize_pos hfits, ret_bind]
    exact (and_iff_right hfits).symm
  · rw [checkSize_neg hfits, halt_bind]
    exact ⟨fun h => absurd h not_total_halt, fun h => absurd h.1 hfits⟩

omit [Posix F] in
@[simp] theorem link_posted (m : Bytes) : Channel.link (posted c m) = Channel.link c := by
  unfold posted
  split_ifs
  · rfl
  · exact Channel.link_sent c

-- Nothing is counted.
omit [Posix F] in
@[simp] theorem posted_link (l : Link UInt8) (m : Bytes) : posted l m = l := by
  unfold posted
  split_ifs <;> rfl

theorem posted_header (magic op status : UInt8) (clientId datalen : Nat) :
    posted c (header magic op status clientId datalen) = Channel.sent c := rfl

theorem total_sendMessage {m : Bytes} {p : Code α} :
    TotalHost (sendMessage m >>= fun _ => p) h c Q ↔ TotalHost p h (posted c m) Q := by
  unfold sendMessage posted
  split_ifs
  · exact Iff.rfl
  · exact total_bind.trans total_say

theorem total_done {op : Sys α} {r : α} (hexec : Host.exec op h = some (r, h')) :
    TotalHost (sys op) h c Q ↔ Q r h' c := by
  refine total_sys.trans ⟨?_, fun hq => ⟨r, h', hexec, hq⟩⟩
  rintro ⟨r', h₁, hexec', hq⟩
  obtain ⟨rfl, rfl⟩ := Prod.mk.inj (Option.some.inj (hexec.symm.trans hexec'))
  exact hq

theorem total_call {op : Sys γ} {r : γ} {f : γ → Code α} (hexec : Host.exec op h = some (r, h')) :
    TotalHost (sys op >>= f) h c Q ↔ TotalHost (f r) h' c Q :=
  total_bind.trans (total_done hexec)

theorem mute_md5File (md5 : Bytes → Mem 16) (path digest : Bytes) : Mute (md5File md5 path digest) := by
  unfold md5File
  refine (mute_sys _).bind fun r => ?_
  split
  · exact .ret _
  · split
    · exact .halt _
    · exact .ret _

-- A receive of nothing is none that the caller could tell from a failed one.
theorem total_recvMessage {message : Bytes} {len : Nat} {f : Bool × Bytes → Code α} :
    TotalHost (recvMessage message len >>= f) h c Q ↔
      ∃ got, received (Channel.link c) len = some got ∧ got.length ≤ message.length ∧
        TotalHost (f (decide (0 < len) && got.length == len, overlay message got)) h
          (Channel.skip c len) Q := by
  rcases Nat.eq_zero_or_pos len with rfl | hpos
  · simp [recvMessage_zero, received, Channel.skip_zero]
  · unfold recvMessage
    rw [if_neg hpos.ne', bind_assoc]
    refine total_seq.trans (total_hear.trans ?_)
    simp only [bind_assoc, total_checkSize, ret_bind, decide_eq_true hpos, Bool.true_and, received,
      Option.ite_none_right_eq_some, Option.some.injEq]
    constructor
    · rintro ⟨hready, -, hlen, hf⟩
      exact ⟨_, ⟨hready, rfl⟩, hlen, hf⟩
    · rintro ⟨_, ⟨hready, rfl⟩, hlen, hf⟩
      exact ⟨hready, fun hzero => absurd hzero hpos.ne', hlen, hf⟩

-- A header comes complete, or the connection ends before it does.
theorem total_recvHeader {head : Bytes} {f : Bool × Bytes → Code α} (hhead : head.length = sizeofHeader)
    (hlen : sizeofHeader ≤ (Channel.link c).inbox.length) :
    TotalHost (recvMessage head sizeofHeader >>= f) h c Q ↔
      TotalHost (f (true, requestHead (Channel.link c))) h (Channel.skip c sizeofHeader) Q := by
  have htake : (requestHead (Channel.link c)).length = sizeofHeader := List.length_take_of_le hlen
  have hgot : received (Channel.link c) sizeofHeader = some (requestHead (Channel.link c)) :=
    if_pos (.inl hlen)
  rw [total_recvMessage, hgot]
  simp only [Option.some.injEq, exists_eq_left']
  rw [and_iff_right (by rw [htake, hhead]), overlay_full (by rw [htake, hhead]), htake,
    beq_self_eq_true, decide_eq_true (by decide), Bool.true_and]

theorem total_recvHeader_short {head : Bytes} {f : Bool × Bytes → Code α}
    (hhead : head.length = sizeofHeader) (hlen : ¬sizeofHeader ≤ (Channel.link c).inbox.length) :
    TotalHost (recvMessage head sizeofHeader >>= f) h c Q ↔ (Channel.link c).closed = true ∧
      TotalHost (f (false, overlay head (Channel.link c).inbox)) h (Channel.skip c sizeofHeader) Q := by
  rw [total_recvMessage, received]
  simp only [hlen, false_or, Option.ite_none_right_eq_some, Option.some.injEq]
  rw [List.take_of_length_le (by omega)]
  constructor
  · rintro ⟨_, ⟨hclosed, rfl⟩, -, hf⟩
    rw [beq_false_of_ne (by omega), Bool.and_false] at hf
    exact ⟨hclosed, hf⟩
  · rintro ⟨hclosed, hf⟩
    refine ⟨_, ⟨hclosed, rfl⟩, by omega, ?_⟩
    rwa [beq_false_of_ne (by omega), Bool.and_false]

end Rules

section Body

variable {F : Type} [Posix F] {α : Type} {h h' : Host F} {l : Link UInt8} {n : Nat}
  {Q : α → Host F → Wire UInt8 → Prop}

end Body

end Csiebox
