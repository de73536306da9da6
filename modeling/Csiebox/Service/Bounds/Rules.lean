import Csiebox.Service.Bounds

namespace Csiebox

open CBytes Program Prog

section Rules

variable {F : Type} [Posix F] {α γ : Type} {h : Host F} {l : Link UInt8}

omit [Posix F] in
theorem exists_fresh (n : Nat) : ∃ m : Mem n, m.val = h.fresh n :=
  ⟨⟨h.fresh n, by simp [Host.fresh]⟩, rfl⟩

abbrev FitsHost (p : Code α) (h : Host F) (l : Link UInt8) : Prop := Fits host Fault.overrun p h l

theorem fits_checkSize {fits : Prop} [Decidable fits] {f : Unit → Code α} :
    FitsHost (checkSize fits >>= f) h l ↔ (fits → FitsHost (f ()) h l) := by
  by_cases hfits : fits
  · rw [checkSize_pos hfits, ret_bind]
    exact ⟨fun h _ => h, fun h => h hfits⟩
  · rw [checkSize_neg hfits, halt_bind]
    exact ⟨fun _ h => absurd h hfits, fun _ => fits_halt⟩

theorem fits_end_sys {op : Sys γ} : FitsHost (sys op : Code γ) h l := by
  rw [← bind_pure (sys op)]
  exact fits_sys.mpr fun _ _ _ => fits_ret

theorem fits_sendMessage {m : Bytes} {p : Code α} :
    FitsHost (sendMessage m >>= fun _ => p) h l ↔ FitsHost p h l := by
  unfold sendMessage
  split_ifs
  · exact Iff.rfl
  · exact fits_say

theorem fits_uninit {n : Nat} {f : Mem n → Code α} :
    FitsHost (sys (.uninit n) >>= f) h l ↔
      ∀ m : Mem n, m.val = h.fresh n → FitsHost (f m) h.tick l := by
  rw [FitsHost, fits_sys]
  constructor
  · intro hf m hm
    refine hf m h.tick ?_
    obtain ⟨m, hlen⟩ := m
    obtain rfl : m = h.fresh n := hm
    rfl
  · intro hf m h' hexec
    simp only [host, Host.exec, Option.some.injEq, Prod.mk.injEq] at hexec
    obtain ⟨rfl, rfl⟩ := hexec
    exact hf _ rfl

theorem fits_hear_received {n : Nat} {f : Bytes → Code α} :
    FitsHost (hear n >>= f) h l ↔
      (∃ bs : Bytes, bs.length = n ∧ f bs ≠ halt .overrun) ∧
        ∀ got, received l n = some got → f got ≠ halt .overrun ∧ FitsHost (f got) h (Link.skip l n) := by
  refine fits_hear.trans (and_congr_right fun _ => ?_)
  constructor
  · rintro ⟨hfull, hshort⟩ got hgot
    simp only [received, Option.ite_none_right_eq_some, Option.some.injEq] at hgot
    obtain ⟨harrived, rfl⟩ := hgot
    by_cases hn : n ≤ l.inbox.length
    · exact hfull hn
    · have hclosed := harrived.resolve_left hn
      rw [List.take_of_length_le (by omega), Link.skip, List.drop_eq_nil_of_le (by omega), hclosed]
      exact hshort (by omega) hclosed
  · intro hf
    refine ⟨fun hn => hf _ (if_pos (.inl hn)), fun hn hclosed => ?_⟩
    have hall := hf _ (if_pos (.inr hclosed))
    rwa [List.take_of_length_le (by omega), Link.skip, List.drop_eq_nil_of_le (by omega),
      hclosed] at hall

-- A receive whose result is not looked at.
theorem fits_recv {message : Bytes} {len : Nat} {f : Bool × Bytes → Code α} {g : Bytes → Code α}
    (hf : ∀ ok m, f (ok, m) = g m) (hpos : 0 < len) :
    FitsHost (recvMessage message len >>= f) h l ↔
      len ≤ message.length ∧
        (∃ bs : Bytes, bs.length = len ∧ g (overlay message bs) ≠ halt .overrun) ∧
        ∀ got, received l len = some got → g (overlay message got) ≠ halt .overrun ∧
          FitsHost (g (overlay message got)) h (Link.skip l len) := by
  unfold recvMessage
  rw [if_neg hpos.ne', bind_assoc, fits_hear_received]
  simp only [bind_assoc, ret_bind, hf]
  have hchecked : ∀ {bs : Bytes}, bs.length ≤ message.length →
      (checkSize (bs.length ≤ message.length) >>= fun _ => g (overlay message bs)) =
        g (overlay message bs) := by
    intro bs hlen
    rw [checkSize_pos hlen, ret_bind]
  have hfit : ∀ {bs : Bytes}, (checkSize (bs.length ≤ message.length) >>= fun _ =>
      g (overlay message bs)) ≠ halt .overrun → bs.length ≤ message.length := by
    intro bs hne
    by_contra hlen
    rw [checkSize_neg hlen] at hne
    exact hne rfl
  constructor
  · rintro ⟨⟨bs, rfl, hroom⟩, hgot⟩
    refine ⟨hfit hroom, ⟨bs, rfl, by rwa [hchecked (hfit hroom)] at hroom⟩, fun got hr => ?_⟩
    have hboth := hgot got hr
    rwa [hchecked (hfit hboth.1)] at hboth
  · rintro ⟨hlen, ⟨bs, hbs, hroom⟩, hgot⟩
    refine ⟨⟨bs, hbs, by rwa [hchecked (by omega)]⟩, fun got hr => ?_⟩
    have hshort := received_length hr
    rw [hchecked (by omega)]
    exact hgot got hr

theorem recvMessage_ne_halt {message : Bytes} {len : Nat} {f : Bool × Bytes → Code α}
    (hf : f (false, message) ≠ halt .overrun) : recvMessage message len >>= f ≠ halt .overrun := by
  unfold recvMessage
  split_ifs
  · exact hf
  · rintro ⟨⟩

theorem fits_recvMessage {message : Bytes} {len : Nat} {f : Bool × Bytes → Code α} {g : Bytes → Code α}
    (hf : ∀ ok m, f (ok, m) = g m)
    (hg : len ≤ message.length → ∀ m, m.length = message.length → g m ≠ halt .overrun) :
    FitsHost (recvMessage message len >>= f) h l ↔
      len ≤ message.length ∧ ∀ got, received l len = some got →
        FitsHost (g (overlay message got)) h (Link.skip l len) := by
  rcases Nat.eq_zero_or_pos len with rfl | hpos
  · rw [recvMessage_zero, ret_bind, hf]
    simp [received, Link.skip]
  · rw [fits_recv hf hpos]
    refine and_congr_right fun hlen => ?_
    have hne : ∀ bs : Bytes, bs.length ≤ len → g (overlay message bs) ≠ halt .overrun :=
      fun bs hbs => hg hlen _ (overlay_length (by omega))
    exact ⟨fun h got hr => (h.2 got hr).2, fun h =>
      ⟨⟨zeros len, zeros_length len, hne _ (zeros_length len).le⟩,
        fun got hr => ⟨hne _ (received_length hr), h got hr⟩⟩⟩

theorem strcat_eq {base path : Bytes} {g : Bytes → Code α} :
    (strcat base path >>= g) =
      if Appendable base path then g (base ++ cString path) else halt .overrun := by
  by_cases happ : Appendable base path
  · rw [if_pos happ, strcat, checkSize_pos (show _ + _ < pathMax from happ)]
    rfl
  · rw [if_neg happ, strcat, checkSize_neg (show ¬_ + _ < pathMax from happ)]
    rfl

theorem cString_zeros (n : Nat) : cString (zeros n) = [] := by cases n <;> rfl

theorem appendable_zeros {base : Bytes} (hbase : base.length < pathMax) (n : Nat) :
    Appendable base (zeros n) := by
  rwa [Appendable, cString_zeros]

theorem appendable_overlay {base got : Bytes} {size : Nat} :
    Appendable base (overlay (zeros size) got) ↔ Appendable base got := by
  rw [Appendable, cString_overlay, Appendable]

-- A path behind the base directory.
theorem fits_recvPath {base : Bytes} {size len : Nat} {f : Bool × Bytes → Code α}
    {g : Bytes → Code α} (hbase : base.length < pathMax)
    (hf : ∀ ok m, f (ok, m) = strcat base m >>= g) (hg : ∀ m, g m ≠ halt .overrun) :
    FitsHost (recvMessage (zeros size) len >>= f) h l ↔
      len ≤ size ∧ ∀ got, received l len = some got →
        Appendable base got ∧ FitsHost (g (base ++ cString got)) h (Link.skip l len) := by
  rcases Nat.eq_zero_or_pos len with rfl | hpos
  · have hempty : Appendable base [] := hbase
    rw [recvMessage_zero, ret_bind, hf, strcat_eq, if_pos (appendable_zeros hbase size),
      cString_zeros]
    simp [received, Link.skip, hempty, cString]
  · rw [fits_recv hf hpos, zeros_length]
    refine and_congr_right fun _ => ?_
    simp only [strcat_eq, appendable_overlay, cString_overlay]
    constructor
    · rintro ⟨-, hgot⟩ got hr
      obtain ⟨hne, hfits⟩ := hgot got hr
      split_ifs at hne hfits with happ
      · exact ⟨happ, hfits⟩
      · exact absurd rfl hne
    · intro hgot
      refine ⟨⟨zeros len, zeros_length len, ?_⟩, fun got hr => ?_⟩
      · rw [if_pos (appendable_zeros hbase len)]
        exact hg _
      · obtain ⟨happ, hfits⟩ := hgot got hr
        rw [if_pos happ]
        exact ⟨hg _, hfits⟩

-- The body of a request.
theorem fits_complete {size : Nat} {result : Bytes} {h' : Host F} {f : Bool × Bytes → Code α}
    (hresult : result = h.fresh size) (hfalse : ∀ m, f (false, m) ≠ halt .overrun)
    (hquiet : ∀ m (h : Host F) l, FitsHost (f (false, m)) h l) :
    FitsHost (completeMessageWithHeader (requestHead l) result >>= f) h' (Link.skip l sizeofHeader) ↔
      BodyFits size l ∧
        (∃ body : Bytes, body.length = headerDatalen (requestHead l) ∧
          f (true, overlay (h.fresh size) (requestHead l ++ body)) ≠ halt .overrun) ∧
        ∀ m, messageOf size h l = some m →
          f (true, m) ≠ halt .overrun ∧ FitsHost (f (true, m)) h' (behindBody l) := by
  have hsize : result.length = size := by simp [hresult, Host.fresh]
  unfold completeMessageWithHeader
  rw [bind_assoc, fits_hear_received]
  simp only [bind_assoc, ret_bind, hsize]
  subst hresult
  have hchecked : ∀ {got : Bytes} (r : Bool × Bytes), sizeofHeader + got.length ≤ size →
      (checkSize (sizeofHeader + got.length ≤ size) >>= fun _ => f r) = f r := by
    intro got r hlen
    rw [checkSize_pos hlen, ret_bind]
  have hfit : ∀ {got : Bytes} {r : Bool × Bytes},
      (checkSize (sizeofHeader + got.length ≤ size) >>= fun _ => f r) ≠ halt .overrun →
        sizeofHeader + got.length ≤ size := by
    intro got r hne
    by_contra hlen
    rw [checkSize_neg hlen] at hne
    exact hne rfl
  have hskip : Link.skip (Link.skip l sizeofHeader) (headerDatalen (requestHead l)) = behindBody l := by
    simp [Link.skip, behindBody]
  constructor
  · rintro ⟨⟨bs, hbs, hroom⟩, hgot⟩
    have hlen := hfit hroom
    rw [hbs] at hlen
    refine ⟨hlen, ⟨bs, hbs, ?_⟩, fun m hm => ?_⟩
    · rwa [hchecked _ (by omega), hbs, beq_self_eq_true] at hroom
    · dsimp only [messageOf] at hm
      split_ifs at hm with hbody
      cases hm
      have htake : ((l.inbox.drop sizeofHeader).take (headerDatalen (requestHead l))).length =
          headerDatalen (requestHead l) := List.length_take_of_le hbody
      have hboth := hgot _ (if_pos (.inl hbody))
      rwa [hchecked _ (hfit hboth.1), htake, beq_self_eq_true, hskip] at hboth
  · rintro ⟨hlen, ⟨bs, hbs, hroom⟩, hm⟩
    refine ⟨⟨bs, hbs, ?_⟩, fun got hr => ?_⟩
    · rwa [hchecked _ (by rw [hbs]; exact hlen), hbs, beq_self_eq_true]
    · have hshort : sizeofHeader + got.length ≤ size :=
        (Nat.add_le_add_left (received_length hr) _).trans hlen
      rw [hchecked _ hshort]
      simp only [received, Option.ite_none_right_eq_some, Option.some.injEq] at hr
      obtain ⟨-, rfl⟩ := hr
      by_cases hbody : headerDatalen (requestHead l) ≤ (l.inbox.drop sizeofHeader).length
      · rw [List.length_take_of_le hbody, beq_self_eq_true, hskip]
        exact hm _ (if_pos hbody)
      · rw [beq_false_of_ne (by rw [List.length_take]; omega)]
        exact ⟨hfalse _, hquiet _ _ _⟩

end Rules

end Csiebox
