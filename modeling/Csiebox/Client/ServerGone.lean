import Csiebox.Client
import Csiebox.Lib.Clean
import Csiebox.Service.Survival.Lemmas
import Csiebox.Service.Survival.Pull

namespace Csiebox

open CBytes Program Prog

section Answers

-- The first complete header that is not BLOCK, and what comes behind it.
def judged (l : Link UInt8) : Option (Bytes × Link UInt8) :=
  if 0 < sizeofHeader ∧ sizeofHeader ≤ l.inbox.length then
    if headerStatus (requestHead l) = statusBlock then judged (Link.skip l sizeofHeader)
    else some (requestHead l, Link.skip l sizeofHeader)
  else none
termination_by l.inbox.length
decreasing_by
  simp only [List.length_drop]
  omega

-- The first complete header that says OK to a login, the client id in it.
def loginAnswer (l : Link UInt8) : Option Nat :=
  if 0 < sizeofHeader ∧ sizeofHeader ≤ l.inbox.length then
    if headerMagic (requestHead l) == magicRes && headerOp (requestHead l) == opLogin &&
        headerStatus (requestHead l) == statusOk then
      some (headerClientId (requestHead l))
    else loginAnswer (Link.skip l sizeofHeader)
  else none
termination_by l.inbox.length
decreasing_by
  simp only [List.length_drop]
  omega

variable {F : Type} [Posix F] (md5 : Bytes → Mem 16)

-- `send_meta` gets an answer, the server's verdict follows, and a content that is asked
-- for can be read.
def SyncEnds (f : F) (st path : Bytes) (l : Link UInt8) : Prop :=
  (digestOf md5 f st (path.drop 2)).isSome ∧ ∃ l₁, answered l = some l₁ ∧
    ∃ header l₂, judged l₁ = some (header, l₂) ∧
      (headerStatus header = statusMore → (contentSent f st path).isSome)

end Answers

section Waiting

variable {F : Type} [Posix F] {md5 : Bytes → Mem 16} {h : Host F} {l : Link UInt8} {head : Bytes}

theorem total_awaitVerdict_header (hhead : head.length = sizeofHeader)
    (hlen : sizeofHeader ≤ l.inbox.length) {R : Bytes ⊕ Bytes → Host F → Link UInt8 → Prop} :
    TotalHost (awaitVerdict head) h l R ↔
      R (if headerStatus (requestHead l) = statusBlock then .inl (requestHead l)
        else .inr (requestHead l)) h (Link.skip l sizeofHeader) := by
  unfold awaitVerdict
  rw [total_recvHeader hhead hlen, TotalHost, total_ret]
  simp only [Bool.true_and, bne_iff_ne, ne_eq, ite_not, channel_link, channel_skip]

theorem total_awaitVerdict_end (hhead : head.length = sizeofHeader)
    (hlen : ¬sizeofHeader ≤ l.inbox.length) {R : Bytes ⊕ Bytes → Host F → Link UInt8 → Prop} :
    TotalHost (awaitVerdict head) h l R ↔
      l.closed = true ∧ R (.inl (overlay head l.inbox)) h (Link.skip l sizeofHeader) := by
  unfold awaitVerdict
  rw [total_recvHeader_short hhead hlen]
  exact and_congr_right fun _ => total_ret

theorem judged_step (hlen : sizeofHeader ≤ l.inbox.length) :
    judged l = if headerStatus (requestHead l) = statusBlock then judged (Link.skip l sizeofHeader)
      else some (requestHead l, Link.skip l sizeofHeader) := by
  rw [judged, if_pos ⟨by decide, hlen⟩]

theorem judged_short (hlen : ¬sizeofHeader ≤ l.inbox.length) : judged l = none := by
  rw [judged, if_neg fun h => hlen h.2]

theorem skip_link_short (hlen : ¬sizeofHeader ≤ l.inbox.length) : (Link.skip l sizeofHeader).inbox = [] :=
  skip_short (c := l) hlen

-- A verdict that does not come is waited for for ever.
theorem total_awaitVerdict (hhead : head.length = sizeofHeader)
    {Q : Bytes → Host F → Link UInt8 → Prop} :
    TotalHost (iter awaitVerdict head) h l Q ↔ ∃ header l', judged l = some (header, l') ∧
      Q header h l' := by
  constructor
  · intro htotal
    refine htotal.iter_induction (fun head h l => head.length = sizeofHeader →
      ∃ header l', judged l = some (header, l') ∧ Q header h l') ?_ hhead
    intro head h l hround hhead
    by_cases hlen : sizeofHeader ≤ l.inbox.length
    · have hnext := (total_awaitVerdict_header hhead hlen).mp hround
      rw [judged_step hlen]
      split_ifs at hnext ⊢ with hblock
      · exact hnext (List.length_take_of_le hlen)
      · exact ⟨_, _, rfl, hnext⟩
    · obtain ⟨-, hnext⟩ := (total_awaitVerdict_end hhead hlen).mp hround
      obtain ⟨_, _, hnone, -⟩ := hnext (by rw [overlay_length (by omega), hhead])
      rw [judged_short (by rw [skip_link_short hlen]; decide)] at hnone
      cases hnone
  · rintro ⟨header, l', hverdict, hq⟩
    induction l using judged.induct generalizing head with
    | case1 l hlen hblock ih =>
        rw [judged_step hlen.2, if_pos hblock] at hverdict
        refine total_iter_unfold.mpr ((total_awaitVerdict_header hhead hlen.2).mpr ?_)
        rw [if_pos hblock]
        exact ih (List.length_take_of_le hlen.2) hverdict
    | case2 l hlen hblock =>
        rw [judged_step hlen.2, if_neg hblock] at hverdict
        obtain ⟨rfl, rfl⟩ := Prod.mk.inj (Option.some.inj hverdict)
        refine total_iter_unfold.mpr ((total_awaitVerdict_header hhead hlen.2).mpr ?_)
        rw [if_neg hblock]
        exact hq
    | case3 l hlen =>
        rw [judged, if_neg hlen] at hverdict
        cases hverdict

theorem returns_sendMeta {st path : Bytes} : Returns (sendMeta md5 st path) h l ↔
    (digestOf md5 h.fs st path).isSome ∧ (answered l).isSome := by
  simp only [total_sendMeta, Option.isSome_iff_exists, and_true, exists_and_left, exists_and_right]

theorem returns_sendFile {st path : Bytes} :
    Returns (sendFile st path) h l ↔ (contentSent h.fs st path).isSome := by
  refine (total_sendFile (P := fun _ _ => True)).trans ?_
  simp only [Option.isSome_iff_exists, and_true]

theorem returns_syncFile {st path : Bytes} :
    Returns (syncFile md5 st path) h l ↔ SyncEnds md5 h.fs st path l := by
  have hrest : ∀ (header : Bytes) (l : Link UInt8),
      Returns (if headerStatus header = statusMore then sendFile st path else ret ()) h l ↔
        (headerStatus header = statusMore → (contentSent h.fs st path).isSome) := by
    intro header l
    split_ifs with hmore
    · rw [returns_sendFile, forall_prop_of_true hmore]
    · exact iff_of_true (total_ret.mpr trivial) fun h => absurd h hmore
  unfold syncFile SyncEnds
  refine total_seq.trans (total_sendMeta.trans ?_)
  simp only [total_seq, posted_link, total_awaitVerdict (zeros_length sizeofHeader), hrest,
    Option.isSome_iff_exists]
  constructor
  · rintro ⟨hash, l₁, hd, hl₁, hverdict⟩
    exact ⟨⟨hash, hd⟩, l₁, hl₁, hverdict⟩
  · rintro ⟨⟨hash, hd⟩, l₁, hl₁, hverdict⟩
    exact ⟨hash, l₁, hd, hl₁, hverdict⟩

end Waiting

section Login

variable {F : Type} [Posix F] {md5 : Bytes → Mem 16} {h : Host F} {l : Link UInt8} {client : Client}

theorem loginAnswer_step (hlen : sizeofHeader ≤ l.inbox.length) :
    loginAnswer l = if headerMagic (requestHead l) == magicRes && headerOp (requestHead l) == opLogin &&
        headerStatus (requestHead l) == statusOk then
      some (headerClientId (requestHead l))
    else loginAnswer (Link.skip l sizeofHeader) := by
  rw [loginAnswer, if_pos ⟨by decide, hlen⟩]

theorem loginAnswer_short (hlen : ¬sizeofHeader ≤ l.inbox.length) : loginAnswer l = none := by
  rw [loginAnswer, if_neg fun h => hlen h.2]

-- A send fails once everything has been read.
theorem total_loginRound (req : Bytes) (hreq : req ≠ []) (hclosed : l.closed = true)
    {R : Unit ⊕ Option Client → Host F → Link UInt8 → Prop} :
    TotalHost (client.loginRound req ()) h l R ↔
      if l.inbox = [] then R (.inr none) h l
      else R (if sizeofHeader ≤ l.inbox.length ∧ headerMagic (requestHead l) = magicRes ∧
            headerOp (requestHead l) = opLogin ∧ headerStatus (requestHead l) = statusOk then
          .inr (some { client with clientId := headerClientId (requestHead l) })
        else .inl ()) h (Link.skip l sizeofHeader) := by
  have halive : l.alive = !l.inbox.isEmpty := by rw [Link.alive, hclosed]; rfl
  unfold Client.loginRound sendMessage
  rw [if_neg (by simpa using hreq)]
  refine total_bind.trans (total_say.trans ?_)
  rw [channel_link, channel_sent]
  by_cases hempty : l.inbox = []
  · rw [if_pos hempty, halive, hempty]
    exact total_ret
  · have hmore : l.inbox.isEmpty = false := by simpa using hempty
    rw [if_neg hempty, halive, hmore]
    simp only [Bool.not_false, Bool.not_true, Bool.false_eq_true, if_false]
    by_cases hlen : sizeofHeader ≤ l.inbox.length
    · refine (total_recvHeader (zeros_length _) hlen).trans (total_ret.trans ?_)
      simp only [Bool.true_and, Bool.and_eq_true, beq_iff_eq, hlen, true_and, and_assoc, channel_link,
        channel_skip]
    · refine (total_recvHeader_short (zeros_length _) hlen).trans ((and_iff_right hclosed).trans ?_)
      simp [TotalHost, hlen]

-- The client logs in with the first answer that says OK, and gives up when there is none.
theorem total_clientLogin (hclosed : l.closed = true) : TotalHost (client.login md5) h l fun result _ _ =>
    result = (loginAnswer l).map fun clientId => { client with clientId } := by
  unfold Client.login
  dsimp only
  generalize hreq : loginMessage (overlay (zeros userLenMax) client.user) (md5 client.passwd).val = req
  have hne : req ≠ [] := by
    rw [← hreq, loginMessage, header]
    simp
  induction hn : l.inbox.length using Nat.strong_induction_on generalizing l with
  | _ n ih =>
      subst hn
      refine total_iter_unfold.mpr ((total_loginRound req hne hclosed).mpr ?_)
      split_ifs with hempty hok
      · rw [loginAnswer_short (by rw [hempty]; decide)]
        rfl
      · rw [loginAnswer_step hok.1, if_pos (by simpa [and_assoc] using hok.2)]
        rfl
      · have hsame : loginAnswer l = loginAnswer (Link.skip l sizeofHeader) := by
          by_cases hlen : sizeofHeader ≤ l.inbox.length
          · rw [loginAnswer_step hlen, if_neg (by simpa [and_assoc] using fun h => hok ⟨hlen, h⟩)]
          · rw [loginAnswer_short hlen, loginAnswer_short (by rw [skip_link_short hlen]; decide)]
        have hshorter : (Link.skip l sizeofHeader).inbox.length < l.inbox.length := by
          have hpos := List.length_pos_iff.mpr hempty
          rw [Link.skip, List.length_drop, sizeofHeader]
          omega
        rw [hsame]
        exact ih _ hshorter hclosed rfl

end Login

section Hardlink

variable {F : Type} [Posix F] {h : Host F} {l : Link UInt8}

abbrev CleanHost {α : Type} (p : Code α) (h : Host F) (l : Link UInt8)
    (Q : α → Host F → Link UInt8 → Prop) : Prop := Clean host p h l Q

theorem clean_sendMessage {α : Type} {m : Bytes} {p : Code α} {Q : α → Host F → Link UInt8 → Prop} :
    CleanHost (sendMessage m >>= fun _ => p) h l Q ↔ (m ≠ [] → l.alive = true) ∧ CleanHost p h l Q := by
  unfold sendMessage
  split_ifs with hm
  · obtain rfl := List.eq_nil_of_length_eq_zero hm
    exact (and_iff_right fun h => absurd rfl h).symm
  · have hne : m ≠ [] := fun h => hm (by rw [h]; rfl)
    rw [forall_prop_of_true hne]
    exact clean_bind.trans clean_say

theorem clean_recvHeader {α : Type} {head : Bytes} (hhead : head.length = sizeofHeader)
    {f : Bool × Bytes → Code α} {Q : α → Host F → Link UInt8 → Prop} :
    CleanHost (recvMessage head sizeofHeader >>= f) h l Q ↔
      sizeofHeader ≤ l.inbox.length ∧
        CleanHost (f (true, requestHead l)) h (Link.skip l sizeofHeader) Q := by
  unfold recvMessage
  rw [if_neg (by decide), bind_assoc]
  refine clean_bind.trans (clean_hear.trans (and_congr_right fun hlen => ?_))
  have htake : (l.inbox.take sizeofHeader).length = sizeofHeader := List.length_take_of_le hlen
  rw [checkSize_pos (by omega), bind_assoc, ret_bind, ret_bind, htake, beq_self_eq_true,
    overlay_full (by omega)]
  rfl

theorem clean_announceLink (hl : Bytes) {head : Bytes} (hhead : head.length = sizeofHeader)
    {Q : Unit → Host F → Link UInt8 → Prop} :
    CleanHost (iter (announceLink hl) head) h l Q ↔ ∃ l', answered l = some l' ∧ Q () h l' := by
  have hround : ∀ (head : Bytes) (l : Link UInt8) (R : Bytes ⊕ Unit → Host F → Link UInt8 → Prop),
      head.length = sizeofHeader → (CleanHost (announceLink hl head) h l R ↔
        (hl ≠ [] → l.alive = true) ∧ sizeofHeader ≤ l.inbox.length ∧
          R (if headerStatus (requestHead l) = statusBusy then .inl (requestHead l) else .inr ()) h
            (Link.skip l sizeofHeader)) := by
    intro head l R hhead
    unfold announceLink
    rw [clean_sendMessage, clean_recvHeader hhead]
    exact and_congr_right fun _ => and_congr_right fun _ => clean_ret
  have halive : ∀ l : Link UInt8, sizeofHeader ≤ l.inbox.length → l.alive = true := by
    rintro ⟨inbox, closed⟩ hlen
    cases inbox with
    | nil => exact absurd hlen (Nat.not_succ_le_zero _)
    | cons b bs => simp [Link.alive]
  induction l using answered.induct generalizing head with
  | case1 l hlen hbusy ih =>
      rw [answered_step hlen.2, if_pos hbusy]
      simp only [channel_link, channel_skip, channel_sent] at hlen hbusy ih ⊢
      refine clean_iter_unfold.trans ((hround _ _ _ hhead).trans ?_)
      rw [if_pos hbusy, and_iff_right fun _ => halive l hlen.2, and_iff_right hlen.2]
      exact ih (List.length_take_of_le hlen.2)
  | case2 l hlen hbusy =>
      rw [answered_step hlen.2, if_neg hbusy]
      simp only [channel_link, channel_skip, channel_sent] at hlen hbusy ⊢
      refine clean_iter_unfold.trans ((hround _ _ _ hhead).trans ?_)
      rw [if_neg hbusy, and_iff_right fun _ => halive l hlen.2, and_iff_right hlen.2]
      simp
  | case3 l hlen =>
      rw [answered, if_neg hlen]
      refine iff_of_false (fun hclean => hlen ⟨by decide, ?_⟩) (by simp)
      exact ((hround _ _ _ hhead).mp (clean_iter_unfold.mp hclean)).2.1

-- `send_hardlink` writes nothing about a call that fails, so it must not come to one.
theorem clean_sendHardlink {oldPath newPath : Bytes} :
    CleanHost (sendHardlink oldPath newPath) h l (fun _ _ _ => True) ↔
      ∃ l', answered l = some l' ∧ (oldPath = [] ∧ newPath = [] ∨ l'.alive = true) := by
  unfold sendHardlink
  refine clean_bind.trans ((clean_announceLink _ (zeros_length _)).trans ?_)
  simp only [clean_sendMessage, clean_ret, and_true]
  refine exists_congr fun l' => and_congr_right fun _ => ?_
  by_cases hold : oldPath = [] <;> by_cases hnew : newPath = [] <;> simp [hold, hnew]

end Hardlink

section Requests

variable {F : Type} [Posix F]

-- What the connection brings when the server sends these bytes and goes away.
abbrev goneAfter (bytes : Bytes) : Link UInt8 := ⟨bytes, true⟩

-- The four requests to a server that sends these bytes and goes away. `send_meta` and the
-- login write something for each call that fails, as `send_file` does.
structure RequestsEnd (md5 : Bytes → Mem 16) (h : Host F) (bytes : Bytes) : Prop where
  sendMeta : ∀ st path, Returns (sendMeta md5 st path) h (goneAfter bytes)
  syncFile : ∀ st path, Returns (syncFile md5 st path) h (goneAfter bytes)
  sendHardlink : ∀ oldPath newPath,
    CleanHost (sendHardlink oldPath newPath) h (goneAfter bytes) fun _ _ _ => True
  login : ∀ client : Client, TotalHost (client.login md5) h (goneAfter bytes) fun result _ _ =>
    result = (loginAnswer (goneAfter bytes)).map fun clientId => { client with clientId }

-- Which of them end, and tell, for which bytes. A login does for all of them.
theorem requests_end_iff (md5 : Bytes → Mem 16) (h : Host F) (bytes : Bytes) :
    (∀ st path, Returns (sendMeta md5 st path) h (goneAfter bytes) ↔
      (digestOf md5 h.fs st path).isSome ∧ (answered (goneAfter bytes)).isSome) ∧
    (∀ st path, Returns (syncFile md5 st path) h (goneAfter bytes) ↔
      SyncEnds md5 h.fs st path (goneAfter bytes)) ∧
    (∀ oldPath newPath, CleanHost (sendHardlink oldPath newPath) h (goneAfter bytes) (fun _ _ _ => True) ↔
      ∃ l, answered (goneAfter bytes) = some l ∧ (oldPath = [] ∧ newPath = [] ∨ l.alive = true)) ∧
    ∀ client : Client, TotalHost (client.login md5) h (goneAfter bytes) fun result _ _ =>
      result = (loginAnswer (goneAfter bytes)).map fun clientId => { client with clientId } :=
  ⟨fun _ _ => returns_sendMeta, fun _ _ => returns_syncFile, fun _ _ => clean_sendHardlink,
    fun _ => total_clientLogin rfl⟩

-- The server closes the connection at once.
theorem meta_repeated_for_ever :
    ¬∀ (h : Host TreeFs) bytes, RequestsEnd (fun _ => ⟨zeros 16, rfl⟩) h bytes := by
  intro hall
  have hends := (hall (exampleHost (exampleFs [] fun _ => .dir)) []).sendMeta (zeros sizeofStat) [0x61]
  have hanswer := (returns_sendMeta.mp hends).2
  rw [answered_short (by decide)] at hanswer
  exact absurd hanswer (by decide)

end Requests

end Csiebox
