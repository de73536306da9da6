import Csiebox.Service.Survival.Rules

namespace Csiebox

open CBytes Program Prog

section Answers

variable {F C : Type} [Posix F] [Channel UInt8 C] {md5 : Bytes → Mem 16} {h : Host F} {c : C}
  {Q : Unit → Host F → C → Prop} {st path : Bytes}

omit [Posix F] in
theorem answered_step (hlen : sizeofHeader ≤ (Channel.link c).inbox.length) :
    answered c = if headerStatus (requestHead (Channel.link c)) = statusBusy then
        answered (Channel.skip (Channel.sent c) sizeofHeader)
      else some (Channel.skip (Channel.sent c) sizeofHeader) := by
  rw [answered, if_pos ⟨by decide, hlen⟩]

omit [Posix F] in
theorem answered_short (hlen : ¬sizeofHeader ≤ (Channel.link c).inbox.length) : answered c = none := by
  rw [answered, if_neg fun h => hlen h.2]

omit [Posix F] in
theorem linkAnswered_step (head : Bytes) (hlen : sizeofHeader ≤ (Channel.link c).inbox.length) :
    linkAnswered head c = if headerStatus (requestHead (Channel.link c)) = statusBusy then
        linkAnswered (requestHead (Channel.link c)) (Channel.skip (Channel.sent c) sizeofHeader)
      else some (Channel.skip (Channel.sent c) sizeofHeader) := by
  rw [linkAnswered, if_pos ⟨by decide, hlen⟩]

omit [Posix F] in
theorem linkAnswered_short {head : Bytes} (hlen : ¬sizeofHeader ≤ (Channel.link c).inbox.length) :
    linkAnswered head c = if (Channel.link c).closed = true ∧
          headerStatus (overlay head (Channel.link c).inbox) ≠ statusBusy then
        some (Channel.skip (Channel.sent c) sizeofHeader)
      else none := by
  rw [linkAnswered, if_neg fun h => hlen h.2]

-- Nothing is left of a header that has not come complete.
omit [Posix F] in
theorem skip_short (hlen : ¬sizeofHeader ≤ (Channel.link c).inbox.length) :
    (Channel.link (Channel.skip (Channel.sent c) sizeofHeader)).inbox = [] := by
  rw [Channel.link_skip, Channel.link_sent]
  exact List.drop_eq_nil_of_le (by omega)

section Announce

variable {req : Bytes} {R : Unit ⊕ Unit → Host F → C → Prop}

theorem total_announce_header (hreq : req.length ≠ 0)
    (hlen : sizeofHeader ≤ (Channel.link c).inbox.length) :
    TotalHost (announce req ()) h c R ↔
      R (if headerStatus (requestHead (Channel.link c)) = statusBusy then .inl () else .inr ()) h
        (Channel.skip (Channel.sent c) sizeofHeader) := by
  unfold announce
  rw [total_sendMessage, posted, if_neg hreq,
    total_recvHeader (zeros_length _) (by rwa [Channel.link_sent]), TotalHost, total_ret,
    Channel.link_sent]
  simp only [Bool.true_and, bne_iff_ne, ne_eq, ite_not]

theorem total_announce_end (hreq : req.length ≠ 0)
    (hlen : ¬sizeofHeader ≤ (Channel.link c).inbox.length) :
    TotalHost (announce req ()) h c R ↔ (Channel.link c).closed = true ∧
      R (.inl ()) h (Channel.skip (Channel.sent c) sizeofHeader) := by
  unfold announce
  rw [total_sendMessage, posted, if_neg hreq,
    total_recvHeader_short (zeros_length _) (by rwa [Channel.link_sent]), TotalHost, total_ret,
    Channel.link_sent]
  rfl

theorem total_announce (hreq : req.length ≠ 0) : TotalHost (iter (announce req) ()) h c Q ↔
    ∃ c', answered c = some c' ∧ Q () h c' := by
  constructor
  · intro htotal
    refine htotal.iter_induction (fun _ h c => ∃ c', answered c = some c' ∧ Q () h c') ?_
    intro _ h c hround
    by_cases hlen : sizeofHeader ≤ (Channel.link c).inbox.length
    · have hnext := (total_announce_header hreq hlen).mp hround
      rw [answered_step hlen]
      split_ifs at hnext ⊢ with hbusy
      · exact hnext
      · exact ⟨_, rfl, hnext⟩
    · -- the end of the connection is no answer, and none comes behind it
      obtain ⟨-, c', hc', -⟩ := (total_announce_end hreq hlen).mp hround
      rw [answered_short (by rw [skip_short hlen]; decide)] at hc'
      cases hc'
  · rintro ⟨c', hanswered, hq⟩
    induction c using answered.induct with
    | case1 c hlen hbusy ih =>
        rw [answered_step hlen.2, if_pos hbusy] at hanswered
        refine total_iter_unfold.mpr ((total_announce_header hreq hlen.2).mpr ?_)
        rw [if_pos hbusy]
        exact ih hanswered
    | case2 c hlen hbusy =>
        rw [answered_step hlen.2, if_neg hbusy] at hanswered
        obtain rfl := Option.some.inj hanswered
        refine total_iter_unfold.mpr ((total_announce_header hreq hlen.2).mpr ?_)
        rw [if_neg hbusy]
        exact hq
    | case3 c hlen =>
        rw [answered, if_neg hlen] at hanswered
        cases hanswered

end Announce

section AnnounceLink

variable {hl head : Bytes} {R : Bytes ⊕ Unit → Host F → C → Prop}

theorem total_announceLink_header (hhl : hl.length ≠ 0) (hhead : head.length = sizeofHeader)
    (hlen : sizeofHeader ≤ (Channel.link c).inbox.length) :
    TotalHost (announceLink hl head) h c R ↔
      R (if headerStatus (requestHead (Channel.link c)) = statusBusy then
          .inl (requestHead (Channel.link c))
        else .inr ()) h (Channel.skip (Channel.sent c) sizeofHeader) := by
  unfold announceLink
  rw [total_sendMessage, posted, if_neg hhl, total_recvHeader hhead (by rwa [Channel.link_sent]),
    Channel.link_sent]
  exact total_ret

theorem total_announceLink_end (hhl : hl.length ≠ 0) (hhead : head.length = sizeofHeader)
    (hlen : ¬sizeofHeader ≤ (Channel.link c).inbox.length) :
    TotalHost (announceLink hl head) h c R ↔ (Channel.link c).closed = true ∧
      R (if headerStatus (overlay head (Channel.link c).inbox) = statusBusy then
          .inl (overlay head (Channel.link c).inbox)
        else .inr ()) h (Channel.skip (Channel.sent c) sizeofHeader) := by
  unfold announceLink
  rw [total_sendMessage, posted, if_neg hhl,
    total_recvHeader_short hhead (by rwa [Channel.link_sent]), Channel.link_sent]
  exact and_congr_right fun _ => total_ret

theorem total_announceLink (hhl : hl.length ≠ 0) (hhead : head.length = sizeofHeader) :
    TotalHost (iter (announceLink hl) head) h c Q ↔
      ∃ c', linkAnswered head c = some c' ∧ Q () h c' := by
  constructor
  · intro htotal
    refine htotal.iter_induction (fun head h c => head.length = sizeofHeader →
      ∃ c', linkAnswered head c = some c' ∧ Q () h c') ?_ hhead
    intro head h c hround hhead
    by_cases hlen : sizeofHeader ≤ (Channel.link c).inbox.length
    · have hnext := (total_announceLink_header hhl hhead hlen).mp hround
      rw [linkAnswered_step head hlen]
      split_ifs at hnext ⊢ with hbusy
      · exact hnext (List.length_take_of_le hlen)
      · exact ⟨_, rfl, hnext⟩
    · obtain ⟨hclosed, hnext⟩ := (total_announceLink_end hhl hhead hlen).mp hround
      rw [linkAnswered_short hlen]
      split_ifs at hnext with hbusy
      · -- a header that stays BUSY
        obtain ⟨c', hc', -⟩ := hnext (by rw [overlay_length (by omega), hhead])
        rw [linkAnswered_short (by rw [skip_short hlen]; decide), skip_short hlen, overlay_nil,
          if_neg fun h => h.2 hbusy] at hc'
        cases hc'
      · exact ⟨_, if_pos ⟨hclosed, hbusy⟩, hnext⟩
  · rintro ⟨c', hanswered, hq⟩
    induction head, c using linkAnswered.induct with
    | case1 head c hlen hbusy ih =>
        rw [linkAnswered_step head hlen.2, if_pos hbusy] at hanswered
        refine total_iter_unfold.mpr ((total_announceLink_header hhl hhead hlen.2).mpr ?_)
        rw [if_pos hbusy]
        exact ih (List.length_take_of_le hlen.2) hanswered
    | case2 head c hlen hbusy =>
        rw [linkAnswered_step head hlen.2, if_neg hbusy] at hanswered
        obtain rfl := Option.some.inj hanswered
        refine total_iter_unfold.mpr ((total_announceLink_header hhl hhead hlen.2).mpr ?_)
        rw [if_neg hbusy]
        exact hq
    | case3 head c hlen hend =>
        have hlen' : ¬sizeofHeader ≤ (Channel.link c).inbox.length := fun h => hlen ⟨by decide, h⟩
        rw [linkAnswered_short hlen', if_pos hend] at hanswered
        obtain rfl := Option.some.inj hanswered
        refine total_iter_unfold.mpr ((total_announceLink_end hhl hhead hlen').mpr ⟨hend.1, ?_⟩)
        rw [if_neg hend.2]
        exact hq
    | case4 head c hlen hend =>
        have hlen' : ¬sizeofHeader ≤ (Channel.link c).inbox.length := fun h => hlen ⟨by decide, h⟩
        rw [linkAnswered_short hlen', if_neg hend] at hanswered
        cases hanswered

end AnnounceLink

theorem chunkSends_of_le {chunk n : Nat} (hchunk : 0 < chunk) (hfull : chunk ≤ n) :
    chunkSends chunk n = chunkSends chunk (n - chunk) + 2 := by
  unfold chunkSends
  rw [Nat.div_eq_sub_div hchunk hfull, Nat.mod_eq_sub_mod hfull]
  omega

theorem chunkSends_of_lt {chunk n : Nat} (hshort : n < chunk) :
    chunkSends chunk n = if n = 0 then 1 else 2 := by
  rw [chunkSends, Nat.div_eq_of_lt hshort, Nat.mod_eq_of_lt hshort, Nat.mul_zero, Nat.zero_add]

-- The header and the block of each round.
theorem total_sendChunks {chunk : Nat} (hchunk : 0 < chunk) (content : Bytes) :
    TotalHost (sendChunks chunk content) h c Q ↔
      Q () h (Channel.sent^[chunkSends chunk content.length] c) := by
  have hround : ∀ (rest : Bytes) {c : C} {R : Bytes ⊕ Unit → Host F → C → Prop},
      TotalHost (sendChunk chunk rest) h c R ↔
        R (if (rest.take chunk).length = chunk then .inl (rest.drop chunk) else .inr ()) h
          (posted (Channel.sent c) (rest.take chunk)) := by
    intro rest c R
    unfold sendChunk
    rw [total_sendMessage, total_sendMessage]
    exact total_ret
  induction hn : content.length using Nat.strong_induction_on generalizing content c with
  | _ n ih =>
      subst hn
      refine total_iter_unfold.trans ((hround content).trans ?_)
      by_cases hfull : chunk ≤ content.length
      · have htake : (content.take chunk).length = chunk := List.length_take_of_le hfull
        rw [if_pos htake, posted, if_neg (by omega)]
        refine (ih (content.drop chunk).length (by rw [List.length_drop]; omega) _ rfl).trans ?_
        rw [List.length_drop, chunkSends_of_le hchunk hfull]
        rfl
      · rw [List.take_of_length_le (by omega), if_neg (by omega), posted]
        rw [chunkSends_of_lt (by omega)]
        split_ifs <;> exact Iff.rfl

theorem mute_metaDigest : Mute (metaDigest md5 st path) := by
  unfold metaDigest
  split_ifs
  · refine (mute_sys _).bind fun r => ?_
    split
    · exact .halt _
    · exact .ret _
  · exact (mute_md5File _ _ _).bind fun _ => .ret _
  · exact .ret _

theorem total_sendMeta : TotalHost (sendMeta md5 st path) h c Q ↔
    ∃ hash c', digestOf md5 h.fs st path = some hash ∧ answered c = some c' ∧
      Q () h (posted c' path) := by
  unfold sendMeta
  cases hd : digestOf md5 h.fs st path with
  | none =>
      refine iff_of_false (not_total_of_halt ((exec_metaDigest_crash (l := Channel.link c) hd).bind _)) ?_
      rintro ⟨_, _, ⟨⟩, -⟩
  | some hash =>
      refine (total_bind.trans (mute_metaDigest.total_iff
        (exec_metaDigest (l := Channel.link c) hd))).trans ?_
      refine total_seq.trans ((total_announce (by simp [metaMessage, header])).trans ?_)
      simp only [total_sendMessage, total_ret, Option.some.injEq, exists_and_left, exists_eq_left']

theorem total_sendHardlink {oldPath newPath : Bytes} :
    TotalHost (sendHardlink oldPath newPath) h c Q ↔
      ∃ c', hardlinkSent oldPath newPath c = some c' ∧ Q () h c' := by
  unfold sendHardlink hardlinkSent
  refine total_seq.trans ((total_announceLink (by simp [hardlinkMessage, header])
    (zeros_length _)).trans ?_)
  simp only [total_sendMessage, TotalHost, total_ret, Option.pure_def, Option.bind_eq_bind,
    Option.bind_eq_some_iff, Option.some.injEq]
  constructor
  · rintro ⟨c', hanswered, hq⟩
    exact ⟨_, ⟨c', hanswered, rfl⟩, hq⟩
  · rintro ⟨_, ⟨c', hanswered, rfl⟩, hq⟩
    exact ⟨c', hanswered, hq⟩

end Answers

section Content

variable {F C : Type} [Posix F] [Channel UInt8 C] {md5 : Bytes → Mem 16} {len connFd : Nat}
  {h : Host F} {c : C} {st cpath : Bytes}

theorem total_setlkw {α : Type} {fp : Nat} {fl : Flock} {p : Code α} {Q : α → Host F → C → Prop} :
    TotalHost (sys (.setlkw fp fl) >>= fun _ => p) h c Q ↔
      ∃ granted f, Posix.setlkw h.fs fp fl = some (granted, f) ∧ TotalHost p { h with fs := f } c Q := by
  rw [TotalHost, total_bind, total_sys]
  simp only [host, Host.exec, Option.map_eq_some_iff]
  constructor
  · rintro ⟨_, _, ⟨⟨granted, f⟩, hlock, hset⟩, hp⟩
    cases hset
    exact ⟨granted, f, hlock, hp⟩
  · rintro ⟨granted, f, hlock, hp⟩
    exact ⟨_, _, ⟨_, hlock, rfl⟩, hp⟩

-- From here on, what follows depends on the file system and the connection only.
theorem total_sendFile {P : F → C → Prop} :
    TotalHost (sendFile st cpath) h c (fun _ h c => P h.fs c) ↔
      ∃ f, contentSent h.fs st cpath = some f ∧ P f (contentPosted h.fs st cpath c) := by
  unfold sendFile contentSent contentPosted
  by_cases hreg : sIsReg (stMode st) = true
  · rw [if_pos hreg, if_pos hreg, if_pos hreg, total_call rfl]
    cases hopen : Posix.fopenRead h.fs cpath with
    | none =>
        refine iff_of_false not_total_halt ?_
        rintro ⟨f, hf, -⟩
        cases hf
    | some file =>
        obtain ⟨fp, content⟩ := file
        -- the lock is waited for, then the content goes out, then the lock is dropped
        have hunlock : ∀ h : Host F, TotalHost (do
            sendChunks N content
            let _ ← sys (.setlkw fp { Flock.zero with type := .unlck })
            sys (.fclose fp)) h c (fun _ h c => P h.fs c) ↔
              ∃ granted f, Posix.setlkw h.fs fp { Flock.zero with type := .unlck } = some (granted, f) ∧
                P (Posix.fclose f fp) (Channel.sent^[chunkSends N content.length] c) := by
          intro h
          refine total_seq.trans ((total_sendChunks (by decide) content).trans (total_setlkw.trans ?_))
          refine exists_congr fun granted => exists_congr fun f => and_congr_right fun _ => ?_
          have hclose : Host.exec (.fclose fp) { h with fs := f } =
              some ((), { h with fs := Posix.fclose f fp }) := rfl
          exact total_done hclose
        refine total_setlkw.trans ?_
        simp only [hunlock, Option.pure_def, Option.bind_eq_bind, Option.bind_eq_some_iff,
          Option.some.injEq, Prod.exists]
        constructor
        · rintro ⟨granted, f, hlock, granted', f', hdrop, hP⟩
          exact ⟨_, ⟨fp, content, rfl, granted, f, hlock, granted', f', hdrop, rfl⟩, hP⟩
        · rintro ⟨_, ⟨_, _, ⟨⟩, granted, f, hlock, granted', f', hdrop, rfl⟩, hP⟩
          exact ⟨granted, f, hlock, granted', f', hdrop, hP⟩
  · rw [if_neg hreg, if_neg hreg, if_neg hreg]
    by_cases hlnk : sIsLnk (stMode st) = true
    · rw [if_pos hlnk, if_pos hlnk, if_pos hlnk, total_call rfl]
      cases hread : Posix.readlink h.fs cpath N with
      | none =>
          refine iff_of_false not_total_halt ?_
          rintro ⟨f, ⟨⟩, -⟩
      | some target =>
          simp only [total_sendMessage, TotalHost, total_ret, Option.map_some, Option.some.injEq,
            exists_eq_left']
          rfl
    · rw [if_neg hlnk, if_neg hlnk, if_neg hlnk]
      simp only [TotalHost, total_ret, Option.some.injEq, exists_eq_left']

theorem total_sendEntry {P : F → C → Prop} :
    TotalHost (sendEntry md5 len st cpath) h c (fun _ h c => P h.fs c) ↔
      ∃ f c', entrySent md5 len st cpath h.fs c = some (f, c') ∧ P f c' := by
  unfold sendEntry entrySent
  rw [total_sendMessage, posted_header]
  refine total_seq.trans (total_sendMeta.trans ?_)
  simp only [total_sendFile, Option.pure_def, Option.bind_eq_bind, Option.bind_eq_some_iff,
    Option.some.injEq, Prod.mk.injEq]
  constructor
  · rintro ⟨hash, c', hd, hanswered, f, hcontent, hP⟩
    exact ⟨f, _, ⟨hash, hd, c', hanswered, f, hcontent, rfl, rfl⟩, hP⟩
  · rintro ⟨f, _, ⟨hash, hd, c', hanswered, _, hcontent, rfl, rfl⟩, hP⟩
    exact ⟨hash, c', hd, hanswered, _, hcontent, hP⟩

theorem total_sendKnownLinks {target : Bytes} {Q : Unit → Host F → C → Prop} (hl : List HardLink) :
    TotalHost (sendKnownLinks st target hl) h c Q ↔
      ∃ c', namesSent st target hl c = some c' ∧ Q () h c' := by
  induction hl generalizing c with
  | nil => simp [sendKnownLinks, namesSent, TotalHost]
  | cons link hl ih =>
      unfold sendKnownLinks namesSent
      by_cases hsame : link.inode = stIno st
      · rw [if_pos hsame, if_pos hsame, total_sendMessage, posted_header]
        refine total_seq.trans (total_sendHardlink.trans ?_)
        simp only [total_sendMessage, ih, Option.bind_eq_bind, Option.bind_eq_some_iff]
        constructor
        · rintro ⟨c₁, hlink, c₂, hrest, hQ⟩
          exact ⟨c₂, ⟨c₁, hlink, hrest⟩, hQ⟩
        · rintro ⟨c₂, ⟨c₁, hlink, hrest⟩, hQ⟩
          exact ⟨c₁, hlink, c₂, hrest, hQ⟩
      · rw [if_neg hsame, if_neg hsame]
        exact ih

end Content

section Tree

variable {F C α : Type} [Posix F] [Channel UInt8 C] {md5 : Bytes → Mem 16} {len connFd : Nat}

-- A part of a traversal and what it needs, whatever is to hold behind it.
def Follows (p : Code α) (needs : F → C → Option (α × F × C)) : Prop :=
  ∀ (h : Host F) c (P : α → F → C → Prop),
    TotalHost p h c (fun a h c => P a h.fs c) ↔ ∃ a f c', needs h.fs c = some (a, f, c') ∧ P a f c'

theorem follows_ret (a : α) : Follows (ret a) fun (f : F) (c : C) => some (a, f, c) := by
  intro h c P
  simp [TotalHost]

theorem follows_bind {p : Code α} {q : α → Code α} {needs : F → C → Option (α × F × C)}
    {needs' : α → F → C → Option (α × F × C)} (hp : Follows p needs)
    (hq : ∀ a, Follows (q a) (needs' a)) :
    Follows (p >>= q) fun f c => (needs f c).bind fun (a, f, c) => needs' a f c := by
  intro h c P
  refine total_seq.trans ?_
  simp only [hq _ _ _ P]
  refine (hp h c fun a f c => ∃ b f' c', needs' a f c = some (b, f', c') ∧ P b f' c').trans ?_
  simp only [Option.bind_eq_some_iff, Prod.exists]
  constructor
  · rintro ⟨hl, f, c', hneeds, hl', f', c'', hrest, hP⟩
    exact ⟨hl', f', c'', ⟨hl, f, c', hneeds, hrest⟩, hP⟩
  · rintro ⟨hl', f', c'', ⟨hl, f, c', hneeds, hrest⟩, hP⟩
    exact ⟨hl, f, c', hneeds, hl', f', c'', hrest, hP⟩

theorem follows_entry (st cpath : Bytes) (hl : List HardLink) :
    Follows (serverEntry md5 len connFd st cpath hl)
      (entryPulled (F := F) (C := C) md5 len connFd st cpath hl) := by
  intro h c P
  unfold serverEntry entryPulled
  by_cases hlinked : (!sIsDir (stMode st) && stNlink st != 1) = true
  · have hentry : ∀ c, TotalHost (do
        sendEntry md5 len st cpath
        checkSize (hl.length < maxLinks)
        ret (hl ++ [{ inode := stIno st, path := cpath.drop len }])) h c (fun hl h c => P hl h.fs c) ↔
        ∃ f c', entrySent md5 len st cpath h.fs c = some (f, c') ∧ hl.length < maxLinks ∧
          P (hl ++ [{ inode := stIno st, path := cpath.drop len }]) f c' := by
      intro c
      refine total_seq.trans ?_
      simp only [total_checkSize, total_ret]
      exact total_sendEntry (P := fun f c => hl.length < maxLinks ∧ P (hl ++ [_]) f c)
    rw [if_pos hlinked, if_pos hlinked, total_checkSize]
    refine (and_congr_right fun _ => total_seq.trans (total_sendKnownLinks hl)).trans ?_
    simp only [hentry, Option.pure_def, Option.bind_eq_bind, Option.bind_eq_some_iff,
      Option.guard_eq_some', Option.some.injEq, Prod.mk.injEq, Prod.exists]
    constructor
    · rintro ⟨hrow, c', hnames, f, c'', hsent, hroom, hP⟩
      exact ⟨_, f, c'', ⟨(), hrow, c', hnames, f, c'', hsent, (), hroom, rfl, rfl, rfl⟩, hP⟩
    · rintro ⟨_, _, _, ⟨_, hrow, c', hnames, f, c'', hsent, _, hroom, rfl, rfl, rfl⟩, hP⟩
      exact ⟨hrow, c', hnames, f, c'', hsent, hroom, hP⟩
  · rw [if_neg hlinked, if_neg hlinked]
    refine total_seq.trans ?_
    simp only [TotalHost, total_ret]
    refine (total_sendEntry (P := fun f c => P hl f c)).trans ?_
    simp only [Option.pure_def, Option.bind_eq_bind, Option.bind_eq_some_iff, Option.some.injEq,
      Prod.mk.injEq, Prod.exists]
    constructor
    · rintro ⟨f, c', hsent, hP⟩
      exact ⟨hl, f, c', ⟨f, c', hsent, rfl, rfl, rfl⟩, hP⟩
    · rintro ⟨_, _, _, ⟨f, c', hsent, rfl, rfl, rfl⟩, hP⟩
      exact ⟨f, c', hsent, hP⟩

theorem follows_visit {descend : Bytes → List HardLink → Code (List HardLink)}
    {needs : Bytes → List HardLink → F → C → Option (List HardLink × F × C)}
    (hdescend : ∀ path hl, Follows (descend path hl) (needs path hl)) (dirName : Bytes)
    (entries : List Dirent) (hl : List HardLink) :
    Follows (serverVisit md5 len connFd descend dirName entries hl)
      (visitPulled md5 len connFd needs dirName entries hl) := by
  induction entries generalizing hl with
  | nil => exact follows_ret hl
  | cons entry entries ih =>
      intro h c P
      simp only [serverVisit, visitPulled]
      by_cases hdot : entry.name.val.head? = some dot
      · simp only [if_pos hdot]
        exact ih hl h c P
      · simp only [if_neg hdot]
        rw [total_call rfl]
        cases Posix.lstat h.fs (snprintfPath dirName entry.name.val) with
        | none => exact follows_ret hl h c P
        | some st =>
            have hdir : ∀ hl, Follows
                (if sIsDir (stMode st.val) then descend (snprintfPath dirName entry.name.val) hl
                  else ret hl)
                (fun f c => if sIsDir (stMode st.val) then
                  needs (snprintfPath dirName entry.name.val) hl f c else some (hl, f, c)) := by
              intro hl
              split_ifs
              · exact hdescend _ hl
              · exact follows_ret hl
            exact follows_bind (follows_entry _ _ _) (fun hl => follows_bind (hdir hl) ih) h c P

theorem follows_traverse (depth : Nat) (dirName : Bytes) (hl : List HardLink) :
    Follows (serverTraverseFile md5 len connFd depth dirName hl)
      (treePulled (F := F) (C := C) md5 len connFd depth dirName hl) := by
  induction depth generalizing dirName hl with
  | zero =>
      intro h c P
      refine iff_of_false not_total_halt ?_
      rintro ⟨_, _, _, ⟨⟩, -⟩
  | succ depth ih =>
      intro h c P
      unfold serverTraverseFile treePulled
      rw [total_call rfl]
      cases Posix.opendir h.fs dirName with
      | none => exact follows_ret hl h c P
      | some entries => exact follows_visit (fun path hl => ih path hl) dirName entries hl h c P

end Tree

end Csiebox
