import Csiebox.Traverse.Sessions

namespace Csiebox.Traverse

open CBytes Program Prog Pull Session

section Matching

variable {G α β : Type} [Posix G] {g : G} {h h' : Host G} {p : Code α} {f f' : α → Code β} {given : Bytes}

-- Programs that say the same from `h` on, whatever the other end sends.
def Matched (p q : Code β) (h : Host G) : Prop :=
  ∀ inbox, Alike host host ⟨p, h, ⟨inbox, false⟩⟩ ⟨q, h, ⟨inbox, false⟩⟩

-- With `given` in front of what the other end sends, `p` returns and leaves the rest.
def Passes (p : Code α) (a : α) (given : Bytes) (h h' : Host G) : Prop :=
  ∀ more, ∃ ws, Spoken host ⟨p, h, ⟨given ++ more, false⟩⟩ ws ⟨ret a, h', ⟨more, false⟩⟩

theorem Passes.matched {a : α} (hpass : Passes p a given h h') (hmatched : Matched (p >>= f) (p >>= f') h) :
    Matched (f a) (f' a) h' := by
  intro inbox
  obtain ⟨ws, hrun⟩ := hpass inbox
  exact (alike_iff_behind (hrun.bind f) (hrun.bind f')).mp (hmatched (given ++ inbox))

theorem Passes.seq {h₁ h₂ : Host G} {a : α} {b : β} {given' : Bytes} (hp : Passes p a given h h₁)
    (hf : Passes (f a) b given' h₁ h₂) : Passes (p >>= f) b (given ++ given') h h₂ := by
  intro more
  obtain ⟨ws, hrun⟩ := hp (given' ++ more)
  obtain ⟨ws', hrest⟩ := hf more
  rw [List.append_assoc]
  exact ⟨ws ++ ws', hrun.seq hrest⟩

theorem passes_of_talk {a : α} {rounds : List (Bytes × Bytes)} (htalk : Talk host p h rounds (ret a) h') :
    Passes p a (rounds.map Prod.fst).flatten h h' := by
  intro more
  obtain ⟨out, hrun⟩ := htalk.exec more
  exact hrun.spoken

-- Ends that say the same ask for the same.
theorem item_eq_of_matched {γ : Type} {p' : Code γ} {a : α} {a' : γ} {f' : γ → Code β} {i i' : Item}
    (hp : Conveys G p .idle [i] .idle) (hp' : Conveys G p' .idle [i'] .idle) (hpass : Passes p a given h h')
    (hpass' : Passes p' a' given h h') (hmatched : Matched (p >>= f) (p' >>= f') h) : i = i' := by
  obtain ⟨ws, hrun⟩ := hpass []
  obtain ⟨ws', hrun'⟩ := hpass' []
  obtain ⟨hread, -⟩ := hp h _ rfl _ _ _ _ hrun
  obtain ⟨hread', -⟩ := hp' h _ rfl _ _ _ _ hrun'
  obtain ⟨r, hcopy⟩ := (hmatched (given ++ []) ws).mp ⟨_, hrun.bind f⟩
  rcases hcopy.linear (hrun'.bind f') with ⟨more, rfl, -⟩ | ⟨more, rfl, -⟩
  · rw [readWords_append, hread, Prod.mk.injEq] at hread'
    exact (List.cons.inj hread'.2).1
  · rw [readWords_append, hread', Prod.mk.injEq] at hread
    exact (List.cons.inj hread.2).1.symm

end Matching

section Links

variable {G α : Type} [Posix G] {h : Host G} {l : Link UInt8} {md5 : Bytes → Mem 16} {st : Mem 144}
  {path target cpath : Bytes} {len : Nat}

theorem spoken_sendMessage {m : Bytes} (hm : m ≠ []) (hl : l.closed = false) :
    Spoken host ⟨sendMessage m, h, l⟩ [.said m] ⟨ret true, h, l⟩ := by
  have halive : l.alive = true := by simp [Link.alive, hl]
  rw [sendMessage, if_neg (by simpa using hm)]
  have hfirst : step host ⟨(say m : Code Bool), h, l⟩ = some (⟨ret true, h, l⟩, m) := by
    simp only [step, say, halive, if_true]
  have hwords : (⟨say m, h, l⟩ : Proc Sys UInt8 Fault (Host G) Bool).words = [.said m] := by
    simp only [Proc.words, say, halive, if_true]
  have hrun := Spoken.head hfirst (.refl _)
  rwa [hwords] at hrun

theorem spoken_metaDigest_crash (hd : digestOf md5 h.fs st.val path = none) :
    Spoken host ⟨metaDigest md5 st.val path, h, l⟩ [] ⟨halt .overrun, h, l⟩ := by
  unfold digestOf at hd
  unfold metaDigest md5File
  split_ifs at hd ⊢ with hlnk hreg
  · have hread := Option.map_eq_none_iff.mp hd
    refine Spoken.silent ?_ rfl (.refl _)
    simp [step, sys, Bind.bind, Prog.bind, host, Host.exec, hread]
  · cases hreads : Posix.reads h.fs path with
    | none => simp [hreads] at hd
    | some rs =>
        simp only [hreads] at hd
        have hbytes := Option.map_eq_none_iff.mp hd
        refine Spoken.silent ?_ rfl (.refl _)
        simp [step, sys, Bind.bind, Prog.bind, host, Host.exec, hreads, hbytes]

theorem announcement_ne : announcement ≠ [] := by simp [announcement, header]

theorem spoken_sendHardlink (hl : l.closed = false) (source target : Bytes) :
    ∃ q, Spoken host ⟨sendHardlink source target, h, l⟩
      [.said (hardlinkMessage source.length target.length)] ⟨q, h, l⟩ := by
  have hne : hardlinkMessage source.length target.length ≠ [] := by simp [hardlinkMessage, header]
  have hsent := spoken_sendMessage (h := h) hne hl
  exact ⟨_, .silent rfl rfl (((hsent.bind _).bind _).bind _)⟩

-- What is sent for one entry of the table.
def sendLink (st source target : Bytes) : Code Bool := do
  let _ ← sendMessage (header 0 0 statusMore 0 0)
  sendHardlink source target
  sendMessage st

theorem conveys_sendLink {source : Bytes} (hsource : source.length < pathMax)
    (htarget : target.length < pathMax) :
    Conveys G (sendLink st.val source target) .idle [.hardlink source target st.val] .idle :=
  conveys_after conveys_announcement fun _ =>
    conveys_sendHardlink (hsource.trans (by decide)) (htarget.trans (by decide)) st.property

theorem passes_sendLink (source target : Bytes) :
    Passes (sendLink st.val source target) (decide (0 < st.val.length)) echo.val h h := by
  have htalk : Talk host (sendLink st.val source target) h
      ([([], announcement)] ++ ([([], hardlinkMessage source.length target.length), (echo.val, []),
        ([], source), ([], target)] ++ [([], st.val)])) (ret (decide (0 < st.val.length))) h :=
    Talk.seq (talk_sendMessage announcement)
      (Talk.seq (talk_sendHardlink echo.property (by decide) source target) (talk_sendMessage st.val))
  exact passes_of_talk htalk

theorem sendKnownLinks_cons {k : HardLink} {K : List HardLink} (hinode : k.inode = stIno st.val) :
    sendKnownLinks st.val target (k :: K) =
      sendLink st.val k.path target >>= fun _ => sendKnownLinks st.val target K := by
  rw [sendKnownLinks, if_pos hinode, sendLink]
  simp only [bind_assoc]

theorem passes_sendKnownLinks {K : List HardLink} (hinode : ∀ k ∈ K, k.inode = stIno st.val) :
    ∃ given, Passes (sendKnownLinks st.val target K) () given h h := by
  induction K with
  | nil => exact ⟨[], fun more => ⟨[], .refl _⟩⟩
  | cons k K ih =>
      obtain ⟨given, hrest⟩ := ih fun k' hk => hinode k' (List.mem_cons_of_mem _ hk)
      rw [sendKnownLinks_cons (hinode k List.mem_cons_self)]
      exact ⟨_, (passes_sendLink k.path target).seq hrest⟩

-- The part of `sendEntry` behind the announcement.
theorem passes_entryMeta {hash : Bytes} (hd : digestOf md5 h.fs st.val path = some hash) :
    Passes (sendMessage announcement >>= fun _ => sendMeta md5 st.val path) () echo.val h h := by
  have htalk : Talk host (sendMessage announcement >>= fun _ => sendMeta md5 st.val path) h
      ([([], announcement)] ++ [([], metaMessage statusMore path.length st.val hash), (echo.val, []),
        ([], path)]) (ret ()) h :=
    Talk.seq (talk_sendMessage announcement) (talk_sendMeta hd echo.property (by decide))
  exact passes_of_talk htalk

theorem conveys_entryMeta (hpath : path.length < pathMax) :
    Conveys G (sendMessage announcement >>= fun _ => sendMeta md5 st.val path) .idle
      [.content st.val path] .idle :=
  conveys_after conveys_announcement fun _ => conveys_sendMeta md5 st.property (hpath.trans (by decide))

theorem sendEntry_eq : sendEntry md5 len st.val cpath =
    (sendMessage announcement >>= fun _ => sendMeta md5 st.val (cpath.drop len)) >>= fun _ =>
      sendFile st.val cpath := by
  rw [bind_assoc]
  rfl

-- A link and an entry are told apart.
theorem not_matched_link_entry {source : Bytes} {r : Unit → Code α} (hsource : source.length < pathMax)
    (htarget : target.length < pathMax) (hpath : (cpath.drop len).length < pathMax) {f : Bool → Code α} :
    ¬Matched (sendLink st.val source target >>= f) (sendEntry md5 len st.val cpath >>= r) h := by
  intro hmatched
  rw [sendEntry_eq, bind_assoc] at hmatched
  cases hd : digestOf md5 h.fs st.val (cpath.drop len) with
  | some hash =>
      have heq := item_eq_of_matched (conveys_sendLink hsource htarget) (conveys_entryMeta hpath)
        (passes_sendLink source target) (passes_entryMeta hd) hmatched
      cases heq
  | none =>
      -- the entry comes to a stop behind its announcement
      obtain ⟨q, hlink⟩ := spoken_sendHardlink (h := h) (l := ⟨[], false⟩) rfl source target
      have hleft := spoken_sendMessage (h := h) (l := ⟨[], false⟩) announcement_ne rfl
      have hright := hleft.seq (f := fun _ => sendMeta md5 st.val (cpath.drop len))
        (((spoken_metaDigest_crash hd).bind _))
      have hboth := (alike_iff_behind ((hleft.bind _).bind f)
        (hright.bind fun _ => sendFile st.val cpath >>= r)).mp (hmatched [])
      exact not_alike_of_stuck rfl ((hlink.bind _).bind f) hboth.symm

-- The links that are sent give away the entries of the table.
theorem known_of_matched {K K' : List HardLink} {r r' : Unit → Code α}
    (hinode : ∀ k ∈ K, k.inode = stIno st.val) (hinode' : ∀ k ∈ K', k.inode = stIno st.val)
    (hshort : Short K) (hshort' : Short K') (htarget : target.length < pathMax)
    (hpath : (cpath.drop len).length < pathMax)
    (hmatched : Matched (sendKnownLinks st.val target K >>= fun _ => sendEntry md5 len st.val cpath >>= r)
      (sendKnownLinks st.val target K' >>= fun _ => sendEntry md5 len st.val cpath >>= r') h) : K = K' := by
  induction K generalizing K' with
  | nil =>
      cases K' with
      | nil => rfl
      | cons k' K' =>
          rw [sendKnownLinks_cons (hinode' k' List.mem_cons_self), bind_assoc] at hmatched
          exact absurd (fun inbox => (hmatched inbox).symm)
            (not_matched_link_entry (hshort' k' List.mem_cons_self) htarget hpath)
  | cons k K ih =>
      rw [sendKnownLinks_cons (hinode k List.mem_cons_self), bind_assoc] at hmatched
      cases K' with
      | nil => exact absurd hmatched (not_matched_link_entry (hshort k List.mem_cons_self) htarget hpath)
      | cons k' K' =>
          rw [sendKnownLinks_cons (hinode' k' List.mem_cons_self), bind_assoc] at hmatched
          have hitem := item_eq_of_matched (conveys_sendLink (hshort k List.mem_cons_self) htarget)
            (conveys_sendLink (hshort' k' List.mem_cons_self) htarget) (passes_sendLink k.path target)
            (passes_sendLink k'.path target) hmatched
          have hsource : k.path = k'.path := (Item.hardlink.inj hitem).1
          have hk : k = k' := by
            have heq := (hinode k List.mem_cons_self).trans (hinode' k' List.mem_cons_self).symm
            cases k
            cases k'
            simp_all
          subst hk
          have hrest := (passes_sendLink k.path target).matched hmatched
          rw [ih (fun k hk => hinode k (List.mem_cons_of_mem _ hk))
            (fun k hk => hinode' k (List.mem_cons_of_mem _ hk))
            (fun k hk => hshort k (List.mem_cons_of_mem _ hk))
              (fun k hk => hshort' k (List.mem_cons_of_mem _ hk)) hrest]

end Links

section Tables

variable {G : Type} [Posix G] {g : G} {h : Host G} {l : Link UInt8} {md5 : Bytes → Mem 16}
    {len connFd : Nat}
  {v : Visit} {cs : List (Option Visit)} {hl hl' : List HardLink}

theorem known_inode (hl : List HardLink) (inode : Nat) : ∀ k ∈ known hl inode, k.inode = inode := by
  intro k hk
  simpa using (List.mem_filter.mp hk).2

theorem short_known (hshort : Short hl) (inode : Nat) : Short (known hl inode) :=
  fun k hk => hshort k (List.mem_filter.mp hk).1

theorem passes_sendEntry (hG : Unshared G) (hsame : SameFiles g h.fs) (hv : Sendable md5 g len v) :
    ∃ given h', Passes (sendEntry md5 len v.st.val v.path) () given h h' ∧ SameFiles g h'.fs := by
  obtain ⟨hash, hd⟩ := Option.isSome_iff_exists.mp hv.1
  obtain ⟨stream, hstream⟩ := Option.isSome_iff_exists.mp hv.2
  rw [← digestOf_same hsame] at hd
  rw [← fileStream_same hsame] at hstream
  have hpass : Passes (sendEntry md5 len v.st.val v.path) () echo.val h
      { h with fs := afterSend h.fs v.st.val v.path } := by
    intro more
    obtain ⟨out, hrun⟩ := (talk_sendEntry hd).exec more
    exact (hrun.trans (exec_sendFile hG.granted rfl hstream)).spoken
  obtain ⟨ws, hrun⟩ := hpass []
  exact ⟨_, _, hpass, sameFiles_behind hG (calls_sendEntry sendCalls_sendCall) hsame hrun⟩

-- Every visit is announced first.
theorem spoken_visit (hfd : linked v.st.val = true → connFd < maxConns) (hl₀ : l.closed = false) :
    ∃ q, Spoken host ⟨sendCourse md5 len connFd (some v :: cs) hl, h, l⟩ [.said announcement] q := by
  have hsent := spoken_sendMessage (h := h) announcement_ne hl₀
  by_cases hlinked : linked v.st.val = true
  · rw [sendCourse_linked hlinked, checkSize_pos (hfd hlinked), ret_bind]
    cases hknown : known hl (stIno v.st.val) with
    | nil => exact ⟨_, (hsent.bind _).bind _⟩
    | cons k K =>
        have hinode : k.inode = stIno v.st.val := known_inode hl _ k (by simp [hknown])
        rw [sendKnownLinks_cons hinode]
        exact ⟨_, ((hsent.bind _).bind _).bind _⟩
  · rw [sendCourse_single hlinked]
    exact ⟨_, (hsent.bind _).bind _⟩

-- Where one table has room for a link, so has the other.
theorem room_of_matched {us : List (Option Visit)} {hl₁ hl₂ : List HardLink} (hfd : connFd < maxConns)
    (hmatched : Matched
      (checkSize (hl.length < maxLinks) >>= fun _ => sendCourse md5 len connFd (some v :: us) hl₁)
      (checkSize (hl'.length < maxLinks) >>= fun _ => sendCourse md5 len connFd (some v :: us) hl₂) h)
    (hroom : hl.length < maxLinks) : hl'.length < maxLinks := by
  by_contra hfull
  rw [checkSize_pos hroom, checkSize_neg hfull] at hmatched
  obtain ⟨q, hsaid⟩ : ∃ q, Spoken host ⟨sendCourse md5 len connFd (some v :: us) hl₁, h, ⟨[], false⟩⟩
      [.said announcement] q := spoken_visit (fun _ => hfd) rfl
  exact not_alike_of_stuck rfl hsaid (hmatched []).symm

theorem tablesAgree_of_matched (hG : Unshared G) (hshort : Short hl) (hshort' : Short hl')
    (hpaths : ∀ v, some v ∈ cs → (v.path.drop len).length < pathMax) (hsame : SameFiles g h.fs)
    (hmatched : Matched (sendCourse md5 len connFd cs hl) (sendCourse md5 len connFd cs hl') h) :
    TablesAgree md5 g len connFd cs hl hl' := by
  induction cs generalizing hl hl' h with
  | nil =>
      intro us v vs heq
      simp at heq
  | cons c cs ih =>
      rintro us v vs heq hus
      have hknown : ∀ u, c = some u → linked u.st.val = true → connFd < maxConns →
          known hl (stIno u.st.val) = known hl' (stIno u.st.val) := by
        rintro u rfl hlinked hfd
        rw [sendCourse_linked hlinked, sendCourse_linked hlinked, checkSize_pos hfd] at hmatched
        have hpath := hpaths u List.mem_cons_self
        exact known_of_matched (known_inode hl _) (known_inode hl' _) (short_known hshort _)
          (short_known hshort' _) hpath hpath hmatched
      cases us with
      | nil =>
          obtain ⟨rfl, rfl⟩ := List.cons.inj heq
          exact ⟨iff_of_true (room_nil hl) (room_nil hl'), fun _ hlinked hfd => hknown v rfl hlinked hfd⟩
      | cons u us =>
          rw [List.map_cons, List.cons_append] at heq
          obtain ⟨rfl, rfl⟩ := List.cons.inj heq
          have hu := hus u List.mem_cons_self
          have hus := fun u' hu' => hus u' (List.mem_cons_of_mem _ hu')
          have hpaths' := fun v hv => hpaths v (List.mem_cons_of_mem _ hv)
          by_cases hlinked : linked u.st.val = true
          · rw [room_cons_linked hlinked, room_cons_linked hlinked]
            by_cases hfd : connFd < maxConns
            · rw [sendCourse_linked hlinked, sendCourse_linked hlinked, checkSize_pos hfd, ret_bind,
                ret_bind,
                hknown u rfl hlinked hfd] at hmatched
              obtain ⟨given, hlinks⟩ := @passes_sendKnownLinks G _ h u.st (u.path.drop len) _
                (known_inode hl' (stIno u.st.val))
              obtain ⟨given', h', hentry, hsame'⟩ := passes_sendEntry hG hsame hu
              have hrest := hentry.matched (hlinks.matched hmatched)
              have hrooms : hl.length < maxLinks ↔ hl'.length < maxLinks := by
                obtain ⟨w, ws, hnext⟩ : ∃ w ws, us.map some ++ some v :: vs = some w :: ws := by
                  cases us with
                  | nil => exact ⟨v, vs, rfl⟩
                  | cons w ws => exact ⟨w, _, rfl⟩
                rw [hnext] at hrest
                exact ⟨room_of_matched hfd hrest, room_of_matched hfd fun inbox => (hrest inbox).symm⟩
              by_cases hroom : hl.length < maxLinks
              · have hroom' := hrooms.mp hroom
                have hpath := hpaths u List.mem_cons_self
                rw [checkSize_pos hroom, checkSize_pos hroom'] at hrest
                obtain ⟨hiff, hrestKnown⟩ :=
                  ih (short_append hshort hpath) (short_append hshort' hpath) hpaths'
                  hsame' hrest us v vs rfl hus
                refine ⟨by simpa only [hfd, hroom, hroom', true_and] using hiff, ?_⟩
                rintro ⟨-, hroomed⟩ hlinkedv -
                have heq := hrestKnown hroomed hlinkedv hfd
                rw [known_append, known_append] at heq
                exact List.append_cancel_right heq
              · have hroom' := mt hrooms.mpr hroom
                exact ⟨by omega, by omega⟩
            · exact ⟨by omega, by omega⟩
          · rw [sendCourse_single hlinked, sendCourse_single hlinked] at hmatched
            obtain ⟨given, h', hentry, hsame'⟩ := passes_sendEntry hG hsame hu
            rw [room_cons_single hlinked, room_cons_single hlinked]
            exact ih hshort hshort' hpaths' hsame' (hentry.matched hmatched) us v vs rfl hus

end Tables

end Csiebox.Traverse
