import Csiebox.Pull.Outcome
import Csiebox.Traverse.Course

namespace Csiebox.Traverse

open CBytes Program Prog Pull

section Tables

variable {G : Type} [Posix G] (md5 : Bytes → Mem 16) (g : G) (len connFd : Nat)

-- The digest and the content of an entry can be read.
def Sendable (v : Visit) : Prop :=
  (digestOf md5 g v.st.val (v.path.drop len)).isSome ∧ (fileStream g v.st.val v.path).isSome

-- `hl` has room for the links among `us`.
def Room (hl : List HardLink) (us : List Visit) : Prop :=
  linksOf len us = [] ∨ connFd < maxConns ∧ hl.length + (linksOf len us).length ≤ maxLinks

-- At each visit that is reached, both tables have had room for the earlier ones, and they
-- have the same entries for its inode.
def TablesAgree (cs : List (Option Visit)) (hl hl' : List HardLink) : Prop :=
  ∀ us v vs, cs = us.map some ++ some v :: vs → (∀ u ∈ us, Sendable md5 g len u) →
    (Room len connFd hl us ↔ Room len connFd hl' us) ∧
      (Room len connFd hl us → linked v.st.val = true → connFd < maxConns →
        known hl (stIno v.st.val) = known hl' (stIno v.st.val))

variable {md5 g len connFd} {cs : List (Option Visit)} {hl hl' : List HardLink} {v : Visit}
    {us : List Visit}

theorem linksOf_single (hlinked : ¬linked v.st.val = true) : linksOf len [v] = [] := by
  simp [linksOf, hlinked]

theorem linksOf_linked (hlinked : linked v.st.val = true) :
    linksOf len [v] = [{ inode := stIno v.st.val, path := v.path.drop len }] := by
  simp [linksOf, hlinked]

theorem linksOf_cons : linksOf len (v :: us) = linksOf len [v] ++ linksOf len us :=
  @linksOf_append [v] us len

theorem room_cons_single (hlinked : ¬linked v.st.val = true) :
    Room len connFd hl (v :: us) ↔ Room len connFd hl us := by
  rw [Room, Room, linksOf_cons, linksOf_single hlinked, List.nil_append]

-- A file with several links takes one element.
theorem room_cons_linked (hlinked : linked v.st.val = true) :
    Room len connFd hl (v :: us) ↔
      (connFd < maxConns ∧ hl.length < maxLinks) ∧ Room len connFd (hl ++ linksOf len [v]) us := by
  rw [Room, Room, linksOf_cons, linksOf_linked hlinked]
  simp only [List.length_append, List.length_nil, List.singleton_append, List.length_cons,
    reduceCtorEq, false_or]
  rcases hus : linksOf len us with _ | ⟨e, es⟩
  · simp only [List.length_nil, true_or, and_true]
    omega
  · simp only [List.length_cons, reduceCtorEq, false_or]
    omega

theorem known_append (hl links : List HardLink) (inode : Nat) :
    known (hl ++ links) inode = known hl inode ++ known links inode := by
  simp [known]

-- What the rest of a course asks of the tables.
theorem TablesAgree.rest_single (h : TablesAgree md5 g len connFd (some v :: cs) hl hl')
    (hv : Sendable md5 g len v) (hlinked : ¬linked v.st.val = true) :
    TablesAgree md5 g len connFd cs hl hl' := by
  rintro us u vs rfl hus
  have hrest := h (v :: us) u vs rfl (by simpa using ⟨hv, hus⟩)
  rwa [room_cons_single hlinked, room_cons_single hlinked] at hrest

theorem TablesAgree.rest_linked (h : TablesAgree md5 g len connFd (some v :: cs) hl hl')
    (hv : Sendable md5 g len v) (hlinked : linked v.st.val = true)
    (hroom : connFd < maxConns ∧ hl.length < maxLinks)
    (hroom' : connFd < maxConns ∧ hl'.length < maxLinks) :
    TablesAgree md5 g len connFd cs (hl ++ linksOf len [v]) (hl' ++ linksOf len [v]) := by
  rintro us u vs rfl hus
  obtain ⟨hrooms, hknown⟩ := h (v :: us) u vs rfl (by simpa using ⟨hv, hus⟩)
  rw [room_cons_linked hlinked, room_cons_linked hlinked] at hrooms
  rw [room_cons_linked hlinked] at hknown
  refine ⟨?_, fun hroom₂ hu hfd => ?_⟩
  · simpa only [hroom, hroom', true_and] using hrooms
  · rw [known_append, known_append, hknown ⟨hroom, hroom₂⟩ hu hfd]

end Tables

section Entries

variable {G : Type} [Posix G] {g : G} {md5 : Bytes → Mem 16} {len connFd : Nat} {st : Mem 144}
  {cpath target : Bytes} {hl : List HardLink} {h : Host G} {l : Link UInt8}

theorem digestOf_same {g' : G} (h : SameFiles g g') (st path : Bytes) :
    digestOf md5 g' st path = digestOf md5 g st path := by
  simp only [digestOf, h.readlink, h.reads]

theorem fileStream_same {g' : G} (h : SameFiles g g') (st path : Bytes) :
    fileStream g' st path = fileStream g st path := by
  simp only [fileStream, h.readlink, h.fopenRead]

theorem ends_sendMeta_digest {path : Bytes} (hsame : SameFiles g h.fs) :
    Ends host (sendMeta md5 st.val path) h l fun _ _ _ => (digestOf md5 g st.val path).isSome := by
  cases hd : digestOf md5 g st.val path with
  | none =>
      rw [← digestOf_same hsame] at hd
      exact (ends_of_halt ((exec_metaDigest_crash hd).bind _)).mono fun _ _ _ h => h.elim
  | some hash => exact ends_any.mono fun _ _ _ _ => rfl

theorem ends_sendFile_stream {path : Bytes} (hsame : SameFiles g h.fs) :
    Ends host (sendFile st.val path) h l fun _ _ _ => (fileStream g st.val path).isSome := by
  cases hstream : fileStream g st.val path with
  | none =>
      rw [← fileStream_same hsame] at hstream
      obtain ⟨e, hcrash⟩ := exec_sendFile_crash (l := l) hstream
      exact (ends_of_halt hcrash).mono fun _ _ _ h => h.elim
  | some stream => exact ends_any.mono fun _ _ _ _ => rfl

-- An entry that has been sent as a whole could be read.
theorem sendable_of_sent (hG : Unshared G) (hsame : SameFiles g h.fs) {h' : Host G} {l' : Link UInt8}
    {ws : List (Word UInt8)}
    (hrun : Spoken host ⟨sendEntry md5 len st.val cpath, h, l⟩ ws ⟨ret (), h', l'⟩) :
    Sendable md5 g len ⟨cpath, st⟩ := by
  have hsays : Says host (sendEntry md5 len st.val cpath) h l fun _ _ _ _ =>
      Sendable md5 g len ⟨cpath, st⟩ := by
    refine says_bind fun ws sent h₁ l₁ hann => says_bind fun ws' done h₂ l₂ hmeta => ?_
    have hsame₁ := sameFiles_behind hG calls_sendMessage hsame hann
    have hsame₂ := sameFiles_behind hG (calls_sendMeta sendCalls_sendCall) hsame₁ hmeta
    have hdigest := says_of_ends (ends_sendMeta_digest hsame₁) _ _ _ _ hmeta
    exact (says_of_ends (ends_sendFile_stream hsame₂)).mono fun _ _ _ _ hstream => ⟨hdigest, hstream⟩
  exact hsays _ _ _ _ hrun

theorem sendKnownLinks_known (st target : Bytes) (hl : List HardLink) :
    sendKnownLinks st target hl = sendKnownLinks st target (known hl (stIno st)) := by
  induction hl with
  | nil => rfl
  | cons h hl ih =>
      rw [known_cons]
      by_cases hinode : h.inode = stIno st
      · simp only [sendKnownLinks, if_pos hinode, ih]
      · rw [sendKnownLinks, if_neg hinode, if_neg hinode, ih]

-- One element of the course, as far as it depends on the table.
theorem sendCourse_single {v : Visit} {cs : List (Option Visit)} (hlinked : ¬linked v.st.val = true) :
    sendCourse md5 len connFd (some v :: cs) hl =
      sendEntry md5 len v.st.val v.path >>= fun _ => sendCourse md5 len connFd cs hl := by
  have hbranch : ¬(!sIsDir (stMode v.st.val) && stNlink v.st.val != 1) = true := hlinked
  rw [sendCourse, serverEntry, if_neg hbranch, bind_assoc]
  rfl

theorem sendCourse_linked {v : Visit} {cs : List (Option Visit)} (hlinked : linked v.st.val = true) :
    sendCourse md5 len connFd (some v :: cs) hl =
      checkSize (connFd < maxConns) >>= fun _ =>
        sendKnownLinks v.st.val (v.path.drop len) (known hl (stIno v.st.val)) >>= fun _ =>
          sendEntry md5 len v.st.val v.path >>= fun _ => checkSize (hl.length < maxLinks) >>= fun _ =>
            sendCourse md5 len connFd cs (hl ++ linksOf len [v]) := by
  have hbranch : (!sIsDir (stMode v.st.val) && stNlink v.st.val != 1) = true := hlinked
  rw [sendCourse, serverEntry, if_pos hbranch, ← sendKnownLinks_known, linksOf_linked hlinked]
  simp only [bind_assoc]
  rfl

-- Where nothing comes that could be sent, it does not matter whether there is room.
theorem stuck_sendCourse {cs : List (Option Visit)} (hnone : ∀ v vs, cs ≠ some v :: vs) :
    step host ⟨sendCourse md5 len connFd cs hl, h, l⟩ = none := by
  rcases cs with _ | ⟨v, vs⟩
  · rfl
  · cases v with
    | none => rfl
    | some v => exact absurd rfl (hnone v vs)

theorem stuck_room {fits : Prop} [Decidable fits] {p : Code (List HardLink)}
    (hp : fits → step host ⟨p, h, l⟩ = none) :
    step host ⟨checkSize fits >>= fun _ => p, h, l⟩ = none := by
  by_cases hfits : fits
  · rw [checkSize_pos hfits]
    exact hp hfits
  · rw [checkSize_neg hfits]
    rfl

end Entries

section Agreeing

variable {G : Type} [Posix G] {g : G} {md5 : Bytes → Mem 16} {len connFd : Nat}

theorem room_nil (hl : List HardLink) : Room len connFd hl [] := .inl rfl

theorem room_one {hl : List HardLink} {v : Visit} (hlinked : linked v.st.val = true) :
    Room len connFd hl [v] ↔ connFd < maxConns ∧ hl.length < maxLinks := by
  rw [room_cons_linked hlinked]
  simp only [room_nil, and_true]

-- What is sent depends on the tables only where they disagree.
theorem alikeOn_sendCourse (hG : Unshared G) {cs : List (Option Visit)} {hl hl' : List HardLink}
    (hagree : TablesAgree md5 g len connFd cs hl hl') :
    AlikeOn g (sendCourse md5 len connFd cs hl) (sendCourse md5 len connFd cs hl') := by
  induction cs generalizing hl hl' with
  | nil => exact fun h l _ => alike_of_stuck rfl rfl
  | cons v cs ih =>
      cases v with
      | none => exact fun h l _ => .refl _
      | some v =>
          by_cases hlinked : linked v.st.val = true
          · intro h l hsame
            rw [sendCourse_linked hlinked, sendCourse_linked hlinked]
            by_cases hfd : connFd < maxConns
            · rw [checkSize_pos hfd, ret_bind, ret_bind,
                (hagree [] v cs rfl (by simp)).2 (room_nil hl) hlinked hfd]
              refine alike_bind fun ws _ h₁ l₁ hknown => alike_bind fun ws' _ h₂ l₂ hentry => ?_
              have hsame₁ := sameFiles_behind hG calls_sendKnownLinks hsame hknown
              have hsame₂ := sameFiles_behind hG (calls_sendEntry sendCalls_sendCall) hsame₁ hentry
              have hv := sendable_of_sent hG hsame₁ hentry
              -- both have room for the link, or nothing is said behind it
              by_cases hrooms : hl.length < maxLinks ∧ hl'.length < maxLinks
              · rw [checkSize_pos hrooms.1, checkSize_pos hrooms.2]
                exact ih (hagree.rest_linked hv hlinked ⟨hfd, hrooms.1⟩ ⟨hfd, hrooms.2⟩) h₂ l₂ hsame₂
              · have hnone : hl.length < maxLinks ∨ hl'.length < maxLinks → ∀ u us, cs ≠ some u :: us := by
                  rintro hone u us rfl
                  have hiff := (hagree [v] u us rfl (by simpa using hv)).1
                  rw [room_one hlinked, room_one hlinked] at hiff
                  omega
                exact alike_of_stuck (stuck_room fun hfits => stuck_sendCourse (hnone (.inl hfits)))
                  (stuck_room fun hfits => stuck_sendCourse (hnone (.inr hfits)))
            · rw [checkSize_neg hfd]
              exact .refl _
          · intro h l hsame
            rw [sendCourse_single hlinked, sendCourse_single hlinked]
            refine alike_bind fun ws _ h₁ l₁ hentry => ?_
            have hsame₁ := sameFiles_behind hG (calls_sendEntry sendCalls_sendCall) hsame hentry
            exact ih (hagree.rest_single (sendable_of_sent hG hsame hentry) hlinked) h₁ l₁ hsame₁

end Agreeing

end Csiebox.Traverse
