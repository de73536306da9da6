import Csiebox.Tables.Theorems

namespace Csiebox.Tables

open CBytes Program Prog Pull Traverse

variable {F α : Type} [Posix F] {f : F} {h : Host F} {l : Link UInt8} {md5 : Bytes → Mem 16} {len : Nat}

section Directories

-- The directory in a file system, with what decides whether it is entered.
def dirEntries (f : F) (path : Bytes → Bytes → Bytes) (descend : Bytes → Dir Bool) (dirName : Bytes) :
    List Dirent → Dir Bool
  | [] => .done
  | entry :: entries =>
      if entry.name.val.head? = some dot then .hidden (dirEntries f path descend dirName entries)
      else match Posix.lstat f (path dirName entry.name.val) with
        | none => .lost
        | some st =>
            .entry st entry.isDir (descend (path dirName entry.name.val))
              (dirEntries f path descend dirName entries)

def dirAt (f : F) (path : Bytes → Bytes → Bytes) : Nat → Bytes → Dir Bool
  | 0, _ => .done
  | depth + 1, dirName =>
      match Posix.opendir f dirName with
      | none => .done
      | some entries => dirEntries f path (dirAt f path depth) dirName entries

def Dir.map {ω ω' : Type} (g : ω → ω') : Dir ω → Dir ω'
  | .done => .done
  | .hidden rest => .hidden (rest.map g)
  | .lost => .lost
  | .entry st answer below rest => .entry st (g answer) (below.map g) (rest.map g)

theorem links_map {ω ω' : Type} (g : ω → ω') (enters : Mem 144 → ω' → Bool) (dir : Dir ω) :
    (dir.map g).links enters = dir.links fun st answer => enters st (g answer) := by
  induction dir with
  | done => rfl
  | hidden rest ih => exact ih
  | lost => rfl
  | entry st answer below rest ihbelow ihrest => simp only [Dir.map, Dir.links, ihbelow, ihrest]

theorem linksOf_visit (v : Visit) : (linksOf len [v]).length = if linked v.st.val then 1 else 0 := by
  unfold linksOf
  split_ifs with hlinked
  · simp [hlinked]
  · simp [hlinked]

theorem linksOf_entry (v : Visit) (us vs : List Visit) : (linksOf len (v :: (us ++ vs))).length =
    (if linked v.st.val then 1 else 0) + ((linksOf len us).length + (linksOf len vs).length) := by
  rw [show v :: (us ++ vs) = [v] ++ (us ++ vs) from rfl, linksOf_append, linksOf_append, List.length_append,
    List.length_append, linksOf_visit]

theorem links_clientEntries {descend : Bytes → Dir Bool} {below : Bytes → List Visit}
    (hbelow : ∀ dirName, (descend dirName).links (fun _ isDir => isDir) =
      (linksOf len (below dirName)).length)
    (dirName : Bytes) (entries : List Dirent) :
    (dirEntries f clientPath descend dirName entries).links (fun _ isDir => isDir) =
      (linksOf len (clientVisitEntries f below dirName entries)).length := by
  induction entries with
  | nil => rfl
  | cons entry entries ih =>
      rw [dirEntries, clientVisitEntries]
      by_cases hhidden : entry.name.val.head? = some dot
      · rw [if_pos hhidden, if_pos hhidden]
        exact ih
      · rw [if_neg hhidden, if_neg hhidden]
        cases Posix.lstat f (clientPath dirName entry.name.val) with
        | none => rfl
        | some st =>
            simp only [Dir.links, linksOf_entry, ih, hbelow]
            split_ifs <;> rfl

theorem links_client (depth : Nat) (dirName : Bytes) :
    (dirAt f clientPath depth dirName).links (fun _ isDir => isDir) =
      (linksOf len (clientVisits f depth dirName)).length := by
  induction depth generalizing dirName with
  | zero => rfl
  | succ depth ih =>
      rw [dirAt, clientVisits]
      cases Posix.opendir f dirName with
      | none => rfl
      | some entries => exact links_clientEntries ih dirName entries

theorem links_serverEntries {descend : Bytes → Dir Bool} {below : Bytes → List Visit}
    (hbelow : ∀ dirName, (descend dirName).links (fun st _ => sIsDir (stMode st.val)) =
      (linksOf len (below dirName)).length)
    (dirName : Bytes) (entries : List Dirent) :
    (dirEntries f snprintfPath descend dirName entries).links (fun st _ => sIsDir (stMode st.val)) =
      (linksOf len (visitEntries f below dirName entries)).length := by
  induction entries with
  | nil => rfl
  | cons entry entries ih =>
      rw [dirEntries, visitEntries]
      by_cases hhidden : entry.name.val.head? = some dot
      · rw [if_pos hhidden, if_pos hhidden]
        exact ih
      · rw [if_neg hhidden, if_neg hhidden]
        cases Posix.lstat f (snprintfPath dirName entry.name.val) with
        | none => rfl
        | some st =>
            simp only [Dir.links, linksOf_entry, ih, hbelow]
            split_ifs <;> rfl

theorem links_server (depth : Nat) (dirName : Bytes) :
    (dirAt f snprintfPath depth dirName).links (fun st _ => sIsDir (stMode st.val)) =
      (linksOf len (visits f depth dirName)).length := by
  induction depth generalizing dirName with
  | zero => rfl
  | succ depth ih =>
      rw [dirAt, visits]
      cases Posix.opendir f dirName with
      | none => rfl
      | some entries => exact links_serverEntries ih dirName entries

end Directories

section Checks

-- `hl` grows, and not past `n`.
structure Grows (allowed : Prop) (n : Nat) (hl hl' : List HardLink) : Prop where
  le : hl.length ≤ hl'.length
  fits : hl'.length = hl.length ∨ allowed ∧ hl'.length ≤ n

theorem Grows.refl {allowed : Prop} {n : Nat} (hl : List HardLink) : Grows allowed n hl hl :=
  ⟨Nat.le_refl _, .inl rfl⟩

theorem Grows.trans {allowed : Prop} {n : Nat} {hl hl' hl'' : List HardLink} (h : Grows allowed n hl hl')
    (h' : Grows allowed n hl' hl'') : Grows allowed n hl hl'' := by
  refine ⟨h.le.trans h'.le, ?_⟩
  obtain hsame | hfits' := h'.fits
  · rw [hsame]
    exact h.fits
  · exact .inr hfits'

theorem says_any {p : Code α} {Q : α → Host F → Link UInt8 → List (Word UInt8) → Prop}
    (hQ : ∀ a h l ws, Q a h l ws) : Says host p h l Q :=
  fun ws a h' l' _ => hQ a h' l' ws

theorem says_checkSize {fits : Prop} [Decidable fits] :
    Says host (checkSize fits : Code Unit) h l fun _ _ _ _ => fits := by
  by_cases hfits : fits
  · rw [checkSize_pos hfits]
    exact says_ret hfits
  · rw [checkSize_neg hfits]
    exact says_halt

theorem says_setEventPath (client : Client) (wd : Int) (path : Bytes) :
    Says host (setEventPath client wd path) h l fun client' _ _ _ =>
      (Slot.eventPath wd).Inside ∧ client'.hl = client.hl := by
  refine says_bind (says_checkSize.mono fun _ _ _ _ hfits => says_ret ?_)
  exact ⟨⟨hfits.1, hfits.2.1⟩, rfl⟩

theorem says_handleEvent (event : Bytes) (client : Client) :
    Says host (Csiebox.handleEvent md5 event client) h l fun _ _ _ _ =>
      (Slot.eventPath (eventWd event)).Inside :=
  says_bind (says_checkSize.mono fun _ _ _ _ hfits => says_any fun _ _ _ _ => hfits)

theorem says_clientGrows (st : Bytes) (cpath : Bytes) (client : Client) :
    Says host (Csiebox.clientEntry md5 st cpath client) h l fun client' _ _ _ =>
      Grows True maxClientLinks client.hl client'.hl := by
  unfold Csiebox.clientEntry
  split_ifs
  · refine says_bind (says_any fun _ _ _ _ => says_bind (says_any fun _ _ _ _ => ?_))
    refine says_bind (says_checkSize.mono fun _ _ _ _ hfits => says_ret ?_)
    exact ⟨by simp, .inr ⟨trivial, by simpa [Nat.succ_le_iff] using hfits⟩⟩
  · exact says_bind (says_any fun _ _ _ _ => says_ret (.refl client.hl))

theorem says_watchGrows {descend : Bytes → Client → Code Client}
    (hdescend : ∀ dirName client (h : Host F) l, Says host (descend dirName client) h l
      fun client' _ _ _ => Grows True maxClientLinks client.hl client'.hl)
    (cpath : Bytes) (client : Client) : Says host (watchAndDescend descend cpath client) h l
      fun client' _ _ _ => Grows True maxClientLinks client.hl client'.hl := by
  refine says_bind (says_any fun wd h' l' _ => says_bind ?_)
  refine (says_setEventPath client wd cpath).mono fun client' h'' l'' _ hset => ?_
  rw [← hset.2]
  exact hdescend cpath client' h'' l''

theorem says_clientVisitGrows {descend : Bytes → Client → Code Client}
    (hdescend : ∀ dirName client (h : Host F) l, Says host (descend dirName client) h l
      fun client' _ _ _ => Grows True maxClientLinks client.hl client'.hl)
    (dirName : Bytes) (entries : List Dirent) (client : Client) :
    Says host (clientVisit md5 descend dirName entries client) h l fun client' _ _ _ =>
      Grows True maxClientLinks client.hl client'.hl := by
  induction entries generalizing client h l with
  | nil => exact says_ret (.refl client.hl)
  | cons entry entries ih =>
      rw [clientVisit]
      by_cases hhidden : entry.name.val.head? = some dot
      · rw [if_pos hhidden]
        exact ih client
      · rw [if_neg hhidden]
        refine says_bind (says_any fun found h' l' _ => ?_)
        cases found with
        | none => exact says_ret (.refl client.hl)
        | some st =>
            refine says_bind ((says_clientGrows st.val _ client).mono fun client' h'' l'' _ hentry => ?_)
            have hbelow : Says host (if entry.isDir then
                watchAndDescend descend (clientPath dirName entry.name.val) client' else ret client')
                  h'' l''
                fun client'' _ _ _ => Grows True maxClientLinks client'.hl client''.hl := by
              split_ifs
              · exact says_watchGrows hdescend _ client'
              · exact says_ret (.refl client'.hl)
            refine says_bind (hbelow.mono fun client'' h₃ l₃ _ hgrow => ?_)
            exact (ih client'').mono fun client₃ _ _ _ hrest => hentry.trans (hgrow.trans hrest)

theorem says_clientTraverseGrows (depth : Nat) (dirName : Bytes) (client : Client) :
    Says host (clientTraverseFile md5 depth dirName client) h l fun client' _ _ _ =>
      Grows True maxClientLinks client.hl client'.hl := by
  induction depth generalizing dirName client h l with
  | zero => exact says_halt
  | succ depth ih =>
      rw [clientTraverseFile]
      refine says_bind (says_any fun found h' l' _ => ?_)
      cases found with
      | none => exact says_ret (.refl client.hl)
      | some entries => exact says_clientVisitGrows (fun dirName client h l => ih dirName client) _ _ _

theorem says_serverGrows (connFd : Nat) (st cpath : Bytes) (hl : List HardLink) :
    Says host (Csiebox.serverEntry md5 len connFd st cpath hl) h l fun hl' _ _ _ =>
      Grows (connFd < maxConns) maxLinks hl hl' := by
  unfold Csiebox.serverEntry
  split_ifs
  · refine says_bind (says_checkSize.mono fun _ _ _ _ hfd => ?_)
    refine says_bind (says_any fun _ _ _ _ => says_bind (says_any fun _ _ _ _ => ?_))
    refine says_bind (says_checkSize.mono fun _ _ _ _ hfits => says_ret ?_)
    exact ⟨by simp, .inr ⟨hfd, by simpa [Nat.succ_le_iff] using hfits⟩⟩
  · exact says_bind (says_any fun _ _ _ _ => says_ret (.refl hl))

theorem says_serverVisitGrows {connFd : Nat} {descend : Bytes → List HardLink → Code (List HardLink)}
    (hdescend : ∀ dirName hl (h : Host F) l, Says host (descend dirName hl) h l
      fun hl' _ _ _ => Grows (connFd < maxConns) maxLinks hl hl')
    (dirName : Bytes) (entries : List Dirent) (hl : List HardLink) :
    Says host (serverVisit md5 len connFd descend dirName entries hl) h l fun hl' _ _ _ =>
      Grows (connFd < maxConns) maxLinks hl hl' := by
  induction entries generalizing hl h l with
  | nil => exact says_ret (.refl hl)
  | cons entry entries ih =>
      rw [serverVisit]
      by_cases hhidden : entry.name.val.head? = some dot
      · rw [if_pos hhidden]
        exact ih hl
      · rw [if_neg hhidden]
        refine says_bind (says_any fun found h' l' _ => ?_)
        cases found with
        | none => exact says_ret (.refl hl)
        | some st =>
            refine says_bind ((says_serverGrows connFd st.val _ hl).mono fun hl' h'' l'' _ hentry => ?_)
            have hbelow : Says host (if sIsDir (stMode st.val) then
                descend (snprintfPath dirName entry.name.val) hl' else ret hl') h'' l''
                fun hl'' _ _ _ => Grows (connFd < maxConns) maxLinks hl' hl'' := by
              split_ifs
              · exact hdescend _ hl' h'' l''
              · exact says_ret (.refl hl')
            refine says_bind (hbelow.mono fun hl'' h₃ l₃ _ hgrow => ?_)
            exact (ih hl'').mono fun hl₃ _ _ _ hrest => hentry.trans (hgrow.trans hrest)

theorem says_serverTraverseGrows (connFd depth : Nat) (dirName : Bytes) (hl : List HardLink) :
    Says host (serverTraverseFile md5 len connFd depth dirName hl) h l fun hl' _ _ _ =>
      Grows (connFd < maxConns) maxLinks hl hl' := by
  induction depth generalizing dirName hl h l with
  | zero => exact says_halt
  | succ depth ih =>
      rw [serverTraverseFile]
      refine says_bind (says_any fun found h' l' _ => ?_)
      cases found with
      | none => exact says_ret (.refl hl)
      | some entries => exact says_serverVisitGrows (fun dirName hl h l => ih dirName hl) _ _ _

end Checks

section Traversals

-- The server's `traverse_file` uses its tables as `serverTraverse` lists it, and comes
-- back only if all of it was inside.
theorem says_serverInside (hF : Locking F) (connFd depth : Nat) (dirName : Bytes) (hl : List HardLink)
    (hshort : Short hl) (hopen : l.closed = false) :
    Says host (serverTraverseFile md5 len connFd depth dirName hl) h l fun hl' _ _ _ =>
      let dir := (dirAt h.fs snprintfPath depth dirName).map fun _ => ()
      hl'.length = (serverTraverse connFd dir hl.length).2 ∧
        ∀ slot ∈ (serverTraverse connFd dir hl.length).1, slot.Inside := by
  have hvisited : Says host (serverTraverseFile md5 len connFd depth dirName hl) h l fun hl' h' l' ws =>
      Visited len h.fs hl (visits h.fs depth dirName) hl' h' l' ws :=
    says_serverTraverseFile hF depth dirName hl hshort (SameTree.refl h.fs) hopen
  refine (hvisited.and (says_serverTraverseGrows connFd depth dirName hl)).mono fun hl' _ _ _ hrun => ?_
  obtain ⟨hvisited, hgrows⟩ := hrun
  have hlinks : ((dirAt h.fs snprintfPath depth dirName).map fun _ => ()).links
      (fun st _ => sIsDir (stMode st.val)) = (linksOf len (visits h.fs depth dirName)).length := by
    rw [links_map, links_server]
  have hlength : hl'.length = hl.length + (linksOf len (visits h.fs depth dirName)).length := by
    rw [hvisited.table, List.length_append]
  have hfits := hgrows.fits
  simp only
  rw [serverTraverse_inside_iff, serverTraverse_count, hlinks]
  exact ⟨hlength, by omega⟩

-- The same of the client's, whatever descriptors it is given.
theorem says_clientInside (hF : Steady F) (depth : Nat) (dirName : Bytes) (client : Client)
    (hshort : Short client.hl) (hopen : l.closed = false) (dir : Dir (Option Int))
    (hdir : dir.map Option.isSome = dirAt h.fs clientPath depth dirName) :
    Says host (clientTraverseFile md5 depth dirName client) h l fun client' _ _ _ =>
      client'.hl.length = (clientTraverse dir client.hl.length).2 ∧
        ∀ i, .use (.clientLink i) ∈ (clientTraverse dir client.hl.length).1 →
          (Slot.clientLink i).Inside := by
  have hvisited : Says host (clientTraverseFile md5 depth dirName client) h l fun client' h' l' ws =>
      Visited 2 h.fs client.hl (clientVisits h.fs depth dirName) client'.hl h' l' ws :=
    says_clientTraverseFile hF depth dirName client hshort (SameTree.refl h.fs) hopen
  refine (hvisited.and (says_clientTraverseGrows depth dirName client)).mono fun client' _ _ _ hrun => ?_
  obtain ⟨hvisited, hgrows⟩ := hrun
  have hlinks : dir.links (fun _ answer => answer.isSome) =
      (linksOf 2 (clientVisits h.fs depth dirName)).length := by
    rw [← links_client, ← hdir, links_map]
  have hlength : client'.hl.length = client.hl.length +
      (linksOf 2 (clientVisits h.fs depth dirName)).length := by
    rw [hvisited.table, List.length_append]
  have hfits := hgrows.fits
  rw [clientTraverse_count, hlinks]
  refine ⟨hlength, fun i hi => ?_⟩
  have hbound := (clientLink_traverse dir client.hl.length i).mp hi
  rw [hlinks] at hbound
  show i < maxClientLinks
  omega

end Traversals

end Csiebox.Tables
