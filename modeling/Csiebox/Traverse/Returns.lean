import Csiebox.Client.ServerGone
import Csiebox.Traverse

namespace Csiebox.Traverse

open CBytes Program Prog Pull

section Needs

variable {F : Type} [Posix F] (md5 : Bytes → Mem 16)

-- One request of the client: the digest, the answer, the verdict and, where it says MORE,
-- the content.
def fileSynced (st cpath : Bytes) (f : F) (l : Link UInt8) : Option (F × Link UInt8) := do
  let _ ← digestOf md5 f st (cpath.drop 2)
  let l ← answered l
  let (header, l) ← judged l
  let f ← (if headerStatus header = statusMore then contentSent f st cpath else some f)
  return (f, l)

-- The announcements of an entry's other names.
def namesAnswered (st : Bytes) : List HardLink → Link UInt8 → Option (Link UInt8)
  | [], l => some l
  | h :: hs, l =>
      if h.inode = stIno st then (linkAnswered (zeros sizeofHeader) l).bind (namesAnswered st hs)
      else namesAnswered st hs l

-- A file with several names needs a place in `hl`.
def entryPushed (st cpath : Bytes) (client : Client) (f : F) (l : Link UInt8) :
    Option (Client × F × Link UInt8) :=
  if !sIsDir (stMode st) && stNlink st != 1 then do
    let l ← namesAnswered st client.hl l
    let (f, l) ← fileSynced md5 st cpath f l
    guard (client.hl.length < maxClientLinks)
    return ({ client with hl := client.hl ++ [{ inode := stIno st, path := cpath.drop 2 }] }, f, l)
  else do
    let (f, l) ← fileSynced md5 st cpath f l
    return (client, f, l)

-- The watch of a directory needs a row of `event_path`.
def dirWatched (cpath : Bytes) (client : Client) (f : F) (l : Link UInt8) :
    Option (Client × F × Link UInt8) := do
  let (wd, f) := Posix.addWatch f cpath
  guard (0 ≤ wd ∧ wd < maxWatches ∧ cpath.length < pathMax)
  return ({ client with eventPath := Function.update client.eventPath wd.toNat cpath }, f, l)

def visitPushed (descend : Bytes → Client → F → Link UInt8 → Option (Client × F × Link UInt8))
    (dirName : Bytes) : List Dirent → Client → F → Link UInt8 → Option (Client × F × Link UInt8)
  | [], client, f, l => some (client, f, l)
  | entry :: entries, client, f, l =>
      if entry.name.val.head? = some dot then visitPushed descend dirName entries client f l
      else
        let cpath := clientPath dirName entry.name.val
        match Posix.lstat f cpath with
        | none => some (client, f, l)
        | some st => do
            let (client, f, l) ← entryPushed md5 st.val cpath client f l
            let (client, f, l) ←
              (if entry.isDir then do
                let (client, f, l) ← dirWatched cpath client f l
                descend cpath client f l
              else some (client, f, l))
            visitPushed descend dirName entries client f l

-- The push of a directory gets through, down to the depth of the stack.
def treePushed : Nat → Bytes → Client → F → Link UInt8 → Option (Client × F × Link UInt8)
  | 0, _, _, _, _ => none
  | depth + 1, dirName, client, f, l =>
      match Posix.opendir f dirName with
      | none => some (client, f, l)
      | some entries => visitPushed md5 (treePushed depth) dirName entries client f l

end Needs

section Push

-- The sends are not counted here.
theorem hardlinkSent_link (source target : Bytes) (l : Link UInt8) :
    hardlinkSent source target l = linkAnswered (zeros sizeofHeader) l := by
  simp [hardlinkSent]

theorem contentPosted_link {F : Type} [Posix F] (f : F) (st path : Bytes) (l : Link UInt8) :
    contentPosted f st path l = l := by
  have hsent : ∀ n, Channel.sent^[n] l = l := Function.iterate_fixed rfl
  unfold contentPosted
  split_ifs
  · split
    · rfl
    · exact hsent _
  · split
    · rfl
    · exact posted_link l _
  · rfl

variable {F : Type} [Posix F] {md5 : Bytes → Mem 16} {h : Host F} {l : Link UInt8} {st cpath : Bytes}

theorem total_syncFile {P : F → Link UInt8 → Prop} :
    TotalHost (syncFile md5 st cpath) h l (fun _ h l => P h.fs l) ↔
      ∃ f l', fileSynced md5 st cpath h.fs l = some (f, l') ∧ P f l' := by
  have hcontent : ∀ (header : Bytes) (l : Link UInt8),
      TotalHost (if headerStatus header = statusMore then sendFile st cpath else ret ()) h l
          (fun _ h l => P h.fs l) ↔
        ∃ f, (if headerStatus header = statusMore then contentSent h.fs st cpath else some h.fs) = some f ∧
          P f l := by
    intro header l
    split_ifs
    · rw [total_sendFile, contentPosted_link]
    · simp [TotalHost]
  unfold syncFile fileSynced
  refine total_seq.trans (total_sendMeta.trans ?_)
  simp only [total_seq, posted_link, total_awaitVerdict (zeros_length sizeofHeader), hcontent,
    Option.pure_def,
    Option.bind_eq_bind, Option.bind_eq_some_iff, Option.some.injEq, Prod.mk.injEq, Prod.exists]
  constructor
  · rintro ⟨hash, l₁, hd, hl₁, header, l₂, hl₂, f, hf, hP⟩
    exact ⟨f, l₂, ⟨hash, hd, l₁, hl₁, header, l₂, hl₂, f, hf, rfl, rfl⟩, hP⟩
  · rintro ⟨_, _, ⟨hash, hd, l₁, hl₁, header, l₂, hl₂, f, hf, rfl, rfl⟩, hP⟩
    exact ⟨hash, l₁, hd, hl₁, header, l₂, hl₂, f, hf, hP⟩

theorem total_clientKnownLinks {target : Bytes} {Q : Unit → Host F → Link UInt8 → Prop}
    (hl : List HardLink) :
    TotalHost (clientKnownLinks st target hl) h l Q ↔ ∃ l', namesAnswered st hl l = some l' ∧
      Q () h l' := by
  induction hl generalizing l with
  | nil => simp [clientKnownLinks, namesAnswered, TotalHost]
  | cons link hl ih =>
      unfold clientKnownLinks namesAnswered
      by_cases hsame : link.inode = stIno st
      · rw [if_pos hsame, if_pos hsame]
        refine total_seq.trans (total_sendHardlink.trans ?_)
        simp only [total_sendMessage, posted_link, hardlinkSent_link, ih, Option.bind_eq_some_iff]
        constructor
        · rintro ⟨l₁, hlink, l₂, hrest, hQ⟩
          exact ⟨l₂, ⟨l₁, hlink, hrest⟩, hQ⟩
        · rintro ⟨l₂, ⟨l₁, hlink, hrest⟩, hQ⟩
          exact ⟨l₁, hlink, l₂, hrest, hQ⟩
      · rw [if_neg hsame, if_neg hsame]
        exact ih

theorem follows_clientEntry (st cpath : Bytes) (client : Client) :
    Follows (clientEntry md5 st cpath client) (entryPushed (F := F) md5 st cpath client) := by
  intro h l P
  unfold clientEntry entryPushed
  by_cases hlinked : (!sIsDir (stMode st) && stNlink st != 1) = true
  · have hentry : ∀ l, TotalHost (do
        syncFile md5 st cpath
        checkSize (client.hl.length < maxClientLinks)
        ret { client with hl := client.hl ++ [{ inode := stIno st, path := cpath.drop 2 }] }) h l
          (fun client h l => P client h.fs l) ↔
        ∃ f l', fileSynced md5 st cpath h.fs l = some (f, l') ∧ client.hl.length < maxClientLinks ∧
          P { client with hl := client.hl ++ [{ inode := stIno st, path := cpath.drop 2 }] } f l' := by
      intro l
      refine total_seq.trans ?_
      simp only [total_checkSize, total_ret]
      exact total_syncFile (P := fun f l => client.hl.length < maxClientLinks ∧
        P { client with hl := _ } f l)
    rw [if_pos hlinked, if_pos hlinked]
    refine total_seq.trans ((total_clientKnownLinks client.hl).trans ?_)
    simp only [hentry, Option.pure_def, Option.bind_eq_bind, Option.bind_eq_some_iff,
      Option.guard_eq_some', Option.some.injEq, Prod.mk.injEq, Prod.exists]
    constructor
    · rintro ⟨l', hnames, f, l'', hsent, hroom, hP⟩
      exact ⟨_, f, l'', ⟨l', hnames, f, l'', hsent, (), hroom, rfl, rfl, rfl⟩, hP⟩
    · rintro ⟨_, _, _, ⟨l', hnames, f, l'', hsent, _, hroom, rfl, rfl, rfl⟩, hP⟩
      exact ⟨l', hnames, f, l'', hsent, hroom, hP⟩
  · rw [if_neg hlinked, if_neg hlinked]
    refine total_seq.trans ?_
    simp only [TotalHost, total_ret]
    refine (total_syncFile (P := fun f l => P client f l)).trans ?_
    simp only [Option.pure_def, Option.bind_eq_bind, Option.bind_eq_some_iff, Option.some.injEq,
      Prod.mk.injEq, Prod.exists]
    constructor
    · rintro ⟨f, l', hsent, hP⟩
      exact ⟨client, f, l', ⟨f, l', hsent, rfl, rfl, rfl⟩, hP⟩
    · rintro ⟨_, _, _, ⟨f, l', hsent, rfl, rfl, rfl⟩, hP⟩
      exact ⟨f, l', hsent, hP⟩

theorem follows_watch {descend : Bytes → Client → Code Client}
    {needs : Bytes → Client → F → Link UInt8 → Option (Client × F × Link UInt8)}
    (hdescend : ∀ path client, Follows (descend path client) (needs path client)) (cpath : Bytes)
    (client : Client) :
    Follows (watchAndDescend descend cpath client) (fun f l => do
      let (client, f, l) ← dirWatched cpath client f l
      needs cpath client f l) := by
  intro h l P
  unfold watchAndDescend setEventPath dirWatched
  rw [total_call rfl]
  simp only [bind_assoc, ret_bind, total_checkSize, Option.bind_eq_bind, Option.bind_assoc,
    Option.bind_eq_some_iff, Option.guard_eq_some', exists_const, Option.pure_def, Option.bind_some,
    exists_and_left, and_assoc]
  exact and_congr_right fun _ => and_congr_right fun _ => and_congr_right fun _ => hdescend ..

theorem follows_clientVisit {descend : Bytes → Client → Code Client}
    {needs : Bytes → Client → F → Link UInt8 → Option (Client × F × Link UInt8)}
    (hdescend : ∀ path client, Follows (descend path client) (needs path client)) (dirName : Bytes)
    (entries : List Dirent) (client : Client) :
    Follows (clientVisit md5 descend dirName entries client)
      (visitPushed md5 needs dirName entries client) := by
  induction entries generalizing client with
  | nil => exact follows_ret client
  | cons entry entries ih =>
      intro h l P
      simp only [clientVisit, visitPushed]
      by_cases hdot : entry.name.val.head? = some dot
      · simp only [if_pos hdot]
        exact ih client h l P
      · simp only [if_neg hdot]
        rw [total_call rfl]
        cases Posix.lstat h.fs (clientPath dirName entry.name.val) with
        | none => exact follows_ret client h l P
        | some st =>
            have hdir : ∀ client, Follows
                (if entry.isDir then watchAndDescend descend (clientPath dirName entry.name.val) client
                  else ret client)
                (fun f l => if entry.isDir then do
                    let (client, f, l) ← dirWatched (clientPath dirName entry.name.val) client f l
                    needs (clientPath dirName entry.name.val) client f l
                  else some (client, f, l)) := by
              intro client
              split_ifs
              · exact follows_watch hdescend _ client
              · exact follows_ret client
            exact follows_bind (follows_clientEntry _ _ _)
              (fun client => follows_bind (hdir client) ih) h l P

theorem follows_clientTraverseFile (depth : Nat) (dirName : Bytes) (client : Client) :
    Follows (clientTraverseFile md5 depth dirName client)
      (treePushed (F := F) md5 depth dirName client) := by
  induction depth generalizing dirName client with
  | zero =>
      intro h l P
      refine iff_of_false not_total_halt ?_
      rintro ⟨_, _, _, ⟨⟩, -⟩
  | succ depth ih =>
      intro h l P
      unfold clientTraverseFile treePushed
      rw [total_call rfl]
      cases Posix.opendir h.fs dirName with
      | none => exact follows_ret client h l P
      | some entries =>
          exact follows_clientVisit (fun path client => ih path client) dirName entries client h l P

end Push

-- A call of the client's `traverse_file` or of the server's, with `cnt` at 0.
inductive Call where
  | push (depth : Nat) (dirName : Bytes) (client : Client)
  | pull (len connFd depth : Nat) (dirName : Bytes)

namespace Call

variable {F : Type} [Posix F]

-- What is in front of a path that goes to the other end.
def len : Call → Nat
  | push .. => 2
  | pull len .. => len

-- What the call meets.
def visits (f : F) : Call → List Visit
  | push depth dirName _ => clientVisits f depth dirName
  | pull _ _ depth dirName => Pull.visits f depth dirName

-- The call comes back, with these messages and with this `hl`.
def Returns (md5 : Bytes → Mem 16) (h : Host F) (l : Link UInt8) (ws : List (Word UInt8))
    (hl : List HardLink) : Call → Prop
  | push depth dirName client => ∃ client' h' l',
      Spoken host ⟨clientTraverseFile md5 depth dirName { client with hl := [] }, h, l⟩ ws
        ⟨ret client', h', l'⟩ ∧ client'.hl = hl
  | pull len connFd depth dirName => ∃ h' l',
      Spoken host ⟨serverTraverseFile md5 len connFd depth dirName [], h, l⟩ ws ⟨ret hl, h', l'⟩

-- Nothing on its way stops the call or lets it wait for ever.
def GetsThrough (md5 : Bytes → Mem 16) (f : F) (l : Link UInt8) : Call → Bool
  | push depth dirName client => (treePushed md5 depth dirName { client with hl := [] } f l).isSome
  | pull len connFd depth dirName => (treePulled md5 len connFd depth dirName [] f l).isSome

variable {md5 : Bytes → Mem 16} {h : Host F} {l : Link UInt8} {ws : List (Word UInt8)}
  {hl : List HardLink}

theorem returns_iff (c : Call) :
    (∃ ws hl, c.Returns md5 h l ws hl) ↔ c.GetsThrough md5 h.fs l = true := by
  cases c with
  | push depth dirName client =>
      have htotal : TotalHost (clientTraverseFile md5 depth dirName { client with hl := [] }) h l _ ↔ _ :=
        follows_clientTraverseFile depth dirName { client with hl := [] } h l fun _ _ _ => True
      simp only [and_true] at htotal
      simp only [GetsThrough, Option.isSome_iff_exists, Prod.exists, ← htotal, TotalHost, total_iff_exec]
      constructor
      · rintro ⟨ws, hl, client', h', l', hrun, -⟩
        obtain ⟨out, hexec⟩ := hrun.exec
        exact ⟨out, client', h', l', hexec, trivial⟩
      · rintro ⟨out, client', h', l', hexec, -⟩
        obtain ⟨ws, hrun⟩ := hexec.spoken
        exact ⟨ws, client'.hl, client', h', l', hrun, rfl⟩
  | pull len connFd depth dirName =>
      have htotal : TotalHost (serverTraverseFile md5 len connFd depth dirName []) h l _ ↔ _ :=
        follows_traverse depth dirName [] h l fun _ _ _ => True
      simp only [and_true] at htotal
      simp only [GetsThrough, Option.isSome_iff_exists, Prod.exists, ← htotal, TotalHost, total_iff_exec]
      constructor
      · rintro ⟨ws, hl, h', l', hrun⟩
        obtain ⟨out, hexec⟩ := hrun.exec
        exact ⟨out, hl, h', l', hexec, trivial⟩
      · rintro ⟨out, hl, h', l', hexec, -⟩
        obtain ⟨ws, hrun⟩ := hexec.spoken
        exact ⟨ws, hl, h', l', hrun⟩

end Call

end Csiebox.Traverse
