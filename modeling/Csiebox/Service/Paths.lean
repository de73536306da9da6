import Csiebox.Service.Lemmas

namespace Csiebox

open CBytes Program Prog

section Received

variable {F : Type}

-- Every path a call is given satisfies `P`.
def CallsAt (P : Bytes → Prop) : {δ : Type} → Sys δ → Host F → Prop
  | _, .lstat path, _ => P path
  | _, .readlink path _, _ => P path
  | _, .reads path, _ => P path
  | _, .fopenRead path, _ => P path
  | _, .fopenWrite path, _ => P path
  | _, .mkdir path _, _ => P path
  | _, .symlink _ path, _ => P path
  | _, .link old new, _ => P old ∧ P new
  | _, .remove path, _ => P path
  | _, .utime path _ _, _ => P path
  | _, .chdir path, _ => P path
  | _, .opendir path, _ => P path
  | _, .addWatch path, _ => P path
  | _, _, _ => True

-- What a receive of `len` bytes delivers; `none` while it blocks.
def received (l : Link UInt8) (len : Nat) : Option Bytes :=
  if len ≤ l.inbox.length ∨ l.closed = true then some (l.inbox.take len) else none

-- The path of length `len` at the start of `l`, read into an array of `size` bytes,
-- if it can be appended to the base directory.
def receivedPath (base : Bytes) (l : Link UInt8) (size len : Nat) : Option Bytes := do
  let got ← received l len
  guard (got.length ≤ size ∧ base.length + (cString got).length < pathMax)
  return cString got

-- Where the paths of a request begin: behind the header and the body.
def behindBody (l : Link UInt8) : Link UInt8 :=
  Link.skip l (sizeofHeader + headerDatalen (requestHead l))

-- The body of a request, if it fits its structure.
def bodyOf (size : Nat) (h : Host F) (l : Link UInt8) : Option Bytes := do
  guard (sizeofHeader + headerDatalen (requestHead l) ≤ size)
  messageOf size h l

def metaPaths (base : Bytes) (h : Host F) (l : Link UInt8) : Option (List Bytes) := do
  let «meta» ← bodyOf sizeofMeta h l
  guard (metaPathlen «meta» < 2 ^ 31 - 1)
  let path ← receivedPath base (behindBody l) (metaPathlen «meta» + 1) (metaPathlen «meta»)
  return [path]

def hardlinkPaths (base : Bytes) (h : Host F) (l : Link UInt8) : Option (List Bytes) := do
  let hardlink ← bodyOf sizeofHardlink h l
  let srclen := hardlinkSrclen hardlink
  let targetlen := hardlinkTargetlen hardlink
  let src ← receivedPath base (behindBody l) ((srclen + 1) % 2 ^ 32) srclen
  let target ← receivedPath base (Link.skip (behindBody l) srclen) ((targetlen + 1) % 2 ^ 32) targetlen
  let _ ← received (Link.skip (behindBody l) (srclen + targetlen)) sizeofStat
  return [src, target]

def rmPaths (base : Bytes) (h : Host F) (l : Link UInt8) : Option (List Bytes) := do
  let rm ← bodyOf sizeofRm h l
  let path ← receivedPath base (behindBody l) ((rmPathlen rm + 1) % 2 ^ 32) (rmPathlen rm)
  return [path]

-- The paths behind the directory `base` that a request hands to the file system.
def givenPaths (base : Bytes) (h : Host F) (l : Link UInt8) : List Bytes :=
  if Asks opSyncMeta l then (metaPaths base h l).getD []
  else if Asks opSyncHardlink l then (hardlinkPaths base h l).getD []
  else if Asks opRm l then (rmPaths base h l).getD []
  else []

theorem received_length {l : Link UInt8} {n : Nat} {got : Bytes} (h : received l n = some got) :
    got.length ≤ n := by
  simp only [received, Option.ite_none_right_eq_some, Option.some.injEq] at h
  rw [← h.2, List.length_take]
  omega

section Found

variable {base : Bytes} {h : Host F} {l : Link UInt8}

theorem bodyOf_eq_some {size : Nat} {m : Bytes} :
    bodyOf size h l = some m ↔
      sizeofHeader + headerDatalen (requestHead l) ≤ size ∧ messageOf size h l = some m := by
  simp [bodyOf, Option.bind_eq_some_iff, Option.guard_eq_some']

theorem receivedPath_eq_some {size len : Nat} {r : Bytes} :
    receivedPath base l size len = some r ↔
      ∃ got, received l len = some got ∧ got.length ≤ size ∧
        base.length + (cString got).length < pathMax ∧ cString got = r := by
  simp [receivedPath, Option.bind_eq_some_iff, Option.guard_eq_some', and_assoc]

theorem metaPaths_eq_some {paths : List Bytes} :
    metaPaths base h l = some paths ↔
      ∃ m r, bodyOf sizeofMeta h l = some m ∧ metaPathlen m < 2 ^ 31 - 1 ∧
        receivedPath base (behindBody l) (metaPathlen m + 1) (metaPathlen m) = some r ∧
        [r] = paths := by
  simp [metaPaths, Option.bind_eq_some_iff, Option.guard_eq_some']

theorem hardlinkPaths_eq_some {paths : List Bytes} :
    hardlinkPaths base h l = some paths ↔
      ∃ m src target st, bodyOf sizeofHardlink h l = some m ∧
        receivedPath base (behindBody l) ((hardlinkSrclen m + 1) % 2 ^ 32) (hardlinkSrclen m) =
          some src ∧
        receivedPath base (Link.skip (behindBody l) (hardlinkSrclen m))
          ((hardlinkTargetlen m + 1) % 2 ^ 32) (hardlinkTargetlen m) = some target ∧
        received (Link.skip (behindBody l) (hardlinkSrclen m + hardlinkTargetlen m)) sizeofStat =
          some st ∧ [src, target] = paths := by
  simp [hardlinkPaths, Option.bind_eq_some_iff]

theorem rmPaths_eq_some {paths : List Bytes} :
    rmPaths base h l = some paths ↔
      ∃ m r, bodyOf sizeofRm h l = some m ∧
        receivedPath base (behindBody l) ((rmPathlen m + 1) % 2 ^ 32) (rmPathlen m) = some r ∧
        [r] = paths := by
  simp [rmPaths, Option.bind_eq_some_iff]

end Found

end Received

section Handlers

variable {F : Type} [Posix F] {md5 : Bytes → Mem 16} {server : Server} {connFd : Nat} {info : ClientInfo}
  {h : Host F} {l : Link UInt8} {P : Bytes → Prop} {E : Fault → Host F → Prop}

-- The base directory of an entry.
def baseOf (server : Server) (info : ClientInfo) : Bytes :=
  homeOf server.path (clientUser info) ++ [slash]

-- `get_user_homedir` and the slash behind it.
theorem along_base {I : {δ : Type} → Sys δ → Host F → Prop} {Q : Bytes → Host F → Link UInt8 → Prop}
    (hentry : server.client connFd = some info) (hQ : Q (baseOf server info) h l)
    (hE : E .overrun h) :
    Along host I E (getUserHomedir server (server.client connFd) >>= fun filepath =>
      strcat filepath [slash]) h l Q := by
  simp only [hentry, getUserHomedir, userString, bind_assoc, ret_bind]
  apply along_bind
  refine along_checkSize (fun _ => ?_) fun _ => hE
  unfold strcat
  apply along_bind
  refine along_checkSize (fun _ => along_ret ?_) fun _ => hE
  exact hQ

theorem along_recvMessage {I : {δ : Type} → Sys δ → Host F → Prop} {message : Bytes} {len : Nat}
    (hE : E .overrun h) :
    Along host I E (recvMessage message len) h l fun _ h' _ => h' = h := by
  unfold recvMessage
  split_ifs
  · exact along_ret rfl
  · apply along_bind
    apply along_hear
    · intro _
      apply along_bind
      exact along_checkSize (fun _ => along_ret rfl) fun _ => hE
    · intro _ _
      apply along_bind
      exact along_checkSize (fun _ => along_ret rfl) fun _ => hE

theorem along_into {I : {δ : Type} → Sys δ → Host F → Prop} {message : Bytes} {len : Nat}
    (hE : E .overrun h) :
    Along host I E (recvMessage message len) h l fun r h' l' =>
      h' = h ∧ l' = Link.skip l len ∧
        ∃ got, received l len = some got ∧ got.length ≤ message.length ∧ r.2 = overlay message got := by
  unfold recvMessage
  split_ifs with hzero
  · subst hzero
    exact along_ret ⟨rfl, rfl, [], by simp [received], by simp, (overlay_nil _).symm⟩
  · apply along_bind
    apply along_hear
    · intro hlen
      apply along_bind
      exact along_checkSize (fun hfits => along_ret ⟨rfl, rfl, _, if_pos (.inl hlen), hfits, rfl⟩)
        fun _ => hE
    · intro hlen hclosed
      have hall : l.inbox.take len = l.inbox := List.take_of_length_le hlen.le
      have hnone : l.inbox.drop len = [] := List.drop_eq_nil_of_le hlen.le
      apply along_bind
      refine along_checkSize (fun hfits => along_ret ⟨rfl, ?_, _, if_pos (.inr hclosed), ?_, ?_⟩)
        fun _ => hE
      · rw [Link.skip, hnone, hclosed]
      · rwa [hall]
      · rw [hall]

theorem along_received {I : {δ : Type} → Sys δ → Host F → Prop} {size len : Nat}
    (hE : E .overrun h) :
    Along host I E (recvMessage (zeros size) len) h l fun r h' l' =>
      h' = h ∧ l' = Link.skip l len ∧
        ∃ got, received l len = some got ∧ got.length ≤ size ∧ cString r.2 = cString got := by
  refine (along_into hE).mono ?_
  rintro ⟨ok, message⟩ h' l' ⟨rfl, rfl, got, hgot, hfits, rfl⟩
  rw [zeros_length] at hfits
  exact ⟨rfl, rfl, got, hgot, hfits, cString_overlay _ _⟩

-- Calls behind `fopen` only go to the open file.
theorem along_receiveFile {filepath header : Bytes} (hP : P filepath)
    {E : Fault → Host F → Prop} (hE : ∀ e h, E e h) :
    Along host (CallsAt P) E (receiveFile filepath header) h l fun _ _ _ => True := by
  unfold receiveFile
  apply along_bind
  refine along_uninit trivial fun buf _ => ?_
  apply along_bind
  refine along_sys hP fun fp h₁ _ => ?_
  cases fp with
  | none => exact along_halt (hE _ _)
  | some fp =>
      apply along_bind
      have hpoll : Along host (CallsAt P) E (pollLock fp header) h₁ l fun _ _ _ => True := by
        refine along_iter (fun _ _ _ => True) trivial fun fl h₂ l₂ _ => ?_
        apply along_bind
        refine along_sys trivial fun fl' h₃ _ => ?_
        apply along_bind
        refine along_sendMessage fun _ => along_ret ?_
        split_ifs <;> trivial
      refine hpoll.mono fun fl h₂ l₂ _ => ?_
      apply along_bind
      refine along_sys trivial fun _ h₃ _ => ?_
      apply along_bind
      have hchunks : Along host (CallsAt P) E (receiveChunks N fp (zeros sizeofFile) buf.val) h₃ l₂
          fun _ _ _ => True := by
        refine along_iter (fun _ _ _ => True) trivial fun c h₄ l₄ _ => ?_
        unfold receiveChunk
        apply along_bind
        refine (along_recvMessage (hE _ _)).mono fun r₁ h₅ l₅ _ => ?_
        apply along_bind
        refine (along_recvMessage (hE _ _)).mono fun r₂ h₆ l₆ _ => ?_
        apply along_bind
        refine along_checkSize (fun _ => ?_) fun _ => hE _ _
        apply along_bind
        refine along_sys trivial fun _ h₇ _ => along_ret ?_
        split_ifs <;> trivial
      refine hchunks.mono fun _ h₄ l₄ _ => ?_
      apply along_bind
      refine along_sys trivial fun _ h₅ _ => ?_
      exact along_sys trivial fun _ _ _ => trivial

theorem along_receiveLink {filepath header : Bytes} (hP : P filepath)
    {E : Fault → Host F → Prop} (hE : ∀ e h, E e h) :
    Along host (CallsAt P) E (receiveLink filepath header) h l fun _ _ _ => True := by
  unfold receiveLink
  apply along_bind
  refine along_uninit trivial fun buf _ => ?_
  apply along_bind
  refine along_sendMessage fun _ => ?_
  apply along_bind
  refine (along_recvMessage (hE _ _)).mono fun r₁ h₁ l₁ _ => ?_
  apply along_bind
  refine (along_recvMessage (hE _ _)).mono fun r₂ h₂ l₂ _ => ?_
  apply along_bind
  exact along_sys hP fun _ h₃ _ => along_ret trivial

theorem along_metaStatus {filepath st hash : Bytes} (hP : P filepath)
    {E : Fault → Host F → Prop} (hE : ∀ e h, E e h) :
    Along host (CallsAt P) E (metaStatus md5 filepath st hash) h l fun _ _ _ => True := by
  unfold metaStatus
  split_ifs
  · apply along_bind
    exact along_sys hP fun _ h₁ _ => along_ret trivial
  · apply along_bind
    exact along_sys hP fun _ h₁ _ => along_ret trivial
  · apply along_bind
    unfold md5File
    apply along_bind
    refine along_sys hP fun rs h₁ _ => ?_
    cases rs with
    | none => exact along_ret (along_ret trivial)
    | some rs =>
        dsimp only
        split
        · exact along_halt (hE _ _)
        · exact along_ret (along_ret trivial)
  · exact along_ret trivial

theorem along_answerMeta {filepath st hash : Bytes} (hP : P filepath)
    {E : Fault → Host F → Prop} (hE : ∀ e h, E e h) :
    Along host (CallsAt P) E (answerMeta md5 filepath st hash) h l fun _ _ _ => True := by
  unfold answerMeta
  apply along_bind
  refine (along_metaStatus hP hE).mono fun status h₁ l₁ _ => ?_
  dsimp only
  split_ifs
  · exact along_receiveLink hP hE
  · exact along_receiveFile hP hE
  · exact along_ret trivial
  · apply along_bind
    exact along_sendMessage fun _ => along_ret trivial

-- What the requests do behind the path they are given.
def afterMeta (md5 : Bytes → Mem 16) (filepath «meta» : Bytes) : Code Unit := do
  answerMeta md5 filepath (metaStat «meta») (metaHash «meta»)
  let _ ← sys (.utime filepath (stAtime (metaStat «meta»)) (stMtime (metaStat «meta»)))
  ret ()

def afterHardlink (source target st : Bytes) : Code Unit := do
  let _ ← sys (.link source target)
  let _ ← sys (.utime target (stAtime st) (stMtime st))
  ret ()

def afterRm (filepath : Bytes) : Code Unit := do
  let _ ← sys (.remove filepath)
  ret ()

theorem along_afterMeta {filepath m : Bytes} (hat : P filepath) {E : Fault → Host F → Prop}
    (hE : ∀ e h, E e h) :
    Along host (CallsAt P) E (afterMeta md5 filepath m) h l fun _ _ _ => True := by
  unfold afterMeta
  apply along_bind
  refine (along_answerMeta hat hE).mono fun _ h₃ l₃ _ => ?_
  apply along_bind
  exact along_sys hat fun _ h₄ _ => along_ret trivial

theorem along_afterHardlink {source target st : Bytes} (hsource : P source) (hto : P target)
    {E : Fault → Host F → Prop} :
    Along host (CallsAt P) E (afterHardlink source target st) h l fun _ _ _ => True := by
  unfold afterHardlink
  apply along_bind
  refine along_sys ⟨hsource, hto⟩ fun _ h₅ _ => ?_
  apply along_bind
  exact along_sys hto fun _ h₆ _ => along_ret trivial

variable {I : {δ : Type} → Sys δ → Host F → Prop}

-- The three requests that change the home directory: what is asked of their calls is
-- asked behind the paths.
theorem along_syncMeta (hlocal : ∀ n h, I (.uninit n) h) (hentry : server.client connFd = some info)
    {E : Fault → Host F → Prop} (hE : ∀ e h, E e h)
    (hafter : ∀ m r, bodyOf sizeofMeta h l = some m → metaPaths (baseOf server info) h l = some [r] →
      Along host I E (afterMeta md5 (baseOf server info ++ r) m) h.tick
        (Link.skip (behindBody l) (metaPathlen m)) fun _ _ _ => True) :
    Along host I E (syncMeta md5 server connFd (requestHead l)) h (Link.skip l sizeofHeader)
      fun _ _ _ => True := by
  unfold syncMeta
  apply along_bind
  refine along_sendMessage fun _ => ?_
  rw [← bind_assoc]
  apply along_bind
  apply along_base hentry ?_ (hE _ _)
  apply along_bind
  refine along_uninit (hlocal _ _) fun «meta» hmeta => ?_
  apply along_bind
  refine (along_complete hmeta fun _ => hE _ _).mono ?_
  rintro ⟨ok, message⟩ h₁ l₁ ⟨rfl, hmessage, hfits⟩
  cases ok with
  | false => exact along_ret trivial
  | true =>
      obtain ⟨hsize, rfl⟩ := hfits rfl
      simp only [if_true] at hmessage ⊢
      apply along_bind
      refine along_checkSize (fun hlen => ?_) fun _ => hE _ _
      apply along_bind
      refine (along_received (hE _ _)).mono ?_
      rintro ⟨ok', recPath⟩ h₂ l₂ ⟨rfl, rfl, got, hgot, hgotlen, hstring⟩
      unfold strcat
      simp only [bind_assoc]
      apply along_bind
      refine along_checkSize (fun hpath => ?_) fun _ => hE _ _
      rw [ret_bind, hstring]
      rw [hstring] at hpath
      have hpaths : metaPaths (baseOf server info) h l = some [cString got] :=
        metaPaths_eq_some.mpr ⟨message, _, bodyOf_eq_some.mpr ⟨hsize, hmessage⟩, hlen,
          receivedPath_eq_some.mpr ⟨got, hgot, hgotlen, hpath, rfl⟩, rfl⟩
      exact hafter message _ (bodyOf_eq_some.mpr ⟨hsize, hmessage⟩) hpaths

theorem along_syncHardlink (hlocal : ∀ n h, I (.uninit n) h) (hentry : server.client connFd = some info)
    {E : Fault → Host F → Prop} (hE : ∀ e h, E e h)
    (hafter : ∀ src target st l', hardlinkPaths (baseOf server info) h l = some [src, target] →
      Along host I E (afterHardlink (baseOf server info ++ src) (baseOf server info ++ target) st) h.tick l'
        fun _ _ _ => True) :
    Along host I E (syncHardlink server connFd (requestHead l)) h
      (Link.skip l sizeofHeader) fun _ _ _ => True := by
  unfold syncHardlink
  apply along_bind
  refine along_sendMessage fun _ => ?_
  rw [← bind_assoc]
  apply along_bind
  apply along_base hentry ?_ (hE _ _)
  apply along_bind
  refine along_uninit (hlocal _ _) fun hardlink hhardlink => ?_
  apply along_bind
  refine (along_complete hhardlink fun _ => hE _ _).mono ?_
  rintro ⟨ok, message⟩ h₁ l₁ ⟨rfl, hmessage, hfits⟩
  cases ok with
  | false => exact along_ret trivial
  | true =>
      obtain ⟨hsize, rfl⟩ := hfits rfl
      simp only [if_true] at hmessage ⊢
      apply along_bind
      refine (along_received (hE _ _)).mono ?_
      rintro ⟨ok₁, srcPath⟩ h₂ l₂ ⟨rfl, rfl, src, hsrc, hsrclen, hsrcstring⟩
      apply along_bind
      refine (along_received (hE _ _)).mono ?_
      rintro ⟨ok₂, targetPath⟩ h₃ l₃ ⟨rfl, rfl, target, htarget, htargetlen, htargetstring⟩
      apply along_bind
      refine (along_received (hE _ _)).mono ?_
      rintro ⟨ok₃, st⟩ h₄ l₄ ⟨rfl, rfl, stat, hstat, -, -⟩
      unfold strcat
      simp only [bind_assoc, ret_bind]
      apply along_bind
      refine along_checkSize (fun hsrcfits => ?_) fun _ => hE _ _
      apply along_bind
      refine along_checkSize (fun htargetfits => ?_) fun _ => hE _ _
      rw [hsrcstring] at hsrcfits
      rw [htargetstring] at htargetfits
      rw [hsrcstring, htargetstring]
      have hpaths : hardlinkPaths (baseOf server info) h l = some [cString src, cString target] := by
        refine hardlinkPaths_eq_some.mpr ⟨message, _, _, stat, bodyOf_eq_some.mpr ⟨hsize, hmessage⟩,
          receivedPath_eq_some.mpr ⟨src, hsrc, hsrclen, hsrcfits, rfl⟩,
          receivedPath_eq_some.mpr ⟨target, htarget, htargetlen, htargetfits, rfl⟩, ?_, rfl⟩
        rw [← hstat]
        simp only [Link.skip, behindBody, List.drop_drop]
        congr 3
        omega
      exact hafter _ _ st _ hpaths

theorem along_rm (hlocal : ∀ n h, I (.uninit n) h) (hentry : server.client connFd = some info)
    {E : Fault → Host F → Prop} (hE : ∀ e h, E e h)
    (hafter : ∀ r l', rmPaths (baseOf server info) h l = some [r] →
      Along host I E (afterRm (baseOf server info ++ r)) h.tick l' fun _ _ _ => True) :
    Along host I E (rm server connFd (requestHead l)) h (Link.skip l sizeofHeader)
      fun _ _ _ => True := by
  unfold rm
  apply along_bind
  refine along_sendMessage fun _ => ?_
  rw [← bind_assoc]
  apply along_bind
  apply along_base hentry ?_ (hE _ _)
  apply along_bind
  refine along_uninit (hlocal _ _) fun rm hrm => ?_
  apply along_bind
  refine (along_complete hrm fun _ => hE _ _).mono ?_
  rintro ⟨ok, message⟩ h₁ l₁ ⟨rfl, hmessage, hfits⟩
  cases ok with
  | false => exact along_ret trivial
  | true =>
      obtain ⟨hsize, rfl⟩ := hfits rfl
      simp only [if_true] at hmessage ⊢
      apply along_bind
      refine (along_received (hE _ _)).mono ?_
      rintro ⟨ok', buf⟩ h₂ l₂ ⟨rfl, rfl, got, hgot, hgotlen, hstring⟩
      unfold strcat
      simp only [bind_assoc, ret_bind]
      apply along_bind
      refine along_checkSize (fun hpath => ?_) fun _ => hE _ _
      rw [hstring] at hpath ⊢
      have hpaths : rmPaths (baseOf server info) h l = some [cString got] :=
        rmPaths_eq_some.mpr ⟨message, _, bodyOf_eq_some.mpr ⟨hsize, hmessage⟩,
          receivedPath_eq_some.mpr ⟨got, hgot, hgotlen, hpath, rfl⟩, rfl⟩
      exact hafter _ _ hpaths

-- A request that changes the home directory.
def Changes (l : Link UInt8) : Prop :=
  Asks opSyncMeta l ∨ Asks opSyncHardlink l ∨ Asks opRm l

instance (l : Link UInt8) : Decidable (Changes l) := inferInstanceAs (Decidable (_ ∨ _ ∨ _))

-- What is asked of the calls of a request is asked behind its paths.
theorem along_request (hlocal : ∀ n h, I (.uninit n) h) (hentry : server.client connFd = some info)
    (hchanges : Changes l) {E : Fault → Host F → Prop} (hE : ∀ e h, E e h)
    (hmeta : Asks opSyncMeta l → ∀ m r, bodyOf sizeofMeta h l = some m →
      metaPaths (baseOf server info) h l = some [r] →
        Along host I E (afterMeta md5 (baseOf server info ++ r) m) h.tick
          (Link.skip (behindBody l) (metaPathlen m)) fun _ _ _ => True)
    (hhardlink : Asks opSyncHardlink l → ∀ src target st l',
      hardlinkPaths (baseOf server info) h l = some [src, target] →
        Along host I E (afterHardlink (baseOf server info ++ src)
          (baseOf server info ++ target) st) h.tick l'
          fun _ _ _ => True)
    (hrm : Asks opRm l → ∀ r l', rmPaths (baseOf server info) h l = some [r] →
      Along host I E (afterRm (baseOf server info ++ r)) h.tick l' fun _ _ _ => True) :
    Along host I E (handleRequest md5 server connFd) h l fun server' _ _ => server' = server := by
  have hlen : sizeofHeader ≤ l.inbox.length := by
    rcases hchanges with hasks | hasks | hasks <;> exact hasks.1
  have hmagic : headerMagic (requestHead l) = magicReq := by
    rcases hchanges with hasks | hasks | hasks <;> exact hasks.2.1
  unfold handleRequest
  apply along_bind
  apply along_recvHeader (hE _ _)
  · intro _
    simp only [if_true, hmagic, ne_eq, not_true, if_false]
    unfold dispatch
    rcases hchanges with hasks | hasks | hasks
    · have hop := hasks.2.2
      rw [if_neg (by rw [hop]; decide), if_pos hop]
      apply along_bind
      exact (along_syncMeta hlocal hentry hE (hmeta hasks)).mono fun _ _ _ _ => along_ret rfl
    · have hop := hasks.2.2
      rw [if_neg (by rw [hop]; decide), if_neg (by rw [hop]; decide), if_pos hop]
      apply along_bind
      exact (along_syncHardlink hlocal hentry hE (hhardlink hasks)).mono fun _ _ _ _ => along_ret rfl
    · have hop := hasks.2.2
      rw [if_neg (by rw [hop]; decide), if_neg (by rw [hop]; decide), if_neg (by rw [hop]; decide),
        if_pos hop]
      apply along_bind
      exact (along_rm hlocal hentry hE (hrm hasks)).mono fun _ _ _ _ => along_ret rfl
  · intro head hshort _
    omega

section Given

omit [Posix F]

variable {base : Bytes} {paths : List Bytes}

theorem givenPaths_meta (hasks : Asks opSyncMeta l) (hpaths : metaPaths base h l = some paths) :
    givenPaths base h l = paths := by
  rw [givenPaths, if_pos hasks, hpaths]
  rfl

theorem givenPaths_hardlink (hasks : Asks opSyncHardlink l) (hpaths : hardlinkPaths base h l = some paths) :
    givenPaths base h l = paths := by
  have hop := hasks.2.2
  rw [givenPaths, if_neg (fun hm => absurd (hm.2.2.symm.trans hop) (by decide)), if_pos hasks, hpaths]
  rfl

theorem givenPaths_rm (hasks : Asks opRm l) (hpaths : rmPaths base h l = some paths) :
    givenPaths base h l = paths := by
  have hop := hasks.2.2
  rw [givenPaths, if_neg (fun hm => absurd (hm.2.2.symm.trans hop) (by decide)),
    if_neg (fun hm => absurd (hm.2.2.symm.trans hop) (by decide)), if_pos hasks, hpaths]
  rfl

-- A path comes from one of the three requests.
theorem given_cases {r : Bytes} (hr : r ∈ givenPaths base h l) :
    (Asks opSyncMeta l ∧ ∃ m, bodyOf sizeofMeta h l = some m ∧ metaPaths base h l = some [r]) ∨
      (Asks opSyncHardlink l ∧ ∃ src target, hardlinkPaths base h l = some [src, target] ∧
        (r = src ∨ r = target)) ∨
      (Asks opRm l ∧ rmPaths base h l = some [r]) := by
  rw [givenPaths] at hr
  split_ifs at hr with hmeta hhardlink hrm
  · cases hpaths : metaPaths base h l with
    | none => simp [hpaths] at hr
    | some paths =>
        obtain ⟨m, r', hbody, -, -, rfl⟩ := metaPaths_eq_some.mp hpaths
        rw [hpaths] at hr
        obtain rfl := List.mem_singleton.mp hr
        exact .inl ⟨hmeta, m, hbody, rfl⟩
  · cases hpaths : hardlinkPaths base h l with
    | none => simp [hpaths] at hr
    | some paths =>
        obtain ⟨-, src, target, -, -, -, -, -, rfl⟩ := hardlinkPaths_eq_some.mp hpaths
        rw [hpaths] at hr
        exact .inr (.inl ⟨hhardlink, src, target, rfl, by simpa using hr⟩)
  · cases hpaths : rmPaths base h l with
    | none => simp [hpaths] at hr
    | some paths =>
        obtain ⟨-, r', -, -, rfl⟩ := rmPaths_eq_some.mp hpaths
        rw [hpaths] at hr
        obtain rfl := List.mem_singleton.mp hr
        exact .inr (.inr ⟨hrm, rfl⟩)
  · simp at hr

end Given

theorem along_changes (hentry : server.client connFd = some info) (hchanges : Changes l)
    (hP : ∀ r ∈ givenPaths (baseOf server info) h l, P (baseOf server info ++ r))
    {E : Fault → Host F → Prop} (hE : ∀ e h, E e h) :
    Along host (CallsAt P) E (handleRequest md5 server connFd) h l fun server' _ _ =>
      server' = server := by
  apply along_request (fun _ _ => trivial) hentry hchanges hE
  · intro hasks m r _ hpaths
    rw [givenPaths_meta hasks hpaths] at hP
    exact along_afterMeta (hP r (by simp)) hE
  · intro hasks src target st l' hpaths
    rw [givenPaths_hardlink hasks hpaths] at hP
    exact along_afterHardlink (hP src (by simp)) (hP target (by simp))
  · intro hasks r l' hpaths
    rw [givenPaths_rm hasks hpaths] at hP
    unfold afterRm
    apply along_bind
    exact along_sys (hP r (by simp)) fun _ h₃ _ => along_ret trivial

end Handlers

end Csiebox
