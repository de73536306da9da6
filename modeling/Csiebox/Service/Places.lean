import Csiebox.Service.Paths
import Csiebox.Lib.Lexical
import Csiebox.TreeFs.Tree

namespace Csiebox

open CBytes Program Prog TreeFs Lexical

section Lexical

def pathMove (c : Bytes) : Move Bytes :=
  if c = [] ∨ c = [dot] then .stay else if c = [dot, dot] then .up else .down c

def rooted (p : Bytes) : Bool := p.head? == some slash

-- Where a path leads, with ".", ".." and repeated "/" resolved lexically.
def placeOf (p : Bytes) : Place Bytes :=
  Place.walk (rooted p) .start ((components p).map pathMove)

-- The same for a path that is read from some directory on.
def placeBehind (r : Bytes) : Place Bytes := Place.walk false .start ((components r).map pathMove)

def Inside (home p : Bytes) : Prop := rooted p = rooted home ∧ (placeOf home).Below (placeOf p)

-- The path leads up at most to come back through the home directory's own names.
def StaysHome (home r : Bytes) : Prop := (placeOf home).Returns (rooted home) (placeBehind r)

instance (home r : Bytes) : Decidable (StaysHome home r) := inferInstanceAs (Decidable (_ ∧ _))

theorem rooted_append {p r : Bytes} (h : p ≠ []) : rooted (p ++ r) = rooted p := by
  cases p with
  | nil => exact absurd rfl h
  | cons b bs => rfl

theorem placeOf_append {home : Bytes} (r : Bytes) (h : home ≠ []) :
    placeOf (home ++ slash :: r) = (placeOf home).join (rooted home) (placeBehind r) := by
  have hjoin := Place.walk_join (rooted home) (placeOf home) .start ((components r).map pathMove)
  rw [Place.join_start] at hjoin
  rw [placeBehind, ← hjoin, placeOf, placeOf, rooted_append h, components_append, List.map_append,
    Place.walk, List.foldl_append]
  rfl

theorem inside_iff {home : Bytes} (r : Bytes) (h : home ≠ []) :
    Inside home (home ++ slash :: r) ↔ StaysHome home r := by
  rw [Inside, rooted_append h, placeOf_append r h, Place.below_join_iff, StaysHome]
  simp

end Lexical

section Places

variable {F : Type} [Posix F]

-- A component of a C string that is not a name stays or goes up.
def nameMove (c : Bytes) : Move Name :=
  if c = [dot, dot] then .up else if h : ValidName c then .down ⟨c, h⟩ else .stay

-- The symbolic link at a place, if there is one.
def textAt (fs : F) (place : Path) : Option (LinkText Name) :=
  (Posix.readlink fs (joined [] place) pathMax).map fun text =>
    ⟨rooted text, (components text).map nameMove⟩

-- Where the system comes to with a path, from the directory `cwd` or the root on, and with
-- at most 40 links on the way; `follow` is false for the calls that do not follow a link
-- which the path itself names.
def leadsTo (cwd : Path) (fs : F) (follow : Bool) (path : Bytes) : Option Path :=
  arrive (textAt fs) follow 41 (if rooted path then [] else cwd) ((components path).map nameMove)

def Avoids (A : Path → Prop) (cwd : Path) (fs : F) (follow : Bool) (path : Bytes) : Prop :=
  ∀ place ∈ leadsTo cwd fs follow path, ¬A place

-- No path of a call leads to one of the places `A`.
def CallAvoids (A : Path → Prop) (cwd : Path) : {δ : Type} → Sys δ → Host F → Prop
  | _, .lstat path, h => Avoids A cwd h.fs false path
  | _, .readlink path _, h => Avoids A cwd h.fs false path
  | _, .reads path, h => Avoids A cwd h.fs true path
  | _, .fopenRead path, h => Avoids A cwd h.fs true path
  | _, .fopenWrite path, h => Avoids A cwd h.fs true path
  | _, .mkdir path _, h => Avoids A cwd h.fs false path
  | _, .symlink _ path, h => Avoids A cwd h.fs false path
  | _, .link old new, h => Avoids A cwd h.fs false old ∧ Avoids A cwd h.fs false new
  | _, .remove path, h => Avoids A cwd h.fs false path
  | _, .utime path _ _, h => Avoids A cwd h.fs true path
  | _, .chdir path, h => Avoids A cwd h.fs true path
  | _, .opendir path, h => Avoids A cwd h.fs true path
  | _, .addWatch path, h => Avoids A cwd h.fs true path
  | _, _, _ => True

-- The places of one file have its device and inode number in common.
def SameFile (fs : F) (place place' : Path) : Prop :=
  ∃ st st', Posix.lstat fs (joined [] place) = some st ∧ Posix.lstat fs (joined [] place') = some st' ∧
    st.val.take 16 = st'.val.take 16

-- A place in the home directory of another one of the users, or of a file that has a name there.
def OthersPlace (cwd : Path) (users : List Bytes) (server : Server) (info : ClientInfo) (fs : F)
    (place : Path) : Prop :=
  ∃ user ∈ users, user ≠ clientUser info ∧ ∃ home ∈ leadsTo cwd fs true (homeOf server.path user),
    ∃ place', home <+: place' ∧ (place = place' ∨ SameFile fs place place')

-- No symbolic link is made, removed or changed.
def SameLinks (fs fs' : F) : Prop := ∀ place : Path, textAt fs' place = textAt fs place

-- What these calls do to symbolic links: nothing. `Sound` holds of the states of the
-- system, `Opened` of one in which `fp` is a file that is open for writing.
structure LinkLaws (F : Type) [Posix F] where
  Sound : F → Prop
  Opened : F → Nat → Prop
  mkdir : ∀ fs path mode, Sound fs → SameLinks fs (Posix.mkdir fs path mode).2
  fopenWrite : ∀ fs path fp fs', Sound fs → Posix.fopenWrite fs path = some (fp, fs') →
    Opened fs' fp ∧ SameLinks fs fs'
  setlk : ∀ fs fp fl, Opened fs fp → Opened (Posix.setlk fs fp fl).2 fp ∧
    SameLinks fs (Posix.setlk fs fp fl).2
  fwrite : ∀ fs fp bs, Opened fs fp → Opened (Posix.fwrite fs fp bs) fp ∧
    SameLinks fs (Posix.fwrite fs fp bs)
  fclose : ∀ fs fp, Opened fs fp → SameLinks fs (Posix.fclose fs fp)

variable {A : Path → Prop} {cwd : Path} {fs fs' : F} {follow : Bool} {path : Bytes}

theorem SameLinks.trans {fs'' : F} (h : SameLinks fs fs') (h' : SameLinks fs' fs'') : SameLinks fs fs'' :=
  fun place => (h' place).trans (h place)

theorem SameLinks.avoids_iff (h : SameLinks fs fs') :
    Avoids A cwd fs' follow path ↔ Avoids A cwd fs follow path := by
  have hlinks : textAt fs' = textAt fs := funext h
  rw [Avoids, Avoids, leadsTo, leadsTo, hlinks]

end Places

section Requests

variable {F : Type} [Posix F] (A : Path → Prop) (cwd : Path) (md5 : Bytes → Mem 16)

-- The text of the link that follows a SYNC_META request, if it comes and fits.
def linkSent (h : Host F) (l : Link UInt8) : Option Bytes := do
  let got ← received l sizeofFile
  let req := overlay (zeros sizeofFile) got
  let text ← received (Link.skip l sizeofFile) (fileDatalen req)
  guard (text.length ≤ N)
  return cString (overlay (h.fresh N) text)

-- What the server compares with the digest of a link.
def linkDigest : Option Bytes → Bytes
  | none => zeros 16
  | some target => (md5 target).val

-- The path does not lead to `A` before a SYNC_META request, and not where it makes a link
-- through that link either, which `utime` follows.
def MetaAvoids (filepath «meta» : Bytes) (h : Host F) (l : Link UInt8) : Prop :=
  if sIsDir (stMode (metaStat «meta»)) then
    Avoids A cwd h.fs false filepath ∧ Avoids A cwd h.fs true filepath
  else if sIsLnk (stMode (metaStat «meta»)) then
    Avoids A cwd h.fs false filepath ∧
      if metaHash «meta» = linkDigest md5
        (Posix.readlink h.fs filepath pathMax) then Avoids A cwd h.fs true filepath
      else ∀ text ∈ linkSent h l, Avoids A cwd (Posix.symlink h.fs text filepath).2 true filepath
  else Avoids A cwd h.fs true filepath

def HardlinkAvoids (source target : Bytes) (fs : F) : Prop :=
  Avoids A cwd fs false source ∧ Avoids A cwd fs false target ∧
    Avoids A cwd (Posix.link fs source target).2 true target

-- No path of the request leads to `A`.
structure RequestAvoids (base : Bytes) (h : Host F) (l : Link UInt8) : Prop where
  syncMeta : Asks opSyncMeta l → ∀ m r, bodyOf sizeofMeta h l = some m → metaPaths base h l = some [r] →
    MetaAvoids A cwd md5 (base ++ r) m h.tick (Link.skip (behindBody l) (metaPathlen m))
  syncHardlink : Asks opSyncHardlink l → ∀ src target, hardlinkPaths base h l = some [src, target] →
    HardlinkAvoids A cwd (base ++ src) (base ++ target) h.fs
  rm : Asks opRm l → ∀ r, rmPaths base h l = some [r] → Avoids A cwd h.fs false (base ++ r)

end Requests

section Avoiding

variable {F : Type} [Posix F] {A : Path → Prop} {cwd : Path} {md5 : Bytes → Mem 16} {server : Server}
  {connFd : Nat} {info : ClientInfo} {h : Host F} {l : Link UInt8} {filepath : Bytes}

theorem avoids_utime {atime mtime : Int} {E : Fault → Host F → Prop}
    (hat : Avoids A cwd h.fs true filepath) :
    Along host (CallAvoids A cwd) E (do
      let _ ← sys (.utime filepath atime mtime)
      ret () : Code Unit) h l fun _ _ _ => True := by
  apply along_bind
  exact along_sys hat fun _ _ _ => along_ret trivial

-- The file is open, and the symbolic links are those of `fs`.
structure StillOpen (laws : LinkLaws F) (fs : F) (fp : Nat) (h : Host F) : Prop where
  opened : laws.Opened h.fs fp
  links : SameLinks fs h.fs

variable {laws : LinkLaws F} {fs : F} {fp : Nat}

theorem StillOpen.setlk (hopen : StillOpen laws fs fp h) {fl : Flock} {r : Bool} {h' : Host F}
    (hexec : host.exec (.setlk fp fl) h = some (r, h')) : StillOpen laws fs fp h' := by
  obtain ⟨-, rfl⟩ := Prod.ext_iff.mp (Option.some.inj hexec)
  obtain ⟨hopened, hlinks⟩ := laws.setlk _ _ fl hopen.opened
  exact ⟨hopened, hopen.links.trans hlinks⟩

theorem StillOpen.fwrite (hopen : StillOpen laws fs fp h) {bs : Bytes} {r : Unit} {h' : Host F}
    (hexec : host.exec (.fwrite fp bs) h = some (r, h')) : StillOpen laws fs fp h' := by
  obtain ⟨-, rfl⟩ := Prod.ext_iff.mp (Option.some.inj hexec)
  obtain ⟨hopened, hlinks⟩ := laws.fwrite _ _ bs hopen.opened
  exact ⟨hopened, hopen.links.trans hlinks⟩

theorem stillOpen_fopenWrite (hsound : laws.Sound h.fs) {h' : Host F}
    (hexec : host.exec (.fopenWrite filepath) h = some (some fp, h')) : StillOpen laws h.fs fp h' := by
  simp only [host, Host.exec] at hexec
  cases hfile : Posix.fopenWrite h.fs filepath with
  | none => simp [hfile] at hexec
  | some file =>
      obtain ⟨fp', fs'⟩ := file
      simp only [hfile, Option.some.injEq, Prod.mk.injEq] at hexec
      obtain ⟨rfl, rfl⟩ := hexec
      obtain ⟨hopened, hlinks⟩ := laws.fopenWrite _ _ _ _ hsound hfile
      exact ⟨hopened, hlinks⟩

-- The symbolic links stay as they are while a file is received.
theorem avoids_receiveFile (hsound : laws.Sound h.fs) {header : Bytes}
    (hat : Avoids A cwd h.fs true filepath) :
    Along host (CallAvoids A cwd) anyHalt (receiveFile filepath header) h l fun _ h' _ =>
      SameLinks h.fs h'.fs := by
  unfold receiveFile
  apply along_bind
  refine along_uninit trivial fun buf _ => ?_
  apply along_bind
  refine along_sys hat fun fp h₁ hexec => ?_
  cases fp with
  | none => exact along_halt trivial
  | some fp =>
      have hopen : StillOpen laws h.fs fp h₁ := stillOpen_fopenWrite (h := h.tick) hsound hexec
      apply along_bind
      have hpoll : Along host (CallAvoids A cwd) anyHalt (pollLock fp header) h₁ l fun _ h₂ _ =>
          StillOpen laws h.fs fp h₂ := by
        refine along_iter (fun _ h₂ _ => StillOpen laws h.fs fp h₂) hopen fun fl h₂ l₂ hopen₂ => ?_
        apply along_bind
        refine along_sys trivial fun fl' h₃ hexec => ?_
        obtain ⟨-, rfl⟩ := Prod.ext_iff.mp (Option.some.inj hexec)
        apply along_bind
        refine along_sendMessage fun _ => along_ret ?_
        split_ifs <;> exact hopen₂
      refine hpoll.mono fun fl h₂ l₂ hopen₂ => ?_
      apply along_bind
      refine along_sys trivial fun _ h₃ hexec => ?_
      have hopen₃ := hopen₂.setlk hexec
      apply along_bind
      have hchunks : Along host (CallAvoids A cwd) anyHalt (receiveChunks N fp (zeros sizeofFile) buf.val)
          h₃ l₂ fun _ h₄ _ => StillOpen laws h.fs fp h₄ := by
        refine along_iter (fun _ h₄ _ => StillOpen laws h.fs fp h₄) hopen₃ fun c h₄ l₄ hopen₄ => ?_
        unfold receiveChunk
        apply along_bind
        refine (along_recvMessage trivial).mono ?_
        rintro r₁ _ l₅ rfl
        apply along_bind
        refine (along_recvMessage trivial).mono ?_
        rintro r₂ _ l₆ rfl
        apply along_bind
        refine along_checkSize (fun _ => ?_) fun _ => trivial
        apply along_bind
        refine along_sys trivial fun _ h₇ hexec => ?_
        have hopen₇ := hopen₄.fwrite hexec
        refine along_ret ?_
        split_ifs <;> exact hopen₇
      refine hchunks.mono fun _ h₄ l₄ hopen₄ => ?_
      apply along_bind
      refine along_sys trivial fun _ h₅ hexec => ?_
      have hopen₅ := hopen₄.setlk hexec
      refine along_sys trivial fun _ h₆ hexec => ?_
      obtain ⟨-, rfl⟩ := Prod.ext_iff.mp (Option.some.inj hexec)
      exact hopen₅.links.trans (laws.fclose _ fp hopen₅.opened)

-- A link that has come is what `utime` follows.
theorem avoids_receiveLink {header : Bytes} (hat : Avoids A cwd h.fs false filepath)
    (htext : ∀ text ∈ linkSent h l, Avoids A cwd (Posix.symlink h.fs text filepath).2 true filepath) :
    Along host (CallAvoids A cwd) anyHalt (receiveLink filepath header) h l fun _ h' _ =>
      Avoids A cwd h'.fs true filepath := by
  unfold receiveLink
  apply along_bind
  refine along_uninit trivial fun buf hbuf => ?_
  apply along_bind
  refine along_sendMessage fun _ => ?_
  apply along_bind
  refine (along_into trivial).mono ?_
  rintro ⟨ok₁, req⟩ _ _ ⟨rfl, rfl, got, hgot, -, rfl⟩
  apply along_bind
  refine (along_into trivial).mono ?_
  rintro ⟨ok₂, text⟩ _ _ ⟨rfl, rfl, text, hgot', hfits, rfl⟩
  have hsent : linkSent h l = some (cString (overlay buf.val text)) := by
    rw [buf.property] at hfits
    simp [linkSent, hgot, hgot', hfits, hbuf]
  apply along_bind
  refine along_sys hat fun _ h₃ hexec => ?_
  obtain ⟨-, rfl⟩ := Prod.ext_iff.mp (Option.some.inj hexec)
  exact along_ret (htext _ hsent)

omit [Posix F] in
theorem metaStatus_link {st hash : Bytes} (hdir : ¬sIsDir (stMode st) = true)
    (hlnk : sIsLnk (stMode st) = true) :
    metaStatus md5 filepath st hash = (sys (.readlink filepath pathMax) >>= fun target =>
      ret (if hash = linkDigest md5 target then statusOk else statusMore)) := by
  rw [metaStatus, if_neg hdir, if_pos hlnk]
  refine congrArg (Prog.bind _) (funext fun target => ?_)
  cases target <;> rfl

theorem avoids_md5File {buf : Bytes} (hat : Avoids A cwd h.fs true filepath) :
    Along host (CallAvoids A cwd) anyHalt (md5File md5 filepath buf) h l fun _ h' _ => h' = h := by
  unfold md5File
  apply along_bind
  refine along_sys hat fun rs h₁ hexec => ?_
  obtain ⟨-, rfl⟩ := Prod.ext_iff.mp (Option.some.inj hexec)
  cases rs with
  | none => exact along_ret rfl
  | some rs =>
      dsimp only
      split
      · exact along_halt trivial
      · exact along_ret rfl

-- Before `utime` the path still avoids `A`, for each kind of file.
theorem avoids_answerMeta (hsound : laws.Sound h.fs) {m : Bytes}
    (hat : MetaAvoids A cwd md5 filepath m h l) :
    Along host (CallAvoids A cwd) anyHalt (answerMeta md5 filepath (metaStat m) (metaHash m)) h l
      fun _ h' _ => Avoids A cwd h'.fs true filepath := by
  unfold answerMeta
  unfold MetaAvoids at hat
  apply along_bind
  by_cases hdir : sIsDir (stMode (metaStat m)) = true
  · rw [if_pos hdir] at hat
    rw [metaStatus, if_pos hdir]
    apply along_bind
    refine along_sys hat.1 fun _ h₁ hexec => along_ret ?_
    obtain ⟨-, rfl⟩ := Prod.ext_iff.mp (Option.some.inj hexec)
    rw [if_neg (by decide)]
    apply along_bind
    refine along_sendMessage fun _ => along_ret ?_
    exact (laws.mkdir _ _ _ hsound).avoids_iff.mpr hat.2
  rw [if_neg hdir] at hat
  by_cases hlnk : sIsLnk (stMode (metaStat m)) = true
  · rw [if_pos hlnk] at hat
    rw [metaStatus_link hdir hlnk]
    apply along_bind
    refine along_sys hat.1 fun target h₁ hexec => along_ret ?_
    obtain ⟨rfl, rfl⟩ := Prod.ext_iff.mp (Option.some.inj hexec)
    have hmore := hat.2
    dsimp only
    split_ifs at hmore ⊢ with hsame hok hok
    · exact absurd hok (by decide)
    · apply along_bind
      exact along_sendMessage fun _ => along_ret hmore
    · exact avoids_receiveLink hat.1 hmore
    · exact absurd rfl hok
  rw [if_neg hlnk] at hat
  by_cases hreg : sIsReg (stMode (metaStat m)) = true
  · rw [metaStatus, if_neg hdir, if_neg hlnk, if_pos hreg]
    apply along_bind
    refine (avoids_md5File hat).mono ?_
    rintro r _ l₁ rfl
    refine along_ret ?_
    dsimp only
    rw [if_neg hlnk, if_pos hreg]
    generalize (if r.1 < 0 ∨ metaHash m ≠ r.2 then statusMore else statusOk) = status
    split_ifs
    · exact (avoids_receiveFile hsound hat).mono fun _ _ _ hlinks => hlinks.avoids_iff.mpr hat
    · apply along_bind
      exact along_sendMessage fun _ => along_ret hat
  · rw [metaStatus, if_neg hdir, if_neg hlnk, if_neg hreg]
    refine along_ret ?_
    rw [if_neg (by decide)]
    apply along_bind
    exact along_sendMessage fun _ => along_ret hat

theorem along_request_avoids (hsound : laws.Sound h.fs) (hentry : server.client connFd = some info)
    (hchanges : Changes l) (hat : RequestAvoids A cwd md5 (baseOf server info) h l) :
    Along host (CallAvoids A cwd) anyHalt (handleRequest md5 server connFd) h l fun _ _ _ => True := by
  refine (along_request (fun _ _ => trivial) hentry hchanges (fun _ _ => trivial) ?_ ?_ ?_).mono
    fun _ _ _ _ => trivial
  · intro hasks m r hbody hpaths
    unfold afterMeta
    apply along_bind
    refine (avoids_answerMeta (h := h.tick) hsound (hat.syncMeta hasks m r hbody hpaths)).mono
      fun _ _ _ hat' => ?_
    exact avoids_utime hat'
  · intro hasks src target st l' hpaths
    obtain ⟨hold, hnew, hmade⟩ := hat.syncHardlink hasks src target hpaths
    unfold afterHardlink
    apply along_bind
    refine along_sys ⟨hold, hnew⟩ fun _ h₁ hexec => ?_
    obtain ⟨-, rfl⟩ := Prod.ext_iff.mp (Option.some.inj hexec)
    exact avoids_utime hmade
  · intro hasks r l' hpaths
    unfold afterRm
    apply along_bind
    exact along_sys (hat.rm hasks r hpaths) fun _ _ _ => along_ret trivial

end Avoiding

end Csiebox

namespace Csiebox.TreeFs

open CBytes

section Links

variable {fs fs' : TreeFs} {p : Path} {i : Nat}

def textOf : Option Kind → Option Bytes
  | some (.link text) => some text
  | _ => none

theorem walk_names_eq {b p q : Path} (h : fs.walk b (p.map Subtype.val) = some q) : q = b ++ p := by
  induction p generalizing b with
  | nil => simpa [walk] using h.symm
  | cons n p ih =>
      obtain ⟨hne, hdot, hdots, -, -⟩ := n.property
      rw [List.map_cons, walk] at h
      split_ifs at h with hdir hstay hvalid
      · exact absurd hstay (by simp [hne, hdot])
      · rw [ih h, List.append_assoc]
        rfl

theorem resolve_names (fs : TreeFs) {p : Path} (hp : p ≠ []) :
    fs.resolve (joined [] p) = fs.walk [] (p.map Subtype.val) := by
  have hhead : (joined [] p).head? = some slash := by
    cases p with
    | nil => exact absurd rfl hp
    | cons n p =>
        rw [joined, joined_eq]
        rfl
  rw [resolve, if_pos hhead, components_joined]
  simp [components, walk, isDir_root]

-- A path of names from the root names what is there.
theorem Plain.kind_joined (hfs : fs.Plain) (place : Path) :
    textOf ((fs.resolve (joined [] place)).bind fs.kind) = textOf (fs.kind place) := by
  rcases List.eq_nil_or_concat place with rfl | ⟨front, name, rfl⟩
  · have hroot : textOf (fs.kind []) = none := rfl
    rw [hroot, resolve]
    by_cases hdir : fs.isDir fs.cwd = true
    · simp [joined, components, walk, hdir, (isDir_iff fs _).mp hdir, textOf]
    · simp [joined, components, walk, hdir, textOf]
  · rw [List.concat_eq_append, resolve_names fs (by simp)]
    cases hwalk : fs.walk [] ((front ++ [name]).map Subtype.val) with
    | some place => rw [walk_names_eq hwalk, List.nil_append, Option.bind_some]
    | none =>
        have hnone : fs.kind (front ++ [name]) = none := by
          by_contra hsome
          have hparent := hfs.parent (by simp) hsome
          rw [List.dropLast_concat] at hparent
          rw [hfs.walk_names front name (by rwa [List.nil_append])] at hwalk
          cases hwalk
        rw [hnone, Option.bind_none]

-- Files with one name each are not the same ones.
theorem lstat_names {p : Path} (hp : p ≠ []) {st : Mem 144}
    (h : Posix.lstat fs (joined [] p) = some st) :
    ∃ i, fs.entries.lookup p = some i ∧ st.val.take 16 = leBytes 8 0 ++ leBytes 8 i := by
  obtain ⟨q, hq, hst⟩ := Option.bind_eq_some_iff.mp
    (show (fs.resolve (joined [] p)).bind fs.stat = some st from h)
  rw [resolve_names fs hp] at hq
  obtain rfl : q = p := walk_names_eq hq
  obtain ⟨node, hnode, rfl⟩ := Option.map_eq_some_iff.mp hst
  rw [inode, if_neg hp] at hnode
  obtain ⟨i, hi, -⟩ := Option.map_eq_some_iff.mp hnode
  refine ⟨i, hi, ?_⟩
  rw [hi, Option.getD_some]
  show List.take 16 (leBytes 8 0 ++ (leBytes 8 i ++ _)) = _
  rw [← List.append_assoc]
  exact List.take_left' (by simp)

theorem Plain.one_file (hfs : fs.Plain) (hsmall : fs.nextInode ≤ 2 ^ 64) {p q : Path} (hp : p ≠ [])
    (hq : q ≠ [])
    (h : SameFile fs p q) : p = q := by
  obtain ⟨st, st', hst, hst', hsame⟩ := h
  obtain ⟨i, hi, htake⟩ := lstat_names hp hst
  obtain ⟨j, hj, htake'⟩ := lstat_names hq hst'
  rw [htake, htake', List.append_cancel_left_eq] at hsame
  have hi' := lookup_allocated hfs.allocated hi
  have hj' := lookup_allocated hfs.allocated hj
  have hnum := congrArg leNat hsame
  rw [leNat_leBytes, leNat_leBytes, Nat.mod_eq_of_lt (by omega), Nat.mod_eq_of_lt (by omega)] at hnum
  exact hfs.one_path hi (hnum ▸ hj)

theorem sameLinks_of_kind (hfs : fs.Plain) (hfs' : fs'.Plain)
    (h : ∀ q, textOf (fs'.kind q) = textOf (fs.kind q)) : SameLinks fs fs' := by
  have hread : ∀ (g : TreeFs) (path : Bytes), Posix.readlink g path pathMax =
      (textOf ((g.resolve path).bind g.kind)).map (·.take pathMax) := by
    intro g path
    show (match (g.resolve path).bind g.kind with
      | some (.link target) => some (target.take pathMax)
      | _ => none) = _
    generalize (g.resolve path).bind g.kind = k
    cases k with
    | none => rfl
    | some k => cases k <;> rfl
  intro place
  rw [textAt, textAt, hread, hread, hfs'.kind_joined, hfs.kind_joined, h]

theorem textOf_setKind {old content : Bytes} (hold : (fs.inodes i).kind = .file old) (q : Path) :
    textOf ((fs.setKind i (.file content)).kind q) = textOf (fs.kind q) := by
  by_cases hq : q = []
  · rw [hq]
    rfl
  rw [kind_eq hq, kind_eq hq]
  show textOf ((fs.entries.lookup q).map _) = _
  cases fs.entries.lookup q with
  | none => rfl
  | some j =>
      by_cases hj : j = i
      · simp [setKind, hj, hold, textOf]
      · simp [setKind, Function.update_of_ne hj]

theorem textOf_create (hfs : fs.Plain) (hfree : fs.kind p = none) {k : Kind} (hk : textOf (some k) = none)
    (q : Path) : textOf ((fs.create p k).kind q) = textOf (fs.kind q) := by
  rw [kind_create_eq hfs.allocated hfree]
  by_cases hq : q = p
  · rw [hq, Function.update_self, hk, hfree]
    rfl
  · rw [Function.update_of_ne hq]

-- What a path leads to has its directory, if it is not there itself.
theorem Plain.walk_parent (hfs : fs.Plain) {cs : List Bytes} {cur q : Path}
    (hcur : fs.kind cur = none → fs.isDir cur.dropLast = true) (h : fs.walk cur cs = some q)
    (hfree : fs.kind q = none) : fs.isDir q.dropLast = true := by
  induction cs generalizing cur with
  | nil =>
      obtain rfl := Option.some.inj h
      exact hcur hfree
  | cons c cs ih =>
      rw [walk] at h
      split_ifs at h with hdir hstay hup hvalid
      · exact ih hcur h
      · refine ih (fun hnone => ?_) h
        have hcurdir : fs.isDir cur = true := by simpa using hdir
        by_cases hnil : cur = []
        · rw [hnil] at hnone
          cases hnone
        · have hparent := hfs.parent hnil (by rw [(isDir_iff fs _).mp hcurdir]; simp)
          rw [(isDir_iff fs _).mp hparent] at hnone
          cases hnone
      · refine ih (fun _ => ?_) h
        rw [List.dropLast_concat]
        simpa using hdir

theorem Plain.resolve_parent (hfs : fs.Plain) {path : Bytes} (h : fs.resolve path = some p)
    (hfree : fs.kind p = none) : fs.isDir p.dropLast = true := by
  rw [resolve] at h
  refine hfs.walk_parent (fun hnone => ?_) h hfree
  split_ifs at h hnone with hroot
  · cases hnone
  · obtain ⟨c, cs, hparts⟩ := List.exists_cons_of_ne_nil (components_ne_nil path)
    have hdir : fs.isDir fs.cwd = false := by simp [isDir, hnone]
    rw [hparts, walk, hdir] at h
    cases h

theorem sameLinks_mkdir (hfs : fs.Plain) (path : Bytes) (mode : Nat) :
    SameLinks fs (Posix.mkdir fs path mode).2 := by
  show SameLinks fs (fs.changeAt path fs.mkdirAt).2
  rw [changeAt]
  cases hresolve : fs.resolve path with
  | none => exact fun _ => rfl
  | some p =>
      simp only [mkdirAt, isFree_eq]
      cases hkind : fs.kind p with
      | some k => exact fun _ => rfl
      | none =>
          exact sameLinks_of_kind hfs (hfs.create hkind (hfs.resolve_parent hresolve hkind) .dir)
            (textOf_create hfs hkind rfl)

theorem opened_setKind (hfs : fs.Plain) {old : Bytes} (hold : (fs.inodes i).kind = .file old)
    (content : Bytes) :
    ((fs.setKind i (.file content)).Plain ∧
      ∃ content', ((fs.setKind i (.file content)).inodes i).kind = .file content') ∧
        SameLinks fs (fs.setKind i (.file content)) := by
  have hplain : (fs.setKind i (.file content)).Plain :=
    hfs.of_kind rfl rfl fun q hq => by rw [isDir_setKind hold]; exact hq
  exact ⟨⟨hplain, content, by simp [setKind]⟩, sameLinks_of_kind hfs hplain (textOf_setKind hold)⟩

theorem opened_fwrite {fp : Nat} (h : fs.Plain ∧ ∃ content, (fs.inodes fp).kind = .file content)
    (bs : Bytes) :
    ((Posix.fwrite fs fp bs).Plain ∧ ∃ content, ((Posix.fwrite fs fp bs).inodes fp).kind = .file content) ∧
      SameLinks fs (Posix.fwrite fs fp bs) := by
  obtain ⟨hfs, old, hold⟩ := h
  exact opened_setKind hfs hold _

theorem opened_fopenWrite (hfs : fs.Plain) {path : Bytes} {fp : Nat}
    (h : Posix.fopenWrite fs path = some (fp, fs')) :
    (fs'.Plain ∧ ∃ content, (fs'.inodes fp).kind = .file content) ∧ SameLinks fs fs' := by
  obtain ⟨p, hresolve, hopen⟩ :=
    Option.bind_eq_some_iff.mp (show (fs.resolve path).bind fs.openAt = _ from h)
  rw [openAt] at hopen
  cases hkind : fs.kind p with
  | none =>
      rw [hkind] at hopen
      obtain ⟨rfl, rfl⟩ := Prod.ext_iff.mp (Option.some.inj hopen)
      have hplain := hfs.create hkind (hfs.resolve_parent hresolve hkind) (.file [])
      exact ⟨⟨hplain, [], by simp [create]⟩, sameLinks_of_kind hfs hplain (textOf_create hfs hkind rfl)⟩
  | some k =>
      rw [hkind] at hopen
      cases k with
      | dir => cases hopen
      | link _ => cases hopen
      | file old =>
          obtain ⟨i, hlookup, hi⟩ := Option.map_eq_some_iff.mp hopen
          obtain ⟨rfl, rfl⟩ := Prod.ext_iff.mp hi
          have hp := hfs.ne_nil hlookup
          rw [kind_eq hp, hlookup] at hkind
          exact opened_setKind hfs (Option.some.inj hkind) []

-- Of the file system in memory.
def linkLaws : LinkLaws TreeFs where
  Sound := Plain
  Opened fs fp := fs.Plain ∧ ∃ content, (fs.inodes fp).kind = .file content
  mkdir _ path mode hfs := sameLinks_mkdir hfs path mode
  fopenWrite _ _ _ _ hfs hopen := opened_fopenWrite hfs hopen
  setlk _ _ _ hopen := ⟨hopen, fun _ => rfl⟩
  fwrite _ _ bs hopen := opened_fwrite hopen bs
  fclose _ _ _ := fun _ => rfl

end Links

end Csiebox.TreeFs
