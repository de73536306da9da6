import Csiebox.Service.Lemmas
import Csiebox.Session.AccountLogin
import Csiebox.Traverse.Tables
import Csiebox.Traverse.Theorems

namespace Csiebox.Traverse

open CBytes Program Prog Pull Session

section Definitions

variable {G : Type} [Posix G] (md5 : Bytes → Mem 16) (connFd : Nat) (home : Bytes)

-- A history of the server: its runs end in a LOGIN request on `connFd` that has come to
-- the call of `traverse_file` for `home`, with `hl` in the table.
inductive Comes : List HardLink → Host G → Prop where
  | call {path accountPath : Bytes} {nullUser : Option Bytes} {listenFd : Nat} {start h : Host G}
      {w u v : Service G} {workset : Nat → Bool} {fds rest : List Nat} {l₀ l : Link UInt8} {out : Bytes}
      {k : List HardLink → Code Server}
      (turns : Reaches md5 (fun _ _ _ => True) (Service.start path accountPath nullUser listenFd start) w)
      (selected : ∀ fd, workset fd = true → w.server.masterset fd = true ∧ fd ≠ w.listenFd)
      (turn : u = w ∨ ∃ fd, w.server.masterset fd = false ∧ u = w.accept fd)
      (ready : u.ready workset = fds ++ connFd :: rest)
      (served : Serves md5 (fun _ _ _ => True) fds u v) (arrives : Arrives (v.links connFd) l₀)
      (request : Exec host ⟨handleRequest md5 v.server connFd, v.host, l₀⟩ out
        ⟨serverTraverseFile md5 (home.length + 1) connFd pathMax home (v.server.hl connFd) >>= k, h, l⟩) :
      Comes (v.server.hl connFd) h

-- `traverse_file` sends the same, whatever the client answers.
def SameMessages (hl hl' : List HardLink) (h h' : Host G) : Prop :=
  ∀ l, Alike host host
    ⟨serverTraverseFile md5 (home.length + 1) connFd pathMax home hl, h, l⟩
    ⟨serverTraverseFile md5 (home.length + 1) connFd pathMax home hl', h', l⟩

end Definitions

section Course

variable {G : Type} [Posix G] {g : G} {len : Nat}

theorem path_of_courseEntries {descend : Bytes → List (Option Visit)} {dirName : Bytes}
    (hdescend : ∀ dirName v, some v ∈ descend dirName → (v.path.drop len).length < pathMax)
    (entries : List Dirent) {v : Visit} (hv : some v ∈ courseEntries g descend dirName entries) :
    (v.path.drop len).length < pathMax := by
  induction entries with
  | nil => simp [courseEntries] at hv
  | cons entry entries ih =>
      rw [courseEntries] at hv
      split_ifs at hv with hhidden
      · exact ih hv
      · cases hst : Posix.lstat g (snprintfPath dirName entry.name.val) with
        | none => simp [hst] at hv
        | some st =>
            simp only [hst, List.mem_cons, List.mem_append, Option.some.injEq] at hv
            rcases hv with rfl | hbelow | hrest
            · exact serverPath_length _ _ len
            · split_ifs at hbelow with hdir
              · exact hdescend _ v hbelow
              · simp at hbelow
            · exact ih hrest

theorem path_of_course (depth : Nat) (dirName : Bytes) {v : Visit} (hv : some v ∈ course g depth dirName) :
    (v.path.drop len).length < pathMax := by
  induction depth generalizing dirName v with
  | zero => simp [course] at hv
  | succ depth ih =>
      rw [course] at hv
      cases hfound : Posix.opendir g dirName with
      | none => simp [hfound] at hv
      | some entries =>
          rw [hfound] at hv
          exact path_of_courseEntries (fun dirName v => ih dirName) entries hv

end Course

section Hosts

variable {G : Type} [Posix G]

-- The calls of the traversal read the file system alone.
def TraverseCall : {ι : Type} → Sys ι → Prop
  | _, .lstat _ => True
  | _, .opendir _ => True
  | _, op => SendCall op

theorem sendCalls_traverseCall : SendCalls TraverseCall :=
  ⟨fun _ _ => trivial, fun _ => trivial, fun _ => trivial, fun _ _ => trivial, fun _ => trivial⟩

theorem agree_traverseCall :
    Agree host host TraverseCall fun h h' : Host G => h'.fs = h.fs := by
  intro ι op h h' r h₁ hop hfs hexec
  cases op with
  | setlkw fp fl =>
      obtain ⟨⟨granted, g⟩, hlock, hset⟩ := Option.map_eq_some_iff.mp hexec
      obtain ⟨rfl, rfl⟩ := Prod.mk.inj hset
      exact ⟨{ h' with fs := g }, by simp [host, Host.exec, hfs, hlock, Host.set], rfl⟩
  | fclose fp =>
      cases hexec
      exact ⟨{ h' with fs := Posix.fclose h'.fs fp }, rfl, congrArg (Posix.fclose · fp) hfs⟩
  | lstat path =>
      cases hexec
      exact ⟨h', by simp [host, Host.exec, hfs], hfs⟩
  | opendir path =>
      cases hexec
      exact ⟨h', by simp [host, Host.exec, hfs], hfs⟩
  | readlink path size =>
      cases hexec
      exact ⟨h', by simp [host, Host.exec, hfs], hfs⟩
  | reads path =>
      cases hexec
      exact ⟨h', by simp [host, Host.exec, hfs], hfs⟩
  | fopenRead path =>
      cases hexec
      exact ⟨h', by simp [host, Host.exec, hfs], hfs⟩
  | _ => exact absurd hop (by simp [TraverseCall, SendCall])

variable {md5 : Bytes → Mem 16} {connFd : Nat} {home : Bytes} {hl hl' : List HardLink} {h h' : Host G}

-- The same tree, and the same table.
theorem alike_host {len depth : Nat} (hfs : h'.fs = h.fs) (l : Link UInt8) :
    Alike host host ⟨serverTraverseFile md5 len connFd depth home hl, h, l⟩
      ⟨serverTraverseFile md5 len connFd depth home hl, h', l⟩ :=
  alike_of_agree agree_traverseCall agree_traverseCall
    (calls_serverTraverseFile sendCalls_traverseCall (fun _ => trivial) (fun _ => trivial) depth home hl)
    hfs hfs.symm l

theorem sameMessages_iff (hG : Unshared G) (hshort : Short hl) (hshort' : Short hl') (hfs : h'.fs = h.fs) :
    SameMessages md5 connFd home hl hl' h h' ↔
      TablesAgree md5 h.fs (home.length + 1) connFd (course h.fs pathMax home) hl hl' := by
  have hcourse : ∀ hl l, Alike host host
      ⟨serverTraverseFile md5 (home.length + 1) connFd pathMax home hl, h, l⟩
      ⟨sendCourse md5 (home.length + 1) connFd (course h.fs pathMax home) hl, h, l⟩ := by
    intro hl l
    have hwhole : Alike host host
        ⟨serverTraverseFile md5 (home.length + 1) connFd pathMax home hl >>= ret, h, l⟩
        ⟨sendCourse md5 (home.length + 1) connFd (course h.fs pathMax home) hl >>= ret, h, l⟩ :=
      alikeOn_course hG pathMax home hl (fun hl h l _ => .refl _) h l (.refl h.fs)
    have hret : ∀ p : Code (List HardLink), p >>= ret = p := bind_pure
    rwa [hret, hret] at hwhole
  constructor
  · intro hsame
    refine tablesAgree_of_matched hG hshort hshort' (fun v hv => path_of_course pathMax home hv)
      (.refl h.fs) ?_
    intro inbox
    have htables := (hsame ⟨inbox, false⟩).trans (alike_host hfs ⟨inbox, false⟩).symm
    exact ((hcourse hl _).symm.trans htables).trans (hcourse hl' _)
  · intro hagree l
    have hsent := alikeOn_sendCourse hG hagree h l (.refl h.fs)
    exact (((hcourse hl l).trans hsent).trans (hcourse hl' l).symm).trans (alike_host hfs l)

end Hosts

section Tables

variable {G : Type} [Posix G] {md5 : Bytes → Mem 16} {connFd len : Nat} {h : Host G} {l : Link UInt8}
  {hl : List HardLink} {server : Server}

theorem ends_serverEntry_short {st cpath : Bytes} (hshort : Short hl)
    (hpath : (cpath.drop len).length < pathMax) :
    Ends host (serverEntry md5 len connFd st cpath hl) h l fun hl' _ _ => Short hl' := by
  unfold serverEntry
  split_ifs
  · apply along_bind
    refine ends_any.mono fun _ h₁ l₁ _ => ?_
    apply along_bind
    refine ends_any.mono fun _ h₂ l₂ _ => ?_
    apply along_bind
    refine ends_any.mono fun _ h₃ l₃ _ => ?_
    apply along_bind
    refine ends_any.mono fun _ h₄ l₄ _ => along_ret ?_
    intro link hlink
    rcases List.mem_append.mp hlink with hold | hnew
    · exact hshort link hold
    · obtain rfl := List.mem_singleton.mp hnew
      exact hpath
  · apply along_bind
    exact ends_any.mono fun _ h₁ l₁ _ => along_ret hshort

theorem ends_serverTraverseFile_short (depth : Nat) (dirName : Bytes) (hshort : Short hl) :
    Ends host (serverTraverseFile md5 len connFd depth dirName hl) h l fun hl' _ _ => Short hl' := by
  induction depth generalizing dirName hl h l with
  | zero => exact along_halt trivial
  | succ depth ih =>
      rw [serverTraverseFile]
      apply along_bind
      refine ends_any.mono fun found h₁ l₁ _ => ?_
      cases found with
      | none => exact along_ret hshort
      | some entries =>
          simp only
          induction entries generalizing hl h₁ l₁ with
          | nil => exact along_ret hshort
          | cons entry entries ihe =>
              rw [serverVisit]
              split_ifs
              · exact ihe hshort h₁ l₁
              · apply along_bind
                refine ends_any.mono fun st h₂ l₂ _ => ?_
                cases st with
                | none => exact along_ret hshort
                | some st =>
                    apply along_bind
                    refine (ends_serverEntry_short hshort (serverPath_length _ _ len)).mono
                      fun hl₃ h₃ l₃ hshort₃ => ?_
                    apply along_bind
                    split_ifs
                    · exact (ih _ hshort₃).mono fun hl₄ h₄ l₄ hshort₄ => ihe hshort₄ h₄ l₄
                    · exact along_ret (ihe hshort₃ h₃ l₃)

def ShortTables (server : Server) : Prop := ∀ fd, Short (server.hl fd)

theorem ends_openHome_short (hshort : ShortTables server) :
    Ends host (openHome md5 server connFd) h l fun server' _ _ => ShortTables server' := by
  unfold openHome
  apply along_bind
  refine ends_any.mono fun filepath h₁ l₁ _ => ?_
  apply along_bind
  refine ends_any.mono fun entries h₂ l₂ _ => ?_
  cases entries with
  | none => exact along_halt trivial
  | some entries =>
      apply along_bind
      split_ifs
      · unfold sendHome
        apply along_bind
        refine ends_any.mono fun _ h₃ l₃ _ => ?_
        apply along_bind
        refine (ends_serverTraverseFile_short pathMax filepath (hshort connFd)).mono fun hl h₄ l₄ hhl => ?_
        unfold sendOk
        apply along_bind
        refine ends_any.mono fun last h₅ l₅ _ => ?_
        apply along_bind
        refine along_sendMessage fun _ => along_ret (along_ret fun fd => ?_)
        by_cases hfd : fd = connFd
        · subst hfd
          simpa using hhl
        · simpa [Function.update_of_ne hfd] using hshort fd
      · exact along_ret (along_ret hshort)

theorem ends_handleRequest_short (hshort : ShortTables server) :
    Ends host (handleRequest md5 server connFd) h l fun server' _ _ => ShortTables server' := by
  unfold handleRequest
  apply along_bind
  refine ends_any.mono fun r h₁ l₁ _ => ?_
  obtain ⟨ok, head⟩ := r
  cases ok with
  | false => exact along_ret hshort
  | true =>
      simp only [if_true]
      split_ifs with hmagic
      · exact along_halt trivial
      · unfold dispatch
        split_ifs with hlogin hmeta hlink hrm
        · unfold loginRequest
          apply along_bind
          refine ends_any.mono fun req h₂ l₂ _ => ?_
          apply along_bind
          refine ends_any.mono fun r h₃ l₃ _ => ?_
          obtain ⟨ok, req⟩ := r
          have hlogged : Ends host (if ok then login md5 server connFd req else ret server) h₃ l₃
              fun server' _ _ => ShortTables server' := by
            cases ok with
            | true =>
                refine ends_login.mono ?_
                rintro _ h₄ l₄ rfl
                exact hshort
            | false => exact along_ret hshort
          apply along_bind
          exact hlogged.mono fun server' h₄ l₄ hserver => ends_openHome_short hserver
        · apply along_bind
          exact ends_any.mono fun _ _ _ _ => along_ret hshort
        · apply along_bind
          exact ends_any.mono fun _ _ _ _ => along_ret hshort
        · apply along_bind
          exact ends_any.mono fun _ _ _ _ => along_ret hshort
        · exact along_ret hshort

-- The tables hold paths of the traversal.
theorem Comes.short {home : Bytes} (hcomes : Comes md5 connFd home hl h) : Short hl := by
  cases hcomes with
  | @call path accountPath nullUser listenFd start h w u v workset fds rest l₀ l out k turns selected turn
      ready served arrives request =>
      have hw : ShortTables w.server := by
        refine turns.invariant (J := fun w => ShortTables w.server) ?_ (fun w fd _ hw => hw) ?_
        · intro fd link hlink
          simp [Service.start] at hlink
        · intro w fd l out server h l' _ _ _ _ hrun hw
          exact (ends_handleRequest_short hw).returns hrun
      have hu : ShortTables u.server := by
        rcases turn with rfl | ⟨fd, -, rfl⟩
        · exact hw
        · exact hw
      have hv : ShortTables v.server := by
        clear ready arrives request turn
        induction served with
        | done u => exact hu
        | next _ _ handle _ ih => exact ih (ends_handleRequest_short hu |>.returns handle)
      exact hv connFd

end Tables

-- Two histories lead to the same messages exactly where the table of the descriptor has
-- been left in the same state for the files with several links that are met.
theorem pull_same_iff {G : Type} [Posix G] (hG : Unshared G) {md5 : Bytes → Mem 16} {connFd : Nat}
    {home : Bytes} {hl hl' : List HardLink} {h h' : Host G} (hhistory : Comes md5 connFd home hl h)
    (hhistory' : Comes md5 connFd home hl' h') (hfs : h'.fs = h.fs) :
    SameMessages md5 connFd home hl hl' h h' ↔
      TablesAgree md5 h.fs (home.length + 1) connFd (course h.fs pathMax home) hl hl' :=
  sameMessages_iff hG hhistory.short hhistory'.short hfs

section Login

variable {G : Type} [Posix G] {md5 : Bytes → Mem 16} {connFd : Nat} {h : Host G} {server : Server}

-- The host where a login to `home` has come to the traversal.
def atTraversal (h : Host G) (home : Bytes) : Host G :=
  { h.tick.tick with fs := (Posix.mkdir h.fs home dirSFlag).2, notices := h.notices ++ [.serverNotEmpty] }

-- What follows the traversal.
def behindTraversal (server : Server) (connFd : Nat) (account : Bytes) (hl : List HardLink) : Code Server :=
  sendOk (entered server connFd account) connFd hl >>= fun server =>
    ret { server with clientNum := server.clientNum + 1 }

theorem exec_toTraversal {body account content : Bytes} {fp : Nat} {entries : List Dirent}
    (hbody : body.length = sizeofLogin - sizeofHeader)
    (hread : Posix.fopenRead h.fs server.accountPath = some (fp, content))
    (hadmits : Admits md5 server (cString (loginUser (loginHead ++ body) ++ h.tick.fresh pathMax))
      (loginPasswdHash (loginHead ++ body)) (lines content) account)
    (hopen : Posix.opendir (Posix.mkdir h.fs (homeOf server.path (cString account)) dirSFlag).2
      (homeOf server.path (cString account)) = some entries) (hmany : 2 < entries.length) (more : Bytes) :
    ∃ out, Exec host ⟨handleRequest md5 server connFd, h, ⟨loginHead ++ body ++ more, false⟩⟩ out
      ⟨serverTraverseFile md5 ((homeOf server.path (cString account)).length + 1) connFd pathMax
          (homeOf server.path (cString account)) (server.hl connFd) >>=
        behindTraversal server connFd account, atTraversal h (homeOf server.path (cString account)),
        ⟨more, false⟩⟩ := by
  have hread' : Posix.fopenRead h.tick.fs server.accountPath = some (fp, content) := hread
  have hlogin : Exec host ⟨login md5 server connFd (loginHead ++ body), h.tick, ⟨[], false⟩⟩
      (loginReply connFd) ⟨ret (entered server connFd account), { h.tick.tick with
        fs := (Posix.mkdir h.fs (homeOf server.path (cString account)) dirSFlag).2 }, ⟨[], false⟩⟩ :=
    exec_login_ok rfl hread' hadmits
  have hhome : getUserHomedir (entered server connFd account)
      ((entered server connFd account).client connFd) = ret (homeOf server.path (cString account)) := by
    have hclient : (entered server connFd account).client connFd = some { account, connFd } := by
      simp [entered]
    rw [hclient]
    show (checkSize ((homeOf server.path (cString account)).length < pathMax) >>= fun _ =>
      ret (homeOf server.path (cString account))) = _
    rw [checkSize_pos hadmits.2.2.2, ret_bind]
  have hopenHome : Exec host ⟨openHome md5 (entered server connFd account) connFd, { h.tick.tick with
        fs := (Posix.mkdir h.fs (homeOf server.path (cString account)) dirSFlag).2 }, ⟨[], false⟩⟩ []
      ⟨serverTraverseFile md5 ((homeOf server.path (cString account)).length + 1) connFd pathMax
          (homeOf server.path (cString account)) (server.hl connFd) >>=
        behindTraversal server connFd account, atTraversal h (homeOf server.path (cString account)),
        ⟨[], false⟩⟩ := by
    rw [openHome, hhome, ret_bind]
    refine Exec.after (exec_sys (congrArg (fun found => some (found, _)) hopen)) ?_
    simp only [if_pos hmany, sendHome, bind_assoc]
    exact Exec.after (exec_sys rfl) (.refl _)
  have hrun := ((exec_toLogin hbody h).trans (Exec.seq hlogin hopenHome)).frame more
  exact ⟨_, hrun⟩

end Login

section Instances

-- The calls of a traversal leave this file system as it is.
theorem keeps_treeFs (f : TreeFs) : Keeps host TraverseCall fun h : Host TreeFs => h.fs = f := by
  intro ι op h r h' hop hfs hexec
  cases op with
  | setlkw fp fl =>
      cases hexec
      exact hfs
  | fclose fp =>
      cases hexec
      exact hfs
  | lstat path =>
      cases hexec
      exact hfs
  | opendir path =>
      cases hexec
      exact hfs
  | readlink path size =>
      cases hexec
      exact hfs
  | reads path =>
      cases hexec
      exact hfs
  | fopenRead path =>
      cases hexec
      exact hfs
  | _ => exact absurd hop (by simp [TraverseCall, SendCall])

theorem treeFs_unshared : Unshared TreeFs where
  granted := treeFs_locksGranted
  setlkw f f' fp fl result hlock := by
    obtain ⟨-, rfl⟩ := Prod.mk.inj (Option.some.inj hlock)
    exact .refl f
  fclose f fp := .refl f
  linkFits := treeFs_undisturbed.linkFits

-- The account file "a", and the home directory "s/u" with a file that has two names.
def sharedHost : Host TreeFs :=
  exampleHost { exampleFs [] (fun i => if i < 2 then .dir else if i = 2 then .file [0x75, 0x2c, 0x70, 0x0a]
      else .file [0x78]) with
    entries := [([⟨[0x73], validName_s⟩], 0),
      ([⟨[0x73], validName_s⟩, ⟨[0x75], validName_u⟩], 1), ([⟨[0x61], validName_a⟩], 2),
      ([⟨[0x73], validName_s⟩, ⟨[0x75], validName_u⟩, ⟨[0x66], validName_f⟩], 3),
      ([⟨[0x67], validName_g⟩], 3)]
    nextInode := 4 }

-- The service between requests, with one connection on which nothing is under way.
structure Resting (w : Service TreeFs) (table : List HardLink) : Prop where
  reached : Reaches md5OfX (fun _ _ _ => True) (Service.start [0x73] [0x61] none 3 sharedHost) w
  fs : w.host.fs = sharedHost.fs
  path : w.server.path = [0x73]
  accountPath : w.server.accountPath = [0x61]
  listenFd : w.listenFd = 3
  maxfd : w.maxfd = 4
  opened : w.server.masterset 4 = true
  link : w.links 4 = ⟨[], false⟩
  table : w.server.hl 4 = table

theorem resting_accepted : Resting ((Service.start [0x73] [0x61] none 3 sharedHost).accept 4) [] where
  reached := .single (.accept 4 rfl (fun _ => false) (by simp) (by
    rw [show ((Service.start [0x73] [0x61] none 3 sharedHost).accept 4).ready (fun _ => false) =
      [] from rfl]
    exact .done _))
  fs := rfl
  path := rfl
  accountPath := rfl
  listenFd := rfl
  maxfd := rfl
  opened := rfl
  link := rfl
  table := rfl

variable {w : Service TreeFs} {table : List HardLink}

def accountOfUser : Bytes := [0x75] ++ zeros 29 ++ (md5OfX [0x70]).val ++ zeros 2

theorem sharedHost_mkdir : (Posix.mkdir sharedHost.fs exampleHome dirSFlag).2 = sharedHost.fs := by
  have hresolve : sharedHost.fs.resolve exampleHome =
      some [⟨[0x73], validName_s⟩, ⟨[0x75], validName_u⟩] := by decide +kernel
  simp only [Posix.mkdir, TreeFs.changeAt, hresolve, TreeFs.mkdirAt]
  rw [if_neg (by decide +kernel)]

-- A login comes to the traversal of the same tree, with the table as it is.
theorem Resting.toTraversal (hw : Resting w table) (more : Bytes) :
    ∃ out, Exec host ⟨handleRequest md5OfX w.server 4, w.host, ⟨userLogin ++ more, false⟩⟩ out
      ⟨serverTraverseFile md5OfX (exampleHome.length + 1) 4 pathMax exampleHome table >>=
        behindTraversal w.server 4 accountOfUser, atTraversal w.host exampleHome, ⟨more, false⟩⟩ := by
  have hhome : homeOf w.server.path (cString accountOfUser) = exampleHome := by
    rw [hw.path]
    decide +kernel
  have hread : Posix.fopenRead w.host.fs w.server.accountPath = some (0, [0x75, 0x2c, 0x70, 0x0a]) := by
    rw [hw.fs, hw.accountPath]
    decide +kernel
  have huser : ∀ rest, cString (loginUser userLogin ++ rest) = [0x75] := by
    intro rest
    rw [cString_append_of_nul (by decide +kernel)]
    decide +kernel
  have hadmits : Admits md5OfX w.server (cString (loginUser userLogin ++ w.host.tick.fresh pathMax))
      (loginPasswdHash userLogin) (lines [0x75, 0x2c, 0x70, 0x0a]) accountOfUser := by
    rw [huser]
    exact ⟨by decide +kernel, by decide +kernel, by decide +kernel, by rw [hhome]; decide⟩
  have hopen : ∃ entries, Posix.opendir sharedHost.fs exampleHome = some entries ∧ 2 < entries.length := by
    have hsome : (Posix.opendir sharedHost.fs exampleHome).map List.length = some 3 := by decide +kernel
    obtain ⟨entries, hentries, hlength⟩ := Option.map_eq_some_iff.mp hsome
    exact ⟨entries, hentries, by omega⟩
  obtain ⟨entries, hentries, hmany⟩ := hopen
  have hlength : (userLogin.drop sizeofHeader).length = sizeofLogin - sizeofHeader := by decide +kernel
  have hmade : Posix.opendir
    (Posix.mkdir w.host.fs (homeOf w.server.path (cString accountOfUser)) dirSFlag).2
      (homeOf w.server.path (cString accountOfUser)) = some entries := by
    rw [hhome, hw.fs, sharedHost_mkdir]
    exact hentries
  rw [← hhome, ← hw.table]
  exact exec_toTraversal hlength hread hadmits hmade hmany more

theorem Resting.atTraversal_fs (hw : Resting w table) :
    (atTraversal w.host exampleHome).fs = sharedHost.fs := by
  simp only [atTraversal, hw.fs, sharedHost_mkdir]

theorem Resting.ready (hw : Resting w table) : w.ready (· == 4) = [4] := by
  rw [Service.ready, hw.maxfd]
  decide

theorem Resting.arrives (hw : Resting w table) (l : Link UInt8) : Arrives (w.links 4) l :=
  ⟨l.inbox, by simp [hw.link], by simp [hw.link]⟩

theorem Resting.selected (hw : Resting w table) :
    ∀ fd, (fd == 4) = true → w.server.masterset fd = true ∧ fd ≠ w.listenFd := by
  intro fd hfd
  rw [beq_iff_eq.mp hfd, hw.listenFd]
  exact ⟨hw.opened, by decide⟩

theorem Resting.turn (hw : Resting w table) {l l' : Link UInt8} {out : Bytes} {server : Server}
    {h : Host TreeFs} (hrun :
      Exec host ⟨handleRequest md5OfX w.server 4, w.host, l⟩ out ⟨ret server, h, l'⟩) :
    Reaches md5OfX (fun _ _ _ => True) (Service.start [0x73] [0x61] none 3 sharedHost)
      (w.handled md5OfX 4 l server h l') := by
  refine hw.reached.tail (.serve (· == 4) hw.selected ?_)
  rw [hw.ready]
  exact .next (hw.arrives l) trivial hrun (.done _)

theorem Resting.comes (hw : Resting w table) :
    Comes md5OfX 4 exampleHome table (atTraversal w.host exampleHome) := by
  obtain ⟨out, hrun⟩ := hw.toTraversal []
  have hcall := hw.table.symm ▸ hrun
  have hready : w.ready (· == 4) = [] ++ 4 :: [] := hw.ready
  have hcomes := Comes.call hw.reached hw.selected (.inl rfl) hready (.done w) (hw.arrives _) hcall
  rwa [hw.table] at hcomes

-- The peer hangs up, and the descriptor is given to the next connection.
theorem Resting.reconnect (hw : Resting w table) : ∃ w', Resting w' table := by
  have hrun : Exec host ⟨handleRequest md5OfX w.server 4, w.host, ⟨[], true⟩⟩ []
      ⟨ret (logout { w.server with clientNum := w.server.clientNum - 1 } 4), w.host, ⟨[], true⟩⟩ :=
    Exec.after (exec_recvMessage_short (by decide) (by simp)) (.refl _)
  have hreached := hw.turn hrun
  generalize hleft : w.handled md5OfX 4 _ _ _ _ = v at hreached
  have hfree : v.server.masterset 4 = false := by
    subst hleft
    simp [Service.handled, logout]
  have hready : (v.accept 4).ready (fun _ => false) = [] := by simp [Service.ready]
  refine ⟨v.accept 4, hreached.tail (.accept 4 hfree (fun _ => false) (by simp) ?_), ?_, ?_, ?_, ?_, ?_, ?_,
    ?_, ?_⟩
  · rw [hready]
    exact .done _
  · subst hleft
    exact hw.fs
  · subst hleft
    exact hw.path
  · subst hleft
    exact hw.accountPath
  · subst hleft
    exact hw.listenFd
  · subst hleft
    simp [Service.accept, Service.handled, hw.maxfd]
  · simp [Service.accept]
  · simp [Service.accept]
  · subst hleft
    exact hw.table

-- A session that pulls the home directory leaves its entry in the table.
theorem Resting.session (hw : Resting w []) : ∃ w', Resting w' [{ inode := 3, path := [0x66] }] := by
  obtain ⟨out, hlogin⟩ := hw.toTraversal (zeros sizeofHeader)
  have hresult : (evaluate host 100
    ⟨serverTraverseFile md5OfX (exampleHome.length + 1) 4 pathMax exampleHome [],
      sharedHost, ⟨zeros sizeofHeader, false⟩⟩).2.result = some [{ inode := 3, path := [0x66] }] := by
    decide +kernel
  have hinbox : (evaluate host 100
    ⟨serverTraverseFile md5OfX (exampleHome.length + 1) 4 pathMax exampleHome [],
      sharedHost, ⟨zeros sizeofHeader, false⟩⟩).2.link.inbox = [] := by
    decide +kernel
  have htraversal := exec_result hresult
  generalize (evaluate host 100
    ⟨serverTraverseFile md5OfX (exampleHome.length + 1) 4 pathMax exampleHome [],
      sharedHost, ⟨zeros sizeofHeader, false⟩⟩).2 = p at htraversal hinbox
  obtain ⟨ws, hspoken⟩ := htraversal.spoken
  have hlink : p.link = ⟨[], false⟩ := by
    have hclosed := hspoken.closed
    cases hp : p.link
    simp_all
  have hcalls : (serverTraverseFile md5OfX (exampleHome.length + 1) 4 pathMax exampleHome []).Calls
    TraverseCall :=
    calls_serverTraverseFile sendCalls_traverseCall (fun _ => trivial)
      (fun _ => trivial) pathMax exampleHome []
  obtain ⟨h', hthere⟩ := hspoken.transfer agree_traverseCall hcalls hw.atTraversal_fs
  obtain ⟨out', hpulled⟩ := hthere.exec
  have hfs := (run_calls (keeps_treeFs sharedHost.fs) hpulled hcalls hw.atTraversal_fs).2
  simp only [hlink] at hpulled
  have hsent : Exec host ⟨sendOk (entered w.server 4 accountOfUser) 4 [{ inode := 3, path := [0x66] }], h',
      ⟨[], false⟩⟩ (setStatus (h'.stale sizeofHeader).val statusOk)
      ⟨ret { entered w.server 4 accountOfUser with
        hl := Function.update w.server.hl 4 [{ inode := 3, path := [0x66] }] }, h'.tick, ⟨[], false⟩⟩ :=
    Exec.after (exec_stale sizeofHeader) ((exec_sendMessage rfl).bind _)
  have hok : Exec host ⟨behindTraversal w.server 4 accountOfUser [{ inode := 3, path := [0x66] }], h',
    ⟨[], false⟩⟩
      (setStatus (h'.stale sizeofHeader).val statusOk) ⟨ret { entered w.server 4 accountOfUser with
        hl := Function.update w.server.hl 4 [{ inode := 3, path := [0x66] }]
        clientNum := w.server.clientNum + 1 }, h'.tick, ⟨[], false⟩⟩ :=
    Exec.seq hsent (.refl _)
  have hrun := hlogin.trans (Exec.seq hpulled hok)
  refine ⟨_, hw.turn hrun, ?_, ?_, ?_, ?_, ?_, ?_, ?_, ?_⟩
  · exact hfs
  · exact hw.path
  · exact hw.accountPath
  · exact hw.listenFd
  · exact hw.maxfd
  · exact hw.opened
  · simp [Service.handled]
  · simp [Service.handled]

-- A session has pulled the tree: a second login on its connection, and a login on the next
-- connection with its descriptor.
theorem pull_same_after_hangup : ∃ h h' : Host TreeFs,
    Comes md5OfX 4 exampleHome [{ inode := 3, path := [0x66] }] h ∧
      Comes md5OfX 4 exampleHome [{ inode := 3, path := [0x66] }] h' ∧
        SameMessages md5OfX 4 exampleHome [{ inode := 3, path := [0x66] }]
            [{ inode := 3, path := [0x66] }] h h' := by
  obtain ⟨v, hv⟩ := resting_accepted.session
  obtain ⟨w, hw⟩ := hv.reconnect
  have hfs := hw.atTraversal_fs.trans hv.atTraversal_fs.symm
  refine ⟨_, _, hv.comes, hw.comes, (pull_same_iff treeFs_unshared hv.comes hw.comes hfs).mpr ?_⟩
  exact fun us v vs _ _ => ⟨Iff.rfl, fun _ _ _ => rfl⟩

-- After a session that pulled the tree, the next one on the descriptor is sent a link to
-- the file itself.
theorem pull_remembers_session : ∃ (hl hl' : List HardLink) (h h' : Host TreeFs),
    Comes md5OfX 4 exampleHome hl h ∧ Comes md5OfX 4 exampleHome hl' h' ∧ h'.fs = h.fs ∧
      ¬SameMessages md5OfX 4 exampleHome hl hl' h h' := by
  obtain ⟨v, hv⟩ := resting_accepted.session
  obtain ⟨w, hw⟩ := hv.reconnect
  have hfs := hw.atTraversal_fs.trans resting_accepted.atTraversal_fs.symm
  refine ⟨_, _, _, _, resting_accepted.comes, hw.comes, hfs, fun hsame => ?_⟩
  have hagree := (sameMessages_iff treeFs_unshared resting_accepted.comes.short hw.comes.short hfs).mp hsame
  rw [resting_accepted.atTraversal_fs] at hagree
  have hfirst : ∃ v vs, course sharedHost.fs pathMax exampleHome = some v :: vs ∧ linked v.st.val = true ∧
      stIno v.st.val = 3 := by
    have hsome : (course sharedHost.fs pathMax exampleHome).head?.map (fun v => v.map fun v =>
        (linked v.st.val, stIno v.st.val)) = some (some (true, 3)) := by decide +kernel
    cases hcourse : course sharedHost.fs pathMax exampleHome with
    | nil => simp [hcourse] at hsome
    | cons v vs =>
        cases v with
        | none => simp [hcourse] at hsome
        | some v =>
            simp only [hcourse, List.head?_cons, Option.map_some, Option.some.injEq, Prod.mk.injEq] at hsome
            exact ⟨v, vs, rfl, hsome⟩
  obtain ⟨v, vs, hcourse, hlinked, hinode⟩ := hfirst
  have hknown := (hagree [] v vs hcourse (by simp)).2 (room_nil _) hlinked (by decide)
  rw [hinode] at hknown
  exact absurd hknown (by decide)

end Instances

end Csiebox.Traverse
