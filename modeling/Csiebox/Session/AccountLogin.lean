import Csiebox.Session.Accounts
import Csiebox.Service.Lemmas

namespace Csiebox.Session

open CBytes Program Prog

section Request

variable {md5 : Bytes → Mem 16} {arg : ClientArg} {connFd : Nat}

-- The configured name and password.
def ClientArg.configUser (arg : ClientArg) : Bytes := cString (arg .user).val

def ClientArg.configPasswd (arg : ClientArg) : Bytes := cString (arg .passwd).val

-- A string that starts in a full array runs on.
theorem cString_array {array : Bytes} {n : Nat} (hlen : array.length = n) (rest : Bytes) :
    cString (array ++ rest) =
      cString array ++ if (cString array).length < n then [] else cString rest := by
  by_cases hnul : (0 : UInt8) ∈ array
  · have hshort : (cString array).length < n := by
      rw [← hlen]
      by_contra hle
      have hprefix : cString array <+: array := List.takeWhile_prefix _
      have heq := hprefix.eq_of_length_le (Nat.not_lt.mp hle)
      rw [← heq] at hnul
      exact cString_nonzero 0 hnul rfl
    rw [cString_append_of_nul hnul, if_pos hshort, List.append_nil]
  · have hall : cString array = array := cString_eq_self fun b hb hzero => hnul (hzero ▸ hb)
    rw [cString_append_of_noNul hnul, hall, if_neg (by rw [hlen]; exact lt_irrefl n)]

theorem headD_zero_iff {bs : Bytes} (hne : bs ≠ []) : bs.headD 0 = 0 ↔ bs.head? = some 0 := by
  obtain ⟨b, bs, rfl⟩ := List.exists_cons_of_ne_nil hne
  simp

theorem configUser_length (arg : ClientArg) : (ClientArg.configUser arg).length ≤ userLenMax := by
  have hprefix : cString (arg .user).val <+: (arg .user).val := List.takeWhile_prefix _
  exact hprefix.length_le.trans (arg .user).property.le

-- The request carries name and password unchanged: they end in their arrays, or
-- what lies behind them happens to end them.
structure Transmits (md5 : Bytes → Mem 16) (arg : ClientArg) : Prop where
  user : (ClientArg.configUser arg).length < userLenMax ∨
    userLenMax + (ClientArg.configPasswd arg).length ≤ sizeofLogin - sizeofHeader ∧
      (md5 (ClientArg.configPasswd arg)).val.head? = some 0
  passwd : (ClientArg.configPasswd arg).length < passwdLenMax ∨ (arg .path).val.head? = some 0

theorem passwdText_eq (arg : ClientArg) (connFd : Nat) :
    arg.passwdText connFd = ClientArg.configPasswd arg ++
      if (ClientArg.configPasswd arg).length < passwdLenMax then []
      else cString (arg.behindPasswd connFd) :=
  cString_array (arg .passwd).property (arg.behindPasswd connFd)

theorem userText_eq (arg : ClientArg) (connFd : Nat) :
    arg.userText connFd = ClientArg.configUser arg ++
      if (ClientArg.configUser arg).length < userLenMax then [] else arg.passwdText connFd :=
  cString_array (arg .user).property _

theorem behindPasswd_head (arg : ClientArg) (connFd : Nat) :
    (arg.behindPasswd connFd).head? = (arg .path).val.head? := by
  have hlen : (arg .path).val.length = pathMax := (arg .path).property
  have hpos : 0 < (arg .path).val.length := by
    rw [hlen]
    decide
  obtain ⟨b, bs, hpath⟩ := List.exists_cons_of_length_pos hpos
  rw [ClientArg.behindPasswd, hpath]
  rfl

-- The password is hashed as configured exactly when it ends.
theorem passwdText_eq_config_iff (arg : ClientArg) (connFd : Nat) :
    arg.passwdText connFd = ClientArg.configPasswd arg ↔
      (ClientArg.configPasswd arg).length < passwdLenMax ∨ (arg .path).val.head? = some 0 := by
  rw [passwdText_eq]
  split_ifs with hshort
  · simp [hshort]
  · have hne : arg.behindPasswd connFd ≠ [] := by simp [ClientArg.behindPasswd, leBytes]
    rw [← behindPasswd_head arg connFd, ← headD_zero_iff hne, ← cString_eq_nil_iff]
    simp [hshort]

-- What the server reads as the name: the digest lies behind a full array.
def serverUser (md5 : Bytes → Mem 16) (arg : ClientArg) (connFd : Nat) (rest : Bytes) : Bytes :=
  ClientArg.configUser arg ++
    if (ClientArg.configUser arg).length < userLenMax then []
    else cString ((md5 (arg.passwdText connFd)).val ++ rest)

theorem loginRequest_eq_some (md5 : Bytes → Mem 16)
    (hfits : sizeofHeader + (arg.userText connFd).length ≤ sizeofLogin) :
    ∃ body, arg.loginRequest md5 connFd = some (loginHead ++ body) ∧
      body.length = sizeofLogin - sizeofHeader ∧
      slice userLenMax 16 body = (md5 (arg.passwdText connFd)).val ∧
      ∀ stack, ∃ rest, cString (body ++ stack) = serverUser md5 arg connFd rest := by
  have hsmall : (arg.userText connFd).length ≤ 48 := by
    simp only [sizeofHeader, sizeofLogin] at hfits
    omega
  have huser := configUser_length arg
  have hbody : (overlay (zeros (sizeofLogin - sizeofHeader)) (arg.userText connFd)).length = 48 := by
    rw [overlay_length (by rw [zeros_length]; exact hsmall), zeros_length]
    rfl
  generalize hname : (overlay (zeros (sizeofLogin - sizeofHeader)) (arg.userText connFd)).take
    userLenMax = name
  have hnamelen : name.length = userLenMax := by
    rw [← hname, List.length_take, hbody]
    rfl
  generalize hrest : (overlay (zeros (sizeofLogin - sizeofHeader)) (arg.userText connFd)).drop
    (userLenMax + 16) = rest
  have hrestlen : rest.length = 2 := by
    rw [← hrest, List.length_drop, hbody]
    rfl
  refine ⟨name ++ ((md5 (arg.passwdText connFd)).val ++ rest), ?_, ?_, ?_, ?_⟩
  · simp only [ClientArg.loginRequest, if_pos hfits, hname, hrest]
  · simp [hnamelen, hrestlen, (md5 (arg.passwdText connFd)).property, userLenMax, sizeofLogin,
      sizeofHeader]
  · rw [slice_append_right hnamelen.le, hnamelen, Nat.sub_self,
      slice_append_left (by rw [(md5 _).property])]
    simpa [(md5 (arg.passwdText connFd)).property] using slice_full (md5 (arg.passwdText connFd)).val
  · intro stack
    refine ⟨rest ++ stack, ?_⟩
    have hself : cString (ClientArg.configUser arg) = ClientArg.configUser arg :=
      cString_eq_self cString_nonzero
    have hsplit : cString name = ClientArg.configUser arg := by
      rw [← hname, overlay, userText_eq]
      split_ifs with hshort
      · rw [List.append_nil, List.take_append, List.take_of_length_le hshort.le, zeros,
          List.drop_replicate, List.take_replicate]
        exact (cString_append_zeros _ _).trans hself
      · have hfull : (ClientArg.configUser arg).length = userLenMax :=
          huser.antisymm (Nat.not_lt.mp hshort)
        rw [List.append_assoc, List.take_left' hfull, hself]
    rw [List.append_assoc, List.append_assoc, cString_array hnamelen, hsplit, serverUser]

end Request

section Serve

variable {G : Type} [Posix G] {md5 : Bytes → Mem 16} {server : Server} {connFd : Nat} {h : Host G}
  {l : Link UInt8}

-- `handle_request` hands the request to `login`, and this answers OK and leaves `server'`.
def AnswersOk (md5 : Bytes → Mem 16) (server : Server) (connFd : Nat) (h : Host G) (req : Bytes)
    (server' : Server) : Prop :=
  Exec host ⟨handleRequest md5 server connFd, h, ⟨req, false⟩⟩ []
      ⟨login md5 server connFd req >>= fun server => openHome md5 server connFd, h.tick, ⟨[], false⟩⟩ ∧
    ∃ h', Exec host ⟨login md5 server connFd req, h.tick, ⟨[], false⟩⟩ (loginReply connFd)
      ⟨ret server', h', ⟨[], false⟩⟩

-- The account entry of a name, with the home directory that goes with it.
def Admits (md5 : Bytes → Mem 16) (server : Server) (user hash : Bytes) (text : List Bytes)
    (account : Bytes) : Prop :=
  findAccount md5 user (zeros sizeofAccount) text = (true, account) ∧
    hash = slice userLenMax 16 account ∧ account.length ≤ sizeofAccount ∧
    (homeOf server.path (cString account)).length < pathMax

theorem exec_login_ok {req account : Bytes} {fp : Nat} {content : Bytes} (hl : l.alive = true)
    (hread : Posix.fopenRead h.fs server.accountPath = some (fp, content))
    (hadmits : Admits md5 server (cString (loginUser req ++ h.fresh pathMax)) (loginPasswdHash req)
      (lines content) account) :
    Exec host ⟨login md5 server connFd req, h, l⟩ (loginReply connFd)
      ⟨ret (entered server connFd account), { h.tick with
        fs := (Posix.mkdir h.fs (homeOf server.path (cString account)) dirSFlag).2 }, l⟩ := by
  obtain ⟨hfound, hhash, hlen, hfits⟩ := hadmits
  have hstack : Exec host ⟨(sys (.uninit pathMax) : Code (Mem pathMax)), h, l⟩ []
      ⟨ret ⟨h.fresh pathMax, by simp [Host.fresh]⟩, h.tick, l⟩ := exec_sys rfl
  have hread' : Posix.fopenRead h.tick.fs server.accountPath = some (fp, content) := hread
  refine Exec.after hstack (Exec.after (exec_getAccountInfo hread') ?_)
  simp only [hfound, hhash, Bool.true_and, beq_self_eq_true, if_true]
  rw [checkSize_pos hlen, ret_bind]
  simp only [getUserHomedir, userString, clientUser]
  rw [checkSize_pos hfits, ret_bind, ret_bind]
  refine Exec.after (exec_sys rfl) ?_
  exact (exec_sendMessage hl).bind _

-- Everything else is answered FAIL, or ends in an overrun.
theorem exec_login_other {req : Bytes} {fp : Nat} {content : Bytes} (hl : l.alive = true)
    (hread : Posix.fopenRead h.fs server.accountPath = some (fp, content))
    (hadmits : ∀ account, ¬Admits md5 server (cString (loginUser req ++ h.fresh pathMax))
      (loginPasswdHash req) (lines content) account) :
    (∃ h', Exec host ⟨login md5 server connFd req, h, l⟩ (header magicRes opLogin statusFail 0 0)
      ⟨ret server, h', l⟩) ∨
      ∃ h', Exec host ⟨login md5 server connFd req, h, l⟩ [] ⟨halt .overrun, h', l⟩ := by
  have hstack : Exec host ⟨(sys (.uninit pathMax) : Code (Mem pathMax)), h, l⟩ []
      ⟨ret ⟨h.fresh pathMax, by simp [Host.fresh]⟩, h.tick, l⟩ := exec_sys rfl
  have hread' : Posix.fopenRead h.tick.fs server.accountPath = some (fp, content) := hread
  cases hfind : findAccount md5 (cString (loginUser req ++ h.fresh pathMax)) (zeros sizeofAccount)
    (lines content) with
  | mk found account =>
      by_cases hlen : account.length ≤ sizeofAccount
      · by_cases hsucc : (found && loginPasswdHash req == slice userLenMax 16 account) = true
        · -- the home directory does not fit
          obtain ⟨hfound, hhash⟩ := Bool.and_eq_true_iff.mp hsucc
          have hlong : ¬(homeOf server.path (cString account)).length < pathMax := by
            intro hfits
            rw [hfound] at hfind
            exact hadmits account ⟨hfind, beq_iff_eq.mp hhash, hlen, hfits⟩
          refine .inr ⟨h.tick, Exec.after hstack (Exec.after (exec_getAccountInfo hread') ?_)⟩
          simp only [hfind, hsucc, if_true]
          rw [checkSize_pos hlen, ret_bind]
          simp only [getUserHomedir, userString, clientUser]
          rw [checkSize_neg hlong]
          exact .refl _
        · refine .inl ⟨h.tick, Exec.after hstack (Exec.after (exec_getAccountInfo hread') ?_)⟩
          simp only [hfind]
          rw [checkSize_pos hlen, ret_bind, if_neg hsucc]
          exact (exec_sendMessage hl).bind _
      · refine .inr ⟨h.tick, Exec.after hstack (Exec.after (exec_getAccountInfo hread') ?_)⟩
        simp only [hfind]
        rw [checkSize_neg hlen]
        exact .refl _

-- A complete LOGIN message reaches `login` as it was sent.
theorem exec_toLogin {body : Bytes} (hbody : body.length = sizeofLogin - sizeofHeader) (h : Host G) :
    Exec host ⟨handleRequest md5 server connFd, h, ⟨loginHead ++ body, false⟩⟩ []
      ⟨login md5 server connFd (loginHead ++ body) >>= fun server => openHome md5 server connFd,
        h.tick, ⟨[], false⟩⟩ := by
  have hhead : loginHead.length = sizeofHeader := header_length ..
  have hdatalen : body.length = headerDatalen loginHead :=
    hbody.trans (headerDatalen_header magicReq opLogin 0 0 _ (by decide)).symm
  unfold handleRequest
  refine Exec.after (exec_recvMessage_full _ hhead (zeros_length _) (by decide)) ?_
  have hmagic : headerMagic loginHead = magicReq := headerMagic_header ..
  simp only [if_true, hmagic, ne_eq, not_true_eq_false, if_false]
  rw [dispatch_login (headerOp_header ..)]
  have huninit : Exec host ⟨(sys (.uninit sizeofLogin) : Code (Mem sizeofLogin)), h, ⟨body, false⟩⟩ []
      ⟨ret ⟨h.fresh sizeofLogin, by simp [Host.fresh]⟩, h.tick, ⟨body, false⟩⟩ := exec_sys rfl
  refine Exec.after huninit ?_
  have hfit : (h.fresh sizeofLogin).length = sizeofHeader + body.length := by
    rw [hbody]
    simp [Host.fresh, sizeofLogin, sizeofHeader]
  have hcomplete := exec_completeMessage (K := host) (s := h.tick) (c := false) [] hdatalen hhead hfit
  rw [List.append_nil] at hcomplete
  exact Exec.after hcomplete (.refl _)

theorem ret_inj {α : Type} {a b : α} (h : (ret a : Code α) = ret b) : a = b := by
  cases h
  rfl

theorem answersOk_iff {body : Bytes} {fp : Nat} {content : Bytes}
    (hbody : body.length = sizeofLogin - sizeofHeader)
    (hread : Posix.fopenRead h.fs server.accountPath = some (fp, content)) (server' : Server) :
    AnswersOk md5 server connFd h (loginHead ++ body) server' ↔
      ∃ account, Admits md5 server (cString (body ++ h.tick.fresh pathMax)) (slice userLenMax 16 body)
        (lines content) account ∧ server' = entered server connFd account := by
  have hread' : Posix.fopenRead h.tick.fs server.accountPath = some (fp, content) := hread
  have huser : loginUser (loginHead ++ body) = body := loginUser_body (header_length ..)
  have hhash : loginPasswdHash (loginHead ++ body) = slice userLenMax 16 body := by
    rw [loginPasswdHash, slice_append_right (by rw [header_length]; decide), header_length]
    rfl
  constructor
  · rintro ⟨-, h', hok⟩
    by_cases hadmits : ∃ account, Admits md5 server
        (cString (loginUser (loginHead ++ body) ++ h.tick.fresh pathMax))
        (loginPasswdHash (loginHead ++ body)) (lines content) account
    · obtain ⟨account, hadmit⟩ := hadmits
      have hlogin : Exec host ⟨login md5 server connFd (loginHead ++ body), h.tick, ⟨[], false⟩⟩
          (loginReply connFd) ⟨ret (entered server connFd account), _, ⟨[], false⟩⟩ :=
        exec_login_ok rfl hread' hadmit
      obtain ⟨-, hsame⟩ := hok.unique hlogin rfl rfl
      rw [huser, hhash] at hadmit
      exact ⟨account, hadmit, ret_inj (congrArg Proc.prog hsame)⟩
    · rw [not_exists] at hadmits
      exfalso
      rcases exec_login_other (l := ⟨[], false⟩) rfl hread' hadmits with ⟨h'', hlogin⟩ | ⟨h'', hlogin⟩
      · obtain ⟨hreply, -⟩ := hok.unique hlogin rfl rfl
        have hstatus := congrArg headerStatus hreply
        rw [headerStatus_header, headerStatus_header] at hstatus
        exact absurd hstatus (by decide)
      · obtain ⟨hreply, -⟩ := hok.unique hlogin rfl rfl
        have hlen := congrArg List.length hreply
        rw [header_length] at hlen
        exact absurd hlen (by decide)
  · rintro ⟨account, hadmit, rfl⟩
    refine ⟨exec_toLogin hbody h, _, exec_login_ok rfl hread' ?_⟩
    rwa [huser, hhash]

end Serve

section Exact

variable {G : Type} [Posix G]

-- The login of a configured client succeeds.
def LoginOk (md5 : Bytes → Mem 16) (server : Server) (connFd : Nat) (h : Host G) (arg : ClientArg)
    (clientFd : Nat) (server' : Server) : Prop :=
  ∃ req, arg.loginRequest md5 clientFd = some req ∧ AnswersOk md5 server connFd h req server'

-- Logins succeed for the listed pairs alone, and lead into the user's home.
def LoginExact (md5 : Bytes → Mem 16) (server : Server) (connFd : Nat) (h : Host G)
    (file : AccountFile) (arg : ClientArg) (clientFd : Nat) : Prop :=
  ((∃ server', LoginOk md5 server connFd h arg clientFd server') ↔
      file.Lists (ClientArg.configUser arg) (ClientArg.configPasswd arg)) ∧
    ∀ server', LoginOk md5 server connFd h arg clientFd server' →
      getUserHomedir server' (server'.client connFd) =
        ret (homeOf server.path (ClientArg.configUser arg))

-- The file shows the pair, the request carries it, and the home directory fits.
structure Shown (md5 : Bytes → Mem 16) (server : Server) (file : AccountFile) (arg : ClientArg) :
    Prop where
  shows : file.Shows (ClientArg.configUser arg) (ClientArg.configPasswd arg)
  transmits : Transmits md5 arg
  fits : (homeOf server.path (ClientArg.configUser arg)).length < pathMax

variable {md5 : Bytes → Mem 16} {server : Server} {connFd clientFd : Nat} {h : Host G}
  {file : AccountFile} {arg : ClientArg}

-- The entry that `get_account_info` fills in.
def accountEntry (md5 : Bytes → Mem 16) (user passwd : Bytes) : Bytes :=
  user ++ zeros (userLenMax - user.length) ++ (md5 passwd).val ++ zeros 2

theorem slice_accountEntry {user : Bytes} (huser : user.length ≤ userLenMax) (passwd : Bytes) :
    slice userLenMax 16 (accountEntry md5 user passwd) = (md5 passwd).val := by
  have hname : (user ++ zeros (userLenMax - user.length)).length = userLenMax := by
    rw [List.length_append, zeros_length]
    omega
  rw [accountEntry, List.append_assoc, slice_append_right hname.le, hname, Nat.sub_self,
    slice_append_left (by rw [(md5 passwd).property])]
  simpa [(md5 passwd).property] using slice_full (md5 passwd).val

theorem cString_accountEntry {user : Bytes} (huser : user.length ≤ userLenMax)
    (hnul : ∀ b ∈ user, b ≠ 0) (passwd : Bytes) :
    cString (accountEntry md5 user passwd) =
      user ++ if user.length < userLenMax then [] else cString ((md5 passwd).val ++ zeros 2) := by
  have hname : (user ++ zeros (userLenMax - user.length)).length = userLenMax := by
    rw [List.length_append, zeros_length]
    omega
  rw [accountEntry, List.append_assoc, cString_array hname, cString_append_zeros, cString_eq_self hnul]

-- The names the search can find are those of the file.
theorem admits_iff {user hash account : Bytes} (hnul : (0 : UInt8) ∉ user) :
    Admits md5 server user hash (lines file.text) account ↔
      ∃ p, file.Shows user p ∧ hash = (md5 p).val ∧ account = accountEntry md5 user p ∧
        (homeOf server.path (cString account)).length < pathMax := by
  obtain ⟨hsome, hnone⟩ := findAccount_text md5 file.terminated file.lines hnul
    (rfl : overlay (zeros sizeofAccount) user = _)
  have hshort : ∀ {p}, file.Shows user p → user.length ≤ userLenMax := by
    rintro p ⟨-, before, a, after, -, -, rfl, -⟩
    exact a.userField.short
  have hshows : ∀ {p}, file.Shows user p ↔ shownFor file.terminated user file.lines = some p :=
    (shownFor_eq_some_iff file.distinct).symm
  have hentry : ∀ {p}, file.Shows user p →
      findAccount md5 user (zeros sizeofAccount) (lines file.text) =
        (true, accountEntry md5 user p) := by
    intro p hp
    obtain ⟨htake, hdrop⟩ := filled_account (hshort hp)
    rw [AccountFile.text, hsome p (hshows.mp hp), htake, hdrop]
    rfl
  constructor
  · rintro ⟨hfound, hhash, -, hfits⟩
    cases hfor : shownFor file.terminated user file.lines with
    | none =>
        have hfalse := hnone hfor
        rw [← AccountFile.text, hfound] at hfalse
        simp at hfalse
    | some p =>
        have hp := hshows.mpr hfor
        obtain ⟨-, haccount⟩ := Prod.ext_iff.mp (hfound.symm.trans (hentry hp))
        simp only at haccount
        refine ⟨p, hp, ?_, haccount, hfits⟩
        rw [hhash, haccount, slice_accountEntry (hshort hp)]
  · rintro ⟨p, hp, rfl, rfl, hfits⟩
    refine ⟨hentry hp, (slice_accountEntry (hshort hp) p).symm, ?_, hfits⟩
    exact (account_length (hshort hp) (md5 p)).le

theorem AccountFile.Shows.user_length {user passwd : Bytes} (h : file.Shows user passwd) :
    user.length ≤ userLenMax := by
  obtain ⟨-, before, a, after, -, -, rfl, -⟩ := h
  exact a.userField.short

theorem AccountFile.Shows.passwd_length {user passwd : Bytes} (h : file.Shows user passwd) :
    passwd.length ≤ passwdLenMax := by
  obtain ⟨-, before, a, after, -, -, -, rfl⟩ := h
  have hprefix : shownPasswd file.terminated after a.passwd <+: a.passwd := by
    unfold shownPasswd
    split_ifs
    · exact (List.takeWhile_prefix _).trans (List.dropLast_prefix _)
    · exact List.takeWhile_prefix _
  exact hprefix.length_le.trans a.passwdField.short

-- The name the server reads is the configured one if it can be found at all.
theorem serverUser_found {rest passwd : Bytes}
    (h : file.Shows (serverUser md5 arg clientFd rest) passwd) :
    serverUser md5 arg clientFd rest = ClientArg.configUser arg ∧
      ((ClientArg.configUser arg).length < userLenMax ∨
        (md5 (arg.passwdText clientFd)).val.head? = some 0) := by
  have hlen := h.user_length
  by_cases hshort : (ClientArg.configUser arg).length < userLenMax
  · rw [serverUser, if_pos hshort, List.append_nil]
    exact ⟨rfl, .inl hshort⟩
  · rw [serverUser, if_neg hshort] at hlen ⊢
    have hnone : cString ((md5 (arg.passwdText clientFd)).val ++ rest) = [] := by
      rw [List.length_append] at hlen
      exact List.eq_nil_of_length_eq_zero (by omega)
    rw [hnone, List.append_nil]
    refine ⟨rfl, .inr ?_⟩
    have hdigest := (md5 (arg.passwdText clientFd)).property
    obtain ⟨b, bs, hb⟩ := List.exists_cons_of_length_pos (l := (md5 (arg.passwdText clientFd)).val)
      (by rw [hdigest]; decide)
    have hhead := (headD_zero_iff (by simp [hb])).mp (cString_eq_nil_iff.mp hnone)
    rw [hb] at hhead ⊢
    exact hhead

theorem loginOk_shown {fp : Nat}
    (hread : Posix.fopenRead h.fs server.accountPath = some (fp, file.text))
    (hinj : ∀ p, file.Shows (ClientArg.configUser arg) p →
      md5 p = md5 (arg.passwdText clientFd) → p = arg.passwdText clientFd) {server' : Server}
    (hin : LoginOk md5 server connFd h arg clientFd server') :
    Shown md5 server file arg ∧ server' = entered server connFd
      (accountEntry md5 (ClientArg.configUser arg) (ClientArg.configPasswd arg)) := by
  obtain ⟨req, hreq, hanswer⟩ := hin
  have hfits : sizeofHeader + (arg.userText clientFd).length ≤ sizeofLogin := by
    by_contra hlong
    rw [ClientArg.loginRequest, if_neg hlong] at hreq
    simp at hreq
  obtain ⟨body, hbody, hlen, hhash, hname⟩ := loginRequest_eq_some md5 hfits
  obtain rfl := Option.some.inj (hreq.symm.trans hbody)
  obtain ⟨account, hadmits, rfl⟩ := (answersOk_iff hlen hread server').mp hanswer
  obtain ⟨rest, hrest⟩ := hname (h.tick.fresh pathMax)
  have hnul : (0 : UInt8) ∉ serverUser md5 arg clientFd rest := by
    rw [← hrest]
    exact fun hmem => cString_nonzero 0 hmem rfl
  rw [hrest, hhash] at hadmits
  obtain ⟨p, hshows, hdigest, rfl, hhome⟩ := (admits_iff hnul).mp hadmits
  obtain ⟨huser, hends⟩ := serverUser_found hshows
  rw [huser] at hshows hhome ⊢
  have hp : p = arg.passwdText clientFd := hinj p hshows (Subtype.ext hdigest.symm)
  have hplen := hshows.passwd_length
  rw [hp, passwdText_eq] at hplen
  have hpasswd : arg.passwdText clientFd = ClientArg.configPasswd arg := by
    rw [passwdText_eq]
    split_ifs at hplen ⊢ with hshort
    · exact List.append_nil _
    · have hnone : cString (arg.behindPasswd clientFd) = [] := by
        rw [List.length_append] at hplen
        exact List.eq_nil_of_length_eq_zero (by omega)
      rw [hnone, List.append_nil]
  rw [hp, hpasswd] at hshows hhome ⊢
  have huserlen := configUser_length arg
  refine ⟨⟨hshows, ⟨?_, (passwdText_eq_config_iff arg clientFd).mp hpasswd⟩, ?_⟩, rfl⟩
  · rcases hends with hshort | hzero
    · exact .inl hshort
    · by_cases hshort : (ClientArg.configUser arg).length < userLenMax
      · exact .inl hshort
      · rw [hpasswd] at hzero
        refine .inr ⟨?_, hzero⟩
        rw [userText_eq, if_neg hshort, hpasswd, List.length_append] at hfits
        simp only [sizeofHeader, sizeofLogin] at hfits ⊢
        omega
  · refine lt_of_le_of_lt ?_ hhome
    rw [cString_accountEntry huserlen cString_nonzero]
    simp only [homeOf, List.length_append, List.length_cons]
    omega

-- A name in a full array ends where its digest begins.
theorem Transmits.serverUser (ht : Transmits md5 arg)
    (hpasswd : arg.passwdText clientFd = ClientArg.configPasswd arg) (rest : Bytes) :
    Session.serverUser md5 arg clientFd rest = ClientArg.configUser arg := by
  rw [Session.serverUser]
  split_ifs with hshort
  · exact List.append_nil _
  · obtain ⟨-, hzero⟩ := ht.user.resolve_left hshort
    rw [hpasswd]
    obtain ⟨bs, hbs⟩ := List.head?_eq_some_iff.mp hzero
    rw [hbs]
    exact List.append_nil _

theorem Transmits.home (ht : Transmits md5 arg) :
    cString (accountEntry md5 (ClientArg.configUser arg) (ClientArg.configPasswd arg)) =
      ClientArg.configUser arg := by
  rw [cString_accountEntry (configUser_length arg) cString_nonzero]
  split_ifs with hshort
  · exact List.append_nil _
  · obtain ⟨-, hzero⟩ := ht.user.resolve_left hshort
    obtain ⟨bs, hbs⟩ := List.head?_eq_some_iff.mp hzero
    rw [hbs]
    exact List.append_nil _

theorem Shown.loginOk {fp : Nat}
    (hread : Posix.fopenRead h.fs server.accountPath = some (fp, file.text))
    (hshown : Shown md5 server file arg) :
    LoginOk md5 server connFd h arg clientFd (entered server connFd
      (accountEntry md5 (ClientArg.configUser arg) (ClientArg.configPasswd arg))) := by
  have hpasswd := (passwdText_eq_config_iff arg clientFd).mpr hshown.transmits.passwd
  have hfits : sizeofHeader + (arg.userText clientFd).length ≤ sizeofLogin := by
    have huser := configUser_length arg
    rw [userText_eq, hpasswd, List.length_append]
    split_ifs with hshort
    · simp only [sizeofHeader, sizeofLogin, userLenMax, List.length_nil] at huser ⊢
      omega
    · have hroom := (hshown.transmits.user.resolve_left hshort).1
      simp only [sizeofHeader, sizeofLogin, userLenMax] at huser hroom ⊢
      omega
  obtain ⟨body, hbody, hlen, hhash, hname⟩ := loginRequest_eq_some md5 hfits
  obtain ⟨rest, hrest⟩ := hname (h.tick.fresh pathMax)
  refine ⟨_, hbody, (answersOk_iff hlen hread _).mpr ⟨_, ?_, rfl⟩⟩
  have huser := hshown.transmits.serverUser hpasswd rest
  rw [hrest, hhash, huser, hpasswd]
  have hnul : (0 : UInt8) ∉ ClientArg.configUser arg := fun hmem => cString_nonzero 0 hmem rfl
  refine (admits_iff hnul).mpr ⟨_, hshown.shows, rfl, rfl, ?_⟩
  rw [hshown.transmits.home]
  exact hshown.fits

end Exact

-- Logins are exact where a listed pair is shown and sent as it stands, and one that
-- is not listed is not.
theorem login_exact_iff {G : Type} [Posix G] {md5 : Bytes → Mem 16} {server : Server}
    {connFd clientFd : Nat} {h : Host G} {file : AccountFile} {arg : ClientArg} {fp : Nat}
    (hread : Posix.fopenRead h.fs server.accountPath = some (fp, file.text))
    (hinj : ∀ p, file.Shows (ClientArg.configUser arg) p →
      md5 p = md5 (arg.passwdText clientFd) → p = arg.passwdText clientFd) :
    LoginExact md5 server connFd h file arg clientFd ↔
      (file.Lists (ClientArg.configUser arg) (ClientArg.configPasswd arg) →
        Shown md5 server file arg) ∧
      (¬file.Lists (ClientArg.configUser arg) (ClientArg.configPasswd arg) →
        ¬Shown md5 server file arg) := by
  have hin : (∃ server', LoginOk md5 server connFd h arg clientFd server') ↔
      Shown md5 server file arg := by
    constructor
    · rintro ⟨server', hserver'⟩
      exact (loginOk_shown hread hinj hserver').1
    · intro hshown
      exact ⟨_, hshown.loginOk hread⟩
  have hhome : ∀ server', LoginOk md5 server connFd h arg clientFd server' →
      getUserHomedir server' (server'.client connFd) =
        ret (homeOf server.path (ClientArg.configUser arg)) := by
    intro server' hserver'
    obtain ⟨hshown, hserver⟩ := loginOk_shown hread hinj hserver'
    have hentry : userString server' (server'.client connFd) = some (ClientArg.configUser arg) := by
      rw [hserver]
      simp only [entered, Function.update_self, userString, clientUser, hshown.transmits.home]
    have hpath : server'.path = server.path := by
      rw [hserver]
      rfl
    have hfits := hshown.fits
    rw [← hpath] at hfits
    rw [getUserHomedir, hentry]
    dsimp only
    rw [checkSize_pos hfits, ret_bind, hpath]
  rw [LoginExact, hin]
  constructor
  · rintro ⟨hiff, -⟩
    exact ⟨hiff.mpr, fun hno hshown => hno (hiff.mp hshown)⟩
  · rintro ⟨hlisted, hother⟩
    refine ⟨⟨fun hshown => ?_, hlisted⟩, hhome⟩
    by_contra hno
    exact hother hno hshown

section Instances

-- The accounts "u,p", with a newline behind them or without.
def accountU : Account where
  user := [0x75]
  passwd := [0x70]
  userField := ⟨by decide, by decide, by decide, by decide⟩
  passwdField := ⟨by decide, by decide, by decide, by decide⟩

def fileOfU (terminated : Bool) : AccountFile := ⟨[some accountU], terminated, by decide⟩

-- name=n, server=s, user=u, passwd=p, path=c
def configOfU : Bytes :=
  Field.name.key ++ [0x3d, 0x6e, newline] ++ Field.server.key ++ [0x3d, 0x73, newline] ++
    Field.user.key ++ [0x3d, 0x75, newline] ++ Field.passwd.key ++ [0x3d, 0x70, newline] ++
      Field.path.key ++ [0x3d, 0x63, newline]

theorem configOfU_accepted : ∃ arg, parseArg configOfU = some arg ∧
    ClientArg.configUser arg = [0x75] ∧ ClientArg.configPasswd arg = [0x70] := by
  have hparse : (parseArg configOfU).map (fun arg => (ClientArg.configUser arg,
      ClientArg.configPasswd arg)) = some ([0x75], [0x70]) := by
    decide +kernel
  obtain ⟨arg, harg, hpair⟩ := Option.map_eq_some_iff.mp hparse
  exact ⟨arg, harg, (Prod.ext_iff.mp hpair).1, (Prod.ext_iff.mp hpair).2⟩

theorem fileOfU_lists (terminated : Bool) : (fileOfU terminated).Lists [0x75] [0x70] :=
  ⟨accountU, List.mem_singleton_self _, rfl, rfl⟩

theorem fileOfU_shows_iff {terminated : Bool} {passwd : Bytes} :
    (fileOfU terminated).Shows [0x75] passwd ↔ terminated = true ∧ passwd = [0x70] := by
  rw [AccountFile.Shows, ← shownFor_eq_some_iff (fileOfU terminated).distinct]
  cases terminated with
  | true => simp [fileOfU, shownFor, accountU, shownPasswd, cString, eq_comm]
  | false => simp [fileOfU, shownFor, accountU, shownPasswd, cString]

def loginServer : Server where
  path := [0x73]
  accountPath := [0x61]
  nullUser := none
  client := fun _ => none
  clientNum := 0
  masterset := fun _ => true
  hl := fun _ => []

theorem login_exact_user : ∃ arg, parseArg configOfU = some arg ∧
    LoginExact md5OfX loginServer 4 accountHost (fileOfU true) arg 5 := by
  obtain ⟨arg, harg, huser, hpasswd⟩ := configOfU_accepted
  refine ⟨arg, harg, ?_⟩
  have hread : Posix.fopenRead accountHost.fs loginServer.accountPath =
      some (0, (fileOfU true).text) := by
    decide +kernel
  have hends : (ClientArg.configPasswd arg).length < passwdLenMax := by
    rw [hpasswd]
    decide
  refine (login_exact_iff hread ?_).mpr ⟨fun _ => ⟨?_, ⟨?_, .inl hends⟩, ?_⟩, fun hno => ?_⟩
  · intro p hp _
    rw [huser] at hp
    rw [(fileOfU_shows_iff.mp hp).2, (passwdText_eq_config_iff arg 5).mpr (.inl hends), hpasswd]
  · rw [huser, hpasswd]
    exact fileOfU_shows_iff.mpr ⟨rfl, rfl⟩
  · rw [huser]
    exact .inl (by decide)
  · rw [huser]
    decide
  · rw [huser, hpasswd] at hno
    exact absurd (fileOfU_lists true) hno

-- Without a newline behind it the last password loses its last byte.
theorem unterminated_line_refused :
    ¬∀ (h : Host TreeFs) (file : AccountFile) (config : Bytes) (arg : ClientArg),
      parseArg config = some arg →
      Posix.fopenRead h.fs loginServer.accountPath = some (0, file.text) →
      (∀ p, file.Shows (ClientArg.configUser arg) p → md5OfX p = md5OfX (arg.passwdText 5) →
        p = arg.passwdText 5) → LoginExact md5OfX loginServer 4 h file arg 5 := by
  intro hall
  obtain ⟨arg, harg, huser, hpasswd⟩ := configOfU_accepted
  have hread : Posix.fopenRead (exampleHost (exampleFs [[⟨[0x61], by decide +kernel⟩]]
      fun _ => .file [0x75, 0x2c, 0x70])).fs loginServer.accountPath =
        some (0, (fileOfU false).text) := by
    decide +kernel
  have hnone : ∀ p, ¬(fileOfU false).Shows (ClientArg.configUser arg) p := by
    intro p hp
    rw [huser] at hp
    exact absurd (fileOfU_shows_iff.mp hp).1 (by decide)
  have hinj : ∀ p, (fileOfU false).Shows (ClientArg.configUser arg) p →
      md5OfX p = md5OfX (arg.passwdText 5) → p = arg.passwdText 5 :=
    fun p hp => absurd hp (hnone p)
  obtain ⟨hiff, -⟩ := hall _ _ _ arg harg hread hinj
  have hlists : (fileOfU false).Lists (ClientArg.configUser arg) (ClientArg.configPasswd arg) := by
    rw [huser, hpasswd]
    exact fileOfU_lists false
  obtain ⟨server', hin⟩ := hiff.mpr hlists
  exact hnone _ (loginOk_shown hread hinj hin).1.shows

end Instances

end Csiebox.Session
