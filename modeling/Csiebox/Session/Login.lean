import Csiebox.Session.Lemmas

namespace Csiebox.Session

open CBytes Program Prog

section Account

variable {md5 : Bytes → Mem 16} {user : Bytes}

theorem overlay_twice {buf got : Bytes} : overlay (overlay buf got) got = overlay buf got := by
  simp [overlay]

theorem filled_account (hshort : user.length ≤ userLenMax) :
    (overlay (zeros sizeofAccount) user).take userLenMax = user ++ zeros (userLenMax - user.length) ∧
      (overlay (zeros sizeofAccount) user).drop (userLenMax + 16) = zeros 2 := by
  have hsmall : user.length ≤ 30 := hshort
  have hnone : user.drop 46 = [] := List.drop_eq_nil_of_le (by omega)
  have hall : user.take 30 = user := List.take_of_length_le hsmall
  rw [userLenMax, sizeofAccount, overlay, zeros, zeros, zeros, List.take_append, List.drop_append,
    hall, hnone]
  refine ⟨?_, ?_⟩
  · simp only [List.drop_replicate, List.take_replicate]
    congr 2
    omega
  · simp only [List.drop_replicate, List.nil_append]
    congr 1
    omega

-- The account of a user whose line has been found.
theorem findAccount_found {info account : Bytes} {text : List Bytes} (hshort : user.length < userLenMax)
    (hinfo : overlay info user = overlay (zeros sizeofAccount) user)
    (hfound : findAccount md5 user info text = (true, account)) :
    ∃ passwd : Mem 16,
      account = user ++ zeros (userLenMax - user.length) ++ passwd.val ++ zeros 2 := by
  induction text generalizing info with
  | nil => simp [findAccount] at hfound
  | cons line rest ih =>
      rw [findAccount] at hfound
      split_ifs at hfound with hend
      · simp at hfound
      · split at hfound
        · exact ih hinfo hfound
        · split_ifs at hfound with huser
          · split at hfound
            · exact ih (overlay_twice.trans hinfo) hfound
            · rename_i passwd _ _
              simp only [Prod.mk.injEq, true_and] at hfound
              refine ⟨md5 passwd, ?_⟩
              rw [← hfound, hinfo, (filled_account hshort.le).1, (filled_account hshort.le).2]
          · exact ih hinfo hfound

theorem account_length (hshort : user.length ≤ userLenMax) (passwd : Mem 16) :
    (user ++ zeros (userLenMax - user.length) ++ passwd.val ++ zeros 2).length = sizeofAccount := by
  have hsmall : user.length ≤ 30 := hshort
  simp [passwd.property, userLenMax, sizeofAccount]
  omega

theorem cString_account (hshort : user.length < userLenMax) (hnul : ∀ b ∈ user, b ≠ 0)
    (rest : Bytes) : cString (user ++ zeros (userLenMax - user.length) ++ rest) = user := by
  obtain ⟨n, hn⟩ := Nat.exists_eq_add_of_lt hshort
  have hgap : zeros (userLenMax - user.length) = 0 :: zeros n := by
    rw [show userLenMax - user.length = n + 1 by omega]
    rfl
  rw [List.append_assoc, hgap]
  exact cString_append_zero hnul _

end Account

section Login

-- The server takes the client's name and password.
structure Accepted {G : Type} [Posix G] (md5 : Bytes → Mem 16) (server : Server) (g : G)
    (client : Client) : Prop where
  short : client.user.length < userLenMax
  noNul : ∀ b ∈ client.user, b ≠ 0
  found : ∃ fp content account, Posix.fopenRead g server.accountPath = some (fp, content) ∧
    findAccount md5 client.user (zeros sizeofAccount) (lines content) = (true, account) ∧
      slice userLenMax 16 account = (md5 client.passwd).val
  fits : (homeOf server.path client.user).length + 1 < pathMax

abbrev loginHead : Bytes := header magicReq opLogin 0 0 (sizeofLogin - sizeofHeader)

abbrev loginReply (connFd : Nat) : Bytes := header magicRes opLogin statusOk connFd 0

variable {F G : Type} [Posix F] [Posix G] {md5 : Bytes → Mem 16} {connFd : Nat} {server : Server}
  {client : Client}

theorem talk_login (md5 : Bytes → Mem 16) (connFd : Nat) (client : Client) (ch : Host F) :
    Talk host (client.login md5) ch
      [([], loginHead ++ loginBody (overlay (zeros userLenMax) client.user) (md5 client.passwd).val),
        (loginReply connFd, [])]
      (ret (some { client with clientId := headerClientId (loginReply connFd) })) ch := by
  have hsent : decide (0 < (loginMessage (overlay (zeros userLenMax) client.user)
      (md5 client.passwd).val).length) = true := by
    simp [loginMessage, sizeofHeader]
  have hround : Talk host (Client.loginRound client
      (loginMessage (overlay (zeros userLenMax) client.user) (md5 client.passwd).val) ()) ch
      [([], loginMessage (overlay (zeros userLenMax) client.user) (md5 client.passwd).val),
        (loginReply connFd, [])]
      (ret (.inr (some { client with clientId := headerClientId (loginReply connFd) }))) ch := by
    refine Talk.seq (talk_sendMessage _) ?_
    rw [hsent]
    exact (talk_recvMessage (header_length _ _ _ _ _) (zeros_length _) (by decide)).bind _
  exact talk_iter_done hround

theorem dispatch_login {head : Bytes} (hop : headerOp head = opLogin) :
    dispatch md5 server connFd head = loginRequest md5 server connFd head := by
  rw [dispatch, if_pos hop]

theorem loginBody_length (user : Bytes) (hash : Mem 16) (huser : user.length = userLenMax) :
    (loginBody user hash.val).length = sizeofLogin - sizeofHeader := by
  simp [loginBody, huser, hash.property, userLenMax, sizeofLogin, sizeofHeader]

theorem userArray_length (hshort : client.user.length < userLenMax) :
    (overlay (zeros userLenMax) client.user).length = userLenMax := by
  rw [overlay_length (by simpa using hshort.le), zeros_length]

-- The fields of a received login message.
theorem loginUser_body {head body : Bytes} (hhead : head.length = sizeofHeader) :
    loginUser (head ++ body) = body := by
  rw [loginUser, show 12 = head.length from hhead.symm, List.drop_left]

theorem loginPasswdHash_body {head user : Bytes} (hash : Mem 16) (hhead : head.length = sizeofHeader)
    (huser : user.length = userLenMax) :
    loginPasswdHash (head ++ loginBody user hash.val) = hash.val := by
  simp only [sizeofHeader, userLenMax] at hhead huser
  rw [loginPasswdHash, loginBody, slice_append_right (by omega), slice_append_right (by omega),
    slice_append_left (by rw [hash.property]; omega), hhead, huser]
  simpa [hash.property] using slice_full hash.val

-- The name the server reads, though what lies behind it is not terminated.
theorem cString_loginBody (hshort : client.user.length < userLenMax)
    (hnul : ∀ b ∈ client.user, b ≠ 0) (hash rest : Bytes) :
    cString (loginBody (overlay (zeros userLenMax) client.user) hash ++ rest) = client.user := by
  have harray : overlay (zeros userLenMax) client.user =
      client.user ++ zeros (userLenMax - client.user.length) := by
    rw [overlay, zeros, List.drop_replicate, zeros]
  rw [loginBody, harray, List.append_assoc]
  exact cString_account hshort hnul _

theorem exec_getAccountInfo {h : Host G} {l : Link UInt8} {user info : Bytes} {fp : Nat} {content : Bytes}
    (hread : Posix.fopenRead h.fs server.accountPath = some (fp, content)) :
    Exec host ⟨getAccountInfo md5 server user info, h, l⟩ []
      ⟨ret (findAccount md5 user info (lines content)), h, l⟩ := by
  refine Exec.after (exec_sys rfl) ?_
  simp only [hread]
  exact .refl _

-- The server as a successful login leaves it.
def entered (server : Server) (connFd : Nat) (account : Bytes) : Server :=
  { server with client := Function.update server.client connFd (some { account, connFd }) }

theorem entered_loggedIn (connFd : Nat) (passwd : Mem 16) (hshort : client.user.length < userLenMax)
    (hnul : ∀ b ∈ client.user, b ≠ 0) (hfits : (homeOf server.path client.user).length + 1 < pathMax) :
    LoggedIn (entered server connFd
      (client.user ++ zeros (userLenMax - client.user.length) ++ passwd.val ++ zeros 2)) connFd
      (homeOf server.path client.user) where
  entry := by
    refine ⟨_, Function.update_self .., ?_⟩
    rw [homeOf, clientUser, List.append_assoc, cString_account hshort hnul]
    rfl
  fits := hfits

theorem talk_serveLogin (connFd : Nat) {sh : Host G} (hin : Accepted md5 server sh.fs client) :
    ∃ (server' : Server) (k : Server → Code Unit), server'.hl = server.hl ∧
      LoggedIn server' connFd (homeOf server.path client.user) ∧
      (∀ (server : Server) (g : Host G), Exec host ⟨k server, g, ⟨[], false⟩⟩ []
        ⟨unroll (serveRound md5 connFd) server, g, ⟨[], false⟩⟩) ∧
      Talk host (unroll (serveRound md5 connFd) server) sh
        [(loginHead, []), (loginBody (overlay (zeros userLenMax) client.user) (md5 client.passwd).val,
          loginReply connFd)]
        (openHome md5 server' connFd >>= k)
        { sh.tick.tick with fs := (Posix.mkdir sh.fs (homeOf server.path client.user) dirSFlag).2 } := by
  obtain ⟨fp, content, account, hread, hfound, hpasswd⟩ := hin.found
  obtain ⟨passwd, rfl⟩ := findAccount_found hin.short rfl hfound
  have huser := userArray_length hin.short
  have hbody := loginBody_length _ (md5 client.passwd) huser
  obtain ⟨req, hreq⟩ := exec_uninit (h := sh) (l := ⟨loginBody (overlay (zeros userLenMax) client.user)
    (md5 client.passwd).val, false⟩) sizeofLogin
  have hcomplete := exec_completeMessage (K := host) (s := sh.tick) (c := false) []
    (hbody.trans (headerDatalen_header magicReq opLogin 0 0 _ (by decide)).symm)
    (header_length _ _ _ _ _) (req.property.trans (by rw [hbody]; rfl))
  rw [List.append_nil] at hcomplete
  obtain ⟨stack, hstack⟩ := exec_uninit (h := sh.tick) (l := ⟨[], false⟩) pathMax
  have hlogged := entered_loggedIn connFd passwd hin.short hin.noNul hin.fits
  have hlogin : Exec host ⟨login md5 server connFd (loginHead ++ loginBody
      (overlay (zeros userLenMax) client.user) (md5 client.passwd).val), sh.tick, ⟨[], false⟩⟩
      (loginReply connFd) ⟨ret (entered server connFd
        (client.user ++ zeros (userLenMax - client.user.length) ++ passwd.val ++ zeros 2)),
        { sh.tick.tick with fs := (Posix.mkdir sh.fs (homeOf server.path client.user) dirSFlag).2 },
        ⟨[], false⟩⟩ := by
    refine Exec.after hstack ?_
    simp only [loginUser_body (header_length _ _ _ _ _), cString_loginBody hin.short hin.noNul,
      loginPasswdHash_body (md5 client.passwd) (header_length _ _ _ _ _) huser]
    refine Exec.after (exec_getAccountInfo hread) ?_
    simp only [hfound, hpasswd, Bool.true_and, beq_self_eq_true, if_true]
    rw [checkSize_pos (account_length hin.short.le passwd).le, ret_bind]
    have hhome := getUserHomedir_eq hlogged
    simp only [entered, Function.update_self] at hhome ⊢
    rw [hhome, ret_bind]
    refine Exec.after (exec_sys rfl) ?_
    exact (exec_sendMessage rfl).bind _
  have hrequest : Talk host (dispatch md5 server connFd loginHead) sh
      [(loginBody (overlay (zeros userLenMax) client.user) (md5 client.passwd).val,
        loginReply connFd)] (openHome md5 (entered server connFd
          (client.user ++ zeros (userLenMax - client.user.length) ++ passwd.val ++ zeros 2)) connFd)
      { sh.tick.tick with fs := (Posix.mkdir sh.fs (homeOf server.path client.user) dirSFlag).2 } := by
    rw [dispatch_login rfl]
    exact .one (Exec.after hreq (Exec.after hcomplete (hlogin.bind _)))
  obtain ⟨k, hk, hround⟩ := talk_serve_part (header_length _ _ _ _ _) rfl hrequest
  exact ⟨entered server connFd _, k, rfl, hlogged, hk, hround⟩

theorem meets_login (head body reply : Bytes) :
    Meets [] [] [([], head ++ body), (reply, [])] [(head, []), (body, reply)] := by
  refine .left [] (by simp) (.right body (by simp) (.right [] (by simp) ?_))
  exact .left [] (by simp) .nil

-- Both ends behind a login: the client is about to look into its directory, the
-- server into the user's home.
theorem login_runs (connFd : Nat) {sh : Host G} (hin : Accepted md5 server sh.fs client) (ch : Host F) :
    ∃ (client' : Client) (server' : Server) (k : Server → Code Unit) (a b : Bytes),
      client'.path = client.path ∧ server'.hl = server.hl ∧
      LoggedIn server' connFd (homeOf server.path client.user) ∧
      (∀ (server : Server) (g : Host G), Exec host ⟨k server, g, ⟨[], false⟩⟩ []
        ⟨unroll (serveRound md5 connFd) server, g, ⟨[], false⟩⟩) ∧
      Runs (session md5 connFd server (startClient md5 client) ch sh [] [])
        ⟨initialSync md5 client' >>= fun client => ret (some client), ch,
          openHome md5 server' connFd >>= k, { sh.tick.tick with
            fs := (Posix.mkdir sh.fs (homeOf server.path client.user) dirSFlag).2 }, [], [], a, b⟩ := by
  obtain ⟨server', k, hhl, hlogged, hk, hserver⟩ := talk_serveLogin connFd hin
  have hclient : Talk host (startClient md5 client) ch _ (initialSync md5
      { client with clientId := headerClientId (loginReply connFd) } >>= fun client =>
        ret (some client)) ch := (talk_login md5 connFd client ch).bind _
  exact ⟨{ client with clientId := headerClientId (loginReply connFd) }, server', k, _, _, rfl, hhl,
    hlogged, hk, (meets_login ..).runs hclient hserver [] []⟩

end Login

end Csiebox.Session
