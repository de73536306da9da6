import Csiebox.Service.Bounds.Lemmas
import Csiebox.Service.Bounds.Replies

namespace Csiebox

open CBytes Program Prog

section Requests

variable {F : Type} [Posix F] {md5 : Bytes → Mem 16} {server : Server} {connFd : Nat} {info : ClientInfo}
  {h : Host F} {l : Link UInt8}

theorem requestHead_length (hlen : sizeofHeader ≤ l.inbox.length) :
    (requestHead l).length = sizeofHeader := List.length_take_of_le hlen

theorem exec_requestHead (hlen : sizeofHeader ≤ l.inbox.length) {α : Type} {f : Bool × Bytes → Code α} :
    Exec host ⟨recvMessage (zeros sizeofHeader) sizeofHeader >>= f, h, l⟩ []
      ⟨f (true, requestHead l), h, Link.skip l sizeofHeader⟩ := by
  have hhead := requestHead_length hlen
  have hrecv := exec_recvMessage_full (K := host) (s := h) (c := l.closed) (l.inbox.drop sizeofHeader)
    hhead (zeros_length sizeofHeader) (by decide)
  rw [requestHead, List.take_append_drop] at hrecv
  exact hrecv.bind f

theorem dispatch_ne_halt (hlen : sizeofHeader ≤ l.inbox.length) :
    dispatch md5 server connFd (requestHead l) ≠ halt .overrun := by
  have hsend : ∀ {α : Type} {f : Bool → Code α}, sendMessage (requestHead l) >>= f ≠ halt .overrun := by
    intro α f
    rw [sendMessage, if_neg (by rw [requestHead_length hlen]; decide)]
    rintro ⟨⟩
  unfold dispatch
  split_ifs
  · rintro ⟨⟩
  · exact bind_ne_halt hsend fun _ => by rintro ⟨⟩
  · exact bind_ne_halt hsend fun _ => by rintro ⟨⟩
  · exact bind_ne_halt hsend fun _ => by rintro ⟨⟩
  · rintro ⟨⟩

theorem exec_dispatch (hlen : sizeofHeader ≤ l.inbox.length)
    (hmagic : headerMagic (requestHead l) = magicReq) :
    Exec host ⟨handleRequest md5 server connFd, h, l⟩ []
      ⟨dispatch md5 server connFd (requestHead l), h, Link.skip l sizeofHeader⟩ := by
  have hrun := exec_requestHead (h := h) hlen (f := fun r =>
    if r.1 then
      if headerMagic r.2 ≠ magicReq then halt .threadExit else dispatch md5 server connFd r.2
    else ret (logout { server with clientNum := server.clientNum - 1 } connFd))
  rw [if_pos rfl, hmagic, if_neg (not_not_intro rfl)] at hrun
  exact hrun

theorem fits_handleRequest (hlen : sizeofHeader ≤ l.inbox.length)
    (hmagic : headerMagic (requestHead l) = magicReq) :
    FitsHost (handleRequest md5 server connFd) h l ↔
      FitsHost (dispatch md5 server connFd (requestHead l)) h (Link.skip l sizeofHeader) := by
  refine ⟨fun hfits => hfits.along (exec_dispatch hlen hmagic), fun hfits => ?_⟩
  have hhead := requestHead_length hlen
  unfold handleRequest
  rw [recvMessage, if_neg (by decide), bind_assoc, fits_hear_received]
  refine ⟨⟨zeros sizeofHeader, zeros_length _, by rintro ⟨⟩⟩, fun got hgot => ?_⟩
  rw [received, if_pos (.inl hlen)] at hgot
  obtain rfl : requestHead l = got := Option.some.inj hgot
  have hbeq : ((requestHead l).length == sizeofHeader) = true := beq_iff_eq.mpr hhead
  have hoverlay : overlay (zeros sizeofHeader) (requestHead l) = requestHead l :=
    overlay_full (by rw [hhead, zeros_length])
  rw [bind_assoc, checkSize_pos (by rw [hhead, zeros_length]), ret_bind, ret_bind, hbeq, hoverlay]
  simp only [if_true, hmagic, ne_eq, not_true, if_false]
  exact ⟨dispatch_ne_halt hlen, hfits⟩

theorem fits_changes (hentry : server.client connFd = some info) (hchanges : Changes l) :
    FitsHost (handleRequest md5 server connFd) h l ↔ RequestFits md5 (baseOf server info) h l := by
  have hret : ∀ (a : Unit) (h : Host F) l, FitsHost (ret server : Code Server) h l :=
    fun _ _ _ => fits_ret
  have hne : ∀ a : Unit, (ret server : Code Server) ≠ halt .overrun := fun _ => by rintro ⟨⟩
  have hvacuous : ∀ {op op' : UInt8} {P : Prop}, Asks op l → op ≠ op' → Asks op' l → P :=
    fun hasks hop hasks' => absurd (hasks.2.2.symm.trans hasks'.2.2) hop
  rcases hchanges with hasks | hasks | hasks
  · rw [fits_handleRequest hasks.1 hasks.2.1, dispatch_syncMeta hasks.2.2, FitsHost,
      fits_bind_iff hne hret]
    refine (fits_syncMeta hentry).trans ⟨fun hfits => ?_, fun hfits hbase => hfits.syncMeta hbase hasks⟩
    exact ⟨hvacuous hasks (by decide), fun hbase _ => hfits hbase,
      fun _ => hvacuous hasks (by decide), fun _ => hvacuous hasks (by decide)⟩
  · rw [fits_handleRequest hasks.1 hasks.2.1, dispatch_syncHardlink hasks.2.2, FitsHost,
      fits_bind_iff hne hret]
    refine (fits_syncHardlink hentry).trans
      ⟨fun hfits => ?_, fun hfits hbase => hfits.syncHardlink hbase hasks⟩
    exact ⟨hvacuous hasks (by decide), fun _ => hvacuous hasks (by decide),
      fun hbase _ => hfits hbase, fun _ => hvacuous hasks (by decide)⟩
  · rw [fits_handleRequest hasks.1 hasks.2.1, dispatch_rm hasks.2.2, FitsHost,
      fits_bind_iff hne hret]
    refine (fits_rm hentry).trans ⟨fun hfits => ?_, fun hfits hbase => hfits.rm hbase hasks⟩
    exact ⟨hvacuous hasks (by decide), fun _ => hvacuous hasks (by decide),
      fun _ => hvacuous hasks (by decide), fun hbase _ => hfits hbase⟩

-- Room for the receives, in terms of runs.
theorem room_iff : (∀ out q, Exec host ⟨handleRequest md5 server connFd, h, l⟩ out q →
      Roomy .overrun q) ↔
    Throughout host (Roomy .overrun) (handleRequest md5 server connFd) h l fun _ _ _ => True := by
  refine forall_congr' fun out => forall_congr' fun q => imp_congr_right fun _ => ?_
  obtain ⟨q, h', l'⟩ := q
  cases q <;> exact Iff.rfl

theorem tight_iff : FitsHost (handleRequest md5 server connFd) h l ↔
    ∀ out q, Exec host ⟨handleRequest md5 server connFd, h, l⟩ out q →
      Roomy .overrun q ∧ Contained host .overrun q := by
  refine forall_congr' fun out => forall_congr' fun q => imp_congr_right fun _ => ?_
  obtain ⟨q, h', l'⟩ := q
  cases q with
  | ret a => exact ⟨fun _ => ⟨trivial, trivial⟩, fun _ => trivial⟩
  | _ => exact Iff.rfl

theorem complete_bind {α : Type} {head result : Bytes} {f : Bool × Bytes → Code α} :
    completeMessageWithHeader head result >>= f = hear (headerDatalen head) >>= fun got =>
      checkSize (sizeofHeader + got.length ≤ result.length) >>= fun _ =>
        f (got.length == headerDatalen head, overlay result (head ++ got)) := by
  unfold completeMessageWithHeader
  simp only [bind_assoc, ret_bind]

-- What follows the structure of a LOGIN request.
def loginRest (md5 : Bytes → Mem 16) (server : Server) (connFd : Nat) (r : Bool × Bytes) : Code Server := do
  let server ← (if r.1 then login md5 server connFd r.2 else ret server)
  openHome md5 server connFd

theorem talks_loginRequest (hfit : BodyFits sizeofLogin l) :
    Throughout host Lively (loginRequest md5 server connFd (requestHead l)) h (Link.skip l sizeofHeader)
      fun _ _ _ => True := by
  have hrest : ∀ r, Talks F (loginRest md5 server connFd r) := by
    intro r
    refine talks_bind ?_ fun server => talks_openHome server connFd
    split_ifs
    · exact talks_login _ _ _
    · exact talks_ret _
  refine throughout_bind (lifts_lively _) (throughout_sys trivial fun req h' _ => ?_)
  change Throughout host Lively (completeMessageWithHeader (requestHead l) req.val >>=
    loginRest md5 server connFd) h' _ _
  rw [complete_bind]
  have hchecked : ∀ (got : Bytes) (h : Host F) l, Throughout host Lively
      (checkSize (sizeofHeader + got.length ≤ req.val.length) >>= fun _ => loginRest md5 server connFd
        (got.length == headerDatalen (requestHead l), overlay req.val (requestHead l ++ got))) h l
        fun _ _ _ => True :=
    fun got h l => talks_bind (talks_checkSize _) (fun _ => hrest _) h l
  refine throughout_hear_bind ?_ (fun _ => talks_bind (talks_checkSize _) (fun _ => hrest _) _ _)
    fun _ _ => talks_bind (talks_checkSize _) (fun _ => hrest _) _ _
  have hlen : (zeros (headerDatalen (requestHead l))).length = headerDatalen (requestHead l) :=
    zeros_length _
  refine ⟨zeros (headerDatalen (requestHead l)), hlen, ?_⟩
  change Active (checkSize (_ ≤ _) >>= fun _ => _)
  rw [checkSize_pos (by rw [hlen, req.property]; exact hfit), ret_bind, beq_iff_eq.mpr hlen]
  trivial

theorem lively_handleRequest
    (hdispatch : sizeofHeader ≤ l.inbox.length → headerMagic (requestHead l) = magicReq →
      Throughout host Lively (dispatch md5 server connFd (requestHead l)) h (Link.skip l sizeofHeader)
        fun _ _ _ => True) :
    Throughout host Lively (handleRequest md5 server connFd) h l fun _ _ _ => True := by
  unfold handleRequest
  rw [recvMessage, if_neg (by decide), bind_assoc]
  refine throughout_hear_bind ?_ (fun hlen => ?_) fun hshort _ => ?_
  · refine ⟨header magicReq opLogin 0 0 0, header_length _ _ _ _ _, ?_⟩
    change Active ((checkSize (_ ≤ _) >>= fun _ => _) >>= _)
    rw [bind_assoc, checkSize_pos (by rw [header_length, zeros_length])]
    trivial
  · have hhead := requestHead_length hlen
    have hoverlay : overlay (zeros sizeofHeader) (requestHead l) = requestHead l :=
      overlay_full (by rw [hhead, zeros_length])
    change Throughout host Lively (((checkSize ((requestHead l).length ≤ _) >>= fun _ =>
      ret ((requestHead l).length == sizeofHeader, overlay _ (requestHead l))) >>= _)) h _ _
    rw [bind_assoc, checkSize_pos (by rw [hhead, zeros_length]), ret_bind, ret_bind,
      beq_iff_eq.mpr hhead, hoverlay]
    by_cases hmagic : headerMagic (requestHead l) = magicReq
    · simp only [if_true, hmagic, ne_eq, not_true, if_false]
      exact hdispatch hlen hmagic
    · simp only [if_true, ne_eq, hmagic, not_false_iff]
      exact throughout_halt trivial
  · rw [bind_assoc, checkSize_pos (by rw [zeros_length]; exact hshort.le), ret_bind, ret_bind,
      beq_false_of_ne (by omega)]
    exact throughout_ret trivial

-- A LOGIN request receives one structure, and then only answers.
theorem room_login (hasks : Asks opLogin l) :
    (∀ out q, Exec host ⟨handleRequest md5 server connFd, h, l⟩ out q → Roomy .overrun q) ↔
      BodyFits sizeofLogin l := by
  have hdispatch : dispatch md5 server connFd (requestHead l) =
      loginRequest md5 server connFd (requestHead l) := if_pos hasks.2.2
  constructor
  · intro hroom
    obtain ⟨req, huninit⟩ := exec_uninit (h := h) (l := Link.skip l sizeofHeader) sizeofLogin
    have hrun : Exec host ⟨handleRequest md5 server connFd, h, l⟩ []
        ⟨completeMessageWithHeader (requestHead l) req.val >>= loginRest md5 server connFd, h.tick,
          Link.skip l sizeofHeader⟩ := by
      have hhead : Exec host ⟨handleRequest md5 server connFd, h, l⟩ []
          ⟨dispatch md5 server connFd (requestHead l), h, Link.skip l sizeofHeader⟩ :=
        exec_dispatch hasks.1 hasks.2.1
      rw [hdispatch] at hhead
      exact hhead.trans (huninit.bind _)
    rw [complete_bind] at hrun
    obtain ⟨bs, hbs, hne⟩ := hroom _ _ hrun
    by_contra hlen
    apply hne
    change (checkSize (_ ≤ _) >>= fun _ => _) = _
    rw [checkSize_neg (by rw [hbs, req.property]; exact hlen)]
    rfl
  · intro hfit
    rw [room_iff]
    refine (lively_handleRequest fun _ _ => ?_).imp fun q hq => Lively.roomy hq _
    rw [hdispatch]
    exact talks_loginRequest hfit

theorem room_other (hlogin : ¬Asks opLogin l) (hchanges : ¬Changes l) :
    Throughout host Lively (handleRequest md5 server connFd) h l fun _ _ _ => True := by
  refine lively_handleRequest fun hlen hmagic => ?_
  simp only [Changes, not_or] at hchanges
  have hop : ∀ {op}, ¬Asks op l → headerOp (requestHead l) ≠ op :=
    fun hasks hop => hasks ⟨hlen, hmagic, hop⟩
  unfold dispatch
  rw [if_neg (hop hlogin), if_neg (hop hchanges.1), if_neg (hop hchanges.2.1),
    if_neg (hop hchanges.2.2)]
  exact throughout_ret trivial

-- On a connection with an entry, the receives fit exactly when the request's lengths do.
theorem receives_in_bounds_iff (md5 : Bytes → Mem 16) (server : Server) (connFd : Nat)
    (info : ClientInfo) (h : Host F) (l : Link UInt8) (hentry : server.client connFd = some info) :
    ReceivesInBounds md5 server connFd h l ↔ RequestFits md5 (baseOf server info) h l := by
  by_cases hchanges : Changes l
  · rw [← fits_changes hentry hchanges, tight_iff]
    exact ⟨fun hb out q hrun => ⟨hb.room out q hrun, hb.contained hchanges out q hrun⟩,
      fun hb => ⟨fun out q hrun => (hb out q hrun).1, fun _ out q hrun => (hb out q hrun).2⟩⟩
  · have hno : ∀ {P : Prop}, Changes l → P := fun h => absurd h hchanges
    by_cases hlogin : Asks opLogin l
    · constructor
      · intro hb
        exact ⟨fun _ => (room_login hlogin).mp hb.room, fun _ h => hno (.inl h),
          fun _ h => hno (.inr (.inl h)), fun _ h => hno (.inr (.inr h))⟩
      · exact fun hfits => ⟨(room_login hlogin).mpr (hfits.login hlogin), hno⟩
    · constructor
      · exact fun _ => ⟨fun h => absurd h hlogin, fun _ h => hno (.inl h),
          fun _ h => hno (.inr (.inl h)), fun _ h => hno (.inr (.inr h))⟩
      · intro _
        refine ⟨room_iff.mpr ?_, hno⟩
        exact (room_other hlogin hchanges).imp fun q hq => Lively.roomy hq _

end Requests

section Runs

open Session

-- A server on which the user "u" is logged in, and the request to remove "x".
def userServer : Server :=
  { (acceptedService none).server with client := fun _ => some { account := [0x75], connFd := 4 } }

def removeRequest : Link UInt8 := ⟨rmMessage 1 ++ [0x78], false⟩

theorem receives_in_bounds_iff_remove : ReceivesInBounds md5OfX userServer 4 accountHost removeRequest := by
  refine (receives_in_bounds_iff md5OfX userServer 4 { account := [0x75], connFd := 4 } accountHost
    removeRequest rfl).mpr ⟨fun hasks => absurd hasks (by decide +kernel), fun _ hasks =>
      absurd hasks (by decide +kernel), fun _ hasks => absurd hasks (by decide +kernel), fun _ _ => ?_⟩
  refine ⟨by decide +kernel, fun m hm => ?_⟩
  have hlen : (messageOf sizeofRm accountHost removeRequest).map rmPathlen = some 1 := by
    decide +kernel
  rw [hm, Option.map_some, Option.some.injEq] at hlen
  rw [hlen]
  refine ⟨by unfold LengthFits; decide, fun path hpath => ?_⟩
  obtain rfl : [0x78] = path := Option.some.inj (Eq.trans (by decide +kernel) hpath)
  decide +kernel

-- A LOGIN header announces 2^32 - 1 bytes.
theorem login_body_overruns :
    ¬∀ w, Reaches md5OfX (fun _ _ _ => True) (Service.start [0x73] [0x61] none 3 accountHost) w →
      ∀ fd info l, w.server.client fd = some info → ReceivesInBounds md5OfX w.server fd w.host l := by
  intro hall
  obtain ⟨w, info, hreach, hinfo, -, -, -⟩ := login_reaches (G := fun _ _ _ => True) trivial
  have hbounds := hall w hreach 4 info ⟨header magicReq opLogin 0 0 (2 ^ 32 - 1), false⟩ hinfo
  have hfit := (room_login (by decide +kernel)).mp hbounds.room
  exact absurd hfit (by decide +kernel)

end Runs

end Csiebox
