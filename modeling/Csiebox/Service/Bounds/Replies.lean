import Csiebox.Service.Bounds.Rules

namespace Csiebox

open CBytes Program Prog

section Replies

variable {F : Type} [Posix F] {α γ δ : Type} {md5 : Bytes → Mem 16}

-- The receives of this program are answers: whatever it is, some answer makes it go on.
def Talks (F : Type) [Posix F] (p : Code α) : Prop :=
  ∀ (h : Host F) l, Throughout host Lively p h l fun _ _ _ => True

theorem talks_ret (a : α) : Talks F (ret a) := fun _ _ => throughout_ret trivial

theorem talks_halt (e : Fault) : Talks F (halt e : Code α) := fun _ _ => throughout_halt trivial

theorem talks_sys (op : Sys α) : Talks F (sys op) :=
  fun _ _ => throughout_sys trivial fun _ _ _ => trivial

theorem talks_bind {p : Code α} {f : α → Code γ} (hp : Talks F p)
    (hf : ∀ a, Talks F (f a)) : Talks F (p >>= f) :=
  fun h l => throughout_bind (lifts_lively f) ((hp h l).mono fun a h l _ => hf a h l)

theorem talks_sendMessage (m : Bytes) : Talks F (sendMessage m) := by
  intro h l
  unfold sendMessage
  split_ifs
  · exact throughout_ret trivial
  · exact throughout_say trivial fun _ => trivial

theorem talks_checkSize (fits : Prop) [Decidable fits] : Talks F (checkSize fits) := by
  unfold checkSize
  split_ifs
  · exact talks_ret ()
  · exact talks_halt _

theorem talks_iter {body : γ → Code (γ ⊕ δ)} {c : γ} (J : γ → Prop) (hstart : J c)
    (hbody : ∀ c, J c → ∀ (h : Host F) l,
      Throughout host Repeats (body c) h l fun r _ _ => ∀ c', r = .inl c' → J c') :
    Talks F (iter body c) :=
  fun _ _ => throughout_iter lifts_repeats (fun _ _ _ => trivial) (fun c _ _ => J c) hstart
    fun c h l hc => (hbody c hc h l).mono fun r _ _ hr => by
      cases r with
      | inl c' => exact hr c' rfl
      | inr d => trivial

theorem silent_sendMessage (m : Bytes) (h : Host F) (l : Link UInt8) :
    Throughout host Silent (sendMessage m) h l fun _ _ _ => True := by
  unfold sendMessage
  split_ifs
  · exact throughout_ret trivial
  · exact throughout_say trivial fun _ => trivial

-- A round that sends and then waits for a header; with some header it is repeated.
theorem repeats_of_header {m head : Bytes} {f : Bool × Bytes → Code (γ ⊕ δ)} (h : Host F)
    (l : Link UInt8) (hhead : head.length = sizeofHeader)
    (hf : ∀ r, ∃ x, f r = ret x)
    (hmore : ∃ bs : Bytes, bs.length = sizeofHeader ∧ ∃ c, f (true, bs) = ret (.inl c)) :
    Throughout host Repeats (sendMessage m >>= fun _ => recvMessage head sizeofHeader >>= f) h l
      fun r _ _ => ∃ ok got, got.length = sizeofHeader ∧ f (ok, got) = ret r := by
  refine throughout_bind (lifts_silent _) ((silent_sendMessage m h l).mono fun _ h l _ => ?_)
  rw [recvMessage, if_neg (by decide), bind_assoc]
  have hrest : ∀ (got : Bytes) (h : Host F) l, Throughout host Repeats ((do
      checkSize (got.length ≤ head.length)
      ret (got.length == sizeofHeader, overlay head got)) >>= f) h l
        fun r _ _ => ∃ ok got, got.length = sizeofHeader ∧ f (ok, got) = ret r := by
    intro got h l
    rw [bind_assoc]
    obtain ⟨x, hx⟩ := hf (got.length == sizeofHeader, overlay head got)
    by_cases hfit : got.length ≤ head.length
    · rw [checkSize_pos hfit, ret_bind, ret_bind, hx]
      exact throughout_ret ⟨_, _, by rw [overlay_length hfit, hhead], hx⟩
    · rw [checkSize_neg hfit]
      exact throughout_halt trivial
  refine throughout_hear_bind ?_ (fun _ => hrest _ _ _) fun _ _ => hrest _ _ _
  obtain ⟨bs, hbs, c, hc⟩ := hmore
  refine ⟨bs, hbs, c, ?_⟩
  change (checkSize (bs.length ≤ head.length) >>= fun _ =>
    ret (bs.length == sizeofHeader, overlay head bs)) >>= f = _
  rw [bind_assoc, checkSize_pos (by omega), ret_bind, ret_bind, hbs, beq_self_eq_true,
    overlay_full (by omega), hc]

def busyHeader : Bytes := header 0 0 statusBusy 0 0

theorem talks_sendMeta (st path : Bytes) : Talks F (sendMeta md5 st path) := by
  have hdigest : Talks F (metaDigest md5 st path) := by
    unfold metaDigest
    split_ifs
    · refine talks_bind (talks_sys _) fun target => ?_
      cases target with
      | none => exact talks_halt _
      | some target => exact talks_ret _
    · refine talks_bind ?_ fun _ => talks_ret _
      unfold md5File
      refine talks_bind (talks_sys _) fun rs => ?_
      cases rs with
      | none => exact talks_ret _
      | some rs =>
          dsimp only
          split
          · exact talks_halt _
          · exact talks_ret _
    · exact talks_ret _
  refine talks_bind hdigest fun hash => talks_bind ?_ fun _ =>
    talks_bind (talks_sendMessage path) fun _ => talks_ret ()
  refine talks_iter (fun _ => True) trivial fun _ _ h l => ?_
  refine (repeats_of_header (f := fun r => ret (if r.1 && headerStatus r.2 != statusBusy then .inr ()
    else .inl ())) h l (zeros_length _) (fun _ => ⟨_, rfl⟩) ⟨busyHeader, by decide, (), rfl⟩).mono ?_
  exact fun _ _ _ _ _ _ => trivial

theorem talks_sendChunks (chunk : Nat) (content : Bytes) : Talks F (sendChunks chunk content) := by
  refine talks_iter (fun _ => True) trivial fun rest _ h l => ?_
  have hbuf : ∀ (h : Host F) l, Throughout host Repeats (do
      let _ ← sendMessage (rest.take chunk)
      ret (if (rest.take chunk).length = chunk then .inl (rest.drop chunk) else .inr ()) :
        Code (Bytes ⊕ Unit)) h l fun r _ _ => ∀ c', r = .inl c' → True := fun h l =>
    throughout_bind (lifts_silent _) ((silent_sendMessage _ h l).mono fun _ _ _ _ =>
      throughout_ret fun _ _ => trivial)
  exact throughout_bind (lifts_silent _) ((silent_sendMessage _ h l).mono fun _ h l _ => hbuf h l)

theorem talks_sendFile (st path : Bytes) : Talks F (sendFile st path) := by
  unfold sendFile
  split_ifs
  · refine talks_bind (talks_sys _) fun file => ?_
    cases file with
    | none => exact talks_halt _
    | some file =>
        exact talks_bind (talks_sys _) fun _ => talks_bind (talks_sendChunks N _) fun _ =>
          talks_bind (talks_sys _) fun _ => talks_sys _
  · refine talks_bind (talks_sys _) fun target => ?_
    cases target with
    | none => exact talks_halt _
    | some target =>
        exact talks_bind (talks_sendMessage _) fun _ => talks_bind (talks_sendMessage _) fun _ =>
          talks_ret ()
  · exact talks_ret ()

theorem talks_sendHardlink (oldPath newPath : Bytes) : Talks F (sendHardlink oldPath newPath) := by
  refine talks_bind ?_ fun _ => talks_bind (talks_sendMessage _) fun _ =>
    talks_bind (talks_sendMessage _) fun _ => talks_ret ()
  refine talks_iter (fun head => head.length = sizeofHeader) (zeros_length _) fun head hhead h l => ?_
  refine (repeats_of_header (f := fun r => ret (if headerStatus r.2 = statusBusy then .inl r.2
    else .inr ())) h l hhead (fun _ => ⟨_, rfl⟩) ⟨busyHeader, by decide, busyHeader, rfl⟩).mono ?_
  rintro _ _ _ ⟨ok, got, hgot, hr⟩ head' rfl
  dsimp only at hr
  split_ifs at hr
  · cases hr
    exact hgot
  · cases hr

theorem talks_sendKnownLinks (st target : Bytes) (hl : List HardLink) :
    Talks F (sendKnownLinks st target hl) := by
  induction hl with
  | nil => exact talks_ret ()
  | cons link hl ih =>
      unfold sendKnownLinks
      split_ifs
      · exact talks_bind (talks_sendMessage _) fun _ => talks_bind (talks_sendHardlink _ _) fun _ =>
          talks_bind (talks_sendMessage _) fun _ => ih
      · exact ih

theorem talks_sendEntry (len : Nat) (st cpath : Bytes) :
    Talks F (sendEntry md5 len st cpath) :=
  talks_bind (talks_sendMessage _) fun _ => talks_bind (talks_sendMeta _ _) fun _ => talks_sendFile _ _

theorem talks_serverEntry (len connFd : Nat) (st cpath : Bytes) (hl : List HardLink) :
    Talks F (serverEntry md5 len connFd st cpath hl) := by
  unfold serverEntry
  split_ifs
  · exact talks_bind (talks_checkSize _) fun _ => talks_bind (talks_sendKnownLinks _ _ _) fun _ =>
      talks_bind (talks_sendEntry _ _ _) fun _ => talks_bind (talks_checkSize _) fun _ => talks_ret _
  · exact talks_bind (talks_sendEntry _ _ _) fun _ => talks_ret _

theorem talks_serverVisit {len connFd : Nat} {descend : Bytes → List HardLink → Code (List HardLink)}
    (hdescend : ∀ path hl, Talks F (descend path hl)) (dirName : Bytes)
    (entries : List Dirent) (hl : List HardLink) :
    Talks F (serverVisit md5 len connFd descend dirName entries hl) := by
  induction entries generalizing hl with
  | nil => exact talks_ret hl
  | cons entry entries ih =>
      unfold serverVisit
      split_ifs
      · exact ih hl
      · refine talks_bind (talks_sys _) fun st => ?_
        cases st with
        | none => exact talks_ret hl
        | some st =>
            refine talks_bind (talks_serverEntry _ _ _ _ _) fun hl => talks_bind ?_ fun hl => ih hl
            split_ifs
            · exact hdescend _ _
            · exact talks_ret hl

theorem talks_serverTraverseFile (len connFd depth : Nat) (dirName : Bytes) (hl : List HardLink) :
    Talks F (serverTraverseFile md5 len connFd depth dirName hl) := by
  induction depth generalizing dirName hl with
  | zero => exact talks_halt _
  | succ depth ih =>
      unfold serverTraverseFile
      refine talks_bind (talks_sys _) fun entries => ?_
      cases entries with
      | none => exact talks_ret hl
      | some entries => exact talks_serverVisit (fun path hl => ih path hl) _ _ _

theorem talks_getUserHomedir (server : Server) (info : Option ClientInfo) :
    Talks F (getUserHomedir server info) := by
  unfold getUserHomedir
  split
  · exact talks_halt _
  · exact talks_bind (talks_checkSize _) fun _ => talks_ret _

theorem talks_login (server : Server) (connFd : Nat) (req : Bytes) :
    Talks F (login md5 server connFd req) := by
  refine talks_bind (talks_sys _) fun stack => talks_bind ?_ fun r => ?_
  · refine talks_bind (talks_sys _) fun file => ?_
    cases file with
    | none => exact talks_ret _
    | some file => exact talks_ret _
  · refine talks_bind (talks_checkSize _) fun _ => ?_
    dsimp only
    split_ifs
    · exact talks_bind (talks_getUserHomedir _ _) fun _ => talks_bind (talks_sys _) fun _ =>
        talks_bind (talks_sendMessage _) fun _ => talks_ret _
    · exact talks_bind (talks_sendMessage _) fun _ => talks_ret _

theorem talks_openHome (server : Server) (connFd : Nat) : Talks F (openHome md5 server connFd) := by
  refine talks_bind (talks_getUserHomedir _ _) fun filepath => talks_bind (talks_sys _) fun entries => ?_
  cases entries with
  | none => exact talks_halt _
  | some entries =>
      refine talks_bind ?_ fun _ => talks_ret _
      split_ifs
      · exact talks_bind (talks_sys _) fun _ => talks_bind (talks_serverTraverseFile _ _ _ _ _)
          fun _ => talks_bind (talks_sys _) fun _ => talks_bind (talks_sendMessage _) fun _ => talks_ret _
      · exact talks_ret _

end Replies

end Csiebox
