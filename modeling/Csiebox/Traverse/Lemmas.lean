import Csiebox.Common.Lemmas
import Csiebox.Traverse

namespace Csiebox.Traverse

open CBytes Program Prog Pull

section Reading

theorem readWords_append (r : Reading) (ws ws' : List (Word UInt8)) :
    readWords r (ws ++ ws') = ((readWords (readWords r ws).1 ws').1,
      (readWords r ws).2 ++ (readWords (readWords r ws).1 ws').2) := by
  induction ws generalizing r with
  | nil => rfl
  | cons w ws ih => simp [readWords, ih]

theorem readWords_trans {r r' r'' : Reading} {ws ws' : List (Word UInt8)} {items items' : List Item}
    (h : readWords r ws = (r', items)) (h' : readWords r' ws' = (r'', items')) :
    readWords r (ws ++ ws') = (r'', items ++ items') := by
  rw [readWords_append, h, h']

theorem readWords_one (r : Reading) (w : Word UInt8) : readWords r [w] = readWord r w := by
  simp [readWords]

end Reading

section Trees

variable {F : Type} [Posix F] {f f' f'' : F}

theorem SameTree.refl (f : F) : SameTree f f := ⟨fun _ => rfl, fun _ => rfl⟩

theorem SameTree.trans (h : SameTree f f') (h' : SameTree f' f'') : SameTree f f'' :=
  ⟨fun path => (h'.lstat path).trans (h.lstat path), fun path => (h'.opendir path).trans (h.opendir path)⟩

end Trees

section Rules

variable {F α γ δ : Type} [Posix F]

-- Whatever a program returns, its messages take a reader from `r` past `items` to `r'`,
-- the connection stays open and the tree stays as it is.
def Conveys (F : Type) [Posix F] (p : Code α) (r : Reading) (items : List Item) (r' : Reading) : Prop :=
  ∀ (h : Host F) l, l.closed = false → Says host p h l fun _ h' l' ws =>
    readWords r ws = (r', items) ∧ l'.closed = false ∧ SameTree h.fs h'.fs

variable {p : Code α} {r r' r'' : Reading} {items items' : List Item}

theorem conveys_ret (a : α) : Conveys F (ret a : Code α) r [] r :=
  fun h _ hl => says_ret ⟨rfl, hl, .refl h.fs⟩

theorem conveys_halt (e : Fault) : Conveys F (halt e : Code α) r items r' :=
  fun _ _ _ => says_halt

theorem conveys_bind {f : α → Code γ} (hp : Conveys F p r items r')
    (hf : ∀ a, Conveys F (f a) r' items' r'') : Conveys F (p >>= f) r (items ++ items') r'' := by
  intro h l hl
  refine says_bind ((hp h l hl).mono ?_)
  rintro a h' l' ws ⟨hread, hl', htree⟩
  refine (hf a h' l' hl').mono ?_
  rintro b h'' l'' ws' ⟨hread', hl'', htree'⟩
  exact ⟨readWords_trans hread hread', hl'', htree.trans htree'⟩

-- A silent first part.
theorem conveys_after {f : α → Code γ} (hp : Conveys F p r [] r)
    (hf : ∀ a, Conveys F (f a) r items r') : Conveys F (p >>= f) r items r' :=
  conveys_bind hp hf

theorem conveys_sys {o : Sys γ}
    (ho : ∀ (h : Host F) x h', Host.exec o h = some (x, h') → SameTree h.fs h'.fs) :
    Conveys F (sys o : Code γ) r [] r :=
  fun h _ hl => says_sys fun x h' hexec => ⟨rfl, hl, ho h x h' hexec⟩

-- A call that changes nothing.
theorem conveys_look {o : Sys γ} (ho : ∀ (h : Host F) x h', Host.exec o h = some (x, h') → h' = h) :
    Conveys F (sys o : Code γ) r [] r :=
  conveys_sys fun h x h' hexec => by
    rw [ho h x h' hexec]
    exact .refl h.fs

theorem conveys_checkSize {fits : Prop} [Decidable fits] : Conveys F (checkSize fits) r [] r := by
  by_cases hfits : fits
  · rw [checkSize_pos hfits]
    exact conveys_ret ()
  · rw [checkSize_neg hfits]
    exact conveys_halt _

-- Every round of a loop leaves the reader where it is, and the last one moves it on.
theorem conveys_iter {body : γ → Code (γ ⊕ δ)} {c : γ} (J : γ → Prop) (hstart : J c)
    (hround : ∀ c, J c → ∀ (h : Host F) l, l.closed = false → Says host (body c) h l fun x h' l' ws =>
      l'.closed = false ∧ SameTree h.fs h'.fs ∧ x.elim (fun c' => J c' ∧ readWords r ws = (r, []))
        (fun _ => readWords r ws = (r', items))) : Conveys F (iter body c) r items r' := by
  intro h₀ l₀ hl₀
  refine says_iter (fun c h l ws => J c ∧ readWords r ws = (r, []) ∧ l.closed = false ∧
    SameTree h₀.fs h.fs) ⟨hstart, rfl, hl₀, .refl _⟩ ?_
  rintro c h l ws ⟨hJ, hread, hl, htree⟩
  refine (hround c hJ h l hl).mono ?_
  rintro x h' l' ws' ⟨hl', htree', hx⟩
  cases x with
  | inl c' => exact ⟨hx.1, readWords_trans hread hx.2, hl', htree.trans htree'⟩
  | inr d => exact ⟨readWords_trans hread hx, hl', htree.trans htree'⟩

theorem conveys_sendMessage {m : Bytes} (hm : m ≠ []) :
    Conveys F (sendMessage m) r (readSaid r m).2 (readSaid r m).1 := by
  intro h l hl
  rw [sendMessage, if_neg (by simpa using hm)]
  exact says_say hl ⟨readWords_one r (.said m), hl, .refl h.fs⟩

-- A string that is due.
theorem conveys_string (request : Bytes) (got : List Bytes) (due : List Nat) (bs : Bytes) :
    ∃ items, Conveys F (sendMessage bs) (awaitString request got (bs.length :: due)).1 items
        (awaitString request (got ++ [bs]) due).1 ∧
      (awaitString request got (bs.length :: due)).2 ++ items =
        (awaitString request (got ++ [bs]) due).2 := by
  cases bs with
  | nil => exact ⟨[], conveys_ret false, List.append_nil _⟩
  | cons b bs => exact ⟨_, conveys_sendMessage (by simp), rfl⟩

-- A complete receive over an open connection.
theorem says_recvMessage {message : Bytes} {n : Nat} (hfit : message.length = n) (hpos : 0 < n)
    (h : Host F) (l : Link UInt8) (hl : l.closed = false) :
    Says host (recvMessage message n) h l fun x h' l' ws =>
      ∃ bs, x = (true, bs) ∧ bs.length = n ∧ ws = [.heard bs] ∧ l'.closed = false ∧ h' = h := by
  rw [recvMessage, if_neg hpos.ne']
  refine says_bind (says_hear hl fun bs rest hbs => ?_)
  rw [checkSize_pos (by omega)]
  refine says_ret ⟨bs, ?_, hbs, by simp, rfl, rfl⟩
  rw [overlay_full (by omega), beq_iff_eq.mpr hbs]

end Rules

section Requests

variable {F : Type} [Posix F]

-- A round of an announcement: the reader goes on where the answer is not BUSY.
theorem says_announced {m : Bytes} (hm : m ≠ [])
    (hop : headerOp m = opSyncMeta ∨ headerOp m = opSyncHardlink) {message : Bytes}
    (hfit : message.length = sizeofHeader) (h : Host F) (l : Link UInt8) (hl : l.closed = false) :
    Says host (sendMessage m >>= fun _ => recvMessage message sizeofHeader) h l fun x h' l' ws =>
      x.1 = true ∧ x.2.length = sizeofHeader ∧ l'.closed = false ∧ SameTree h.fs h'.fs ∧
        readWords .idle ws = if headerStatus x.2 = statusBusy then (.idle, [])
          else awaitString m [] (stringLengths m) := by
  have hasked : readSaid .idle m = (.asked m, []) := by rw [readSaid, if_pos hop]
  have hsent := conveys_sendMessage (F := F) (r := .idle) hm
  rw [hasked] at hsent
  refine says_bind ((hsent h l hl).mono ?_)
  rintro sent h' l' ws ⟨hread, hl', htree⟩
  refine (says_recvMessage hfit (by decide) h' l' hl').mono ?_
  rintro x h'' l'' ws' ⟨answer, rfl, hlength, rfl, hl'', rfl⟩
  refine ⟨rfl, hlength, hl'', htree, ?_⟩
  rw [readWords_trans hread (readWords_one _ _)]
  rfl

theorem conveys_announce {m : Bytes} (hm : m ≠ []) (hop : headerOp m = opSyncMeta) :
    Conveys F (iter (announce m) ()) .idle (awaitString m [] (stringLengths m)).2
      (awaitString m [] (stringLengths m)).1 := by
  refine conveys_iter (fun _ => True) trivial fun _ _ h l hl => ?_
  have hround : announce m () = ((sendMessage m >>= fun _ =>
      recvMessage (zeros sizeofHeader) sizeofHeader) >>= fun x =>
        ret (if x.1 && headerStatus x.2 != statusBusy then .inr () else .inl ())) := by
    rw [bind_assoc]
    rfl
  rw [hround]
  refine says_bind ((says_announced hm (.inl hop) (zeros_length _) h l hl).mono ?_)
  rintro ⟨ok, header⟩ h' l' ws ⟨rfl, -, hl', htree, hread⟩
  refine says_ret ⟨hl', htree, ?_⟩
  rw [List.append_nil, hread]
  by_cases hbusy : headerStatus header = statusBusy <;> simp [hbusy]

theorem conveys_announceLink {m : Bytes} (hm : m ≠ []) (hop : headerOp m = opSyncHardlink) :
    Conveys F (iter (announceLink m) (zeros sizeofHeader)) .idle (awaitString m [] (stringLengths m)).2
      (awaitString m [] (stringLengths m)).1 := by
  refine conveys_iter (fun header => header.length = sizeofHeader) (zeros_length _)
    fun header hheader h l hl => ?_
  have hround : announceLink m header = ((sendMessage m >>= fun _ =>
      recvMessage header sizeofHeader) >>= fun x =>
        ret (if headerStatus x.2 = statusBusy then .inl x.2 else .inr ())) := by
    rw [bind_assoc]
    rfl
  rw [hround]
  refine says_bind ((says_announced hm (.inr hop) hheader h l hl).mono ?_)
  rintro ⟨ok, answer⟩ h' l' ws ⟨rfl, hlength, hl', htree, hread⟩
  refine says_ret ⟨hl', htree, ?_⟩
  rw [List.append_nil, hread]
  by_cases hbusy : headerStatus answer = statusBusy
  · simpa [hbusy] using hlength
  · simp [hbusy]

theorem conveys_metaDigest (md5 : Bytes → Mem 16) (st path : Bytes) (r : Reading) :
    Conveys F (metaDigest md5 st path) r [] r := by
  unfold metaDigest md5File
  split_ifs
  · refine conveys_after (conveys_look (by rintro h x h' ⟨⟩; rfl)) fun target => ?_
    cases target with
    | none => exact conveys_halt _
    | some target => exact conveys_ret _
  · refine conveys_after (conveys_after (conveys_look (by rintro h x h' ⟨⟩; rfl)) fun reads => ?_)
      fun x => conveys_ret _
    cases reads with
    | none => exact conveys_ret _
    | some rs =>
        cases hbytes : hashedBytes rs with
        | none => simpa only [hbytes] using conveys_halt _
        | some bs => simpa only [hbytes] using conveys_ret _
  · exact conveys_ret _

theorem stringLengths_meta {status : UInt8} {path st hash : Bytes} (hpath : path.length < 2 ^ 32) :
    stringLengths (metaMessage status path.length st hash) = [path.length] := by
  have hop : headerOp (metaMessage status path.length st hash) = opSyncMeta := rfl
  rw [stringLengths, if_pos hop, metaMessage, metaPathlen_body (header_length _ _ _ _ _) hpath]

theorem itemOf_meta {status : UInt8} {n : Nat} {path st hash : Bytes} (hst : st.length = sizeofStat) :
    itemOf (metaMessage status n st hash) [path] = .content st path := by
  have hop : headerOp (metaMessage status n st hash) = opSyncMeta := rfl
  rw [itemOf, if_pos hop, metaMessage, metaStat_body (header_length _ _ _ _ _) hst]
  rfl

theorem conveys_sendMeta (md5 : Bytes → Mem 16) {st path : Bytes} (hst : st.length = sizeofStat)
    (hpath : path.length < 2 ^ 32) :
    Conveys F (sendMeta md5 st path) .idle [.content st path] .idle := by
  unfold sendMeta
  refine conveys_after (conveys_metaDigest md5 st path .idle) fun hash => ?_
  have hne : metaMessage statusMore path.length st hash ≠ [] := by simp [metaMessage, header]
  have hannounce := conveys_announce (F := F) hne rfl
  rw [stringLengths_meta hpath] at hannounce
  obtain ⟨items, hstring, hall⟩ := conveys_string (F := F)
    (metaMessage statusMore path.length st hash) [] [] path
  rw [List.nil_append, awaitString, itemOf_meta hst] at hstring hall
  have hsent := conveys_bind hannounce fun _ => conveys_bind hstring fun _ => conveys_ret ()
  rwa [List.append_nil, hall] at hsent

theorem stringLengths_hardlink {source target : Bytes} (hsource : source.length < 2 ^ 32)
    (htarget : target.length < 2 ^ 32) :
    stringLengths (hardlinkMessage source.length target.length) =
      [source.length, target.length, sizeofStat] := by
  have hop : headerOp (hardlinkMessage source.length target.length) ≠ opSyncMeta := by
    show opSyncHardlink ≠ opSyncMeta
    decide
  rw [stringLengths, if_neg hop, hardlinkMessage, hardlinkSrclen_body (header_length _ _ _ _ _) hsource,
    hardlinkTargetlen_body (header_length _ _ _ _ _) htarget]

theorem itemOf_hardlink {m n : Nat} {source target st : Bytes} :
    itemOf (hardlinkMessage m n) [source, target, st] = .hardlink source target st := by
  have hop : headerOp (hardlinkMessage m n) ≠ opSyncMeta := by
    show opSyncHardlink ≠ opSyncMeta
    decide
  rw [itemOf, if_neg hop]
  rfl

theorem conveys_sendHardlink {source target : Bytes} (hsource : source.length < 2 ^ 32)
    (htarget : target.length < 2 ^ 32) {st : Bytes} (hst : st.length = sizeofStat) :
    Conveys F (sendHardlink source target >>= fun _ => sendMessage st) .idle
      [.hardlink source target st] .idle := by
  have hne : hardlinkMessage source.length target.length ≠ [] := by simp [hardlinkMessage, header]
  have hannounce := conveys_announceLink (F := F) hne rfl
  rw [stringLengths_hardlink hsource htarget, ← hst] at hannounce
  have hitem := @itemOf_hardlink source.length target.length source target st
  have hprog : (sendHardlink source target >>= fun _ => sendMessage st) =
      iter (announceLink (hardlinkMessage source.length target.length)) (zeros sizeofHeader) >>= fun _ =>
        sendMessage source >>= fun _ => sendMessage target >>= fun _ => ret () >>= fun _ =>
          sendMessage st := by
    rw [sendHardlink]
    simp only [bind_assoc]
  rw [hprog]
  generalize hardlinkMessage source.length target.length = m at hannounce hitem ⊢
  obtain ⟨items₁, hstring₁, hall₁⟩ := conveys_string (F := F) m [] [target.length, st.length] source
  obtain ⟨items₂, hstring₂, hall₂⟩ := conveys_string (F := F) m ([] ++ [source]) [st.length] target
  obtain ⟨items₃, hstring₃, hall₃⟩ := conveys_string (F := F) m ([] ++ [source] ++ [target]) [] st
  have hsent := conveys_bind hannounce fun _ => conveys_bind hstring₁ fun _ =>
    conveys_bind hstring₂ fun _ => conveys_after (conveys_ret ()) fun _ => hstring₃
  have hall : [Item.hardlink source target st] = (awaitString m [] [source.length, target.length,
      st.length]).2 ++ (items₁ ++ (items₂ ++ items₃)) := by
    rw [← List.append_assoc, hall₁, ← List.append_assoc, hall₂, hall₃, ← hitem]
    rfl
  rw [hall]
  exact hsent

end Requests

section Files

variable {F : Type} [Posix F]

-- The header of a block of data and the block.
theorem conveys_block (bs : Bytes) (hbs : bs.length < 2 ^ 64) :
    Conveys F (sendMessage (fileMessage bs.length) >>= fun _ => sendMessage bs) .idle [] .idle := by
  have hhead := conveys_sendMessage (F := F) (r := .idle) (m := fileMessage bs.length)
    (by simp [fileMessage, header])
  have hop : headerOp (fileMessage bs.length) = opSyncFile := rfl
  have hread : readSaid .idle (fileMessage bs.length) =
      if bs.length ≠ 0 then (.data, []) else (.idle, []) := by
    simp [readSaid, hop, fileDatalen_fileMessage hbs, opSyncFile, opSyncMeta, opSyncHardlink]
  rw [hread] at hhead
  cases bs with
  | nil => exact conveys_after hhead fun _ => conveys_ret false
  | cons b bs => exact conveys_bind hhead fun _ => conveys_sendMessage (r := .data) (by simp)

theorem conveys_sendChunks {chunk : Nat} (hchunk : chunk < 2 ^ 64) (content : Bytes) :
    Conveys F (sendChunks chunk content) .idle [] .idle := by
  refine conveys_iter (fun _ => True) trivial fun rest _ h l hl => ?_
  have hblock := conveys_block (F := F) (rest.take chunk)
    ((List.length_take_le _ _).trans_lt hchunk)
  have hround : sendChunk chunk rest = ((sendMessage (fileMessage (rest.take chunk).length) >>= fun _ =>
      sendMessage (rest.take chunk)) >>= fun _ =>
        ret (if (rest.take chunk).length = chunk then .inl (rest.drop chunk) else .inr ())) := by
    rw [bind_assoc]
    rfl
  rw [hround]
  refine says_bind ((hblock h l hl).mono ?_)
  rintro _ h' l' ws ⟨hread, hl', htree⟩
  refine says_ret ⟨hl', htree, ?_⟩
  rw [List.append_nil]
  by_cases hfull : (rest.take chunk).length = chunk
  · rw [if_pos hfull]
    exact ⟨trivial, hread⟩
  · rw [if_neg hfull]
    exact hread

theorem conveys_setlkw (hF : Locking F) (fp : Nat) (fl : Flock) (r : Reading) :
    Conveys F (sys (.setlkw fp fl) : Code Bool) r [] r := by
  refine conveys_sys fun h granted h' hexec => ?_
  obtain ⟨⟨granted', f⟩, hlock, hset⟩ := Option.map_eq_some_iff.mp hexec
  obtain ⟨rfl, rfl⟩ := Prod.mk.inj hset
  exact hF.setlkw _ _ _ _ _ hlock

theorem conveys_sendFile (hF : Locking F) (st path : Bytes) :
    Conveys F (sendFile st path) .idle [] .idle := by
  unfold sendFile
  split_ifs
  · refine conveys_after (conveys_look (by rintro h x h' ⟨⟩; rfl)) fun opened => ?_
    cases opened with
    | none => exact conveys_halt _
    | some opened =>
        obtain ⟨fp, content⟩ := opened
        refine conveys_after (conveys_setlkw hF _ _ _) fun _ => conveys_after
          (conveys_sendChunks (by decide) _) fun _ => conveys_after (conveys_setlkw hF _ _ _) fun _ =>
            conveys_sys ?_
        rintro h x h' ⟨⟩
        exact hF.fclose h.fs fp
  · intro h l hl
    refine says_bind (says_sys fun target h' hread => ?_)
    cases target with
    | none => exact says_halt
    | some target =>
        obtain ⟨hread, rfl⟩ := Prod.ext_iff.mp (Option.some.inj hread)
        have hblock := conveys_block (F := F) target
          ((hF.linkFits _ _ _ _ hread).trans_lt (by decide))
        exact conveys_bind hblock (fun _ => conveys_ret ()) h l hl
  · exact conveys_ret ()

variable {md5 : Bytes → Mem 16} {st : Mem 144}

-- The client's side: the verdict is only heard.
theorem conveys_syncFile (hF : Locking F) {path : Bytes} (hpath : (path.drop 2).length < 2 ^ 32) :
    Conveys F (syncFile md5 st.val path) .idle [.content st.val (path.drop 2)] .idle := by
  have hverdict : Conveys F (iter awaitVerdict (zeros sizeofHeader)) .idle [] .idle := by
    refine conveys_iter (fun header => header.length = sizeofHeader) (zeros_length _)
      fun header hheader h l hl => ?_
    refine says_bind ((says_recvMessage hheader (by decide) h l hl).mono ?_)
    rintro _ h' l' ws ⟨answer, rfl, hlength, rfl, hl', rfl⟩
    refine says_ret ⟨hl', .refl _, ?_⟩
    have hread : readWords .idle [.heard answer] = (.idle, []) := rfl
    by_cases hblock : headerStatus answer = statusBlock
    · simpa [hblock] using ⟨hlength, hread⟩
    · simpa [hblock] using hread
  have hsend := conveys_bind (conveys_sendMeta (F := F) md5 st.property hpath) fun _ =>
    conveys_after hverdict fun header => (show Conveys F (if headerStatus header = statusMore then
        sendFile st.val path else ret ()) .idle [] .idle by
      split_ifs
      · exact conveys_sendFile hF st.val path
      · exact conveys_ret ())
  exact hsend

-- The server's side: the header behind which an entry or a link follows.
theorem conveys_announcement : Conveys F (sendMessage (header 0 0 statusMore 0 0)) .idle [] .idle :=
  conveys_sendMessage (by simp [header])

theorem conveys_sendEntry (hF : Locking F) {len : Nat} {cpath : Bytes}
    (hpath : (cpath.drop len).length < 2 ^ 32) :
    Conveys F (sendEntry md5 len st.val cpath) .idle [.content st.val (cpath.drop len)] .idle :=
  conveys_after conveys_announcement fun _ =>
    conveys_bind (conveys_sendMeta md5 st.property hpath) fun _ => conveys_sendFile hF st.val cpath

end Files

section Links

variable {F : Type} [Posix F] {st : Mem 144} {target : Bytes} {hl : List HardLink}

-- The paths in `hl` are the ones of an array of PATH_MAX bytes.
def Short (hl : List HardLink) : Prop := ∀ h ∈ hl, h.path.length < pathMax

theorem known_cons (h : HardLink) (hl : List HardLink) (inode : Nat) :
    known (h :: hl) inode = if h.inode = inode then h :: known hl inode else known hl inode := by
  simp [known, List.filter_cons]

theorem conveys_clientKnownLinks (hshort : Short hl) (htarget : target.length < pathMax) :
    Conveys F (clientKnownLinks st.val target hl) .idle
      ((known hl (stIno st.val)).map fun h => .hardlink h.path target st.val) .idle := by
  induction hl with
  | nil => exact conveys_ret ()
  | cons h hl ih =>
      have hrest := ih fun h' hh => hshort h' (List.mem_cons_of_mem _ hh)
      have hpath := hshort h (List.mem_cons_self ..)
      rw [clientKnownLinks, known_cons]
      split_ifs with hinode
      · have hlink := conveys_sendHardlink (F := F) (hpath.trans (by decide)) (htarget.trans (by decide))
          st.property
        have hsent := conveys_bind hlink fun _ => hrest
        simp only [bind_assoc] at hsent
        exact hsent
      · exact hrest

theorem conveys_sendKnownLinks (hshort : Short hl) (htarget : target.length < pathMax) :
    Conveys F (sendKnownLinks st.val target hl) .idle
      ((known hl (stIno st.val)).map fun h => .hardlink h.path target st.val) .idle := by
  induction hl with
  | nil => exact conveys_ret ()
  | cons h hl ih =>
      have hrest := ih fun h' hh => hshort h' (List.mem_cons_of_mem _ hh)
      have hpath := hshort h (List.mem_cons_self ..)
      rw [sendKnownLinks, known_cons]
      split_ifs with hinode
      · have hlink := conveys_sendHardlink (F := F) (hpath.trans (by decide)) (htarget.trans (by decide))
          st.property
        have hsent := conveys_after conveys_announcement fun _ => conveys_bind hlink fun _ => hrest
        simp only [bind_assoc] at hsent
        exact hsent
      · exact hrest

end Links

section Visits

variable {F α β : Type} [Posix F] {md5 : Bytes → Mem 16} {len : Nat} {f : F} {hl hl' hl'' : List HardLink}
  {us vs : List Visit} {h h' h'' : Host F} {l l' l'' : Link UInt8} {ws ws' : List (Word UInt8)}

theorem itemsOf_append (len : Nat) (hl : List HardLink) (us vs : List Visit) :
    itemsOf len hl (us ++ vs) = itemsOf len hl us ++ itemsOf len (hl ++ linksOf len us) vs := by
  induction us generalizing hl with
  | nil => simp [itemsOf, linksOf]
  | cons u us ih =>
      have hlinks : linksOf len (u :: us) = linksOf len [u] ++ linksOf len us :=
        @linksOf_append [u] us len
      simp only [List.cons_append, itemsOf, ih, hlinks, List.append_assoc]

-- What holds where a traversal that began with `hl` in the tree of `f` has come past `vs`.
structure Visited (len : Nat) (f : F) (hl : List HardLink) (vs : List Visit) (hl' : List HardLink)
    (h' : Host F) (l' : Link UInt8) (ws : List (Word UInt8)) : Prop where
  items : readWords .idle ws = (.idle, itemsOf len hl vs)
  table : hl' = hl ++ linksOf len vs
  opened : l'.closed = false
  tree : SameTree f h'.fs
  short : Short hl'

theorem Visited.append (hu : Visited len f hl us hl' h' l' ws)
    (hv : Visited len f hl' vs hl'' h'' l'' ws') :
    Visited len f hl (us ++ vs) hl'' h'' l'' (ws ++ ws') where
  items := by
    rw [readWords_trans hu.items hv.items, itemsOf_append, ← hu.table]
  table := by
    rw [hv.table, hu.table, linksOf_append, List.append_assoc]
  opened := hv.opened
  tree := hv.tree
  short := hv.short

theorem visited_nil (hl : l.closed = false) (htree : SameTree f h.fs) {table : List HardLink}
    (hshort : Short table) : Visited len f table [] table h l [] :=
  ⟨rfl, by simp [linksOf], hl, htree, hshort⟩

-- A result behind what is sent.
theorem says_conveyed {p : Code α} {items : List Item} (hp : Conveys F p .idle items .idle) (x : β)
    (hl : l.closed = false) : Says host (p >>= fun _ => ret x) h l fun x' h' l' ws =>
      x' = x ∧ readWords .idle ws = (.idle, items) ∧ l'.closed = false ∧ SameTree h.fs h'.fs := by
  refine says_bind ((hp h l hl).mono ?_)
  rintro a h' l' ws hsent
  refine says_ret ⟨rfl, ?_⟩
  rwa [List.append_nil]

theorem short_append {v : Visit} (hshort : Short hl) (hpath : (v.path.drop len).length < pathMax) :
    Short (hl ++ linksOf len [v]) := by
  intro h hh
  rcases List.mem_append.mp hh with hold | hnew
  · exact hshort h hold
  · obtain ⟨u, hu, rfl⟩ := List.mem_map.mp hnew
    obtain rfl := List.mem_singleton.mp (List.mem_filter.mp hu).1
    exact hpath

-- One entry, from its items and what becomes of the table.
theorem visited_entry {v : Visit} (hshort : Short hl) (hpath : (v.path.drop len).length < pathMax)
    (htree : SameTree f h.fs) (htable : hl' = hl ++ linksOf len [v])
    (hsent : readWords .idle ws = (.idle, itemsFor len hl v) ∧ l'.closed = false ∧
      SameTree h.fs h'.fs) : Visited len f hl [v] hl' h' l' ws where
  items := by rw [hsent.1, itemsOf, itemsOf, List.append_nil]
  table := htable
  opened := hsent.2.1
  tree := htree.trans hsent.2.2
  short := htable ▸ short_append hshort hpath

theorem says_clientEntry (hF : Steady F) {cpath : Bytes} {client : Client} (st : Mem 144)
    (hshort : Short client.hl) (hpath : (cpath.drop 2).length < pathMax) (htree : SameTree f h.fs)
    (hl : l.closed = false) :
    Says host (clientEntry md5 st.val cpath client) h l fun client' h' l' ws =>
      Visited 2 f client.hl [⟨cpath, st⟩] client'.hl h' l' ws := by
  have hsync : Conveys F (syncFile md5 st.val cpath) .idle [.content st.val (cpath.drop 2)] .idle :=
    conveys_syncFile hF.toLocking (hpath.trans (by decide))
  by_cases hlinked : linked st.val
  · have hbranch : (!sIsDir (stMode st.val) && stNlink st.val != 1) = true := hlinked
    have hlinks := @conveys_clientKnownLinks F _ st _ _ hshort hpath
    have hall := conveys_bind hlinks fun _ => conveys_bind hsync fun _ =>
      @conveys_checkSize F _ .idle (client.hl.length < maxClientLinks) _
    rw [List.append_nil] at hall
    have hentry := says_conveyed (h := h) hall
      ({ client with hl := client.hl ++ [{ inode := stIno st.val, path := cpath.drop 2 }] } : Client) hl
    simp only [bind_assoc] at hentry
    rw [clientEntry, if_pos hbranch]
    refine hentry.mono ?_
    rintro _ h' l' ws ⟨rfl, hsent⟩
    refine visited_entry hshort hpath htree (by simp [linksOf, hlinked]) ?_
    rwa [itemsFor, if_pos hlinked]
  · have hbranch : ¬(!sIsDir (stMode st.val) && stNlink st.val != 1) = true := hlinked
    rw [clientEntry, if_neg hbranch]
    refine (says_conveyed hsync client hl).mono ?_
    rintro _ h' l' ws ⟨rfl, hsent⟩
    refine visited_entry hshort hpath htree (by simp [linksOf, hlinked]) ?_
    rwa [itemsFor, if_neg hlinked]

theorem says_serverEntry (hF : Locking F) {cpath : Bytes} {connFd : Nat} (st : Mem 144)
    (hshort : Short hl) (hpath : (cpath.drop len).length < pathMax) (htree : SameTree f h.fs)
    (hopen : l.closed = false) :
    Says host (serverEntry md5 len connFd st.val cpath hl) h l fun hl' h' l' ws =>
      Visited len f hl [⟨cpath, st⟩] hl' h' l' ws := by
  have hsend : Conveys F (sendEntry md5 len st.val cpath) .idle [.content st.val (cpath.drop len)] .idle :=
    conveys_sendEntry hF (hpath.trans (by decide))
  by_cases hlinked : linked st.val
  · have hbranch : (!sIsDir (stMode st.val) && stNlink st.val != 1) = true := hlinked
    have hlinks := @conveys_sendKnownLinks F _ st _ _ hshort hpath
    have hall := conveys_after (@conveys_checkSize F _ .idle (connFd < maxConns) _) fun _ =>
      conveys_bind hlinks fun _ => conveys_bind hsend fun _ =>
        @conveys_checkSize F _ .idle (hl.length < maxLinks) _
    rw [List.append_nil] at hall
    have hentry := says_conveyed (h := h) hall
      (hl ++ [{ inode := stIno st.val, path := cpath.drop len }]) hopen
    simp only [bind_assoc] at hentry
    rw [serverEntry, if_pos hbranch]
    refine hentry.mono ?_
    rintro _ h' l' ws ⟨rfl, hsent⟩
    refine visited_entry hshort hpath htree (by simp [linksOf, hlinked]) ?_
    rwa [itemsFor, if_pos hlinked]
  · have hbranch : ¬(!sIsDir (stMode st.val) && stNlink st.val != 1) = true := hlinked
    rw [serverEntry, if_neg hbranch]
    refine (says_conveyed hsend hl hopen).mono ?_
    rintro _ h' l' ws ⟨rfl, hsent⟩
    refine visited_entry hshort hpath htree (by simp [linksOf, hlinked]) ?_
    rwa [itemsFor, if_neg hlinked]

theorem clientPath_length (dirName name : Bytes) : ((clientPath dirName name).drop 2).length < pathMax := by
  have htake : (clientPath dirName name).length ≤ pathMax - 1 := by
    unfold clientPath
    split_ifs
    · exact List.length_take_le _ _
    · exact List.length_take_le _ _
  have hpos : 0 < pathMax := by decide
  rw [List.length_drop]
  omega

theorem serverPath_length (dirName name : Bytes) (len : Nat) :
    ((snprintfPath dirName name).drop len).length < pathMax := by
  have htake : (snprintfPath dirName name).length ≤ pathMax - 1 := List.length_take_le _ _
  have hpos : 0 < pathMax := by decide
  rw [List.length_drop]
  omega

theorem says_watchAndDescend (hF : Steady F) {descend : Bytes → Client → Code Client}
    {below : Bytes → List Visit}
    (hdescend : ∀ dirName client (h : Host F) l, SameTree f h.fs → l.closed = false → Short client.hl →
      Says host (descend dirName client) h l fun client' h' l' ws =>
        Visited 2 f client.hl (below dirName) client'.hl h' l' ws)
    (cpath : Bytes) {client : Client} (hshort : Short client.hl) (htree : SameTree f h.fs)
    (hl : l.closed = false) : Says host (watchAndDescend descend cpath client) h l
      fun client' h' l' ws => Visited 2 f client.hl (below cpath) client'.hl h' l' ws := by
  refine says_bind (says_sys fun wd h' hexec => ?_)
  have htree' : SameTree f h'.fs := by
    obtain ⟨rfl, rfl⟩ := Prod.mk.inj (Option.some.inj hexec)
    exact htree.trans (hF.addWatch h.fs cpath)
  unfold setEventPath
  by_cases hfits : 0 ≤ wd ∧ wd < maxWatches ∧ cpath.length < pathMax
  · rw [checkSize_pos hfits, ret_bind, ret_bind]
    exact hdescend cpath _ h' l htree' hl hshort
  · rw [checkSize_neg hfits]
    exact says_halt

theorem says_clientVisit (hF : Steady F) {descend : Bytes → Client → Code Client}
    {below : Bytes → List Visit}
    (hdescend : ∀ dirName client (h : Host F) l, SameTree f h.fs → l.closed = false → Short client.hl →
      Says host (descend dirName client) h l fun client' h' l' ws =>
        Visited 2 f client.hl (below dirName) client'.hl h' l' ws)
    (dirName : Bytes) (entries : List Dirent) (client : Client) (hshort : Short client.hl)
    (htree : SameTree f h.fs) (hl : l.closed = false) :
    Says host (clientVisit md5 descend dirName entries client) h l fun client' h' l' ws =>
      Visited 2 f client.hl (clientVisitEntries f below dirName entries) client'.hl h' l' ws := by
  induction entries generalizing client h l with
  | nil => exact says_ret (visited_nil hl htree hshort)
  | cons entry entries ih =>
      rw [clientVisit, clientVisitEntries]
      by_cases hhidden : entry.name.val.head? = some dot
      · rw [if_pos hhidden, if_pos hhidden]
        exact ih client hshort htree hl
      · rw [if_neg hhidden, if_neg hhidden]
        refine says_bind (says_sys fun found h' hexec => ?_)
        obtain ⟨hfound, rfl⟩ := Prod.mk.inj (Option.some.inj hexec)
        rw [htree.lstat] at hfound
        rw [hfound]
        cases found with
        | none => exact says_ret (visited_nil hl htree hshort)
        | some st =>
            refine says_bind ((says_clientEntry hF st hshort (clientPath_length _ _) htree hl).mono ?_)
            rintro client' h' l' ws hentry
            refine says_bind (Says.mono (Q := fun client'' h'' l'' ws' => Visited 2 f client'.hl
              (if entry.isDir then below (clientPath dirName entry.name.val) else []) client''.hl h'' l''
              ws') ?_ ?_)
            · split_ifs
              · exact says_watchAndDescend hF hdescend _ hentry.short hentry.tree hentry.opened
              · exact says_ret (visited_nil hentry.opened hentry.tree hentry.short)
            · rintro client'' h'' l'' ws' hbelow
              refine (ih client'' hbelow.short hbelow.tree hbelow.opened).mono ?_
              intro client₃ h₃ l₃ ws'' hrest
              exact hentry.append (hbelow.append hrest)

theorem says_clientTraverseFile (hF : Steady F) (depth : Nat) (dirName : Bytes) (client : Client)
    (hshort : Short client.hl) (htree : SameTree f h.fs) (hl : l.closed = false) :
    Says host (clientTraverseFile md5 depth dirName client) h l fun client' h' l' ws =>
      Visited 2 f client.hl (clientVisits f depth dirName) client'.hl h' l' ws := by
  induction depth generalizing dirName client h l with
  | zero => exact says_halt
  | succ depth ih =>
      rw [clientTraverseFile, clientVisits]
      refine says_bind (says_sys fun found h' hexec => ?_)
      obtain ⟨hfound, rfl⟩ := Prod.mk.inj (Option.some.inj hexec)
      rw [htree.opendir] at hfound
      rw [hfound]
      cases found with
      | none => exact says_ret (visited_nil hl htree hshort)
      | some entries =>
          exact says_clientVisit hF (fun dirName client h l htree hl hshort =>
            ih dirName client hshort htree hl) dirName entries client hshort htree hl

theorem says_serverVisit (hF : Locking F) {connFd : Nat}
    {descend : Bytes → List HardLink → Code (List HardLink)} {below : Bytes → List Visit}
    (hdescend : ∀ dirName hl (h : Host F) l, SameTree f h.fs → l.closed = false → Short hl →
      Says host (descend dirName hl) h l fun hl' h' l' ws => Visited len f hl (below dirName) hl' h' l' ws)
    (dirName : Bytes) (entries : List Dirent) (hl : List HardLink) (hshort : Short hl)
    (htree : SameTree f h.fs) (hopen : l.closed = false) :
    Says host (serverVisit md5 len connFd descend dirName entries hl) h l fun hl' h' l' ws =>
      Visited len f hl (visitEntries f below dirName entries) hl' h' l' ws := by
  induction entries generalizing hl h l with
  | nil => exact says_ret (visited_nil hopen htree hshort)
  | cons entry entries ih =>
      rw [serverVisit, visitEntries]
      by_cases hhidden : entry.name.val.head? = some dot
      · rw [if_pos hhidden, if_pos hhidden]
        exact ih hl hshort htree hopen
      · rw [if_neg hhidden, if_neg hhidden]
        refine says_bind (says_sys fun found h' hexec => ?_)
        obtain ⟨hfound, rfl⟩ := Prod.mk.inj (Option.some.inj hexec)
        rw [htree.lstat] at hfound
        rw [hfound]
        cases found with
        | none => exact says_ret (visited_nil hopen htree hshort)
        | some st =>
            refine says_bind ((says_serverEntry hF st hshort
              (serverPath_length _ _ len) htree hopen).mono ?_)
            rintro hl' h' l' ws hentry
            refine says_bind (Says.mono (Q := fun hl'' h'' l'' ws' => Visited len f hl'
              (if sIsDir (stMode st.val) then below (snprintfPath dirName entry.name.val) else []) hl'' h''
              l'' ws') ?_ ?_)
            · split_ifs
              · exact hdescend _ _ _ _ hentry.tree hentry.opened hentry.short
              · exact says_ret (visited_nil hentry.opened hentry.tree hentry.short)
            · rintro hl'' h'' l'' ws' hbelow
              refine (ih hl'' hbelow.short hbelow.tree hbelow.opened).mono ?_
              intro hl₃ h₃ l₃ ws'' hrest
              exact hentry.append (hbelow.append hrest)

theorem says_serverTraverseFile (hF : Locking F) {connFd : Nat} (depth : Nat) (dirName : Bytes)
    (hl : List HardLink) (hshort : Short hl) (htree : SameTree f h.fs) (hopen : l.closed = false) :
    Says host (serverTraverseFile md5 len connFd depth dirName hl) h l fun hl' h' l' ws =>
      Visited len f hl (visits f depth dirName) hl' h' l' ws := by
  induction depth generalizing dirName hl h l with
  | zero => exact says_halt
  | succ depth ih =>
      rw [serverTraverseFile, visits]
      refine says_bind (says_sys fun found h' hexec => ?_)
      obtain ⟨hfound, rfl⟩ := Prod.mk.inj (Option.some.inj hexec)
      rw [htree.opendir] at hfound
      rw [hfound]
      cases found with
      | none => exact says_ret (visited_nil hopen htree hshort)
      | some entries =>
          exact says_serverVisit hF (fun dirName hl h l htree hopen hshort =>
            ih dirName hl hshort htree hopen) dirName entries hl hshort htree hopen

end Visits

end Csiebox.Traverse
