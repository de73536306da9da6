import Csiebox.Server.Lemmas
import Csiebox.TreeFs.Lemmas

namespace Csiebox.Transfer

open CBytes Program Prog TreeFs

section Cut

-- The content bytes among the first `k` bytes of a transfer in these pieces.
def payloadWithin : List Bytes → Nat → Nat
  | [], _ => 0
  | c :: cs, k =>
      if k < sizeofFile then 0
      else min (k - sizeofFile) c.length + payloadWithin cs (k - sizeofFile - c.length)

-- The stream ends inside no piece, and if inside a header, then so that the
-- length in the receive buffer, which still holds the previous header, is 0.
def HarmlessCut : Bytes → List Bytes → Nat → Prop
  | _, [], _ => True
  | req, c :: cs, k =>
      if k < sizeofFile then fileDatalen (overlay req ((fileMessage c.length).take k)) = 0
      else if k < sizeofFile + c.length then False
      else HarmlessCut (fileMessage c.length) cs (k - sizeofFile - c.length)

instance decidableHarmlessCut (req : Bytes) (pieces : List Bytes) (k : Nat) :
    Decidable (HarmlessCut req pieces k) :=
  match pieces with
  | [] => isTrue trivial
  | c :: cs =>
      have : Decidable (HarmlessCut (fileMessage c.length) cs (k - sizeofFile - c.length)) :=
        decidableHarmlessCut _ cs _
      inferInstanceAs (Decidable (if k < sizeofFile then
          fileDatalen (overlay req ((fileMessage c.length).take k)) = 0
        else if k < sizeofFile + c.length then False
        else HarmlessCut (fileMessage c.length) cs (k - sizeofFile - c.length)))

theorem payloadWithin_zero (pieces : List Bytes) : payloadWithin pieces 0 = 0 := by
  cases pieces <;> rfl

variable (c rest : Bytes) {k : Nat}

theorem take_in_header (h : k < sizeofFile) :
    (fileMessage c.length ++ (c ++ rest)).take k = (fileMessage c.length).take k :=
  List.take_append_of_le_length (by rw [fileMessage_length]; omega)

theorem take_in_piece (h : sizeofFile ≤ k) (h' : k < sizeofFile + c.length) :
    (fileMessage c.length ++ (c ++ rest)).take k =
      fileMessage c.length ++ c.take (k - sizeofFile) := by
  rw [List.take_append, List.take_of_length_le (by rw [fileMessage_length]; omega),
    fileMessage_length, List.take_append_of_le_length (by omega)]

theorem take_behind_piece (h : sizeofFile + c.length ≤ k) :
    (fileMessage c.length ++ (c ++ rest)).take k =
      fileMessage c.length ++ (c ++ rest.take (k - sizeofFile - c.length)) := by
  rw [List.take_append, List.take_of_length_le (by rw [fileMessage_length]; omega),
    fileMessage_length, List.take_append, List.take_of_length_le (by omega)]

end Cut

section Rounds

variable {F : Type} [Posix F] {h : Host F} {chunk fp : Nat} {req buf got payload : Bytes}

theorem exec_recvNothing {len : Nat} (hpos : 0 < len) :
    Exec host ⟨recvMessage buf len, h, ⟨[], true⟩⟩ [] ⟨ret (false, buf), h, ⟨[], true⟩⟩ := by
  have hshort := exec_recvMessage_short (K := host) (s := h)
    (show ([] : Bytes).length < len from hpos) (Nat.zero_le buf.length)
  rwa [overlay_nil] at hshort

-- A round whose header is cut short: the second receive gets nothing.
theorem exec_round_starved (chunk fp : Nat) (hgot : got.length < sizeofFile)
    (hreq : req.length = sizeofFile)
    (hfit : fileDatalen (overlay req got) ≤ buf.length) :
    Exec host ⟨receiveChunk chunk fp (req, buf), h, ⟨got, true⟩⟩ []
      ⟨ret (if fileDatalen (overlay req got) = chunk then .inl (overlay req got, buf) else .inr ()),
        { h with fs := Posix.fwrite h.fs fp (buf.take (fileDatalen (overlay req got))) },
        ⟨[], true⟩⟩ := by
  refine Exec.after (exec_recvMessage_short hgot (by omega)) ?_
  have hpayload : Exec host
      ⟨recvMessage buf (fileDatalen (overlay req got)), h, ⟨[], true⟩⟩ []
      ⟨ret (false, buf), h, ⟨[], true⟩⟩ := by
    by_cases h0 : fileDatalen (overlay req got) = 0
    · rw [h0]
      exact .refl _
    · exact exec_recvNothing (Nat.pos_of_ne_zero h0)
  refine Exec.after hpayload ?_
  simp only [checkSize_pos hfit, ret_bind]
  exact Exec.after (exec_sys rfl) (.refl _)

theorem exec_round_overrun (hgot : got.length < sizeofFile) (hreq : req.length = sizeofFile)
    (hfit : ¬fileDatalen (overlay req got) ≤ buf.length) :
    Exec host ⟨receiveChunk chunk fp (req, buf), h, ⟨got, true⟩⟩ []
      ⟨halt .overrun, h, ⟨[], true⟩⟩ := by
  refine Exec.after (exec_recvMessage_short hgot (by omega)) ?_
  refine Exec.after (exec_recvNothing (by omega)) ?_
  simp only [checkSize_neg hfit]
  exact .refl _

-- A round whose payload is cut short writes the stale rest of the buffer too.
theorem exec_round_stale (chunk fp : Nat) (hgot : got.length < payload.length)
    (hreq : req.length = sizeofFile)
    (hfit : payload.length ≤ buf.length) (hbig : payload.length < 2 ^ 64) :
    Exec host ⟨receiveChunk chunk fp (req, buf), h, ⟨fileMessage payload.length ++ got, true⟩⟩ []
      ⟨ret (if payload.length = chunk then .inl (fileMessage payload.length, overlay buf got)
          else .inr ()),
        { h with fs := Posix.fwrite h.fs fp ((overlay buf got).take payload.length) },
        ⟨[], true⟩⟩ := by
  have hdatalen : fileDatalen (fileMessage payload.length) = payload.length :=
    fileDatalen_fileMessage hbig
  have hlength : (overlay buf got).length = buf.length := overlay_length (by omega)
  refine Exec.after (exec_recvMessage_full _ (fileMessage_length _) hreq (by decide)) ?_
  refine Exec.after (exec_recvMessage_short (by omega) (by omega)) ?_
  simp only [hdatalen, hlength, checkSize_pos hfit, ret_bind]
  exact Exec.after (exec_sys rfl) (.refl _)

-- A loop that holds the length of a full chunk when the connection is used up
-- writes its buffer forever.
theorem starved_never_stops (hreq : req.length = sizeofFile) (hfull : fileDatalen req = chunk)
    (hbuf : chunk ≤ buf.length) {out : Bytes} {q : Proc Sys UInt8 Fault (Host F) Unit}
    (hrun : Exec host ⟨receiveChunks chunk fp req buf, h, ⟨[], true⟩⟩ out q) :
    step host q ≠ none := by
  refine Exec.never_stops
    (P := fun p => ∃ g, p = ⟨receiveChunks chunk fp req buf, g, ⟨[], true⟩⟩) ?_ ⟨h, rfl⟩ hrun
  rintro _ ⟨g, rfl⟩
  have hround := exec_round_starved (h := g) chunk fp (show ([] : Bytes).length < sizeofFile by decide)
    hreq (show _ ≤ buf.length by rw [overlay_nil, hfull]; exact hbuf)
  rw [overlay_nil, if_pos hfull] at hround
  exact ⟨[], _, [], _, rfl, hround.bind _, _, rfl⟩

end Rounds

section Survival

variable {chunk fp k : Nat} {content req buf got : Bytes} {h : Host TreeFs}

-- The loop ends, and what it writes is the sender's content up to a byte that
-- arrived.
def Survives (chunk fp : Nat) (content : Bytes) (k : Nat) (req buf : Bytes) (h : Host TreeFs) :
    Prop :=
  ∃ h' l written,
    Exec host ⟨receiveChunks chunk fp req buf, h, ⟨(chunkStream chunk content).take k, true⟩⟩ []
      ⟨ret (), h', l⟩ ∧
    h'.fs.contentOf fp = h.fs.contentOf fp ++ written ∧ written <+: content ∧
    written.length ≤ payloadWithin (chunksOf chunk content) k

-- The first piece of a transfer and what follows it.
theorem chunks_cases (hchunk : 0 < chunk) (content : Bytes) :
    ∃ c pieces rest, chunksOf chunk content = c :: pieces ∧
      chunkStream chunk content = fileMessage c.length ++ (c ++ rest) ∧
      ((c = content.take chunk ∧ c.length = chunk ∧
          pieces = chunksOf chunk (content.drop chunk) ∧
          rest = chunkStream chunk (content.drop chunk)) ∨
        (c.length < chunk ∧ content = c ∧ pieces = [] ∧ rest = [])) := by
  rw [chunksOf, chunkStream]
  by_cases hfull : chunk ≤ content.length
  · have htake : (content.take chunk).length = chunk := List.length_take_of_le hfull
    rw [if_pos ⟨hchunk, hfull⟩, if_pos ⟨hchunk, hfull⟩]
    exact ⟨_, _, _, rfl, by rw [htake], .inl ⟨rfl, htake, rfl, rfl⟩⟩
  · rw [if_neg (fun h => hfull h.2), if_neg (fun h => hfull h.2)]
    exact ⟨content, [], [], rfl, by simp, .inr ⟨by omega, rfl, rfl, rfl⟩⟩

-- A cut that does no harm loses only what comes behind it.
theorem harmless_run (fp : Nat) (hchunk : 0 < chunk) (hbig : chunk < 2 ^ 64)
    (hreq : req.length = sizeofFile) (hbuf : chunk ≤ buf.length)
    (hcut : HarmlessCut req (chunksOf chunk content) k) :
    ∃ h' l, Exec host
        ⟨receiveChunks chunk fp req buf, h, ⟨(chunkStream chunk content).take k, true⟩⟩ []
        ⟨ret (), h', l⟩ ∧
      h'.fs.contentOf fp =
        h.fs.contentOf fp ++ content.take (payloadWithin (chunksOf chunk content) k) := by
  induction hn : content.length using Nat.strong_induction_on
    generalizing content h req buf k with
  | _ n ih =>
      subst hn
      obtain ⟨c, pieces, rest, hpieces, hstream, hcase⟩ := chunks_cases hchunk content
      have hfit : c.length ≤ buf.length := by omega
      rw [hpieces, HarmlessCut] at hcut
      rw [hpieces, hstream, payloadWithin]
      split_ifs at hcut with hheader hpiece
      · have hgot : ((fileMessage c.length).take k).length < sizeofFile := by
          rw [List.length_take, fileMessage_length]
          omega
        have hround := exec_round_starved (h := h) chunk fp hgot hreq
          (show _ ≤ buf.length by omega)
        rw [hcut, if_neg (by omega), ← take_in_header c rest hheader] at hround
        refine ⟨_, _, exec_iter_done hround, ?_⟩
        rw [if_pos hheader, List.take_zero, List.take_zero, contentOf_fwrite]
      · have hround := exec_receiveChunk (h := h) (c := true) chunk fp buf c
          (rest.take (k - sizeofFile - c.length)) hreq hfit (by omega)
        rw [← take_behind_piece c rest (by omega)] at hround
        rw [if_neg hheader, min_eq_right (by omega)]
        rcases hcase with ⟨htake, hfull, rfl, rfl⟩ | ⟨hshort, rfl, rfl, rfl⟩
        · have hlong : chunk ≤ content.length := by
            rw [htake, List.length_take] at hfull
            omega
          rw [if_pos hfull] at hround
          obtain ⟨h', l, hrun, hcontent⟩ := ih (h := { h with fs := Posix.fwrite h.fs fp c })
            (content.drop chunk).length (by rw [List.length_drop]; omega)
            (fileMessage_length c.length) ((overlay_length hfit).symm ▸ hbuf) hcut rfl
          refine ⟨h', l, (exec_iter_more hround).trans hrun, ?_⟩
          rw [hcontent, contentOf_fwrite, List.append_assoc, hfull, List.take_add, ← htake]
        · rw [if_neg (by omega)] at hround
          refine ⟨_, _, exec_iter_done hround, ?_⟩
          rw [payloadWithin, Nat.add_zero, List.take_length, contentOf_fwrite]

-- A loop that gets no complete header, and has a length in its buffer.
theorem starved_run (hgot : got.length < sizeofFile) (hreq : req.length = sizeofFile)
    (hbuf : chunk ≤ buf.length) (hstale : fileDatalen (overlay req got) ≠ 0)
    {out : Bytes} {h' : Host TreeFs} {l : Link UInt8}
    (hrun : Exec host ⟨receiveChunks chunk fp req buf, h, ⟨got, true⟩⟩ out ⟨ret (), h', l⟩) :
    (h.fs.contentOf fp).length < (h'.fs.contentOf fp).length := by
  by_cases hfit : fileDatalen (overlay req got) ≤ buf.length
  · have hround := exec_round_starved (h := h) chunk fp hgot hreq hfit
    split_ifs at hround with hfull
    · obtain ⟨more, -, hrest⟩ := hrun.of_stuck (exec_iter_more hround) rfl
      have hlength : (overlay req got).length = sizeofFile := by rw [overlay_length] <;> omega
      exact absurd rfl (starved_never_stops hlength hfull hbuf hrest)
    · obtain ⟨-, hend⟩ := hrun.unique (exec_iter_done hround) rfl rfl
      cases hend
      rw [contentOf_fwrite, List.length_append, List.length_take]
      omega
  · obtain ⟨-, hend⟩ := hrun.unique (exec_iter_halt (exec_round_overrun hgot hreq hfit)) rfl rfl
    simp at hend

-- A loop that gets no complete payload.
theorem stale_run {payload : Bytes} (hgot : got.length < payload.length)
    (hreq : req.length = sizeofFile) (hfit : payload.length ≤ chunk) (hbuf : chunk ≤ buf.length)
    (hbig : chunk < 2 ^ 64) {out : Bytes} {h' : Host TreeFs} {l : Link UInt8}
    (hrun : Exec host ⟨receiveChunks chunk fp req buf, h, ⟨fileMessage payload.length ++ got, true⟩⟩
      out ⟨ret (), h', l⟩) :
    (h.fs.contentOf fp).length + got.length < (h'.fs.contentOf fp).length := by
  have hround := exec_round_stale (h := h) chunk fp hgot hreq (hfit.trans hbuf)
    (by omega)
  have hlength : (overlay buf got).length = buf.length := overlay_length (by omega)
  split_ifs at hround with hfull
  · obtain ⟨more, -, hrest⟩ := hrun.of_stuck (exec_iter_more hround) rfl
    have hdatalen : fileDatalen (fileMessage payload.length) = chunk := by
      rw [fileDatalen_fileMessage (by omega), hfull]
    exact absurd rfl (starved_never_stops (fileMessage_length _) hdatalen (by omega) hrest)
  · obtain ⟨-, hend⟩ := hrun.unique (exec_iter_done hround) rfl rfl
    cases hend
    rw [contentOf_fwrite, List.length_append, List.length_take]
    omega

-- Any other cut leaves the loop running, stops it in a fault, or makes it write
-- more than it got.
theorem harmful_run (hchunk : 0 < chunk) (hbig : chunk < 2 ^ 64)
    (hreq : req.length = sizeofFile) (hbuf : chunk ≤ buf.length)
    (hcut : ¬HarmlessCut req (chunksOf chunk content) k) {out : Bytes} {h' : Host TreeFs}
    {l : Link UInt8}
    (hrun : Exec host
      ⟨receiveChunks chunk fp req buf, h, ⟨(chunkStream chunk content).take k, true⟩⟩ out
      ⟨ret (), h', l⟩) :
    (h.fs.contentOf fp).length + payloadWithin (chunksOf chunk content) k <
      (h'.fs.contentOf fp).length := by
  induction hn : content.length using Nat.strong_induction_on
    generalizing content h req buf k out with
  | _ n ih =>
      subst hn
      obtain ⟨c, pieces, rest, hpieces, hstream, hcase⟩ := chunks_cases hchunk content
      have hfit : c.length ≤ buf.length := by omega
      rw [hpieces, HarmlessCut] at hcut
      rw [hpieces, payloadWithin]
      rw [hstream] at hrun
      split_ifs at hcut with hheader hpiece
      · have hgot : ((fileMessage c.length).take k).length < sizeofFile := by
          rw [List.length_take, fileMessage_length]
          omega
        rw [take_in_header c rest hheader] at hrun
        rw [if_pos hheader]
        exact starved_run hgot hreq hbuf hcut hrun
      · rw [take_in_piece c rest (by omega) hpiece] at hrun
        rw [if_neg hheader, show k - sizeofFile - c.length = 0 by omega, payloadWithin_zero,
          min_eq_left (by omega)]
        have hlater := stale_run (by rw [List.length_take]; omega) hreq (by omega) hbuf hbig hrun
        rwa [List.length_take, min_eq_left (by omega)] at hlater
      · have hround := exec_receiveChunk (h := h) (c := true) chunk fp buf c
          (rest.take (k - sizeofFile - c.length)) hreq hfit (by omega)
        rw [← take_behind_piece c rest (by omega)] at hround
        rw [if_neg hheader, min_eq_right (by omega)]
        rcases hcase with ⟨htake, hfull, rfl, rfl⟩ | ⟨hshort, rfl, rfl, rfl⟩
        · have hlong : chunk ≤ content.length := by
            rw [htake, List.length_take] at hfull
            omega
          rw [if_pos hfull] at hround
          obtain ⟨more, -, hrest⟩ := hrun.of_stuck (exec_iter_more hround) rfl
          have hlater := ih (content.drop chunk).length (by rw [List.length_drop]; omega)
            (fileMessage_length c.length) ((overlay_length hfit).symm ▸ hbuf) hcut hrest rfl
          rw [contentOf_fwrite, List.length_append] at hlater
          omega
        · exact absurd trivial hcut

theorem survives_iff (hchunk : 0 < chunk) (hbig : chunk < 2 ^ 64) (hreq : req.length = sizeofFile)
    (hbuf : chunk ≤ buf.length) :
    Survives chunk fp content k req buf h ↔ HarmlessCut req (chunksOf chunk content) k := by
  constructor
  · rintro ⟨h', l, written, hrun, hwritten, -, hlength⟩
    by_contra hcut
    have hmore := harmful_run hchunk hbig hreq hbuf hcut hrun
    rw [hwritten, List.length_append] at hmore
    omega
  · intro hcut
    obtain ⟨h', l, hrun, hcontent⟩ := harmless_run (h := h) fp hchunk hbig hreq hbuf hcut
    exact ⟨h', l, _, hrun, hcontent, List.take_prefix _ _, List.length_take_le _ _⟩

-- The end of the connection right behind a full first piece.
theorem full_piece_never_stops (hchunk : 0 < chunk) (hbig : chunk < 2 ^ 64)
    (hreq : req.length = sizeofFile) (hbuf : chunk ≤ buf.length) (hfull : chunk ≤ content.length)
    {out : Bytes} {q : Proc Sys UInt8 Fault (Host TreeFs) Unit}
    (hrun : Exec host
      ⟨receiveChunks chunk fp req buf, h, ⟨(chunkStream chunk content).take (sizeofFile + chunk), true⟩⟩
      out q) : step host q ≠ none := by
  intro hstop
  have htake : (content.take chunk).length = chunk := List.length_take_of_le hfull
  have hround := exec_receiveChunk (h := h) (c := true) chunk fp buf (content.take chunk) [] hreq
    (htake.trans_le hbuf) (by omega)
  have hstream : (chunkStream chunk content).take (sizeofFile + chunk) =
      fileMessage (content.take chunk).length ++ (content.take chunk ++ []) := by
    have hcut := take_behind_piece (content.take chunk) (chunkStream chunk (content.drop chunk)) le_rfl
    rw [htake] at hcut
    rw [chunkStream, if_pos ⟨hchunk, hfull⟩, hcut, htake, Nat.sub_sub, Nat.sub_self, List.take_zero]
  rw [if_pos htake, ← hstream] at hround
  obtain ⟨more, -, hrest⟩ := hrun.of_stuck (exec_iter_more hround) hstop
  have hdatalen : fileDatalen (fileMessage (content.take chunk).length) = chunk := by
    rw [fileDatalen_fileMessage (by omega), htake]
  exact starved_never_stops (fileMessage_length _) hdatalen
    ((overlay_length (htake.trans_le hbuf)).symm ▸ hbuf) hrest hstop

end Survival

-- A transfer cut off after `k` bytes ends well exactly when the cut is harmless,
-- whatever the two buffers of the loop hold in the beginning.
theorem interrupted_transfer_iff (content : Bytes) (k fp : Nat) (req : Mem sizeofFile) (buf : Mem N)
    (h : Host TreeFs) :
    Survives N fp content k req.val buf.val h ↔ HarmlessCut req.val (chunksOf N content) k :=
  survives_iff (by decide) (by decide) req.property buf.property.ge

section Instances

theorem chunks_short {content : Bytes} (hshort : content.length < N) :
    chunksOf N content = [content] := by
  rw [chunksOf, if_neg (by omega)]

-- A file of exactly one full piece.
def fullPiece : Bytes := zeros N

-- A destination just opened.
def destination : Host TreeFs := exampleHost (exampleFs [[⟨[0x61], validName_a⟩]] fun _ => .file [])

-- The server's loop on a full piece behind which the connection ends: it goes
-- on for ever. On a file of two bytes that is cut off behind the first one it
-- writes a second byte from its buffer.
theorem full_piece_then_end_never_stops :
    (∀ out q, Exec host ⟨receiveChunks N 0 (zeros sizeofFile) (zeros N), destination,
        ⟨(chunkStream N fullPiece).take (sizeofFile + N), true⟩⟩ out q → step host q ≠ none) ∧
      ¬Survives N 0 [0x78, 0x79] (sizeofFile + 1) (zeros sizeofFile) (zeros N) destination := by
  refine ⟨fun out q hrun => full_piece_never_stops (by decide) (by decide) (zeros_length _)
    (zeros_length N).ge (zeros_length N).ge hrun, ?_⟩
  rw [survives_iff (by decide) (by decide) (zeros_length _) (zeros_length N).ge,
    chunks_short (by decide)]
  decide

end Instances

end Csiebox.Transfer
