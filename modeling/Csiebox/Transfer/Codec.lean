import Csiebox.Lib.Requests
import Csiebox.Server.Lemmas
import Csiebox.TreeFs.Lemmas

namespace Csiebox.Codec

open CBytes Program Prog

section Pieces

variable {chunk : Nat} {content : Bytes}

-- A full chunk is followed by another one, so a content of full chunks only
-- ends with an empty one.
theorem chunksOf_full (hchunk : 0 < chunk) (hfull : chunk ≤ content.length) :
    chunksOf chunk content = content.take chunk :: chunksOf chunk (content.drop chunk) := by
  rw [chunksOf, if_pos ⟨hchunk, hfull⟩]

theorem chunksOf_short (hshort : content.length < chunk) : chunksOf chunk content = [content] := by
  rw [chunksOf, if_neg (by omega)]

theorem chunkStream_full (hchunk : 0 < chunk) (hfull : chunk ≤ content.length) :
    chunkStream chunk content =
      fileMessage chunk ++ (content.take chunk ++ chunkStream chunk (content.drop chunk)) := by
  rw [chunkStream, if_pos ⟨hchunk, hfull⟩]

theorem chunkStream_short (hshort : content.length < chunk) :
    chunkStream chunk content = fileMessage content.length ++ content := by
  rw [chunkStream, if_neg (by omega)]

-- The induction both loops follow.
theorem chunk_induction (hchunk : 0 < chunk) {P : Bytes → Prop}
    (full : ∀ content, chunk ≤ content.length → P (content.drop chunk) → P content)
    (short : ∀ content, content.length < chunk → P content) (content : Bytes) : P content := by
  induction hn : content.length using Nat.strong_induction_on generalizing content with
  | _ n ih =>
      subst hn
      by_cases hfull : chunk ≤ content.length
      · exact full content hfull (ih _ (by rw [List.length_drop]; omega) _ rfl)
      · exact short content (by omega)

theorem chunksOf_le (hchunk : 0 < chunk) : ∀ c ∈ chunksOf chunk content, c.length ≤ chunk := by
  induction content using chunk_induction hchunk with
  | full content hfull ih =>
      rw [chunksOf_full hchunk hfull]
      intro c hc
      rcases List.mem_cons.mp hc with rfl | hc
      · exact List.length_take_le _ _
      · exact ih c hc
  | short content hshort =>
      rw [chunksOf_short hshort]
      intro c hc
      obtain rfl := List.mem_singleton.mp hc
      omega

end Pieces

section Receiving

variable {F : Type} [Posix F] {h : Host F} {chunk fp : Nat} {req buf content payload : Bytes} {c : Bool}

-- What a round asks for: the header, and the payload unless it is empty.
def roundRequests (payload : Bytes) : List Nat :=
  if payload.length = 0 then [sizeofFile] else [sizeofFile, payload.length]

theorem asked_recvMessage {message bs : Bytes} {len : Nat} (rest : Bytes) (hlen : bs.length = len)
    (hfit : len ≤ message.length) :
    Asked host ⟨recvMessage message len, h, ⟨bs ++ rest, c⟩⟩ (if len = 0 then [] else [len])
      ⟨ret (decide (0 < len), overlay message bs), h, ⟨rest, c⟩⟩ := by
  by_cases h0 : len = 0
  · subst h0
    obtain rfl := List.eq_nil_of_length_eq_zero hlen
    simpa using Asked.refl _
  · rw [recvMessage, if_neg h0, if_neg h0]
    refine Asked.seq (asked_hear hlen) ?_
    rw [checkSize_pos (by omega), ret_bind, beq_iff_eq.mpr hlen,
      decide_eq_true (Nat.pos_of_ne_zero h0)]
    exact .refl _

theorem asked_receiveChunk (chunk fp : Nat) (hreq : req.length = sizeofFile)
    (hfit : payload.length ≤ buf.length) (hbig : payload.length < 2 ^ 64) (rest : Bytes) :
    Asked host ⟨receiveChunk chunk fp (req, buf), h,
        ⟨fileMessage payload.length ++ (payload ++ rest), c⟩⟩ (roundRequests payload)
      ⟨ret (if payload.length = chunk then
            .inl (fileMessage payload.length, overlay buf payload) else .inr ()),
        { h with fs := Posix.fwrite h.fs fp payload }, ⟨rest, c⟩⟩ := by
  have hdatalen : fileDatalen (fileMessage payload.length) = payload.length :=
    fileDatalen_fileMessage hbig
  have hhead : overlay req (fileMessage payload.length) = fileMessage payload.length :=
    overlay_full (by rw [fileMessage_length, hreq])
  have hwrite : (overlay buf payload).take payload.length = payload := by simp [overlay]
  have hmessage := asked_recvMessage (h := h) (c := c) (payload ++ rest)
    (fileMessage_length payload.length) hreq.ge
  rw [hhead] at hmessage
  have hpayload := asked_recvMessage (h := h) (c := c) rest rfl hfit
  have hsplit : roundRequests payload = (if sizeofFile = 0 then [] else [sizeofFile]) ++
      ((if payload.length = 0 then [] else [payload.length]) ++ []) := by
    unfold roundRequests
    split_ifs <;> simp_all [sizeofFile]
  rw [hsplit]
  refine Asked.seq hmessage ?_
  simp only [hdatalen]
  refine Asked.seq hpayload ?_
  simp only [overlay_length hfit, checkSize_pos hfit, ret_bind, hwrite]
  exact Asked.seq (asked_sys rfl) (.refl _)

theorem asked_receiveChunks (hchunk : 0 < chunk) (hbig : chunk < 2 ^ 64)
    (hreq : req.length = sizeofFile) (hbuf : buf.length = chunk) (rest : Bytes) :
    Asked host ⟨receiveChunks chunk fp req buf, h, ⟨chunkStream chunk content ++ rest, c⟩⟩
      ((chunksOf chunk content).flatMap roundRequests)
      ⟨ret (), { h with fs := writeChunks h.fs fp (chunksOf chunk content) }, ⟨rest, c⟩⟩ := by
  induction content using chunk_induction hchunk generalizing h req buf with
  | full content hfull ih =>
      have htake : (content.take chunk).length = chunk := List.length_take_of_le hfull
      have hround := asked_receiveChunk (h := h) (c := c) chunk fp hreq
        (by omega : (content.take chunk).length ≤ buf.length) (by omega)
        (chunkStream chunk (content.drop chunk) ++ rest)
      rw [if_pos htake, htake] at hround
      have hlater := ih (h := { h with fs := Posix.fwrite h.fs fp (content.take chunk) })
        (fileMessage_length chunk) (hbuf ▸ overlay_length (by omega : (content.take chunk).length ≤ _))
      rw [chunkStream_full hchunk hfull, chunksOf_full hchunk hfull, List.append_assoc,
        List.append_assoc, List.flatMap_cons]
      exact (asked_iter_more hround).trans hlater
  | short content hshort =>
      have hround := asked_receiveChunk (h := h) (c := c) chunk fp hreq
        (by omega : content.length ≤ buf.length) (by omega) rest
      rw [if_neg (by omega)] at hround
      rw [chunkStream_short hshort, chunksOf_short hshort, List.append_assoc, List.flatMap_cons,
        List.flatMap_nil, List.append_nil]
      exact asked_iter_done hround

end Receiving

section RoundTrip

variable {σ : Type}

-- What the sending loop puts on the stream, both receiving loops take off it
-- again: with the same pieces, and nothing of what follows. The server's header
-- is zeroed and its buffer is not, the client has it the other way.
def RoundTrips (F : Type) [Posix F] (K : Kernel Sys σ) (s : σ) (chunk : Nat) (content inbox : Bytes) :
    Prop :=
  ∃ stream chunks, chunks.flatten = content ∧ (∀ c ∈ chunks, c.length ≤ chunk) ∧
    Exec K ⟨sendChunks chunk content, s, ⟨inbox, false⟩⟩ stream ⟨ret (), s, ⟨inbox, false⟩⟩ ∧
    ∀ (following : Bytes) (closed : Bool) (fp : Nat) (h : Host F),
      (∀ buf : Mem chunk,
        Asked host ⟨receiveChunks chunk fp (zeros sizeofFile) buf.val, h, ⟨stream ++ following, closed⟩⟩
          (chunks.flatMap roundRequests)
          ⟨ret (), { h with fs := writeChunks h.fs fp chunks }, ⟨following, closed⟩⟩) ∧
      (∀ req : Mem sizeofFile,
        Asked host ⟨receiveChunks chunk fp req.val (zeros chunk), h, ⟨stream ++ following, closed⟩⟩
          (chunks.flatMap roundRequests)
          ⟨ret (), { h with fs := writeChunks h.fs fp chunks }, ⟨following, closed⟩⟩)

-- The length field of a chunk's header has eight bytes.
theorem chunk_codec_round_trip (F : Type) [Posix F] (K : Kernel Sys σ) (s : σ) {chunk : Nat}
    (hchunk : 0 < chunk) (hbig : chunk < 2 ^ 64) (content inbox : Bytes) :
    RoundTrips F K s chunk content inbox := by
  refine ⟨chunkStream chunk content, chunksOf chunk content, chunksOf_flatten chunk content,
    chunksOf_le hchunk, exec_sendChunks hchunk rfl content, ?_⟩
  intro following closed fp h
  constructor
  · intro buf
    exact asked_receiveChunks hchunk hbig (zeros_length _) buf.property following
  · intro req
    exact asked_receiveChunks hchunk hbig req.property (zeros_length _) following

-- A content of two full chunks, which takes a third one to end.
theorem chunk_codec_round_trip_two :
    RoundTrips TreeFs host (exampleHost (exampleFs [] fun _ => .dir)) 2 [1, 2, 3, 4] [] :=
  chunk_codec_round_trip TreeFs host _ (by decide) (by decide) _ _

end RoundTrip

end Csiebox.Codec
