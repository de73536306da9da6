import Csiebox.Protocol

namespace Csiebox

open CBytes

section Kinds

variable {mode : Nat}

theorem not_dir_of_reg (h : sIsReg mode = true) : sIsDir mode = false := by
  simp only [sIsReg, sIsDir, beq_iff_eq, beq_eq_false_iff_ne] at h ⊢
  omega

theorem not_lnk_of_reg (h : sIsReg mode = true) : sIsLnk mode = false := by
  simp only [sIsReg, sIsLnk, beq_iff_eq, beq_eq_false_iff_ne] at h ⊢
  omega

theorem not_dir_of_lnk (h : sIsLnk mode = true) : sIsDir mode = false := by
  simp only [sIsLnk, sIsDir, beq_iff_eq, beq_eq_false_iff_ne] at h ⊢
  omega

theorem not_lnk_of_dir (h : sIsDir mode = true) : sIsLnk mode = false := by
  simp only [sIsLnk, sIsDir, beq_iff_eq, beq_eq_false_iff_ne] at h ⊢
  omega

theorem not_reg_of_dir (h : sIsDir mode = true) : sIsReg mode = false := by
  simp only [sIsReg, sIsDir, beq_iff_eq, beq_eq_false_iff_ne] at h ⊢
  omega

end Kinds

section Header

variable (magic op status : UInt8) (clientId datalen : Nat)

@[simp] theorem header_length : (header magic op status clientId datalen).length = sizeofHeader := by
  simp [header, sizeofHeader]

@[simp] theorem headerMagic_header : headerMagic (header magic op status clientId datalen) = magic :=
  rfl

@[simp] theorem headerOp_header : headerOp (header magic op status clientId datalen) = op := rfl

@[simp] theorem headerStatus_header :
    headerStatus (header magic op status clientId datalen) = status := rfl

theorem headerDatalen_header (h : datalen < 2 ^ 32) :
    headerDatalen (header magic op status clientId datalen) = datalen := by
  have hs : slice 8 4 (header magic op status clientId datalen) = leBytes 4 datalen := by
    rw [header, slice_append_right (by simp)]
    simpa using slice_full (leBytes 4 datalen)
  rw [headerDatalen, hs, leNat_leBytes]
  exact Nat.mod_eq_of_lt (by simpa using h)

end Header

section Messages

variable {head st hash : Bytes} {pathlen : Nat}

theorem metaBody_length (pathlen : Nat) (hst : st.length = sizeofStat) (hhash : hash.length = 16) :
    (metaBody pathlen st hash).length = sizeofMeta - sizeofHeader := by
  simp [metaBody, hst, hhash, sizeofStat, sizeofMeta, sizeofHeader]

-- The fields of a received message, whatever its header.
theorem metaPathlen_body (hhead : head.length = sizeofHeader) (h : pathlen < 2 ^ 32) :
    metaPathlen (head ++ metaBody pathlen st hash) = pathlen := by
  simp only [sizeofHeader] at hhead
  rw [metaPathlen, metaBody, slice_append_right (by omega), slice_append_right (by simp [hhead]),
    slice_append_left (by simp [hhead])]
  have hs : slice (16 - head.length - (zeros 4).length) 4 (leBytes 4 pathlen) =
      leBytes 4 pathlen := by
    simpa [hhead] using slice_full (leBytes 4 pathlen)
  rw [hs, leNat_leBytes]
  exact Nat.mod_eq_of_lt (by simpa using h)

theorem metaStat_body (hhead : head.length = sizeofHeader) (hst : st.length = sizeofStat) :
    metaStat (head ++ metaBody pathlen st hash) = st := by
  simp only [sizeofHeader, sizeofStat] at hhead hst
  rw [metaStat, metaBody, slice_append_right (by omega), slice_append_right (by simp [hhead]),
    slice_append_right (by simp [hhead]), slice_append_right (by simp [hhead]),
    slice_append_left (by simp [hhead, hst])]
  simpa [hhead, hst] using slice_full st

theorem metaHash_body (hhead : head.length = sizeofHeader) (hst : st.length = sizeofStat)
    (hhash : hash.length = 16) : metaHash (head ++ metaBody pathlen st hash) = hash := by
  simp only [sizeofHeader, sizeofStat] at hhead hst
  rw [metaHash, metaBody, slice_append_right (by omega), slice_append_right (by simp [hhead]),
    slice_append_right (by simp [hhead]), slice_append_right (by simp [hhead]),
    slice_append_right (by simp [hhead, hst])]
  simpa [hhead, hst, hhash] using slice_full hash

@[simp] theorem fileMessage_length (datalen : Nat) : (fileMessage datalen).length = sizeofFile := by
  simp [fileMessage, sizeofFile, sizeofHeader]

theorem fileDatalen_fileMessage {datalen : Nat} (h : datalen < 2 ^ 64) :
    fileDatalen (fileMessage datalen) = datalen := by
  have hs : slice 16 8 (fileMessage datalen) = leBytes 8 datalen := by
    rw [fileMessage, slice_append_right (by simp [sizeofHeader]),
      slice_append_right (by simp [sizeofHeader])]
    simpa [sizeofHeader] using slice_full (leBytes 8 datalen)
  rw [fileDatalen, hs, leNat_leBytes]
  exact Nat.mod_eq_of_lt (by simpa using h)

theorem hardlinkBody_length (srclen targetlen : Nat) :
    (hardlinkBody srclen targetlen).length = sizeofHardlink - sizeofHeader := by
  simp [hardlinkBody, sizeofHardlink, sizeofHeader]

theorem hardlinkSrclen_body {srclen targetlen : Nat} (hhead : head.length = sizeofHeader)
    (h : srclen < 2 ^ 32) : hardlinkSrclen (head ++ hardlinkBody srclen targetlen) = srclen := by
  simp only [sizeofHeader] at hhead
  rw [hardlinkSrclen, hardlinkBody, slice_append_right (by omega),
    slice_append_left (by simp [hhead])]
  have hs : slice (12 - head.length) 4 (leBytes 4 srclen) = leBytes 4 srclen := by
    simpa [hhead] using slice_full (leBytes 4 srclen)
  rw [hs, leNat_leBytes]
  exact Nat.mod_eq_of_lt (by simpa using h)

theorem hardlinkTargetlen_body {srclen targetlen : Nat} (hhead : head.length = sizeofHeader)
    (h : targetlen < 2 ^ 32) :
    hardlinkTargetlen (head ++ hardlinkBody srclen targetlen) = targetlen := by
  simp only [sizeofHeader] at hhead
  rw [hardlinkTargetlen, hardlinkBody, slice_append_right (by omega),
    slice_append_right (by simp [hhead])]
  have hs : slice (16 - head.length - (leBytes 4 srclen).length) 4 (leBytes 4 targetlen) =
      leBytes 4 targetlen := by
    simpa [hhead] using slice_full (leBytes 4 targetlen)
  rw [hs, leNat_leBytes]
  exact Nat.mod_eq_of_lt (by simpa using h)

theorem rmPathlen_body (hhead : head.length = sizeofHeader) (h : pathlen < 2 ^ 32) :
    rmPathlen (head ++ leBytes 4 pathlen) = pathlen := by
  simp only [sizeofHeader] at hhead
  rw [rmPathlen, slice_append_right (by omega)]
  have hs : slice (12 - head.length) 4 (leBytes 4 pathlen) = leBytes 4 pathlen := by
    simpa [hhead] using slice_full (leBytes 4 pathlen)
  rw [hs, leNat_leBytes]
  exact Nat.mod_eq_of_lt (by simpa using h)

end Messages

end Csiebox
