import Csiebox.Common.Lemmas

namespace Csiebox.Digest

open CBytes Program Prog

-- The interface of <bsd/md5.h> over its context type.
structure Md5 (C : Type) where
  init : C
  update : C → Bytes → C
  final : C → Mem 16

variable {C : Type}

-- Streaming: what was fed piece by piece is digested as one string.
def Md5.Streams (m : Md5 C) (digest : Bytes → Mem 16) : Prop :=
  ∀ pieces : List Bytes, m.final (pieces.foldl m.update m.init) = digest pieces.flatten

-- `MD5Update(&ctx, data, len)` reads `len` bytes from `data`.
def md5Update (m : Md5 C) (ctx : C) (data : Bytes) (len : Nat) : Except Fault C :=
  if len ≤ data.length then .ok (m.update ctx (data.take len)) else .error .overrun

def md5 (m : Md5 C) (str : Bytes) (len : Nat) : Except Fault (Mem 16) := do
  let ctx ← md5Update m m.init str len
  return m.final ctx

-- What `read(fd, buf, 4096)` returns and leaves in `buf`.
def readInto (buf : Bytes) : ReadResult → Int × Bytes
  | .data bs => (bs.length, overlay buf bs)
  | .failed => (-1, buf)

-- The conversion to `size_t`.
def sizeT (n : Int) : Nat := (n % 2 ^ 64).toNat

-- The end of the list is the `read` that returns 0.
def updateLoop (m : Md5 C) : List ReadResult → Bytes → C → Except Fault C
  | [], _, ctx => .ok ctx
  | r :: rs, buf, ctx =>
      let got := readInto buf r
      let len := sizeT got.1
      if len > 0 then do
        let ctx ← md5Update m ctx got.2 len
        updateLoop m rs got.2 ctx
      else .ok ctx

def md5File (m : Md5 C) (opened : Option (List ReadResult)) (buf : Mem 4096) (digest : Bytes) :
    Except Fault (Int × Bytes) :=
  match opened with
  | none => .ok (0, digest)
  | some rs => do
      let ctx ← updateLoop m rs buf.val m.init
      return (1, (m.final ctx).val)

-- The last result of the loop's `read` calls.
inductive LastRead where
  | endOfFile
  | failure
deriving DecidableEq

def readsOf (blocks : List Bytes) : LastRead → List ReadResult
  | .endOfFile => blocks.map .data
  | .failure => blocks.map .data ++ [.failed]

-- Up to the last read the loop only meets blocks that fit the buffer.
def Blocks (blocks : List Bytes) : Prop := ∀ b ∈ blocks, 0 < b.length ∧ b.length ≤ 4096

-- The digest of the whole content after an end of file, a failure told to the
-- caller after a failed read.
def DigestsOrReports (m : Md5 C) (digest : Bytes → Mem 16) (blocks : List Bytes)
    (buf : Mem 4096) (out : Bytes) : LastRead → Prop
  | .endOfFile =>
      md5File m (some (readsOf blocks .endOfFile)) buf out = .ok (1, (digest blocks.flatten).val) ∧
        md5 m blocks.flatten blocks.flatten.length = .ok (digest blocks.flatten)
  | .failure => ∃ r bs, md5File m (some (readsOf blocks .failure)) buf out = .ok (r, bs) ∧ r ≤ 0

section Loop

variable {m : Md5 C}

theorem sizeT_natCast {n : Nat} (h : n < 2 ^ 64) : sizeT n = n := by
  unfold sizeT
  omega

-- The error value of `read` is the largest length there is.
theorem sizeT_neg_one : sizeT (-1) = 2 ^ 64 - 1 := by decide

theorem md5Update_fits {ctx : C} {data : Bytes} {len : Nat} (h : len ≤ data.length) :
    md5Update m ctx data len = .ok (m.update ctx (data.take len)) := if_pos h

theorem md5Update_overruns {ctx : C} {data : Bytes} {len : Nat} (h : data.length < len) :
    md5Update m ctx data len = .error .overrun := if_neg (by omega)

theorem updateLoop_block {bs buf : Bytes} {rs : List ReadResult} {ctx : C} (hpos : 0 < bs.length)
    (hfit : bs.length ≤ buf.length) (hsize : bs.length < 2 ^ 64) :
    updateLoop m (.data bs :: rs) buf ctx =
      updateLoop m rs (overlay buf bs) (m.update ctx bs) := by
  have hlen : bs.length ≤ (overlay buf bs).length := by rw [overlay_length hfit]; exact hfit
  have htake : (overlay buf bs).take bs.length = bs := by simp [overlay]
  rw [updateLoop]
  simp only [readInto, sizeT_natCast hsize, gt_iff_lt, hpos, if_true, md5Update_fits hlen, htake]
  rfl

theorem updateLoop_failed {buf : Bytes} {rs : List ReadResult} {ctx : C}
    (hbuf : buf.length < 2 ^ 64 - 1) :
    updateLoop m (.failed :: rs) buf ctx = .error .overrun := by
  rw [updateLoop]
  simp only [readInto, sizeT_neg_one]
  rw [md5Update_overruns hbuf, if_pos (by norm_num)]
  rfl

-- The blocks are fed one by one; what follows starts from a buffer of the same size.
theorem updateLoop_blocks {blocks : List Bytes} (hb : Blocks blocks) (rs : List ReadResult)
    (buf : Mem 4096) (ctx : C) :
    ∃ buf' : Mem 4096, updateLoop m (blocks.map .data ++ rs) buf.val ctx =
      updateLoop m rs buf'.val (blocks.foldl m.update ctx) := by
  induction blocks generalizing buf ctx with
  | nil => exact ⟨buf, rfl⟩
  | cons bs blocks ih =>
      obtain ⟨hpos, hfit⟩ := hb bs List.mem_cons_self
      have hbuf : bs.length ≤ buf.val.length := by rw [buf.property]; exact hfit
      have hmem : (overlay buf.val bs).length = 4096 := by rw [overlay_length hbuf, buf.property]
      obtain ⟨buf', hrest⟩ := ih (fun b h => hb b (List.mem_cons_of_mem _ h)) ⟨_, hmem⟩
        (m.update ctx bs)
      refine ⟨buf', ?_⟩
      rw [List.map_cons, List.cons_append, updateLoop_block hpos hbuf (by omega)]
      exact hrest

theorem md5File_endOfFile {blocks : List Bytes} (hb : Blocks blocks) (buf : Mem 4096)
    (out : Bytes) :
    md5File m (some (readsOf blocks .endOfFile)) buf out =
      .ok (1, (m.final (blocks.foldl m.update m.init)).val) := by
  obtain ⟨buf', hloop⟩ := updateLoop_blocks (m := m) hb [] buf m.init
  rw [List.append_nil] at hloop
  simp only [md5File, readsOf, hloop, updateLoop]
  rfl

theorem md5File_failure {blocks : List Bytes} (hb : Blocks blocks) (buf : Mem 4096)
    (out : Bytes) : md5File m (some (readsOf blocks .failure)) buf out = .error .overrun := by
  obtain ⟨buf', hloop⟩ := updateLoop_blocks (m := m) hb [.failed] buf m.init
  have hbuf : buf'.val.length < 2 ^ 64 - 1 := by rw [buf'.property]; norm_num
  simp only [md5File, readsOf, hloop, updateLoop_failed hbuf]
  rfl

end Loop

section Digests

variable {m : Md5 C} {digest : Bytes → Mem 16}

theorem md5_whole (hm : m.Streams digest) (bs : Bytes) : md5 m bs bs.length = .ok (digest bs) := by
  have hone := hm [bs]
  simp only [List.foldl_cons, List.foldl_nil, List.flatten_cons, List.flatten_nil,
    List.append_nil] at hone
  rw [md5, md5Update_fits (Nat.le_refl _), List.take_length, ← hone]
  rfl

-- The bytes the rest of the model takes for hashed are the ones the loop feeds.
theorem md5File_hashedBytes (hm : m.Streams digest) {blocks : List Bytes} (hb : Blocks blocks)
    (last : LastRead) (buf : Mem 4096) (out : Bytes) :
    md5File m (some (readsOf blocks last)) buf out =
      match hashedBytes (readsOf blocks last) with
      | none => .error .overrun
      | some bs => .ok (1, (digest bs).val) := by
  have hdata : ∀ rs, hashedBytes (blocks.map .data ++ rs) =
      (hashedBytes rs).map (blocks.flatten ++ ·) := by
    intro rs
    clear hb
    induction blocks with
    | nil => cases h : hashedBytes rs <;> simp [h]
    | cons b blocks ih => cases h : hashedBytes rs <;> simp_all [hashedBytes]
  cases last with
  | endOfFile =>
      rw [md5File_endOfFile hb, hm, readsOf, ← List.append_nil (blocks.map _), hdata []]
      simp [hashedBytes]
  | failure =>
      rw [md5File_failure hb, readsOf, hdata [.failed]]
      rfl

theorem digestsOrReports_endOfFile (hm : m.Streams digest) {blocks : List Bytes}
    (hb : Blocks blocks) (buf : Mem 4096) (out : Bytes) :
    DigestsOrReports m digest blocks buf out .endOfFile := by
  refine ⟨?_, md5_whole hm _⟩
  rw [md5File_endOfFile hb, hm]

theorem not_digestsOrReports_failure {blocks : List Bytes} (hb : Blocks blocks) (buf : Mem 4096)
    (out : Bytes) : ¬DigestsOrReports m digest blocks buf out .failure := by
  intro h
  obtain ⟨r, bs, hret, -⟩ := h
  rw [md5File_failure hb] at hret
  cases hret

-- A failed `read` feeds MD5 all of memory behind the buffer, whatever was read before it.
theorem md5_file_digests_iff (hm : m.Streams digest) {blocks : List Bytes} (hb : Blocks blocks)
    (last : LastRead) (buf : Mem 4096) (out : Bytes) :
    DigestsOrReports m digest blocks buf out last ↔ last = .endOfFile := by
  cases last with
  | endOfFile => exact ⟨fun _ => rfl, fun _ => digestsOrReports_endOfFile hm hb buf out⟩
  | failure =>
      constructor
      · exact fun h => absurd h (not_digestsOrReports_failure hb buf out)
      · exact fun h => nomatch h

end Digests

section Sample

def zeroBuf : Mem 4096 := ⟨zeros 4096, by simp⟩

-- A context that keeps the bytes, and the digest of "abc".
def sampleDigest (bs : Bytes) : Mem 16 :=
  if bs = [0x61, 0x62, 0x63] then
    ⟨[0x90, 0x01, 0x50, 0x98, 0x3c, 0xd2, 0x4f, 0xb0,
      0xd6, 0x96, 0x3f, 0x7d, 0x28, 0xe1, 0x7f, 0x72], rfl⟩
  else ⟨zeros 16, rfl⟩

def sampleMd5 : Md5 Bytes := { init := [], update := (· ++ ·), final := sampleDigest }

theorem sampleMd5_streams : sampleMd5.Streams sampleDigest := by
  have hall : ∀ (pieces : List Bytes) (ctx : Bytes),
      pieces.foldl sampleMd5.update ctx = ctx ++ pieces.flatten := by
    intro pieces
    induction pieces with
    | nil => simp
    | cons p pieces ih =>
        intro ctx
        rw [List.foldl_cons, ih]
        simp [sampleMd5]
  intro pieces
  rw [hall]
  rfl

theorem md5_file_digests_abc :
    DigestsOrReports sampleMd5 sampleDigest [[0x61, 0x62], [0x63]] zeroBuf (zeros 16) .endOfFile ↔
      LastRead.endOfFile = .endOfFile :=
  md5_file_digests_iff sampleMd5_streams (by simp [Blocks]) _ _ _

-- `open` succeeds on a directory and its first `read` fails.
theorem md5_file_of_directory_overruns :
    md5File sampleMd5 (some (readsOf [] .failure)) zeroBuf (zeros 16) = .error .overrun ∧
      ¬DigestsOrReports sampleMd5 sampleDigest [] zeroBuf (zeros 16) .failure :=
  ⟨md5File_failure (by simp [Blocks]) _ _, not_digestsOrReports_failure (by simp [Blocks]) _ _⟩

end Sample

end Csiebox.Digest
