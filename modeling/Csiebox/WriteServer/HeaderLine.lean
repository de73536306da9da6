import Csiebox.WriteServer.Lemmas
import Mathlib.Data.List.Basic

namespace Csiebox.WriteServer

open CBytes

section Spec

def firstLine (text : Bytes) : Bytes := text.takeWhile (· ≠ 0x0a)

-- The first line of a text without its line end, and what comes behind the line end. A
-- carriage return in front of the line feed belongs to the line end.
def headerLine (text : Bytes) : Bytes × Bytes :=
  let line := firstLine text
  (if line.getLast? = some 0x0d then line.dropLast else line, text.drop (line.length + 1))

-- The buffers that are delivered by reads of some bytes each; with them goes what lies
-- behind them in memory.
def delivered (req : Request) : List (Bytes × Bytes) → Option (List Bytes)
  | [] => some []
  | (got, behind) :: reads => do
      let (_, req) ← handleRead req got behind
      let bufs ← delivered req reads
      some (req.buf :: bufs)

-- The first read is split where its first line ends, and the buffers together are the
-- stream without that line.
structure SplitsHeader (req : Request) (got behind : Bytes) (more : List (Bytes × Bytes)) : Prop where
  first : ∃ req', handleRead req got behind = some (1, req') ∧
    req'.filename = some (headerLine got).1 ∧ req'.buf = (headerLine got).2 ∧
      req'.buf.length ≤ got.length
  stream : ∃ bufs, delivered req ((got, behind) :: more) = some bufs ∧
    bufs.flatten = (headerLine (got ++ (more.map Prod.fst).flatten)).2

-- The header ends with CR LF, or there is no CR LF in front of the first NUL in memory.
def LineEndFound (got behind : Bytes) : Prop :=
  (firstLine got).getLast? = some 0x0d ∨ ¬crlf <:+: cString (got ++ behind)

end Spec

section Search

variable {needle hay name rest : Bytes} {b : UInt8}

theorem strstr_eq_none_iff (hne : needle ≠ []) : strstr needle hay = none ↔ ¬needle <:+: hay := by
  induction hay with
  | nil => simp [strstr, hne]
  | cons b hay ih =>
      rw [strstr, List.infix_cons_iff, not_or, ← ih]
      split_ifs with hp
      · simp [hp]
      · simp [hp]

theorem strstr_prefix (hne : needle ≠ []) (hp : needle <+: hay) : strstr needle hay = some 0 := by
  cases hay with
  | nil => exact absurd (List.prefix_nil.mp hp) hne
  | cons b hay => exact if_pos hp

-- Behind a text that has no line feed, a string that ends with its only line feed is
-- found where it stands.
theorem strstr_behind (front : Bytes) (hname : b ∉ name) (hfront : b ∉ front) :
    strstr (front ++ [b]) (name ++ (front ++ [b]) ++ rest) = some name.length := by
  induction name with
  | nil => exact strstr_prefix (by simp) (List.prefix_append _ rest)
  | cons c name ih =>
      have hearlier : ¬front ++ [b] <+: c :: (name ++ (front ++ [b]) ++ rest) := by
        intro hp
        have hat := List.prefix_iff_getElem?.mp hp front.length (by simp)
        have hlt : front.length < (c :: (name ++ front)).length := by
          simp only [List.length_cons, List.length_append]
          omega
        have hmem : b ∈ c :: (name ++ front) := by
          have hsame : (c :: (name ++ front))[front.length]? = some b := by
            rw [← List.getElem?_append_left hlt]
            simpa using hat
          exact List.mem_of_getElem? hsame
        rw [← List.cons_append, List.mem_append] at hmem
        exact hmem.elim hname hfront
      rw [List.cons_append, List.cons_append, strstr, if_neg hearlier,
        ih fun h => hname (List.mem_cons_of_mem _ h)]
      rfl

end Search

section FirstRead

variable {text got behind name rest : Bytes} {req : Request}

theorem not_mem_firstLine : (0x0a : UInt8) ∉ firstLine text := by
  intro h
  simpa using List.mem_takeWhile_imp h

theorem firstLine_split (h : (0x0a : UInt8) ∈ text) :
    text = firstLine text ++ lf ++ text.drop ((firstLine text).length + 1) := by
  induction text with
  | nil => cases h
  | cons b text ih =>
      by_cases hb : b = 0x0a
      · subst hb
        rfl
      · have hline : firstLine (b :: text) = b :: firstLine text := by
          simp [firstLine, hb]
        have htext := ih ((List.mem_cons.mp h).resolve_left (Ne.symm hb))
        rw [hline]
        exact congrArg (b :: ·) htext

theorem firstLine_behind (hname : (0x0a : UInt8) ∉ name) : firstLine (name ++ lf ++ rest) = name := by
  have hall : ∀ b ∈ name, decide (b ≠ 0x0a) = true := fun b hb =>
    decide_eq_true fun h => hname (h ▸ hb)
  rw [firstLine, List.append_assoc, List.takeWhile_append_of_pos hall]
  exact List.append_nil name

theorem headerLine_append (h : (0x0a : UInt8) ∈ got) (more : Bytes) :
    headerLine (got ++ more) = ((headerLine got).1, (headerLine got).2 ++ more) := by
  have hline : firstLine (got ++ more) = firstLine got := by
    conv_lhs => rw [firstLine_split h, List.append_assoc]
    exact firstLine_behind not_mem_firstLine
  have hlen : (firstLine got).length + 1 ≤ got.length := by
    conv_rhs => rw [firstLine_split h]
    simp [lf]
  simp only [headerLine, hline, List.drop_append_of_le_length hlen]

-- A line end of either kind, and the name in front of it.
theorem headerLine_lf (h : (0x0a : UInt8) ∈ got) (hlast : (firstLine got).getLast? ≠ some 0x0d) :
    got = (headerLine got).1 ++ lf ++ (headerLine got).2 := by
  simpa only [headerLine, if_neg hlast] using firstLine_split h

theorem headerLine_crlf (h : (0x0a : UInt8) ∈ got) (hlast : (firstLine got).getLast? = some 0x0d) :
    got = (headerLine got).1 ++ crlf ++ (headerLine got).2 := by
  have hline : (headerLine got).1 ++ [0x0d] = firstLine got := by
    rw [headerLine, if_pos hlast]
    exact List.dropLast_append_getLast? 0x0d hlast
  have hcrlf : (headerLine got).1 ++ crlf = firstLine got ++ lf := by
    rw [← hline, List.append_assoc]
    rfl
  rw [hcrlf]
  exact firstLine_split h

theorem not_mem_headerName : (0x0a : UInt8) ∉ (headerLine got).1 := by
  intro h
  have hline : (0x0a : UInt8) ∈ firstLine got := by
    simp only [headerLine] at h
    split_ifs at h
    · exact List.dropLast_subset _ h
    · exact h
  exact not_mem_firstLine hline

-- The string in memory begins with the name and its line end.
theorem cString_header {ending : Bytes} (hname : (0 : UInt8) ∉ name) (hending : (0 : UInt8) ∉ ending) :
    cString (name ++ ending ++ rest ++ behind) = name ++ ending ++ cString (rest ++ behind) := by
  have hnonzero : ∀ b ∈ name ++ ending, decide (b ≠ 0) = true := by
    intro b hb
    refine decide_eq_true fun h => ?_
    rcases List.mem_append.mp (h ▸ hb) with h | h
    · exact hname h
    · exact hending h
  rw [List.append_assoc, cString, List.takeWhile_append_of_pos hnonzero]
  rfl

theorem splitHeader_crlf (hline : (0x0a : UInt8) ∉ name) (hname : (0 : UInt8) ∉ name) :
    splitHeader (name ++ crlf ++ rest) behind = some (name, rest) := by
  have hfound : strstr crlf (cString (name ++ crlf ++ rest ++ behind)) = some name.length := by
    rw [cString_header hname (by decide)]
    exact strstr_behind [0x0d] hline (by decide)
  have hfits : name.length + 2 ≤ (name ++ crlf ++ rest).length := by simp [crlf]
  simp only [splitHeader, hfound, if_pos hfits]
  simp [crlf]

-- A CR LF behind the line feed is found before it.
theorem splitHeader_lf_iff (hline : (0x0a : UInt8) ∉ name) (hname : (0 : UInt8) ∉ name) :
    splitHeader (name ++ lf ++ rest) behind = some (name, rest) ↔
      ¬crlf <:+: cString (name ++ lf ++ rest ++ behind) := by
  rw [← strstr_eq_none_iff (by decide)]
  constructor
  · intro hsplit
    cases hfound : strstr crlf (cString (name ++ lf ++ rest ++ behind)) with
    | none => rfl
    | some i =>
        simp only [splitHeader, hfound] at hsplit
        split_ifs at hsplit with hfits
        obtain ⟨hfront, hrest⟩ := Prod.mk.inj (Option.some.inj hsplit)
        have hgot : name ++ lf ++ rest = name ++ crlf ++ rest := by
          conv_lhs => rw [strstr_within hfound hfits, hfront]
          exact congrArg _ hrest
        have hlen := congrArg List.length hgot
        simp [lf, crlf] at hlen
  · intro hnone
    have hfound : strstr lf (cString (name ++ lf ++ rest ++ behind)) = some name.length := by
      rw [cString_header hname (by decide)]
      exact strstr_behind [] hline (by decide)
    have hfits : name.length + 1 ≤ (name ++ lf ++ rest).length := by simp [lf]
    simp only [splitHeader, hnone, hfound, Option.bind_some, if_pos hfits]
    simp [lf]

theorem splitHeader_iff (h : (0x0a : UInt8) ∈ got) (hname : (0 : UInt8) ∉ (headerLine got).1) :
    splitHeader got behind = some (headerLine got) ↔ LineEndFound got behind := by
  by_cases hlast : (firstLine got).getLast? = some 0x0d
  · refine iff_of_true ?_ (.inl hlast)
    conv_lhs => rw [headerLine_crlf h hlast]
    exact splitHeader_crlf not_mem_headerName hname
  · have hsplit : splitHeader ((headerLine got).1 ++ lf ++ (headerLine got).2) behind =
        some (headerLine got) ↔ _ := splitHeader_lf_iff not_mem_headerName hname
    rw [← headerLine_lf h hlast] at hsplit
    rw [hsplit, LineEndFound, or_iff_right hlast]

theorem handleRead_first_iff (hdone : req.headerDone = false) (h : (0x0a : UInt8) ∈ got)
    (hname : (0 : UInt8) ∉ (headerLine got).1) :
    (∃ req', handleRead req got behind = some (1, req') ∧
      req'.filename = some (headerLine got).1 ∧ req'.buf = (headerLine got).2) ↔
      LineEndFound got behind := by
  rw [← splitHeader_iff h hname]
  have hgot : got ≠ [] := List.ne_nil_of_mem h
  constructor
  · rintro ⟨req', hread, hfile, hbuf⟩
    simp only [handleRead, if_neg hgot, hdone] at hread
    obtain ⟨⟨name, rest⟩, hsplit, hreq⟩ := Option.map_eq_some_iff.mp hread
    obtain rfl := (Prod.mk.inj hreq).2
    exact hsplit.trans (congrArg some (Prod.ext (Option.some.inj hfile) hbuf))
  · intro hsplit
    exact ⟨_, handleRead_first hgot hdone hsplit, rfl, rfl⟩

end FirstRead

section Stream

theorem delivered_next {req : Request} (hdone : req.headerDone = true) (reads : List (Bytes × Bytes))
    (hreads : ∀ read ∈ reads, read.1 ≠ []) : delivered req reads = some (reads.map Prod.fst) := by
  induction reads generalizing req with
  | nil => rfl
  | cons read reads ih =>
      obtain ⟨got, behind⟩ := read
      have hgot : got ≠ [] := hreads (got, behind) (List.mem_cons_self ..)
      have hrest : delivered { req with buf := got } reads = some (reads.map Prod.fst) :=
        ih hdone fun read hread => hreads read (List.mem_cons_of_mem _ hread)
      simp only [delivered, handleRead_next behind hgot hdone, Option.bind_eq_bind, Option.bind_some,
        hrest]
      rfl

-- Header and body come apart as they should exactly when the header ends with CR LF, or
-- no CR LF comes in front of the first NUL of what was read and what lies behind it.
theorem splits_header_iff (req : Request) (hdone : req.headerDone = false) (got behind : Bytes)
    (h : (0x0a : UInt8) ∈ got) (hname : (0 : UInt8) ∉ (headerLine got).1)
    (more : List (Bytes × Bytes)) (hmore : ∀ read ∈ more, read.1 ≠ []) :
    SplitsHeader req got behind more ↔ LineEndFound got behind := by
  constructor
  · rintro ⟨⟨req', hread, hfile, hbuf, -⟩, -⟩
    exact (handleRead_first_iff hdone h hname).mp ⟨req', hread, hfile, hbuf⟩
  · intro hfound
    have hsplit := (splitHeader_iff h hname).mpr hfound
    have hread := handleRead_first (List.ne_nil_of_mem h) hdone hsplit
    have hbufs : delivered req ((got, behind) :: more) =
        some ((headerLine got).2 :: more.map Prod.fst) := by
      simp only [delivered, hread, Option.bind_eq_bind, Option.bind_some]
      rw [delivered_next rfl more hmore]
      rfl
    refine ⟨⟨_, hread, rfl, rfl, ?_⟩, _, hbufs, ?_⟩
    · exact (List.drop_sublist _ got).length_le
    · rw [headerLine_append h, List.flatten_cons]

-- "a" and LF, the body "b", and a second read.
theorem splits_header_iff_text :
    SplitsHeader initRequest [0x61, 0x0a, 0x62] [0] [([0x63], [0])] :=
  (splits_header_iff initRequest rfl [0x61, 0x0a, 0x62] [0] (by decide) (by decide)
    [([0x63], [0])] (by decide)).mpr (.inr (by decide))

-- The header is "a" and LF, and the body "b" is followed by CR LF.
theorem body_line_end_taken :
    ¬∀ got behind : Bytes, (0x0a : UInt8) ∈ got → (0 : UInt8) ∉ (headerLine got).1 →
      SplitsHeader initRequest got behind [] := by
  intro hall
  obtain ⟨⟨req', hread, hfile, -⟩, -⟩ :=
    hall [0x61, 0x0a, 0x62, 0x0d, 0x0a] [0] (by decide) (by decide)
  have hcode : handleRead initRequest [0x61, 0x0a, 0x62, 0x0d, 0x0a] [0] =
      some (1, { initRequest with filename := some [0x61, 0x0a, 0x62], headerDone := true }) := by
    decide
  obtain rfl := (Prod.mk.inj (Option.some.inj (hread.symm.trans hcode))).2
  exact absurd hfile (by decide)

end Stream

end Csiebox.WriteServer
