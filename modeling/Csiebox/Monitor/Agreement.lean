import Csiebox.Monitor.FifoLines

namespace Csiebox.Monitor

open CBytes Program

-- The value does not end in white space.
def Untrimmed (value : Bytes) : Prop :=
  ∀ text, encodeText text = value → text.rdropWhile isTrimmed = text

-- The first `run_path=` of the text, in whichever key or value, has `v` behind it on
-- its line.
def FirstNamed (content v : List Char) : Prop :=
  ∃ front back, content = front ++ (runPathName ++ ['='] ++ (v ++ '\n' :: back)) ∧ '\n' ∉ v ∧
    ∀ front' back', content = front' ++ (runPathName ++ ['='] ++ back') → front.length ≤ front'.length

-- A directory of `len` bytes has room for the two names, the process id has room too.
def RoomFor (len digits : Nat) : Prop := len + 18 < pathMax ∧ digits < 32 ∧ len + 15 + digits < pathMax

-- The last line for `run_path` is what all three see: the web page keeps the whole
-- value, the server's field adds slashes only, and the first `run_path=` of the file
-- is followed by the same directory.
def LastLineTells (entries : List Entry) (runPath : Mem pathMax) (pid : Nat) : Prop :=
  HasRoom runPath (encodeText (pidText pid)) ∧
    ∃ front e back, entries = front ++ e :: back ∧ e.key = ServerKey.runPath.key ∧
      (∀ e' ∈ back, e'.key ≠ ServerKey.runPath.key) ∧
      (0x3d ∉ e.value ∧ (back = [] → Untrimmed e.value)) ∧
      (∃ n, cString runPath.val = e.value ++ List.replicate n slash) ∧
      ∃ content, encodeText content = fileText entries true ∧
        ∃ v, FirstNamed (universalNewlines content) v ∧ v ≠ [] ∧
          squeeze slash (encodeText v ++ [slash]) = squeeze slash (e.value ++ [slash])

-- The same by the text of the file alone: the earlier values leave nothing but slashes
-- behind the last one, and what all of them leave has room for the names behind it.
def LineTells (entries : List Entry) (pid : Nat) : Prop :=
  ∃ front e back, entries = front ++ e :: back ∧ e.key = ServerKey.runPath.key ∧
    (∀ e' ∈ back, e'.key ≠ ServerKey.runPath.key) ∧
    RoomFor (ServerArg.runLength (given front ServerKey.runPath.key ++ [e.value]))
      (encodeText (pidText pid)).length ∧
    (0x3d ∉ e.value ∧ (back = [] → Untrimmed e.value)) ∧
    ServerArg.SlashesBehind (given front ServerKey.runPath.key) e.value.length ∧
    ∃ content, encodeText content = fileText entries true ∧
      ∃ v, FirstNamed (universalNewlines content) v ∧ v ≠ [] ∧
        squeeze slash (encodeText v ++ [slash]) = squeeze slash (e.value ++ [slash])

section Script

theorem takeWhile_line {line : List Char} (h : '\n' ∉ line) (back : List Char) :
    (line ++ '\n' :: back).takeWhile (· ≠ '\n') = line := by
  have hall : ∀ c ∈ line, decide (c ≠ '\n') = true := by
    intro c hc
    exact decide_eq_true (ne_of_mem_of_not_mem hc h)
  rw [List.takeWhile_append_of_pos hall, List.takeWhile_cons_of_neg (by simp), List.append_nil]

theorem findRunPath_eq_some_iff {content v : List Char} :
    findRunPath content = some v ↔ FirstNamed content v := by
  have hname : runPathName ++ ['='] ≠ [] := by decide
  unfold findRunPath FirstNamed
  rw [Option.bind_eq_some_iff]
  constructor
  · intro h
    obtain ⟨rest, hfound, hline⟩ := h
    obtain ⟨front, htext, hfirst⟩ := (firstBehind_eq_some_iff hname).mp hfound
    split_ifs at hline with hmem
    obtain ⟨line, back, rfl, hplain⟩ := List.eq_append_cons_of_mem hmem
    rw [takeWhile_line hplain, Option.some.injEq] at hline
    subst hline
    exact ⟨front, back, htext, hplain, hfirst⟩
  · intro h
    obtain ⟨front, back, htext, hplain, hfirst⟩ := h
    refine ⟨v ++ '\n' :: back, (firstBehind_eq_some_iff hname).mpr ⟨front, htext, hfirst⟩, ?_⟩
    rw [if_pos (by simp), takeWhile_line hplain]

end Script

section Decoding

-- A file that is text is made of lines of text.
theorem exists_pairs {entries : List Entry} {content : List Char}
    (h : encodeText content = fileText entries true) :
    ∃ pairs, content = linesText pairs ∧
      entries.map (fun e => (e.key, e.value)) = pairs.map fun e => (encodeText e.1, encodeText e.2) := by
  induction entries generalizing content with
  | nil =>
      have hnil : content = [] := encodeText_injective h
      exact ⟨[], hnil, rfl⟩
  | cons e entries ih =>
      have hfile : fileText (e :: entries) true =
          e.key ++ 0x3d :: (e.value ++ 0x0a :: fileText entries true) := by
        simp [fileText, Entry.line]
      rw [hfile] at h
      obtain ⟨key, content', rfl, hkey, hcontent'⟩ := encodeText_split (d := '=') (by decide) h
      obtain ⟨value, content'', rfl, hvalue, hcontent''⟩ := encodeText_split (d := '\n')
        (by decide) hcontent'
      obtain ⟨pairs, rfl, hpairs⟩ := ih hcontent''
      refine ⟨(key, value) :: pairs, by simp [linesText], ?_⟩
      rw [List.map_cons, List.map_cons, hkey, hvalue, hpairs]

theorem linesOk_of_entries {entries : List Entry} {pairs : List (List Char × List Char)}
    (h : entries.map (fun e => (e.key, e.value)) = pairs.map fun e => (encodeText e.1, encodeText e.2)) :
    LinesOk pairs := by
  intro p hp
  have hmem : (encodeText p.1, encodeText p.2) ∈ entries.map fun e => (e.key, e.value) := by
    rw [h]
    exact List.mem_map_of_mem hp
  obtain ⟨e, -, he⟩ := List.mem_map.mp hmem
  obtain ⟨hkey, hvalue⟩ := Prod.mk.inj he
  have hplain := e.key_plain
  have hvalueplain := e.value_plain
  rw [hkey] at hplain
  rw [hvalue] at hvalueplain
  exact ⟨fun hm => hplain.1 ((mem_encodeText_iff (d := '=') (by decide)).mpr hm),
    fun hm => hplain.2 ((mem_encodeText_iff (d := '\n') (by decide)).mpr hm),
    fun hm => hvalueplain ((mem_encodeText_iff (d := '\n') (by decide)).mpr hm)⟩

end Decoding

section WebPage

variable {text shown : List Char} {last : Prop} [Decidable last]

theorem takeWhile_plain_iff {sep : Char} : text.takeWhile (· ≠ sep) = text ↔ sep ∉ text := by
  rw [List.takeWhile_eq_self_iff]
  constructor
  · intro h hmem
    simpa using h sep hmem
  · intro h c hc
    exact decide_eq_true (ne_of_mem_of_not_mem hc h)

-- What the page cuts off a value starts with a character that is no slash.
theorem cut_eq_or (h : shown = (if last then text.rdropWhile isTrimmed else text).takeWhile (· ≠ '=')) :
    shown = text ∨ ∃ c rest, text = shown ++ c :: rest ∧ c ≠ '\x00' ∧ c ≠ '/' := by
  have htrim : ∀ kept, kept = (if last then text.rdropWhile isTrimmed else text) →
      text = kept ∨ ∃ c rest, isTrimmed c = true ∧ text = kept ++ c :: rest := by
    rintro kept rfl
    split_ifs
    · exact (rdropWhile_eq_self_or text).imp_left Eq.symm
    · exact .inl rfl
  generalize (if last then text.rdropWhile isTrimmed else text) = kept at h htrim
  have hkept := htrim kept rfl
  by_cases hmem : '=' ∈ kept
  · obtain ⟨front, back, rfl, hplain⟩ := List.eq_append_cons_of_mem hmem
    have hshown : shown = front := by
      rw [h, List.takeWhile_append_of_pos, List.takeWhile_cons_of_neg (by simp), List.append_nil]
      intro c hc
      exact decide_eq_true (ne_of_mem_of_not_mem hc hplain)
    right
    obtain htext | ⟨c, rest, -, htext⟩ := hkept
    · exact ⟨'=', back, by rw [htext, hshown], by decide, by decide⟩
    · exact ⟨'=', back ++ c :: rest, by rw [htext, hshown]; simp, by decide, by decide⟩
  · rw [takeWhile_plain_iff.mpr hmem] at h
    subst h
    obtain htext | ⟨c, rest, hc, htext⟩ := hkept
    · exact .inl htext.symm
    · refine .inr ⟨c, rest, htext, ?_, ?_⟩
      · rintro rfl
        exact absurd hc (by decide)
      · rintro rfl
        exact absurd hc (by decide)

theorem cut_eq_iff (h : shown = (if last then text.rdropWhile isTrimmed else text).takeWhile (· ≠ '=')) :
    shown = text ↔ '=' ∉ text ∧ (last → text.rdropWhile isTrimmed = text) := by
  have hpre : ∀ kept, kept = (if last then text.rdropWhile isTrimmed else text) → kept <+: text := by
    rintro kept rfl
    split_ifs
    · exact List.rdropWhile_prefix _ _
    · exact List.prefix_rfl
  constructor
  · intro hshown
    have hkept : (if last then text.rdropWhile isTrimmed else text) = text := by
      have hle := (hpre _ rfl).length_le
      have hwhile := (List.takeWhile_prefix (· ≠ '=')
        (l := if last then text.rdropWhile isTrimmed else text)).length_le
      rw [← h, hshown] at hwhile
      exact (hpre _ rfl).eq_of_length (by omega)
    rw [hkept, hshown] at h
    refine ⟨takeWhile_plain_iff.mp h.symm, fun hlast => ?_⟩
    rwa [if_pos hlast] at hkept
  · intro hwhole
    have hkept : (if last then text.rdropWhile isTrimmed else text) = text := by
      split_ifs with hlast
      · exact hwhole.2 hlast
      · rfl
    rw [h, hkept, takeWhile_plain_iff.mpr hwhole.1]

theorem encodeText_cons_head {c : Char} (hnul : c ≠ '\x00') (hslash : c ≠ '/') (rest : List Char) :
    ∃ b bs, encodeText (c :: rest) = b :: bs ∧ b ≠ 0 ∧ b ≠ slash := by
  rw [encodeText_cons]
  obtain ⟨hone, hlow⟩ | ⟨-, hhigh⟩ := utf8EncodeChar_bytes c
  · have hbyte : (UInt8.ofNat c.toNat).toNat = c.toNat := by
      rw [UInt8.toNat_ofNat']
      omega
    refine ⟨_, _, by rw [hone]; rfl, ?_, ?_⟩
    · intro hzero
      rw [hzero] at hbyte
      exact hnul (Char.toNat_inj.mp hbyte.symm)
    · intro hzero
      rw [hzero] at hbyte
      exact hslash (Char.toNat_inj.mp hbyte.symm)
  · cases hbytes : String.utf8EncodeChar c with
    | nil =>
        have hlen := String.length_utf8EncodeChar c
        have hpos := Char.utf8Size_pos c
        rw [hbytes, List.length_nil] at hlen
        omega
    | cons b bs =>
        have hb := hhigh b (by rw [hbytes]; simp)
        refine ⟨b, _, rfl, ?_, ?_⟩
        · rintro rfl
          exact absurd hb (by decide)
        · rintro rfl
          exact absurd hb (by decide)

-- A directory that is only shown in part is another one.
theorem shown_same_iff {shown value string : Bytes}
    (hcut : shown = value ∨ ∃ b rest, value = shown ++ b :: rest ∧ b ≠ 0 ∧ b ≠ slash)
    (hstring : 0 ∉ string) (hnul : 0 ∈ value → string = cString value)
    (hpre : 0 ∉ value → value <+: string) :
    squeeze slash (shown ++ [slash]) = squeeze slash (string ++ [slash]) ↔
      shown = value ∧ ∃ n, string ++ [slash] = value ++ List.replicate n slash := by
  constructor
  · intro h
    have hnames : shown.filter (· ≠ slash) = string.filter (· ≠ slash) := by
      have hfilter := congrArg (List.filter (· ≠ slash)) h
      rw [filter_squeeze, filter_squeeze, List.filter_append, List.filter_append] at hfilter
      simpa using hfilter
    have hplain : 0 ∉ shown := by
      intro hmem
      have hkept : (0 : UInt8) ∈ shown.filter (· ≠ slash) := List.mem_filter.mpr ⟨hmem, by decide⟩
      rw [hnames] at hkept
      exact hstring (List.mem_filter.mp hkept).1
    have hlonger : ∀ b rest, b ≠ slash → ¬shown ++ b :: rest <+: string := by
      intro b rest hb hpre
      have hcount := (hpre.filter (· ≠ slash)).length_le
      rw [← hnames, List.filter_append, List.filter_cons_of_pos (by simpa using hb)] at hcount
      simp at hcount
    have hwhole : shown = value := by
      obtain hwhole | ⟨b, rest, rfl, hb0, hb⟩ := hcut
      · exact hwhole
      · exfalso
        by_cases hzero : 0 ∈ shown ++ b :: rest
        · have hstr := hnul hzero
          have hmore : cString (shown ++ b :: rest) = shown ++ b :: cString rest := by
            rw [cString, List.takeWhile_append_of_pos, List.takeWhile_cons_of_pos (by simpa using hb0)]
            · rfl
            · intro x hx
              exact decide_eq_true (ne_of_mem_of_not_mem hx hplain)
          rw [hmore] at hstr
          exact hlonger b (cString rest) hb (hstr ▸ List.prefix_rfl)
        · exact hlonger b rest hb (hpre hzero)
    subst hwhole
    refine ⟨rfl, ?_⟩
    obtain ⟨rest, hrest⟩ := hpre hplain
    have hslashes : rest.filter (· ≠ slash) = [] := by
      rw [← hrest, List.filter_append] at hnames
      exact List.append_right_eq_self.mp hnames.symm
    have hall : rest = List.replicate rest.length slash := by
      rw [List.eq_replicate_iff]
      refine ⟨rfl, fun b hb => ?_⟩
      by_contra hne
      exact (List.filter_eq_nil_iff.mp hslashes b hb) (by simpa using hne)
    refine ⟨rest.length + 1, ?_⟩
    rw [List.replicate_succ', ← List.append_assoc, ← hall, hrest]
  · intro h
    obtain ⟨rfl, n, hn⟩ := h
    rw [hn]
    cases n with
    | zero =>
        have hlast : shown = string ++ [slash] := by simpa using hn.symm
        have htwo := squeeze_replicate slash 1 string
        rw [List.replicate_zero, List.append_nil, hlast, List.append_assoc]
        exact htwo
    | succ n => exact (squeeze_replicate slash n shown).symm

end WebPage

section Lines

variable {entries : List Entry} {arg : ServerArg} {pid : Nat}

theorem encodeText_runPathName : encodeText runPathName = ServerKey.runPath.key := by
  decide +kernel

theorem foldl_lastTrimmed {front back : List (List Char × List Char)} {value : List Char}
    (hfront : ∀ e ∈ front, '=' ∉ e.1) (hkeys : ∀ e ∈ back, '=' ∉ e.1)
    (hback : runPathName ∉ back.map Prod.fst) :
    (((lastTrimmed (front ++ (runPathName, value) :: back)).map fun e => e.1 ++ '=' :: e.2).foldl
        readLine fun _ => none) runPathName =
      some ((if back = [] then value.rdropWhile isTrimmed else value).takeWhile (· ≠ '=')) := by
  rw [lastTrimmed_append, lastTrimmed_cons]
  refine foldl_readLine_last (e := (runPathName, _)) (fun e he => ?_) ?_
  · simp only [List.mem_append, List.mem_cons] at he
    obtain he | rfl | he := he
    · exact hfront e he
    · exact show '=' ∉ runPathName by decide
    · have hkey := List.mem_map_of_mem (f := Prod.fst) he
      rw [keys_lastTrimmed] at hkey
      obtain ⟨e', he', heq⟩ := List.mem_map.mp hkey
      exact heq ▸ hkeys e' he'
  · rw [keys_lastTrimmed]
    exact hback

-- The page shows the last value of `run_path`, cut where its `trim` and `split`s cut.
theorem readCfg_last {front back : List (List Char × List Char)} {value : List Char}
    (hok : LinesOk (front ++ (runPathName, value) :: back)) (hback : runPathName ∉ back.map Prod.fst) :
    readCfg (linesText (front ++ (runPathName, value) :: back)) runPathName =
      some ((if back = [] then value.rdropWhile isTrimmed else value).takeWhile (· ≠ '=')) := by
  have hkeys : ∀ e ∈ back, '=' ∉ e.1 := fun e he => (hok e (by simp [he])).1
  unfold readCfg
  cases front with
  | nil =>
      have hname : runPathName.dropWhile isTrimmed = runPathName := by decide
      rw [List.nil_append, splitOn_trimmed _ hok]
      simp only [hname]
      exact foldl_lastTrimmed (List.forall_mem_nil _) hkeys hback
  | cons e front =>
      have hfront : ∀ e' ∈ (e.1.dropWhile isTrimmed, e.2) :: front, '=' ∉ e'.1 := by
        intro e' he'
        obtain rfl | hmem := List.mem_cons.mp he'
        · exact fun h => (hok e (by simp)).1 ((List.dropWhile_suffix isTrimmed).subset h)
        · exact (hok e' (by simp [hmem])).1
      rw [List.cons_append] at hok ⊢
      rw [splitOn_trimmed _ hok]
      exact foldl_lastTrimmed hfront hkeys hback

theorem exists_shown {content : List Char} {front back : List Entry} {e : Entry}
    (hcontent : encodeText content = fileText (front ++ e :: back) true)
    (hkey : e.key = ServerKey.runPath.key) (hback : ∀ e' ∈ back, e'.key ≠ ServerKey.runPath.key) :
    ∃ value, encodeText value = e.value ∧ readCfg content runPathName =
      some ((if back = [] then value.rdropWhile isTrimmed else value).takeWhile (· ≠ '=')) := by
  obtain ⟨pairs, rfl, hpairs⟩ := exists_pairs hcontent
  have hok := linesOk_of_entries hpairs
  rw [List.map_append, List.map_cons, eq_comm, List.map_eq_append_iff] at hpairs
  obtain ⟨front', rest, rfl, hfront, hrest⟩ := hpairs
  obtain ⟨⟨name, value⟩, back', rfl, he, hback'⟩ := List.map_eq_cons_iff.mp hrest
  obtain ⟨hname, hvalue⟩ := Prod.mk.inj he
  have hname' : name = runPathName := by
    apply encodeText_injective
    rw [hname, hkey, encodeText_runPathName]
  subst hname'
  have hnot : runPathName ∉ back'.map Prod.fst := by
    intro hmem
    obtain ⟨p, hp, hpname⟩ := List.mem_map.mp hmem
    have hentry := List.mem_map_of_mem (f := fun e => (encodeText e.1, encodeText e.2)) hp
    rw [hback'] at hentry
    obtain ⟨e', he', heq⟩ := List.mem_map.mp hentry
    apply hback e' he'
    rw [(Prod.mk.inj heq).1, hpname, encodeText_runPathName]
  have hnil : back' = [] ↔ back = [] := by
    have hlen := congrArg List.length hback'
    simp only [List.length_map] at hlen
    rw [← List.length_eq_zero_iff, hlen, List.length_eq_zero_iff]
  refine ⟨value, hvalue, ?_⟩
  rw [readCfg_last hok hnot]
  simp only [hnil]

-- The page leads to the server's directory if it shows the whole value and the server
-- has added only slashes.
theorem page_same_iff {content : List Char} {front back : List Entry} {e : Entry}
    {before field : Mem pathMax} (hcontent : encodeText content = fileText (front ++ e :: back) true)
    (hkey : e.key = ServerKey.runPath.key) (hback : ∀ e' ∈ back, e'.key ≠ ServerKey.runPath.key)
    (hline : ServerArg.appendRunPath before e.value = .ok field) :
    squeeze slash (encodeText ((readCfg content runPathName).getD undefinedText) ++ [slash]) =
        squeeze slash (cString field.val) ↔
      (0x3d ∉ e.value ∧ (back = [] → Untrimmed e.value)) ∧
        ∃ n, cString field.val = e.value ++ List.replicate n slash := by
  obtain ⟨value, hvalue, hshown⟩ := exists_shown hcontent hkey hback
  obtain ⟨hnul, hclean⟩ := ServerArg.cString_overlay_padded before.val e.value
  rw [hshown, Option.getD_some, ServerArg.appendRunPath_string hline]
  generalize hcut : (if back = [] then value.rdropWhile isTrimmed else value).takeWhile (· ≠ '=') = shown
  have hpart : encodeText shown = e.value ∨
      ∃ b rest, e.value = encodeText shown ++ b :: rest ∧ b ≠ 0 ∧ b ≠ slash := by
    obtain rfl | ⟨c, rest, htext, hc0, hc⟩ := cut_eq_or hcut.symm
    · exact .inl hvalue
    · obtain ⟨b, bs, hbytes, hb0, hb⟩ := encodeText_cons_head hc0 hc rest
      refine .inr ⟨b, bs, ?_, hb0, hb⟩
      rw [← hvalue, htext, encodeText_append, hbytes]
  have hwhole : encodeText shown = e.value ↔ 0x3d ∉ e.value ∧ (back = [] → Untrimmed e.value) := by
    rw [← hvalue, encodeText_injective.eq_iff, cut_eq_iff hcut.symm]
    have hequals : '=' ∈ value ↔ (0x3d : UInt8) ∈ encodeText value :=
      (mem_encodeText_iff (d := '=') (by decide)).symm
    have htrim : Untrimmed (encodeText value) ↔ value.rdropWhile isTrimmed = value := by
      unfold Untrimmed
      simp only [encodeText_injective.eq_iff, forall_eq]
    rw [hequals, htrim]
  have hsame := shown_same_iff hpart
    (show 0 ∉ cString (overlay before.val (padded e.value)) from fun hzero => cString_nonzero 0 hzero rfl)
    hnul fun hplain => ⟨_, (hclean hplain).symm⟩
  rw [hsame, hwhole]

theorem agree_iff_lastLineTells {replaced : Bytes → List Char} (hplain : ∀ e ∈ entries, 0 ∉ e.key)
    (haccepted : ServerArg.parseArg (fileText entries true) = .ok (some arg)) :
    Agree replaced (fileText entries true) arg pid ↔ LastLineTells entries arg.runPath pid := by
  obtain ⟨front, e, back, before, rfl, hkey, hback, -, hline⟩ :=
    ServerArg.exists_last_runPath hplain haccepted
  have hstring := ServerArg.appendRunPath_string hline
  have hslashes : ∀ n, cString arg.runPath.val = e.value ++ List.replicate n slash →
      squeeze slash (cString arg.runPath.val) = squeeze slash (e.value ++ [slash]) := by
    intro n hn
    cases n with
    | zero =>
        have hvalue : e.value = cString arg.runPath.val := by simpa using hn.symm
        have htwo := squeeze_replicate slash 1 (cString (overlay before.val (padded e.value)))
        rw [hvalue]
        generalize cString (overlay before.val (padded e.value)) = dir at hstring htwo
        rw [hstring, List.append_assoc]
        exact htwo.symm
    | succ n => rw [hn, squeeze_replicate]
  rw [agree_iff ⟨_, hstring⟩]
  unfold SameDirs LastLineTells
  refine and_congr_right fun _ => ?_
  constructor
  · intro h
    obtain ⟨content, hcontent, hpage, v, hv, hne, hsame⟩ := h
    obtain ⟨hshown, n, hn⟩ := (page_same_iff hcontent hkey hback hline).mp hpage
    refine ⟨front, e, back, rfl, hkey, hback, hshown, ⟨n, hn⟩, content, hcontent, v,
      findRunPath_eq_some_iff.mp hv, hne, ?_⟩
    rw [hsame, hslashes n hn]
  · intro h
    obtain ⟨front', e', back', hentries, hkey', hback', hshown, ⟨n, hn⟩, content, hcontent, v, hv,
      hne, hsame⟩ := h
    obtain ⟨rfl, rfl, rfl⟩ := last_unique (q := fun e => e.key = ServerKey.runPath.key) hentries hkey hkey'
      hback hback'
    refine ⟨content, hcontent, (page_same_iff hcontent hkey hback hline).mpr ⟨hshown, n, hn⟩, v,
      findRunPath_eq_some_iff.mpr hv, hne, ?_⟩
    rw [hsame, hslashes n hn]

-- Plain values leave their last one and slashes in the field where nothing else is left.
theorem string_slashes_iff {values : List Bytes} {val : Bytes} {before field : Mem pathMax}
    (hplain : ∀ v ∈ values ++ [val], 0 ∉ v)
    (hbefore : values.foldlM ServerArg.appendRunPath ServerArg.zero.runPath = .ok before)
    (hline : ServerArg.appendRunPath before val = .ok field) :
    (cString field.val).length = ServerArg.runLength (values ++ [val]) ∧
      ((∃ n, cString field.val = val ++ List.replicate n slash) ↔
        ServerArg.SlashesBehind values val.length) := by
  have hearlier : ∀ v ∈ values, 0 ∉ v := fun v hv => hplain v (List.mem_append_left _ hv)
  have hvalues := ServerArg.foldlM_appendRunPath hearlier
  rw [hbefore] at hvalues
  rw [← ServerArg.slashes_foldlM hearlier hbefore]
  split_ifs at hvalues with hroom
  · obtain ⟨before', text, hok, hends, hlength, -⟩ := hvalues
    obtain rfl := Except.ok.inj hok
    have hstep := appendRunPath_plain hends (hplain val (by simp))
    rw [terminated_cString hends]
    split_ifs at hstep with hfits
    · obtain ⟨field', hfield, hends'⟩ := hstep
      obtain rfl := Except.ok.inj (hfield.symm.trans hline)
      rw [terminated_cString hends']
      constructor
      · rw [ServerArg.runLength_append, ← hlength]
        simp only [List.length_append, List.length_drop, List.length_singleton]
        omega
      · constructor
        · rintro ⟨n, hn⟩ b hb
          rw [List.append_assoc, List.append_cancel_left_eq] at hn
          have hmem : b ∈ List.replicate n slash := hn ▸ List.mem_append_left _ hb
          exact List.eq_of_mem_replicate hmem
        · intro hall
          refine ⟨(text.drop val.length).length + 1, ?_⟩
          rw [List.append_assoc, List.replicate_succ', ← List.eq_replicate_of_mem hall]
    · obtain ⟨fault, hfault⟩ := hstep
      cases hfault.symm.trans hline
  · obtain ⟨fault, hfault⟩ := hvalues
    cases hfault

-- With plain values the field is what the lines say.
theorem lastLineTells_iff_lineTells (hplain : ∀ e ∈ entries, 0 ∉ e.key)
    (hvalues : ∀ e ∈ entries, e.key = ServerKey.runPath.key → 0 ∉ e.value)
    (haccepted : ServerArg.parseArg (fileText entries true) = .ok (some arg)) :
    LastLineTells entries arg.runPath pid ↔ LineTells entries pid := by
  obtain ⟨front, e, back, before, rfl, hkey, hback, hearlier, hline⟩ :=
    ServerArg.exists_last_runPath hplain haccepted
  have hgiven : ∀ v ∈ given front ServerKey.runPath.key ++ [e.value], 0 ∉ v := by
    intro v hv
    rcases List.mem_append.mp hv with hv | hv
    · obtain ⟨e', he', hkey', rfl⟩ := mem_given.mp hv
      exact hvalues e' (List.mem_append_left _ he') hkey'
    · rw [List.mem_singleton.mp hv]
      exact hvalues e (by simp) hkey
  obtain ⟨hlength, hslashes⟩ := string_slashes_iff hgiven hearlier hline
  have hroom : HasRoom arg.runPath (encodeText (pidText pid)) ↔
      RoomFor (ServerArg.runLength (given front ServerKey.runPath.key ++ [e.value]))
        (encodeText (pidText pid)).length := by
    rw [HasRoom, hlength, RoomFor]
  unfold LastLineTells LineTells
  rw [hroom]
  constructor
  · rintro ⟨hfits, front', e', back', hentries, hkey', hback', hshown, hfield, hscript⟩
    obtain ⟨rfl, rfl, rfl⟩ := last_unique (q := fun e => e.key = ServerKey.runPath.key) hentries hkey hkey'
      hback hback'
    exact ⟨front, e, back, rfl, hkey, hback, hfits, hshown, hslashes.mp hfield, hscript⟩
  · rintro ⟨front', e', back', hentries, hkey', hback', hfits, hshown, hbehind, hscript⟩
    obtain ⟨rfl, rfl, rfl⟩ := last_unique (q := fun e => e.key = ServerKey.runPath.key) hentries hkey hkey'
      hback hback'
    exact ⟨hfits, front, e, back, rfl, hkey, hback, hshown, hslashes.mpr hbehind, hscript⟩

end Lines

section Paths

-- For every accepted configuration the paths are one if what the tools cut out of it
-- leads where the server's field leads; in a file of lines this says which lines and
-- values are seen alike, and with plain values the text of the file says it alone.
theorem fifo_paths_agree_iff (replaced : Bytes → List Char) (cfg : Bytes) (arg : ServerArg) (pid : Nat)
    (haccepted : ServerArg.parseArg cfg = .ok (some arg)) :
    (Agree replaced cfg arg pid ↔ SameDirs cfg arg.runPath pid) ∧
      ∀ entries : List Entry, fileText entries true = cfg → (∀ e ∈ entries, 0 ∉ e.key) →
        (Agree replaced cfg arg pid ↔ LastLineTells entries arg.runPath pid) ∧
          ((∀ e ∈ entries, e.key = ServerKey.runPath.key → 0 ∉ e.value) →
            (Agree replaced cfg arg pid ↔ LineTells entries pid)) := by
  constructor
  · obtain ⟨before, val, hline⟩ := ServerArg.exists_runPath_line haccepted
    exact agree_iff ⟨_, ServerArg.appendRunPath_string hline⟩
  · rintro entries rfl hplain
    have hfield : Agree replaced _ arg pid ↔ LastLineTells entries arg.runPath pid :=
      agree_iff_lastLineTells hplain haccepted
    exact ⟨hfield, fun hvalues => hfield.trans (lastLineTells_iff_lineTells hplain hvalues haccepted)⟩

theorem slash_plain : (0x0a : UInt8) ∉ [(0x2f : UInt8)] := by decide

-- A configuration with one line for every key.
def configWith (runPath : Bytes) (hplain : 0x0a ∉ runPath) : List Entry :=
  [⟨ServerKey.path.key, [0x2f], by decide, by decide, slash_plain⟩,
    ⟨ServerKey.accountPath.key, [0x2f], by decide, by decide, slash_plain⟩,
    ⟨ServerKey.threadNum.key, [0x34], by decide, by decide, by decide⟩,
    ⟨ServerKey.runPath.key, runPath, by decide, by decide, hplain⟩]

theorem exists_accepted (runPath : Bytes) (hplain : 0x0a ∉ runPath) (hnul : 0 ∉ runPath)
    (hfits : runPath.length + 1 < pathMax) :
    ∃ arg, ServerArg.parseArg (fileText (configWith runPath hplain) true) = .ok (some arg) := by
  have hwritten : ServerArg.written (configWith runPath hplain) true .runPath = [runPath] := rfl
  have hall : ∀ k, ServerArg.written (configWith runPath hplain) true k ≠ [] := by
    intro k
    cases k with
    | path => exact List.cons_ne_nil _ _
    | accountPath => exact List.cons_ne_nil _ _
    | threadNum => exact List.cons_ne_nil _ _
    | runPath => exact List.cons_ne_nil _ _
  have hline : ∃ field, ServerArg.appendRunPath ServerArg.zero.runPath runPath = .ok field := by
    have hlen : runPath.length ≤ pathMax := by omega
    have hstring : cString (copyField ServerArg.zero.runPath runPath hlen).val = runPath := by
      have hbehind : cString ((zeros pathMax).drop runPath.length) = [] := by
        rw [zeros, List.drop_replicate]
        exact cString_append_zeros [] _
      have hfield := (ServerArg.cString_overlay_padded (zeros pathMax) runPath).2 hnul
      rw [hbehind, List.append_nil] at hfield
      exact hfield
    rw [ServerArg.appendRunPath, strncpyField, dif_pos hlen]
    exact ⟨_, dif_pos (by rw [hstring]; exact hfits)⟩
  obtain ⟨field, hfield⟩ := hline
  rw [ServerArg.parseArg_eq (.inl rfl), hwritten, List.foldlM_cons, hfield]
  simp only [if_pos hall]
  exact ⟨_, rfl⟩

-- path=/, account_path=/, thread_num=4, run_path=/r
def configR : List Entry := configWith [0x2f, 0x72] (by decide)

theorem configR_lineTells : LineTells configR 7 := by
  have hfirst : FirstNamed (universalNewlines (("path=/\naccount_path=/\nthread_num=4\nrun_path=/r\n").toList))
      ['/', 'r'] := findRunPath_eq_some_iff.mp (by decide +kernel)
  refine ⟨configR.take 3, configR.getLast (by decide), [], rfl, rfl, List.forall_mem_nil _,
    ⟨by decide +kernel, by decide +kernel, by decide +kernel⟩, ⟨by decide, fun _ text htext => ?_⟩,
      ?_, _, ?_, _, hfirst, by decide, by decide +kernel⟩
  · have hr : text = ['/', 'r'] := encodeText_injective (htext.trans (by decide +kernel))
    rw [hr]
    decide +kernel
  · intro before val after hsplit
    have hnone : given (configR.take 3) ServerKey.runPath.key = [] := by decide +kernel
    simp [hnone] at hsplit
  · decide +kernel

theorem fifo_paths_agree_plain :
    ∃ arg, ServerArg.parseArg (fileText configR true) = .ok (some arg) ∧
      (Agree (fun _ => []) (fileText configR true) arg 7 ↔
        SameDirs (fileText configR true) arg.runPath 7) ∧
      (Agree (fun _ => []) (fileText configR true) arg 7 ↔ LastLineTells configR arg.runPath 7) ∧
      Agree (fun _ => []) (fileText configR true) arg 7 := by
  obtain ⟨arg, harg⟩ := exists_accepted [0x2f, 0x72] (by decide) (by decide) (by decide)
  have hkeys : ∀ e ∈ configR, 0 ∉ e.key := by decide
  have hvalues : ∀ e ∈ configR, e.key = ServerKey.runPath.key → 0 ∉ e.value := by decide
  obtain ⟨hsame, hlines⟩ := fifo_paths_agree_iff (fun _ => []) _ arg 7 harg
  obtain ⟨hlast, htext⟩ := hlines configR rfl hkeys
  exact ⟨arg, harg, hsame, hlast, (htext hvalues).mpr configR_lineTells⟩

-- The web page cuts `/a=b` at its `=`.
theorem run_path_with_equals :
    ∃ arg, ServerArg.parseArg (fileText (configWith [0x2f, 0x61, 0x3d, 0x62] (by decide)) true) =
        .ok (some arg) ∧
      ¬Agree (fun _ => []) (fileText (configWith [0x2f, 0x61, 0x3d, 0x62] (by decide)) true) arg 7 := by
  obtain ⟨arg, harg⟩ := exists_accepted [0x2f, 0x61, 0x3d, 0x62] (by decide) (by decide) (by decide)
  refine ⟨arg, harg, fun h => ?_⟩
  have hplain : ∀ e ∈ configWith [0x2f, 0x61, 0x3d, 0x62] (by decide), 0 ∉ e.key := by decide
  rw [agree_iff_lastLineTells hplain harg] at h
  obtain ⟨-, front, e, back, hentries, hkey, -, ⟨hequals, -⟩, -⟩ := h
  have hlast : ∀ e ∈ configWith [0x2f, 0x61, 0x3d, 0x62] (by decide),
      e.key = ServerKey.runPath.key → 0x3d ∈ e.value := by decide
  exact hequals (hlast e (by rw [hentries]; simp) hkey)

end Paths

end Csiebox.Monitor
