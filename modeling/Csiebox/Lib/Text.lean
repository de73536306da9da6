import Csiebox.Lib.Bytes
import Mathlib.Data.List.DropRight

namespace CBytes

section Utf8

def encodeText (text : List Char) : Bytes := text.flatMap String.utf8EncodeChar

-- Strict decoding: nothing on bytes that encode no text.
def decodeText (bs : Bytes) : Option (List Char) := (String.fromUTF8? bs.toByteArray).map String.toList

theorem utf8Encode_eq (text : List Char) : text.utf8Encode = (encodeText text).toByteArray := rfl

theorem toByteArray_inj {bs bs' : Bytes} : bs.toByteArray = bs'.toByteArray ↔ bs = bs' := by
  constructor
  · intro h
    have hdata := congrArg (fun b : ByteArray => b.data.toList) h
    simpa using hdata
  · intro h
    rw [h]

theorem encodeText_injective : Function.Injective encodeText := by
  intro text text' h
  have hbytes : (String.ofList text).toByteArray = (String.ofList text').toByteArray := by
    rw [String.toByteArray_ofList, String.toByteArray_ofList, utf8Encode_eq, utf8Encode_eq, h]
  exact String.ofList_inj.mp (String.toByteArray_inj.mp hbytes)

theorem decodeText_eq_some_iff {bs : Bytes} {text : List Char} :
    decodeText bs = some text ↔ encodeText text = bs := by
  rw [← toByteArray_inj, ← utf8Encode_eq, ← String.toByteArray_ofList]
  unfold decodeText String.fromUTF8?
  constructor
  · intro h
    split_ifs at h with hvalid
    · have htext : (String.fromUTF8 bs.toByteArray hvalid).toList = text := by simpa using h
      rw [← htext, String.ofList_toList]
      rfl
    · simp at h
  · intro h
    have hvalid : bs.toByteArray.IsValidUTF8 := h ▸ (String.ofList text).isValidUTF8
    have hstring : String.fromUTF8 bs.toByteArray hvalid = String.ofList text :=
      String.toByteArray_inj.mp h.symm
    rw [dif_pos hvalid, hstring, Option.map_some, String.toList_ofList]

theorem encodeText_cons (c : Char) (text : List Char) :
    encodeText (c :: text) = String.utf8EncodeChar c ++ encodeText text := List.flatMap_cons

theorem encodeText_append (text text' : List Char) :
    encodeText (text ++ text') = encodeText text ++ encodeText text' := List.flatMap_append

-- An ASCII character is one byte; the bytes of the others are not ASCII.
theorem utf8EncodeChar_bytes (c : Char) :
    String.utf8EncodeChar c = [UInt8.ofNat c.toNat] ∧ c.toNat < 128 ∨
      128 ≤ c.toNat ∧ ∀ b ∈ String.utf8EncodeChar c, 128 ≤ b.toNat := by
  have hor : ∀ x m : UInt8, 128 ≤ m.toNat → 128 ≤ (x ||| m).toNat := by
    intro x m hm
    rw [UInt8.toNat_or]
    exact hm.trans Nat.right_le_or
  have hsmall : c.utf8Size = 1 ↔ c.toNat < 128 := by
    rw [Char.utf8Size_eq_one_iff, UInt32.le_iff_toNat_le]
    exact Nat.lt_succ_iff.symm
  obtain h | h | h | h := c.utf8Size_eq
  · rw [String.utf8EncodeChar_eq_singleton h]
    exact .inl ⟨rfl, hsmall.mp h⟩
  · refine .inr ⟨by omega, ?_⟩
    simp only [String.utf8EncodeChar_eq_cons_cons h, List.forall_mem_cons]
    exact ⟨hor _ _ (by decide), hor _ _ (by decide), by simp⟩
  · refine .inr ⟨by omega, ?_⟩
    simp only [String.utf8EncodeChar_eq_cons_cons_cons h, List.forall_mem_cons]
    exact ⟨hor _ _ (by decide), hor _ _ (by decide), hor _ _ (by decide), by simp⟩
  · refine .inr ⟨by omega, ?_⟩
    simp only [String.utf8EncodeChar_eq_cons_cons_cons_cons h, List.forall_mem_cons]
    exact ⟨hor _ _ (by decide), hor _ _ (by decide), hor _ _ (by decide), hor _ _ (by decide), by simp⟩

-- An encoded text can only be cut at an ASCII byte where the text has that character.
theorem encodeText_split {text : List Char} {xs ys : Bytes} {d : Char} (hd : d.toNat < 128)
    (h : encodeText text = xs ++ UInt8.ofNat d.toNat :: ys) :
    ∃ front back, text = front ++ d :: back ∧ encodeText front = xs ∧ encodeText back = ys := by
  have hbyte : (UInt8.ofNat d.toNat).toNat = d.toNat := by
    rw [UInt8.toNat_ofNat']
    omega
  induction text generalizing xs with
  | nil => simp [encodeText] at h
  | cons c text ih =>
      rw [encodeText_cons] at h
      obtain ⟨hone, hlow⟩ | ⟨hhigh, hbytes⟩ := utf8EncodeChar_bytes c
      · rw [hone, List.singleton_append] at h
        cases xs with
        | nil =>
            rw [List.nil_append, List.cons.injEq] at h
            have hc : c = d := by
              have hnat := congrArg UInt8.toNat h.1
              rw [hbyte, UInt8.toNat_ofNat'] at hnat
              apply Char.toNat_inj.mp
              omega
            exact ⟨[], text, by rw [hc]; rfl, rfl, h.2⟩
        | cons x xs =>
            rw [List.cons_append, List.cons.injEq] at h
            obtain ⟨front, back, htext, hfront, hback⟩ := ih h.2
            refine ⟨c :: front, back, by rw [htext]; rfl, ?_, hback⟩
            rw [encodeText_cons, hone, hfront, h.1]
            rfl
      · rw [List.append_eq_append_iff] at h
        obtain ⟨mid, hxs, hrest⟩ | ⟨mid, hc, hrest⟩ := h
        · obtain ⟨front, back, htext, hfront, hback⟩ := ih hrest
          refine ⟨c :: front, back, by rw [htext]; rfl, ?_, hback⟩
          rw [encodeText_cons, hfront, hxs]
        · cases mid with
          | nil =>
              rw [List.nil_append] at hrest
              obtain ⟨front, back, htext, hfront, hback⟩ :=
                ih (show encodeText text = [] ++ _ :: ys from hrest.symm)
              refine ⟨c :: front, back, by rw [htext]; rfl, ?_, hback⟩
              rw [encodeText_cons, hfront, hc, List.append_nil, List.append_nil]
          | cons b mid =>
              rw [List.cons_append, List.cons.injEq] at hrest
              have hb := hbytes b (by rw [hc]; simp)
              rw [← hrest.1, hbyte] at hb
              omega

theorem mem_encodeText_iff {text : List Char} {d : Char} (hd : d.toNat < 128) :
    UInt8.ofNat d.toNat ∈ encodeText text ↔ d ∈ text := by
  constructor
  · intro h
    obtain ⟨xs, ys, hsplit⟩ := List.append_of_mem h
    obtain ⟨front, back, rfl, -, -⟩ := encodeText_split hd hsplit
    simp
  · intro h
    obtain ⟨front, back, rfl⟩ := List.append_of_mem h
    have hone : String.utf8EncodeChar d = [UInt8.ofNat d.toNat] := by
      obtain ⟨hone, -⟩ | ⟨hhigh, -⟩ := utf8EncodeChar_bytes d
      · exact hone
      · omega
    rw [encodeText_append, encodeText_cons, hone]
    simp

end Utf8

section Newlines

-- Text mode input: CR LF and a lone CR are read as LF.
def universalNewlines : List Char → List Char
  | [] => []
  | '\r' :: '\n' :: cs => '\n' :: universalNewlines cs
  | c :: cs => (if c = '\r' then '\n' else c) :: universalNewlines cs

theorem cr_not_mem_universalNewlines (text : List Char) : '\r' ∉ universalNewlines text := by
  induction text using universalNewlines.induct with
  | case1 => simp [universalNewlines]
  | case2 cs ih => simp [universalNewlines, ih]
  | case3 c cs hpair ih =>
      rw [universalNewlines.eq_3 _ _ hpair, List.mem_cons, not_or]
      refine ⟨?_, ih⟩
      split_ifs with hc
      · decide
      · exact Ne.symm hc

theorem universalNewlines_eq_self_iff {text : List Char} :
    universalNewlines text = text ↔ '\r' ∉ text := by
  constructor
  · intro h
    rw [← h]
    exact cr_not_mem_universalNewlines text
  · intro h
    induction text using universalNewlines.induct with
    | case1 => rfl
    | case2 cs ih => simp at h
    | case3 c cs hpair ih =>
        rw [List.mem_cons, not_or] at h
        rw [universalNewlines.eq_3 _ _ hpair, if_neg (Ne.symm h.1), ih h.2]

end Newlines

section Ends

variable {α : Type} {p : α → Bool}

theorem dropWhile_stops {x : α} (hx : p x = false) (xs ys : List α) :
    (xs ++ x :: ys).dropWhile p = xs.dropWhile p ++ x :: ys := by
  rw [List.dropWhile_append, List.dropWhile_cons_of_neg (by simp [hx])]
  split_ifs with h
  · rw [List.isEmpty_iff.mp h, List.nil_append]
  · rfl

theorem rdropWhile_stops {x : α} (hx : p x = false) (xs ys : List α) :
    (xs ++ x :: ys).rdropWhile p = xs ++ x :: ys.rdropWhile p := by
  simp only [List.rdropWhile, List.reverse_append, List.reverse_cons, List.append_assoc,
    List.singleton_append]
  rw [dropWhile_stops hx]
  simp

theorem rdropWhile_append_of_mem {x : α} {ys : List α} (hx : p x = false) (hmem : x ∈ ys) (xs : List α) :
    (xs ++ ys).rdropWhile p = xs ++ ys.rdropWhile p := by
  obtain ⟨front, back, rfl⟩ := List.append_of_mem hmem
  rw [← List.append_assoc, rdropWhile_stops hx, rdropWhile_stops hx, List.append_assoc]

-- What is cut off starts with an element to cut.
theorem rdropWhile_eq_self_or (xs : List α) :
    xs.rdropWhile p = xs ∨ ∃ x ys, p x = true ∧ xs = xs.rdropWhile p ++ x :: ys := by
  have hsplit : xs.rdropWhile p ++ xs.rtakeWhile p = xs := by
    rw [List.rdropWhile, List.rtakeWhile, ← List.reverse_append, List.takeWhile_append_dropWhile,
      List.reverse_reverse]
  cases hcut : xs.rtakeWhile p with
  | nil =>
      rw [hcut, List.append_nil] at hsplit
      exact .inl hsplit
  | cons x ys =>
      have hx : x ∈ xs.rtakeWhile p := by
        rw [hcut]
        exact List.mem_cons_self ..
      rw [hcut] at hsplit
      exact .inr ⟨x, ys, List.mem_rtakeWhile_imp hx, hsplit.symm⟩

theorem head?_splitOn [DecidableEq α] (sep : α) (xs : List α) :
    (xs.splitOn sep).head? = some (xs.takeWhile (· ≠ sep)) := by
  induction xs with
  | nil => rfl
  | cons x xs ih =>
      rw [List.splitOn_cons_eq_if_modifyHead]
      by_cases hx : x = sep
      · simp [hx]
      · simp [hx, ih, List.head?_modifyHead]

-- The last element with a property.
theorem exists_last {q : α → Prop} {xs : List α} (h : ∃ x ∈ xs, q x) :
    ∃ front x back, xs = front ++ x :: back ∧ q x ∧ ∀ y ∈ back, ¬q y := by
  induction xs with
  | nil => simp at h
  | cons x xs ih =>
      by_cases hlater : ∃ y ∈ xs, q y
      · obtain ⟨front, y, back, rfl, hy, hback⟩ := ih hlater
        exact ⟨x :: front, y, back, rfl, hy, hback⟩
      · obtain ⟨y, hy, hqy⟩ := h
        obtain rfl | hmem := List.mem_cons.mp hy
        · exact ⟨[], y, xs, rfl, hqy, fun z hz hqz => hlater ⟨z, hz, hqz⟩⟩
        · exact absurd ⟨y, hmem, hqy⟩ hlater

theorem last_unique {q : α → Prop} {front front' back back' : List α} {x x' : α}
    (h : front ++ x :: back = front' ++ x' :: back') (hx : q x) (hx' : q x') (hback : ∀ y ∈ back, ¬q y)
    (hback' : ∀ y ∈ back', ¬q y) : front = front' ∧ x = x' ∧ back = back' := by
  obtain ⟨mid, hfront, hrest⟩ | ⟨mid, hfront, hrest⟩ := List.append_eq_append_iff.mp h
  · cases mid with
    | nil =>
        obtain ⟨rfl, rfl⟩ := List.cons.inj hrest
        exact ⟨by simp [hfront], rfl, rfl⟩
    | cons y mid =>
        obtain ⟨-, rfl⟩ := List.cons.inj hrest
        exact absurd hx' (hback x' (by simp))
  · cases mid with
    | nil =>
        obtain ⟨rfl, rfl⟩ := List.cons.inj hrest
        exact ⟨by simp [hfront], rfl, rfl⟩
    | cons y mid =>
        obtain ⟨-, rfl⟩ := List.cons.inj hrest
        exact absurd hx (hback' x (by simp))

end Ends

section Squeeze

variable {α : Type} [DecidableEq α] {sep : α}

-- Every run of `sep` becomes a single one.
def squeeze (sep : α) : List α → List α
  | [] => []
  | x :: xs => if x = sep ∧ xs.head? = some sep then squeeze sep xs else x :: squeeze sep xs

theorem squeeze_append {ys : List α} (hys : ys.head? ≠ some sep) (xs : List α) :
    squeeze sep (xs ++ ys) = squeeze sep xs ++ squeeze sep ys := by
  induction xs with
  | nil => rfl
  | cons x xs ih =>
      have hhead : (xs ++ ys).head? = some sep ↔ xs.head? = some sep := by
        cases xs with
        | nil => simpa using hys
        | cons x' xs => simp
      simp only [List.cons_append, squeeze, hhead, ih]
      split_ifs
      · rfl
      · rfl

-- Only `sep` goes.
theorem filter_squeeze (xs : List α) : (squeeze sep xs).filter (· ≠ sep) = xs.filter (· ≠ sep) := by
  induction xs with
  | nil => rfl
  | cons x xs ih =>
      rw [squeeze]
      split_ifs with h
      · rw [ih, List.filter_cons_of_neg (by simp [h.1])]
      · rw [List.filter_cons, List.filter_cons, ih]

theorem squeeze_replicate (sep : α) (n : Nat) (xs : List α) :
    squeeze sep (xs ++ List.replicate (n + 1) sep) = squeeze sep (xs ++ [sep]) := by
  induction xs with
  | nil =>
      induction n with
      | zero => rfl
      | succ n ih =>
          rw [List.replicate_succ, List.nil_append, squeeze, if_pos (by simp [List.replicate_succ])]
          exact ih
  | cons x xs ih =>
      have hhead : (xs ++ List.replicate (n + 1) sep).head? = (xs ++ [sep]).head? := by
        cases xs with
        | nil => rfl
        | cons x' xs => rfl
      simp only [List.cons_append, squeeze, hhead, ih]

theorem squeeze_ne_nil {xs : List α} (hxs : xs ≠ []) : squeeze sep xs ≠ [] := by
  induction xs with
  | nil => exact absurd rfl hxs
  | cons x xs ih =>
      rw [squeeze]
      split_ifs with h
      · apply ih
        rintro rfl
        simp at h
      · exact List.cons_ne_nil _ _

end Squeeze

section Occurrence

variable {α : Type} [DecidableEq α] {needle : List α}

-- What lies behind the first occurrence of `needle`.
def firstBehind (needle : List α) : List α → Option (List α)
  | [] => none
  | x :: xs => if needle <+: x :: xs then some ((x :: xs).drop needle.length) else firstBehind needle xs

theorem firstBehind_eq_some_iff (hneedle : needle ≠ []) {text rest : List α} :
    firstBehind needle text = some rest ↔ ∃ front, text = front ++ (needle ++ rest) ∧
      ∀ front' rest', text = front' ++ (needle ++ rest') → front.length ≤ front'.length := by
  induction text with
  | nil => simp [firstBehind, hneedle]
  | cons x xs ih =>
      rw [firstBehind]
      by_cases hhere : needle <+: x :: xs
      · rw [if_pos hhere]
        obtain ⟨behind, hbehind⟩ := hhere
        rw [← hbehind, List.drop_left, Option.some.injEq]
        constructor
        · rintro rfl
          exact ⟨[], rfl, fun _ _ _ => Nat.zero_le _⟩
        · intro h
          obtain ⟨front, htext, hfirst⟩ := h
          have hzero := hfirst [] behind rfl
          obtain rfl := List.length_eq_zero_iff.mp (Nat.le_zero.mp hzero)
          exact List.append_cancel_left htext
      · rw [if_neg hhere, ih]
        have hfront : ∀ {front rest' : List α}, x :: xs = front ++ (needle ++ rest') →
            ∃ front', front = x :: front' ∧ xs = front' ++ (needle ++ rest') := by
          intro front rest' h
          cases front with
          | nil => exact absurd ⟨rest', h.symm⟩ hhere
          | cons y front =>
              rw [List.cons_append, List.cons.injEq] at h
              exact ⟨front, by rw [h.1], h.2⟩
        constructor
        · intro h
          obtain ⟨front, rfl, hfirst⟩ := h
          refine ⟨x :: front, rfl, fun front' rest' h' => ?_⟩
          obtain ⟨front'', rfl, h''⟩ := hfront h'
          exact Nat.succ_le_succ (hfirst _ _ h'')
        · intro h
          obtain ⟨front, htext, hfirst⟩ := h
          obtain ⟨front, rfl, hxs⟩ := hfront htext
          refine ⟨front, hxs, fun front' rest' h' => ?_⟩
          have hle := hfirst (x :: front') rest' (by rw [h']; rfl)
          exact Nat.succ_le_succ_iff.mp hle

end Occurrence

end CBytes
