import Csiebox.Lib.Memory
import Mathlib.Data.List.GetD

namespace CBytes

section Layers

-- Byte `i` of zeroed memory after the strings were written to its start, one over
-- the other.
def layered (writes : List Bytes) (i : Nat) : UInt8 :=
  writes.foldl (fun old bs => bs.getD i old) 0

-- The memory starts with `text` and a NUL.
def Spells (writes : List Bytes) (text : Bytes) : Prop :=
  0 ∉ text ∧ ∀ i ≤ text.length, layered writes i = text.getD i 0

instance (writes : List Bytes) (text : Bytes) : Decidable (Spells writes text) :=
  inferInstanceAs (Decidable (_ ∧ _))

-- What `strncpy(dst, val, vallen)` writes: zeros behind a NUL.
def padded (val : Bytes) : Bytes := cString val ++ zeros (val.length - (cString val).length)

theorem cString_length_le (bs : Bytes) : (cString bs).length ≤ bs.length :=
  (List.takeWhile_prefix _).length_le

@[simp] theorem padded_length (val : Bytes) : (padded val).length = val.length := by
  have hlen := cString_length_le val
  simp only [padded, List.length_append, zeros_length]
  omega

theorem padded_eq_self {val : Bytes} (h : ∀ b ∈ val, b ≠ 0) : padded val = val := by
  rw [padded, cString_eq_self h, Nat.sub_self]
  exact List.append_nil val

theorem getD_overlay (buf bs : Bytes) (i : Nat) (d : UInt8) :
    (overlay buf bs).getD i d = bs.getD i (buf.getD i d) := by
  by_cases hi : i < bs.length
  · rw [overlay, List.getD_append _ _ _ _ hi, List.getD_eq_getElem _ _ hi, List.getD_eq_getElem _ _ hi]
  · have hle : bs.length ≤ i := by omega
    rw [overlay, List.getD_append_right _ _ _ _ hle, List.getD_eq_default _ _ hle,
      List.getD_eq_getElem?_getD,
      List.getElem?_drop, Nat.add_sub_cancel' hle, List.getD_eq_getElem?_getD]

theorem getD_foldl_overlay (writes : List Bytes) (buf : Bytes) (i : Nat) (d : UInt8) :
    (writes.foldl overlay buf).getD i d =
      writes.foldl (fun old bs => bs.getD i old) (buf.getD i d) := by
  induction writes generalizing buf with
  | nil => rfl
  | cons bs writes ih => rw [List.foldl_cons, ih, getD_overlay, List.foldl_cons]

theorem getD_zeros (n i : Nat) : (zeros n).getD i 0 = 0 := by
  rw [List.getD_eq_getElem?_getD, zeros, List.getElem?_replicate]
  split <;> rfl

theorem layered_eq (writes : List Bytes) (n i : Nat) :
    (writes.foldl overlay (zeros n)).getD i 0 = layered writes i := by
  rw [getD_foldl_overlay, getD_zeros, layered]

-- A terminated string in memory, byte by byte.
theorem cString_eq_iff {buf text : Bytes} (hfits : text.length < buf.length) :
    0 ∈ buf ∧ cString buf = text ↔ 0 ∉ text ∧ ∀ i ≤ text.length, buf.getD i 0 = text.getD i 0 := by
  have hlast : text.getD text.length 0 = 0 := List.getD_eq_default _ _ le_rfl
  constructor
  · intro h
    obtain ⟨hmem, rfl⟩ := h
    have hplain : 0 ∉ cString buf := fun hzero => cString_nonzero 0 hzero rfl
    refine ⟨hplain, ?_⟩
    have hsplit : buf = cString buf ++ buf.dropWhile (· ≠ 0) := List.takeWhile_append_dropWhile.symm
    intro i hi
    by_cases hlt : i < (cString buf).length
    · have hget := List.getD_append (cString buf) (buf.dropWhile (· ≠ 0)) 0 i hlt
      rwa [← hsplit] at hget
    · have hi' : i = (cString buf).length := by omega
      rw [hi', hlast]
      have hhead : ∀ b ∈ (buf.dropWhile (· ≠ 0)).head?, b = 0 := by
        rw [← cString_append_eq_iff (show ∀ b ∈ cString buf, b ≠ 0 from cString_nonzero), ← hsplit]
      have hget := List.getD_append_right (cString buf) (buf.dropWhile (· ≠ 0)) 0 _ le_rfl
      rw [← hsplit, Nat.sub_self] at hget
      rw [hget]
      cases hrest : buf.dropWhile (· ≠ 0) with
      | nil => rfl
      | cons b rest => exact hhead b (by rw [hrest]; rfl)
  · intro h
    obtain ⟨hplain, hbytes⟩ := h
    have htake : buf.take text.length = text := by
      apply List.ext_getElem
      · rw [List.length_take]
        omega
      · intro i h₁ h₂
        have hi := hbytes i h₂.le
        rw [List.getD_eq_getElem _ _ (by omega), List.getD_eq_getElem _ _ h₂] at hi
        rwa [List.getElem_take]
    have hzero := hbytes text.length le_rfl
    rw [hlast, List.getD_eq_getElem _ _ hfits] at hzero
    have hsplit : buf = text ++ 0 :: buf.drop (text.length + 1) := by
      have hdrop := List.drop_eq_getElem_cons hfits
      rw [hzero] at hdrop
      have hparts := List.take_append_drop text.length buf
      rw [htake, hdrop] at hparts
      exact hparts.symm
    have hmem : (0 : UInt8) ∈ buf := by
      rw [hsplit]
      simp
    refine ⟨hmem, ?_⟩
    rw [hsplit]
    exact cString_append_zero (fun b hb hb0 => hplain (hb0 ▸ hb)) _

theorem foldl_overlay_spells_iff {writes : List Bytes} {n : Nat} {text : Bytes}
    (hwrites : ∀ bs ∈ writes, bs.length ≤ n) (hfits : text.length < n) :
    0 ∈ writes.foldl overlay (zeros n) ∧ cString (writes.foldl overlay (zeros n)) = text ↔
      Spells writes text := by
  have hlen : ∀ (ws : List Bytes) (buf : Bytes), (∀ bs ∈ ws, bs.length ≤ buf.length) →
      (ws.foldl overlay buf).length = buf.length := by
    intro ws
    induction ws with
    | nil => exact fun _ _ => rfl
    | cons bs ws ih =>
        intro buf hws
        have hone : (overlay buf bs).length = buf.length := overlay_length (hws bs (List.mem_cons_self ..))
        rw [List.foldl_cons, ih, hone]
        intro bs' hbs'
        rw [hone]
        exact hws bs' (List.mem_cons_of_mem _ hbs')
  have hbuf : (writes.foldl overlay (zeros n)).length = n := by
    rw [hlen writes (zeros n) (by simpa using hwrites), zeros_length]
  rw [cString_eq_iff (by omega), Spells]
  simp only [layered_eq]

-- Strings without NUL leave a NUL where all of them end.
theorem layered_eq_zero_iff {writes : List Bytes} {i : Nat} (hplain : ∀ bs ∈ writes, 0 ∉ bs) :
    layered writes i = 0 ↔ ∀ bs ∈ writes, bs.length ≤ i := by
  induction writes using List.reverseRecOn with
  | nil => simp [layered]
  | append_singleton writes bs ih =>
      have hlast : layered (writes ++ [bs]) i = bs.getD i (layered writes i) := by simp [layered]
      rw [hlast]
      by_cases hi : i < bs.length
      · have hne : bs[i] ≠ 0 := fun heq => hplain bs (by simp) (heq ▸ List.getElem_mem hi)
        rw [List.getD_eq_getElem _ _ hi]
        refine iff_of_false hne fun hall => ?_
        have hle := hall bs (by simp)
        omega
      · have hle : bs.length ≤ i := by omega
        rw [List.getD_eq_default _ _ hle, ih fun bs' hbs' => hplain bs' (by simp [hbs'])]
        constructor
        · intro hall bs' hbs'
          obtain hmem | rfl := List.mem_append.mp hbs' |>.imp_right List.mem_singleton.mp
          · exact hall bs' hmem
          · exact hle
        · intro hall bs' hbs'
          exact hall bs' (by simp [hbs'])

-- The last of these strings stands alone if it is no shorter than the others.
theorem spells_last_iff {writes : List Bytes} {text : Bytes}
    (hplain : ∀ bs ∈ writes ++ [text], 0 ∉ bs) :
    Spells (writes ++ [text]) text ↔ ∀ bs ∈ writes, bs.length ≤ text.length := by
  have hbehind := layered_eq_zero_iff (i := text.length) hplain
  have hlast : ∀ i, layered (writes ++ [text]) i = text.getD i (layered writes i) := by simp [layered]
  have hend : text.getD text.length 0 = 0 := List.getD_eq_default _ _ le_rfl
  constructor
  · intro h bs hbs
    have hzero := h.2 text.length le_rfl
    rw [hend, hbehind] at hzero
    exact hzero bs (by simp [hbs])
  · intro h
    refine ⟨hplain text (by simp), fun i hi => ?_⟩
    by_cases hlt : i < text.length
    · rw [hlast, List.getD_eq_getElem _ _ hlt, List.getD_eq_getElem _ _ hlt]
    · obtain rfl : i = text.length := by omega
      rw [hend, hbehind]
      intro bs hbs
      obtain hmem | rfl := List.mem_append.mp hbs |>.imp_right List.mem_singleton.mp
      · exact h bs hmem
      · exact le_rfl

theorem layered_append (writes : List Bytes) (bs : Bytes) (i : Nat) :
    layered (writes ++ [bs]) i = bs.getD i (layered writes i) := by
  simp [layered]

-- The last string covers all of a text that is no longer.
theorem spells_covered_iff {writes : List Bytes} {bs text : Bytes} (hplain : ∀ w ∈ writes ++ [bs], 0 ∉ w)
    (hle : text.length ≤ bs.length) :
    Spells (writes ++ [bs]) text ↔ bs = text ∧ ∀ w ∈ writes, w.length ≤ text.length := by
  constructor
  · intro h
    have hzero := h.2 text.length le_rfl
    rw [List.getD_eq_default _ _ le_rfl, layered_eq_zero_iff hplain] at hzero
    have hlen : bs.length = text.length := le_antisymm (hzero bs (by simp)) hle
    refine ⟨List.ext_getElem hlen fun i hi hi' => ?_, fun w hw => hzero w (by simp [hw])⟩
    have hbyte := h.2 i hi'.le
    rwa [layered_append, List.getD_eq_getElem _ _ hi, List.getD_eq_getElem _ _ hi'] at hbyte
  · rintro ⟨rfl, h⟩
    exact (spells_last_iff hplain).mpr h

-- The topmost byte is that of the last string that reaches it.
theorem layered_top {writes : List Bytes} {k : Nat} (hshort : ∀ w ∈ writes, w.length ≤ k + 1) :
    layered writes k = ((writes.filter (·.length = k + 1)).getLast?.bind List.getLast?).getD 0 := by
  induction writes using List.reverseRecOn with
  | nil => rfl
  | append_singleton writes bs ih =>
      rw [layered_append, List.filter_append]
      by_cases hlen : bs.length = k + 1
      · have hlast : bs.getLast? = some (bs.getD k 0) := by
          rw [List.getLast?_eq_getElem?, hlen, Nat.add_sub_cancel, List.getElem?_eq_getElem (by omega),
            List.getD_eq_getElem _ _ (by omega)]
        simp [hlen, hlast]
      · have hle := hshort bs (by simp)
        rw [List.getD_eq_default _ _ (by omega), ih fun w hw => hshort w (by simp [hw])]
        simp [hlen]

-- A last string that lacks a byte of the text needs an earlier one that ends with it.
theorem spells_cut_iff {writes : List Bytes} {bs : Bytes} {b : UInt8}
    (hplain : ∀ w ∈ writes ++ [bs ++ [b]], 0 ∉ w) :
    Spells (writes ++ [bs]) (bs ++ [b]) ↔ (∀ w ∈ writes, w.length ≤ bs.length + 1) ∧
      ∃ w ∈ (writes.filter (·.length = bs.length + 1)).getLast?, w.getLast? = some b := by
  have hlen : (bs ++ [b]).length = bs.length + 1 := by simp
  have hwrites : ∀ w ∈ writes ++ [bs], 0 ∉ w := by
    intro w hw
    rcases List.mem_append.mp hw with hw | hw
    · exact hplain w (List.mem_append_left _ hw)
    · obtain rfl := List.mem_singleton.mp hw
      exact fun h => hplain (w ++ [b]) (by simp) (List.mem_append_left _ h)
  have hb : b ≠ 0 := fun h => hplain (bs ++ [b]) (by simp) (by simp [h])
  have hbelow : ∀ i < bs.length, layered (writes ++ [bs]) i = (bs ++ [b]).getD i 0 := by
    intro i hi
    rw [layered_append, List.getD_append _ _ _ _ hi, List.getD_eq_getElem _ _ hi,
      List.getD_eq_getElem _ _ hi]
  have htop : layered (writes ++ [bs]) bs.length = layered writes bs.length := by
    rw [layered_append, List.getD_eq_default _ _ le_rfl]
  have hget : (bs ++ [b]).getD bs.length 0 = b := by simp
  have hend : (bs ++ [b]).getD (bs.length + 1) 0 = 0 := List.getD_eq_default _ _ (by simp)
  have hbehind : layered (writes ++ [bs]) (bs.length + 1) = 0 ↔ ∀ w ∈ writes, w.length ≤ bs.length + 1 := by
    rw [layered_eq_zero_iff hwrites]
    constructor
    · exact fun h w hw => h w (List.mem_append_left _ hw)
    · intro h w hw
      rcases List.mem_append.mp hw with hw | hw
      · exact h w hw
      · obtain rfl := List.mem_singleton.mp hw
        exact Nat.le_succ _
  have hsplit : Spells (writes ++ [bs]) (bs ++ [b]) ↔
      layered writes bs.length = b ∧ ∀ w ∈ writes, w.length ≤ bs.length + 1 := by
    rw [Spells, hlen]
    constructor
    · rintro ⟨-, h⟩
      have hlast := h bs.length (Nat.le_succ _)
      have hzero := h (bs.length + 1) le_rfl
      rw [htop, hget] at hlast
      rw [hend, hbehind] at hzero
      exact ⟨hlast, hzero⟩
    · rintro ⟨hlast, hzero⟩
      refine ⟨hplain _ (by simp), fun i hi => ?_⟩
      rcases Nat.lt_trichotomy i bs.length with hlt | rfl | hgt
      · exact hbelow i hlt
      · rw [htop, hget, hlast]
      · obtain rfl : i = bs.length + 1 := by omega
        rw [hend, hbehind]
        exact hzero
  rw [hsplit, and_comm]
  refine and_congr_right fun hshort => ?_
  rw [layered_top hshort]
  generalize (writes.filter (·.length = bs.length + 1)).getLast? = twin
  cases twin with
  | none => simp [Ne.symm hb]
  | some w =>
      cases hw : w.getLast? with
      | none => simp [hw, Ne.symm hb]
      | some c => simp [hw]

end Layers

end CBytes
