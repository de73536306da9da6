import Mathlib.Data.Int.ModEq
import Mathlib.Data.List.Induction
import Mathlib.Tactic.Ring
import Mathlib.Tactic.Linarith

namespace CBytes

abbrev Bytes := List UInt8

-- A signed `char` read as an `int`.
def charInt (b : UInt8) : Int := if b.toNat < 128 then b.toNat else b.toNat - 256

-- 32-bit two's-complement wrap-around.
def wrap32 (x : Int) : Int := Int.bmod x (2 ^ 32)

section SignedBase

-- The value of a byte string in base 256 with signed digits, most significant first.
def signedValue (bs : Bytes) : Int := bs.foldl (fun v b => v * 256 + charInt b) 0

theorem charInt_modEq_iff (a b : UInt8) : charInt a ≡ charInt b [ZMOD 256] ↔ a = b := by
  constructor
  · intro h
    have ha := a.toNat_lt
    have hb := b.toNat_lt
    apply UInt8.toNat_inj.mp
    unfold charInt Int.ModEq at h
    split_ifs at h <;> omega
  · rintro rfl
    exact Int.ModEq.refl _

theorem foldl_signed (v : Int) (bs : Bytes) :
    bs.foldl (fun v b => v * 256 + charInt b) v = v * 256 ^ bs.length + signedValue bs := by
  induction bs generalizing v with
  | nil => simp [signedValue]
  | cons b bs ih =>
      simp only [signedValue, List.foldl_cons, List.length_cons]
      rw [ih, ih (0 * 256 + charInt b)]
      ring

theorem signedValue_append (xs ys : Bytes) :
    signedValue (xs ++ ys) = signedValue xs * 256 ^ ys.length + signedValue ys := by
  rw [signedValue, List.foldl_append, foldl_signed]
  rfl

theorem signedValue_zeros (n : Nat) : signedValue (List.replicate n 0) = 0 := by
  induction n with
  | zero => rfl
  | succ n ih =>
      rw [List.replicate_succ', signedValue_append, ih]
      rfl

-- Balanced digits are unique: strings of one length with congruent values are equal.
theorem signedValue_injective {xs ys : Bytes} (hlen : xs.length = ys.length)
    (h : signedValue xs ≡ signedValue ys [ZMOD 256 ^ xs.length]) : xs = ys := by
  induction xs using List.reverseRecOn generalizing ys with
  | nil => exact (List.length_eq_zero_iff.mp hlen.symm).symm
  | append_singleton xs x ih =>
      rcases List.eq_nil_or_concat ys with rfl | ⟨init, y, rfl⟩
      · simp at hlen
      rw [List.concat_eq_append] at hlen h ⊢
      have hl : xs.length = init.length := by simpa using hlen
      rw [signedValue_append, signedValue_append] at h
      simp only [List.length_append, List.length_singleton, pow_succ, pow_zero, one_mul] at h
      have hx : signedValue [x] = charInt x := by simp [signedValue]
      have hy : signedValue [y] = charInt y := by simp [signedValue]
      rw [hx, hy] at h
      have hlast : x = y := by
        apply (charInt_modEq_iff x y).mp
        have hm := h.of_mul_left (256 ^ xs.length)
        have hz : ∀ v c : Int, v * 256 + c ≡ c [ZMOD 256] := by
          intro v c
          exact (Int.modEq_iff_dvd.mpr ⟨-v, by ring⟩)
        exact ((hz _ _).symm.trans hm).trans (hz _ _)
      subst y
      have hcancel := Int.ModEq.add_right_cancel' (charInt x) h
      rw [mul_comm _ (256 : Int), mul_comm _ (256 : Int), mul_comm _ (256 : Int)] at hcancel
      rw [ih hl (Int.ModEq.mul_left_cancel' (by norm_num) hcancel)]

-- The last `k` bytes, with zero bytes in front of a shorter string.
def lastPadded (k : Nat) (bs : Bytes) : Bytes := (List.replicate k 0 ++ bs).drop bs.length

@[simp] theorem lastPadded_length (k : Nat) (bs : Bytes) : (lastPadded k bs).length = k := by
  simp [lastPadded]

theorem signedValue_modEq_lastPadded (k : Nat) (bs : Bytes) :
    signedValue bs ≡ signedValue (lastPadded k bs) [ZMOD 256 ^ k] := by
  have hsplit := List.take_append_drop bs.length (List.replicate k 0 ++ bs)
  have hvalue := signedValue_append (List.replicate k 0) bs
  rw [signedValue_zeros, zero_mul, zero_add, ← hsplit, signedValue_append] at hvalue
  change _ * 256 ^ (lastPadded k bs).length + signedValue (lastPadded k bs) = _ at hvalue
  rw [lastPadded_length] at hvalue
  rw [← hvalue]
  exact Int.modEq_iff_dvd.mpr ⟨-signedValue ((List.replicate k 0 ++ bs).take bs.length), by ring⟩

theorem wrap32_eq_iff (x y : Int) : wrap32 x = wrap32 y ↔ x ≡ y [ZMOD 2 ^ 32] := by
  unfold wrap32 Int.ModEq
  constructor
  · intro h
    have hx := @Int.bmod_emod x (2 ^ 32)
    have hy := @Int.bmod_emod y (2 ^ 32)
    rw [h] at hx
    exact_mod_cast hx.symm.trans hy
  · intro h
    have hx := @Int.emod_bmod x (2 ^ 32)
    have hy := @Int.emod_bmod y (2 ^ 32)
    rw [← hx, ← hy]
    exact_mod_cast congrArg (fun z => Int.bmod z (2 ^ 32)) h

theorem wrap32_modEq (x : Int) : wrap32 x ≡ x [ZMOD 2 ^ 32] :=
  (wrap32_eq_iff _ _).mp (by simp [wrap32])

end SignedBase

end CBytes
