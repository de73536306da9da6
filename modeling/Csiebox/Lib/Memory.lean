import Csiebox.Lib.Bytes
import Mathlib.Data.List.TakeWhile

namespace CBytes

-- `width` bytes of a number, least significant first.
def leBytes : Nat → Nat → Bytes
  | 0, _ => []
  | width + 1, v => UInt8.ofNat v :: leBytes width (v / 256)

def leNat : Bytes → Nat
  | [] => 0
  | b :: bs => b.toNat + 256 * leNat bs

-- A number read as a signed one of `bits` bits.
def signed (bits v : Nat) : Int := Int.bmod v (2 ^ bits)

def slice (off len : Nat) (bs : Bytes) : Bytes := (bs.drop off).take len

-- What a buffer holds after `got` is written to its start.
def overlay (buf got : Bytes) : Bytes := got ++ buf.drop got.length

-- The string a pointer to these bytes denotes.
def cString (bs : Bytes) : Bytes := bs.takeWhile (· ≠ 0)

def zeros (n : Nat) : Bytes := List.replicate n 0

@[simp] theorem leBytes_length (width v : Nat) : (leBytes width v).length = width := by
  induction width generalizing v with
  | zero => rfl
  | succ width ih => simp [leBytes, ih]

theorem leNat_leBytes (width v : Nat) : leNat (leBytes width v) = v % 256 ^ width := by
  induction width generalizing v with
  | zero => simp [leBytes, leNat, Nat.mod_one]
  | succ width ih =>
      have hb : (UInt8.ofNat v).toNat = v % 256 := rfl
      rw [leBytes, leNat, ih, hb, Nat.pow_succ', Nat.mod_mul]

theorem leNat_lt (bs : Bytes) : leNat bs < 256 ^ bs.length := by
  induction bs with
  | nil => simp [leNat]
  | cons b bs ih =>
      have hb := b.toNat_lt
      simp only [leNat, List.length_cons, Nat.pow_succ']
      omega

theorem leBytes_leNat (bs : Bytes) : leBytes bs.length (leNat bs) = bs := by
  induction bs with
  | nil => rfl
  | cons b bs ih =>
      have hb := b.toNat_lt
      have hquot : (b.toNat + 256 * leNat bs) / 256 = leNat bs := by omega
      have hbyte : UInt8.ofNat (b.toNat + 256 * leNat bs) = b := by
        apply UInt8.toNat_inj.mp
        rw [UInt8.toNat_ofNat']
        omega
      rw [List.length_cons, leBytes, leNat, hquot, ih, hbyte]

@[simp] theorem zeros_length (n : Nat) : (zeros n).length = n := List.length_replicate

@[simp] theorem slice_zero_append (xs ys : Bytes) : slice 0 xs.length (xs ++ ys) = xs := by
  simp [slice]

-- Reading a field that lies behind `xs`.
theorem slice_append_right {off len : Nat} {xs ys : Bytes} (h : xs.length ≤ off) :
    slice off len (xs ++ ys) = slice (off - xs.length) len ys := by
  rw [slice, slice, List.drop_append, List.drop_eq_nil_of_le h, List.nil_append]

theorem slice_append_left {off len : Nat} {xs ys : Bytes} (h : off + len ≤ xs.length) :
    slice off len (xs ++ ys) = slice off len xs := by
  rw [slice, slice, List.drop_append_of_le_length (by omega),
    List.take_append_of_le_length (by rw [List.length_drop]; omega)]

@[simp] theorem slice_full (bs : Bytes) : slice 0 bs.length bs = bs := by simp [slice]

theorem overlay_length {buf got : Bytes} (h : got.length ≤ buf.length) :
    (overlay buf got).length = buf.length := by
  simp only [overlay, List.length_append, List.length_drop]
  omega

theorem overlay_full {buf got : Bytes} (h : got.length = buf.length) : overlay buf got = got := by
  rw [overlay, h, List.drop_length, List.append_nil]

@[simp] theorem overlay_nil (buf : Bytes) : overlay buf [] = buf := by simp [overlay]

theorem cString_append_zero {bs : Bytes} (h : ∀ b ∈ bs, b ≠ 0) (rest : Bytes) :
    cString (bs ++ 0 :: rest) = bs := by
  induction bs with
  | nil => rfl
  | cons b bs ih =>
      have hb : b ≠ 0 := h b (List.mem_cons_self ..)
      simp only [cString, List.cons_append] at ih ⊢
      rw [List.takeWhile_cons_of_pos (by simpa using hb), ih fun c hc => h c (List.mem_cons_of_mem _ hc)]

theorem cString_append_zeros (bs : Bytes) (n : Nat) : cString (bs ++ zeros n) = cString bs := by
  induction bs with
  | nil => cases n <;> simp [cString, zeros, List.replicate_succ]
  | cons b bs ih =>
      simp only [cString, List.cons_append, List.takeWhile_cons] at ih ⊢
      rw [ih]

-- A string read into a zeroed buffer.
theorem cString_overlay (bs : Bytes) (n : Nat) : cString (overlay (zeros n) bs) = cString bs := by
  rw [overlay, zeros, List.drop_replicate]
  exact cString_append_zeros bs _

theorem cString_eq_self {bs : Bytes} (h : ∀ b ∈ bs, b ≠ 0) : cString bs = bs :=
  List.takeWhile_eq_self_iff.mpr (by simpa using h)

theorem cString_eq_nil_iff {bs : Bytes} : cString bs = [] ↔ bs.headD 0 = 0 := by
  cases bs with
  | nil => exact iff_of_true rfl rfl
  | cons b bs => simp [cString, List.takeWhile_cons]

theorem cString_nonzero {bs : Bytes} : ∀ b ∈ cString bs, b ≠ 0 := by
  intro b hb
  simpa using List.mem_takeWhile_imp hb

-- The string ends with `bs` exactly where a NUL stands behind it.
theorem cString_append_eq_iff {bs rest : Bytes} (h : ∀ b ∈ bs, b ≠ 0) :
    cString (bs ++ rest) = bs ↔ ∀ b ∈ rest.head?, b = 0 := by
  cases rest with
  | nil => simp [cString_eq_self h]
  | cons b rest =>
      by_cases hb : b = 0
      · subst hb
        simp [cString_append_zero h]
      · have hgrows : (cString (bs ++ b :: rest)).length ≠ bs.length := by
          rw [cString, List.takeWhile_append_of_pos (by simpa using h),
            List.takeWhile_cons_of_pos (by simpa using hb),
            List.length_append, List.length_cons]
          omega
        constructor
        · intro heq
          exact absurd (congrArg List.length heq) hgrows
        · intro hzero
          exact absurd (hzero b rfl) hb

end CBytes
