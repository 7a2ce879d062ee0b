import Mathlib.Data.Nat.Bitwise
import Mathlib.Tactic

/-!
# Bytes and machine words

Both codecs move bits between bytes (`BitVec 8`) and machine words (`BitVec 16`,
`BitVec 32`, `BitVec 64`) with shifts, masks and ORs. The proofs reason about the
numbers these words denote, so every packing helper gets one `toNat` lemma here and the
rest of the development is linear arithmetic on those numbers:

> `shiftLeft_or_eq_add`: an OR of a shifted word with a word that fits below the shift is
> the sum of the two.

> `and_two_pow_sub_two_pow`: masking with the bits `[k, n)` keeps the field
> `x / 2^k % 2^(n-k)` in place.

The little-endian loads and stores model the host's memory layout where the source copies
bytes into an `unsigned int` (`*pPtr++ = *inPtr++`) or reinterprets two bytes as a `half`.
-/

namespace ExrCodecs

/-- An OR with a value that fits below the shift amount is an addition. -/
theorem shiftLeft_or_eq_add {a b k : Nat} (hb : b < 2 ^ k) : a <<< k ||| b = a * 2 ^ k + b := by
  apply Nat.eq_of_testBit_eq
  intro i
  rw [Nat.testBit_or, Nat.testBit_shiftLeft, Nat.mul_comm, Nat.testBit_mul_pow_two_add a hb]
  by_cases hi : i < k
  · have : ¬ i ≥ k := by omega
    simp [hi, this]
  · have hbi : b.testBit i = false :=
      Nat.testBit_lt_two_pow (Nat.lt_of_lt_of_le hb (Nat.pow_le_pow_right (by omega) (by omega)))
    simp [hi, hbi, show i ≥ k by omega]

/-- Masking with the bits `[k, n)` keeps that field of `x` in place. -/
theorem and_two_pow_sub_two_pow (x k n : Nat) (h : k ≤ n) :
    x &&& (2 ^ n - 2 ^ k) = x / 2 ^ k % 2 ^ (n - k) * 2 ^ k := by
  have hmask : 2 ^ n - 2 ^ k = (2 ^ (n - k) - 1) <<< k := by
    rw [Nat.shiftLeft_eq, Nat.sub_mul, Nat.one_mul, ← Nat.pow_add, Nat.sub_add_cancel h]
  have hfield : x / 2 ^ k % 2 ^ (n - k) * 2 ^ k = (x >>> k % 2 ^ (n - k)) <<< k := by
    rw [Nat.shiftLeft_eq, Nat.shiftRight_eq_div_pow]
  rw [hmask, hfield]
  apply Nat.eq_of_testBit_eq
  intro i
  simp only [Nat.testBit_and, Nat.testBit_shiftLeft, Nat.testBit_two_pow_sub_one,
    Nat.testBit_mod_two_pow, Nat.testBit_shiftRight]
  by_cases hi : k ≤ i
  · have hk : k + (i - k) = i := by omega
    simp [hi, hk, Bool.and_comm]
  · simp [show ¬ i ≥ k by omega]

/-- The `BitVec` form of `shiftLeft_or_eq_add`: an OR of a word whose low `k` bits are zero
with a word below `2^k` denotes the sum. -/
theorem toNat_or_of_lt {w k : Nat} {x y : BitVec w} (hx : x.toNat % 2 ^ k = 0)
    (hy : y.toNat < 2 ^ k) : (x ||| y).toNat = x.toNat + y.toNat := by
  have hsplit : x.toNat = (x.toNat / 2 ^ k) <<< k := by
    rw [Nat.shiftLeft_eq]
    exact (Nat.div_mul_cancel (Nat.dvd_of_mod_eq_zero hx)).symm
  rw [BitVec.toNat_or, hsplit, shiftLeft_or_eq_add hy, ← Nat.shiftLeft_eq, ← hsplit]

/-! ## Little-endian loads and stores -/

/-- The `unsigned int` a little-endian host holds in four consecutive bytes. -/
def loadLE32 (b0 b1 b2 b3 : BitVec 8) : BitVec 32 := b3 ++ b2 ++ b1 ++ b0

/-- The four bytes a little-endian host stores for an `unsigned int`. -/
def storeLE32 (x : BitVec 32) : List (BitVec 8) :=
  [x.setWidth 8, (x >>> 8).setWidth 8, (x >>> 16).setWidth 8, (x >>> 24).setWidth 8]

/-- The 16 bits a little-endian host holds in two consecutive bytes. -/
def loadLE16 (b0 b1 : BitVec 8) : BitVec 16 := b1 ++ b0

/-- The two bytes a little-endian host stores for 16 bits. -/
def storeLE16 (x : BitVec 16) : List (BitVec 8) := [x.setWidth 8, (x >>> 8).setWidth 8]

@[simp] theorem storeLE32_length (x : BitVec 32) : (storeLE32 x).length = 4 := rfl

@[simp] theorem storeLE16_length (x : BitVec 16) : (storeLE16 x).length = 2 := rfl

theorem loadLE32_toNat (b0 b1 b2 b3 : BitVec 8) :
    (loadLE32 b0 b1 b2 b3).toNat
      = b0.toNat + 2 ^ 8 * b1.toNat + 2 ^ 16 * b2.toNat + 2 ^ 24 * b3.toNat := by
  have h0 := b0.isLt; have h1 := b1.isLt; have h2 := b2.isLt
  simp only [loadLE32, BitVec.toNat_append]
  rw [shiftLeft_or_eq_add h2, shiftLeft_or_eq_add (by omega), shiftLeft_or_eq_add (by omega)]
  omega

theorem loadLE16_toNat (b0 b1 : BitVec 8) :
    (loadLE16 b0 b1).toNat = b0.toNat + 2 ^ 8 * b1.toNat := by
  simp only [loadLE16, BitVec.toNat_append]
  rw [shiftLeft_or_eq_add b0.isLt]
  omega

/-- Storing the word a little-endian load produced gives the bytes back. -/
theorem storeLE32_loadLE32 (b0 b1 b2 b3 : BitVec 8) :
    storeLE32 (loadLE32 b0 b1 b2 b3) = [b0, b1, b2, b3] := by
  have h := loadLE32_toNat b0 b1 b2 b3
  have h0 := b0.isLt; have h1 := b1.isLt; have h2 := b2.isLt; have h3 := b3.isLt
  simp only [storeLE32, List.cons.injEq, and_true]
  refine ⟨?_, ?_, ?_, ?_⟩ <;> apply BitVec.eq_of_toNat_eq <;>
    simp only [BitVec.toNat_setWidth, BitVec.toNat_ushiftRight, Nat.shiftRight_eq_div_pow, h] <;>
    omega

theorem storeLE16_loadLE16 (b0 b1 : BitVec 8) : storeLE16 (loadLE16 b0 b1) = [b0, b1] := by
  have h := loadLE16_toNat b0 b1
  have h0 := b0.isLt; have h1 := b1.isLt
  simp only [storeLE16, List.cons.injEq, and_true]
  refine ⟨?_, ?_⟩ <;> apply BitVec.eq_of_toNat_eq <;>
    simp only [BitVec.toNat_setWidth, BitVec.toNat_ushiftRight, Nat.shiftRight_eq_div_pow, h] <;>
    omega

/-- Loading the bytes of a stored word gives the word back. -/
theorem loadLE32_storeLE32 (x : BitVec 32) :
    loadLE32 (x.setWidth 8) ((x >>> 8).setWidth 8) ((x >>> 16).setWidth 8) ((x >>> 24).setWidth 8)
      = x := by
  have hx := x.isLt
  apply BitVec.eq_of_toNat_eq
  rw [loadLE32_toNat]
  simp only [BitVec.toNat_setWidth, BitVec.toNat_ushiftRight, Nat.shiftRight_eq_div_pow]
  omega

theorem loadLE16_storeLE16 (x : BitVec 16) :
    loadLE16 (x.setWidth 8) ((x >>> 8).setWidth 8) = x := by
  have hx := x.isLt
  apply BitVec.eq_of_toNat_eq
  rw [loadLE16_toNat]
  simp only [BitVec.toNat_setWidth, BitVec.toNat_ushiftRight, Nat.shiftRight_eq_div_pow]
  omega

end ExrCodecs
