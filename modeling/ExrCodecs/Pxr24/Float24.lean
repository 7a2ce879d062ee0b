import ExrCodecs.Word

/-!
# `floatToFloat24`: the lossy step of the Pxr24 compressor

`floatToFloat24` (`ImfPxr24Compressor.cpp`) maps the bit pattern of a 32-bit float to a
24-bit pattern: the sign, the 8-bit exponent and the significand rounded to 15 bits.
Decoding is a left shift by 8. This file gives the function one arithmetic spec lemma,
`floatToFloat24_toNat`, and derives from it everything the codec proofs use:

> `floatToFloat24_lt`: the result fits in 24 bits, so the three byte planes of a FLOAT
> channel hold it exactly.

> `floatToFloat24_shiftLeft`: a pattern whose low 8 bits are already zero is a fixed point
> (`floatToFloat24 (x <<< 8) = x`), so a decoded image re-encodes to the same bytes.

> `float24_preserves`: the decoded float `floatToFloat24 f <<< 8` keeps the sign of `f`,
> is a NaN exactly when `f` is, and is infinite exactly when `f` is.

Floats are modelled by their bit patterns (the source reads them through a union), so no
floating-point arithmetic is involved.
-/

namespace ExrCodecs.Pxr24

/-- Conversion from 32-bit to 24-bit floating-point numbers, on bit patterns. The NaN
branch keeps at least one significand bit so that a NaN does not turn into an infinity;
the finite branch rounds the significand to 15 bits and truncates instead when rounding
would overflow into the exponent. -/
def floatToFloat24 (f : BitVec 32) : BitVec 32 :=
  let s := f &&& 0x80000000
  let e := f &&& 0x7f800000
  let m := f &&& 0x007fffff
  let i :=
    if e = 0x7f800000 then
      if m ≠ 0 then
        let m := m >>> 8
        (e >>> 8) ||| m ||| (if m = 0 then 1 else 0)
      else
        e >>> 8
    else
      let i := ((e ||| m) + (m &&& 0x00000080)) >>> 8
      if i ≥ 0x7f8000 then (e ||| m) >>> 8 else i
  (s >>> 8) ||| i

/-! ## IEEE-754 binary32 fields -/

/-- The sign bit of a binary32 pattern. -/
def signBit (x : BitVec 32) : Nat := x.toNat / 2 ^ 31

/-- The biased exponent field (bits 30..23). -/
def exponentField (x : BitVec 32) : Nat := x.toNat / 2 ^ 23 % 2 ^ 8

/-- The significand field (bits 22..0). -/
def significandField (x : BitVec 32) : Nat := x.toNat % 2 ^ 23

/-- A NaN: all-ones exponent, nonzero significand. -/
def isNaN (x : BitVec 32) : Bool := exponentField x == 255 && significandField x != 0

/-- An infinity: all-ones exponent, zero significand. -/
def isInf (x : BitVec 32) : Bool := exponentField x == 255 && significandField x == 0

/-! ## The arithmetic of `floatToFloat24` -/

private theorem toNat_and_lit (f c : BitVec 32) (k n : Nat) (h : k ≤ n)
    (hc : c.toNat = 2 ^ n - 2 ^ k) :
    (f &&& c).toNat = f.toNat / 2 ^ k % 2 ^ (n - k) * 2 ^ k := by
  rw [BitVec.toNat_and, hc, and_two_pow_sub_two_pow _ _ _ h]

/-- `floatToFloat24` on the number a pattern denotes: sign, then the NaN, infinity and
finite cases of the source, with `F % 2^31` the exponent and significand together. -/
theorem floatToFloat24_toNat (f : BitVec 32) :
    (floatToFloat24 f).toNat = f.toNat / 2 ^ 31 * 2 ^ 23 +
      (if f.toNat / 2 ^ 23 % 2 ^ 8 = 255 then
        (if f.toNat % 2 ^ 23 = 0 then 0x7f8000
         else if f.toNat % 2 ^ 23 / 2 ^ 8 = 0 then 0x7f8000 + 1
         else 0x7f8000 + f.toNat % 2 ^ 23 / 2 ^ 8)
      else if (f.toNat % 2 ^ 31 + f.toNat / 2 ^ 7 % 2 * 2 ^ 7) / 2 ^ 8 ≥ 0x7f8000 then
        f.toNat % 2 ^ 31 / 2 ^ 8
      else (f.toNat % 2 ^ 31 + f.toNat / 2 ^ 7 % 2 * 2 ^ 7) / 2 ^ 8) := by
  have hF := f.isLt
  have hs : (f &&& 0x80000000).toNat = f.toNat / 2 ^ 31 * 2 ^ 31 := by
    rw [toNat_and_lit f _ 31 32 (by omega) (by decide)]; omega
  have he : (f &&& 0x7f800000).toNat = f.toNat / 2 ^ 23 % 2 ^ 8 * 2 ^ 23 :=
    toNat_and_lit f _ 23 31 (by omega) (by decide)
  have hm : (f &&& 0x007fffff).toNat = f.toNat % 2 ^ 23 := by
    rw [BitVec.toNat_and, show (0x007fffff : BitVec 32).toNat = 2 ^ 23 - 1 by decide,
      Nat.and_pow_two_sub_one_eq_mod]
  have hr : (f &&& 0x007fffff &&& 0x00000080).toNat = f.toNat / 2 ^ 7 % 2 * 2 ^ 7 := by
    rw [toNat_and_lit _ _ 7 8 (by omega) (by decide), hm]; omega
  have hem : (f &&& 0x7f800000 ||| f &&& 0x007fffff).toNat = f.toNat % 2 ^ 31 := by
    rw [toNat_or_of_lt (k := 23) (by rw [he]; omega) (by rw [hm]; omega), he, hm]; omega
  have hsign : ∀ i : BitVec 32, i.toNat < 2 ^ 23 →
      ((f &&& 0x80000000) >>> 8 ||| i).toNat = f.toNat / 2 ^ 31 * 2 ^ 23 + i.toNat := by
    intro i hi
    have h8 : ((f &&& 0x80000000) >>> 8).toNat = f.toNat / 2 ^ 31 * 2 ^ 23 := by
      rw [BitVec.toNat_ushiftRight, hs, Nat.shiftRight_eq_div_pow]; omega
    have h8z : ((f &&& 0x80000000) >>> 8).toNat % 2 ^ 23 = 0 := by rw [h8]; omega
    rw [toNat_or_of_lt h8z hi, h8]
  have hexp : (f &&& 0x7f800000 = 0x7f800000) ↔ f.toNat / 2 ^ 23 % 2 ^ 8 = 255 := by
    rw [BitVec.toNat_eq, he, show (0x7f800000 : BitVec 32).toNat = 2139095040 from rfl]; omega
  have hsig : (f &&& 0x007fffff ≠ 0) ↔ f.toNat % 2 ^ 23 ≠ 0 := by
    rw [Ne, BitVec.toNat_eq, hm]; simp
  unfold floatToFloat24
  simp only []
  by_cases hE : f.toNat / 2 ^ 23 % 2 ^ 8 = 255
  · rw [if_pos (hexp.2 hE), if_pos hE]
    by_cases hM : f.toNat % 2 ^ 23 = 0
    · have he8 : ((f &&& 0x7f800000) >>> 8).toNat = 0x7f8000 := by
        rw [BitVec.toNat_ushiftRight, he, Nat.shiftRight_eq_div_pow]; omega
      rw [if_neg (fun h => hsig.1 h hM), if_pos hM, hsign _ (by rw [he8]; omega), he8]
    · rw [if_pos (hsig.2 hM), if_neg hM]
      have hm8 : ((f &&& 0x007fffff) >>> 8).toNat = f.toNat % 2 ^ 23 / 2 ^ 8 := by
        rw [BitVec.toNat_ushiftRight, hm, Nat.shiftRight_eq_div_pow]
      have he8 : ((f &&& 0x7f800000) >>> 8).toNat = 0x7f8000 := by
        rw [BitVec.toNat_ushiftRight, he, Nat.shiftRight_eq_div_pow]; omega
      have hor : ((f &&& 0x7f800000) >>> 8 ||| (f &&& 0x007fffff) >>> 8).toNat
          = 0x7f8000 + f.toNat % 2 ^ 23 / 2 ^ 8 := by
        rw [toNat_or_of_lt (k := 15) (by rw [he8]; decide) (by rw [hm8]; omega), he8, hm8]
      by_cases hM8 : f.toNat % 2 ^ 23 / 2 ^ 8 = 0
      · have hz : (f &&& 0x007fffff) >>> 8 = 0 := by
          rw [BitVec.toNat_eq, hm8, hM8]; rfl
        have hor1 : ((f &&& 0x7f800000) >>> 8 ||| (f &&& 0x007fffff) >>> 8 |||
            (1 : BitVec 32)).toNat = 0x7f8000 + 1 := by
          rw [toNat_or_of_lt (k := 1) (by rw [hor]; omega) (by decide), hor,
            show (1 : BitVec 32).toNat = 1 from rfl]; omega
        rw [if_pos hz, if_pos hM8, hsign _ (by rw [hor1]; omega), hor1]
      · have hz : ¬ (f &&& 0x007fffff) >>> 8 = 0 := by
          rw [BitVec.toNat_eq, hm8]; simpa using hM8
        have hor0 : ((f &&& 0x7f800000) >>> 8 ||| (f &&& 0x007fffff) >>> 8 |||
            (0 : BitVec 32)).toNat = 0x7f8000 + f.toNat % 2 ^ 23 / 2 ^ 8 := by
          rw [toNat_or_of_lt (k := 0) (by omega) (by decide), hor,
            show (0 : BitVec 32).toNat = 0 from rfl, Nat.add_zero]
        rw [if_neg hz, if_neg hM8, hsign _ (by rw [hor0]; omega), hor0]
  · rw [if_neg (fun h => hE (hexp.1 h)), if_neg hE]
    have hsum : ((f &&& 0x7f800000 ||| f &&& 0x007fffff) + (f &&& 0x007fffff &&& 0x00000080)).toNat
        = f.toNat % 2 ^ 31 + f.toNat / 2 ^ 7 % 2 * 2 ^ 7 := by
      rw [BitVec.toNat_add, hem, hr]; omega
    have hround : (((f &&& 0x7f800000 ||| f &&& 0x007fffff) + (f &&& 0x007fffff &&& 0x00000080))
        >>> 8).toNat = (f.toNat % 2 ^ 31 + f.toNat / 2 ^ 7 % 2 * 2 ^ 7) / 2 ^ 8 := by
      rw [BitVec.toNat_ushiftRight, hsum, Nat.shiftRight_eq_div_pow]
    have htrunc : ((f &&& 0x7f800000 ||| f &&& 0x007fffff) >>> 8).toNat
        = f.toNat % 2 ^ 31 / 2 ^ 8 := by
      rw [BitVec.toNat_ushiftRight, hem, Nat.shiftRight_eq_div_pow]
    by_cases hO : (f.toNat % 2 ^ 31 + f.toNat / 2 ^ 7 % 2 * 2 ^ 7) / 2 ^ 8 ≥ 0x7f8000
    · rw [if_pos (by rw [ge_iff_le, BitVec.le_def, hround]; exact hO), if_pos hO,
        hsign _ (by rw [htrunc]; omega), htrunc]
    · rw [if_neg (by rw [ge_iff_le, BitVec.le_def, hround]; exact hO), if_neg hO,
        hsign _ (by rw [hround]; omega), hround]

/-- The 24-bit pattern fits in the three byte planes of a FLOAT channel. -/
theorem floatToFloat24_lt (f : BitVec 32) : (floatToFloat24 f).toNat < 2 ^ 24 := by
  have hF := f.isLt
  rw [floatToFloat24_toNat]
  split_ifs <;> omega

/-- A pattern whose low 8 bits are already zero converts back to itself: decoding a
float24 and encoding it again is the identity. -/
theorem floatToFloat24_shiftLeft (x : BitVec 32) (hx : x.toNat < 2 ^ 24) :
    floatToFloat24 (x <<< 8) = x := by
  have hshift : (x <<< 8).toNat = x.toNat * 2 ^ 8 := by
    rw [BitVec.toNat_shiftLeft, Nat.shiftLeft_eq]; omega
  apply BitVec.eq_of_toNat_eq
  rw [floatToFloat24_toNat, hshift]
  split_ifs <;> omega

/-- What the decoder makes of a FLOAT sample: the float24 pattern shifted back into place.
It has zero low bits, the sign of `f`, and is a NaN (an infinity) exactly when `f` is. -/
theorem float24_preserves (f : BitVec 32) :
    (floatToFloat24 f <<< 8).toNat % 2 ^ 8 = 0 ∧
      signBit (floatToFloat24 f <<< 8) = signBit f ∧
      isNaN (floatToFloat24 f <<< 8) = isNaN f ∧ isInf (floatToFloat24 f <<< 8) = isInf f := by
  have hF := f.isLt
  have hlt := floatToFloat24_lt f
  have hshift : (floatToFloat24 f <<< 8).toNat = (floatToFloat24 f).toNat * 2 ^ 8 := by
    rw [BitVec.toNat_shiftLeft, Nat.shiftLeft_eq]; omega
  simp only [signBit, isNaN, isInf, exponentField, significandField, hshift]
  rw [floatToFloat24_toNat]
  refine ⟨by omega, by split_ifs <;> omega, ?_, ?_⟩ <;>
    rw [Bool.eq_iff_iff] <;> simp only [Bool.and_eq_true, beq_iff_eq, bne_iff_ne, ne_eq] <;>
    split_ifs <;> omega

end ExrCodecs.Pxr24
