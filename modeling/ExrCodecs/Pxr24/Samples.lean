import ExrCodecs.Pxr24.Compressor

/-!
# Pxr24 per-sample arithmetic

The two sample loops of `Pxr24Compressor` meet in one number per sample: `compress`
scatters a difference `d` over the planes with `scatterByte`, and `uncompress` gathers the
planes back with `diffOf`. This file computes what survives the trip, type by type:

> `diffOf_scatter`: gathering the scattered bytes of `d` gives the low `t.width` bits of `d`
> (32, 16 or 24), moved up by `t.shift` (8 for a FLOAT, else 0).

> `scatter_diffOf`: conversely, scattering any number congruent to the gathered bytes
> modulo `2^t.width` gives those bytes back.

and what the pixel writes and reads do to an accumulated pixel (`store_eq_roundTripSample`,
`pixelOf_store_toNat`). The loops themselves are handled in `ExrCodecs.Pxr24.RoundTrip` and
`ExrCodecs.Pxr24.Uncompress`.
-/

namespace ExrCodecs.Pxr24

/-- Bits of a difference the byte planes keep: 32, 16 or 24. -/
def PixelType.width (t : PixelType) : Nat := 8 * t.planes

/-- Where `diffOf` puts the gathered bits: a FLOAT's sit above bit 8. -/
def PixelType.shift : PixelType → Nat
  | .FLOAT => 8
  | _ => 0

/-! ## Reads -/

/-- Reads that stay inside the buffer succeed with the buffer's bytes. -/
theorem readBytes_ok {buf : List (BitVec 8)} {m : Nat} {pos : Nat → Nat}
    (h : ∀ k < m, pos k < buf.length) : readBytes buf m pos = .ok fun k => buf.getD (pos k) 0 := by
  unfold readBytes
  rw [List.find?_eq_none.2 fun k hk => by
    have := h k (List.mem_range.1 hk)
    simpa using this]

/-- A failed read names an offset past the end of the buffer. -/
theorem readBytes_error {buf : List (BitVec 8)} {m : Nat} {pos : Nat → Nat} {e : Pxr24Error}
    (h : readBytes buf m pos = .error e) : ∃ k < m, buf.length ≤ pos k := by
  unfold readBytes at h
  split at h
  · next k hk =>
    exact ⟨k, List.mem_range.1 (List.mem_of_find?_eq_some hk), by simpa using List.find?_some hk⟩
  · cases h

/-! ## Gathering and scattering -/

private theorem toNat_widen_shiftLeft (a : BitVec 8) (k : Nat) (hk : k ≤ 24) :
    (widen a <<< k).toNat = a.toNat * 2 ^ k := by
  have ha := a.isLt
  have hlt : a.toNat * 2 ^ k < 2 ^ 32 :=
    calc a.toNat * 2 ^ k < 2 ^ 8 * 2 ^ k := Nat.mul_lt_mul_of_pos_right ha (Nat.two_pow_pos k)
      _ ≤ 2 ^ 8 * 2 ^ 24 := Nat.mul_le_mul_left _ (Nat.pow_le_pow_right (by omega) hk)
      _ = 2 ^ 32 := by norm_num
  have h8 : a.toNat % 2 ^ 32 = a.toNat := Nat.mod_eq_of_lt (by omega)
  rw [BitVec.toNat_shiftLeft, widen, BitVec.toNat_setWidth, Nat.shiftLeft_eq, h8,
    Nat.mod_eq_of_lt hlt]

private theorem toNat_widen (a : BitVec 8) : (widen a).toNat = a.toNat := by
  have ha := a.isLt
  rw [widen, BitVec.toNat_setWidth, Nat.mod_eq_of_lt (by omega)]

/-- The number `diffOf` forms: the plane bytes as big-endian digits, a FLOAT's shifted up
by 8. -/
theorem diffOf_toNat (t : PixelType) (p : Nat → BitVec 8) :
    (t.diffOf p).toNat = (match t with
      | .UINT => 2 ^ 24 * (p 0).toNat + 2 ^ 16 * (p 1).toNat + 2 ^ 8 * (p 2).toNat + (p 3).toNat
      | .HALF => 2 ^ 8 * (p 0).toNat + (p 1).toNat
      | .FLOAT => (2 ^ 16 * (p 0).toNat + 2 ^ 8 * (p 1).toNat + (p 2).toNat) * 2 ^ 8) := by
  have h0 := (p 0).isLt; have h1 := (p 1).isLt; have h2 := (p 2).isLt; have h3 := (p 3).isLt
  have w24 := toNat_widen_shiftLeft (p 0) 24 (by omega)
  have w16 := toNat_widen_shiftLeft (p 1) 16 (by omega)
  have w8 := toNat_widen_shiftLeft (p 2) 8 (by omega)
  cases t with
  | UINT =>
    have hab : (widen (p 0) <<< 24 ||| widen (p 1) <<< 16).toNat
        = (p 0).toNat * 2 ^ 24 + (p 1).toNat * 2 ^ 16 := by
      rw [toNat_or_of_lt (k := 24) (by rw [w24]; omega) (by rw [w16]; omega), w24, w16]
    have habc : (widen (p 0) <<< 24 ||| widen (p 1) <<< 16 ||| widen (p 2) <<< 8).toNat
        = (p 0).toNat * 2 ^ 24 + (p 1).toNat * 2 ^ 16 + (p 2).toNat * 2 ^ 8 := by
      rw [toNat_or_of_lt (k := 16) (by rw [hab]; omega) (by rw [w8]; omega), hab, w8]
    simp only [PixelType.diffOf]
    rw [toNat_or_of_lt (k := 8) (by rw [habc]; omega) (by rw [toNat_widen]; omega), habc,
      toNat_widen]
    omega
  | HALF =>
    have w8' := toNat_widen_shiftLeft (p 0) 8 (by omega)
    simp only [PixelType.diffOf]
    rw [toNat_or_of_lt (k := 8) (by rw [w8']; omega) (by rw [toNat_widen]; omega), w8',
      toNat_widen]
    omega
  | FLOAT =>
    have hab : (widen (p 0) <<< 24 ||| widen (p 1) <<< 16).toNat
        = (p 0).toNat * 2 ^ 24 + (p 1).toNat * 2 ^ 16 := by
      rw [toNat_or_of_lt (k := 24) (by rw [w24]; omega) (by rw [w16]; omega), w24, w16]
    simp only [PixelType.diffOf]
    rw [toNat_or_of_lt (k := 16) (by rw [hab]; omega) (by rw [w8]; omega), hab, w8]
    omega

private theorem scatterByte_toNat (t : PixelType) (k : Nat) (d : BitVec 32) :
    (scatterByte t k d).toNat = d.toNat / 2 ^ (8 * (t.planes - 1 - k)) % 2 ^ 8 := by
  rw [scatterByte, BitVec.toNat_setWidth, BitVec.toNat_ushiftRight, Nat.shiftRight_eq_div_pow]

/-- Gathering the scattered bytes of a difference keeps its low `t.width` bits, moved up by
`t.shift`. -/
theorem diffOf_scatter (t : PixelType) (d : BitVec 32) :
    (t.diffOf fun k => scatterByte t k d).toNat = d.toNat % 2 ^ t.width * 2 ^ t.shift := by
  have hd := d.isLt
  rw [diffOf_toNat]
  cases t <;> simp only [scatterByte_toNat, PixelType.planes, PixelType.width,
    PixelType.shift] <;> norm_num <;> omega

/-- Scattering any number that agrees with the gathered bytes below `t.width` gives the
bytes back. -/
theorem scatter_diffOf (t : PixelType) (p : Nat → BitVec 8) (x : BitVec 32)
    (hx : x.toNat % 2 ^ t.width = (t.diffOf p).toNat / 2 ^ t.shift) :
    ∀ k < t.planes, scatterByte t k x = p k := by
  have h0 := (p 0).isLt; have h1 := (p 1).isLt; have h2 := (p 2).isLt; have h3 := (p 3).isLt
  rw [diffOf_toNat] at hx
  intro k hk
  apply BitVec.eq_of_toNat_eq
  rw [scatterByte_toNat]
  cases t <;> simp only [PixelType.planes, PixelType.width, PixelType.shift] at hk hx ⊢ <;>
    norm_num at hx <;> interval_cases k <;> norm_num <;> omega

/-! ## Writing and reading pixels -/

/-- What the codec gives back for one sample with bytes `b`: a UINT or HALF sample
unchanged, a FLOAT with bits `f` as the four bytes of `floatToFloat24 f <<< 8`. -/
def roundTripSample : PixelType → (Nat → BitVec 8) → List (BitVec 8)
  | .UINT, b => [b 0, b 1, b 2, b 3]
  | .HALF, b => [b 0, b 1]
  | .FLOAT, b => storeLE32 (floatToFloat24 (loadLE32 (b 0) (b 1) (b 2) (b 3)) <<< 8)

theorem roundTripSample_length (t : PixelType) (b : Nat → BitVec 8) :
    (roundTripSample t b).length = t.size := by
  cases t <;> rfl

/-- A pixel that agrees with `pixelOf b` (shifted by `t.shift`) on the bits the type writes
is written as the round-trip bytes of `b`. -/
theorem store_eq_roundTripSample (t : PixelType) (b : Nat → BitVec 8) (P : BitVec 32)
    (h : P.toNat % 2 ^ (t.width + t.shift) = (t.pixelOf b).toNat * 2 ^ t.shift) :
    store t P = roundTripSample t b := by
  have hP := P.isLt
  cases t with
  | UINT =>
    have : P = loadLE32 (b 0) (b 1) (b 2) (b 3) := by
      apply BitVec.eq_of_toNat_eq
      simpa [PixelType.width, PixelType.shift, PixelType.planes, PixelType.pixelOf,
        Nat.mod_eq_of_lt hP] using h
    rw [store, this, storeLE32_loadLE32, roundTripSample]
  | HALF =>
    have : P.setWidth 16 = loadLE16 (b 0) (b 1) := by
      apply BitVec.eq_of_toNat_eq
      have hl := (loadLE16 (b 0) (b 1)).isLt
      simp only [PixelType.width, PixelType.shift, PixelType.planes, PixelType.pixelOf,
        BitVec.toNat_setWidth] at h ⊢
      omega
    rw [store, this, storeLE16_loadLE16, roundTripSample]
  | FLOAT =>
    have hlt := floatToFloat24_lt (loadLE32 (b 0) (b 1) (b 2) (b 3))
    have : P = floatToFloat24 (loadLE32 (b 0) (b 1) (b 2) (b 3)) <<< 8 := by
      apply BitVec.eq_of_toNat_eq
      rw [BitVec.toNat_shiftLeft, Nat.shiftLeft_eq]
      simp only [PixelType.width, PixelType.shift, PixelType.planes, PixelType.pixelOf] at h
      omega
    rw [store, this, roundTripSample]

/-- Reading back a written pixel recovers its bits `[t.shift, t.shift + t.width)`, provided
the bits below `t.shift` are zero (a FLOAT's float24 pattern is a fixed point there). -/
theorem pixelOf_store_toNat (t : PixelType) (P : BitVec 32) (h : P.toNat % 2 ^ t.shift = 0) :
    (t.pixelOf fun k => (store t P).getD k 0).toNat = P.toNat / 2 ^ t.shift % 2 ^ t.width := by
  have hP := P.isLt
  cases t with
  | UINT =>
    simp only [PixelType.pixelOf, store, storeLE32, List.getD_cons_zero, List.getD_cons_succ,
      loadLE32_storeLE32, PixelType.shift, PixelType.width, PixelType.planes]
    omega
  | HALF =>
    simp only [PixelType.pixelOf, store, storeLE16, List.getD_cons_zero, List.getD_cons_succ,
      loadLE16_storeLE16, PixelType.shift, PixelType.width, PixelType.planes,
      BitVec.toNat_setWidth]
    omega
  | FLOAT =>
    have hsplit : P = (P >>> 8) <<< 8 := by
      apply BitVec.eq_of_toNat_eq
      simp only [PixelType.shift] at h
      rw [BitVec.toNat_shiftLeft, BitVec.toNat_ushiftRight, Nat.shiftLeft_eq,
        Nat.shiftRight_eq_div_pow]
      omega
    have hlow : (P >>> 8).toNat < 2 ^ 24 := by
      rw [BitVec.toNat_ushiftRight, Nat.shiftRight_eq_div_pow]; omega
    simp only [PixelType.pixelOf, store, storeLE32, List.getD_cons_zero, List.getD_cons_succ,
      loadLE32_storeLE32, PixelType.shift, PixelType.width, PixelType.planes]
    rw [hsplit, floatToFloat24_shiftLeft _ hlow, ← hsplit, BitVec.toNat_ushiftRight,
      Nat.shiftRight_eq_div_pow]
    omega

end ExrCodecs.Pxr24
