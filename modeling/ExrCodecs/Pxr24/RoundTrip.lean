import ExrCodecs.Pxr24.Samples

/-!
# Pxr24 round trips

Compressing and then uncompressing, over every channel list, range and sample sequence:

> `uncompress_compress`: uncompressing what `compress` produced returns the input with
> every FLOAT sample `f` replaced by `floatToFloat24 f <<< 8` (`roundTripImage`), provided
> zlib inverts its own output and never produces an empty stream.

The proof is a loop lemma per direction (`compressSamples_ok`, `uncompressSamples_ok`), a
per-slot arithmetic induction over the samples (`accumulate_roundTrip`), and an induction
over the slots in which each slot's planes sit between the bytes of the slots before and
after it (`uncompressTmp_tmpOf`). The other direction, from an inflated block, is in
`ExrCodecs.Pxr24.Uncompress`.
-/

namespace ExrCodecs.Pxr24

/-! ## Pure forms of the loops -/

/-- The pixels `compress` takes from `n` samples starting at position `p`. -/
def pixels (input : List (BitVec 8)) (t : PixelType) : Nat → Nat → List (BitVec 32)
  | 0, _ => []
  | n + 1, p => t.pixelOf (fun k => input.getD (p + k) 0) :: pixels input t n (p + t.size)

/-- Wraparound differences of a run of pixels, the first taken from `previousPixel`. -/
def deltas : BitVec 32 → List (BitVec 32) → List (BitVec 32)
  | _, [] => []
  | previousPixel, pixel :: rest => (pixel - previousPixel) :: deltas pixel rest

/-- Running sums of a run of differences, starting from `pixel`. -/
def accumulate : BitVec 32 → List (BitVec 32) → List (BitVec 32)
  | _, [] => []
  | pixel, diff :: rest => (pixel + diff) :: accumulate (pixel + diff) rest

/-- The differences `uncompress` gathers for `r` samples from sample `j` of a slot whose
planes start at `start`. -/
def planeDiffs (tmp : List (BitVec 8)) (t : PixelType) (start n : Nat) :
    Nat → Nat → List (BitVec 32)
  | 0, _ => []
  | r + 1, j => t.diffOf (fun k => tmp.getD (start + k * n + j) 0) ::
      planeDiffs tmp t start n r (j + 1)

@[simp] theorem pixels_length (input : List (BitVec 8)) (t : PixelType) :
    ∀ n p, (pixels input t n p).length = n
  | 0, _ => rfl
  | n + 1, p => by simp [pixels, pixels_length input t n]

@[simp] theorem deltas_length : ∀ (previous : BitVec 32) (vs : List (BitVec 32)),
    (deltas previous vs).length = vs.length
  | _, [] => rfl
  | _, v :: vs => by simp [deltas, deltas_length v vs]

@[simp] theorem accumulate_length : ∀ (pixel : BitVec 32) (ds : List (BitVec 32)),
    (accumulate pixel ds).length = ds.length
  | _, [] => rfl
  | pixel, d :: ds => by simp [accumulate, accumulate_length (pixel + d) ds]

/-! ## The sample loops -/

private theorem mul_add_lt {k n j m : Nat} (hk : k < m) (hj : j < n) : k * n + j < m * n :=
  calc k * n + j < k * n + n := Nat.add_lt_add_left hj _
    _ = (k + 1) * n := (Nat.succ_mul k n).symm
    _ ≤ m * n := Nat.mul_le_mul_right n hk

/-- `compress`'s sample loop, when the samples are in the input, computes the differences
of `pixels`. -/
theorem compressSamples_ok (input : List (BitVec 8)) (t : PixelType) :
    ∀ n p previous, p + n * t.size ≤ input.length →
      compressSamples input t n p previous = .ok (deltas previous (pixels input t n p), p + n * t.size)
  | 0, p, _, _ => by simp [compressSamples, pixels, deltas, pure, Except.pure]
  | n + 1, p, previous, h => by
    have hread : sampleValue input p t = .ok (t.pixelOf fun k => input.getD (p + k) 0) := by
      unfold sampleValue
      rw [readBytes_ok fun k hk => by rw [Nat.succ_mul] at h; omega]
      rfl
    have hrest := compressSamples_ok input t n (p + t.size)
      (t.pixelOf fun k => input.getD (p + k) 0) (by rw [Nat.succ_mul] at h; omega)
    simp only [compressSamples, hread, hrest, bind, Except.bind, pure, Except.pure, pixels, deltas]
    rw [Nat.succ_mul, Nat.add_comm (n * t.size), Nat.add_assoc]

/-- `uncompress`'s sample loop, when the slot's planes are in the buffer, writes the running
sums of `planeDiffs`. -/
theorem uncompressSamples_ok (tmp : List (BitVec 8)) (t : PixelType) (start n : Nat)
    (hend : start + t.planes * n ≤ tmp.length) :
    ∀ r j pixel, j + r ≤ n → uncompressSamples tmp t start n r j pixel
      = .ok ((accumulate pixel (planeDiffs tmp t start n r j)).flatMap (store t))
  | 0, _, _, _ => rfl
  | r + 1, j, pixel, h => by
    have hread : gather tmp start n j t = .ok (t.diffOf fun k => tmp.getD (start + k * n + j) 0) := by
      unfold gather
      rw [readBytes_ok fun k hk => by
        have := mul_add_lt (n := n) (j := j) hk (by omega)
        omega]
      rfl
    simp only [uncompressSamples, hread, uncompressSamples_ok tmp t start n hend r (j + 1) _
      (by omega), bind, Except.bind, pure, Except.pure, planeDiffs, accumulate, List.flatMap_cons]

/-! ## Plane layout -/

private theorem flatMap_range_length {α : Type} (f : Nat → List α) (n : Nat)
    (hf : ∀ k, (f k).length = n) : ∀ m, ((List.range m).flatMap f).length = m * n
  | 0 => by simp
  | m + 1 => by
    rw [List.range_succ, List.flatMap_append, List.length_append, flatMap_range_length f n hf m]
    simp [hf, Nat.succ_mul]

private theorem getElem?_flatMap_range {α : Type} (f : Nat → List α) (n : Nat)
    (hf : ∀ k, (f k).length = n) :
    ∀ m k j, k < m → j < n → ((List.range m).flatMap f)[k * n + j]? = (f k)[j]?
  | 0, _, _, hk, _ => absurd hk (Nat.not_lt_zero _)
  | m + 1, k, j, hk, hj => by
    rw [List.range_succ, List.flatMap_append]
    have hlen := flatMap_range_length f n hf m
    by_cases hkm : k < m
    · rw [List.getElem?_append_left (by rw [hlen]; exact mul_add_lt hkm hj)]
      exact getElem?_flatMap_range f n hf m k j hkm hj
    · have hkeq : k = m := by omega
      subst hkeq
      rw [List.getElem?_append_right (by omega), hlen, Nat.add_sub_cancel_left]
      simp

theorem planesOf_length (t : PixelType) (ds : List (BitVec 32)) :
    (planesOf t ds).length = t.planes * ds.length :=
  flatMap_range_length _ ds.length (fun _ => List.length_map ..) t.planes

/-- Plane `k`'s byte for sample `j` sits at `k * n + j` of a slot's region. -/
theorem planesOf_getElem? (t : PixelType) (ds : List (BitVec 32)) {k j : Nat}
    (hk : k < t.planes) (hj : j < ds.length) :
    (planesOf t ds)[k * ds.length + j]? = some (scatterByte t k ds[j]) := by
  rw [planesOf, getElem?_flatMap_range _ ds.length (fun _ => List.length_map ..) t.planes k j hk hj]
  simp [hj]

/-- A slot whose count is not negative appends its planes at `tmpBufferEnd`. -/
theorem compressTmp_cons_ok {input : List (BitVec 8)} {s : Slot} (hn : 0 ≤ s.n)
    {rest : List Slot} {p p' : Nat} {tmp : List (BitVec 8)} {diffs : List (BitVec 32)}
    (hs : compressSamples input s.type s.n.toNat p 0 = .ok (diffs, p'))
    (hlen : diffs.length = s.n.toNat) :
    compressTmp input (s :: rest) p tmp
      = compressTmp input rest p' (tmp ++ planesOf s.type diffs) := by
  have hend : (tmp.length : Int) + s.type.planes * s.n
      = ((tmp ++ planesOf s.type diffs).length : Nat) := by
    rw [List.length_append, planesOf_length, hlen, Nat.cast_add, Nat.cast_mul,
      Int.toNat_of_nonneg hn]
  rw [compressTmp]
  dsimp only
  rw [hend, if_neg (by omega), hs]
  simp only [bind, Except.bind, Int.toNat_ofNat, List.take_length]

/-- `diffOf` reads only the type's planes. -/
theorem diffOf_congr (t : PixelType) {p q : Nat → BitVec 8} (h : ∀ k < t.planes, p k = q k) :
    t.diffOf p = t.diffOf q := by
  cases t with
  | UINT => simp only [PixelType.diffOf, h 0 (by decide), h 1 (by decide), h 2 (by decide),
      h 3 (by decide)]
  | HALF => simp only [PixelType.diffOf, h 0 (by decide), h 1 (by decide)]
  | FLOAT => simp only [PixelType.diffOf, h 0 (by decide), h 1 (by decide), h 2 (by decide)]

/-- A slot's region read back at its place in a buffer. -/
theorem getD_planesOf (pre post : List (BitVec 8)) (t : PixelType) (ds : List (BitVec 32))
    {k j : Nat} (hk : k < t.planes) (hj : j < ds.length) :
    (pre ++ planesOf t ds ++ post).getD (pre.length + k * ds.length + j) 0 = scatterByte t k ds[j] := by
  have hin : k * ds.length + j < (planesOf t ds).length := by
    rw [planesOf_length]; exact mul_add_lt hk hj
  rw [List.getD_eq_getElem?_getD, List.getElem?_append_left (by simp; omega),
    Nat.add_assoc, List.getElem?_append_right (by omega), Nat.add_sub_cancel_left,
    planesOf_getElem? t ds hk hj]
  rfl

/-- `uncompress` gathers back, for every sample, the bytes `compress` scattered. -/
theorem planeDiffs_planesOf (pre post : List (BitVec 8)) (t : PixelType) (ds : List (BitVec 32)) :
    ∀ r j, j + r = ds.length →
      planeDiffs (pre ++ planesOf t ds ++ post) t pre.length ds.length r j
        = (ds.drop j).map fun d => t.diffOf fun k => scatterByte t k d
  | 0, j, h => by simp [planeDiffs, show ds.length ≤ j by omega]
  | r + 1, j, h => by
    rw [planeDiffs, planeDiffs_planesOf pre post t ds r (j + 1) (by omega),
      List.drop_eq_getElem_cons (show j < ds.length by omega), List.map_cons]
    congr 1
    exact diffOf_congr t fun k hk => getD_planesOf pre post t ds hk (by omega)

/-! ## compress, then uncompress -/

/-- The pixel `compress` takes from a sample fits in the planes' width. -/
theorem pixelOf_lt (t : PixelType) (b : Nat → BitVec 8) : (t.pixelOf b).toNat < 2 ^ t.width := by
  cases t with
  | UINT => exact BitVec.isLt _
  | HALF =>
    have := (loadLE16 (b 0) (b 1)).isLt
    simp only [PixelType.pixelOf, PixelType.width, PixelType.planes, BitVec.toNat_setWidth]
    omega
  | FLOAT => exact floatToFloat24_lt _

/-- One sample of the accumulation: adding the gathered difference to a pixel that agrees
with the previous sample makes it agree with this one. -/
private theorem accumulate_step (t : PixelType) (previous v pixel : BitVec 32)
    (hprev : previous.toNat < 2 ^ t.width) (hv : v.toNat < 2 ^ t.width)
    (hpix : pixel.toNat % 2 ^ (t.width + t.shift) = previous.toNat * 2 ^ t.shift) :
    (pixel + t.diffOf fun k => scatterByte t k (v - previous)).toNat % 2 ^ (t.width + t.shift)
      = v.toNat * 2 ^ t.shift := by
  have := pixel.isLt
  rw [BitVec.toNat_add, diffOf_scatter, BitVec.toNat_sub]
  cases t <;> simp only [PixelType.width, PixelType.shift, PixelType.planes] at * <;> omega

/-- The bytes the codec gives back for `n` samples from position `p`. -/
def roundTripSamples (input : List (BitVec 8)) (t : PixelType) : Nat → Nat → List (BitVec 8)
  | 0, _ => []
  | n + 1, p => roundTripSample t (fun k => input.getD (p + k) 0) ++
      roundTripSamples input t n (p + t.size)

/-- The image the codec gives back for the slots from input position `p`. -/
def roundTripImage (input : List (BitVec 8)) : List Slot → Nat → List (BitVec 8)
  | [], _ => []
  | s :: rest, p => roundTripSamples input s.type s.n.toNat p ++
      roundTripImage input rest (p + s.type.size * s.n.toNat)

/-- `compress`'s preprocessed planes for the slots from input position `p`. -/
def tmpOf (input : List (BitVec 8)) : List Slot → Nat → List (BitVec 8)
  | [], _ => []
  | s :: rest, p => planesOf s.type (deltas 0 (pixels input s.type s.n.toNat p)) ++
      tmpOf input rest (p + s.type.size * s.n.toNat)

theorem roundTripSamples_length (input : List (BitVec 8)) (t : PixelType) :
    ∀ n p, (roundTripSamples input t n p).length = t.size * n
  | 0, _ => rfl
  | n + 1, p => by
    rw [roundTripSamples, List.length_append, roundTripSample_length,
      roundTripSamples_length input t n, Nat.mul_succ, Nat.add_comm]

theorem roundTripImage_length (input : List (BitVec 8)) :
    ∀ slots p, (roundTripImage input slots p).length = inputSize slots
  | [], _ => rfl
  | s :: rest, p => by
    simp [roundTripImage, roundTripSamples_length, roundTripImage_length input rest, inputSize]

theorem tmpOf_length (input : List (BitVec 8)) :
    ∀ slots p, (tmpOf input slots p).length = tmpSize slots
  | [], _ => rfl
  | s :: rest, p => by simp [tmpOf, planesOf_length, tmpOf_length input rest, tmpSize]

/-- The running sums of the gathered differences write each sample back as
`roundTripSample`. -/
theorem accumulate_roundTrip (input : List (BitVec 8)) (t : PixelType) :
    ∀ n p (previous pixel : BitVec 32), previous.toNat < 2 ^ t.width →
      pixel.toNat % 2 ^ (t.width + t.shift) = previous.toNat * 2 ^ t.shift →
      (accumulate pixel ((deltas previous (pixels input t n p)).map
        fun d => t.diffOf fun k => scatterByte t k d)).flatMap (store t)
        = roundTripSamples input t n p
  | 0, _, _, _, _, _ => rfl
  | n + 1, p, previous, pixel, hprev, hpix => by
    have hv := pixelOf_lt t (fun k => input.getD (p + k) 0)
    have hstep := accumulate_step t previous _ pixel hprev hv hpix
    simp only [pixels, deltas, List.map_cons, accumulate, List.flatMap_cons, roundTripSamples]
    rw [store_eq_roundTripSample t _ _ hstep,
      accumulate_roundTrip input t n (p + t.size) _ _ hv hstep]

/-- `compress` before zlib, on an input holding every sample of the slots, none of them with
a negative count. -/
theorem compressTmp_ok (input : List (BitVec 8)) :
    ∀ slots p (tmp : List (BitVec 8)), (∀ s ∈ slots, 0 ≤ s.n) →
      p + inputSize slots ≤ input.length →
      compressTmp input slots p tmp = .ok (tmp ++ tmpOf input slots p)
  | [], _, tmp, _, _ => by rw [tmpOf, List.append_nil]; rfl
  | s :: rest, p, tmp, hn, h => by
    simp only [inputSize, List.map_cons, List.sum_cons] at h
    have hs := compressSamples_ok input s.type s.n.toNat p 0 (by rw [Nat.mul_comm]; omega)
    rw [compressTmp_cons_ok (hn s (List.mem_cons_self _ _)) hs (by simp),
      compressTmp_ok input rest _ _ (fun s' hs' => hn s' (List.mem_cons_of_mem _ hs'))
        (by rw [inputSize, Nat.mul_comm]; omega), tmpOf, List.append_assoc, Nat.mul_comm]

/-- `uncompress` after zlib, on the planes `compress` produced (with any bytes before them),
returns the round-trip image. -/
theorem uncompressTmp_tmpOf (input : List (BitVec 8)) :
    ∀ slots (pre : List (BitVec 8)) p, (∀ s ∈ slots, 0 ≤ s.n) →
      uncompressTmp (pre ++ tmpOf input slots p) slots pre.length = .ok (roundTripImage input slots p)
  | [], pre, p, _ => by simp [uncompressTmp, tmpOf, roundTripImage, pure, Except.pure]
  | s :: rest, pre, p, hn => by
    set ds := deltas 0 (pixels input s.type s.n.toNat p) with hds
    have hlen : ds.length = s.n.toNat := by simp [hds]
    have hbuf : pre ++ tmpOf input (s :: rest) p
        = pre ++ planesOf s.type ds ++ tmpOf input rest (p + s.type.size * s.n.toNat) := by
      simp [tmpOf, hds]
    have hfit : pre.length + s.type.planes * s.n.toNat
        ≤ (pre ++ planesOf s.type ds ++ tmpOf input rest (p + s.type.size * s.n.toNat)).length := by
      simp [planesOf_length, hlen]
    have hsamples : uncompressSamples
        (pre ++ planesOf s.type ds ++ tmpOf input rest (p + s.type.size * s.n.toNat))
        s.type pre.length s.n.toNat s.n.toNat 0 0 = .ok (roundTripSamples input s.type s.n.toNat p) := by
      have hplanes := planeDiffs_planesOf pre (tmpOf input rest (p + s.type.size * s.n.toNat))
        s.type ds ds.length 0 (by omega)
      rw [hlen, List.drop_zero] at hplanes
      rw [uncompressSamples_ok _ s.type pre.length s.n.toNat hfit s.n.toNat 0 0 (by omega), hplanes,
        hds, accumulate_roundTrip input s.type s.n.toNat p 0 0 (by simp) (by simp)]
    have hnext := uncompressTmp_tmpOf input rest (pre ++ planesOf s.type ds)
      (p + s.type.size * s.n.toNat) fun s' hs' => hn s' (List.mem_cons_of_mem _ hs')
    rw [List.length_append, planesOf_length, hlen] at hnext
    rw [hbuf, uncompressTmp_cons _ (hn s (List.mem_cons_self _ _)), if_neg (by omega)]
    simp only [hsamples, hnext, bind, Except.bind, pure, Except.pure, roundTripImage]

/-! ## UINT and HALF samples come back unchanged -/

/-- The bytes at `p, …, p + m - 1` of a list long enough to hold them. -/
private theorem map_range_getD (input : List (BitVec 8)) (p m : Nat) (h : p + m ≤ input.length) :
    (List.range m).map (fun k => input.getD (p + k) 0) = (input.drop p).take m := by
  apply List.ext_getElem
  · simp only [List.length_map, List.length_range, List.length_take, List.length_drop]
    omega
  · intro i h1 h2
    simp only [List.getElem_map, List.getElem_range, List.getElem_take, List.getElem_drop,
      List.getD_eq_getElem?_getD, List.getElem?_eq_getElem (show p + i < input.length by
        simp at h1; omega), Option.getD_some]

/-- A UINT or HALF slot comes back as the bytes it was read from. -/
theorem roundTripSamples_of_ne_float (input : List (BitVec 8)) {t : PixelType} (ht : t ≠ .FLOAT) :
    ∀ n p, p + t.size * n ≤ input.length →
      roundTripSamples input t n p = (input.drop p).take (t.size * n)
  | 0, _, _ => by simp [roundTripSamples]
  | n + 1, p, h => by
    have hsample : roundTripSample t (fun k => input.getD (p + k) 0)
        = (List.range t.size).map fun k => input.getD (p + k) 0 := by
      cases t with
      | UINT => rfl
      | HALF => rfl
      | FLOAT => exact absurd rfl ht
    rw [roundTripSamples, hsample, map_range_getD input p t.size (by rw [Nat.mul_succ] at h; omega),
      roundTripSamples_of_ne_float input ht n (p + t.size) (by rw [Nat.mul_succ] at h; omega),
      Nat.mul_succ, Nat.add_comm (t.size * n), List.take_add, List.drop_drop]

/-- An image without FLOAT channels comes back unchanged. -/
theorem roundTripImage_of_ne_float (input : List (BitVec 8)) :
    ∀ slots p, (∀ s ∈ slots, s.type ≠ .FLOAT) → p + inputSize slots = input.length →
      roundTripImage input slots p = input.drop p
  | [], p, _, h => by simp [roundTripImage, inputSize] at h ⊢; omega
  | s :: rest, p, hf, h => by
    simp only [inputSize, List.map_cons, List.sum_cons] at h
    rw [roundTripImage, roundTripSamples_of_ne_float input (hf s (List.mem_cons_self _ _))
        s.n.toNat p (by omega),
      roundTripImage_of_ne_float input rest _ (fun s hs => hf s (List.mem_cons_of_mem _ hs))
        (by rw [inputSize]; omega),
      ← List.drop_drop, List.take_append_drop]

/-! ## The round trip -/

/-- `compress`, then `uncompress` over the same range, gives back the input with each FLOAT
sample `f` replaced by `floatToFloat24 f <<< 8`, whose low byte is zero and whose sign, NaN
and infinity status are `f`'s; an image without FLOAT channels comes back unchanged. The
channels have sampling factors of at least 1 and no negative sample count over the range,
and zlib is any backend that inverts its own output and never emits an empty stream (zlib's
output always holds at least its header). -/
theorem uncompress_compress (c : Pxr24Compressor) (zlib : Zlib) (input : List (BitVec 8))
    (range : Box2i)
    (hch : ∀ ch ∈ c.channels, 1 ≤ ch.xSampling ∧ 1 ≤ ch.ySampling ∧
      0 ≤ numSamples ch.xSampling range.minX (min range.maxX c.maxX))
    (hzlib : ∀ t, ∃ out, out ≠ [] ∧ zlib.compress t = some out ∧ zlib.uncompress out = some t)
    (hcap : tmpSize (c.slots range) ≤ c.maxScanLineSize * c.numScanLines)
    (hlen : input.length = inputSize (c.slots range)) :
    ∃ out, c.compress zlib input range = .ok out ∧
      c.uncompress zlib out range = .ok (roundTripImage input (c.slots range) 0) ∧
      (roundTripImage input (c.slots range) 0).length = input.length ∧
      ((∀ s ∈ c.slots range, s.type ≠ .FLOAT) → roundTripImage input (c.slots range) 0 = input) ∧
      ∀ f : BitVec 32, (floatToFloat24 f <<< 8).toNat % 2 ^ 8 = 0 ∧
        signBit (floatToFloat24 f <<< 8) = signBit f ∧
        isNaN (floatToFloat24 f <<< 8) = isNaN f ∧ isInf (floatToFloat24 f <<< 8) = isInf f := by
  have hn : ∀ s ∈ c.slots range, 0 ≤ s.n :=
    fun _ hs => Pxr24Compressor.n_nonneg_of_mem_slots (fun ch h => (hch ch h).2.2) hs
  have hsize := roundTripImage_length input (c.slots range) 0
  have hsame : (∀ s ∈ c.slots range, s.type ≠ .FLOAT) →
      roundTripImage input (c.slots range) 0 = input := fun hf => by
    simpa using roundTripImage_of_ne_float input (c.slots range) 0 hf (by omega)
  by_cases hempty : input.length = 0
  · refine ⟨[], by simp [Pxr24Compressor.compress, hempty, pure, Except.pure], ?_,
      by omega, hsame, float24_preserves⟩
    rw [List.eq_nil_of_length_eq_zero (hsize.trans (hlen.symm.trans hempty))]
    rfl
  · obtain ⟨out, hne, hc, hu⟩ := hzlib (tmpOf input (c.slots range) 0)
    have htmp := compressTmp_ok input (c.slots range) 0 [] hn (by omega)
    have hdecode := uncompressTmp_tmpOf input (c.slots range) [] 0 hn
    have hfit : (tmpOf input (c.slots range) 0).length ≤ c.maxScanLineSize * c.numScanLines := by
      rw [tmpOf_length]; exact hcap
    refine ⟨out, ?_, ?_, by omega, hsame, float24_preserves⟩
    · simp only [Pxr24Compressor.compress, hempty, htmp, List.nil_append, hc, if_false, bind,
        Except.bind, pure, Except.pure]
    · simp only [Pxr24Compressor.uncompress, List.length_eq_zero, hne, hu, hfit, if_false, if_true]
      simpa using hdecode

/-- A backend that stores its input behind a one-byte header. -/
def storedZlib : Zlib where
  compress t := some (0 :: t)
  uncompress
    | [] => none
    | _ :: t => some t

/-- One scan line of sixteen HALF samples. -/
def halfLine : Pxr24Compressor := ⟨32, 1, [⟨.HALF, 1, 1⟩], 0, 15, 0⟩

/-- The halves `1.0, 1.0 + 2⁻¹⁰, …`, two bytes each. -/
def halfRamp : List (BitVec 8) :=
  (List.range 16).flatMap fun k => storeLE16 (BitVec.ofNat 16 (0x3C00 + k))

theorem uncompress_compress_halfRamp :
    (∀ ch ∈ halfLine.channels, 1 ≤ ch.xSampling ∧ 1 ≤ ch.ySampling ∧
      0 ≤ numSamples ch.xSampling (halfLine.lineRange 0).minX
        (min (halfLine.lineRange 0).maxX halfLine.maxX)) ∧
    (∀ t, ∃ out, out ≠ [] ∧ storedZlib.compress t = some out ∧ storedZlib.uncompress out = some t) ∧
    tmpSize (halfLine.slots (halfLine.lineRange 0)) ≤ halfLine.maxScanLineSize * halfLine.numScanLines ∧
    halfRamp.length = inputSize (halfLine.slots (halfLine.lineRange 0)) ∧
    ∃ out, halfLine.compress storedZlib halfRamp (halfLine.lineRange 0) = .ok out ∧
      halfLine.uncompress storedZlib out (halfLine.lineRange 0)
        = .ok (roundTripImage halfRamp (halfLine.slots (halfLine.lineRange 0)) 0) ∧
      (roundTripImage halfRamp (halfLine.slots (halfLine.lineRange 0)) 0).length = halfRamp.length ∧
      ((∀ s ∈ halfLine.slots (halfLine.lineRange 0), s.type ≠ .FLOAT) →
        roundTripImage halfRamp (halfLine.slots (halfLine.lineRange 0)) 0 = halfRamp) ∧
      ∀ f : BitVec 32, (floatToFloat24 f <<< 8).toNat % 2 ^ 8 = 0 ∧
        signBit (floatToFloat24 f <<< 8) = signBit f ∧
        isNaN (floatToFloat24 f <<< 8) = isNaN f ∧ isInf (floatToFloat24 f <<< 8) = isInf f :=
  have hzlib : ∀ t, ∃ out, out ≠ [] ∧ storedZlib.compress t = some out ∧
      storedZlib.uncompress out = some t := fun t => ⟨0 :: t, List.cons_ne_nil _ _, rfl, rfl⟩
  have hcap : tmpSize (halfLine.slots (halfLine.lineRange 0))
      ≤ halfLine.maxScanLineSize * halfLine.numScanLines := by decide
  have hlen : halfRamp.length = inputSize (halfLine.slots (halfLine.lineRange 0)) := by decide
  have hch : ∀ ch ∈ halfLine.channels, 1 ≤ ch.xSampling ∧ 1 ≤ ch.ySampling ∧
      0 ≤ numSamples ch.xSampling (halfLine.lineRange 0).minX
        (min (halfLine.lineRange 0).maxX halfLine.maxX) := by decide
  ⟨hch, hzlib, hcap, hlen, uncompress_compress halfLine storedZlib halfRamp _ hch hzlib hcap hlen⟩

/-- A backend that inverts its own output but deflates the block `tmp0` to the empty
stream. -/
def emptyingZlib (tmp0 : List (BitVec 8)) : Zlib where
  compress t := if t = tmp0 then some [] else some (0 :: t)
  uncompress
    | [] => some tmp0
    | _ :: t => some t

/-- Without the non-empty stream, the round trip fails: on one HALF channel sampled every
pixel and one sample, a backend that deflates the sample `1.0` to nothing makes `uncompress`
take the empty-input branch and return nothing. -/
theorem uncompress_compress_emptyStream :
    let c : Pxr24Compressor := ⟨2, 1, [⟨.HALF, 1, 1⟩], 0, 0, 0⟩
    let input : List (BitVec 8) := [0x00, 0x3C]
    let zlib := emptyingZlib [0x3C, 0x00]
    (∀ ch ∈ c.channels, 1 ≤ ch.xSampling ∧ 1 ≤ ch.ySampling ∧
      0 ≤ numSamples ch.xSampling (c.lineRange 0).minX (min (c.lineRange 0).maxX c.maxX)) ∧
    (∀ t, ∃ out, zlib.compress t = some out ∧ zlib.uncompress out = some t) ∧
      tmpSize (c.slots (c.lineRange 0)) ≤ c.maxScanLineSize * c.numScanLines ∧
      input.length = inputSize (c.slots (c.lineRange 0)) ∧
      c.compress zlib input (c.lineRange 0) = .ok [] ∧
      c.uncompress zlib [] (c.lineRange 0) = .ok [] ∧ input.length = 2 := by
  refine ⟨by decide, fun t => ?_, by decide, by decide, rfl, rfl, rfl⟩
  by_cases h : t = [0x3C, 0x00]
  · subst h
    exact ⟨[], rfl, rfl⟩
  · exact ⟨0 :: t, if_neg h, rfl⟩

end ExrCodecs.Pxr24
