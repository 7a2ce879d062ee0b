import ExrCodecs.Pxr24.RoundTrip

/-!
# Pxr24 `uncompress` on any inflated block

zlib can inflate adversarial data to any bytes of any length up to the buffer, and
`uncompress` checks the length only against the traversal's cumulative cursor. This file
computes what it does with every block, for channels whose sample counts over the range are
not negative:

> `uncompress_sizeChecks`: on a block of `L` bytes, with `T` the traversal's `tmpSize`,
> `uncompress` raises `notEnoughData` if `T > L`, `tooMuchData` if `T < L`, and otherwise
> returns `decodeSlots`, of `inputSize` bytes. No read past the block is left over
> (`outOfRange` is not among the outcomes).

> `compressTmp_uncompressTmp`: when `T = L`, `compress`'s preprocessing of the decoded image
> gives the block back byte for byte.

The second needs the inverse of the per-sample arithmetic of `ExrCodecs.Pxr24.RoundTrip` in
the other direction: re-reading a written pixel keeps its planes' bits (`storedPixel`), the
wraparound differences of the running sums are the gathered differences again
(`deltas_accumulate`), and those scatter back onto the slot's region (`planesOf_eq_region`).
-/

namespace ExrCodecs.Pxr24

/-! ## Re-reading decoded samples -/

theorem store_length (t : PixelType) (P : BitVec 32) : (store t P).length = t.size := by
  cases t <;> rfl

@[simp] theorem planeDiffs_length (tmp : List (BitVec 8)) (t : PixelType) (start n : Nat) :
    ∀ r j, (planeDiffs tmp t start n r j).length = r
  | 0, _ => rfl
  | r + 1, j => by simp [planeDiffs, planeDiffs_length tmp t start n r]

theorem planeDiffs_eq_map (tmp : List (BitVec 8)) (t : PixelType) (start n : Nat) :
    ∀ r j, planeDiffs tmp t start n r j
      = (List.range r).map fun i => t.diffOf fun k => tmp.getD (start + k * n + (j + i)) 0
  | 0, _ => rfl
  | r + 1, j => by
    rw [planeDiffs, planeDiffs_eq_map tmp t start n r (j + 1), List.range_succ_eq_map]
    simp [Nat.add_assoc, Nat.add_comm 1]

/-- `pixelOf` reads only the sample's bytes. -/
theorem pixelOf_congr (t : PixelType) {b c : Nat → BitVec 8} (h : ∀ k < t.size, b k = c k) :
    t.pixelOf b = t.pixelOf c := by
  cases t with
  | UINT => simp only [PixelType.pixelOf, h 0 (by decide), h 1 (by decide), h 2 (by decide),
      h 3 (by decide)]
  | HALF => simp only [PixelType.pixelOf, h 0 (by decide), h 1 (by decide)]
  | FLOAT => simp only [PixelType.pixelOf, h 0 (by decide), h 1 (by decide), h 2 (by decide),
      h 3 (by decide)]

/-- The pixel `compress` takes from the bytes `uncompress` wrote for `P`. -/
def storedPixel (t : PixelType) (P : BitVec 32) : BitVec 32 :=
  t.pixelOf fun k => (store t P).getD k 0

theorem pixels_flatMap_store (t : PixelType) (post : List (BitVec 8)) :
    ∀ (L : List (BitVec 32)) (pre : List (BitVec 8)),
      pixels (pre ++ L.flatMap (store t) ++ post) t L.length pre.length = L.map (storedPixel t)
  | [], _ => rfl
  | P :: L, pre => by
    have hhead : (t.pixelOf fun k => (pre ++ store t P ++ (L.flatMap (store t) ++ post)).getD
        (pre.length + k) 0) = storedPixel t P := by
      apply pixelOf_congr
      intro k hk
      have hk' : k < (store t P).length := by rw [store_length]; exact hk
      rw [List.getD_eq_getElem?_getD, List.getD_eq_getElem?_getD,
        List.getElem?_append_left (by simp; omega), List.getElem?_append_right (by omega),
        Nat.add_sub_cancel_left]
    have hrest := pixels_flatMap_store t post L (pre ++ store t P)
    rw [List.length_append, store_length, List.append_assoc (pre ++ store t P)] at hrest
    rw [List.flatMap_cons, List.append_assoc pre, List.append_assoc, ← List.append_assoc pre,
      List.length_cons, pixels, hhead, hrest, List.map_cons]

/-- A difference `diffOf` forms has its low `t.shift` bits clear and fits in
`t.width + t.shift` bits. -/
theorem diffOf_bounds (t : PixelType) (p : Nat → BitVec 8) :
    (t.diffOf p).toNat % 2 ^ t.shift = 0 ∧ (t.diffOf p).toNat < 2 ^ (t.width + t.shift) := by
  have h0 := (p 0).isLt; have h1 := (p 1).isLt
  have hd := (t.diffOf p).isLt
  rw [diffOf_toNat] at hd ⊢
  cases t <;> simp only [PixelType.shift, PixelType.width, PixelType.planes] at hd ⊢ <;> omega

/-- One sample of re-encoding: the difference `compress` takes between the re-read pixels
before and after adding `d` agrees with `d` on the planes' bits. -/
private theorem storedPixel_sub (t : PixelType) (P d : BitVec 32) (hP : P.toNat % 2 ^ t.shift = 0)
    (hd : d.toNat % 2 ^ t.shift = 0 ∧ d.toNat < 2 ^ (t.width + t.shift)) :
    (P + d).toNat % 2 ^ t.shift = 0 ∧
      (storedPixel t (P + d) - storedPixel t P).toNat % 2 ^ t.width = d.toNat / 2 ^ t.shift := by
  have hPd : (P + d).toNat % 2 ^ t.shift = 0 := by
    rw [BitVec.toNat_add]
    cases t <;> simp only [PixelType.shift] at hP hd ⊢ <;> omega
  refine ⟨hPd, ?_⟩
  have hP' := P.isLt
  rw [BitVec.toNat_sub, storedPixel, storedPixel, pixelOf_store_toNat t _ hP,
    pixelOf_store_toNat t _ hPd, BitVec.toNat_add]
  cases t <;> simp only [PixelType.shift, PixelType.width, PixelType.planes] at hP hd ⊢ <;> omega

theorem deltas_accumulate (t : PixelType) :
    ∀ (ds : List (BitVec 32)) (P : BitVec 32),
      (∀ d ∈ ds, d.toNat % 2 ^ t.shift = 0 ∧ d.toNat < 2 ^ (t.width + t.shift)) →
      P.toNat % 2 ^ t.shift = 0 →
      (deltas (storedPixel t P) ((accumulate P ds).map (storedPixel t))).map
        (fun x => x.toNat % 2 ^ t.width) = ds.map fun d => d.toNat / 2 ^ t.shift
  | [], _, _, _ => rfl
  | d :: ds, P, hds, hP => by
    obtain ⟨hPd, hstep⟩ := storedPixel_sub t P d hP (hds d (List.mem_cons_self _ _))
    simp only [accumulate, List.map_cons, deltas, hstep,
      deltas_accumulate t ds (P + d) (fun d' h => hds d' (List.mem_cons_of_mem _ h)) hPd]

theorem storedPixel_zero (t : PixelType) : storedPixel t 0 = 0 := by
  cases t <;> rfl

/-- Differences that agree with a slot's gathered ones on the planes' bits scatter back to the
slot's region of the buffer. -/
theorem planesOf_eq_region (tmp : List (BitVec 8)) (t : PixelType) (start n : Nat)
    (hend : start + t.planes * n ≤ tmp.length) (xs : List (BitVec 32))
    (hx : xs.map (fun x => x.toNat % 2 ^ t.width)
      = (planeDiffs tmp t start n n 0).map fun d => d.toNat / 2 ^ t.shift) :
    planesOf t xs = (tmp.drop start).take (t.planes * n) := by
  have hlen : xs.length = n := by simpa using congrArg List.length hx
  subst hlen
  set n := xs.length
  apply List.ext_getElem?
  intro i
  by_cases hi : i < t.planes * n
  · have hn : 0 < n := Nat.pos_of_ne_zero fun h => by simp [h] at hi
    have hk : i / n < t.planes := (Nat.div_lt_iff_lt_mul hn).2 hi
    have hj : i % n < n := Nat.mod_lt i hn
    have hidx : i = i / n * n + i % n := (Nat.div_add_mod' i n).symm
    have hxj := congrArg (·[i % n]?) hx
    simp only [List.getElem?_map, planeDiffs_eq_map, List.getElem?_range hj, Option.map_some',
      List.getElem?_eq_getElem hj, Option.some.injEq, Nat.zero_add] at hxj
    rw [hidx, planesOf_getElem? t xs hk hj, scatter_diffOf t _ _ hxj _ hk,
      List.getElem?_take_of_lt (by omega), List.getElem?_drop, List.getD_eq_getElem?_getD,
      ← Nat.add_assoc, List.getElem?_eq_getElem (show start + i / n * n + i % n < tmp.length by
        omega)]
    rfl
  · rw [List.getElem?_eq_none (by rw [planesOf_length]; exact Nat.le_of_not_lt hi),
      List.getElem?_eq_none (by rw [List.length_take, List.length_drop]; omega)]

theorem length_flatMap_store (t : PixelType) :
    ∀ L : List (BitVec 32), (L.flatMap (store t)).length = L.length * t.size
  | [] => by simp
  | P :: L => by
    rw [List.flatMap_cons, List.length_append, store_length, length_flatMap_store t L,
      List.length_cons, Nat.succ_mul, Nat.add_comm]

/-! ## The decoded image -/

/-- The bytes `uncompress` writes for the slots whose planes start at `start` of `tmp`. -/
def decodeSlots (tmp : List (BitVec 8)) : List Slot → Nat → List (BitVec 8)
  | [], _ => []
  | s :: rest, start =>
    (accumulate 0 (planeDiffs tmp s.type start s.n.toNat s.n.toNat 0)).flatMap (store s.type) ++
      decodeSlots tmp rest (start + s.type.planes * s.n.toNat)

theorem decodeSlots_length (tmp : List (BitVec 8)) :
    ∀ slots start, (decodeSlots tmp slots start).length = inputSize slots
  | [], _ => rfl
  | s :: rest, start => by
    rw [decodeSlots, List.length_append, length_flatMap_store, accumulate_length, planeDiffs_length,
      decodeSlots_length tmp rest, inputSize_cons, Nat.mul_comm]

/-- `uncompressTmp` from a cursor inside the block: the first slot whose planes would end past
the block raises `notEnoughData`, a traversal that ends before the block's end raises
`tooMuchData`, and otherwise every read is inside the block. -/
theorem uncompressTmp_eq (tmp : List (BitVec 8)) :
    ∀ slots start, (∀ s ∈ slots, 0 ≤ s.n) → start ≤ tmp.length → uncompressTmp tmp slots start =
      if tmp.length < start + tmpSize slots then .error .notEnoughData
      else if start + tmpSize slots < tmp.length then .error .tooMuchData
      else .ok (decodeSlots tmp slots start)
  | [], start, _, h => by
    simp only [uncompressTmp, tmpSize_nil, Nat.add_zero, Nat.not_lt.2 h, if_false, decodeSlots]
    rfl
  | s :: rest, start, hn, h => by
    have hsum : start + tmpSize (s :: rest) = start + s.type.planes * s.n.toNat + tmpSize rest := by
      rw [tmpSize_cons, Nat.add_assoc]
    rw [uncompressTmp_cons _ (hn s (List.mem_cons_self _ _)), hsum]
    by_cases hend : start + s.type.planes * s.n.toNat > tmp.length
    · rw [if_pos hend, if_pos (by omega)]
      rfl
    · rw [if_neg hend, uncompressSamples_ok tmp s.type start s.n.toNat (by omega) _ 0 0 (by omega),
        uncompressTmp_eq tmp rest _ (fun s' hs' => hn s' (List.mem_cons_of_mem _ hs')) (by omega)]
      split_ifs <;> rfl

/-- `compress`'s preprocessing of the image decoded from a block that the traversal fills
exactly gives the block back. -/
theorem compressTmp_decodeSlots (tmp : List (BitVec 8)) :
    ∀ slots start (pre acc : List (BitVec 8)), (∀ s ∈ slots, 0 ≤ s.n) →
      start + tmpSize slots = tmp.length →
      compressTmp (pre ++ decodeSlots tmp slots start) slots pre.length acc
        = .ok (acc ++ tmp.drop start)
  | [], start, _, acc, _, h => by
    rw [tmpSize_nil, Nat.add_zero] at h
    simp [compressTmp, h, pure, Except.pure]
  | s :: rest, start, pre, acc, hn, h => by
    rw [tmpSize_cons] at h
    set n := s.n.toNat
    set ds := planeDiffs tmp s.type start n n 0 with hds
    set L := accumulate 0 ds
    have hL : L.length = n := by simp [L, hds]
    set post := decodeSlots tmp rest (start + s.type.planes * n)
    have hbuf : pre ++ decodeSlots tmp (s :: rest) start
        = pre ++ L.flatMap (store s.type) ++ post := by
      simp [decodeSlots, L, hds, post, n]
    have hXlen : (L.flatMap (store s.type)).length = n * s.type.size := by
      rw [length_flatMap_store, hL]
    have hpix := pixels_flatMap_store s.type post L pre
    rw [hL] at hpix
    have hsamples := compressSamples_ok (pre ++ L.flatMap (store s.type) ++ post) s.type n
      pre.length 0 (by simp only [List.length_append, hXlen]; omega)
    have hbounds : ∀ d ∈ ds,
        d.toNat % 2 ^ s.type.shift = 0 ∧ d.toNat < 2 ^ (s.type.width + s.type.shift) := by
      intro d hd
      rw [hds, planeDiffs_eq_map] at hd
      obtain ⟨i, -, rfl⟩ := List.mem_map.1 hd
      exact diffOf_bounds _ _
    have hdiffs := deltas_accumulate s.type ds 0 hbounds (by simp)
    rw [storedPixel_zero] at hdiffs
    have hplanes := planesOf_eq_region tmp s.type start n (by omega) _ hdiffs
    have hrest := compressTmp_decodeSlots tmp rest (start + s.type.planes * n)
      (pre ++ L.flatMap (store s.type)) (acc ++ (tmp.drop start).take (s.type.planes * n))
      (fun s' hs' => hn s' (List.mem_cons_of_mem _ hs')) (by omega)
    rw [List.length_append, hXlen] at hrest
    rw [hpix] at hsamples
    rw [hbuf, compressTmp_cons_ok (hn s (List.mem_cons_self _ _)) hsamples (by simp [hL]), hplanes,
      hrest, List.append_assoc, ← List.drop_drop, List.take_append_drop]

/-! ## uncompress -/

/-- `Pxr24Compressor::uncompress` on a non-empty input that zlib inflates to a block `tmp`
inside the buffer: the block is checked against the traversal's `tmpSize` alone, and a
block of the right size decodes to `inputSize` bytes. -/
theorem uncompress_sizeChecks (c : Pxr24Compressor) (zlib : Zlib) (src tmp : List (BitVec 8))
    (range : Box2i)
    (hn : ∀ ch ∈ c.channels, 0 ≤ numSamples ch.xSampling range.minX (min range.maxX c.maxX))
    (hsrc : src ≠ []) (hz : zlib.uncompress src = some tmp)
    (hcap : tmp.length ≤ c.maxScanLineSize * c.numScanLines) :
    c.uncompress zlib src range =
      (if tmp.length < tmpSize (c.slots range) then .error .notEnoughData
      else if tmpSize (c.slots range) < tmp.length then .error .tooMuchData
      else .ok (decodeSlots tmp (c.slots range) 0)) ∧
    (decodeSlots tmp (c.slots range) 0).length = inputSize (c.slots range) := by
  refine ⟨?_, decodeSlots_length tmp _ 0⟩
  simp only [Pxr24Compressor.uncompress, List.length_eq_zero, hsrc, hz, hcap, if_false, if_true]
  simpa using uncompressTmp_eq tmp (c.slots range) 0
    (fun _ hs => Pxr24Compressor.n_nonneg_of_mem_slots hn hs) (Nat.zero_le _)

theorem uncompress_sizeChecks_short :
    let tmp : List (BitVec 8) := [0, 0, 0]
    (∀ ch ∈ halfLine.channels, 0 ≤ numSamples ch.xSampling (halfLine.lineRange 0).minX
      (min (halfLine.lineRange 0).maxX halfLine.maxX)) ∧
      (0 :: tmp) ≠ [] ∧ storedZlib.uncompress (0 :: tmp) = some tmp ∧
      tmp.length ≤ halfLine.maxScanLineSize * halfLine.numScanLines ∧
      (halfLine.uncompress storedZlib (0 :: tmp) (halfLine.lineRange 0) =
        (if tmp.length < tmpSize (halfLine.slots (halfLine.lineRange 0)) then .error .notEnoughData
        else if tmpSize (halfLine.slots (halfLine.lineRange 0)) < tmp.length then .error .tooMuchData
        else .ok (decodeSlots tmp (halfLine.slots (halfLine.lineRange 0)) 0)) ∧
      (decodeSlots tmp (halfLine.slots (halfLine.lineRange 0)) 0).length
        = inputSize (halfLine.slots (halfLine.lineRange 0))) :=
  have hn : ∀ ch ∈ halfLine.channels, 0 ≤ numSamples ch.xSampling (halfLine.lineRange 0).minX
      (min (halfLine.lineRange 0).maxX halfLine.maxX) := by decide
  ⟨hn, List.cons_ne_nil _ _, rfl, by decide,
    uncompress_sizeChecks halfLine storedZlib _ _ _ hn (List.cons_ne_nil _ _) rfl (by decide)⟩

/-- Decoding a block of the traversal's size and preprocessing the result as `compress` does
reproduces the block: re-encoding a decoded image gives zlib the same input again. -/
theorem compressTmp_uncompressTmp (c : Pxr24Compressor) (zlib : Zlib) (src tmp : List (BitVec 8))
    (range : Box2i)
    (hn : ∀ ch ∈ c.channels, 0 ≤ numSamples ch.xSampling range.minX (min range.maxX c.maxX))
    (hsrc : src ≠ []) (hz : zlib.uncompress src = some tmp)
    (hcap : tmp.length ≤ c.maxScanLineSize * c.numScanLines)
    (hlen : tmp.length = tmpSize (c.slots range)) :
    ∃ out, c.uncompress zlib src range = .ok out ∧
      compressTmp out (c.slots range) 0 [] = .ok tmp := by
  have hslots : ∀ s ∈ c.slots range, 0 ≤ s.n :=
    fun _ hs => Pxr24Compressor.n_nonneg_of_mem_slots hn hs
  refine ⟨decodeSlots tmp (c.slots range) 0, ?_, ?_⟩
  · simp only [Pxr24Compressor.uncompress, List.length_eq_zero, hsrc, hz, hcap, if_false, if_true,
      uncompressTmp_eq tmp _ 0 hslots (Nat.zero_le _), Nat.zero_add, ← hlen, Nat.lt_irrefl]
  · simpa using compressTmp_decodeSlots tmp (c.slots range) 0 [] [] hslots (by omega)

theorem compressTmp_uncompressTmp_halfRamp :
    (∀ ch ∈ halfLine.channels, 0 ≤ numSamples ch.xSampling (halfLine.lineRange 0).minX
      (min (halfLine.lineRange 0).maxX halfLine.maxX)) ∧
      (0 :: halfRamp) ≠ [] ∧ storedZlib.uncompress (0 :: halfRamp) = some halfRamp ∧
      halfRamp.length ≤ halfLine.maxScanLineSize * halfLine.numScanLines ∧
      halfRamp.length = tmpSize (halfLine.slots (halfLine.lineRange 0)) ∧
      ∃ out, halfLine.uncompress storedZlib (0 :: halfRamp) (halfLine.lineRange 0) = .ok out ∧
        compressTmp out (halfLine.slots (halfLine.lineRange 0)) 0 [] = .ok halfRamp :=
  have hcap : halfRamp.length ≤ halfLine.maxScanLineSize * halfLine.numScanLines := by decide
  have hlen : halfRamp.length = tmpSize (halfLine.slots (halfLine.lineRange 0)) := by decide
  have hn : ∀ ch ∈ halfLine.channels, 0 ≤ numSamples ch.xSampling (halfLine.lineRange 0).minX
      (min (halfLine.lineRange 0).maxX halfLine.maxX) := by decide
  ⟨hn, List.cons_ne_nil _ _, rfl, hcap, hlen,
    compressTmp_uncompressTmp halfLine storedZlib _ _ _ hn (List.cons_ne_nil _ _) rfl hcap hlen⟩

end ExrCodecs.Pxr24
