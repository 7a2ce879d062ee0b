import ExrCodecs.FastHuf.Decode
import ExrCodecs.FastHuf.Bits

/-!
# `refill` keeps the bit queue

The registers of `decode` stand for one sequence of bits still to be decoded:

> `DecodeState.pending`: the valid bits of `buffer` (its top `bufferNumBits`), then the top
> `bufferBackNumBits` bits of `bufferBack`, then the bits of the `⌈currBitsLeft / 8⌉` bytes at
> `currByte`; `DecodeState.queue` is that list followed by zeros, the bits a decoder reading
> past the end of the stream sees.

> `RegistersOk`: the register invariant — both counts in `[0, 64]`, the bits of each word below
> its valid ones zero, `currBitsLeft ≥ 0`, and the unread bytes present in `src`.

The main result, `refill_queue`, is that a call site's `refill (…, 64 - bufferNumBits, …)`
succeeds (no shift outside `[0, 63]`, no read past `src`), leaves 64 valid bits in `buffer`,
keeps `RegistersOk` and does not change the queue, across both reload paths: the whole
big-endian word (`read64_topBits`) and the zero-padded tail (`reloadTail_ok`).
-/

namespace ExrCodecs.FastHuf

/-! ## Words as bit strings -/

/-- The top `k` bits of a 64-bit word, most significant first. -/
def topBits (x : BitVec 64) (k : Nat) : List Bool := natToBits k (x.toNat / 2 ^ (64 - k))

@[simp] theorem topBits_length (x : BitVec 64) (k : Nat) : (topBits x k).length = k :=
  natToBits_length _ _

@[simp] theorem topBits_zero (x : BitVec 64) : topBits x 0 = [] := rfl

theorem topBits_full (x : BitVec 64) : topBits x 64 = natToBits 64 x.toNat := by
  rw [topBits, Nat.sub_self, Nat.pow_zero, Nat.div_one]

/-- The bits of `x` below its top `k` are zero. -/
def LowZero (x : BitVec 64) (k : Nat) : Prop := x.toNat % 2 ^ (64 - k) = 0

theorem lowZero_full (x : BitVec 64) : LowZero x 64 := Nat.mod_one _

/-- `x ||| y >>> k` as an addition, when `x` has nothing below its top `k` bits. -/
theorem toNat_or_shiftRight {x : BitVec 64} {k : Nat} (y : BitVec 64) (hk : k ≤ 64)
    (hx : LowZero x k) : (x ||| y >>> k).toNat = x.toNat + y.toNat / 2 ^ k := by
  have hy : (y >>> k).toNat < 2 ^ (64 - k) := by
    rw [BitVec.toNat_ushiftRight, Nat.shiftRight_eq_div_pow]
    exact Nat.div_lt_of_lt_mul (by rw [← Nat.pow_add, Nat.add_sub_cancel' hk]; exact y.isLt)
  rw [toNat_or_of_lt hx hy, BitVec.toNat_ushiftRight, Nat.shiftRight_eq_div_pow]

/-- Or-ing `y >>> k` below the top `k` bits of `x` puts the top bits of `y` after them. -/
theorem topBits_or_shiftRight {x : BitVec 64} {k : Nat} (y : BitVec 64) {j : Nat}
    (hkj : k + j ≤ 64) (hx : LowZero x k) :
    topBits (x ||| y >>> k) (k + j) = topBits x k ++ topBits y j := by
  obtain ⟨q, hq⟩ := Nat.dvd_of_mod_eq_zero hx
  have hsplit : 2 ^ (64 - k) = 2 ^ (64 - (k + j)) * 2 ^ j := by
    rw [← Nat.pow_add]; congr 1; omega
  have hyk : y.toNat / 2 ^ k / 2 ^ (64 - (k + j)) = y.toNat / 2 ^ (64 - j) := by
    rw [Nat.div_div_eq_div_mul, ← Nat.pow_add]; congr 2; omega
  have hr : y.toNat / 2 ^ (64 - j) < 2 ^ j :=
    Nat.div_lt_of_lt_mul (by rw [← Nat.pow_add, Nat.sub_add_cancel (by omega)]; exact y.isLt)
  have hval : (x ||| y >>> k).toNat / 2 ^ (64 - (k + j)) = y.toNat / 2 ^ (64 - j) + q * 2 ^ j := by
    rw [toNat_or_shiftRight y (by omega) hx, hq, hsplit, Nat.add_comm,
      show 2 ^ (64 - (k + j)) * 2 ^ j * q = q * 2 ^ j * 2 ^ (64 - (k + j)) by ring,
      Nat.add_mul_div_right _ _ (Nat.two_pow_pos _), hyk]
  have hxq : x.toNat / 2 ^ (64 - k) = q := by
    rw [hq, Nat.mul_div_cancel_left _ (Nat.two_pow_pos _)]
  rw [topBits, hval, natToBits_add_mul _ _ _ _ hr, topBits, hxq, topBits]

/-- Shifting a word left by `a` brings the bits after its top `a` to the top. -/
theorem topBits_shiftLeft (y : BitVec 64) {a b : Nat} (hab : a + b ≤ 64) :
    topBits y a ++ topBits (y <<< a) b = topBits y (a + b) := by
  have hlow : (y <<< a).toNat = y.toNat % 2 ^ (64 - a) * 2 ^ a := by
    rw [BitVec.toNat_shiftLeft, Nat.shiftLeft_eq,
      show (2 : Nat) ^ 64 = 2 ^ (64 - a) * 2 ^ a by rw [← Nat.pow_add]; congr 1; omega,
      Nat.mul_mod_mul_right]
  have hhigh : y.toNat / 2 ^ (64 - (a + b)) / 2 ^ b = y.toNat / 2 ^ (64 - a) := by
    rw [Nat.div_div_eq_div_mul, ← Nat.pow_add]; congr 2; omega
  have hmid : (y <<< a).toNat / 2 ^ (64 - b) = y.toNat / 2 ^ (64 - (a + b)) % 2 ^ b := by
    rw [hlow, show (2 : Nat) ^ (64 - b) = 2 ^ (64 - (a + b)) * 2 ^ a by
        rw [← Nat.pow_add]; congr 1; omega,
      Nat.mul_div_mul_right _ _ (Nat.two_pow_pos _),
      show (2 : Nat) ^ (64 - a) = 2 ^ (64 - (a + b)) * 2 ^ b by
        rw [← Nat.pow_add]; congr 1; omega,
      Nat.mod_mul_right_div_self]
  rw [topBits, topBits, hmid, natToBits_mod, topBits, natToBits_add, hhigh]

/-- The bits a left shift by `a ≤ k` leaves below the top `k - a` are zero. -/
theorem lowZero_shiftLeft {y : BitVec 64} {k : Nat} (a : Nat) (hy : LowZero y k) (hak : a ≤ k)
    (hk : k ≤ 64) : LowZero (y <<< a) (k - a) := by
  obtain ⟨q, hq⟩ := Nat.dvd_of_mod_eq_zero hy
  have hdvd : 2 ^ (64 - (k - a)) ∣ 2 ^ 64 := Nat.pow_dvd_pow 2 (by omega)
  unfold LowZero
  rw [BitVec.toNat_shiftLeft, Nat.shiftLeft_eq, Nat.mod_mod_of_dvd _ hdvd, hq,
    show 64 - (k - a) = (64 - k) + a by omega, Nat.pow_add, Nat.mul_comm (2 ^ (64 - k)) q,
    Nat.mul_assoc]
  exact Nat.mul_mod_left _ _

/-- `x ||| y >>> k` has nothing below its top `k + j` bits when `x` has nothing below its
top `k` and `y` nothing below its top `j`. -/
theorem lowZero_or_shiftRight {x y : BitVec 64} {k j : Nat} (hkj : k + j ≤ 64) (hx : LowZero x k)
    (hy : LowZero y j) : LowZero (x ||| y >>> k) (k + j) := by
  unfold LowZero
  rw [toNat_or_shiftRight y (by omega) hx]
  apply Nat.mod_eq_zero_of_dvd
  apply Nat.dvd_add
  · exact Nat.dvd_trans (Nat.pow_dvd_pow 2 (by omega)) (Nat.dvd_of_mod_eq_zero hx)
  · apply Nat.dvd_div_of_mul_dvd
    rw [← Nat.pow_add]
    exact Nat.dvd_trans (Nat.pow_dvd_pow 2 (by omega)) (Nat.dvd_of_mod_eq_zero hy)

/-! ## The stream -/

theorem toNat_append_byte {w : Nat} (x : BitVec w) (b : BitVec 8) :
    (x ++ b).toNat = b.toNat + x.toNat * 2 ^ 8 := by
  rw [BitVec.toNat_append, shiftLeft_or_eq_add b.isLt, Nat.add_comm]

theorem natToBits_append_byte {w : Nat} (x : BitVec w) (b : BitVec 8) :
    natToBits (w + 8) (x ++ b).toNat = natToBits w x.toNat ++ natToBits 8 b.toNat := by
  rw [toNat_append_byte, natToBits_add_mul _ _ _ _ b.isLt]

/-- `READ64 (p)` reads the eight bytes at `p`, in stream order. -/
theorem read64_topBits {src : List (BitVec 8)} {p : Nat} (h : p + 8 ≤ src.length) :
    ∃ w, read64 src p = .ok w ∧ topBits w 64 = bytesToBits ((src.drop p).take 8) := by
  refine ⟨_, by simp (disch := omega) only [read64, readByte_ok]; rfl, ?_⟩
  have htake : (src.drop p).take 8 = [src[p], src[p + 1], src[p + 2], src[p + 3], src[p + 4],
      src[p + 5], src[p + 6], src[p + 7]] := by
    simp (disch := omega) only [List.drop_eq_getElem_cons, List.take_succ_cons, List.take_zero]
  rw [htake, topBits_full]
  simp only [natToBits_append_byte, bytesToBits_cons, bytesToBits_nil, List.append_assoc,
    List.append_nil]

/-- `READ64 (p)` is the word whose bits are the 64 stream bits from byte `p` on. -/
theorem read64_eq_of_bits {src : List (BitVec 8)} {p : Nat} {w : BitVec 64}
    (h : ((bytesToBits src).drop (8 * p)).take 64 = natToBits 64 w.toNat) :
    read64 src p = .ok w := by
  have hlen := congrArg List.length h
  simp only [List.length_take, List.length_drop, bytesToBits_length, natToBits_length] at hlen
  obtain ⟨w', hw', htop⟩ := read64_topBits (by omega : p + 8 ≤ src.length)
  rw [bytesToBits_drop, bytesToBits_take _ 8, ← htop, topBits_full] at h
  have hnat := congrArg bitsToNat h
  rw [bitsToNat_natToBits, bitsToNat_natToBits, Nat.mod_eq_of_lt w'.isLt,
    Nat.mod_eq_of_lt w.isLt] at hnat
  rw [hw', BitVec.eq_of_toNat_eq hnat]

/-- The loop of the partial reload packs the `m = ⌈currBitsLeft / 8⌉` remaining bytes into
`bufferBack` below bit `shift + 8`, the first byte highest. -/
theorem reloadTail_ok (src : List (BitVec 8)) :
    ∀ (m fuel : Nat) (acc : BitVec 64) (shift : Int) (currByte : Nat) (currBitsLeft : Int),
      m ≤ fuel → currBitsLeft ≤ 8 * m → 8 * m < currBitsLeft + 8 → 8 * m ≤ shift + 8 →
      shift ≤ 56 → acc.toNat % 2 ^ (shift + 8).toNat = 0 → currByte + m ≤ src.length →
      ∃ acc', reloadTail src fuel acc shift currByte currBitsLeft
          = .ok (acc', currByte + m, currBitsLeft - 8 * m) ∧
        acc'.toNat = acc.toNat + bitsToNat (bytesToBits ((src.drop currByte).take m))
          * 2 ^ ((shift + 8).toNat - 8 * m) := by
  intro m
  induction m with
  | zero =>
    intro fuel acc shift currByte currBitsLeft _ hle _ _ _ _ _
    refine ⟨acc, ?_, by simp⟩
    unfold reloadTail
    rw [if_neg (by omega)]
    simp [pure, Except.pure]
  | succ m ih =>
    intro fuel acc shift currByte currBitsLeft hfuel hle hlt hshift hshift64 hacc hbytes
    obtain ⟨fuel, rfl⟩ : ∃ f, fuel = f + 1 := ⟨fuel - 1, by omega⟩
    obtain ⟨s, rfl⟩ : ∃ s : Nat, shift = s := ⟨shift.toNat, by omega⟩
    have hcb : currByte < src.length := by omega
    have hacc8 : acc.toNat % 2 ^ (s + 8) = 0 := by
      rwa [show ((s : Int) + 8).toNat = s + 8 by omega] at hacc
    set b := src[currByte]
    have hbv : (b.setWidth 64 <<< s).toNat = b.toNat * 2 ^ s := by
      rw [BitVec.toNat_shiftLeft, BitVec.toNat_setWidth, Nat.shiftLeft_eq,
        Nat.mod_eq_of_lt (Nat.lt_of_lt_of_le b.isLt (Nat.pow_le_pow_right (by decide) (by decide)))]
      apply Nat.mod_eq_of_lt
      calc b.toNat * 2 ^ s < 2 ^ 8 * 2 ^ s := Nat.mul_lt_mul_of_pos_right b.isLt (Nat.two_pow_pos _)
        _ = 2 ^ (s + 8) := by rw [← Nat.pow_add, Nat.add_comm]
        _ ≤ 2 ^ 64 := Nat.pow_le_pow_right (by decide) (by omega)
    have hacc' : (acc ||| b.setWidth 64 <<< s).toNat = acc.toNat + b.toNat * 2 ^ s := by
      rw [toNat_or_of_lt (k := s + 8) hacc8, hbv]
      rw [hbv, Nat.pow_add, Nat.mul_comm (2 ^ s)]
      exact Nat.mul_lt_mul_of_pos_right b.isLt (Nat.two_pow_pos _)
    have hlow : (acc ||| b.setWidth 64 <<< s).toNat % 2 ^ ((s : Int) - 8 + 8).toNat = 0 := by
      rw [hacc', show ((s : Int) - 8 + 8).toNat = s by omega, Nat.add_mul_mod_self_right]
      exact Nat.mod_eq_zero_of_dvd (Nat.dvd_trans (Nat.pow_dvd_pow 2 (Nat.le_add_right s 8))
        (Nat.dvd_of_mod_eq_zero hacc8))
    obtain ⟨acc', hrun, hval⟩ := ih fuel (acc ||| b.setWidth 64 <<< s) (s - 8) (currByte + 1)
      (currBitsLeft - 8) (by omega) (by omega) (by omega) (by omega) (by omega) hlow (by omega)
    refine ⟨acc', ?_, ?_⟩
    · unfold reloadTail
      rw [if_pos (by omega)]
      simp only [readByte_ok hcb, shl_ok _ (Int.ofNat_nonneg s) (by omega), bind, Except.bind,
        Int.toNat_ofNat, hrun]
      congr 3 <;> omega
    · have hbytes' : bitsToNat (bytesToBits ((src.drop currByte).take (m + 1)))
          = b.toNat * 2 ^ (8 * m)
            + bitsToNat (bytesToBits ((src.drop (currByte + 1)).take m)) := by
        rw [List.drop_eq_getElem_cons hcb, List.take_succ_cons, bytesToBits_cons,
          bitsToNat_append, bitsToNat_byte, bytesToBits_length, List.length_take,
          List.length_drop, Nat.min_eq_left (by omega)]
      have hpow : 2 ^ s = 2 ^ (8 * m) * 2 ^ (s - 8 * m) := by
        rw [← Nat.pow_add]; congr 1; omega
      rw [hval, hacc', hbytes', show ((s : Int) - 8 + 8).toNat - 8 * m = s - 8 * m by omega,
        show ((s : Int) + 8).toNat - 8 * (m + 1) = s - 8 * m by omega, hpow]
      ring

/-- The whole-word reload takes the next eight bytes; the partial one the remaining bytes,
followed by zeros. Either way the reloaded word followed by what is left unread is what was
unread, up to zeros at the end of the stream. -/
theorem reloadBack_ok (src : List (BitVec 8)) (s : DecodeState) (hbits : 0 ≤ s.currBitsLeft)
    (hbytes : s.currByte + (s.currBitsLeft.toNat + 7) / 8 ≤ src.length) :
    ∃ w currByte currBitsLeft pad, reloadBack src s
        = .ok { s with bufferBack := w, bufferBackNumBits := 64, currByte, currBitsLeft } ∧
      0 ≤ currBitsLeft ∧ currByte + (currBitsLeft.toNat + 7) / 8 ≤ src.length ∧
      topBits w 64 ++ bytesToBits ((src.drop currByte).take ((currBitsLeft.toNat + 7) / 8))
        = bytesToBits ((src.drop s.currByte).take ((s.currBitsLeft.toNat + 7) / 8))
          ++ List.replicate pad false := by
  unfold reloadBack
  split_ifs with h64
  · obtain ⟨w, hw, hwbits⟩ := read64_topBits (by omega : s.currByte + 8 ≤ src.length)
    refine ⟨w, s.currByte + 8, s.currBitsLeft - 64, 0, by rw [hw]; rfl, by omega, by omega, ?_⟩
    rw [hwbits, List.replicate_zero, List.append_nil, ← bytesToBits_append,
      show (s.currBitsLeft.toNat + 7) / 8 = 8 + ((s.currBitsLeft - 64).toNat + 7) / 8 by omega,
      List.take_add, List.drop_drop]
  · set m := (s.currBitsLeft.toNat + 7) / 8
    obtain ⟨w, hrun, hw⟩ := reloadTail_ok src m 8 0 56 s.currByte s.currBitsLeft (by omega)
      (by omega) (by omega) (by omega) (by omega) (by simp) hbytes
    have hclamp : (if s.currBitsLeft - 8 * m < 0 then 0 else s.currBitsLeft - 8 * m) = 0 := by
      split_ifs <;> omega
    refine ⟨w, s.currByte + m, 0, 64 - 8 * m,
      by rw [hrun]; simp only [bind, Except.bind, hclamp]; rfl, le_rfl, by omega, ?_⟩
    have hlen : (bytesToBits ((src.drop s.currByte).take m)).length = 8 * m := by
      rw [bytesToBits_length, List.length_take, List.length_drop]; omega
    have hw' : w.toNat
        = 0 + bitsToNat (bytesToBits ((src.drop s.currByte).take m)) * 2 ^ (64 - 8 * m) := by
      rw [hw]; rfl
    have hsplit : natToBits 64 w.toNat = natToBits (8 * m)
        (bitsToNat (bytesToBits ((src.drop s.currByte).take m))) ++ natToBits (64 - 8 * m) 0 := by
      rw [hw', ← natToBits_add_mul _ _ _ _ (Nat.two_pow_pos _), Nat.add_sub_cancel' (by omega)]
    rw [topBits_full, hsplit,
      natToBits_of_mod_eq_zero (Nat.zero_mod _), ← hlen, natToBits_bitsToNat]
    simp

/-! ## The two register moves -/

theorem topUp_ok (s : DecodeState) {n : Int} (h0 : 0 < n) (h : n ≤ 64) :
    topUp s n = .ok { s with buffer := s.buffer ||| s.bufferBack >>> (64 - n).toNat } := by
  rw [topUp, shr_ok _ (by omega) (by omega)]
  rfl

/-- Taking `n ≤ bufferBackNumBits` bits off `bufferBack`: the bits it keeps are the ones after
the taken ones, still with zeros below them. -/
theorem dropBack_spec (s : DecodeState) {n : Int} (h0 : 0 ≤ n) (hn : n ≤ s.bufferBackNumBits)
    (hk : s.bufferBackNumBits ≤ 64) (hlow : LowZero s.bufferBack s.bufferBackNumBits.toNat) :
    ∃ y, dropBack s n = .ok { s with
        bufferBack := y, bufferBackNumBits := s.bufferBackNumBits - n } ∧
      topBits s.bufferBack n.toNat ++ topBits y (s.bufferBackNumBits - n).toNat
        = topBits s.bufferBack s.bufferBackNumBits.toNat ∧
      LowZero y (s.bufferBackNumBits - n).toNat := by
  unfold dropBack
  split_ifs with hle
  · refine ⟨0, rfl, ?_, Nat.zero_mod _⟩
    rw [show (s.bufferBackNumBits - n).toNat = 0 by omega, topBits_zero, List.append_nil,
      show n.toNat = s.bufferBackNumBits.toNat by omega]
  · refine ⟨s.bufferBack <<< n.toNat, by rw [shl_ok _ h0 (by omega)]; rfl, ?_, ?_⟩
    · rw [topBits_shiftLeft _ (by omega)]
      congr 1
      omega
    · rw [show (s.bufferBackNumBits - n).toNat = s.bufferBackNumBits.toNat - n.toNat by omega]
      exact lowZero_shiftLeft _ hlow (by omega) (by omega)

/-! ## The registers as a bit queue -/

/-- The bits of the bytes not loaded yet: the `⌈currBitsLeft / 8⌉` bytes at `currByte`. -/
def DecodeState.unread (src : List (BitVec 8)) (s : DecodeState) : List Bool :=
  bytesToBits ((src.drop s.currByte).take ((s.currBitsLeft.toNat + 7) / 8))

/-- The bits the registers hold or point to, in stream order. -/
def DecodeState.pending (src : List (BitVec 8)) (s : DecodeState) : List Bool :=
  topBits s.buffer s.bufferNumBits.toNat ++ topBits s.bufferBack s.bufferBackNumBits.toNat
    ++ s.unread src

/-- The bit queue: the pending bits, then zeros for ever. -/
def DecodeState.queue (src : List (BitVec 8)) (s : DecodeState) (i : Nat) : Bool :=
  (s.pending src).getD i false

/-- The register invariant `refill` relies on and restores. -/
structure RegistersOk (src : List (BitVec 8)) (s : DecodeState) : Prop where
  buffer_range : 0 ≤ s.bufferNumBits ∧ s.bufferNumBits ≤ 64
  buffer_low : LowZero s.buffer s.bufferNumBits.toNat
  back_range : 0 ≤ s.bufferBackNumBits ∧ s.bufferBackNumBits ≤ 64
  back_low : LowZero s.bufferBack s.bufferBackNumBits.toNat
  bits_left : 0 ≤ s.currBitsLeft
  bytes_present : s.currByte + (s.currBitsLeft.toNat + 7) / 8 ≤ src.length

/-- Zeros after the pending bits do not change the queue. -/
theorem queue_eq_of_pending {src : List (BitVec 8)} {s s' : DecodeState} (pad : Nat)
    (h : s'.pending src = s.pending src ++ List.replicate pad false) :
    s'.queue src = s.queue src := by
  funext i
  unfold DecodeState.queue
  rw [h]
  by_cases hi : i < (s.pending src).length
  · exact List.getD_append _ _ _ _ hi
  · rw [List.getD_append_right _ _ _ _ (by omega), List.getD_eq_getElem?_getD,
      List.getElem?_getD_replicate_default_eq, List.getD_eq_default _ _ (by omega)]

/-- `decode`'s first fill on a payload of at least 16 bytes: `buffer` and `bufferBack` full
with its first two words, the cursor after them, `numSrcBits - 128` bits left and the output
as given. -/
theorem initialState_words (src : List (BitVec 8)) (numSrcBits : Int) (dst : Nat → BitVec 16)
    (hlen : 16 ≤ src.length) :
    ∃ s, initialState src numSrcBits dst = .ok s ∧
      topBits s.buffer 64 = bytesToBits (src.take 8) ∧ s.bufferNumBits = 64 ∧
      topBits s.bufferBack 64 = bytesToBits ((src.drop 8).take 8) ∧ s.bufferBackNumBits = 64 ∧
      s.currByte = 16 ∧ s.currBitsLeft = numSrcBits - 128 ∧ s.dstIdx = 0 ∧ s.dst = dst := by
  obtain ⟨w0, h0, hw0⟩ := read64_topBits (p := 0) (by omega : 0 + 8 ≤ src.length)
  obtain ⟨w1, h1, hw1⟩ := read64_topBits (p := 8) (by omega : 8 + 8 ≤ src.length)
  exact ⟨{ buffer := w0, bufferNumBits := 64, bufferBack := w1, bufferBackNumBits := 64
           currByte := 16, currBitsLeft := numSrcBits - 128, dstIdx := 0, dst },
    by simp only [initialState, h0, h1, bind, Except.bind]; rfl, hw0, rfl, hw1, rfl, rfl, rfl, rfl,
    rfl⟩

/-- Registers full with the payload's first two words, the cursor after them and
`numSrcBits - 128` bits left, satisfy `RegistersOk` and queue the payload's first
`⌈numSrcBits / 8⌉` bytes. -/
theorem firstFill_regs {src : List (BitVec 8)} {numSrcBits : Int} (hbits : 128 ≤ numSrcBits)
    (hlen : (numSrcBits.toNat + 7) / 8 ≤ src.length) {s : DecodeState}
    (hw0 : topBits s.buffer 64 = bytesToBits (src.take 8)) (hn0 : s.bufferNumBits = 64)
    (hw1 : topBits s.bufferBack 64 = bytesToBits ((src.drop 8).take 8))
    (hn1 : s.bufferBackNumBits = 64) (hcur : s.currByte = 16)
    (hleft : s.currBitsLeft = numSrcBits - 128) :
    RegistersOk src s ∧ s.pending src = bytesToBits (src.take ((numSrcBits.toNat + 7) / 8)) := by
  have h64 : (64 : Int).toNat = 64 := rfl
  refine ⟨⟨by omega, by rw [hn0]; exact lowZero_full _, by omega, by rw [hn1]; exact lowZero_full _,
    by omega, by rw [hcur, hleft]; omega⟩, ?_⟩
  simp only [DecodeState.pending, DecodeState.unread, hn0, hn1, hcur, hleft, h64, hw0, hw1,
    ← bytesToBits_append]
  rw [show (numSrcBits.toNat + 7) / 8 = 8 + (8 + ((numSrcBits - 128).toNat + 7) / 8) by omega,
    List.take_add, List.take_add, List.drop_drop, List.append_assoc]

/-- `decode`'s first fill, from a payload of at least `⌈numSrcBits / 8⌉` bytes, reads inside
the payload: `buffer` and `bufferBack` hold its first two words and count 64 bits each, the
cursor is at byte 16 with `numSrcBits - 128` bits left, the output is as given, the registers
satisfy `RegistersOk`, and the bits they stand for are the payload's, in order. -/
theorem initialState_pending (src : List (BitVec 8)) (numSrcBits : Int) (dst : Nat → BitVec 16)
    (hbits : 128 ≤ numSrcBits) (hlen : (numSrcBits.toNat + 7) / 8 ≤ src.length) :
    ∃ s, initialState src numSrcBits dst = .ok s ∧
      topBits s.buffer 64 = bytesToBits (src.take 8) ∧ s.bufferNumBits = 64 ∧
      topBits s.bufferBack 64 = bytesToBits ((src.drop 8).take 8) ∧ s.bufferBackNumBits = 64 ∧
      s.currByte = 16 ∧ s.currBitsLeft = numSrcBits - 128 ∧ s.dstIdx = 0 ∧ s.dst = dst ∧
      RegistersOk src s ∧ s.pending src = bytesToBits (src.take ((numSrcBits.toNat + 7) / 8)) := by
  obtain ⟨s, h, hw0, hn0, hw1, hn1, hcur, hleft, hidx, hdst⟩ :=
    initialState_words src numSrcBits dst (by omega)
  exact ⟨s, h, hw0, hn0, hw1, hn1, hcur, hleft, hidx, hdst,
    firstFill_regs hbits hlen hw0 hn0 hw1 hn1 hcur hleft⟩

/-- The smallest payload `decode` accepts: two zero words. -/
theorem initialState_pending_zeroWords :
    (128 : Int) ≤ 128 ∧ ((128 : Int).toNat + 7) / 8 ≤ (List.replicate 16 (0 : BitVec 8)).length ∧
      ∃ s, initialState (List.replicate 16 0) 128 (fun _ => 0) = .ok s ∧
        topBits s.buffer 64 = bytesToBits ((List.replicate 16 (0 : BitVec 8)).take 8) ∧
        s.bufferNumBits = 64 ∧
        topBits s.bufferBack 64
          = bytesToBits (((List.replicate 16 (0 : BitVec 8)).drop 8).take 8) ∧
        s.bufferBackNumBits = 64 ∧ s.currByte = 16 ∧ s.currBitsLeft = 128 - 128 ∧ s.dstIdx = 0 ∧
        s.dst = (fun _ => 0) ∧ RegistersOk (List.replicate 16 0) s ∧
        s.pending (List.replicate 16 0)
          = bytesToBits ((List.replicate 16 (0 : BitVec 8)).take (((128 : Int).toNat + 7) / 8)) :=
  ⟨by decide, by decide, initialState_pending _ _ _ (by decide) (by decide)⟩

/-- One call of `refill (…, 64 - bufferNumBits, …)`, in both of its branches. -/
theorem refill_pending (src : List (BitVec 8)) (s : DecodeState) (hs : RegistersOk src s)
    (hnum : s.bufferNumBits < 64) :
    ∃ s' pad, refill src (64 - s.bufferNumBits) s = .ok s' ∧
      RegistersOk src { s' with bufferNumBits := 64 } ∧
      DecodeState.pending src { s' with bufferNumBits := 64 }
        = s.pending src ++ List.replicate pad false := by
  obtain ⟨⟨hb0, -⟩, hblow, ⟨hk0, hk64⟩, hklow, hbits, hbytes⟩ := hs
  obtain ⟨b, hb⟩ : ∃ b : Nat, s.bufferNumBits = b := ⟨_, (Int.toNat_of_nonneg hb0).symm⟩
  obtain ⟨k, hk⟩ : ∃ k : Nat, s.bufferBackNumBits = k := ⟨_, (Int.toNat_of_nonneg hk0).symm⟩
  rw [hb, Int.toNat_ofNat] at hblow
  rw [hk, Int.toNat_ofNat] at hklow
  -- `buffer |= bufferBack >> (64 - numBits)` puts the top of `bufferBack` below `b` bits
  have hbuf : ∀ j, b + j ≤ 64 → topBits (s.buffer ||| s.bufferBack >>> b) (b + j)
      = topBits s.buffer b ++ topBits s.bufferBack j :=
    fun j hj => topBits_or_shiftRight _ hj hblow
  have hshift : (64 - (64 - s.bufferNumBits)).toNat = b := by omega
  simp only [refill, topUp_ok s (by omega : 0 < 64 - s.bufferNumBits) (by omega), hshift, bind,
    Except.bind]
  split_ifs with hlt
  · -- `bufferBack` runs dry: reload it, top `buffer` up from the new word
    obtain ⟨w, cb, cbl, pad, hrel, hcbl, hcb, hw⟩ := reloadBack_ok src
      { s with buffer := s.buffer ||| s.bufferBack >>> b } hbits hbytes
    have hn' : (64 - (64 - s.bufferNumBits - s.bufferBackNumBits)).toNat = b + k := by omega
    obtain ⟨y, hdrop, hy, hylow⟩ := dropBack_spec
      { s with
        buffer := (s.buffer ||| s.bufferBack >>> b) ||| w >>> (b + k), bufferBack := w
        bufferBackNumBits := 64, currByte := cb, currBitsLeft := cbl }
      (n := 64 - s.bufferNumBits - s.bufferBackNumBits) (by omega) (by simp; omega) le_rfl
      (lowZero_full w)
    refine ⟨{ s with
        buffer := (s.buffer ||| s.bufferBack >>> b) ||| w >>> (b + k), bufferBack := y
        bufferBackNumBits := 64 - (64 - s.bufferNumBits - s.bufferBackNumBits)
        currByte := cb, currBitsLeft := cbl }, pad, ?run, ?inv, ?queue⟩
    case run =>
      rw [hrel]
      simp only [topUp_ok _ (by omega : 0 < 64 - s.bufferNumBits - s.bufferBackNumBits) (by omega),
        hn', hdrop]
    case inv => exact ⟨by simp, lowZero_full _, by simp; omega, hylow, hcbl, hcb⟩
    case queue =>
      have hmid := topBits_or_shiftRight w (x := s.buffer ||| s.bufferBack >>> b) (k := b + k)
        (j := 64 - (b + k)) (by omega) (lowZero_or_shiftRight (by omega) hblow hklow)
      rw [Nat.add_sub_cancel' (by omega), hbuf k (by omega)] at hmid
      simp only [DecodeState.pending, DecodeState.unread, hb, hk, Int.toNat_ofNat] at hy hw ⊢
      rw [show Int.toNat 64 = 64 from rfl, show (64 - (b : Int) - k).toNat = 64 - (b + k) by omega]
        at hy
      rw [show Int.toNat 64 = 64 from rfl, hmid]
      simp only [List.append_assoc]
      rw [← List.append_assoc (topBits w _), hy, hw]
  · -- enough bits in `bufferBack`: take them
    obtain ⟨y, hdrop, hy, hylow⟩ := dropBack_spec
      { s with buffer := s.buffer ||| s.bufferBack >>> b } (n := 64 - s.bufferNumBits) (by omega)
      (by simp; omega) (by simp; omega) (by simpa [hk] using hklow)
    refine ⟨_, 0, hdrop, ⟨by simp, lowZero_full _, by simp; omega, hylow, hbits, hbytes⟩,
      ?_⟩
    have htop := hbuf (64 - b) (by omega)
    rw [Nat.add_sub_cancel' (by omega)] at htop
    simp only [DecodeState.pending, DecodeState.unread, hb, hk, Int.toNat_ofNat] at hy ⊢
    rw [show (64 - (b : Int)).toNat = 64 - b by omega] at hy
    rw [show Int.toNat 64 = 64 from rfl, htop, List.replicate_zero, List.append_nil,
      List.append_assoc (topBits s.buffer b), hy]

/-- A call site's `refill (…, 64 - bufferNumBits, …)`: from registers with fewer than 64 valid
bits in `buffer`, it makes no shift outside `[0, 63]` and no read past `src`, leaves 64 valid
bits in `buffer` with the register invariant restored, and does not change the bit queue. -/
theorem refill_queue (src : List (BitVec 8)) (s : DecodeState) (hs : RegistersOk src s)
    (hnum : s.bufferNumBits < 64) :
    ∃ s', refill src (64 - s.bufferNumBits) s = .ok s' ∧
      RegistersOk src { s' with bufferNumBits := 64 } ∧
      DecodeState.queue src { s' with bufferNumBits := 64 } = DecodeState.queue src s := by
  obtain ⟨s', pad, hrun, hinv, hpend⟩ := refill_pending src s hs hnum
  exact ⟨s', hrun, hinv, queue_eq_of_pending pad hpend⟩

/-- Registers with 4 valid bits in `buffer`, `bufferBack` empty and the last two bytes of the
stream unread: `refill` takes the partial-reload path. -/
def tailRegisters : DecodeState where
  buffer := 0xF000000000000000
  bufferNumBits := 4
  bufferBack := 0
  bufferBackNumBits := 0
  currByte := 0
  currBitsLeft := 16
  dstIdx := 0
  dst := fun _ => 0

theorem refill_queue_tailRegisters :
    RegistersOk [0xAB, 0xCD] tailRegisters ∧ tailRegisters.bufferNumBits < 64 ∧
      ∃ s', refill [0xAB, 0xCD] (64 - tailRegisters.bufferNumBits) tailRegisters = .ok s' ∧
        RegistersOk [0xAB, 0xCD] { s' with bufferNumBits := 64 } ∧
        DecodeState.queue [0xAB, 0xCD] { s' with bufferNumBits := 64 }
          = DecodeState.queue [0xAB, 0xCD] tailRegisters :=
  have hs : RegistersOk [0xAB, 0xCD] tailRegisters :=
    ⟨by decide, rfl, by decide, rfl, by decide, by decide⟩
  ⟨hs, by decide, refill_queue _ _ hs (by decide)⟩

end ExrCodecs.FastHuf
