import ExrCodecs.FastHuf.Refill
import ExrCodecs.FastHuf.Tables

/-!
# `decode` makes no undefined move

From registers that satisfy `RegistersOk` with at least `TABLE_LOOKUP_BITS` valid bits in
`buffer` (`LoopInv`), one round of `decode`'s loop, on tables that satisfy `DecoderOk`, shifts
only by amounts in `[0, 63]`, indexes every table and `dst` in range, reads no byte past the
payload, and either throws one of the source's own exceptions or writes at least one symbol
and restores `LoopInv` (`step_safe`). The loop therefore runs at most `numDstElems` rounds,
and `decode` as a whole returns no fault (`decode_safe`).

The round is taken apart along the source: the symbol lookup, by the acceleration table or
by the search (`lookupSymbol_safe`, `searchLength_safe`), the shift of the code out of
`buffer` (`RegistersOk.consume`), the literal or the run (`repeatPrevious_safe`,
`copyRun_safe`), and the closing refill (`refillBuffer_safe`). A refill keeps the output
(`refill_frame`), and each part says what it does to `dstIdx`.
-/

namespace ExrCodecs.FastHuf

variable {src : List (BitVec 8)} {s s' : DecodeState}

/-! ## What `refill` leaves alone -/

/-- What `decode` has written: the output buffer and the index of the next symbol. -/
def DecodeState.out (s : DecodeState) : (Nat → BitVec 16) × Nat := (s.dst, s.dstIdx)

theorem topUp_frame {n : Int} (h : topUp s n = .ok s') : s'.out = s.out := by
  obtain ⟨_, -, h⟩ := bind_eq_ok.1 h
  cases h
  rfl

theorem dropBack_frame {n : Int} (h : dropBack s n = .ok s') : s'.out = s.out := by
  unfold dropBack at h
  split_ifs at h <;> obtain ⟨_, -, h⟩ := bind_eq_ok.1 h <;> cases h <;> rfl

theorem reloadBack_frame (h : reloadBack src s = .ok s') : s'.out = s.out := by
  unfold reloadBack at h
  split_ifs at h <;> obtain ⟨_, -, h⟩ := bind_eq_ok.1 h <;> cases h <;> rfl

/-- `refill` moves bits between the registers and the stream and touches no output. -/
theorem refill_frame {n : Int} (h : refill src n s = .ok s') : s'.out = s.out := by
  obtain ⟨s1, h1, h⟩ := bind_eq_ok.1 h
  split_ifs at h
  · obtain ⟨s2, h2, h⟩ := bind_eq_ok.1 h
    obtain ⟨s3, h3, h⟩ := bind_eq_ok.1 h
    rw [dropBack_frame h, topUp_frame h3, reloadBack_frame h2, topUp_frame h1]
  · rw [dropBack_frame h, topUp_frame h1]

theorem refillBuffer_frame (h : refillBuffer src s = .ok s') : s'.out = s.out := by
  obtain ⟨s1, h1, h⟩ := bind_eq_ok.1 h
  cases h
  rw [← refill_frame h1]
  rfl

/-- A call site's refill: from valid registers with fewer than 64 bits in `buffer`, it
restores the invariant with a full `buffer` and keeps `dstIdx`. -/
theorem refillBuffer_safe (hs : RegistersOk src s) (h : s.bufferNumBits < 64) :
    Safe (refillBuffer src s) fun s' =>
      RegistersOk src s' ∧ s'.bufferNumBits = 64 ∧ s'.dstIdx = s.dstIdx := by
  obtain ⟨s', -, hrun, hinv, -⟩ := refill_pending src s hs h
  rw [refillBuffer, hrun, ok_bind]
  exact Safe.pure ⟨hinv, rfl, congrArg Prod.snd (refill_frame hrun)⟩

/-! ## Shifting bits out of `buffer` -/

/-- `buffer <<= n; bufferNumBits -= n` for `n` at most the valid bits keeps the invariant. -/
theorem RegistersOk.consume (hs : RegistersOk src s) {n : Nat} (hn : (n : Int) ≤ s.bufferNumBits) :
    RegistersOk src { s with buffer := s.buffer <<< n, bufferNumBits := s.bufferNumBits - n } := by
  have h64 := hs.buffer_range.2
  refine ⟨⟨?_, ?_⟩, ?_, hs.back_range, hs.back_low, hs.bits_left, hs.bytes_present⟩ <;> dsimp only
  · omega
  · omega
  · rw [show (s.bufferNumBits - n).toNat = s.bufferNumBits.toNat - n by omega]
    exact lowZero_shiftLeft n hs.buffer_low (by omega) (by omega)

/-- Writing the output does not touch the registers. -/
theorem RegistersOk.output (hs : RegistersOk src s) (dst : Nat → BitVec 16) (dstIdx : Nat) :
    RegistersOk src { s with dst, dstIdx } :=
  ⟨hs.buffer_range, hs.buffer_low, hs.back_range, hs.back_low, hs.bits_left, hs.bytes_present⟩

/-- With fewer than 64 valid bits, the zeros below them make `buffer` differ from all-ones. -/
theorem ne_allOnes_of_lowZero {x : BitVec 64} {k : Nat} (hx : LowZero x k) (hk : k < 64) :
    x ≠ allOnes := by
  rintro rfl
  have h2 : 2 ∣ 2 ^ (64 - k) := dvd_pow_self 2 (by omega)
  have hmod := Nat.mod_mod_of_dvd (allOnes : BitVec 64).toNat h2
  rw [hx, Nat.zero_mod] at hmod
  exact absurd hmod (by decide)

/-! ## The symbol lookup -/

/-- The top `TABLE_LOOKUP_BITS` bits of a word index the acceleration tables in range. -/
theorem tableIdx_lt (x : BitVec 64) :
    ((x >>> (64 - TABLE_LOOKUP_BITS)).toNat : Int) < (2 ^ TABLE_LOOKUP_BITS : Nat) := by
  have := x.isLt
  rw [BitVec.toNat_ushiftRight, Nat.shiftRight_eq_div_pow]
  simp only [TABLE_LOOKUP_BITS] at *
  omega

section lookup

variable {d : FastHufDecoder} (hd : DecoderOk d)
include hd

/-- The search for a code longer than `TABLE_LOOKUP_BITS` reads `_ljBase` in range and runs
out of neither fuel nor table: `_ljBase[maxCodeLength] = 0` ends it by
`maxCodeLength`, or the first test does when no code is that long. -/
theorem searchLength_safe (buffer : BitVec 64) :
    ∀ fuel codeLen, TABLE_LOOKUP_BITS < codeLen →
      (codeLen ≤ d.maxCodeLength ∨ codeLen = TABLE_LOOKUP_BITS + 1) →
      MAX_CODE_LEN < fuel + codeLen →
      Safe (searchLength d buffer fuel codeLen) fun c => TABLE_LOOKUP_BITS < c
  | 0, codeLen, _, hc, hfuel => by
    have := hd.max_le
    simp only [MAX_CODE_LEN, TABLE_LOOKUP_BITS] at *
    omega
  | fuel + 1, codeLen, h12, hc, hfuel => by
    have hmax := hd.max_le
    have h58 : codeLen < MAX_CODE_LEN + 1 := by
      simp only [MAX_CODE_LEN, TABLE_LOOKUP_BITS] at *
      omega
    rw [searchLength, index_ok _ (by omega) (by omega), ok_bind, Int.toNat_ofNat]
    split_ifs with hgo
    · refine searchLength_safe buffer fuel (codeLen + 1) (by omega) (.inl ?_) (by omega)
      by_contra hlast
      have hc : codeLen = d.maxCodeLength := by omega
      have hzero := hd.ljBase_max (by omega)
      rw [hc, hzero] at hgo
      exact absurd hgo.1 (by simp [BitVec.lt_def])
    · exact Safe.pure h12

/-- `decode`'s symbol lookup, from valid registers with at least `TABLE_LOOKUP_BITS` valid
bits: no fault, and a code length of at most `MAX_CODE_LEN` and at most the valid bits of
the registers it returns, which are valid and keep `dstIdx`. -/
theorem lookupSymbol_safe (hs : RegistersOk src s)
    (h12 : (TABLE_LOOKUP_BITS : Int) ≤ s.bufferNumBits) :
    Safe (lookupSymbol d src s) fun r =>
      RegistersOk src r.2.2 ∧ (r.1 : Int) ≤ r.2.2.bufferNumBits ∧ r.1 ≤ MAX_CODE_LEN ∧
        r.2.2.dstIdx = s.dstIdx := by
  unfold lookupSymbol
  by_cases hmin : d.tableMin ≤ s.buffer
  · -- the acceleration table
    have hidx := tableIdx_lt s.buffer
    rw [if_pos hmin]
    dsimp only
    rw [index_ok _ (by omega) hidx, ok_bind, index_ok _ (by omega) hidx, ok_bind, Int.toNat_ofNat]
    refine Safe.pure ⟨hs, ?_, hd.codeLen_le _, rfl⟩
    dsimp only
    have hle := hd.codeLen_le (s.buffer >>> (64 - TABLE_LOOKUP_BITS)).toNat
    rcases eq_or_lt_of_le hs.buffer_range.2 with h64 | h64
    · simp only [MAX_CODE_LEN] at hle
      omega
    · have hshort := hd.codeLen_short _ hmin (ne_allOnes_of_lowZero hs.buffer_low (by omega))
      simp only [TABLE_LOOKUP_BITS] at hshort h12 ⊢
      omega
  · -- the search, from a full `buffer`
    rw [if_neg hmin]
    refine Safe.ite_bind_pure (Q := fun s' =>
        RegistersOk src s' ∧ s'.bufferNumBits = 64 ∧ s'.dstIdx = s.dstIdx)
      (refillBuffer_safe hs) (fun hfull => ⟨hs, by have := hs.buffer_range.2; omega, rfl⟩) ?_
    rintro s' ⟨hs', h64, hidx⟩
    refine Safe.bind (searchLength_safe hd _ _ _ (by simp [TABLE_LOOKUP_BITS]) (.inr rfl)
      (by decide)) fun codeLen hlong => ?_
    have hmax := hd.max_le
    split_ifs with hgt
    · exact Safe.throw rfl
    have h58 : codeLen ≤ MAX_CODE_LEN := by omega
    simp only [MAX_CODE_LEN, TABLE_LOOKUP_BITS] at h58 hlong
    rw [index_ok _ (by omega) (by simp only [MAX_CODE_LEN]; omega), ok_bind,
      shr_ok _ (by omega) (by omega), ok_bind]
    dsimp only
    split_ifs with hid
    · rw [index_ok _ (by omega) (by exact_mod_cast hid), ok_bind]
      exact Safe.pure ⟨hs', by dsimp only; omega, by simp only [MAX_CODE_LEN]; omega, hidx⟩
    · exact Safe.throw rfl

end lookup

/-! ## Literals and runs -/

/-- The copy loop of a run reads `dst[dstIdx - 1]` and writes `dst[dstIdx … dstIdx + rleCount)`,
all in range when there is a previous symbol and the run fits. -/
theorem copyRun_safe {dst : Nat → BitVec 16} {numDstElems dstIdx rleCount : Nat}
    (h1 : 1 ≤ dstIdx) (hfit : dstIdx + rleCount ≤ numDstElems) :
    NoFault (copyRun dst numDstElems dstIdx rleCount) := by
  rw [copyRun, intCounter_eq, List.foldlM_map]
  refine Safe.foldlM (fun a i hi _ => ?_) dst trivial
  rw [List.mem_range] at hi
  rw [index_ok _ (by omega) (by omega), ok_bind, write_ok _ _ (by omega) (by omega)]
  exact Safe.pure trivial

/-- The run branch: from valid registers, no fault, and when it writes, it writes at least one
symbol, stays within the output and leaves valid registers. -/
theorem repeatPrevious_safe {numDstElems : Nat} (hs : RegistersOk src s) :
    Safe (repeatPrevious src numDstElems s) fun s' =>
      RegistersOk src s' ∧ s.dstIdx < s'.dstIdx ∧ s'.dstIdx ≤ numDstElems := by
  unfold repeatPrevious
  refine Safe.ite_bind_pure (Q := fun s' =>
      RegistersOk src s' ∧ 8 ≤ s'.bufferNumBits ∧ s'.dstIdx = s.dstIdx)
    (fun h8 => (refillBuffer_safe hs (by omega)).mono fun s' ⟨hr, h64, hidx⟩ => ⟨hr, by omega, hidx⟩)
    (fun h8 => ⟨hs, by omega, rfl⟩) ?_
  rintro s' ⟨hs', h8, hidx⟩
  dsimp only
  split_ifs with hfirst hover hzero
  · exact Safe.throw rfl
  · exact Safe.throw rfl
  · exact Safe.throw rfl
  refine Safe.bind (copyRun_safe (by omega) (by omega)) fun dst _ => ?_
  rw [shl_ok _ (by decide) (by decide), ok_bind]
  exact Safe.pure ⟨(hs'.consume (n := 8) (by omega)).output _ _, by simp only; omega,
    by simp only; omega⟩

/-! ## One round, and the loop -/

/-- The invariant at the head of `decode`'s loop: valid registers, at least
`TABLE_LOOKUP_BITS` bits in `buffer`, and `dstIdx` within the output. -/
structure LoopInv (src : List (BitVec 8)) (numDstElems : Nat) (s : DecodeState) : Prop where
  registers : RegistersOk src s
  lookahead : (TABLE_LOOKUP_BITS : Int) ≤ s.bufferNumBits
  dstIdx_le : s.dstIdx ≤ numDstElems

section loop

variable {d : FastHufDecoder} (hd : DecoderOk d) {numDstElems : Nat}
include hd

/-- One round of the loop, from its invariant with output left to write: no fault, and when
it does not throw, it writes at least one symbol and restores the invariant. -/
theorem step_safe (hs : LoopInv src numDstElems s) (hlt : s.dstIdx < numDstElems) :
    Safe (step d src numDstElems s) fun s' => LoopInv src numDstElems s' ∧ s.dstIdx < s'.dstIdx := by
  unfold step
  refine Safe.bind (lookupSymbol_safe hd hs.registers hs.lookahead) ?_
  rintro ⟨codeLen, symbol, s1⟩ ⟨hs1, hlen, h58, hidx1⟩
  dsimp only at hs1 hlen h58 hidx1 ⊢
  simp only [MAX_CODE_LEN] at h58
  rw [shl_ok _ (by omega) (by omega), ok_bind, Int.toNat_ofNat]
  have hs2 := hs1.consume hlen
  -- the closing refill, after either branch
  have hclose : ∀ s3, RegistersOk src s3 → s.dstIdx < s3.dstIdx → s3.dstIdx ≤ numDstElems →
      Safe (if s3.bufferNumBits < TABLE_LOOKUP_BITS then refillBuffer src s3 else pure s3)
        fun s' => LoopInv src numDstElems s' ∧ s.dstIdx < s'.dstIdx := fun s3 hs3 hinc hle =>
    Safe.ite
      (fun hfew => (refillBuffer_safe hs3 (by simp only [TABLE_LOOKUP_BITS] at hfew; omega)).mono
        fun s4 ⟨hr, h64, hidx⟩ => ⟨⟨hr, by simp only [TABLE_LOOKUP_BITS]; omega, by omega⟩, by omega⟩)
      (fun hfew => Safe.pure ⟨⟨hs3, by omega, hle⟩, hinc⟩)
  split_ifs
  · exact Safe.bind (repeatPrevious_safe hs2) fun s3 ⟨hr, hinc, hle⟩ =>
      hclose s3 hr (hidx1 ▸ hinc) hle
  · rw [write_ok _ _ (by omega) (by omega), ok_bind, pure_bind]
    exact hclose _ (hs2.output _ _) (by simp only; omega) (by simp only; omega)

/-- The loop, with at least as much fuel as output left to write: every round writes, so it
never runs out, and it ends with the invariant. -/
theorem decodeLoop_safe :
    ∀ fuel s, LoopInv src numDstElems s → numDstElems - s.dstIdx ≤ fuel →
      Safe (decodeLoop d src numDstElems fuel s) (LoopInv src numDstElems)
  | 0, s, hs, hfuel => by
    rw [decodeLoop, if_neg (by omega)]
    exact Safe.pure hs
  | fuel + 1, s, hs, hfuel => by
    rw [decodeLoop]
    split_ifs with hlt
    · exact Safe.bind (step_safe hd hs hlt) fun s' ⟨hs', hinc⟩ =>
        decodeLoop_safe fuel s' hs' (by omega)
    · exact Safe.pure hs

end loop

/-! ## `decode` -/

/-- `decode`'s first fill, from a payload of at least `⌈numSrcBits / 8⌉ ≥ 16` bytes, meets the
loop invariant. -/
theorem initialState_loopInv {numSrcBits : Int} {numDstElems : Nat} (dst : Nat → BitVec 16)
    (hbits : 128 ≤ numSrcBits) (hlen : (numSrcBits.toNat + 7) / 8 ≤ src.length) :
    Safe (initialState src numSrcBits dst) (LoopInv src numDstElems) := by
  obtain ⟨w0, h0, -⟩ := read64_topBits (by omega : 0 + 8 ≤ src.length)
  obtain ⟨w1, h1, -⟩ := read64_topBits (by omega : 8 + 8 ≤ src.length)
  rw [initialState, h0, ok_bind, h1, ok_bind]
  exact Safe.pure ⟨⟨by simp, lowZero_full _, by simp, lowZero_full _, by simp; omega,
    by simp; omega⟩, by simp [TABLE_LOOKUP_BITS], Nat.zero_le _⟩

/-- `decode` with a code-book the constructor accepts, from any table bytes, and a payload of
`⌈numSrcBits / 8⌉` bytes: the first fill meets the loop invariant; a round from the invariant
with output left to write throws one of the source's exceptions or writes at least one
symbol and restores the invariant (valid registers, at least `TABLE_LOOKUP_BITS` bits in
`buffer`, `dstIdx ≤ numDstElems`); and `decode` returns no fault: it reads no byte past the
payload, indexes `dst` and every table in range, shifts only by amounts in `[0, 63]` and runs
at most `numDstElems` rounds. -/
theorem decode_safe {table : List (BitVec 8)} {numBytes minSymbol maxSymbol : Nat}
    {rleSymbol : Int} {d : FastHufDecoder} {consumed : Nat}
    (hd : FastHufDecoder.new table numBytes minSymbol maxSymbol rleSymbol = .ok (d, consumed))
    (src : List (BitVec 8)) (numSrcBits : Int) (hbits : 128 ≤ numSrcBits)
    (hlen : src.length = (numSrcBits.toNat + 7) / 8) (dst : Nat → BitVec 16)
    (numDstElems : Nat) :
    Safe (initialState src numSrcBits dst) (LoopInv src numDstElems) ∧
      (∀ s, LoopInv src numDstElems s → s.dstIdx < numDstElems →
        Safe (step d src numDstElems s) fun s' =>
          LoopInv src numDstElems s' ∧ s.dstIdx < s'.dstIdx) ∧
      NoFault (d.decode src numSrcBits dst numDstElems) := by
  have hok := new_decoderOk hd
  have hinit : Safe (initialState src numSrcBits dst) (LoopInv src numDstElems) :=
    initialState_loopInv dst hbits hlen.ge
  refine ⟨hinit, fun s hs hlt => step_safe hok hs hlt, ?_⟩
  unfold FastHufDecoder.decode
  refine Safe.ite_bind_pure (Q := fun _ => True) (fun _ => Safe.throw rfl) (fun _ => trivial)
    fun _ _ => Safe.bind hinit fun s hs => ?_
  refine Safe.bind (decodeLoop_safe hok _ s hs (Nat.sub_le _ _)) fun s' _ => ?_
  exact Safe.ite_bind_pure (Q := fun _ => True) (fun _ => Safe.throw rfl) (fun _ => trivial)
    fun _ _ => Safe.pure trivial

end ExrCodecs.FastHuf
