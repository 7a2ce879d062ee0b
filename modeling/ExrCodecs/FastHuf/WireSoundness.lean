import ExrCodecs.FastHuf.Wire

/-!
# What the code-length scan accepts

`scan_encode` reads the wire format forwards: every packed token stream is read back. This
file proves the converse by following the scan loop: a table the scan accepts starts with the
bits of a stream of valid tokens covering exactly `minSymbol … maxSymbol`, and what the scan
recorded is what that stream says.

> `scanLoop_round`: a round of the loop that does not fail reads one valid token. Every 6-bit
> code is a token (a literal `0 … 58`, a short run `59 … 62`, or `63` and eight more bits);
> the only rounds that fail are those past `numBytes` and the runs past `maxSymbol`.

> `scanLoop_sound`: by induction on the fuel, a run of the loop that returns reads a stream.

> `encode_prefix_of_scan`: the scan of a table of at least `numBytes` bytes returns only on
> a table that starts with a stream covering `minSymbol … maxSymbol`; it records the stream's
> non-zero lengths, sets the counts and the shortest and longest length from them, and stops
> at the stream's last byte, which is at most `numBytes`.
-/

namespace ExrCodecs.FastHuf

variable {table : List (BitVec 8)} {numBytes maxSymbol : Nat}

/-- Two adjacent windows of the table's bits make one. -/
theorem window_append_of {L a b : List Bool} {p : Nat} (ha : (L.drop p).take a.length = a)
    (hb : (L.drop (p + a.length)).take b.length = b) : (L.drop p).take (a ++ b).length = a ++ b := by
  rw [List.length_append, List.take_add, ha, List.drop_drop, hb]

/-- A read of `n` table bits inside the table: the `n`-bit binary of the number it reads as
is the window itself. -/
theorem natToBits_window {k n : Nat} (h : k + n ≤ 8 * table.length) :
    natToBits n (bitsToNat (((bytesToBits table).drop k).take n))
      = ((bytesToBits table).drop k).take n ∧
      bitsToNat (((bytesToBits table).drop k).take n) < 2 ^ n := by
  have hlen : (((bytesToBits table).drop k).take n).length = n := by
    simp only [List.length_take, List.length_drop, bytesToBits_length]
    omega
  have hbits := natToBits_bitsToNat (((bytesToBits table).drop k).take n)
  have hlt := bitsToNat_lt (((bytesToBits table).drop k).take n)
  rw [hlen] at hbits hlt
  exact ⟨hbits, hlt⟩

/-- A round of the scan loop that does not fail, on a table of at least `numBytes` bytes,
reads one valid token that stays inside `maxSymbol`: the reader's next bits are the token's,
a literal with a non-zero length is recorded, and the cursor stays at most `numBytes`. -/
theorem scanLoop_round (hbytes : numBytes ≤ table.length) {fuel symbol : Nat} {s r : ScanState}
    (hinv : ReaderInv table s.currBits s.currBitCount s.currByte) (hsym : symbol ≤ maxSymbol)
    (h : scanLoop table numBytes maxSymbol (fuel + 1) symbol s = .ok r) :
    ∃ (t : LengthToken) (s' : ScanState),
      scanLoop table numBytes maxSymbol fuel (symbol + t.expand.length) s' = .ok r ∧
      t.Valid ∧ symbol + t.expand.length ≤ maxSymbol + 1 ∧
      ((bytesToBits table).drop s.bitPos).take t.bits.length = t.bits ∧
      s'.symbols = s.symbols ++ recorded symbol t.expand ∧
      ReaderInv table s'.currBits s'.currBitCount s'.currByte ∧
      s'.bitPos = s.bitPos + t.bits.length ∧ s'.currByte ≤ numBytes := by
  have hc7 := hinv.count_le
  have hcp := hinv.count_le_read
  rw [scanLoop, if_pos hsym] at h
  obtain ⟨hend, h⟩ := ite_throw_eq_ok h
  obtain ⟨buf, c, p, hrb, hinv1, hpos1, hp1⟩ :=
    readBits_spec (n := 6) (by decide) (by decide) hinv (by omega)
  have hp1' : p ≤ s.currByte + 1 := by split_ifs at hp1 <;> omega
  rw [hrb, ok_bind] at h
  dsimp only at h
  obtain ⟨hw, hv⟩ := @natToBits_window table (8 * s.currByte - s.currBitCount.toNat) 6 (by omega)
  set v := bitsToNat (((bytesToBits table).drop (8 * s.currByte - s.currBitCount.toNat)).take 6)
  have hc7' := hinv1.count_le
  have hcp' := hinv1.count_le_read
  unfold ScanState.bitPos
  by_cases h63 : v = LONG_ZEROCODE_RUN
  · -- `63`, then the run less six in eight bits
    rw [if_pos h63] at h
    obtain ⟨hend2, h⟩ := ite_throw_eq_ok h
    obtain ⟨buf', c', p', hrb', hinv2, hpos2, hp2⟩ :=
      readBits_spec (n := 8) (by decide) le_rfl hinv1 (by omega)
    have hp2' : p' ≤ p + 1 := by split_ifs at hp2 <;> omega
    rw [hrb', ok_bind] at h
    dsimp only at h
    obtain ⟨hw', hr8⟩ := @natToBits_window table (8 * p - c.toNat) 8 (by omega)
    set r8 := bitsToNat (((bytesToBits table).drop (8 * p - c.toNat)).take 8)
    obtain ⟨hover, h⟩ := ite_throw_eq_ok h
    rw [show r8 + SHORTEST_LONG_RUN = (LengthToken.longRun (r8 + SHORTEST_LONG_RUN)).expand.length
      from (List.length_replicate _ _).symm] at h
    refine ⟨_, _, h, ⟨Nat.le_add_left _ _, by simp only [SHORTEST_LONG_RUN]; omega⟩,
      by simpa [LengthToken.expand] using Nat.not_lt.1 hover, ?_,
      by simp [LengthToken.expand, recorded_replicate_zero], hinv2, ?_, show p' ≤ numBytes by omega⟩
    · rw [LengthToken.bits, LengthToken.code, LengthToken.tail, Nat.add_sub_cancel]
      refine window_append_of ?_ ?_
      · rw [natToBits_length, ← h63]
        exact hw.symm
      · rw [natToBits_length, natToBits_length,
          show 8 * s.currByte - s.currBitCount.toNat + 6 = 8 * p - c.toNat by omega]
        exact hw'.symm
    · simp only [LengthToken.bits_length, LengthToken.tail, natToBits_length]
      show 8 * p' - c'.toNat = _
      omega
  rw [if_neg h63] at h
  by_cases hrun : v ≥ SHORT_ZEROCODE_RUN
  · -- `59 … 62`: a short run
    rw [if_pos hrun] at h
    obtain ⟨hover, h⟩ := ite_throw_eq_ok h
    rw [show v - SHORT_ZEROCODE_RUN + 2
      = (LengthToken.shortRun (v - SHORT_ZEROCODE_RUN + 2)).expand.length
      from (List.length_replicate _ _).symm] at h
    have hcode : v - SHORT_ZEROCODE_RUN + 2 - 2 + SHORT_ZEROCODE_RUN = v := by
      simp only [SHORT_ZEROCODE_RUN] at hrun ⊢
      omega
    refine ⟨_, _, h, ⟨Nat.le_add_left _ _, by
      simp only [SHORT_ZEROCODE_RUN, SHORTEST_LONG_RUN, LONG_ZEROCODE_RUN] at h63 hrun ⊢; omega⟩,
      by simpa [LengthToken.expand] using Nat.not_lt.1 hover, ?_,
      by simp [LengthToken.expand, recorded_replicate_zero], hinv1,
      by simp only [LengthToken.bits_length, LengthToken.tail, List.length_nil]; omega,
      show p ≤ numBytes by omega⟩
    simp only [LengthToken.bits, LengthToken.code, LengthToken.tail, List.append_nil, hcode,
      natToBits_length]
    exact hw.symm
  -- `0 … 58`: a literal
  rw [if_neg hrun] at h
  have h58 : v ≤ MAX_CODE_LEN := by
    simp only [SHORT_ZEROCODE_RUN, MAX_CODE_LEN] at hrun ⊢
    omega
  have hwin : ((bytesToBits table).drop (8 * s.currByte - s.currBitCount.toNat)).take
      (LengthToken.literal v).bits.length = (LengthToken.literal v).bits := by
    simp only [LengthToken.bits, LengthToken.code, LengthToken.tail, List.append_nil,
      natToBits_length]
    exact hw.symm
  have hlen : (LengthToken.literal v).bits.length = 6 := by
    simp only [LengthToken.bits_length, LengthToken.tail, List.length_nil]
  by_cases hnz : v ≠ 0
  · -- recorded
    rw [if_pos hnz] at h
    obtain ⟨s', hrec, hsyms, h1, h2, h3⟩ := ScanState.record_ok
      { s with currBits := buf, currBitCount := c, currByte := p } symbol v h58
    rw [hrec, ok_bind] at h
    refine ⟨.literal v, s', h, h58, by simpa [LengthToken.expand] using hsym, hwin,
      by simp [hsyms, LengthToken.expand, recorded_cons, hnz], by rw [h1, h2, h3]; exact hinv1, ?_,
      by rw [h3]; show p ≤ numBytes; omega⟩
    rw [h2, h3, hlen]
    show 8 * p - c.toNat = _
    omega
  · -- the length `0`: nothing recorded
    rw [if_neg hnz] at h
    refine ⟨.literal v, _, h, h58, by simpa [LengthToken.expand] using hsym, hwin,
      by simp [LengthToken.expand, recorded_cons, not_not.1 hnz], hinv1, ?_,
      show p ≤ numBytes by omega⟩
    rw [hlen]
    show 8 * p - c.toNat = _
    omega

/-- A run of the scan loop that returns, from a reader inside the table's first `numBytes`
bytes, reads a stream of valid tokens covering `symbol … maxSymbol`: the stream's bits are the
reader's next bits, the loop records what the stream says, and the cursor stays at most
`numBytes`. -/
theorem scanLoop_sound (hbytes : numBytes ≤ table.length) :
    ∀ (fuel symbol : Nat) (s r : ScanState), ReaderInv table s.currBits s.currBitCount s.currByte →
      symbol ≤ maxSymbol + 1 → s.currByte ≤ numBytes →
      scanLoop table numBytes maxSymbol fuel symbol s = .ok r →
      ∃ ts : List LengthToken, (∀ t ∈ ts, t.Valid) ∧
        symbol + (codeLengths ts).length = maxSymbol + 1 ∧
        ((bytesToBits table).drop s.bitPos).take (encode ts).length = encode ts ∧
        r.symbols = s.symbols ++ recorded symbol (codeLengths ts) ∧
        ReaderInv table r.currBits r.currBitCount r.currByte ∧
        r.bitPos = s.bitPos + (encode ts).length ∧ r.currByte ≤ numBytes
  | fuel, symbol, s, r, hinv, hsym, hcur, h => by
    by_cases hlt : symbol ≤ maxSymbol
    · match fuel, h with
      | 0, h =>
        rw [scanLoop, if_pos hlt] at h
        cases h
      | fuel + 1, h =>
        obtain ⟨t, s', h', ht, hsym', hwin, hsyms, hinv', hpos, hcur'⟩ :=
          scanLoop_round hbytes hinv hlt h
        obtain ⟨ts, hts, hcover, hwin', hsyms', hinv'', hpos', hcur''⟩ :=
          scanLoop_sound hbytes fuel _ s' r hinv' hsym' hcur' h'
        refine ⟨t :: ts, List.forall_mem_cons.2 ⟨ht, hts⟩, ?_, ?_, ?_, hinv'', ?_, hcur''⟩
        · rw [codeLengths_cons, List.length_append]
          omega
        · rw [encode_cons]
          exact window_append_of hwin (by rw [← hpos]; exact hwin')
        · rw [hsyms', hsyms, codeLengths_cons, recorded_append, List.append_assoc]
        · rw [hpos', hpos, encode_cons, List.length_append, Nat.add_assoc]
    · rw [scanLoop_done _ _ (by omega)] at h
      cases h
      exact ⟨[], fun t ht => absurd ht (List.not_mem_nil t), by simp [codeLengths]; omega, rfl,
        by simp [codeLengths], hinv, by simp [encode], hcur⟩

/-- The scan of a table of at least `numBytes` bytes returns only on a table that starts with
the packed bits of a stream of valid tokens covering exactly `minSymbol … maxSymbol`. It then
records the stream's symbols with a non-zero length, in order, counts each length, sets the
shortest and longest length, and leaves the cursor just past the stream's bytes, at most
`numBytes` on. -/
theorem encode_prefix_of_scan {table : List (BitVec 8)} {numBytes minSymbol maxSymbol : Nat}
    (hbytes : numBytes ≤ table.length) (hrange : minSymbol ≤ maxSymbol + 1) {s : ScanState}
    (h : scan table numBytes minSymbol maxSymbol = .ok s) :
    ∃ ts : List LengthToken, (∀ t ∈ ts, t.Valid) ∧
      minSymbol + (codeLengths ts).length = maxSymbol + 1 ∧ encode ts <+: bytesToBits table ∧
      s.symbols = recorded minSymbol (codeLengths ts) ∧
      (∀ l, s.codeCount l = ((codeLengths ts).filter (· ≠ 0)).count l) ∧
      s.minCodeLength = minLength (codeLengths ts) ∧
      s.maxCodeLength = maxLength (codeLengths ts) ∧
      s.currByte = (packBits (encode ts)).length ∧ (packBits (encode ts)).length ≤ numBytes := by
  obtain ⟨ts, hts, hcover, hwin, hsyms, hinv, hpos, hcur⟩ :=
    scanLoop_sound hbytes _ minSymbol ScanState.init s (ReaderInv.init table) hrange
      (Nat.zero_le _) h
  have hf := scanLoop_facts _ _ _ _ _ _ _ h ScanFacts.init
  have hsyms' : s.symbols = recorded minSymbol (codeLengths ts) := by
    simpa [ScanState.init] using hsyms
  have := hinv.count_le
  have := hinv.count_le_read
  have hinit : ScanState.init.bitPos = 0 := rfl
  rw [hinit] at hwin hpos
  unfold ScanState.bitPos at hpos
  refine ⟨ts, hts, hcover, ?_, hsyms', hf.codeCount_eq hsyms', hf.minCodeLength_eq hsyms',
    hf.maxCodeLength_eq hsyms', by rw [packBits_length]; omega, by rw [packBits_length]; omega⟩
  rw [List.drop_zero] at hwin
  exact hwin ▸ List.take_prefix _ _


/-- The spec's two-symbol code-book `[0x04, 0x10]` and a zero byte, with `numBytes = 3`: the
scan accepts it and reads the lengths `1, 1` back from its first two bytes. -/
theorem encode_prefix_of_scan_pairCodebook :
    ∃ s, scan (packBits (encode [.literal 1, .literal 1]) ++ [0]) 3 0 1 = .ok s ∧
      ∃ ts : List LengthToken, (∀ t ∈ ts, t.Valid) ∧ 0 + (codeLengths ts).length = 1 + 1 ∧
        encode ts <+: bytesToBits (packBits (encode [.literal 1, .literal 1]) ++ [0]) ∧
        s.symbols = recorded 0 (codeLengths ts) ∧
        (∀ l, s.codeCount l = ((codeLengths ts).filter (· ≠ 0)).count l) ∧
        s.minCodeLength = minLength (codeLengths ts) ∧
        s.maxCodeLength = maxLength (codeLengths ts) ∧
        s.currByte = (packBits (encode ts)).length ∧ (packBits (encode ts)).length ≤ 3 := by
  obtain ⟨s, hs, -⟩ := @scan_encode_ok [.literal 1, .literal 1] (by decide) 0 1 rfl [0] 3
    (by decide)
  exact ⟨s, hs, encode_prefix_of_scan (by decide) (by decide) hs⟩

end ExrCodecs.FastHuf
