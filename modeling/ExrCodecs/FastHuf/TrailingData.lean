import ExrCodecs.FastHuf.RoundTrip

/-!
# The trailing-data check of `decode`

After its loop has written `numDstElems` symbols, `FastHufDecoder::decode` throws
"Compressed data remains after filling expected output buffer" when `numSrcBits`, the count of
stream bits not yet loaded into `buffer` or `bufferBack`, is not zero. The bits already in the
two registers are not counted, so the check sees trailing data only once it no longer fits in
them.

For a stream written with the canonical code and followed by bits `extra`, the loop ends with
the registers at the head of `extra` (`decodeLoop_encodeTokens`), and the counts of the queue
then decide the check:

> `decode_accepts_trailingBits`: up to `TABLE_LOOKUP_BITS` trailing bits, all in `buffer`,
> pass the check, and `decode` returns the stream's symbols as if they were not there.

> `decode_rejects_trailingBits`: more than 128 trailing bits, more than the two registers
> hold, always make `decode` throw.
-/

namespace ExrCodecs.FastHuf

variable {src : List (BitVec 8)} {s : DecodeState} {extra : List Bool}

/-- Queued bits beyond the 128 the registers hold: some are still to load. -/
theorem Queued.currBitsLeft_pos (hq : Queued src extra s) (h : 128 < extra.length) :
    0 < s.currBitsLeft := by
  have hb := hq.regs.buffer_range
  have hbb := hq.regs.back_range
  by_contra hle
  have h0 : s.currBitsLeft.toNat = 0 := by omega
  obtain ⟨pad, hpad⟩ := hq.pending_eq
  have hlen := congrArg List.length hpad
  simp only [DecodeState.pending, DecodeState.unread, h0, List.length_append, topBits_length,
    Nat.zero_add, Nat.reduceDiv, List.take_zero, bytesToBits_nil, List.length_nil,
    List.length_replicate] at hlen
  omega

/-- Up to `TABLE_LOOKUP_BITS` bits after a stream written with the canonical code go unseen:
`decode` returns the stream's symbols, with the trailing check passed. The code-book is one
the constructor accepts, with a code of at most `TABLE_LOOKUP_BITS` bits and none longer than
51, as for `decode_encodeTokens`. -/
theorem decode_accepts_trailingBits (cb : List LengthToken) (hcb : ∀ t ∈ cb, t.Valid)
    {minSymbol maxSymbol : Nat} (hcover : minSymbol + (codeLengths cb).length = maxSymbol + 1)
    (rest : List (BitVec 8)) {numBytes : Nat} (hnum : (packBits (encode cb)).length < numBytes)
    (hkraft : Kraft (codeLengths cb)) (hlong : maxLength (codeLengths cb) ≤ 51)
    (hshort : minLength (codeLengths cb) ≤ TABLE_LOOKUP_BITS)
    {rleSymbol : Nat} {d : FastHufDecoder} {consumed : Nat}
    (hd : FastHufDecoder.new (packBits (encode cb) ++ rest) numBytes minSymbol maxSymbol rleSymbol
      = .ok (d, consumed))
    (ts : List StreamToken) (hts : StreamValid minSymbol (codeLengths cb) rleSymbol ts)
    (hcode : (∃ c, StreamToken.run c ∈ ts) →
      minSymbol ≤ rleSymbol ∧ (codeLengths cb).getD (rleSymbol - minSymbol) 0 ≠ 0)
    (extra : List Bool) (hextra : extra.length ≤ TABLE_LOOKUP_BITS) (dst : Nat → BitVec 16) :
    ∃ dst', d.decode (streamPayload (encodeTokens minSymbol (codeLengths cb) rleSymbol ts ++ extra))
        (max 128 (encodeTokens minSymbol (codeLengths cb) rleSymbol ts ++ extra).length : Nat) dst
        (expandTokens ts).length = .ok dst' ∧
      ∀ i < (expandTokens ts).length, dst' i = BitVec.ofNat 16 ((expandTokens ts).getD i 0) := by
  obtain ⟨ct, hrle⟩ := new_canonical cb hcb hcover rest hnum hkraft hlong hd
  obtain ⟨s₀, s, h₀, hloop, hs, hw⟩ := decodeLoop_encodeTokens ct hshort hrle hts hcode extra dst
  exact ⟨s.dst, decode_eq_ok_iff.2 ⟨by omega, s₀, s, h₀, hloop, hs.currBitsLeft_eq hextra, rfl⟩,
    hw⟩

/-- Three bits after the stream `0`, run of three, over the code-book `1, 1`. -/
theorem decode_accepts_trailingBits_pairStream :
    ∃ d consumed, FastHufDecoder.new (packBits (encode pairCodebook) ++ []) 3 0 1 (1 : Nat)
        = .ok (d, consumed) ∧
      ∃ dst', d.decode
          (streamPayload (encodeTokens 0 (codeLengths pairCodebook) 1 pairStream ++ [true, false, true]))
          (max 128 (encodeTokens 0 (codeLengths pairCodebook) 1 pairStream
            ++ [true, false, true]).length : Nat)
          (fun _ => 0) (expandTokens pairStream).length = .ok dst' ∧
        ∀ i < (expandTokens pairStream).length,
          dst' i = BitVec.ofNat 16 ((expandTokens pairStream).getD i 0) := by
  obtain ⟨d, consumed, hd⟩ := @new_complete pairCodebook (by decide) 0 1 (by decide) [] 3
    (by decide) (by decide) (by decide) (1 : Nat)
  exact ⟨d, consumed, hd, decode_accepts_trailingBits pairCodebook (by decide) (by decide) []
    (by decide) (by decide) (by decide) (by decide) hd pairStream (by decide)
    (fun _ => ⟨by decide, by decide⟩) [true, false, true] (by decide) _⟩

/-- More than 128 bits after a stream written with the canonical code are always seen: the
loop reads the stream's symbols, and the trailing check throws. -/
theorem decode_rejects_trailingBits (cb : List LengthToken) (hcb : ∀ t ∈ cb, t.Valid)
    {minSymbol maxSymbol : Nat} (hcover : minSymbol + (codeLengths cb).length = maxSymbol + 1)
    (rest : List (BitVec 8)) {numBytes : Nat} (hnum : (packBits (encode cb)).length < numBytes)
    (hkraft : Kraft (codeLengths cb)) (hlong : maxLength (codeLengths cb) ≤ 51)
    (hshort : minLength (codeLengths cb) ≤ TABLE_LOOKUP_BITS)
    {rleSymbol : Nat} {d : FastHufDecoder} {consumed : Nat}
    (hd : FastHufDecoder.new (packBits (encode cb) ++ rest) numBytes minSymbol maxSymbol rleSymbol
      = .ok (d, consumed))
    (ts : List StreamToken) (hts : StreamValid minSymbol (codeLengths cb) rleSymbol ts)
    (hcode : (∃ c, StreamToken.run c ∈ ts) →
      minSymbol ≤ rleSymbol ∧ (codeLengths cb).getD (rleSymbol - minSymbol) 0 ≠ 0)
    (extra : List Bool) (hextra : 128 < extra.length) (dst : Nat → BitVec 16) :
    d.decode (streamPayload (encodeTokens minSymbol (codeLengths cb) rleSymbol ts ++ extra))
        (max 128 (encodeTokens minSymbol (codeLengths cb) rleSymbol ts ++ extra).length : Nat) dst
        (expandTokens ts).length = .error .trailingData := by
  obtain ⟨ct, hrle⟩ := new_canonical cb hcb hcover rest hnum hkraft hlong hd
  obtain ⟨s₀, s, h₀, hloop, hs, -⟩ := decodeLoop_encodeTokens ct hshort hrle hts hcode extra dst
  have hpos := hs.toQueued.currBitsLeft_pos hextra
  rw [FastHufDecoder.decode, if_neg (by omega), pure_bind, h₀, ok_bind, hloop, ok_bind,
    if_pos hpos.ne']
  rfl

/-- 129 one bits after the stream `0`, run of three, over the code-book `1, 1`. -/
theorem decode_rejects_trailingBits_pairStream :
    ∃ d consumed, FastHufDecoder.new (packBits (encode pairCodebook) ++ []) 3 0 1 (1 : Nat)
        = .ok (d, consumed) ∧
      d.decode
          (streamPayload (encodeTokens 0 (codeLengths pairCodebook) 1 pairStream
            ++ List.replicate 129 true))
          (max 128 (encodeTokens 0 (codeLengths pairCodebook) 1 pairStream
            ++ List.replicate 129 true).length : Nat)
          (fun _ => 0) (expandTokens pairStream).length = .error .trailingData := by
  obtain ⟨d, consumed, hd⟩ := @new_complete pairCodebook (by decide) 0 1 (by decide) [] 3
    (by decide) (by decide) (by decide) (1 : Nat)
  exact ⟨d, consumed, hd, decode_rejects_trailingBits pairCodebook (by decide) (by decide) []
    (by decide) (by decide) (by decide) (by decide) hd pairStream (by decide)
    (fun _ => ⟨by decide, by decide⟩) (List.replicate 129 true)
    (by rw [List.length_replicate]; decide) _⟩

end ExrCodecs.FastHuf
