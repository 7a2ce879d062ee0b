import ExrCodecs.FastHuf.Constructor

/-!
# `FastHufDecoder::decode` and `refill`

`decode` keeps two 64-bit registers of look-ahead bits. `buffer` holds the next bits of the
stream at its top (`bufferNumBits` of them are valid); `bufferBack` holds the bits after those
(`bufferBackNumBits`), and `currByte`/`currBitsLeft` say where the rest of the stream is.

> `refill (numBits)` moves `numBits` bits from the top of `bufferBack` into the bottom of
> `buffer`; when `bufferBack` runs dry it is reloaded from the stream, a whole big-endian word
> when at least 64 bits are left, else the remaining bytes zero-padded (`reloadBack`).

> Each round of `decode` reads one code: through the acceleration table when
> `_tableMin ≤ buffer`, else by searching `_ljBase` from length `TABLE_LOOKUP_BITS + 1`
> (`lookupSymbol`); it then either writes a literal or repeats the previous symbol
> `buffer >> 56` times (`step`).

Mirroring notes vs the source:
- The registers are one record, `DecodeState`; `currBitsLeft` is `decode`'s `numSrcBits`
  after the first two words, which it passes to `refill` by reference.
- `refill`'s last step (zero or shift `bufferBack`, then count the bits taken) follows both
  branches of its `if`; the model writes it once in each branch (`dropBack`).
- The partial reload's `shift` is a `uint64_t`; the model keeps it as an `Int`, and the
  checked `shl` fails where the source would shift by a wrapped amount of at least 64.
- `dst` is a function with `numDstElems` entries; the caller's initial contents are a
  parameter of `decode`.
-/

namespace ExrCodecs.FastHuf

/-- The registers `decode` threads through its loop and passes to `refill`. -/
structure DecodeState where
  buffer : BitVec 64
  bufferNumBits : Int
  bufferBack : BitVec 64
  bufferBackNumBits : Int
  currByte : Nat
  currBitsLeft : Int
  dstIdx : Nat
  dst : Nat → BitVec 16

/-! ## `refill` -/

/-- `buffer |= bufferBack >> (64 - numBits)`. -/
def topUp (s : DecodeState) (numBits : Int) : Except FastHufError DecodeState := do
  let top ← shr s.bufferBack (64 - numBits)
  pure { s with buffer := s.buffer ||| top }

/-- The end of `refill`: zero `bufferBack` when no bits will be left in it (the source's
guard against a shift by 64), else shift the taken bits out; then count them. -/
def dropBack (s : DecodeState) (numBits : Int) : Except FastHufError DecodeState := do
  let bufferBack ← if s.bufferBackNumBits ≤ numBits then pure 0 else shl s.bufferBack numBits
  pure { s with bufferBack, bufferBackNumBits := s.bufferBackNumBits - numBits }

/-- The loop `while (currBitsLeft > 0)` of the partial reload: the remaining bytes packed into
`bufferBack` from bit `shift` down. A round takes one byte, and the loop starts with
`currBitsLeft < 64`, so 8 rounds suffice. -/
def reloadTail (src : List (BitVec 8)) (fuel : Nat) (bufferBack : BitVec 64) (shift : Int)
    (currByte : Nat) (currBitsLeft : Int) : Except FastHufError (BitVec 64 × Nat × Int) :=
  if currBitsLeft > 0 then
    match fuel with
    | 0 => throw .outOfFuel
    | fuel + 1 => do
      let b ← readByte src currByte
      let v ← shl (b.setWidth 64) shift
      reloadTail src fuel (bufferBack ||| v) (shift - 8) (currByte + 1) (currBitsLeft - 8)
  else pure (bufferBack, currByte, currBitsLeft)

/-- Refill all of `bufferBack` from the stream: a whole 64-bit word when one is left, else
the bytes that are left, zero-padded, with the counter clamped at zero. -/
def reloadBack (src : List (BitVec 8)) (s : DecodeState) : Except FastHufError DecodeState :=
  if s.currBitsLeft ≥ 64 then do
    let w ← read64 src s.currByte
    pure { s with
      bufferBack := w, bufferBackNumBits := 64
      currByte := s.currByte + 8, currBitsLeft := s.currBitsLeft - 64 }
  else do
    let (w, currByte, currBitsLeft) ← reloadTail src 8 0 56 s.currByte s.currBitsLeft
    pure { s with
      bufferBack := w, bufferBackNumBits := 64
      currByte, currBitsLeft := if currBitsLeft < 0 then 0 else currBitsLeft }

/-- `refill (buffer, numBits, bufferBack, bufferBackNumBits, currByte, currBitsLeft)`. -/
def refill (src : List (BitVec 8)) (numBits : Int) (s : DecodeState) :
    Except FastHufError DecodeState := do
  let s ← topUp s numBits
  if s.bufferBackNumBits < numBits then do
    let numBits := numBits - s.bufferBackNumBits
    let s ← reloadBack src s
    let s ← topUp s numBits
    dropBack s numBits
  else dropBack s numBits

/-- A call site of `refill`: fill `buffer` (`refill (…, 64 - bufferNumBits, …)`, then
`bufferNumBits = 64`). -/
def refillBuffer (src : List (BitVec 8)) (s : DecodeState) : Except FastHufError DecodeState := do
  let s ← refill src (64 - s.bufferNumBits) s
  pure { s with bufferNumBits := 64 }

/-! ## The symbol step -/

/-- `while (_ljBase[codeLen] > buffer && codeLen <= _maxCodeLength) codeLen++`. The test reads
`_ljBase[codeLen]` first, so the loop ends by its test or by a read past `_ljBase`'s
`MAX_CODE_LEN + 1` entries, within `fuel = MAX_CODE_LEN + 1` rounds. -/
def searchLength (d : FastHufDecoder) (buffer : BitVec 64) (fuel codeLen : Nat) :
    Except FastHufError Nat :=
  match fuel with
  | 0 => throw .outOfFuel
  | fuel + 1 => do
    let b ← index d.ljBase (MAX_CODE_LEN + 1) codeLen
    if b > buffer ∧ codeLen ≤ d.maxCodeLength then searchLength d buffer fuel (codeLen + 1)
    else pure codeLen

/-- The code at the top of `buffer`: its length and symbol, with the registers after the
search path's refill. -/
def lookupSymbol (d : FastHufDecoder) (src : List (BitVec 8)) (s : DecodeState) :
    Except FastHufError (Nat × Nat × DecodeState) :=
  if d.tableMin ≤ s.buffer then do
    let tableIdx : Nat := (s.buffer >>> (64 - TABLE_LOOKUP_BITS)).toNat
    let codeLen ← index d.tableCodeLen (2 ^ TABLE_LOOKUP_BITS) tableIdx
    let symbol ← index d.tableSymbol (2 ^ TABLE_LOOKUP_BITS) tableIdx
    pure (codeLen, symbol, s)
  else do
    let s ← if s.bufferNumBits < 64 then refillBuffer src s else pure s
    let codeLen ← searchLength d s.buffer (MAX_CODE_LEN + 1) (TABLE_LOOKUP_BITS + 1)
    if codeLen > d.maxCodeLength then throw .invalidSymbol
    else do
      let offset ← index d.ljOffset (MAX_CODE_LEN + 1) codeLen
      let top ← shr s.buffer (64 - (codeLen : Int))
      let id := offset + top
      if id.toNat < d.numSymbols then do
        let symbol ← index d.idToSymbol d.numSymbols id.toNat
        pure (codeLen, symbol, s)
      else throw .invalidSymbol

/-- `for (i = 0; i < rleCount; ++i) dst[dstIdx + i] = dst[dstIdx - 1]`. -/
def copyRun (dst : Nat → BitVec 16) (numDstElems dstIdx rleCount : Nat) :
    Except FastHufError (Nat → BitVec 16) :=
  (List.range rleCount).foldlM (fun dst i => do
    let v ← index dst numDstElems ((dstIdx : Int) - 1)
    write dst numDstElems (dstIdx + i) v) dst

/-- The run branch: make sure 8 bits are there, read the count `buffer >> 56`, check it, copy
the previous symbol and shift the count out. -/
def repeatPrevious (src : List (BitVec 8)) (numDstElems : Nat) (s : DecodeState) :
    Except FastHufError DecodeState := do
  let s ← if s.bufferNumBits < 8 then refillBuffer src s else pure s
  let rleCount := (s.buffer >>> 56).toNat
  if s.dstIdx < 1 then throw .rleBeforeFirst
  else if s.dstIdx + rleCount > numDstElems then throw .rleOverrun
  else if rleCount ≤ 0 then throw .rleInvalid
  else do
    let dst ← copyRun s.dst numDstElems s.dstIdx rleCount
    let buffer ← shl s.buffer 8
    pure { s with dst, dstIdx := s.dstIdx + rleCount, buffer, bufferNumBits := s.bufferNumBits - 8 }

/-- One round of the loop of `decode`. -/
def step (d : FastHufDecoder) (src : List (BitVec 8)) (numDstElems : Nat) (s : DecodeState) :
    Except FastHufError DecodeState := do
  let (codeLen, symbol, s) ← lookupSymbol d src s
  let buffer ← shl s.buffer codeLen
  let s := { s with buffer, bufferNumBits := s.bufferNumBits - codeLen }
  let s ← if (symbol : Int) = d.rleSymbol then repeatPrevious src numDstElems s
    else do
      let dst ← write s.dst numDstElems s.dstIdx (BitVec.ofNat 16 symbol)
      pure { s with dst, dstIdx := s.dstIdx + 1 }
  if s.bufferNumBits < TABLE_LOOKUP_BITS then refillBuffer src s else pure s

/-- `while (dstIdx < numDstElems)`. A round either raises or writes at least one symbol, so
`numDstElems` rounds suffice. -/
def decodeLoop (d : FastHufDecoder) (src : List (BitVec 8)) (numDstElems : Nat) (fuel : Nat)
    (s : DecodeState) : Except FastHufError DecodeState :=
  if s.dstIdx < numDstElems then
    match fuel with
    | 0 => throw .outOfFuel
    | fuel + 1 => do
      let s ← step d src numDstElems s
      decodeLoop d src numDstElems fuel s
  else pure s

/-- The first fill of `decode`: `buffer` and `bufferBack` from the first two words of `src`,
the stream cursor after them and `numSrcBits - 128` bits left. -/
def initialState (src : List (BitVec 8)) (numSrcBits : Int) (dst : Nat → BitVec 16) :
    Except FastHufError DecodeState := do
  let buffer ← read64 src 0
  let bufferBack ← read64 src 8
  pure { buffer, bufferNumBits := 64, bufferBack, bufferBackNumBits := 64
         currByte := 16, currBitsLeft := numSrcBits - 128, dstIdx := 0, dst }

/-- `decode (src, numSrcBits, dst, numDstElems)`: the output buffer after decoding. -/
def FastHufDecoder.decode (d : FastHufDecoder) (src : List (BitVec 8)) (numSrcBits : Int)
    (dst : Nat → BitVec 16) (numDstElems : Nat) : Except FastHufError (Nat → BitVec 16) := do
  if numSrcBits < 128 then throw .insufficientBits
  let s ← initialState src numSrcBits dst
  let s ← decodeLoop d src numDstElems numDstElems s
  if s.currBitsLeft ≠ 0 then throw .trailingData
  pure s.dst

end ExrCodecs.FastHuf
