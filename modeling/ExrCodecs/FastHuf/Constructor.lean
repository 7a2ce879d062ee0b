import ExrCodecs.FastHuf.Basic

/-!
# The `FastHufDecoder` constructor

`FastHufDecoder::FastHufDecoder` reads one code length per symbol from `minSymbol` to
`maxSymbol` (6 bits each, with escapes for runs of zero lengths), counts the codes of each
length, and builds the tables `decode` uses:

> `base[l]`, the first code of length `l`, computed in `double` as
> `⌈(Σ_{k>l} codeCount[k] · 2^(max-k+1)) / 2^(max-l+1)⌉` (`computeBase`);
> `offset[l]`, the first id of length `l`, ids counting from the longest codes
> (`computeOffset`); the id-to-symbol map (`assignIds`); and in `buildTables` the
> left-justified `_ljBase`, `_ljOffset`, the 4096-entry acceleration table and `_tableMin`.

Mirroring notes vs the source:
- `table` is the byte list from the cursor on; the advanced cursor is returned as the number
  of bytes consumed. `minSymbol` and `maxSymbol` are taken non-negative, so their casts to
  `uint64_t` are the identity.
- `symbols` holds pairs `(symbol, codeLen)` where the source packs `symbol << 6 | codeLen`.
- A `double` holding an integer is its value (`Nat`); every `double` operation rounds its exact
  result to 53 significant bits, ties to even (`roundToDouble`). Dividing by a power of two is
  exact, so `ceil (tmp / 2^e)` is computed on naturals.
- `offset`, `mapping` and `_numSymbols` are sums of counts and never wrap; `mapping`'s initial
  `-1` is `2^64 - 1`.
- The acceleration table is a function of the entry index: `tableEntry` computes entry `i`
  as the source's loop body does, and `buildTables` runs it for every `i < 4096` in order, so
  that the first entry whose id overflows throws, as the loop does.
- `_idToSymbol` is not initialised by the source; the model starts it at 0.
- `buildTables`' `minIdx < 0` branch is dead (the loop stops at 0) and is left out.
-/

namespace ExrCodecs.FastHuf

/-! ## Binary64 rounding -/

/-- The number of low bits of `n` a `double` cannot hold: the least `k` with
`n / 2^k < 2^53` (`fuel` bounds the search; `n` itself is always enough). -/
def excessBits : Nat → Nat → Nat
  | 0, _ => 0
  | fuel + 1, n => if n < 2 ^ 53 then 0 else excessBits fuel (n / 2) + 1

/-- The `double` nearest to `n`, ties to even. -/
def roundToDouble (n : Nat) : Nat :=
  let k := excessBits n n
  let q := n / 2 ^ k
  let r := n % 2 ^ k
  if 2 * r > 2 ^ k ∨ (2 * r = 2 ^ k ∧ q % 2 = 1) then (q + 1) * 2 ^ k else q * 2 ^ k

/-- `x << s` on a `long long` holding a small non-negative value. -/
def shlNat (x : Nat) (s : Int) : Except FastHufError Nat :=
  if 0 ≤ s ∧ s < 64 then pure (x * 2 ^ s.toNat) else throw (.shiftOutOfRange s)

theorem shlNat_ok (x : Nat) {s : Int} (h0 : 0 ≤ s) (h : s < 64) :
    shlNat x s = .ok (x * 2 ^ s.toNat) := if_pos ⟨h0, h⟩

/-! ## The code-length scan -/

def SHORT_ZEROCODE_RUN : Nat := 59

def LONG_ZEROCODE_RUN : Nat := 63

def SHORTEST_LONG_RUN : Nat := 2 + LONG_ZEROCODE_RUN - SHORT_ZEROCODE_RUN

/-- The refill loop of `readBits`: shift bytes in below `buffer` until it holds `numBits`
bits. Each byte adds 8 bits, so `numBits` rounds always suffice. -/
def readBitsFill (table : List (BitVec 8)) (numBits : Int) (fuel : Nat) (buffer : BitVec 64)
    (bufferNumBits : Int) (currByte : Nat) : Except FastHufError (BitVec 64 × Int × Nat) :=
  if bufferNumBits < numBits then
    match fuel with
    | 0 => throw .outOfFuel
    | fuel + 1 => do
      let b ← readByte table currByte
      readBitsFill table numBits fuel ((buffer <<< 8) ||| b.setWidth 64) (bufferNumBits + 8)
        (currByte + 1)
  else pure (buffer, bufferNumBits, currByte)

/-- `readBits (numBits, buffer, bufferNumBits, currByte)`: the next `numBits` bits of the
table, with the updated buffer, count and cursor. -/
def readBits (table : List (BitVec 8)) (numBits : Nat) (buffer : BitVec 64) (bufferNumBits : Int)
    (currByte : Nat) : Except FastHufError (Nat × BitVec 64 × Int × Nat) := do
  let (buffer, bufferNumBits, currByte) ←
    readBitsFill table numBits numBits buffer bufferNumBits currByte
  let bufferNumBits := bufferNumBits - numBits
  let v ← shr buffer bufferNumBits
  pure ((v &&& BitVec.ofNat 64 (2 ^ numBits - 1)).toNat, buffer, bufferNumBits, currByte)

/-- The constructor's state during the scan. -/
structure ScanState where
  currByte : Nat
  currBits : BitVec 64
  currBitCount : Int
  symbols : List (Nat × Nat)
  minCodeLength : Nat
  maxCodeLength : Nat
  codeCount : Nat → Nat

/-- Before the scan: nothing read, `_minCodeLength = 255`, `_maxCodeLength = 0`. -/
def ScanState.init : ScanState := ⟨0, 0, 0, [], 255, 0, fun _ => 0⟩

/-- A symbol with a non-zero code length: recorded, with the length counted. -/
def ScanState.record (s : ScanState) (symbol codeLen : Nat) : Except FastHufError ScanState := do
  let c ← index s.codeCount (MAX_CODE_LEN + 1) codeLen
  let codeCount ← write s.codeCount (MAX_CODE_LEN + 1) codeLen (c + 1)
  pure { s with
    symbols := s.symbols ++ [(symbol, codeLen)]
    minCodeLength := if codeLen < s.minCodeLength then codeLen else s.minCodeLength
    maxCodeLength := if codeLen > s.maxCodeLength then codeLen else s.maxCodeLength
    codeCount }

/-- The scan loop from `symbol` to `maxSymbol`. Every round moves `symbol` on by at least one,
so `maxSymbol + 1 - minSymbol` rounds suffice. -/
def scanLoop (table : List (BitVec 8)) (numBytes maxSymbol : Nat) (fuel symbol : Nat)
    (s : ScanState) : Except FastHufError ScanState :=
    if symbol ≤ maxSymbol then
      match fuel with
      | 0 => throw .outOfFuel
      | fuel + 1 =>
        if s.currByte ≥ numBytes then throw .tableTruncated
        else do
          let (codeLen, currBits, currBitCount, currByte) ←
            readBits table 6 s.currBits s.currBitCount s.currByte
          let s := { s with currBits, currBitCount, currByte }
          if codeLen = LONG_ZEROCODE_RUN then
            if s.currByte ≥ numBytes then throw .tableTruncated
            else do
              let (r, currBits, currBitCount, currByte) ←
                readBits table 8 s.currBits s.currBitCount s.currByte
              let runLen := r + SHORTEST_LONG_RUN
              if symbol + runLen > maxSymbol + 1 then throw .tableOverrun
              else
                let s := { s with currBits, currBitCount, currByte }
                scanLoop table numBytes maxSymbol fuel (symbol + runLen) s
          else if codeLen ≥ SHORT_ZEROCODE_RUN then
            let runLen := codeLen - SHORT_ZEROCODE_RUN + 2
            if symbol + runLen > maxSymbol + 1 then throw .tableOverrun
            else scanLoop table numBytes maxSymbol fuel (symbol + runLen) s
          else if codeLen ≠ 0 then do
            let s ← s.record symbol codeLen
            scanLoop table numBytes maxSymbol fuel (symbol + 1) s
          else scanLoop table numBytes maxSymbol fuel (symbol + 1) s
    else pure s

/-- The scan over `minSymbol … maxSymbol`. -/
def scan (table : List (BitVec 8)) (numBytes minSymbol maxSymbol : Nat) :
    Except FastHufError ScanState :=
  scanLoop table numBytes maxSymbol (maxSymbol + 1 - minSymbol) minSymbol ScanState.init

/-- `_numSymbols`: the sum of `codeCount[i]` for `i < MAX_CODE_LEN`. -/
def numSymbolsOf (codeCount : Nat → Nat) : Nat :=
  ((List.range MAX_CODE_LEN).map codeCount).sum

/-! ## Base, offset and ids -/

/-- The all-ones `uint64_t`, the tables' mark for an unused length. -/
def allOnes : BitVec 64 := BitVec.allOnes 64

/-- The code lengths `minCodeLength … maxCodeLength` (none for an empty code-book). -/
def lengths (minCodeLength maxCodeLength : Nat) : List Nat :=
  List.range' minCodeLength (maxCodeLength + 1 - minCodeLength)

/-- `countTmp[l] = (double) codeCount[l] * (double) (2ll << (max - l))` for every length. -/
def computeCountTmp (codeCount : Nat → Nat) (minL maxL : Nat) : Except FastHufError (Nat → Nat) :=
  (lengths minL maxL).foldlM (fun countTmp l => do
      let c ← index codeCount (MAX_CODE_LEN + 1) l
      let p ← shlNat 2 (maxL - l : Int)
      write countTmp (maxL + 1) l (roundToDouble (roundToDouble c * roundToDouble p)))
    (fun _ => 0)

/-- `tmp` for length `l`: `countTmp[k]` summed in `double` for `k = l + 1 … max`. -/
def baseSum (countTmp : Nat → Nat) (l maxL : Nat) : Except FastHufError Nat :=
  (List.range' (l + 1) (maxL - l)).foldlM (fun tmp k => do
      let c ← index countTmp (maxL + 1) k
      pure (roundToDouble (tmp + c)))
    0

/-- `base`: all-ones, then `base[l] = ceil (tmp / (2ll << (max - l)))` for every length. -/
def computeBase (codeCount : Nat → Nat) (minL maxL : Nat) : Except FastHufError (Nat → BitVec 64) := do
  let countTmp ← computeCountTmp codeCount minL maxL
  (lengths minL maxL).foldlM (fun base l => do
      let tmp ← baseSum countTmp l maxL
      let p ← shlNat 2 (maxL - l : Int)
      write base (MAX_CODE_LEN + 1) l (BitVec.ofNat 64 ((tmp + p - 1) / p)))
    (fun _ => allOnes)

/-- `offset`: zero, then `offset[max] = 0` and `offset[i] = offset[i + 1] + codeCount[i + 1]`
for `i` from `max - 1` down to `min`. -/
def computeOffset (codeCount : Nat → Nat) (minL maxL : Nat) : Except FastHufError (Nat → Nat) := do
  let offset ← write (fun _ => 0) (MAX_CODE_LEN + 1) maxL 0
  (List.range' minL (maxL - minL)).reverse.foldlM (fun offset i => do
      let o ← index offset (MAX_CODE_LEN + 1) (i + 1)
      let c ← index codeCount (MAX_CODE_LEN + 1) (i + 1)
      write offset (MAX_CODE_LEN + 1) i (o + c))
    offset

/-- `mapping`: `-1` everywhere, then `offset[i]` for every length. -/
def computeMapping (offset : Nat → Nat) (minL maxL : Nat) : Except FastHufError (Nat → Nat) :=
  (lengths minL maxL).foldlM (fun mapping i => do
      let o ← index offset (MAX_CODE_LEN + 1) i
      write mapping (MAX_CODE_LEN + 1) i o)
    (fun _ => 2 ^ 64 - 1)

/-- The id assignment: each recorded symbol, in scan order, gets the next id of its length. -/
def assignIds (numSymbols : Nat) :
    List (Nat × Nat) → (Nat → Nat) → (Nat → Nat) → Except FastHufError (Nat → Nat)
  | [], _, idToSymbol => pure idToSymbol
  | (symbol, codeLen) :: rest, mapping, idToSymbol => do
    let m ← index mapping (MAX_CODE_LEN + 1) codeLen
    if m ≥ numSymbols then throw .invalidTableSymbol
    else do
      let idToSymbol ← write idToSymbol numSymbols m symbol
      let mapping ← write mapping (MAX_CODE_LEN + 1) codeLen (m + 1)
      assignIds numSymbols rest mapping idToSymbol

/-! ## `buildTables` -/

/-- `_ljBase[i] = base[i] << (64 - i)`, or all-ones for an unused length. -/
def computeLjBase (base : Nat → BitVec 64) : Except FastHufError (Nat → BitVec 64) :=
  (List.range (MAX_CODE_LEN + 1)).foldlM (fun ljBase i => do
      let b ← index base (MAX_CODE_LEN + 1) i
      if b ≠ allOnes then do
        let v ← shl b (64 - i : Int)
        write ljBase (MAX_CODE_LEN + 1) i v
      else write ljBase (MAX_CODE_LEN + 1) i allOnes)
    (fun _ => 0)

/-- `_ljOffset[0] = offset[0] - _ljBase[0]` and
`_ljOffset[i] = offset[i] - (_ljBase[i] >> (64 - i))`. -/
def computeLjOffset (ljBase : Nat → BitVec 64) (offset : Nat → Nat) :
    Except FastHufError (Nat → BitVec 64) := do
  let o ← index offset (MAX_CODE_LEN + 1) 0
  let b ← index ljBase (MAX_CODE_LEN + 1) 0
  let ljOffset ← write (fun _ => 0) (MAX_CODE_LEN + 1) 0 (BitVec.ofNat 64 o - b)
  (List.range' 1 MAX_CODE_LEN).foldlM (fun ljOffset i => do
      let o ← index offset (MAX_CODE_LEN + 1) i
      let b ← index ljBase (MAX_CODE_LEN + 1) i
      let s ← shr b (64 - i : Int)
      write ljOffset (MAX_CODE_LEN + 1) i (BitVec.ofNat 64 o - s))
    ljOffset

/-- The probe of acceleration entry `i`: `i << (64 - TABLE_LOOKUP_BITS)`. -/
def tableValue (i : Nat) : BitVec 64 := BitVec.ofNat 64 i <<< (64 - TABLE_LOOKUP_BITS)

/-- One acceleration entry `(codeLen, symbol)`: the first length, in the order given, whose
`_ljBase` is at most the probe, with the symbol of the probe's id; `(0, 0xffff)` if none. -/
def tableEntry (ljBase ljOffset : Nat → BitVec 64) (idToSymbol : Nat → Nat) (numSymbols : Nat)
    (value : BitVec 64) : List Nat → Except FastHufError (Nat × Nat)
  | [] => pure (0, 0xffff)
  | codeLen :: rest => do
    let b ← index ljBase (MAX_CODE_LEN + 1) codeLen
    if b ≤ value then do
      let o ← index ljOffset (MAX_CODE_LEN + 1) codeLen
      let s ← shr value (64 - codeLen : Int)
      let id := o + s
      if id.toNat < numSymbols then do
        let symbol ← index idToSymbol numSymbols id.toNat
        pure (codeLen, symbol)
      else throw .tableIdOverrun
    else tableEntry ljBase ljOffset idToSymbol numSymbols value rest

/-- `minIdx` of `buildTables`: from `i` down, the first length that is not all-ones, or 0. -/
def tableMinIdx (ljBase : Nat → BitVec 64) : Nat → Nat
  | 0 => 0
  | i + 1 => if ljBase (i + 1) = allOnes then tableMinIdx ljBase i else i + 1

/-- The decoder's tables, as `decode` reads them. -/
structure FastHufDecoder where
  rleSymbol : Int
  numSymbols : Nat
  minCodeLength : Nat
  maxCodeLength : Nat
  idToSymbol : Nat → Nat
  ljBase : Nat → BitVec 64
  ljOffset : Nat → BitVec 64
  tableCodeLen : Nat → Nat
  tableSymbol : Nat → Nat
  tableMin : BitVec 64

/-- `buildTables (base, offset)`, with the constructor's fields. -/
def buildTables (rleSymbol : Int) (numSymbols minL maxL : Nat) (idToSymbol : Nat → Nat)
    (base : Nat → BitVec 64) (offset : Nat → Nat) : Except FastHufError FastHufDecoder := do
  let ljBase ← computeLjBase base
  let ljOffset ← computeLjOffset ljBase offset
  let entry := fun i =>
    tableEntry ljBase ljOffset idToSymbol numSymbols (tableValue i) (lengths minL maxL)
  (List.range (2 ^ TABLE_LOOKUP_BITS)).forM fun i => do
    let _ ← entry i
    pure ()
  let tableMin ← index ljBase (MAX_CODE_LEN + 1) (tableMinIdx ljBase TABLE_LOOKUP_BITS)
  pure {
    rleSymbol, numSymbols
    minCodeLength := minL
    maxCodeLength := maxL
    idToSymbol, ljBase, ljOffset
    tableCodeLen := fun i => match entry i with | .ok e => e.1 | .error _ => 0
    tableSymbol := fun i => match entry i with | .ok e => e.2 | .error _ => 0xffff
    tableMin }

/-- `FastHufDecoder::FastHufDecoder (table, numBytes, minSymbol, maxSymbol, rleSymbol)`: the
decoder and the number of table bytes the cursor moved past. -/
def FastHufDecoder.new (table : List (BitVec 8)) (numBytes minSymbol maxSymbol : Nat)
    (rleSymbol : Int) : Except FastHufError (FastHufDecoder × Nat) := do
  let s ← scan table numBytes minSymbol maxSymbol
  let numSymbols := numSymbolsOf s.codeCount
  let base ← computeBase s.codeCount s.minCodeLength s.maxCodeLength
  let offset ← computeOffset s.codeCount s.minCodeLength s.maxCodeLength
  let mapping ← computeMapping offset s.minCodeLength s.maxCodeLength
  let idToSymbol ← assignIds numSymbols s.symbols mapping fun _ => 0
  let d ← buildTables rleSymbol numSymbols s.minCodeLength s.maxCodeLength idToSymbol base offset
  pure (d, s.currByte)

end ExrCodecs.FastHuf
