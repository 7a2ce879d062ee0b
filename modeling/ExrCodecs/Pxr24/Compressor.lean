import ExrCodecs.Pxr24.Float24

/-!
# `Pxr24Compressor`: compress and uncompress

`ImfPxr24Compressor.cpp` preprocesses planar pixel data before handing it to zlib. For every
row of a block and every channel not skipped on that row it takes the channel's `n` samples,
turns each into an unsigned integer (a UINT as is, a HALF's 16 bits, a FLOAT's float24
pattern), replaces it by its wraparound difference from the previous sample, and transposes
the differences into 4, 2 or 3 byte planes. `uncompress` inflates and gathers the planes
back, accumulates the differences and writes the pixels.

Both functions run the same two loops; `Pxr24Compressor.slots` lists what those loops visit
(one `Slot` per row and channel that is not skipped), so that `compressTmp` and
`uncompressTmp` are each one recursion over the same list.

Mirroring notes vs the source:
- Buffers are byte lists. `inPtr` and `_tmpBuffer` reads go through `readBytes`, which fails
  with `outOfRange` where the source would read past the data it was given; the source has
  no such error, and the theorems show when it cannot occur.
- The host is taken to be little-endian (`loadLE32`, `storeLE32`): the source copies bytes
  into an `unsigned int` and back, so only the round trip, not the byte order, is visible.
- `compress` writes plane `k` of a slot through its own pointer `ptr[k]`; the model builds
  the same region as `planesOf`, plane after plane.
- `tmpBufferEnd` is a signed offset from `_tmpBuffer`. A negative sample count `n` runs no
  sample loop and moves it back by `-n` per plane, over bytes already written. In
  `uncompress`, `static_cast<uLong>` makes an offset before `_tmpBuffer` larger than any
  buffer, so the size check raises `notEnoughData`; in `compress`, where nothing checks it,
  the source then writes before `_tmpBuffer` or hands zlib a wrapped length, and the model
  raises `tmpUnderrun`. The round-trip theorems assume that no count is negative.
- `modp (y, s)` and `numSamples` are Imath and `ImfMisc` functions, not under src/; the model
  uses Lean's `%` and `/` on `Int`, which agree with them for sampling factors of at least 1;
  for a factor of 0, where Imath divides by zero, it reads `y % 0 = y` and `a / 0 = 0`.
- zlib is a parameter (`Zlib`); `uncompress`'s output buffer of
  `maxScanLineSize * numScanLines` bytes makes zlib fail on a longer stream.
-/

namespace ExrCodecs.Pxr24

inductive PixelType
  | UINT
  | HALF
  | FLOAT
deriving DecidableEq, Repr

-- the fields of a channel the compressor reads (its name is not used)
structure Channel where
  type : PixelType
  xSampling : Int
  ySampling : Int
deriving DecidableEq, Repr

structure Box2i where
  minX : Int
  minY : Int
  maxX : Int
  maxY : Int
deriving DecidableEq, Repr

/-- The compressor's fields: scratch sizes, the header's channel list and the data window
bounds the constructor keeps (`_minX`, `_maxX`, `_maxY`). -/
structure Pxr24Compressor where
  maxScanLineSize : Nat
  numScanLines : Nat
  channels : List Channel
  minX : Int
  maxX : Int
  maxY : Int

/-- The deflate backend: zlib's `compress` and `uncompress`, each of which can fail. -/
structure Zlib where
  compress : List (BitVec 8) → Option (List (BitVec 8))
  uncompress : List (BitVec 8) → Option (List (BitVec 8))

/-- The errors `compress` and `uncompress` raise. -/
inductive Pxr24Error
  /-- `BaseExc ("Data compression (zlib) failed.")` -/
  | compressionFailure
  /-- `InputExc ("Data decompression (zlib) failed.")` -/
  | decompressionFailure
  /-- `notEnoughData ()`: "Error decompressing data (input data are shorter than expected)." -/
  | notEnoughData
  /-- `tooMuchData ()`: "Error decompressing data (input data are longer than expected)." -/
  | tooMuchData
  /-- Not raised by the source: a read at `offset` past the end of a buffer, which the
  source would perform unchecked. -/
  | outOfRange (offset : Nat)
  /-- Not raised by the source: a negative sample count moved `tmpBufferEnd` before
  `_tmpBuffer` in `compress`, after which the source writes before the buffer or hands zlib a
  wrapped length. -/
  | tmpUnderrun
deriving DecidableEq, Repr

/-! ## The traversal -/

/-- Modelled from the spec: the number of sample positions `x` in `[a, b]` that are
multiples of the sampling rate `s` (`numSamples` of `ImfMisc`, not under src/), computed as
`⌊b/s⌋ − ⌈a/s⌉ + 1` with `divp`'s floor division; it is not positive for an empty range. -/
def numSamples (s a b : Int) : Int :=
  let a1 := a / s
  let b1 := b / s
  b1 - a1 + (if a1 * s < a then 0 else 1)

-- one iteration of the two loops: a row's channel that is not skipped, with its type and
-- `n = numSamples (xSampling, minX, maxX)`
structure Slot where
  type : PixelType
  n : Int
deriving DecidableEq, Repr

def rows (minY maxY : Int) : List Int :=
  (List.range (maxY + 1 - minY).toNat).map fun (k : Nat) => minY + k

/-- The slots both loops visit, in order: rows from `range.minY` to
`min (range.maxY, _maxY)`, channels in list order, skipping a channel on a row `y` with
`modp (y, ySampling) ≠ 0` (`modp` is the Euclidean remainder, Lean's `%` on `Int`). -/
def Pxr24Compressor.slots (c : Pxr24Compressor) (range : Box2i) : List Slot :=
  (rows range.minY (min range.maxY c.maxY)).flatMap fun y =>
    c.channels.filterMap fun ch =>
      if y % ch.ySampling ≠ 0 then none
      else some ⟨ch.type, numSamples ch.xSampling range.minX (min range.maxX c.maxX)⟩

theorem Pxr24Compressor.n_nonneg_of_mem_slots {c : Pxr24Compressor} {range : Box2i}
    (hn : ∀ ch ∈ c.channels, 0 ≤ numSamples ch.xSampling range.minX (min range.maxX c.maxX))
    {s : Slot} (hs : s ∈ c.slots range) : 0 ≤ s.n := by
  simp only [Pxr24Compressor.slots, List.mem_flatMap, List.mem_filterMap] at hs
  obtain ⟨y, -, ch, hch, hsome⟩ := hs
  split_ifs at hsome
  cases hsome
  exact hn ch hch

-- bytes of one sample in the caller's data, and byte planes of its difference in `_tmpBuffer`
def PixelType.size : PixelType → Nat
  | .UINT => 4
  | .HALF => 2
  | .FLOAT => 4

def PixelType.planes : PixelType → Nat
  | .UINT => 4
  | .HALF => 2
  | .FLOAT => 3

/-- Bytes the traversal reads from the caller (`n·4`, `n·2` or `n·4` per slot), and bytes of
`_tmpBuffer` it fills (`n·4`, `n·2` or `n·3`), for counts that are not negative. -/
def inputSize (slots : List Slot) : Nat := (slots.map fun s => s.type.size * s.n.toNat).sum

def tmpSize (slots : List Slot) : Nat := (slots.map fun s => s.type.planes * s.n.toNat).sum

@[simp] theorem inputSize_nil : inputSize [] = 0 := rfl

@[simp] theorem inputSize_cons (s : Slot) (rest : List Slot) :
    inputSize (s :: rest) = s.type.size * s.n.toNat + inputSize rest := List.sum_cons

@[simp] theorem tmpSize_nil : tmpSize [] = 0 := rfl

@[simp] theorem tmpSize_cons (s : Slot) (rest : List Slot) :
    tmpSize (s :: rest) = s.type.planes * s.n.toNat + tmpSize rest := List.sum_cons

/-! ## compress -/

/-- The bytes of `buf` at `pos 0, …, pos (m - 1)`, read one at a time as the source's pointer
reads do; a read past the end of `buf` is an access the source does not guard. -/
def readBytes (buf : List (BitVec 8)) (m : Nat) (pos : Nat → Nat) :
    Except Pxr24Error (Nat → BitVec 8) :=
  match (List.range m).find? fun k => buf.length ≤ pos k with
  | some k => .error (.outOfRange (pos k))
  | none => .ok fun k => buf.getD (pos k) 0

/-- The integer `compress` takes from one sample's bytes `b 0, b 1, …` (memory order): a
UINT's `unsigned int`, a HALF's `bits ()`, a FLOAT's `floatToFloat24` pattern. -/
def PixelType.pixelOf : PixelType → (Nat → BitVec 8) → BitVec 32
  | .UINT, b => loadLE32 (b 0) (b 1) (b 2) (b 3)
  | .HALF, b => (loadLE16 (b 0) (b 1)).setWidth 32
  | .FLOAT, b => floatToFloat24 (loadLE32 (b 0) (b 1) (b 2) (b 3))

def sampleValue (input : List (BitVec 8)) (p : Nat) (t : PixelType) :
    Except Pxr24Error (BitVec 32) := do
  let b ← readBytes input t.size (p + ·)
  pure (t.pixelOf b)

/-- The sample loop of one slot in `compress`: `n` samples from position `p`, each replaced
by its wraparound difference from `previousPixel`; also returns the position after them. -/
def compressSamples (input : List (BitVec 8)) (t : PixelType) :
    Nat → Nat → BitVec 32 → Except Pxr24Error (List (BitVec 32) × Nat)
  | 0, p, _ => pure ([], p)
  | n + 1, p, previousPixel => do
    let pixel ← sampleValue input p t
    let (diffs, p') ← compressSamples input t n (p + t.size) pixel
    pure ((pixel - previousPixel) :: diffs, p')

/-- The byte of a difference that goes to plane `k`: plane 0 takes the most significant of
the type's 4, 2 or 3 bytes (`diff >> 24`, `diff >> 8`, `diff >> 16`), the last plane the
least significant. -/
def scatterByte (t : PixelType) (k : Nat) (diff : BitVec 32) : BitVec 8 :=
  (diff >>> (8 * (t.planes - 1 - k))).setWidth 8

/-- A slot's region of `_tmpBuffer`: plane `k` holds byte `k` of every difference, in sample
order. -/
def planesOf (t : PixelType) (diffs : List (BitVec 32)) : List (BitVec 8) :=
  (List.range t.planes).flatMap fun k => diffs.map (scatterByte t k)

/-- `compress` before zlib: the traversal from input position `p`, `tmp` being the bytes of
`_tmpBuffer` below `tmpBufferEnd`. A slot's planes go at `tmpBufferEnd`, which moves on by `n`
per plane; a negative `n` writes nothing and moves it back over what is written. The result
is the `tmpBufferEnd - _tmpBuffer` bytes zlib is given. -/
def compressTmp (input : List (BitVec 8)) :
    List Slot → Nat → List (BitVec 8) → Except Pxr24Error (List (BitVec 8))
  | [], _, tmp => pure tmp
  | s :: rest, p, tmp =>
    let tmpBufferEnd : Int := tmp.length + s.type.planes * s.n
    if tmpBufferEnd < 0 then throw .tmpUnderrun
    else do
      let (diffs, p') ← compressSamples input s.type s.n.toNat p 0
      compressTmp input rest p' ((tmp ++ planesOf s.type diffs).take tmpBufferEnd.toNat)

/-- `Pxr24Compressor::compress`: an empty input compresses to nothing without calling zlib;
otherwise the preprocessed planes are deflated. The result's length is the return value. -/
def Pxr24Compressor.compress (c : Pxr24Compressor) (zlib : Zlib) (input : List (BitVec 8))
    (range : Box2i) : Except Pxr24Error (List (BitVec 8)) :=
  if input.length = 0 then pure []
  else do
    let tmp ← compressTmp input (c.slots range) 0 []
    match zlib.compress tmp with
    | some out => pure out
    | none => throw .compressionFailure

/-! ## uncompress -/

-- a byte operand as C++ promotes it into an `unsigned int` expression
def widen (b : BitVec 8) : BitVec 32 := b.setWidth 32

/-- The difference `uncompress` forms from one sample's plane bytes `p 0, p 1, …`, most
significant first. A FLOAT's three bytes go to bits 31..8. -/
def PixelType.diffOf : PixelType → (Nat → BitVec 8) → BitVec 32
  | .UINT, p => widen (p 0) <<< 24 ||| widen (p 1) <<< 16 ||| widen (p 2) <<< 8 ||| widen (p 3)
  | .HALF, p => widen (p 0) <<< 8 ||| widen (p 1)
  | .FLOAT, p => widen (p 0) <<< 24 ||| widen (p 1) <<< 16 ||| widen (p 2) <<< 8

/-- `diffOf` of sample `j` of a slot whose planes start at `start`: plane `k`'s byte is at
`start + k * n + j` (`*(ptr[k]++)`). -/
def gather (tmp : List (BitVec 8)) (start n j : Nat) (t : PixelType) :
    Except Pxr24Error (BitVec 32) := do
  let p ← readBytes tmp t.planes fun k => start + k * n + j
  pure (t.diffOf p)

/-- The bytes `uncompress` writes for an accumulated pixel: four host bytes for a UINT or a
FLOAT, the two bytes of the low 16 bits for a HALF (`setBits ((unsigned short) pixel)`). -/
def store : PixelType → BitVec 32 → List (BitVec 8)
  | .UINT, pixel => storeLE32 pixel
  | .HALF, pixel => storeLE16 (pixel.setWidth 16)
  | .FLOAT, pixel => storeLE32 pixel

/-- The sample loop of one slot in `uncompress`: with `r` samples left, gather sample `j`'s
difference, add it to `pixel` and write the pixel. -/
def uncompressSamples (tmp : List (BitVec 8)) (t : PixelType) (start n : Nat) :
    Nat → Nat → BitVec 32 → Except Pxr24Error (List (BitVec 8))
  | 0, _, _ => pure []
  | r + 1, j, pixel => do
    let diff ← gather tmp start n j t
    let rest ← uncompressSamples tmp t start n r (j + 1) (pixel + diff)
    pure (store t (pixel + diff) ++ rest)

/-- `uncompress` after zlib: each slot's planes start where the previous slot's end. A slot
whose planes would end past `tmpSize`, or before `_tmpBuffer` (a negative `n`, which the cast
to `uLong` makes a huge offset), raises `notEnoughData` before any of its bytes is read; a
traversal that ends before `tmpSize` raises `tooMuchData`. -/
def uncompressTmp (tmp : List (BitVec 8)) : List Slot → Nat → Except Pxr24Error (List (BitVec 8))
  | [], tmpBufferEnd =>
    if tmpBufferEnd < tmp.length then throw .tooMuchData else pure []
  | s :: rest, start =>
    let tmpBufferEnd : Int := start + s.type.planes * s.n
    if tmpBufferEnd < 0 ∨ tmpBufferEnd > tmp.length then throw .notEnoughData
    else do
      let out ← uncompressSamples tmp s.type start s.n.toNat s.n.toNat 0 0
      let tail ← uncompressTmp tmp rest tmpBufferEnd.toNat
      pure (out ++ tail)

theorem uncompressTmp_cons (tmp : List (BitVec 8)) {s : Slot} (hn : 0 ≤ s.n) (rest : List Slot)
    (start : Nat) :
    uncompressTmp tmp (s :: rest) start =
      (if start + s.type.planes * s.n.toNat > tmp.length then throw .notEnoughData
      else do
        let out ← uncompressSamples tmp s.type start s.n.toNat s.n.toNat 0 0
        let tail ← uncompressTmp tmp rest (start + s.type.planes * s.n.toNat)
        pure (out ++ tail)) := by
  have hend : (start : Int) + s.type.planes * s.n
      = ((start + s.type.planes * s.n.toNat : Nat) : Int) := by
    rw [Nat.cast_add, Nat.cast_mul, Int.toNat_of_nonneg hn]
  rw [uncompressTmp, hend, Int.toNat_ofNat]
  by_cases hc : start + s.type.planes * s.n.toNat > tmp.length
  · rw [if_pos (Or.inr (by exact_mod_cast hc)), if_pos hc]
  · rw [if_neg (by omega), if_neg hc]

/-- `Pxr24Compressor::uncompress`: an empty input gives an empty output; otherwise zlib
inflates into `_tmpBuffer`, which holds `maxScanLineSize * numScanLines` bytes, and the
planes are decoded. -/
def Pxr24Compressor.uncompress (c : Pxr24Compressor) (zlib : Zlib) (input : List (BitVec 8))
    (range : Box2i) : Except Pxr24Error (List (BitVec 8)) :=
  if input.length = 0 then pure []
  else
    match zlib.uncompress input with
    | some tmp =>
      if tmp.length ≤ c.maxScanLineSize * c.numScanLines then uncompressTmp tmp (c.slots range) 0
      else throw .decompressionFailure
    | none => throw .decompressionFailure

/-- The scan-line entry points: a block of `numScanLines` rows from `minY` across the data
window. -/
def Pxr24Compressor.lineRange (c : Pxr24Compressor) (minY : Int) : Box2i :=
  ⟨c.minX, minY, c.maxX, minY + c.numScanLines - 1⟩

end ExrCodecs.Pxr24
