import ExrCodecs.FastHuf.Lookup
import ExrCodecs.FastHuf.Output

/-!
# Canonical codes and the streams `decode` is meant to read

A stream for `FastHufDecoder::decode` is written with the canonical Huffman code of the
code-book: the `j`-th smallest symbol of length `L` gets the `L`-bit code `base[L] + j`,
where `base[L] = ⌈Σ_{k>L} count[k]·2^(L−k)⌉` (`canonicalBase`, `canonicalCode`). The stream is
a sequence of tokens, literals and runs of the symbol before (`StreamToken`), written as the
concatenation of their codes, a run as the run symbol's code and its count in 8 bits
(`encodeTokens`), and standing for the symbols it expands to (`expandTokens`). These
definitions state what the decoder is for; they are not taken from the source.

Every symbol's code comes first in the bits of a stream that expands to that symbol first,
unless a run comes first (`encodeTokens_head`). On the code-book of 8192 codes of length 13
(`uniformCodebook`), the canonical code of a symbol is its 13-bit binary
(`canonicalCode_uniform`). A buffer of 64 one bits sends `decode` to the acceleration table,
whose entry 4095 was built from `0xFFF0…` and holds symbol 8190 (`step_allOnes`):

> `decode_uniformCodebook_fullBuffer`: five codes of symbol 8191, 65 one bits, come back with
> 8190 first, whatever the rounds after the first do.

> `decode_uniformCodebook_onesPayload`: sixteen bytes `0xFF` decode to the one symbol 8190,
> and no stream that expands to it is written in those bits.
-/

namespace ExrCodecs.FastHuf

/-! ## Canonical codes -/

/-- `base[L] = ⌈Σ_{k>L} count[k]·2^(L−k)⌉` over lengths of at most `MAX_CODE_LEN`, the sum
counted in units of `2^(L−MAX_CODE_LEN)`. -/
def canonicalBase (lens : List Nat) (L : Nat) : Nat :=
  (((List.range' (L + 1) (MAX_CODE_LEN - L)).map fun k =>
      lens.count k * 2 ^ (MAX_CODE_LEN - k)).sum + 2 ^ (MAX_CODE_LEN - L) - 1)
    / 2 ^ (MAX_CODE_LEN - L)

/-- The canonical code of `symbol`, for the lengths `lens` of `minSymbol, minSymbol + 1, …`:
the `j`-th smallest symbol of length `L` gets the `L`-bit code `base[L] + j`. -/
def canonicalCode (minSymbol : Nat) (lens : List Nat) (symbol : Nat) : List Bool :=
  let L := lens.getD (symbol - minSymbol) 0
  natToBits L (canonicalBase lens L + (lens.take (symbol - minSymbol)).count L)

/-! ## Symbol streams -/

/-- A token of a symbol stream. -/
inductive StreamToken where
  /-- A symbol, written as its code. -/
  | literal (symbol : Nat)
  /-- `count` more copies of the symbol before, written as the run symbol's code and
  `count` in 8 bits. -/
  | run (count : Nat)
  deriving Repr, DecidableEq

namespace StreamToken

variable (minSymbol : Nat) (lens : List Nat) (rleSymbol : Nat)

def isLiteral : StreamToken → Bool
  | literal _ => true
  | run _ => false

/-- The tokens a stream may hold: a symbol of `minSymbol … 65535` with a code, other than the
run symbol, or a run of 1 to 255 copies. -/
def Valid : StreamToken → Prop
  | literal symbol => minSymbol ≤ symbol ∧ symbol ≤ 65535 ∧
      lens.getD (symbol - minSymbol) 0 ≠ 0 ∧ symbol ≠ rleSymbol
  | run count => 1 ≤ count ∧ count ≤ 255

instance (t : StreamToken) : Decidable (t.Valid minSymbol lens rleSymbol) :=
  match t with
  | literal _ => inferInstanceAs (Decidable (_ ∧ _))
  | run _ => inferInstanceAs (Decidable (_ ∧ _))

/-- A token's bits, most significant first. -/
def bits : StreamToken → List Bool
  | literal symbol => canonicalCode minSymbol lens symbol
  | run count => canonicalCode minSymbol lens rleSymbol ++ natToBits 8 count

end StreamToken

/-- A stream the decoder is meant to read: valid tokens, the first of them a literal. -/
def StreamValid (minSymbol : Nat) (lens : List Nat) (rleSymbol : Nat) :
    List StreamToken → Prop
  | [] => True
  | t :: ts => t.isLiteral ∧ ∀ u ∈ t :: ts, u.Valid minSymbol lens rleSymbol

instance (minSymbol : Nat) (lens : List Nat) (rleSymbol : Nat) (ts : List StreamToken) :
    Decidable (StreamValid minSymbol lens rleSymbol ts) :=
  match ts with
  | [] => instDecidableTrue
  | _ :: _ => inferInstanceAs (Decidable (_ ∧ _))

/-- The symbols a stream stands for after the symbol `prev`: a literal is its symbol, a run
`count` copies of the symbol before it. -/
def expandFrom (prev : Nat) : List StreamToken → List Nat
  | [] => []
  | .literal symbol :: ts => symbol :: expandFrom symbol ts
  | .run count :: ts => List.replicate count prev ++ expandFrom prev ts

/-- The symbols a stream stands for. -/
def expandTokens (ts : List StreamToken) : List Nat := expandFrom 0 ts

/-- A stream's bits. -/
def encodeTokens (minSymbol : Nat) (lens : List Nat) (rleSymbol : Nat)
    (ts : List StreamToken) : List Bool :=
  ts.flatMap (StreamToken.bits minSymbol lens rleSymbol)

/-- The payload of a stream's bits: packed most significant bit first and zero-padded to at
least 128 bits. -/
def streamPayload (bits : List Bool) : List (BitVec 8) :=
  packBits (bits ++ List.replicate (128 - bits.length) false)

section streams

variable {minSymbol : Nat} {lens : List Nat} {rleSymbol : Nat}

@[simp] theorem encodeTokens_cons (t : StreamToken) (ts : List StreamToken) :
    encodeTokens minSymbol lens rleSymbol (t :: ts)
      = t.bits minSymbol lens rleSymbol ++ encodeTokens minSymbol lens rleSymbol ts :=
  List.flatMap_cons _ _ _

/-- The bits of a stream start with the code of the first symbol it stands for, or with the
run symbol's code when it starts with a run. -/
theorem encodeTokens_head {ts : List StreamToken} {x : Nat} {xs : List Nat}
    (h : expandTokens ts = x :: xs) :
    canonicalCode minSymbol lens x <+: encodeTokens minSymbol lens rleSymbol ts ∨
      canonicalCode minSymbol lens rleSymbol <+: encodeTokens minSymbol lens rleSymbol ts := by
  match ts, h with
  | .literal _ :: _, h =>
    cases (List.cons.inj h).1
    exact .inl (List.prefix_append _ _)
  | .run _ :: _, _ =>
    rw [encodeTokens_cons, StreamToken.bits, List.append_assoc]
    exact .inr (List.prefix_append _ _)

end streams

/-! ## The code-book of 8192 codes of length 13 -/

theorem codeLengths_uniformCodebook : codeLengths uniformCodebook = List.replicate 8192 13 :=
  codeLengths_replicate_literal 13 8192

/-- With no code longer than `L`, `base[L] = 0`. -/
theorem canonicalBase_eq_zero {lens : List Nat} {L : Nat} (h : ∀ k, L < k → lens.count k = 0) :
    canonicalBase lens L = 0 := by
  have hsum : ((List.range' (L + 1) (MAX_CODE_LEN - L)).map fun k =>
      lens.count k * 2 ^ (MAX_CODE_LEN - k)).sum = 0 :=
    List.sum_eq_zero fun x hx => by
      obtain ⟨k, hk, rfl⟩ := List.mem_map.1 hx
      rw [h k (by rw [List.mem_range'_1] at hk; omega), Nat.zero_mul]
  rw [canonicalBase, hsum, Nat.zero_add]
  exact Nat.div_eq_of_lt (Nat.sub_lt (Nat.two_pow_pos _) Nat.one_pos)

theorem canonicalBase_uniform : canonicalBase (List.replicate 8192 13) 13 = 0 :=
  canonicalBase_eq_zero fun k hk => by
    rw [List.count_replicate, if_neg (by simp only [beq_iff_eq]; omega)]

theorem getD_uniform {symbol : Nat} (h : symbol < 8192) :
    (List.replicate 8192 13).getD symbol 0 = 13 := by
  rw [List.getD_eq_getElem?_getD, List.getElem?_replicate, if_pos h]
  rfl

/-- On the uniform code-book, the canonical code of a symbol is its 13-bit binary. -/
theorem canonicalCode_uniform {symbol : Nat} (h : symbol < 8192) :
    canonicalCode 0 (List.replicate 8192 13) symbol = natToBits 13 symbol := by
  rw [canonicalCode, Nat.sub_zero, getD_uniform h, canonicalBase_uniform, Nat.zero_add, List.take_replicate,
    List.count_replicate_self, Nat.min_eq_left h.le]

/-- The uniform code-book's decoder, read from any `buffer` of 64 one bits: the acceleration
table's last entry gives the 13-bit symbol 8190, which it writes. -/
theorem step_allOnes {d : FastHufDecoder} (hmin : d.tableMin = allOnes)
    (hentry : d.tableCodeLen 4095 = 13 ∧ d.tableSymbol 4095 = 2 * 4095) (hrle : d.rleSymbol = 0)
    {src : List (BitVec 8)} {numDstElems : Nat} {s : DecodeState} (hbuf : s.buffer = allOnes)
    (h64 : s.bufferNumBits = 64) (hidx : s.dstIdx < numDstElems) :
    ∃ s', step d src numDstElems s = .ok s' ∧ s'.dstIdx = s.dstIdx + 1 ∧
      s'.dst = Function.update s.dst s.dstIdx 8190 ∧ s'.currBitsLeft = s.currBitsLeft := by
  have htop : (s.buffer >>> (64 - TABLE_LOOKUP_BITS)).toNat = 4095 := by rw [hbuf]; rfl
  exact ⟨_, step_tableLiteral (by rw [hmin, hbuf]; decide) (htop ▸ hentry.1) (htop ▸ hentry.2)
    (by rw [hrle]; decide) hidx (by omega) (by simp only [TABLE_LOOKUP_BITS]; omega),
    rfl, rfl, rfl⟩

/-- `decode`'s first fill from a payload whose first 64 bits are ones. -/
theorem initialState_allOnes {src : List (BitVec 8)} (numSrcBits : Int) (dst : Nat → BitVec 16)
    (h0 : (bytesToBits src).take 64 = List.replicate 64 true) (hlen : 16 ≤ src.length) :
    ∃ s, initialState src numSrcBits dst = .ok s ∧ s.buffer = allOnes ∧ s.bufferNumBits = 64 ∧
      s.dstIdx = 0 ∧ s.dst = dst ∧ s.currBitsLeft = numSrcBits - 128 := by
  obtain ⟨w1, h1, -⟩ := read64_topBits (by omega : 8 + 8 ≤ src.length)
  rw [initialState, read64_eq_of_bits (w := allOnes) (by rw [List.drop_zero, h0]; rfl), ok_bind,
    h1, ok_bind]
  exact ⟨_, rfl, rfl, rfl, rfl, rfl, rfl⟩

theorem bytesToBits_replicate_ones (n : Nat) :
    bytesToBits (List.replicate n 0xFF) = List.replicate (n * 8) true := by
  rw [bytesToBits, List.flatMap_replicate, show natToBits 8 (0xFF : BitVec 8).toNat
    = List.replicate 8 true by decide, List.flatten_replicate_replicate]

/-- Five literals of symbol 8191: enough one bits to fill `buffer`. -/
def fullBufferStream : List StreamToken := List.replicate 5 (.literal 8191)

/-- The stream of five codes of symbol 8191, thirteen one bits each with the canonical code
of the uniform code-book, which the constructor accepts: whatever `decode` does after its
first round, it returns 8190 as the first symbol. -/
theorem decode_uniformCodebook_fullBuffer :
    IsComplete (codeLengths uniformCodebook) ∧
      ∃ d consumed,
        FastHufDecoder.new (packBits (encode uniformCodebook) ++ [0]) 6145 0 8191 0
          = .ok (d, consumed) ∧
        StreamValid 0 (codeLengths uniformCodebook) 0 fullBufferStream ∧
        expandTokens fullBufferStream = List.replicate 5 8191 ∧
        encodeTokens 0 (codeLengths uniformCodebook) 0 fullBufferStream
          = List.replicate 65 true ∧
        ∀ dst', d.decode
            (streamPayload (encodeTokens 0 (codeLengths uniformCodebook) 0 fullBufferStream))
            (max 128 (encodeTokens 0 (codeLengths uniformCodebook) 0 fullBufferStream).length)
            (fun _ => 0) (expandTokens fullBufferStream).length = .ok dst' →
          dst' 0 = 8190 := by
  obtain ⟨d, consumed, hnew, hrle, -, -, -, -, -, -, hmin, hentries⟩ := new_uniformCodebook
  have henc : encodeTokens 0 (codeLengths uniformCodebook) 0 fullBufferStream
      = List.replicate 65 true := by
    rw [encodeTokens, fullBufferStream, List.flatMap_replicate, StreamToken.bits,
      codeLengths_uniformCodebook, canonicalCode_uniform (by norm_num),
      show natToBits 13 8191 = List.replicate 13 true by decide, List.flatten_replicate_replicate]
  have hvalid : StreamValid 0 (codeLengths uniformCodebook) 0 fullBufferStream := by
    refine ⟨rfl, fun u hu => ?_⟩
    have hu5 : u ∈ List.replicate 5 (StreamToken.literal 8191) := hu
    rw [List.eq_of_mem_replicate hu5, codeLengths_uniformCodebook]
    exact ⟨Nat.zero_le _, by norm_num, by rw [Nat.sub_zero, getD_uniform (by norm_num)]; decide,
      by decide⟩
  refine ⟨uniformCodebook_complete, d, consumed, hnew, hvalid, rfl, henc, fun dst' h => ?_⟩
  rw [henc, streamPayload, List.length_replicate,
    show (expandTokens fullBufferStream).length = 5 from rfl] at h
  obtain ⟨-, s₀, s, h₀, hloop, -, rfl⟩ := decode_eq_ok_iff.1 h
  have hread : (bytesToBits (packBits (List.replicate 65 true ++ List.replicate (128 - 65) false))).take
      64 = List.replicate 64 true := by
    rw [bytesToBits_packBits]
    simp
  obtain ⟨t₀, h₀', hbuf, h64, hidx0, hdst0, -⟩ :=
    initialState_allOnes (max 128 (65 : Nat)) (fun _ => 0) hread (by simp)
  rw [h₀'] at h₀
  cases h₀
  obtain ⟨s₁, hstep, hidx1, hdst1, -⟩ := step_allOnes hmin
    (hentries 4095 (by norm_num [TABLE_LOOKUP_BITS])) hrle hbuf h64 (by omega : s₀.dstIdx < 5)
  rw [decodeLoop, if_pos (by omega)] at hloop
  obtain ⟨t₁, hstep', hloop⟩ := bind_eq_ok.1 hloop
  rw [hstep] at hstep'
  cases hstep'
  rw [(decodeLoop_extends hloop).dst_eq 0 (by omega), hdst1, hidx0, Function.update_same]

/-- Sixteen bytes `0xFF` for one symbol, on the uniform code-book: `decode` returns the symbol
8190, and no stream that expands to it, nor any that starts with a run, is written in those
bits. -/
theorem decode_uniformCodebook_onesPayload :
    IsComplete (codeLengths uniformCodebook) ∧
      ∃ d consumed,
        FastHufDecoder.new (packBits (encode uniformCodebook) ++ [0]) 6145 0 8191 0
          = .ok (d, consumed) ∧
        d.decode (List.replicate 16 0xFF) 128 (fun _ => 0) 1
          = .ok (Function.update (fun _ => 0) 0 8190) ∧
        ¬ ∃ ts, expandTokens ts = [8190] ∧
          encodeTokens 0 (codeLengths uniformCodebook) 0 ts
            <+: (bytesToBits (List.replicate 16 0xFF)).take 128 := by
  obtain ⟨d, consumed, hnew, hrle, -, -, -, -, -, -, hmin, hentries⟩ := new_uniformCodebook
  have hones := bytesToBits_replicate_ones 16
  obtain ⟨s₀, h₀, hbuf, h64, hidx0, hdst0, hleft⟩ := initialState_allOnes 128 (fun _ => 0)
    (by rw [hones]; simp) (by simp)
  obtain ⟨s₁, hstep, hidx1, hdst1, hleft1⟩ := step_allOnes hmin
    (hentries 4095 (by norm_num [TABLE_LOOKUP_BITS])) hrle hbuf h64 (by omega : s₀.dstIdx < 1)
  refine ⟨uniformCodebook_complete, d, consumed, hnew,
    decode_eq_ok_iff.2 ⟨le_rfl, s₀, s₁, h₀, ?_, by omega, by rw [hdst1, hidx0, hdst0]⟩, ?_⟩
  · rw [decodeLoop, if_pos (by omega), hstep, ok_bind, decodeLoop, if_neg (by omega)]
    rfl
  · rintro ⟨ts, hexp, hpre⟩
    rw [hones, List.take_replicate, codeLengths_uniformCodebook] at hpre
    have hones_only : ∀ c, c <+: encodeTokens 0 (List.replicate 8192 13) 0 ts → ∀ b ∈ c, b = true :=
      fun c hc b hb => List.eq_of_mem_replicate (((hc.trans hpre).subset) hb)
    rcases @encodeTokens_head 0 (List.replicate 8192 13) 0 ts 8190 [] hexp with h | h <;>
      exact absurd (hones_only _ h false (by rw [canonicalCode_uniform (by norm_num)]; decide))
        (by decide)

end ExrCodecs.FastHuf
