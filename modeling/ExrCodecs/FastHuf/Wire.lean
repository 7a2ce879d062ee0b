import ExrCodecs.FastHuf.Scan

/-!
# The code-length wire format

`FastHufDecoder::FastHufDecoder` reads its code-book as one 6-bit code per symbol from
`minSymbol` to `maxSymbol`, most significant bit first: a literal length `0 … 58`, a run of
`2 … 5` zero lengths as `59 … 62`, or a run of `6 … 261` as `63` followed by eight bits
holding the run less six. This file writes the format (`LengthToken`, `encode`) and shows
that the scan reads back what was written:

> `scanLoop_token`: one round of the scan loop reads one token, moves `symbol` on by the
> symbols it covers, records a literal with a non-zero length, and leaves the reader just
> past the token's bits.

> `scanLoop_encode`: by induction, a whole stream of tokens.

> `scan_encode`: a stream of valid tokens covering `minSymbol … maxSymbol`, packed into `B`
> bytes and followed by anything, is read back whenever `numBytes > B`: the scan records
> exactly the symbols with a non-zero length, in order, counts every length, sets the
> shortest and longest length, and leaves the cursor `B` bytes on.

The check before each read compares the byte cursor with `numBytes`, not the bits the
reader already holds, so `numBytes = B` is not enough (`scan_encode_exactTable`).
-/

namespace ExrCodecs.FastHuf

/-- One code of the code-length stream. -/
inductive LengthToken where
  /-- A symbol's code length, written as itself. -/
  | literal (codeLen : Nat)
  /-- A run of `runLen ∈ [2, 5]` zero lengths. -/
  | shortRun (runLen : Nat)
  /-- A run of `runLen ∈ [6, 261]` zero lengths. -/
  | longRun (runLen : Nat)
  deriving Repr, DecidableEq

namespace LengthToken

/-- The tokens the format can hold. -/
def Valid : LengthToken → Prop
  | literal codeLen => codeLen ≤ MAX_CODE_LEN
  | shortRun runLen => 2 ≤ runLen ∧ runLen < SHORTEST_LONG_RUN
  | longRun runLen => SHORTEST_LONG_RUN ≤ runLen ∧ runLen < SHORTEST_LONG_RUN + 256

instance (t : LengthToken) : Decidable t.Valid :=
  match t with
  | literal _ => inferInstanceAs (Decidable (_ ≤ _))
  | shortRun _ => inferInstanceAs (Decidable (_ ∧ _))
  | longRun _ => inferInstanceAs (Decidable (_ ∧ _))

/-- The 6-bit code a token starts with. -/
def code : LengthToken → Nat
  | literal codeLen => codeLen
  | shortRun runLen => runLen - 2 + SHORT_ZEROCODE_RUN
  | longRun _ => LONG_ZEROCODE_RUN

/-- The bits after the code: a long run's length less `SHORTEST_LONG_RUN`, in 8 bits. -/
def tail : LengthToken → List Bool
  | longRun runLen => natToBits 8 (runLen - SHORTEST_LONG_RUN)
  | _ => []

/-- A token's bits, most significant first. -/
def bits (t : LengthToken) : List Bool := natToBits 6 t.code ++ t.tail

/-- The code lengths a token stands for, one per symbol. -/
def expand : LengthToken → List Nat
  | literal codeLen => [codeLen]
  | shortRun runLen => List.replicate runLen 0
  | longRun runLen => List.replicate runLen 0

end LengthToken

/-- A token stream's bits. -/
def encode (ts : List LengthToken) : List Bool := ts.flatMap LengthToken.bits

/-- The code length of each symbol a token stream covers. -/
def codeLengths (ts : List LengthToken) : List Nat := ts.flatMap LengthToken.expand

/-- The symbols, numbered from `minSymbol`, with a non-zero length, and their lengths: what
the scan records. -/
def recorded (minSymbol : Nat) (lens : List Nat) : List (Nat × Nat) :=
  (lens.enumFrom minSymbol).filter fun e => e.2 ≠ 0

/-- The shortest non-zero length, `255` if there is none. -/
def minLength (lens : List Nat) : Nat := ((lens.filter (· ≠ 0)).min?).getD 255

/-- The longest length, `0` if all are zero. -/
def maxLength (lens : List Nat) : Nat := ((lens.filter (· ≠ 0)).max?).getD 0

/-- The table bits the scan has consumed: the bits of the bytes fetched, less those still
buffered. -/
def ScanState.bitPos (s : ScanState) : Nat := 8 * s.currByte - s.currBitCount.toNat

@[simp] theorem encode_cons (t : LengthToken) (ts : List LengthToken) :
    encode (t :: ts) = t.bits ++ encode ts := List.flatMap_cons _ _ _

@[simp] theorem codeLengths_cons (t : LengthToken) (ts : List LengthToken) :
    codeLengths (t :: ts) = t.expand ++ codeLengths ts := List.flatMap_cons _ _ _

/-! ## Tokens -/

namespace LengthToken

theorem code_lt {t : LengthToken} (ht : t.Valid) : t.code < 64 := by
  cases t <;> simp only [Valid, code, MAX_CODE_LEN, SHORTEST_LONG_RUN, LONG_ZEROCODE_RUN,
    SHORT_ZEROCODE_RUN] at ht ⊢ <;> omega

theorem expand_length_pos {t : LengthToken} (ht : t.Valid) : 0 < t.expand.length := by
  cases t <;> simp only [Valid, expand, List.length_singleton, List.length_replicate,
    SHORTEST_LONG_RUN, LONG_ZEROCODE_RUN, SHORT_ZEROCODE_RUN] at ht ⊢ <;> omega

@[simp] theorem bits_length (t : LengthToken) : t.bits.length = 6 + t.tail.length := by
  simp [bits]

end LengthToken

/-- Six bits per token, and eight more after each long run's code. -/
theorem length_encode (ts : List LengthToken) :
    (encode ts).length = 6 * ts.length + (ts.map fun t => t.tail.length).sum := by
  induction ts with
  | nil => rfl
  | cons t ts ih =>
    rw [encode_cons, List.length_append, ih, LengthToken.bits_length]
    simp only [List.length_cons, List.map_cons, List.sum_cons]
    omega

theorem length_le_codeLengths : ∀ {ts : List LengthToken}, (∀ t ∈ ts, t.Valid) →
    ts.length ≤ (codeLengths ts).length
  | [], _ => le_rfl
  | t :: _, hts => by
    have := LengthToken.expand_length_pos (hts t (List.mem_cons_self _ _))
    have := length_le_codeLengths fun t' ht' => hts t' (List.mem_cons_of_mem _ ht')
    simp only [codeLengths_cons, List.length_append, List.length_cons]
    omega

/-! ## What is recorded -/

@[simp] theorem recorded_nil (n : Nat) : recorded n [] = [] := rfl

theorem recorded_cons (n l : Nat) (lens : List Nat) :
    recorded n (l :: lens) = (if l = 0 then [] else [(n, l)]) ++ recorded (n + 1) lens := by
  by_cases hl : l = 0 <;> simp [recorded, List.filter_cons, hl]

theorem recorded_append (n : Nat) (a b : List Nat) :
    recorded n (a ++ b) = recorded n a ++ recorded (n + a.length) b := by
  simp only [recorded, List.enumFrom_append, List.filter_append]

theorem recorded_replicate_zero (n : Nat) : ∀ r, recorded n (List.replicate r 0) = []
  | 0 => rfl
  | r + 1 => by
    rw [List.replicate_succ, recorded_cons, if_pos rfl, recorded_replicate_zero (n + 1) r]
    rfl

/-- The lengths recorded are the non-zero lengths, in order. -/
theorem recorded_map_snd (n : Nat) (lens : List Nat) :
    (recorded n lens).map Prod.snd = lens.filter (· ≠ 0) := by
  conv_rhs => rw [← List.enumFrom_map_snd n lens]
  rw [recorded, List.filter_map]
  rfl

/-! ## Reading the stream back -/

/-- The first bits of a window that starts with `a ++ b` are `a`, and `b` follows them. -/
theorem window_append {L a b : List Bool} {p : Nat}
    (h : (L.drop p).take (a ++ b).length = a ++ b) :
    (L.drop p).take a.length = a ∧ (L.drop (p + a.length)).take b.length = b := by
  rw [List.length_append] at h
  constructor
  · rw [← Nat.min_eq_left (Nat.le_add_right a.length b.length), ← List.take_take, h,
      List.take_left' rfl]
  · rw [← List.drop_drop, show b.length = a.length + b.length - a.length by omega,
      ← List.drop_take, h, List.drop_left' rfl]

variable {table : List (BitVec 8)} {numBytes maxSymbol : Nat}

/-- One round of the scan loop reads one token back. From a reader whose next bits are the
token's, with room before `numBytes` for its reads and with the symbols it covers inside the
range, the round moves `symbol` on by those symbols, records a literal with a non-zero
length, and leaves the reader just past the token. -/
theorem scanLoop_token {t : LengthToken} (ht : t.Valid) (fuel symbol : Nat) {s : ScanState}
    (hinv : ReaderInv table s.currBits s.currBitCount s.currByte)
    (hwin : ((bytesToBits table).drop s.bitPos).take t.bits.length = t.bits)
    (hroom : s.bitPos + t.bits.length + 2 ≤ 8 * numBytes)
    (hsym : symbol + t.expand.length ≤ maxSymbol + 1) :
    ∃ s', scanLoop table numBytes maxSymbol (fuel + 1) symbol s
        = scanLoop table numBytes maxSymbol fuel (symbol + t.expand.length) s' ∧
      s'.symbols = s.symbols ++ recorded symbol t.expand ∧
      ReaderInv table s'.currBits s'.currBitCount s'.currByte ∧
      s'.bitPos = s.bitPos + t.bits.length := by
  have hlen : s.bitPos + t.bits.length ≤ 8 * table.length := by
    have := congrArg List.length hwin
    rw [List.length_take, List.length_drop, bytesToBits_length, min_eq_left_iff] at this
    have := t.bits_length
    omega
  rw [LengthToken.bits, List.length_append, natToBits_length] at hlen hroom
  obtain ⟨hcode, htail⟩ := window_append hwin
  rw [natToBits_length] at hcode htail
  have hc7 := hinv.count_le
  have hcp := hinv.count_le_read
  unfold ScanState.bitPos at *
  obtain ⟨buf, c, p, hrb, hinv1, hpos1, -⟩ :=
    readBits_spec (n := 6) (by decide) (by decide) hinv (by omega)
  rw [hcode, bitsToNat_natToBits, Nat.mod_eq_of_lt (show t.code < 2 ^ 6 from LengthToken.code_lt ht)] at hrb
  have hexp := LengthToken.expand_length_pos ht
  rw [scanLoop, if_pos (by omega)]
  dsimp only
  rw [if_neg (by omega), hrb, ok_bind]
  dsimp only
  cases t with
  | literal codeLen =>
    simp only [LengthToken.Valid, LengthToken.code, LengthToken.expand, LengthToken.bits_length,
      LengthToken.tail, List.length_singleton, List.length_nil, recorded_cons, recorded_nil,
      List.append_nil, LONG_ZEROCODE_RUN, SHORT_ZEROCODE_RUN, MAX_CODE_LEN] at ht ⊢
    rw [if_neg (by omega), if_neg (by omega)]
    by_cases h0 : codeLen = 0
    · rw [if_neg (not_not.2 h0), if_pos h0]
      exact ⟨_, rfl, (List.append_nil _).symm, hinv1, by dsimp only; omega⟩
    · obtain ⟨s', hrec, hsyms, h1, h2, h3⟩ := ScanState.record_ok
        { s with currBits := buf, currBitCount := c, currByte := p } symbol codeLen
        (by simp only [MAX_CODE_LEN]; omega)
      rw [if_pos h0, if_neg h0, hrec, ok_bind]
      exact ⟨s', rfl, hsyms, by rw [h1, h2, h3]; exact hinv1, by rw [h2, h3]; dsimp only; omega⟩
  | shortRun runLen =>
    simp only [LengthToken.Valid, LengthToken.code, LengthToken.expand, LengthToken.bits_length,
      LengthToken.tail, List.length_replicate, List.length_nil, recorded_replicate_zero,
      List.append_nil, LONG_ZEROCODE_RUN, SHORT_ZEROCODE_RUN, SHORTEST_LONG_RUN]
      at ht hsym hroom ⊢
    rw [if_neg (by omega), if_pos (by omega), if_neg (by omega),
      show runLen - 2 + 59 - 59 + 2 = runLen by omega]
    exact ⟨_, rfl, rfl, hinv1, by dsimp only; omega⟩
  | longRun runLen =>
    simp only [LengthToken.Valid, LengthToken.code, LengthToken.expand, LengthToken.bits_length,
      LengthToken.tail, List.length_replicate, natToBits_length, recorded_replicate_zero,
      List.append_nil, LONG_ZEROCODE_RUN, SHORT_ZEROCODE_RUN, SHORTEST_LONG_RUN]
      at ht hsym hroom htail hlen ⊢
    have hc7' := hinv1.count_le
    have hcp' := hinv1.count_le_read
    rw [if_pos trivial, if_neg (by omega)]
    obtain ⟨buf', c', p', hrb', hinv2, hpos2, -⟩ :=
      readBits_spec (n := 8) (by decide) le_rfl hinv1 (by omega)
    rw [hpos1, htail, bitsToNat_natToBits, Nat.mod_eq_of_lt
      (show runLen - (2 + 63 - 59) < 2 ^ 8 from (by omega : runLen - (2 + 63 - 59) < 256))] at hrb'
    rw [hrb', ok_bind]
    dsimp only
    rw [if_neg (by omega), show runLen - (2 + 63 - 59) + (2 + 63 - 59) = runLen by omega]
    exact ⟨_, rfl, rfl, hinv2, by dsimp only; omega⟩

/-- Once `symbol` is past `maxSymbol` the loop returns its state. -/
theorem scanLoop_done (fuel : Nat) {symbol : Nat} (s : ScanState) (h : maxSymbol < symbol) :
    scanLoop table numBytes maxSymbol fuel symbol s = .ok s := by
  unfold scanLoop
  rw [if_neg (by omega)]
  rfl

/-- The scan loop reads back a stream of valid tokens, one round each: from a reader whose
next bits are the stream's, with room before `numBytes` for every read and the symbols the
stream covers inside the range. -/
theorem scanLoop_encode : ∀ (ts : List LengthToken) (fuel symbol : Nat) (s : ScanState),
    (∀ t ∈ ts, t.Valid) → ReaderInv table s.currBits s.currBitCount s.currByte →
    ((bytesToBits table).drop s.bitPos).take (encode ts).length = encode ts →
    s.bitPos + (encode ts).length + 2 ≤ 8 * numBytes →
    symbol + (codeLengths ts).length ≤ maxSymbol + 1 →
    ∃ s', scanLoop table numBytes maxSymbol (fuel + ts.length) symbol s
        = scanLoop table numBytes maxSymbol fuel (symbol + (codeLengths ts).length) s' ∧
      s'.symbols = s.symbols ++ recorded symbol (codeLengths ts) ∧
      ReaderInv table s'.currBits s'.currBitCount s'.currByte ∧
      s'.bitPos = s.bitPos + (encode ts).length
  | [], _, _, s, _, hinv, _, _, _ => ⟨s, rfl, by simp [codeLengths], hinv, by simp [encode]⟩
  | t :: ts, fuel, symbol, s, hts, hinv, hwin, hroom, hsym => by
    rw [encode_cons] at hwin
    rw [encode_cons, List.length_append] at hroom
    rw [codeLengths_cons, List.length_append] at hsym
    obtain ⟨hwt, hwts⟩ := window_append hwin
    obtain ⟨s1, heq1, hsyms1, hinv1, hpos1⟩ := @scanLoop_token table numBytes maxSymbol t
      (hts t (List.mem_cons_self _ _)) (fuel + ts.length) symbol s hinv hwt (by omega) (by omega)
    obtain ⟨s2, heq2, hsyms2, hinv2, hpos2⟩ := scanLoop_encode ts fuel (symbol + t.expand.length)
      s1 (fun t' ht' => hts t' (List.mem_cons_of_mem _ ht')) hinv1 (by rw [hpos1]; exact hwts)
      (by omega) (by omega)
    refine ⟨s2, ?_, ?_, hinv2, ?_⟩
    · rw [List.length_cons, ← Nat.add_assoc, heq1, heq2, codeLengths_cons, List.length_append,
        Nat.add_assoc]
    · rw [hsyms2, hsyms1, codeLengths_cons, recorded_append, List.append_assoc]
    · rw [hpos2, hpos1, encode_cons, List.length_append, Nat.add_assoc]

/-- Before the scan, the reader's next bits are the packed bits. -/
theorem window_init (pre post : List Bool) (rest : List (BitVec 8)) :
    ((bytesToBits (packBits (pre ++ post) ++ rest)).drop ScanState.init.bitPos).take pre.length
      = pre := by
  rw [show ScanState.init.bitPos = 0 from rfl, List.drop_zero, bytesToBits_append,
    bytesToBits_packBits, List.append_assoc, List.append_assoc, List.take_left' rfl]

/-- The scan reads back a packed stream of valid tokens covering `minSymbol … maxSymbol`,
followed by any bytes, when `numBytes` is past the packed stream: it records the symbols with
a non-zero length and leaves the cursor just past the packed stream. -/
theorem scan_encode_ok (ts : List LengthToken) (hts : ∀ t ∈ ts, t.Valid)
    {minSymbol maxSymbol : Nat} (hcover : minSymbol + (codeLengths ts).length = maxSymbol + 1)
    (rest : List (BitVec 8)) {numBytes : Nat} (hnum : (packBits (encode ts)).length < numBytes) :
    ∃ s, scan (packBits (encode ts) ++ rest) numBytes minSymbol maxSymbol = .ok s ∧
      s.symbols = recorded minSymbol (codeLengths ts) ∧ ScanFacts s ∧
      s.currByte = (packBits (encode ts)).length := by
  rw [packBits_length] at hnum ⊢
  have hfuel := length_le_codeLengths hts
  have hinit : ScanState.init.bitPos = 0 := rfl
  obtain ⟨s, heq, hsyms, hinv, hpos⟩ := @scanLoop_encode (packBits (encode ts) ++ rest) numBytes
    maxSymbol ts (maxSymbol + 1 - minSymbol - ts.length) minSymbol ScanState.init hts
    (ReaderInv.init _) (by simpa using window_init (encode ts) [] rest) (by omega) (by omega)
  have hs : scan (packBits (encode ts) ++ rest) numBytes minSymbol maxSymbol = .ok s := by
    rw [scan, show maxSymbol + 1 - minSymbol = maxSymbol + 1 - minSymbol - ts.length + ts.length
      by omega, heq, scanLoop_done _ _ (by omega)]
  have := hinv.count_le
  have := hinv.count_le_read
  rw [hinit] at hpos
  unfold ScanState.bitPos at hpos
  exact ⟨s, hs, by simpa [ScanState.init] using hsyms,
    scanLoop_facts _ _ _ _ _ _ _ hs ScanFacts.init, by omega⟩

/-! ## What the scan sets, from what it records -/

section facts

variable {s : ScanState} (hf : ScanFacts s) {n : Nat} {lens : List Nat}
  (h : s.symbols = recorded n lens)
include hf h

theorem ScanFacts.codeCount_eq (l : Nat) : s.codeCount l = (lens.filter (· ≠ 0)).count l := by
  rw [hf.count_eq, h, ← recorded_map_snd n lens, List.count, List.countP_map]
  exact List.countP_congr fun _ _ => by simp

theorem ScanFacts.minCodeLength_eq : s.minCodeLength = minLength lens := by
  rw [minLength, ← recorded_map_snd n lens, ← h]
  rcases hf.min_mem with h0 | ⟨e, he, hmin⟩
  · rw [h0, hf.empty_min h0]
    rfl
  · rw [(List.min?_eq_some_iff').2 ⟨List.mem_map.2 ⟨e, he, hmin⟩, fun b hb => ?_⟩]
    · rfl
    obtain ⟨e', he', rfl⟩ := List.mem_map.1 hb
    exact (hf.symbol_len e' he').1

theorem ScanFacts.maxCodeLength_eq : s.maxCodeLength = maxLength lens := by
  rw [maxLength, ← recorded_map_snd n lens, ← h]
  rcases hf.max_mem with h0 | ⟨e, he, hmax⟩
  · have hnil : s.symbols = [] := List.eq_nil_iff_forall_not_mem.2 fun e he => by
      have := hf.symbol_len e he
      have := hf.min_pos
      omega
    rw [hnil, h0]
    rfl
  · rw [(List.max?_eq_some_iff').2 ⟨List.mem_map.2 ⟨e, he, hmax⟩, fun b hb => ?_⟩]
    · rfl
    obtain ⟨e', he', rfl⟩ := List.mem_map.1 hb
    exact (hf.symbol_len e' he').2

end facts

/-- The scan reads back any code-length assignment written in the wire format: a stream of
valid tokens covering `minSymbol … maxSymbol`, packed MSB first into `B` bytes and followed
by any bytes, with `numBytes > B`. It returns without raising, records exactly the symbols
with a non-zero length, with their lengths, in increasing order, counts each length, sets the
shortest and longest length, and leaves the cursor `B` bytes on. -/
theorem scan_encode (ts : List LengthToken) (hts : ∀ t ∈ ts, t.Valid) (minSymbol maxSymbol : Nat)
    (hcover : minSymbol + (codeLengths ts).length = maxSymbol + 1) (rest : List (BitVec 8))
    (numBytes : Nat) (hnum : (packBits (encode ts)).length < numBytes) :
    ∃ s, scan (packBits (encode ts) ++ rest) numBytes minSymbol maxSymbol = .ok s ∧
      s.symbols = recorded minSymbol (codeLengths ts) ∧
      (∀ l, s.codeCount l = ((codeLengths ts).filter (· ≠ 0)).count l) ∧
      s.minCodeLength = minLength (codeLengths ts) ∧
      s.maxCodeLength = maxLength (codeLengths ts) ∧
      s.currByte = (packBits (encode ts)).length := by
  obtain ⟨s, hs, hsyms, hf, hbyte⟩ := scan_encode_ok ts hts hcover rest hnum
  exact ⟨s, hs, hsyms, hf.codeCount_eq hsyms, hf.minCodeLength_eq hsyms,
    hf.maxCodeLength_eq hsyms, hbyte⟩

/-- The spec's two-symbol code-book, lengths `1, 1` in the two bytes `[0x04, 0x10]`, read
back with one byte of room after it. -/
theorem scan_encode_pairCodebook :
    (∀ t ∈ [LengthToken.literal 1, .literal 1], t.Valid) ∧
      0 + (codeLengths [.literal 1, .literal 1]).length = 1 + 1 ∧
      (packBits (encode [.literal 1, .literal 1])).length < 3 ∧
      ∃ s, scan (packBits (encode [.literal 1, .literal 1]) ++ []) 3 0 1 = .ok s ∧
        s.symbols = recorded 0 (codeLengths [.literal 1, .literal 1]) ∧
        (∀ l, s.codeCount l = ((codeLengths [.literal 1, .literal 1]).filter (· ≠ 0)).count l) ∧
        s.minCodeLength = minLength (codeLengths [.literal 1, .literal 1]) ∧
        s.maxCodeLength = maxLength (codeLengths [.literal 1, .literal 1]) ∧
        s.currByte = (packBits (encode [.literal 1, .literal 1])).length :=
  ⟨by decide, rfl, by decide, scan_encode [.literal 1, .literal 1] (by decide) 0 1 rfl [] 3 (by decide)⟩

/-- `numBytes = B` is not enough. The complete code-book with lengths `1, 2, 3, 3` packs into
exactly three bytes; after the first three lengths the reader has fetched all three bytes and
holds the last length's six bits, but the cursor check `currByte - table >= numBytes` refuses
the table as truncated. -/
theorem scan_encode_exactTable :
    (∀ t ∈ [LengthToken.literal 1, .literal 2, .literal 3, .literal 3], t.Valid) ∧
      0 + (codeLengths [.literal 1, .literal 2, .literal 3, .literal 3]).length = 3 + 1 ∧
      (packBits (encode [.literal 1, .literal 2, .literal 3, .literal 3])).length = 3 ∧
      scan (packBits (encode [.literal 1, .literal 2, .literal 3, .literal 3])) 3 0 3
        = .error .tableTruncated := by
  refine ⟨by decide, rfl, rfl, ?_⟩
  have hsplit : encode [.literal 1, .literal 2, .literal 3, .literal 3]
      = encode [.literal 1, .literal 2, .literal 3] ++ encode [.literal 3] := rfl
  obtain ⟨s, heq, -, hinv, hpos⟩ := @scanLoop_encode
    (packBits (encode [.literal 1, .literal 2, .literal 3, .literal 3])) 3 3
    [.literal 1, .literal 2, .literal 3] 1 0 ScanState.init (by decide) (ReaderInv.init _)
    (by rw [hsplit, ← List.append_nil (packBits _)]; exact window_init _ _ [])
    (by decide) (by decide)
  have := hinv.count_le
  have := hinv.count_le_read
  rw [show ScanState.init.bitPos = 0 from rfl, show (encode [.literal 1, .literal 2,
    .literal 3]).length = 18 from rfl] at hpos
  unfold ScanState.bitPos at hpos
  rw [scan, show 3 + 1 - 0 = 1 + [LengthToken.literal 1, .literal 2, .literal 3].length from rfl,
    heq]
  unfold scanLoop
  rw [if_pos (by decide)]
  dsimp only
  rw [if_pos (by omega)]
  rfl

end ExrCodecs.FastHuf
