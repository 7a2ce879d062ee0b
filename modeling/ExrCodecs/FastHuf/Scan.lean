import ExrCodecs.FastHuf.Constructor
import ExrCodecs.FastHuf.Bits

/-!
# The code-length scan

The constructor reads the code-book with `readBits`, which keeps up to 7 bits buffered
between calls and fetches one byte whenever fewer bits than asked for are buffered:

> `ReaderInv`: `currBitCount ∈ [0, 7]` bits are buffered below the byte cursor, and they are
> the low bits of `currBits` and the table's bits just before the cursor.

`readBits_spec` says that from `ReaderInv` a call of `readBits n` (`1 ≤ n ≤ 8`) returns the
next `n` bits of the table, fetches at most the byte at the cursor, and restores
`ReaderInv`. The scan checks the cursor against `numBytes` before each call, so on a table of
`numBytes` bytes it reads no byte past the end and runs out of no fuel
(`scanLoop_noFault`); every state it reaches keeps `ScanFacts` (`scanLoop_facts`).
-/

namespace ExrCodecs.FastHuf

/-! ## `readBits` -/

/-- What the scan's reader holds between calls of `readBits`. -/
structure ReaderInv (table : List (BitVec 8)) (currBits : BitVec 64) (currBitCount : Int)
    (currByte : Nat) : Prop where
  count_nonneg : 0 ≤ currBitCount
  count_le : currBitCount ≤ 7
  count_le_read : currBitCount.toNat ≤ 8 * currByte
  cursor_le : currByte ≤ table.length
  window : currBits.toNat % 2 ^ currBitCount.toNat
    = bitsToNat (((bytesToBits table).drop (8 * currByte - currBitCount.toNat)).take
        currBitCount.toNat)

theorem ReaderInv.init (table : List (BitVec 8)) : ReaderInv table 0 0 0 :=
  ⟨le_rfl, by decide, le_rfl, Nat.zero_le _, rfl⟩

/-- Shifting a byte in below a 64-bit word appends its bits to the word's low `k` bits. -/
theorem shiftIn_toNat_mod (x : BitVec 64) (b : BitVec 8) {k : Nat} (hk : k + 8 ≤ 64) :
    ((x <<< 8) ||| b.setWidth 64).toNat % 2 ^ (k + 8) = x.toNat % 2 ^ k * 2 ^ 8 + b.toNat := by
  have hb := b.isLt
  have hsh : (x <<< 8).toNat % 2 ^ 8 = 0 := by
    rw [BitVec.toNat_shiftLeft, Nat.shiftLeft_eq,
      Nat.mod_mod_of_dvd _ (Nat.pow_dvd_pow 2 (by omega))]
    exact Nat.mul_mod_left _ _
  have hbw : (b.setWidth 64).toNat = b.toNat := by
    rw [BitVec.toNat_setWidth, Nat.mod_eq_of_lt (by omega)]
  have hr : x.toNat * 2 ^ 8 % 2 ^ 64 % 2 ^ (k + 8) = x.toNat % 2 ^ k * 2 ^ 8 := by
    rw [Nat.mod_mod_of_dvd _ (Nat.pow_dvd_pow 2 hk), Nat.pow_add, Nat.mul_mod_mul_right]
  have hlt : x.toNat % 2 ^ k * 2 ^ 8 + b.toNat < 2 ^ (k + 8) := by
    have := Nat.mod_lt x.toNat (Nat.two_pow_pos k)
    calc x.toNat % 2 ^ k * 2 ^ 8 + b.toNat < (x.toNat % 2 ^ k + 1) * 2 ^ 8 := by omega
      _ ≤ 2 ^ k * 2 ^ 8 := Nat.mul_le_mul_right _ this
      _ = 2 ^ (k + 8) := (Nat.pow_add 2 k 8).symm
  rw [toNat_or_of_lt hsh (by rw [hbw]; exact hb), hbw, BitVec.toNat_shiftLeft, Nat.shiftLeft_eq,
    Nat.add_mod, hr, Nat.mod_eq_of_lt (show b.toNat < 2 ^ (k + 8) from
      Nat.lt_of_lt_of_le hb (Nat.pow_le_pow_right (by omega) (by omega))),
    Nat.mod_eq_of_lt hlt]

/-- Reading `n` bits off the top of a window of `m` known bits of `X`: the value read, and
the window that stays. -/
theorem readOut {X m n : Nat} {window : List Bool} (hm : window.length = m) (hn : n ≤ m)
    (hX : X % 2 ^ m = bitsToNat window) :
    X / 2 ^ (m - n) % 2 ^ n = bitsToNat (window.take n) ∧
      X % 2 ^ (m - n) = bitsToNat (window.drop n) := by
  constructor
  · rw [← Nat.mod_mul_right_div_self, ← Nat.pow_add, Nat.sub_add_cancel hn, hX, bitsToNat_take,
      hm]
  · rw [← Nat.mod_mod_of_dvd X (Nat.pow_dvd_pow 2 (Nat.sub_le m n)), hX, bitsToNat_drop, hm]

/-- `(buffer >> (m - n)) & ((1 << n) - 1)`. -/
theorem readBits_value (buf : BitVec 64) {m n : Nat} (hn : n ≤ m) (hm : m ≤ 64) :
    ((buf >>> (m - n)) &&& BitVec.ofNat 64 (2 ^ n - 1)).toNat
      = buf.toNat / 2 ^ (m - n) % 2 ^ n := by
  have hmask : (BitVec.ofNat 64 (2 ^ n - 1)).toNat = 2 ^ n - 1 := by
    rw [BitVec.toNat_ofNat, Nat.mod_eq_of_lt]
    have : 2 ^ n ≤ 2 ^ 64 := Nat.pow_le_pow_right (by omega) (by omega)
    omega
  rw [BitVec.toNat_and, hmask, Nat.and_pow_two_sub_one_eq_mod, BitVec.toNat_ushiftRight,
    Nat.shiftRight_eq_div_pow]

theorem readBitsFill_done (table : List (BitVec 8)) {numBits c : Int} (fuel : Nat)
    (buf : BitVec 64) (p : Nat) (h : ¬ c < numBits) :
    readBitsFill table numBits fuel buf c p = .ok (buf, c, p) := by
  unfold readBitsFill
  rw [if_neg h]
  rfl

theorem readBitsFill_fetch (table : List (BitVec 8)) {numBits c : Int} (fuel : Nat)
    (buf : BitVec 64) {p : Nat} (h : c < numBits) (hp : p < table.length) :
    readBitsFill table numBits (fuel + 1) buf c p
      = readBitsFill table numBits fuel ((buf <<< 8) ||| table[p].setWidth 64) (c + 8) (p + 1) := by
  rw [readBitsFill, if_pos h]
  simp only [readByte_ok hp, ok_bind]

/-- `readBits n` from `ReaderInv`, with the table's next `n ≤ 8` bits present: it returns
them, moves the bit position on by `n`, fetches a byte exactly when fewer than `n` bits were
buffered, and restores `ReaderInv`. -/
theorem readBits_spec {table : List (BitVec 8)} {n : Nat} (hn1 : 1 ≤ n) (hn : n ≤ 8)
    {buf : BitVec 64} {c : Int} {p : Nat} (hinv : ReaderInv table buf c p)
    (hend : 8 * p - c.toNat + n ≤ 8 * table.length) :
    ∃ buf' c' p', readBits table n buf c p =
        .ok (bitsToNat (((bytesToBits table).drop (8 * p - c.toNat)).take n), buf', c', p') ∧
      ReaderInv table buf' c' p' ∧ 8 * p' - c'.toNat = 8 * p - c.toNat + n ∧
      p' = (if c < n then p + 1 else p) := by
  obtain ⟨hc0, hc7, hcp, hpt, hwin⟩ := hinv
  set k := c.toNat with hk
  set bits := bytesToBits table
  have hbits : bits.length = 8 * table.length := bytesToBits_length table
  by_cases hlt : c < n
  · -- one byte is shifted in: the window grows to `k + 8` bits
    have hp : p < table.length := by omega
    have hfill : readBitsFill table n n buf c p
        = .ok ((buf <<< 8) ||| table[p].setWidth 64, c + 8, p + 1) := by
      obtain ⟨n', rfl⟩ : ∃ n', n = n' + 1 := ⟨n - 1, by omega⟩
      rw [readBitsFill_fetch table n' buf hlt hp, readBitsFill_done table n' _ _ (by omega)]
    have hwindow : (bits.drop (8 * p - k)).take (k + 8)
        = (bits.drop (8 * p - k)).take k ++ natToBits 8 table[p].toNat := by
      rw [List.take_add, List.drop_drop, Nat.sub_add_cancel hcp, bytesToBits_byte table hp]
    have hX : ((buf <<< 8) ||| table[p].setWidth 64).toNat % 2 ^ (k + 8)
        = bitsToNat ((bits.drop (8 * p - k)).take (k + 8)) := by
      rw [shiftIn_toNat_mod buf table[p] (by omega), hwindow, bitsToNat_append, natToBits_length,
        bitsToNat_byte, hwin]
    have hlen : ((bits.drop (8 * p - k)).take (k + 8)).length = k + 8 := by
      simp only [List.length_take, List.length_drop, hbits]
      omega
    obtain ⟨hval, hrest⟩ := readOut (n := n) hlen (by omega) hX
    refine ⟨(buf <<< 8) ||| table[p].setWidth 64, c + 8 - n, p + 1, ?_,
      ⟨by omega, by omega, by omega, by omega, ?_⟩, by omega, by simp [hlt]⟩
    · simp only [readBits, hfill, ok_bind, shr_ok _ (show (0 : Int) ≤ c + 8 - n by omega)
          (show c + 8 - n < 64 by omega), show (c + 8 - n : Int).toNat = k + 8 - n by omega,
        readBits_value _ (show n ≤ k + 8 by omega) (show k + 8 ≤ 64 by omega), hval,
        List.take_take, Nat.min_eq_left (show n ≤ k + 8 by omega)]
      rfl
    · rw [show (c + 8 - n : Int).toNat = k + 8 - n by omega, hrest, List.drop_take,
        List.drop_drop, show 8 * (p + 1) - (k + 8 - n) = 8 * p - k + n by omega]
  · -- the buffer already holds the bits
    have hfill := readBitsFill_done table n buf p hlt
    have hlen : ((bits.drop (8 * p - k)).take k).length = k := by
      simp only [List.length_take, List.length_drop, hbits]
      omega
    obtain ⟨hval, hrest⟩ := readOut (n := n) hlen (by omega) hwin
    refine ⟨buf, c - n, p, ?_, ⟨by omega, by omega, by omega, hpt, ?_⟩, by omega, by simp [hlt]⟩
    · simp only [readBits, hfill, ok_bind, shr_ok _ (show (0 : Int) ≤ c - n by omega)
          (show c - n < 64 by omega), show (c - n : Int).toNat = k - n by omega,
        readBits_value _ (show n ≤ k by omega) (show k ≤ 64 by omega), hval,
        List.take_take, Nat.min_eq_left (show n ≤ k by omega)]
      rfl
    · rw [show (c - n : Int).toNat = k - n by omega, hrest, List.drop_take, List.drop_drop,
        show 8 * p - (k - n) = 8 * p - k + n by omega]

/-- A call of `readBits n` made with the cursor inside the table succeeds from `ReaderInv`:
the scan's `currByte - table < numBytes` check is all the reader needs. -/
theorem readBits_ok {table : List (BitVec 8)} {n : Nat} (hn1 : 1 ≤ n) (hn : n ≤ 8)
    {buf : BitVec 64} {c : Int} {p : Nat} (hinv : ReaderInv table buf c p)
    (hp : p < table.length) :
    ∃ v buf' c' p', readBits table n buf c p = .ok (v, buf', c', p') ∧
      ReaderInv table buf' c' p' := by
  obtain ⟨buf', c', p', hrun, hinv', -⟩ :=
    readBits_spec hn1 hn hinv (by have := hinv.count_le_read; omega)
  exact ⟨_, buf', c', p', hrun, hinv'⟩

/-! ## What the scan records -/

/-- What the scan records: `minCodeLength ≥ 1`, `maxCodeLength ≤ MAX_CODE_LEN`, every
recorded length between the two, `codeCount[l]` the number of symbols recorded with length
`l`, and the two bounds met by a recorded symbol (before the first one, `minCodeLength` is
still `255` and `maxCodeLength` is `0`). -/
structure ScanFacts (s : ScanState) : Prop where
  min_pos : 1 ≤ s.minCodeLength
  max_le : s.maxCodeLength ≤ MAX_CODE_LEN
  symbol_len : ∀ e ∈ s.symbols, s.minCodeLength ≤ e.2 ∧ e.2 ≤ s.maxCodeLength
  count_eq : ∀ l, s.codeCount l = s.symbols.countP fun e => e.2 = l
  min_mem : s.symbols = [] ∨ ∃ e ∈ s.symbols, e.2 = s.minCodeLength
  max_mem : s.maxCodeLength = 0 ∨ ∃ e ∈ s.symbols, e.2 = s.maxCodeLength
  empty_min : s.symbols = [] → s.minCodeLength = 255

theorem ScanFacts.init : ScanFacts ScanState.init :=
  ⟨by decide, by decide, fun _ h => absurd h (List.not_mem_nil _), fun _ => rfl, Or.inl rfl,
    Or.inl rfl, fun _ => rfl⟩

/-- Either no code at all, or `minCodeLength ≤ maxCodeLength`. -/
theorem ScanFacts.empty_or_le {s : ScanState} (hs : ScanFacts s) :
    s.maxCodeLength = 0 ∨ s.minCodeLength ≤ s.maxCodeLength := by
  rcases hs.max_mem with h | ⟨e, he, _⟩
  · exact .inl h
  · exact .inr ((hs.symbol_len e he).1.trans (hs.symbol_len e he).2)

/-- Every recorded length is in `[1, MAX_CODE_LEN]`. -/
theorem ScanFacts.len_range {s : ScanState} (hs : ScanFacts s) {e : Nat × Nat}
    (he : e ∈ s.symbols) : 1 ≤ e.2 ∧ e.2 ≤ MAX_CODE_LEN :=
  ⟨hs.min_pos.trans (hs.symbol_len e he).1, (hs.symbol_len e he).2.trans hs.max_le⟩

theorem ScanFacts.record {s s' : ScanState} {symbol codeLen : Nat}
    (h : s.record symbol codeLen = .ok s') (hs : ScanFacts s) (h1 : 1 ≤ codeLen)
    (h58 : codeLen ≤ MAX_CODE_LEN) : ScanFacts s' := by
  simp only [ScanState.record, bind_eq_ok] at h
  obtain ⟨c, hc, cc, hcc, h⟩ := h
  cases h
  obtain ⟨-, -, rfl⟩ := index_eq_ok hc
  obtain ⟨-, -, rfl⟩ := write_eq_ok hcc
  obtain ⟨hmin, hmax, hlen, hcount, hminm, hmaxm, hempty⟩ := hs
  have hnew : (symbol, codeLen) ∈ s.symbols ++ [(symbol, codeLen)] := by simp
  refine ⟨by dsimp only; split_ifs <;> omega, by dsimp only; split_ifs <;> omega,
    fun e he => ?_, fun l => ?_, .inr ?_, .inr ?_, fun h => absurd h (by simp)⟩
  · rcases List.mem_append.1 he with he | he
    · have := hlen e he
      dsimp only
      constructor <;> split_ifs <;> omega
    · rw [List.mem_singleton.1 he]
      dsimp only
      constructor <;> split_ifs <;> omega
  · dsimp only
    rw [List.countP_append, ← hcount, Int.toNat_ofNat]
    by_cases hl : l = codeLen
    · subst hl
      simp
    · simp [Function.update_noteq hl, Ne.symm hl]
  · dsimp only
    split_ifs with hlt
    · exact ⟨_, hnew, rfl⟩
    · rcases hminm with h0 | ⟨e, he, hemin⟩
      · simp only [MAX_CODE_LEN] at h58
        exact absurd (hempty h0) (by omega)
      · exact ⟨e, List.mem_append_left _ he, hemin⟩
  · dsimp only
    split_ifs with hgt
    · exact ⟨_, hnew, rfl⟩
    · rcases hmaxm with h0 | ⟨e, he, hemax⟩
      · omega
      · exact ⟨e, List.mem_append_left _ he, hemax⟩

/-- A length in range is always recorded, after the symbols already there, and the reader
is left alone. -/
theorem ScanState.record_ok (s : ScanState) (symbol codeLen : Nat)
    (h58 : codeLen ≤ MAX_CODE_LEN) :
    ∃ s', s.record symbol codeLen = .ok s' ∧ s'.symbols = s.symbols ++ [(symbol, codeLen)] ∧
      s'.currBits = s.currBits ∧ s'.currBitCount = s.currBitCount ∧ s'.currByte = s.currByte := by
  rw [ScanState.record, index_ok _ (by omega) (by simp only [MAX_CODE_LEN] at h58 ⊢; omega),
    ok_bind, write_ok _ _ (by omega) (by simp only [MAX_CODE_LEN] at h58 ⊢; omega), ok_bind]
  exact ⟨_, rfl, rfl, rfl, rfl, rfl⟩

/-- Every state the scan loop reaches keeps `ScanFacts`. -/
theorem scanLoop_facts (table : List (BitVec 8)) (numBytes maxSymbol : Nat) :
    ∀ fuel symbol s s', scanLoop table numBytes maxSymbol fuel symbol s = .ok s' →
      ScanFacts s → ScanFacts s' := by
  intro fuel
  induction fuel with
  | zero =>
    intro symbol s s' h hs
    rw [scanLoop] at h
    by_cases hsym : symbol ≤ maxSymbol
    · rw [if_pos hsym] at h
      cases h
    · rw [if_neg hsym] at h
      cases h
      exact hs
  | succ fuel ih =>
    intro symbol s s' h hs
    have hs' : ∀ cb c p, ScanFacts { s with currBits := cb, currBitCount := c, currByte := p } :=
      fun _ _ _ => ⟨hs.1, hs.2, hs.3, hs.4, hs.5, hs.6, hs.7⟩
    rw [scanLoop] at h
    by_cases hsym : symbol ≤ maxSymbol
    swap
    · rw [if_neg hsym] at h
      cases h
      exact hs
    rw [if_pos hsym] at h
    by_cases hb : s.currByte ≥ numBytes
    · rw [if_pos hb] at h
      cases h
    rw [if_neg hb] at h
    obtain ⟨⟨codeLen, currBits, currBitCount, currByte⟩, -, h⟩ := bind_eq_ok.1 h
    dsimp only at h
    split_ifs at h
    · -- a long zero run: eight more bits, then on
      obtain ⟨_, -, h⟩ := bind_eq_ok.1 h
      split_ifs at h
      exact ih _ _ _ h (hs' _ _ _)
    · exact ih _ _ _ h (hs' _ _ _)
    · -- a literal length: recorded
      obtain ⟨s2, hrec, h⟩ := bind_eq_ok.1 h
      exact ih _ _ _ h (ScanFacts.record hrec (hs' _ _ _) (by omega)
        (by have : SHORT_ZEROCODE_RUN = 59 := rfl; simp only [MAX_CODE_LEN]; omega))
    · exact ih _ _ _ h (hs' _ _ _)

/-! ## No fault -/

/-- The scan loop on a table of `numBytes` bytes, from `ReaderInv` and with fuel for every
symbol left: every `readBits` is made with the cursor inside the table, so the loop reads no
byte past the end, and every round moves `symbol` on, so it runs out of no fuel. -/
theorem scanLoop_noFault {table : List (BitVec 8)} {numBytes maxSymbol : Nat}
    (hlen : table.length = numBytes) :
    ∀ fuel symbol s, ReaderInv table s.currBits s.currBitCount s.currByte →
      maxSymbol + 1 - symbol ≤ fuel → NoFault (scanLoop table numBytes maxSymbol fuel symbol s) := by
  intro fuel
  induction fuel with
  | zero =>
    intro symbol s _ hfuel
    rw [scanLoop, if_neg (by omega)]
    exact Safe.pure trivial
  | succ fuel ih =>
    intro symbol s hs hfuel
    rw [scanLoop]
    by_cases hsym : symbol ≤ maxSymbol
    swap
    · rw [if_neg hsym]
      exact Safe.pure trivial
    rw [if_pos hsym]
    by_cases hb : s.currByte ≥ numBytes
    · rw [if_pos hb]
      exact Safe.throw rfl
    rw [if_neg hb]
    obtain ⟨codeLen, buf, c, p, hrb, hs'⟩ := readBits_ok (n := 6) (by decide) (by decide) hs
      (by omega)
    rw [hrb, ok_bind]
    dsimp only
    simp only [SHORTEST_LONG_RUN, LONG_ZEROCODE_RUN, SHORT_ZEROCODE_RUN] at *
    split_ifs
    · exact Safe.throw rfl
    · -- a long zero run: eight more bits, then on
      obtain ⟨r, buf', c', p', hrb', hs''⟩ := readBits_ok (n := 8) (by decide) le_rfl hs'
        (by omega)
      rw [hrb', ok_bind]
      dsimp only
      split_ifs
      · exact Safe.throw rfl
      · exact ih _ _ hs'' (by omega)
    · exact Safe.throw rfl
    · exact ih _ _ hs' (by omega)
    · -- a literal length: recorded
      obtain ⟨s2, hrec, -, h1, h2, h3⟩ := ScanState.record_ok
        { s with currBits := buf, currBitCount := c, currByte := p } symbol codeLen
        (by simp only [MAX_CODE_LEN]; omega)
      rw [hrec, ok_bind]
      exact ih _ _ (by rw [h1, h2, h3]; exact hs') (by omega)
    · exact ih _ _ hs' (by omega)

/-- The scan over `minSymbol … maxSymbol` of a table of `numBytes` bytes returns no fault. -/
theorem scan_noFault {table : List (BitVec 8)} {numBytes : Nat} (minSymbol maxSymbol : Nat)
    (hlen : table.length = numBytes) : NoFault (scan table numBytes minSymbol maxSymbol) :=
  scanLoop_noFault hlen _ _ _ (ReaderInv.init table) le_rfl

end ExrCodecs.FastHuf
