import ExrCodecs.FastHuf.Acceptance
import ExrCodecs.FastHuf.Decode

/-!
# The acceleration table against the reference search

`decode` looks a code up in the acceleration table when `_tableMin <= buffer`, and searches
the lengths from `TABLE_LOOKUP_BITS + 1` otherwise. `_tableMin` is `_ljBase` at the longest
length of at most `TABLE_LOOKUP_BITS` bits in use; when no code is that short, `buildTables`
falls back on `_ljBase[0]`, the all-ones mark, meaning "never use the table". The test is
`<=`, so a buffer of 64 one-bits still takes the table, whose entry `4095` was built for
the probe `0xFFF0…0` and not for the buffer.

The complete code-book with all `8192` symbols of length `13` shows it
(`lookupSymbol_uniformCodebook`): the constructor accepts it, and on an all-ones buffer the
table gives the symbol of code `1111111111110` (`8190`) where the reference search over all
lengths (`referenceLookup`) gives that of `1111111111111` (`8191`).

> `assignIds_run`: a run of symbols of one length gets consecutive ids.

> `buildTables_eq`: what `buildTables` returns from entries that all succeed.
-/

namespace ExrCodecs.FastHuf

/-- The reference search over all lengths: the smallest `L` in
`[minCodeLength, maxCodeLength]` with `_ljBase[L] ≤ b`, and the symbol of id
`_ljOffset[L] + (b >> (64 - L))`; "Decoded an invalid symbol" when there is no such `L` or
the id is not below `numSymbols`. -/
def referenceLookup (d : FastHufDecoder) (b : BitVec 64) : Except FastHufError (Nat × Nat) :=
  match (lengths d.minCodeLength d.maxCodeLength).find? fun L => d.ljBase L ≤ b with
  | none => throw .invalidSymbol
  | some L =>
    let id := (d.ljOffset L + (b >>> (64 - L))).toNat
    if id < d.numSymbols then pure (L, d.idToSymbol id) else throw .invalidSymbol

/-! ## The table path -/

/-- With `_tableMin <= buffer`, the symbol step reads the acceleration entry of the buffer's
top `TABLE_LOOKUP_BITS` bits and leaves the registers alone. -/
theorem lookupSymbol_table (d : FastHufDecoder) (src : List (BitVec 8)) {s : DecodeState}
    (h : d.tableMin ≤ s.buffer) :
    lookupSymbol d src s = .ok (d.tableCodeLen (s.buffer >>> (64 - TABLE_LOOKUP_BITS)).toNat,
      d.tableSymbol (s.buffer >>> (64 - TABLE_LOOKUP_BITS)).toNat, s) := by
  have hlt : (s.buffer >>> (64 - TABLE_LOOKUP_BITS)).toNat < 2 ^ TABLE_LOOKUP_BITS := by
    rw [BitVec.toNat_ushiftRight, Nat.shiftRight_eq_div_pow, Nat.div_lt_iff_lt_mul
      (Nat.two_pow_pos _), ← Nat.pow_add]
    exact s.buffer.isLt
  rw [lookupSymbol, if_pos h]
  dsimp only
  rw [index_ok _ (by omega) (by exact_mod_cast hlt), ok_bind,
    index_ok _ (by omega) (by exact_mod_cast hlt), ok_bind, Int.toNat_ofNat]
  rfl

/-- The probe of entry `i` holds `i` in its top `TABLE_LOOKUP_BITS` bits, so its top
`TABLE_LOOKUP_BITS + 1` bits are `2 i`. -/
theorem tableValue_shiftRight {i : Nat} (hi : i < 2 ^ TABLE_LOOKUP_BITS) :
    (tableValue i >>> (64 - (TABLE_LOOKUP_BITS + 1))).toNat = 2 * i := by
  simp only [TABLE_LOOKUP_BITS] at hi ⊢
  rw [tableValue, BitVec.toNat_ushiftRight, BitVec.toNat_shiftLeft, BitVec.toNat_ofNat,
    Nat.shiftLeft_eq, Nat.shiftRight_eq_div_pow, Nat.mod_eq_of_lt (by omega : i < 2 ^ 64),
    Nat.mod_eq_of_lt (by simp only [TABLE_LOOKUP_BITS]; omega)]
  simp only [TABLE_LOOKUP_BITS]
  omega

/-! ## The constructor on a run of equal lengths -/

theorem recorded_replicate (n : Nat) {l : Nat} (hl : l ≠ 0) :
    ∀ k, recorded n (List.replicate k l) = (List.range' n k).map fun x => (x, l)
  | 0 => rfl
  | k + 1 => by
    rw [List.replicate_succ, recorded_cons, if_neg hl, recorded_replicate (n + 1) hl k,
      List.range'_succ, List.map_cons]
    rfl

theorem codeLengths_replicate_literal (l : Nat) :
    ∀ k, codeLengths (List.replicate k (LengthToken.literal l)) = List.replicate k l
  | 0 => rfl
  | k + 1 => by
    rw [List.replicate_succ, codeLengths_cons, codeLengths_replicate_literal l k]
    rfl

/-- A run of symbols `a, a + 1, …` of one length `L`, with room below `numSymbols` for all of
them from `mapping[L]` on, gets the ids `mapping[L], mapping[L] + 1, …` in order, and the ids
below `mapping[L]` are left alone. -/
theorem assignIds_run (numSymbols : Nat) {L : Nat} (hL : L ≤ MAX_CODE_LEN) :
    ∀ (k a : Nat) (mapping idToSymbol : Nat → Nat), mapping L + k ≤ numSymbols →
      ∃ r, assignIds numSymbols ((List.range' a k).map fun x => (x, L)) mapping idToSymbol
          = .ok r ∧
        (∀ i < mapping L, r i = idToSymbol i) ∧ ∀ j < k, r (mapping L + j) = a + j
  | 0, _, _, idToSymbol, _ => ⟨idToSymbol, rfl, fun _ _ => rfl, fun _ h => absurd h (by omega)⟩
  | k + 1, a, mapping, idToSymbol, hk => by
    simp only [MAX_CODE_LEN] at hL
    rw [List.range'_succ, List.map_cons, assignIds,
      index_ok _ (by omega) (by simp only [MAX_CODE_LEN]; omega), ok_bind, Int.toNat_ofNat,
      if_neg (by omega), write_ok _ _ (by omega) (by omega), ok_bind,
      write_ok _ _ (by omega) (by simp only [MAX_CODE_LEN]; omega), ok_bind, Int.toNat_ofNat,
      Int.toNat_ofNat]
    obtain ⟨r, hr, hframe, hids⟩ := assignIds_run numSymbols hL k (a + 1)
      (Function.update mapping L (mapping L + 1)) (Function.update idToSymbol (mapping L) a)
      (by rw [Function.update_same]; omega)
    rw [Function.update_same] at hframe hids
    refine ⟨r, hr, fun i hi => ?_, fun j hj => ?_⟩
    · rw [hframe i (by omega), Function.update_noteq (by omega)]
    · cases j with
      | zero => rw [Nat.add_zero, hframe _ (by omega), Function.update_same, Nat.add_zero]
      | succ j => rw [show mapping L + (j + 1) = mapping L + 1 + j by omega, hids j (by omega)]
                  omega

/-- `_ljOffset[i] = offset[i] - (_ljBase[i] >> (64 - i))` for every length `i ≥ 1`. -/
theorem computeLjOffset_spec {ljBase ljOffset : Nat → BitVec 64} {offset : Nat → Nat}
    (h : computeLjOffset ljBase offset = .ok ljOffset) {i : Nat} (h1 : 1 ≤ i)
    (hi : i ≤ MAX_CODE_LEN) : ljOffset i = BitVec.ofNat 64 (offset i) - ljBase i >>> (64 - i) := by
  rw [computeLjOffset, index_ok _ le_rfl (by decide), ok_bind, index_ok _ le_rfl (by decide),
    ok_bind, write_ok _ _ le_rfl (by decide), ok_bind, intCounter_eq, List.foldlM_map] at h
  have hloop := (foldlM_write (fun i => do
      let o ← index offset (MAX_CODE_LEN + 1) i
      let b ← index ljBase (MAX_CODE_LEN + 1) i
      let s ← shr b (64 - i : Int)
      pure (BitVec.ofNat 64 o - s)) (MAX_CODE_LEN + 1) _ _ _
    (by simpa only [bind_assoc, pure_bind] using h) i).2 (List.mem_range'_1.2 ⟨h1, by omega⟩)
  simp only [MAX_CODE_LEN] at hi
  rw [index_ok _ (by omega) (by simp only [MAX_CODE_LEN]; omega), ok_bind,
    index_ok _ (by omega) (by simp only [MAX_CODE_LEN]; omega), ok_bind,
    shr_ok _ (by omega) (by omega), ok_bind, Int.toNat_ofNat,
    show ((64 : Int) - i).toNat = 64 - i by omega] at hloop
  exact (Except.ok.inj hloop).symm

/-- `buildTables` from acceleration entries that all succeed: the decoder holds the tables it
was given, the entries, and `_tableMin = _ljBase[minIdx]`. -/
theorem buildTables_eq {rleSymbol : Int} {numSymbols minL maxL : Nat} {idToSymbol : Nat → Nat}
    {base : Nat → BitVec 64} {offset : Nat → Nat} {ljBase ljOffset : Nat → BitVec 64}
    {E : Nat → Nat × Nat} (hlj : computeLjBase base = .ok ljBase)
    (hlo : computeLjOffset ljBase offset = .ok ljOffset)
    (hent : ∀ i < 2 ^ TABLE_LOOKUP_BITS, tableEntry ljBase ljOffset idToSymbol numSymbols
      (tableValue i) (lengths minL maxL) = .ok (E i)) :
    ∃ d, buildTables rleSymbol numSymbols minL maxL idToSymbol base offset = .ok d ∧
      d.rleSymbol = rleSymbol ∧ d.numSymbols = numSymbols ∧ d.minCodeLength = minL ∧ d.maxCodeLength = maxL ∧
      d.idToSymbol = idToSymbol ∧ d.ljBase = ljBase ∧ d.ljOffset = ljOffset ∧
      d.tableMin = ljBase (tableMinIdx ljBase TABLE_LOOKUP_BITS) ∧
      ∀ i < 2 ^ TABLE_LOOKUP_BITS, d.tableCodeLen i = (E i).1 ∧ d.tableSymbol i = (E i).2 := by
  have hmin := (tableMinIdx_spec ljBase TABLE_LOOKUP_BITS).1
  rw [buildTables, hlj, ok_bind, hlo, ok_bind]
  dsimp only
  rw [forM_ok fun i hi => by rw [hent i (List.mem_range.1 hi)]; rfl, ok_bind,
    index_ok _ (by omega) (by simp only [TABLE_LOOKUP_BITS, MAX_CODE_LEN] at hmin ⊢; omega)]
  refine ⟨_, rfl, rfl, rfl, rfl, rfl, rfl, rfl, rfl, rfl, fun i hi => ?_⟩
  dsimp only
  rw [hent i hi]
  exact ⟨rfl, rfl⟩

/-- With every length `1 … n` unused, `minIdx` falls to `0`. -/
theorem tableMinIdx_eq_zero {ljBase : Nat → BitVec 64} :
    ∀ {n}, (∀ i, 1 ≤ i → i ≤ n → ljBase i = allOnes) → tableMinIdx ljBase n = 0
  | 0, _ => rfl
  | n + 1, h => by
    rw [tableMinIdx, if_pos (h (n + 1) (by omega) le_rfl)]
    exact tableMinIdx_eq_zero fun i h1 hi => h i h1 (by omega)

/-! ## A complete code-book with no short code -/

/-- All `8192` symbols `0 … 8191` with codes of length `13`. -/
def uniformCodebook : List LengthToken := List.replicate 8192 (.literal 13)

theorem uniformCodebook_complete : IsComplete (codeLengths uniformCodebook) := by
  rw [IsComplete, uniformCodebook, codeLengths_replicate_literal,
    List.filter_replicate_of_pos (by decide), List.map_replicate, List.sum_replicate, smul_eq_mul]
  decide

/-- The constructor accepts the uniform code-book, written in the wire format (6144 bytes)
with one byte after it: one length, `13`, with `_ljBase[13] = _ljOffset[13] = 0`, id `j` for
symbol `j`, every acceleration entry `i` of length `13` and symbol `2 i`, and no length of at
most `TABLE_LOOKUP_BITS` bits, so that `_tableMin` is the all-ones mark. -/
theorem new_uniformCodebook :
    ∃ d consumed,
      FastHufDecoder.new (packBits (encode uniformCodebook) ++ [0]) 6145 0 8191 0
        = .ok (d, consumed) ∧
      d.rleSymbol = 0 ∧ d.numSymbols = 8192 ∧ d.minCodeLength = 13 ∧ d.maxCodeLength = 13 ∧
      d.ljBase 13 = 0 ∧ d.ljOffset 13 = 0 ∧ (∀ j < 8192, d.idToSymbol j = j) ∧
      d.tableMin = allOnes ∧
      ∀ i < 2 ^ TABLE_LOOKUP_BITS, d.tableCodeLen i = 13 ∧ d.tableSymbol i = 2 * i := by
  have hlens : codeLengths uniformCodebook = List.replicate 8192 13 :=
    codeLengths_replicate_literal 13 8192
  have hpos : List.filter (fun l => decide (l ≠ 0)) (List.replicate 8192 13)
      = List.replicate 8192 13 := List.filter_replicate_of_pos (by decide)
  -- the scan
  have hB : (packBits (encode uniformCodebook)).length = 6144 := by
    rw [packBits_length, length_encode, uniformCodebook, List.map_replicate, List.sum_replicate,
      List.length_replicate]
    rfl
  obtain ⟨s, hs, hsyms, hf, -⟩ := @scan_encode_ok uniformCodebook
    (fun t ht => by rw [List.eq_of_mem_replicate ht]; decide) 0 8191
    (by rw [hlens, List.length_replicate]) [0] 6145 (by rw [hB]; decide)
  have hmin : s.minCodeLength = 13 := by
    rw [hf.minCodeLength_eq hsyms, hlens, minLength, hpos,
      List.min?_replicate_of_pos (Nat.min_self 13) (by decide)]
    rfl
  have hmax : s.maxCodeLength = 13 := by
    rw [hf.maxCodeLength_eq hsyms, hlens, maxLength, hpos,
      List.max?_replicate_of_pos (Nat.max_self 13) (by decide)]
    rfl
  have hnum : numSymbolsOf s.codeCount = 8192 := by
    have hcount : ∀ l, s.codeCount l = if l = 13 then 8192 else 0 := fun l => by
      rw [hf.codeCount_eq hsyms, hlens, hpos, List.count_replicate]
      by_cases h : l = 13
      · subst h
        simp
      · simp [h, Ne.symm h]
    rw [numSymbolsOf, List.map_congr_left fun l _ => hcount l]
    decide
  rw [hlens, recorded_replicate 0 (by decide)] at hsyms
  -- base, offset and ids
  obtain ⟨base, hbase⟩ := @computeBase_ok s.minCodeLength _ hf.max_le s.codeCount
  obtain ⟨offset, hoffset⟩ := @computeOffset_ok s.minCodeLength _ hf.max_le s.codeCount
  obtain ⟨mapping, hmapping⟩ := @computeMapping_ok s.minCodeLength _ hf.max_le offset
  have hl13 : 13 ∈ lengths s.minCodeLength s.maxCodeLength := mem_lengths.2 ⟨by omega, by omega⟩
  have hbase13 : base 13 = 0 := hmax ▸ (computeBase_spec hbase).2 (by omega)
  have hunused : ∀ l, l ≠ 13 → base l = allOnes := fun l hl =>
    (computeBase_spec hbase).1 l (by rw [mem_lengths]; omega)
  have hoff13 : offset 13 = 0 := by
    rw [computeOffset_spec hf.max_le hoffset hl13, hmax, countAbove_self]
  have hmap13 : mapping 13 = 0 := by rw [computeMapping_spec hmapping hl13, hoff13]
  obtain ⟨ids, hids, -, hidval⟩ := assignIds_run 8192 (by decide : 13 ≤ MAX_CODE_LEN) 8192 0
    mapping (fun _ => 0) (by rw [hmap13])
  rw [hmap13] at hidval
  -- the tables
  obtain ⟨ljBase, hlj⟩ := computeLjBase_ok (hunused 0 (by decide))
  obtain ⟨ljOffset, hlo⟩ := computeLjOffset_ok ljBase offset
  have hlj13 : ljBase 13 = 0 := by
    rw [computeLjBase_spec hlj (by decide), hbase13, if_neg (by decide)]
    rfl
  have hlo13 : ljOffset 13 = 0 := by
    rw [computeLjOffset_spec hlo (by decide) (by decide), hoff13, hlj13]
    rfl
  have hzero : ∀ x : BitVec 64, (0 : BitVec 64) + x = x := BitVec.zero_add
  have hent : ∀ i < 2 ^ TABLE_LOOKUP_BITS, tableEntry ljBase ljOffset ids 8192 (tableValue i)
      (lengths s.minCodeLength s.maxCodeLength) = .ok (13, 2 * i) := fun i hi => by
    have h2i := tableValue_shiftRight hi
    simp only [TABLE_LOOKUP_BITS] at hi h2i
    rw [hmin, hmax, show lengths 13 13 = [13] from rfl, tableEntry,
      index_ok _ (by omega) (by decide), ok_bind, Int.toNat_ofNat, hlj13,
      if_pos (BitVec.le_def.2 (Nat.zero_le _)), index_ok _ (by omega) (by decide), ok_bind,
      Int.toNat_ofNat, hlo13, shr_ok _ (by decide) (by decide), ok_bind]
    dsimp only
    rw [hzero, show ((64 : Int) - (13 : Nat)).toNat = 64 - (12 + 1) from rfl, h2i,
      if_pos (by omega), index_ok _ (by omega) (by exact_mod_cast (by omega : 2 * i < 8192)),
      ok_bind, Int.toNat_ofNat, ← Nat.zero_add (2 * i), hidval _ (by omega)]
    rfl
  obtain ⟨d, hd, hdrle, hdnum, hdmin, hdmax, hdids, hdlj, hdlo, hdtm, hdtab⟩ :=
    @buildTables_eq 0 _ _ _ _ _ _ _ _ _ hlj hlo hent
  have htm : d.tableMin = allOnes := by
    rw [hdtm, tableMinIdx_eq_zero fun i h1 hi => by
      rw [computeLjBase_spec hlj (by simp only [TABLE_LOOKUP_BITS, MAX_CODE_LEN] at hi ⊢; omega),
        if_pos (hunused i (by simp only [TABLE_LOOKUP_BITS] at hi; omega))],
      computeLjBase_spec hlj (by decide), if_pos (hunused 0 (by decide))]
  rw [FastHufDecoder.new, hs, ok_bind]
  dsimp only
  rw [hbase, ok_bind, hoffset, ok_bind, hmapping, ok_bind, hnum, hsyms, hids, ok_bind, hd, ok_bind]
  refine ⟨d, s.currByte, rfl, hdrle, hdnum, hdmin.trans hmin, hdmax.trans hmax,
    hdlj ▸ hlj13, hdlo ▸ hlo13, fun j hj => ?_, htm, hdtab⟩
  rw [hdids, ← Nat.zero_add j, hidval j hj]

/-- The complete code-book with every code `13` bits long is accepted, and on a buffer of 64
one-bits the symbol step takes acceleration entry `4095` and returns symbol `8190`, while the
reference search finds length `13` and the id `8191` of the code `1111111111111`. -/
theorem lookupSymbol_uniformCodebook :
    IsComplete (codeLengths uniformCodebook) ∧
      ∃ d consumed,
        FastHufDecoder.new (packBits (encode uniformCodebook) ++ [0]) 6145 0 8191 0
          = .ok (d, consumed) ∧
        (∀ (src : List (BitVec 8)) (s : DecodeState), s.buffer = allOnes →
          lookupSymbol d src s = .ok (13, 8190, s)) ∧
        referenceLookup d allOnes = .ok (13, 8191) := by
  obtain ⟨d, consumed, hnew, -, hnum, hmin, hmax, hlj, hlo, hids, htm, htab⟩ := new_uniformCodebook
  have hzero : ∀ x : BitVec 64, (0 : BitVec 64) + x = x := BitVec.zero_add
  refine ⟨uniformCodebook_complete, d, consumed, hnew, fun src st hst => ?_, ?_⟩
  · rw [lookupSymbol_table d src (by rw [htm, hst]; decide), hst,
      show (allOnes >>> (64 - TABLE_LOOKUP_BITS)).toNat = 4095 from rfl,
      (htab 4095 (by decide)).1, (htab 4095 (by decide)).2]
  · rw [referenceLookup, hmin, hmax, show lengths 13 13 = [13] from rfl, List.find?_cons, hlj,
      show decide ((0 : BitVec 64) ≤ allOnes) = true from rfl]
    dsimp only
    rw [hlo, hzero, show (allOnes >>> (64 - 13)).toNat = 8191 from rfl, hnum, if_pos (by decide),
      hids 8191 (by decide)]
    rfl

end ExrCodecs.FastHuf
