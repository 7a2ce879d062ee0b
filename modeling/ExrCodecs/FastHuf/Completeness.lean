import ExrCodecs.FastHuf.CodeLookup

/-!
# The constructor accepts every complete code-book

A complete code-book (Kraft's sum exactly one) whose codes have at most 51 bits, written in
the wire format, is accepted by `FastHufDecoder::FastHufDecoder`, with the canonical tables
(`new_complete`, `new_complete_canonical`); every 64-bit word then starts with the code of a
symbol (`exists_code`), and when some code has at most `TABLE_LOOKUP_BITS` bits the symbol
step on a full buffer agrees with the reference search (`lookupSymbol_eq_referenceLookup`).

The constructor throws for such a code-book only if an id leaves `_numSymbols`: in the id
assignment, or in an acceleration entry. The ids of length `l` run from `offset[l]`, the
number of longer codes, for the `codeCount[l]` codes of that length, and with no code of
`MAX_CODE_LEN` bits `_numSymbols` counts them all (`assignIds_ok`). An entry's search stops at
the first length `L` with `base[L]` at most the top `L` bits of the probe; the length before
stopped it not, and a complete code has `base[L] + codeCount[L] = 2 base[L - 1]`, so the probe
is one of the `codeCount[L]` codes of length `L` (`tableEntry_complete`). Above the shortest
length the same holds with `base[min - 1] = 2^(min - 1)` (`canonicalBase_below_min`).
-/

namespace ExrCodecs.FastHuf

/-! ## The id assignment -/

/-- The id assignment succeeds when the ids of each length, from `mapping[l]` on, stay below
`numSymbols`. -/
theorem assignIds_ok (numSymbols : Nat) :
    ∀ {symbols : List (Nat × Nat)} {mapping idToSymbol : Nat → Nat},
      (∀ e ∈ symbols, e.2 ≤ MAX_CODE_LEN) →
      (∀ l, 0 < symbols.countP (fun e => e.2 = l) →
        mapping l + symbols.countP (fun e => e.2 = l) ≤ numSymbols) →
      ∃ r, assignIds numSymbols symbols mapping idToSymbol = .ok r
  | [], _, _, _, _ => ⟨_, rfl⟩
  | (symbol, codeLen) :: rest, mapping, idToSymbol, hlen, hroom => by
    have h58 := hlen _ (List.mem_cons_self _ _)
    have hc := hroom codeLen (by rw [List.countP_cons]; simp)
    rw [List.countP_cons, if_pos (by simp)] at hc
    simp only [MAX_CODE_LEN] at h58
    rw [assignIds, index_ok _ (by omega) (by simp only [MAX_CODE_LEN]; omega), ok_bind,
      Int.toNat_ofNat, if_neg (by omega), write_ok _ _ (by omega) (by omega), ok_bind,
      write_ok _ _ (by omega) (by simp only [MAX_CODE_LEN]; omega), ok_bind, Int.toNat_ofNat]
    refine assignIds_ok numSymbols (fun e he => hlen e (List.mem_cons_of_mem _ he)) fun l hl => ?_
    have := hroom l (by rw [List.countP_cons]; omega)
    rw [List.countP_cons] at this
    by_cases hlc : codeLen = l
    · subst hlc
      rw [Function.update_same]
      simp only [decide_True, if_true] at this
      omega
    · rw [Function.update_noteq (Ne.symm hlc)]
      simpa [hlc] using this

/-! ## Codes by rank, and lengths below the shortest -/

/-- The `j`-th code of length `L`, for `j` below their number, is at some position. -/
theorem exists_take_count {L : Nat} : ∀ {lens : List Nat} {j : Nat}, j < lens.count L →
    ∃ p, lens.getD p 0 = L ∧ (lens.take p).count L = j
  | [], _, h => absurd h (Nat.not_lt_zero _)
  | a :: lens, j, h => by
    by_cases ha : a = L
    · subst ha
      cases j with
      | zero => exact ⟨0, rfl, rfl⟩
      | succ j =>
        rw [List.count_cons_self] at h
        obtain ⟨p, hp, hc⟩ := @exists_take_count a lens j (by omega)
        exact ⟨p + 1, hp, by rw [List.take_succ_cons, List.count_cons_self, hc]⟩
    · rw [List.count_cons_of_ne (Ne.symm ha)] at h
      obtain ⟨p, hp, hc⟩ := exists_take_count h
      exact ⟨p + 1, hp, by rw [List.take_succ_cons, List.count_cons_of_ne (Ne.symm ha), hc]⟩

section complete

variable {lens : List Nat} (hk : weightAbove lens 0 = 2 ^ MAX_CODE_LEN)

theorem count_eq_zero_of_lt_minLength {l : Nat} (h1 : 1 ≤ l) (h : l < minLength lens) :
    lens.count l = 0 :=
  List.count_eq_zero.2 fun hl => by
    have := mem_lengths.1 (mem_lengths_of_mem hl (by omega))
    omega

/-- Below the shortest length every code is longer. -/
theorem weightAbove_below_min : ∀ {L : Nat}, L < minLength lens → L ≤ MAX_CODE_LEN →
    weightAbove lens L = weightAbove lens 0
  | 0, _, _ => rfl
  | L + 1, h, h58 => by
    have hpred := @weightAbove_pred lens _ (Nat.le_add_left 1 L) h58
    rw [Nat.add_sub_cancel, count_eq_zero_of_lt_minLength (Nat.le_add_left 1 L) h, Nat.zero_mul,
      Nat.zero_add] at hpred
    rw [← hpred, weightAbove_below_min (by omega) (by omega)]

include hk

/-- Below the shortest length of a complete code-book, `base[L] = 2^L`: all `L`-bit words
are prefixes of codes. -/
theorem canonicalBase_below_min {L : Nat} (h : L < minLength lens) (h58 : L ≤ MAX_CODE_LEN) :
    canonicalBase lens L = 2 ^ L := by
  have hmul := weightAbove_eq_mul hk h58
  rw [weightAbove_below_min h h58, hk,
    show 2 ^ MAX_CODE_LEN = 2 ^ L * 2 ^ (MAX_CODE_LEN - L) by rw [← Nat.pow_add,
      Nat.add_sub_cancel' h58]] at hmul
  exact (Nat.eq_of_mul_eq_mul_right (Nat.two_pow_pos _) hmul).symm

/-! ## Every word starts with a code -/

/-- From length `a` on, when the top `a` bits of `w` are below `2 base[a - 1]`, the code of
some symbol is at the top of `w`: the first length `L` with `base[L]` at most the top `L` bits
has `base[L] + codeCount[L] = 2 base[L - 1]` above them. -/
theorem exists_code_from (hmax : maxLength lens ≤ 51) (w : BitVec 64) :
    ∀ (n a : Nat), a + n = maxLength lens + 1 → minLength lens ≤ a → 1 ≤ a →
      w.toNat / 2 ^ (64 - a) < 2 * canonicalBase lens (a - 1) →
      ∃ p, lens.getD p 0 ≠ 0 ∧ w.toNat / 2 ^ (64 - lens.getD p 0) = codeValue lens p
  | 0, a, hn, _, _, htop => by
    rw [show a - 1 = maxLength lens by omega,
      canonicalBase_eq_zero fun k hk => count_eq_zero_of_maxLength_lt hk, Nat.mul_zero] at htop
    exact absurd htop (Nat.not_lt_zero _)
  | n + 1, a, hn, hmin, h1, htop => by
    have hcount := canonicalBase_add_count_eq hk h1 (by simp only [MAX_CODE_LEN]; omega)
    by_cases hle : canonicalBase lens a ≤ w.toNat / 2 ^ (64 - a)
    · obtain ⟨p, hp, hc⟩ := @exists_take_count a lens
        (w.toNat / 2 ^ (64 - a) - canonicalBase lens a) (by omega)
      refine ⟨p, by omega, ?_⟩
      rw [codeValue, hp, hc]
      omega
    · have hhalf := top_div_pow w.toNat (k := a) (L := a + 1) (by omega) (by omega)
      rw [show a + 1 - a = 1 by omega, Nat.pow_one] at hhalf
      exact exists_code_from hmax w n (a + 1) (by omega) (by omega) (by omega)
        (by rw [Nat.add_sub_cancel]; omega)

/-- A complete code-book has a code: its shortest length is at most its longest. -/
theorem minLength_le_maxLength : minLength lens ≤ maxLength lens := by
  by_contra hlt
  have h0 : canonicalBase lens 0 = 0 := canonicalBase_eq_zero fun k hk =>
    List.count_eq_zero.2 fun hm => by
      have := mem_lengths.1 (mem_lengths_of_mem hm (by omega))
      omega
  rw [canonicalBase_below_min hk (by omega) (by decide)] at h0
  exact absurd h0 (by decide)

/-- In a complete code-book every 64-bit word starts with the canonical code of a symbol. -/
theorem exists_code (hmax : maxLength lens ≤ 51) (w : BitVec 64) :
    ∃ p, lens.getD p 0 ≠ 0 ∧ w.toNat / 2 ^ (64 - lens.getD p 0) = codeValue lens p := by
  have hne := minLength_le_maxLength hk
  have h1 := (count_minLength_pos (mem_lengths.2 ⟨le_rfl, hne⟩)).1
  refine exists_code_from hk hmax w (maxLength lens + 1 - minLength lens) (minLength lens)
    (by omega) le_rfl h1 ?_
  rw [canonicalBase_below_min hk (by omega) (by simp only [MAX_CODE_LEN]; omega), ← Nat.pow_succ',
    Nat.succ_eq_add_one, Nat.sub_add_cancel h1]
  exact top_lt w (by omega)

/-! ## Acceleration entries -/

variable {ljBase ljOffset : Nat → BitVec 64} {idToSymbol : Nat → Nat} {numSymbols : Nat}
  (hmax : maxLength lens ≤ 51)
  (hlj : ∀ L ∈ lengths (minLength lens) (maxLength lens),
    (ljBase L).toNat = canonicalBase lens L * 2 ^ (64 - L))
  (hlo : ∀ L ∈ lengths (minLength lens) (maxLength lens),
    ljOffset L = BitVec.ofNat 64 (countAbove (fun k => lens.count k) L (maxLength lens))
      - BitVec.ofNat 64 (canonicalBase lens L))
  (hroom : ∀ L ∈ lengths (minLength lens) (maxLength lens),
    countAbove (fun k => lens.count k) L (maxLength lens) + lens.count L ≤ numSymbols)
include hmax hlj hlo hroom

/-- The search of an acceleration entry, from length `a` on, when the top `a` bits of the
probe are below `2 base[a - 1]` (the lengths before `a` did not stop it): it stops at a length
whose id is in range, or finds none. -/
theorem tableEntry_complete (value : BitVec 64) :
    ∀ (n a : Nat), a + n = maxLength lens + 1 → minLength lens ≤ a → 1 ≤ a →
      value.toNat / 2 ^ (64 - a) < 2 * canonicalBase lens (a - 1) →
      ∃ e, tableEntry ljBase ljOffset idToSymbol numSymbols value (List.range' a n) = .ok e
  | 0, _, _, _, _, _ => ⟨_, rfl⟩
  | n + 1, a, hn, hmin, h1, htop => by
    have ha : a ∈ lengths (minLength lens) (maxLength lens) := mem_lengths.2 ⟨hmin, by omega⟩
    have hblt := top_lt value (k := a) (by omega)
    have h2 : 2 ^ a ≤ 2 ^ 51 := Nat.pow_le_pow_right (by decide) (by omega)
    rw [List.range'_succ, tableEntry, index_ok _ (by omega) (by simp only [MAX_CODE_LEN]; omega),
      ok_bind, Int.toNat_ofNat]
    by_cases hle : ljBase a ≤ value
    · -- the probe is a code of length `a`: its id is in range
      have hbase : canonicalBase lens a ≤ value.toNat / 2 ^ (64 - a) := by
        rw [Nat.le_div_iff_mul_le (Nat.two_pow_pos _), ← hlj a ha]
        exact BitVec.le_def.1 hle
      have hcount := canonicalBase_add_count_eq hk h1 (by simp only [MAX_CODE_LEN]; omega)
      have hid : (ljOffset a + value >>> (64 - a)).toNat
          = countAbove (fun k => lens.count k) a (maxLength lens)
            + (value.toNat / 2 ^ (64 - a) - canonicalBase lens a) := by
        have hcA : countAbove (fun k => lens.count k) a (maxLength lens) ≤ 2 ^ 58 :=
          (countAbove_le_weightAbove lens a (by simp only [MAX_CODE_LEN]; omega)).trans
            ((weightAbove_antitone (Nat.zero_le a)).trans hk.le)
        rw [hlo a ha, BitVec.toNat_add, BitVec.toNat_sub, BitVec.toNat_ofNat, BitVec.toNat_ofNat,
          BitVec.toNat_ushiftRight, Nat.shiftRight_eq_div_pow]
        omega
      have hlt : (ljOffset a + value >>> (64 - a)).toNat < numSymbols := by
        have := hroom a ha
        omega
      rw [if_pos hle, index_ok _ (by omega) (by simp only [MAX_CODE_LEN]; omega), ok_bind,
        Int.toNat_ofNat, shr_ok _ (by omega) (by omega), ok_bind]
      dsimp only
      rw [show ((64 : Int) - a).toNat = 64 - a by omega, if_pos hlt,
        index_ok _ (by omega) (by exact_mod_cast hlt), ok_bind]
      exact ⟨_, rfl⟩
    · -- the search goes on: the top `a` bits are below `base[a]`
      rw [if_neg hle]
      have hbelow : value.toNat / 2 ^ (64 - a) < canonicalBase lens a := by
        rw [Nat.div_lt_iff_lt_mul (Nat.two_pow_pos _), ← hlj a ha]
        exact BitVec.lt_def.1 (BitVec.not_le.1 hle)
      have hhalf := top_div_pow value.toNat (k := a) (L := a + 1) (by omega) (by omega)
      rw [show a + 1 - a = 1 by omega, Nat.pow_one] at hhalf
      exact tableEntry_complete value n (a + 1) (by omega) (by omega) (by omega)
        (by rw [Nat.add_sub_cancel]; omega)

/-- Every probe of a complete code-book finds its entry. -/
theorem tableEntry_lengths_ok (value : BitVec 64) :
    ∃ e, tableEntry ljBase ljOffset idToSymbol numSymbols value
      (lengths (minLength lens) (maxLength lens)) = .ok e := by
  by_cases hempty : maxLength lens + 1 ≤ minLength lens
  · rw [lengths, show maxLength lens + 1 - minLength lens = 0 by omega, List.range'_zero]
    exact ⟨_, rfl⟩
  · have hm : minLength lens ∈ lengths (minLength lens) (maxLength lens) :=
      mem_lengths.2 ⟨le_rfl, by omega⟩
    have h1 := (count_minLength_pos hm).1
    refine tableEntry_complete hk hmax hlj hlo hroom value (maxLength lens + 1 - minLength lens)
      (minLength lens) (by omega) le_rfl h1 ?_
    rw [canonicalBase_below_min hk (by omega) (by simp only [MAX_CODE_LEN]; omega), ← Nat.pow_succ',
      Nat.succ_eq_add_one, Nat.sub_add_cancel h1]
    exact top_lt value (by omega)

end complete

/-! ## The tables in closed form -/

/-- The decoder's tables for a complete code-book with lengths `lens` for the symbols from
`minSymbol` on, in closed form: the lengths in use, the left-justified bases and offsets of
the canonical code, every acceleration entry `i` holding the length and symbol of the canonical
code at the top of its probe `i << (64 - TABLE_LOOKUP_BITS)` (a code longer than
`TABLE_LOOKUP_BITS` bits when the probe, zero-padded, starts one), and `_tableMin` the
left-justified base of the longest length in use of at most `TABLE_LOOKUP_BITS` bits, or
all-ones when every code is longer. -/
structure CompleteTables (d : FastHufDecoder) (minSymbol : Nat) (lens : List Nat) : Prop where
  minCodeLength_eq : d.minCodeLength = minLength lens
  maxCodeLength_eq : d.maxCodeLength = maxLength lens
  ljBase_used : ∀ L ∈ lengths (minLength lens) (maxLength lens),
    (d.ljBase L).toNat = canonicalBase lens L * 2 ^ (64 - L)
  ljBase_unused : ∀ L ≤ MAX_CODE_LEN, L ∉ lengths (minLength lens) (maxLength lens) →
    d.ljBase L = allOnes
  ljOffset_used : ∀ L ∈ lengths (minLength lens) (maxLength lens),
    d.ljOffset L = BitVec.ofNat 64 (countAbove (fun k => lens.count k) L (maxLength lens))
      - BitVec.ofNat 64 (canonicalBase lens L)
  entry_code : ∀ i < 2 ^ TABLE_LOOKUP_BITS, ∃ p, lens.getD p 0 ≠ 0 ∧
    (tableValue i).toNat / 2 ^ (64 - lens.getD p 0) = codeValue lens p ∧
    d.tableCodeLen i = lens.getD p 0 ∧ d.tableSymbol i = minSymbol + p
  tableMin_eq : d.tableMin.toNat = if minLength lens ≤ TABLE_LOOKUP_BITS then
    canonicalBase lens (min TABLE_LOOKUP_BITS (maxLength lens))
      * 2 ^ (64 - min TABLE_LOOKUP_BITS (maxLength lens))
    else 2 ^ 64 - 1

/-- The tables `buildTables` computes for a complete code-book are in closed form. -/
theorem CanonicalTables.complete {d : FastHufDecoder} {minSymbol : Nat} {lens : List Nat}
    (ct : CanonicalTables d minSymbol lens) (hk : weightAbove lens 0 = 2 ^ MAX_CODE_LEN) :
    CompleteTables d minSymbol lens := by
  have hne := minLength_le_maxLength hk
  refine ⟨ct.minCodeLength_eq, ct.maxCodeLength_eq, ct.ljBase_used, ct.ljBase_unused,
    ct.ljOffset_used, fun i hi => ?_, ?_⟩
  · obtain ⟨p, hp, hw⟩ := exists_code hk ct.max_le (tableValue i)
    exact ⟨p, hp, hw, tableEntry_code ct hp hi hw⟩
  split_ifs with hshort
  · rw [tableMin_eq_of_short ct hshort hne, ct.ljBase_used _ (mem_lengths.2 ⟨by omega, by omega⟩)]
  · -- every code is longer than `TABLE_LOOKUP_BITS` bits: `minIdx` falls to 0
    have hunused : ∀ i ≤ TABLE_LOOKUP_BITS, d.ljBase i = allOnes := fun i hi =>
      ct.ljBase_unused i (by simp only [TABLE_LOOKUP_BITS, MAX_CODE_LEN] at hi ⊢; omega)
        (by rw [mem_lengths]; omega)
    rw [ct.tableMin_eq, tableMinIdx_eq_zero fun i _ hi => hunused i hi, hunused 0 (Nat.zero_le _),
      allOnes, BitVec.toNat_allOnes]

/-! ## The constructor -/

/-- The spec's two-symbol code-book: lengths `1, 1`. -/
def pairCodebook : List LengthToken := [.literal 1, .literal 1]

/-- With no code of `MAX_CODE_LEN` bits, `_numSymbols` counts the codes of each length in use
and those longer. -/
theorem countAbove_add_le_numSymbols {codeCount : Nat → Nat} {minL maxL L : Nat}
    (hmax : maxL < MAX_CODE_LEN) (hlow : ∀ l < minL, codeCount l = 0)
    (hhigh : ∀ l, maxL < l → codeCount l = 0) (hL : L ∈ lengths minL maxL) :
    countAbove codeCount L maxL + codeCount L ≤ numSymbolsOf codeCount := by
  have hL' := mem_lengths.1 hL
  have hall := count_from_min codeCount (by omega) hlow
  have hzero : countAbove codeCount maxL MAX_CODE_LEN = 0 := by
    rw [@countAbove_congr _ (fun _ => 0) _ _ fun k hk => hhigh k hk]
    simp [countAbove]
  rw [countAbove_add codeCount (by omega : minL ≤ maxL) hmax.le, hzero, Nat.add_zero,
    hhigh _ hmax] at hall
  rcases Nat.eq_or_lt_of_le hL'.1 with rfl | hlt
  · omega
  · have := countAbove_add_le codeCount hlt hL'.2
    omega

/-- The constructor accepts every complete code-book whose codes have at most 51 bits, written
in the wire format with room after it. -/
theorem new_complete (cb : List LengthToken) (hcb : ∀ t ∈ cb, t.Valid)
    {minSymbol maxSymbol : Nat} (hcover : minSymbol + (codeLengths cb).length = maxSymbol + 1)
    (rest : List (BitVec 8)) {numBytes : Nat} (hnum : (packBits (encode cb)).length < numBytes)
    (hcomplete : IsComplete (codeLengths cb)) (hlong : maxLength (codeLengths cb) ≤ 51)
    (rleSymbol : Int) :
    ∃ d consumed, FastHufDecoder.new (packBits (encode cb) ++ rest) numBytes minSymbol maxSymbol
      rleSymbol = .ok (d, consumed) := by
  have hk := (isComplete_iff (codeLengths_le hcb)).1 hcomplete
  obtain ⟨s, hs, hsyms, hf, -⟩ := scan_encode_ok cb hcb hcover rest hnum
  have hminL := hf.minCodeLength_eq hsyms
  have hmaxL := hf.maxCodeLength_eq hsyms
  have hcount : ∀ l, 1 ≤ l → s.codeCount l = (codeLengths cb).count l := fun l hl => by
    rw [hf.codeCount_eq hsyms, List.count_filter (by simpa using (by omega : l ≠ 0))]
  -- no code is shorter than the shortest or longer than the longest
  have hzero : ∀ l, l < s.minCodeLength ∨ s.maxCodeLength < l → s.codeCount l = 0 :=
    fun l hl => by
      rw [hf.count_eq, List.countP_eq_zero]
      intro e he hel
      have := hf.symbol_len e he
      simp only [decide_eq_true_eq] at hel
      omega
  -- `_numSymbols` has room for the ids of every length in use
  have hroom : ∀ L ∈ lengths s.minCodeLength s.maxCodeLength,
      countAbove s.codeCount L s.maxCodeLength + s.codeCount L ≤ numSymbolsOf s.codeCount :=
    fun L hL => countAbove_add_le_numSymbols (by rw [hmaxL, MAX_CODE_LEN]; omega)
      (fun l hl => hzero l (.inl hl)) (fun l hl => hzero l (.inr hl)) hL
  obtain ⟨base, hbase⟩ := computeBase_ok hf.max_le s.codeCount
  obtain ⟨offset, hoffset⟩ := computeOffset_ok hf.max_le s.codeCount
  obtain ⟨mapping, hmapping⟩ := computeMapping_ok hf.max_le offset
  -- the ids
  obtain ⟨ids, hids⟩ := @assignIds_ok (numSymbolsOf s.codeCount) s.symbols mapping (fun _ => 0)
    (fun e he => (hf.len_range he).2) fun l hl => by
      obtain ⟨e, he, hel⟩ := List.countP_pos_iff.1 hl
      simp only [decide_eq_true_eq] at hel
      have hlm : l ∈ lengths s.minCodeLength s.maxCodeLength :=
        mem_lengths.2 (hel ▸ hf.symbol_len e he)
      rw [← hf.count_eq, computeMapping_spec hmapping hlm,
        computeOffset_spec hf.max_le hoffset hlm]
      exact hroom l hlm
  -- the tables
  have h0 : 0 ∉ lengths s.minCodeLength s.maxCodeLength := fun h =>
    absurd (mem_lengths.1 h).1 (Nat.not_le.2 hf.min_pos)
  obtain ⟨ljBase, hlj⟩ := computeLjBase_ok ((computeBase_spec hbase).1 0 h0)
  obtain ⟨ljOffset, hlo⟩ := computeLjOffset_ok ljBase offset
  have hclosed := fun L (hL : L ∈ lengths (minLength (codeLengths cb)) (maxLength (codeLengths cb)))
    => ljTables_canonical hk.le hlong hsyms hf hbase hoffset hlj hlo hL
  have hent : ∀ i, ∃ e, i < 2 ^ TABLE_LOOKUP_BITS → tableEntry ljBase ljOffset ids
      (numSymbolsOf s.codeCount) (tableValue i) (lengths s.minCodeLength s.maxCodeLength)
        = .ok e := fun i => by
    rw [hminL, hmaxL]
    exact (tableEntry_lengths_ok hk hlong (fun L hL => (hclosed L hL).2.1)
      (fun L hL => (hclosed L hL).2.2.2) (fun L hL => by
        have h1 := (count_minLength_pos hL).1.trans (mem_lengths.1 hL).1
        have := hroom L (by rwa [hminL, hmaxL])
        rwa [← hmaxL, ← hcount L h1, countAbove_congr fun k hk => (hcount k (by omega)).symm])
      (tableValue i)).imp fun _ he _ => he
  choose E hE using hent
  obtain ⟨d, hd, -⟩ := @buildTables_eq rleSymbol _ _ _ _ _ _ _ _ E hlj hlo fun i hi => hE i hi
  rw [FastHufDecoder.new, hs, ok_bind]
  dsimp only
  rw [hbase, ok_bind, hoffset, ok_bind, hmapping, ok_bind, hids, ok_bind, hd, ok_bind]
  exact ⟨d, s.currByte, rfl⟩

/-- The constructor accepts every complete code-book whose codes have at most 51 bits, and the
tables it builds are the canonical ones in closed form (`CompleteTables`). -/
theorem new_complete_canonical (cb : List LengthToken) (hcb : ∀ t ∈ cb, t.Valid)
    {minSymbol maxSymbol : Nat} (hcover : minSymbol + (codeLengths cb).length = maxSymbol + 1)
    (rest : List (BitVec 8)) {numBytes : Nat} (hnum : (packBits (encode cb)).length < numBytes)
    (hcomplete : IsComplete (codeLengths cb)) (hlong : maxLength (codeLengths cb) ≤ 51)
    (rleSymbol : Int) :
    ∃ d consumed, FastHufDecoder.new (packBits (encode cb) ++ rest) numBytes minSymbol maxSymbol
        rleSymbol = .ok (d, consumed) ∧
      CompleteTables d minSymbol (codeLengths cb) ∧ d.rleSymbol = rleSymbol := by
  obtain ⟨d, consumed, hd⟩ := new_complete cb hcb hcover rest hnum hcomplete hlong rleSymbol
  have hk := (isComplete_iff (codeLengths_le hcb)).1 hcomplete
  obtain ⟨ct, hrle⟩ := new_canonical cb hcb hcover rest hnum
    ((kraft_iff (codeLengths_le hcb)).2 hk.le) hlong hd
  exact ⟨d, consumed, hd, ct.complete hk, hrle⟩

/-- The code-book `1, 1`, in its two bytes with one byte of room, is accepted. -/
theorem new_complete_canonical_pairCodebook :
    (∀ t ∈ pairCodebook, t.Valid) ∧ 0 + (codeLengths pairCodebook).length = 1 + 1 ∧
      (packBits (encode pairCodebook)).length < 3 ∧ IsComplete (codeLengths pairCodebook) ∧
      maxLength (codeLengths pairCodebook) ≤ 51 ∧
      ∃ d consumed, FastHufDecoder.new (packBits (encode pairCodebook) ++ []) 3 0 1 0xFFFF
          = .ok (d, consumed) ∧
        CompleteTables d 0 (codeLengths pairCodebook) ∧ d.rleSymbol = 0xFFFF :=
  ⟨by decide, by decide, by decide, by decide, by decide,
    new_complete_canonical pairCodebook (by decide) (by decide) [] (by decide) (by decide)
      (by decide) 0xFFFF⟩

/-! ## The symbol step on a complete code-book -/

/-- On a complete code-book with a code of at most `TABLE_LOOKUP_BITS` bits and none longer
than 51, the symbol step on a full buffer, by the table or by the search, has the reference
search's outcome: the length and the symbol of the code at the top of the buffer. -/
theorem lookupSymbol_eq_referenceLookup (cb : List LengthToken) (hcb : ∀ t ∈ cb, t.Valid)
    {minSymbol maxSymbol : Nat} (hcover : minSymbol + (codeLengths cb).length = maxSymbol + 1)
    (rest : List (BitVec 8)) {numBytes : Nat} (hnum : (packBits (encode cb)).length < numBytes)
    (hcomplete : IsComplete (codeLengths cb)) (hlong : maxLength (codeLengths cb) ≤ 51)
    (hshort : minLength (codeLengths cb) ≤ TABLE_LOOKUP_BITS)
    {rleSymbol : Int} {d : FastHufDecoder} {consumed : Nat}
    (hd : FastHufDecoder.new (packBits (encode cb) ++ rest) numBytes minSymbol maxSymbol rleSymbol
      = .ok (d, consumed))
    (src : List (BitVec 8)) (s : DecodeState) (hfull : s.bufferNumBits = 64) :
    ∃ L symbol, lookupSymbol d src s = .ok (L, symbol, s) ∧
      referenceLookup d s.buffer = .ok (L, symbol) := by
  have hk := (isComplete_iff (codeLengths_le hcb)).1 hcomplete
  obtain ⟨ct, -⟩ := new_canonical cb hcb hcover rest hnum
    ((kraft_iff (codeLengths_le hcb)).2 hk.le) hlong hd
  obtain ⟨p, hp, hw⟩ := exists_code hk hlong s.buffer
  refine ⟨_, _, ?_, referenceLookup_code ct hp hw⟩
  by_cases hL12 : (codeLengths cb).getD p 0 ≤ TABLE_LOOKUP_BITS
  · exact lookupSymbol_table_code ct hp hL12 src hw
  · have h12 : TABLE_LOOKUP_BITS = 12 := rfl
    have h51 := ct.le_51 (mem_lengths_of_mem (getD_mem hp) hp)
    refine lookupSymbol_search_code ct hp hshort (by omega)
      (not_tableMin_le_of_code ct hp hshort (by omega) ?_) (by rw [if_neg (by omega)]; rfl) hw
    rw [← hw, top_div_pow _ (by omega) (by omega)]

/-- Registers with the buffer `0x8000…0` full. -/
def topBitRegisters : DecodeState where
  buffer := 0x8000000000000000
  bufferNumBits := 64
  bufferBack := 0
  bufferBackNumBits := 0
  currByte := 0
  currBitsLeft := 0
  dstIdx := 0
  dst := fun _ => 0

/-- On the code-book `1, 1`, a buffer that starts with a one bit reads the same length and
symbol by the table and by the reference search. -/
theorem lookupSymbol_eq_referenceLookup_pairCodebook :
    ∃ d consumed, FastHufDecoder.new (packBits (encode pairCodebook) ++ []) 3 0 1 0xFFFF
        = .ok (d, consumed) ∧
      ∃ L symbol, lookupSymbol d [] topBitRegisters = .ok (L, symbol, topBitRegisters) ∧
        referenceLookup d topBitRegisters.buffer = .ok (L, symbol) := by
  obtain ⟨d, consumed, hd⟩ := @new_complete pairCodebook (by decide) 0 1 (by decide) [] 3
    (by decide) (by decide) (by decide) 0xFFFF
  exact ⟨d, consumed, hd, lookupSymbol_eq_referenceLookup pairCodebook (by decide) (by decide) []
    (by decide) (by decide) (by decide) (by decide) hd [] topBitRegisters rfl⟩

end ExrCodecs.FastHuf
