import ExrCodecs.FastHuf.CodeSpace

/-!
# The constructor's tables in closed form

The constructor computes `base` in `double`. When the lengths satisfy Kraft's inequality and no
code is longer than 51 bits, every value it rounds is an integer below `2^53`, so nothing is
rounded (`roundToDouble_of_lt`) and `base[l]` is the canonical base of the spec
(`computeBase_canonical`). The id assignment gives the symbol at position `p` of the code-book
the id `offset[L] + rank`, its rank among the symbols of its length `L` counted from
`offset[L]`, the number of codes longer than `L` (`assignIds_recorded`).

> `new_canonical`: an accepted code-book, written in the wire format, whose lengths satisfy
> Kraft's inequality and are at most 51, gives tables in closed form (`CanonicalTables`):
> `_ljBase[L] = base[L] << (64 − L)` with `base[L] < 2^L` for every length in use and the
> all-ones mark for the others, `_ljOffset[L] = offset[L] − base[L]`, every symbol at its id
> (`symbolId`), and the acceleration entries and `_tableMin` as `buildTables` computes them.
-/

namespace ExrCodecs.FastHuf

/-! ## Doubles that hold their value -/

/-- A `double` holds every integer below `2^53`. -/
theorem roundToDouble_of_lt {n : Nat} (h : n < 2 ^ 53) : roundToDouble n = n := by
  have hk : excessBits n n = 0 := by
    cases n with
    | zero => rfl
    | succ n => exact if_pos h
  simp [roundToDouble, hk, Nat.mod_one]

/-- The `double` sum of the loop of `baseSum`, from `acc`, is exact while it stays below
`2^53`. -/
theorem foldlM_roundSum {countTmp : Nat → Nat} {maxL : Nat} :
    ∀ {K : List Nat}, (∀ k ∈ K, k ≤ maxL) → ∀ acc, acc + (K.map countTmp).sum < 2 ^ 53 →
      K.foldlM (fun tmp k => do
          let c ← index countTmp (maxL + 1) (k : Int)
          pure (roundToDouble (tmp + c))) acc
        = .ok (acc + (K.map countTmp).sum)
  | [], _, acc, _ => by rw [List.map_nil, List.sum_nil, Nat.add_zero]; rfl
  | k :: K, hK, acc, h => by
    rw [List.map_cons, List.sum_cons] at h
    rw [List.foldlM_cons, index_ok _ (by omega) (by have := hK k (List.mem_cons_self _ _); omega),
      ok_bind, Int.toNat_ofNat, pure_bind, roundToDouble_of_lt (by omega), foldlM_roundSum
      (fun k' hk' => hK k' (List.mem_cons_of_mem _ hk')) _ (by omega), List.map_cons,
      List.sum_cons, Nat.add_assoc]

/-! ## `base` -/

section base

variable {codeCount : Nat → Nat} {minL maxL : Nat} {base : Nat → BitVec 64}

/-- `countTmp[l]`, for every length in use, as the loop computes it. -/
theorem computeCountTmp_spec (hmax : maxL ≤ MAX_CODE_LEN) {countTmp : Nat → Nat}
    (h : computeCountTmp codeCount minL maxL = .ok countTmp) {l : Nat}
    (hl : l ∈ lengths minL maxL) :
    countTmp l = roundToDouble (roundToDouble (codeCount l) * roundToDouble (2 * 2 ^ (maxL - l))) := by
  rw [computeCountTmp, intCounter_eq, List.foldlM_map] at h
  have hloop := (foldlM_write (fun l : Nat => do
      let c ← index codeCount (MAX_CODE_LEN + 1) (l : Int)
      let p ← shlNat 2 ((maxL : Int) - l)
      pure (roundToDouble (roundToDouble c * roundToDouble p))) (maxL + 1) _ _ _
    (by simpa only [bind_assoc, pure_bind] using h) l).2 hl
  rw [mem_lengths] at hl
  simp only [MAX_CODE_LEN] at hmax
  rw [index_ok _ (by omega) (by simp only [MAX_CODE_LEN]; omega), ok_bind, Int.toNat_ofNat,
    shlNat_ok _ (by omega) (by omega), ok_bind, show ((maxL : Int) - l).toNat = maxL - l by omega]
    at hloop
  exact (Except.ok.inj hloop).symm

/-- `base[l]` for every length in use: the ceiling of `baseSum`'s `tmp` over `2ll << (max - l)`. -/
theorem computeBase_used (hmax : maxL ≤ MAX_CODE_LEN)
    (h : computeBase codeCount minL maxL = .ok base) :
    ∃ countTmp, computeCountTmp codeCount minL maxL = .ok countTmp ∧
      ∀ l ∈ lengths minL maxL, ∃ tmp, baseSum countTmp l maxL = .ok tmp ∧
        base l = BitVec.ofNat 64 ((tmp + 2 * 2 ^ (maxL - l) - 1) / (2 * 2 ^ (maxL - l))) := by
  simp only [computeBase, bind_eq_ok] at h
  obtain ⟨countTmp, hcount, h⟩ := h
  refine ⟨countTmp, hcount, fun l hl => ?_⟩
  have hloop := (foldlM_write (fun l => do
      let tmp ← baseSum countTmp l maxL
      let p ← shlNat 2 (maxL - l : Int)
      pure (BitVec.ofNat 64 ((tmp + p - 1) / p))) (MAX_CODE_LEN + 1) _ _ _
    (by simpa only [bind_assoc, pure_bind] using h) l).2 hl
  obtain ⟨tmp, htmp, hloop⟩ := bind_eq_ok.1 hloop
  rw [mem_lengths] at hl
  rw [shlNat_ok _ (by omega) (by simp only [MAX_CODE_LEN] at hmax; omega), ok_bind,
    show ((maxL : Int) - l).toNat = maxL - l by omega] at hloop
  exact ⟨tmp, htmp, (Except.ok.inj hloop).symm⟩

/-- Below `maxL ≤ 57` the weights of the spec are those of the constructor, which counts in
units of `2^-(max+1)`, times `2^(57 - max)`. -/
theorem weightAbove_eq_mul_pow {lens : List Nat} {E l : Nat} (hE : E + 1 ≤ MAX_CODE_LEN)
    (hl : l ≤ E) (hzero : ∀ k, E < k → lens.count k = 0) :
    weightAbove lens l = ((List.range' (l + 1) (E - l)).map fun k =>
        lens.count k * 2 ^ (E + 1 - k)).sum * 2 ^ (MAX_CODE_LEN - (E + 1)) := by
  have hhigh : ((List.range' (E + 1) (MAX_CODE_LEN - E)).map fun k =>
      lens.count k * 2 ^ (MAX_CODE_LEN - k)).sum = 0 :=
    List.sum_eq_zero fun x hx => by
      obtain ⟨k, hk, rfl⟩ := List.mem_map.1 hx
      rw [hzero k (by rw [List.mem_range'_1] at hk; omega), Nat.zero_mul]
  rw [weightAbove, show MAX_CODE_LEN - l = (MAX_CODE_LEN - E) + (E - l) by omega,
    ← List.range'_append_1 (l + 1) (E - l) (MAX_CODE_LEN - E), List.map_append, List.sum_append,
    show l + 1 + (E - l) = E + 1 by omega, hhigh, Nat.add_zero, ← List.sum_map_mul_right]
  refine congrArg List.sum (List.map_congr_left fun k hk => ?_)
  rw [List.mem_range'_1] at hk
  rw [Nat.mul_assoc, ← Nat.pow_add]
  congr 2
  omega

/-- With exact doubles, `base[l]` is the canonical base, for every length in use. -/
theorem computeBase_canonical {lens : List Nat} (hk : weightAbove lens 0 ≤ 2 ^ MAX_CODE_LEN)
    (hmax : maxL ≤ 51) (hmin : 1 ≤ minL) (hcount : ∀ l, 1 ≤ l → codeCount l = lens.count l)
    (hzero : ∀ k, maxL < k → lens.count k = 0)
    (h : computeBase codeCount minL maxL = .ok base) {l : Nat} (hl : l ∈ lengths minL maxL) :
    base l = BitVec.ofNat 64 (canonicalBase lens l) := by
  have hmax58 : maxL ≤ MAX_CODE_LEN := hmax.trans (by decide)
  obtain ⟨countTmp, hcount', hbase⟩ := computeBase_used hmax58 h
  obtain ⟨tmp, htmp, hbl⟩ := hbase l hl
  rw [mem_lengths] at hl
  have hpow : ∀ k, k ≤ maxL → 2 ^ (MAX_CODE_LEN - k)
      = 2 ^ (maxL + 1 - k) * 2 ^ (MAX_CODE_LEN - (maxL + 1)) := fun k hk => by
    rw [← Nat.pow_add]; congr 1; simp only [MAX_CODE_LEN] at hmax ⊢; omega
  have hscale : 0 < 2 ^ (MAX_CODE_LEN - (maxL + 1)) := Nat.two_pow_pos _
  -- each `countTmp[k]`, `k` in use, is exact and at most `2^(max+1)`
  have hterm : ∀ k, minL ≤ k → k ≤ maxL →
      countTmp k = lens.count k * 2 ^ (maxL + 1 - k) ∧
        lens.count k * 2 ^ (maxL + 1 - k) ≤ 2 ^ (maxL + 1) := fun k hk1 hk2 => by
    have hw := (@weightAbove_add_count_le lens _ _ (by omega : 0 < k)
      (hk2.trans hmax58)).trans hk
    rw [hpow k hk2, show 2 ^ MAX_CODE_LEN = 2 ^ (maxL + 1) * 2 ^ (MAX_CODE_LEN - (maxL + 1)) by
      rw [← Nat.pow_add]; congr 1; simp only [MAX_CODE_LEN] at hmax ⊢; omega,
      ← Nat.mul_assoc] at hw
    have hle : lens.count k * 2 ^ (maxL + 1 - k) ≤ 2 ^ (maxL + 1) :=
      le_of_mul_le_mul_right (by omega) hscale
    have h52 : 2 ^ (maxL + 1) ≤ 2 ^ 52 := Nat.pow_le_pow_right (by decide) (by omega)
    refine ⟨?_, hle⟩
    rw [computeCountTmp_spec hmax58 hcount' (mem_lengths.2 ⟨hk1, hk2⟩), hcount k (by omega),
      show 2 * 2 ^ (maxL - k) = 2 ^ (maxL + 1 - k) by
        rw [← Nat.pow_succ']; congr 1; omega]
    have hc : lens.count k ≤ 2 ^ (maxL + 1) :=
      le_trans (Nat.le_mul_of_pos_right _ (Nat.two_pow_pos _)) hle
    have hp : 2 ^ (maxL + 1 - k) ≤ 2 ^ (maxL + 1) := Nat.pow_le_pow_right (by decide) (by omega)
    rw [@roundToDouble_of_lt (lens.count k) (by omega),
      @roundToDouble_of_lt (2 ^ (maxL + 1 - k)) (by omega), roundToDouble_of_lt (by omega)]
  -- `tmp` is the sum of the terms above `l`, `weightAbove` scaled down
  have hsum : ((List.range' (l + 1) (maxL - l)).map countTmp).sum
      = ((List.range' (l + 1) (maxL - l)).map fun k => lens.count k * 2 ^ (maxL + 1 - k)).sum :=
    congrArg List.sum (List.map_congr_left fun k hk => by
      rw [List.mem_range'_1] at hk
      exact (hterm k (by omega) (by omega)).1)
  have hw := weightAbove_eq_mul_pow (by simp only [MAX_CODE_LEN]; omega) hl.2 hzero
  have hwl : weightAbove lens l ≤ 2 ^ (maxL + 1) * 2 ^ (MAX_CODE_LEN - (maxL + 1)) := by
    rw [← Nat.pow_add, show maxL + 1 + (MAX_CODE_LEN - (maxL + 1)) = MAX_CODE_LEN by
      simp only [MAX_CODE_LEN] at hmax ⊢; omega]
    exact (weightAbove_antitone (Nat.zero_le l)).trans hk
  rw [hw] at hwl
  have hS := le_of_mul_le_mul_right hwl hscale
  have h52 : 2 ^ (maxL + 1) ≤ 2 ^ 52 := Nat.pow_le_pow_right (by decide) (by omega)
  rw [baseSum, intCounter_eq, List.foldlM_map,
    foldlM_roundSum (fun k hk => by rw [List.mem_range'_1] at hk; omega) 0
      (by rw [Nat.zero_add, hsum]; omega), Nat.zero_add, hsum] at htmp
  rw [hbl, ← Except.ok.inj htmp, canonicalBase_eq, hw, hpow l hl.2,
    ceil_mul_right (Nat.two_pow_pos _) hscale,
    show 2 * 2 ^ (maxL - l) = 2 ^ (maxL + 1 - l) by rw [← Nat.pow_succ']; congr 1; omega]

end base

/-! ## The lengths in use -/

section lens

variable {lens : List Nat} {l : Nat}

theorem mem_filter_ne_zero (hl : l ∈ lens) (h0 : l ≠ 0) : l ∈ lens.filter (· ≠ 0) :=
  List.mem_filter.2 ⟨hl, by simpa using h0⟩

/-- Every non-zero length lies between the shortest and the longest. -/
theorem mem_lengths_of_mem (hl : l ∈ lens) (h0 : l ≠ 0) :
    l ∈ lengths (minLength lens) (maxLength lens) := by
  have hmem := mem_filter_ne_zero hl h0
  obtain ⟨a, ha⟩ := Option.isSome_iff_exists.1 (List.isSome_min?_of_mem hmem)
  obtain ⟨b, hb⟩ := Option.isSome_iff_exists.1 (List.isSome_max?_of_mem hmem)
  rw [mem_lengths, minLength, maxLength, ha, hb]
  exact ⟨(List.min?_eq_some_iff'.1 ha).2 l hmem, (List.max?_eq_some_iff'.1 hb).2 l hmem⟩

theorem count_eq_zero_of_maxLength_lt (h : maxLength lens < l) : lens.count l = 0 :=
  List.count_eq_zero.2 fun hl => by
    have := (mem_lengths.1 (mem_lengths_of_mem hl (by omega))).2
    omega

/-- Where a length is in use, the shortest one is, and it is not zero. -/
theorem count_minLength_pos (h : l ∈ lengths (minLength lens) (maxLength lens)) :
    1 ≤ minLength lens ∧ 0 < lens.count (minLength lens) := by
  cases hmin : (lens.filter (· ≠ 0)).min? with
  | none =>
    rw [List.min?_eq_none_iff] at hmin
    rw [mem_lengths, maxLength, minLength, hmin] at h
    simp only [List.min?_nil, List.max?_nil, Option.getD_none] at h
    omega
  | some a =>
    have ha := (List.mem_filter.1 (List.min?_eq_some_iff'.1 hmin).1)
    rw [minLength, hmin]
    exact ⟨Nat.pos_of_ne_zero (by simpa using ha.2), List.count_pos_iff.2 ha.1⟩

/-- The symbols of length `l` before position `p` are fewer than all of them when the symbol
at `p` has length `l`. -/
theorem count_take_lt {p : Nat} (h : lens.getD p 0 = l) (h0 : l ≠ 0) :
    (lens.take p).count l < lens.count l := by
  have hp : p < lens.length := by
    by_contra hp
    rw [List.getD_eq_default _ _ (by omega)] at h
    exact h0 h.symm
  have hsplit : lens.count l = (lens.take p).count l + (lens.drop p).count l := by
    rw [← List.count_append, List.take_append_drop]
  rw [hsplit, List.drop_eq_getElem_cons hp, List.count_cons, ← List.getD_eq_getElem _ 0 hp, h]
  simp

end lens

/-! ## Ids -/

/-- The id the constructor gives the symbol at position `p`: its rank among the symbols of its
length `L`, after the codes longer than `L`. -/
def symbolId (lens : List Nat) (p : Nat) : Nat :=
  countAbove (fun k => lens.count k) (lens.getD p 0) (maxLength lens)
    + (lens.take p).count (lens.getD p 0)

/-- The id ranges `[mapping[l], mapping[l] + count[l])` of the lengths in use are disjoint. -/
def IdRangesDisjoint (lens : List Nat) (mapping : Nat → Nat) : Prop :=
  ∀ l l' i j, l ≠ 0 → l' ≠ 0 → i < lens.count l → j < lens.count l' →
    mapping l + i = mapping l' + j → l = l'

/-- One round of the id assignment. -/
theorem assignIds_cons_eq {numSymbols symbol codeLen : Nat} {rest : List (Nat × Nat)}
    {mapping idToSymbol r : Nat → Nat}
    (h : assignIds numSymbols ((symbol, codeLen) :: rest) mapping idToSymbol = .ok r) :
    assignIds numSymbols rest (Function.update mapping codeLen (mapping codeLen + 1))
      (Function.update idToSymbol (mapping codeLen) symbol) = .ok r := by
  rw [assignIds, bind_eq_ok] at h
  obtain ⟨m, hm, h⟩ := h
  obtain ⟨-, -, rfl⟩ := index_eq_ok hm
  split_ifs at h
  obtain ⟨ids', hids', h⟩ := bind_eq_ok.1 h
  obtain ⟨-, -, rfl⟩ := write_eq_ok hids'
  obtain ⟨mapping', hmap', h⟩ := bind_eq_ok.1 h
  obtain ⟨-, -, rfl⟩ := write_eq_ok hmap'
  simpa only [Int.toNat_ofNat] using h

section ids

variable {numSymbols : Nat}

/-- After a length's round, its next id is one on. -/
theorem update_mapping_add {mapping : Nat → Nat} {a l : Nat} (i : Nat) :
    Function.update mapping l (mapping l + 1) a + i = mapping a + (i + if a = l then 1 else 0) := by
  by_cases ha : a = l
  · subst ha
    rw [Function.update_same, if_pos rfl]
    omega
  · rw [Function.update_noteq ha, if_neg ha, Nat.add_zero]

theorem lt_count_cons {lens : List Nat} {a l i : Nat} (hi : i < lens.count a) :
    i + (if a = l then 1 else 0) < (l :: lens).count a := by
  by_cases ha : a = l
  · subst ha
    rw [if_pos rfl, List.count_cons_self]
    omega
  · rw [if_neg ha, List.count_cons_of_ne ha]
    exact hi

theorem IdRangesDisjoint.tail {lens : List Nat} {mapping : Nat → Nat} {l : Nat}
    (hd : IdRangesDisjoint (l :: lens) mapping) :
    IdRangesDisjoint lens (Function.update mapping l (mapping l + 1)) := by
  intro a b i j ha hb hi hj heq
  rw [update_mapping_add, update_mapping_add] at heq
  exact hd a b _ _ ha hb (lt_count_cons hi) (lt_count_cons hj) heq

theorem IdRangesDisjoint.tail_zero {lens : List Nat} {mapping : Nat → Nat}
    (hd : IdRangesDisjoint (0 :: lens) mapping) : IdRangesDisjoint lens mapping :=
  fun a b i j ha hb hi hj => hd a b i j ha hb (by rwa [List.count_cons_of_ne ha])
    (by rwa [List.count_cons_of_ne hb])

/-- The id assignment writes only ids `mapping[l] + i` with `i` below the number of symbols of
length `l`. -/
theorem assignIds_frame :
    ∀ {lens : List Nat} {n : Nat} {mapping idToSymbol r : Nat → Nat},
      assignIds numSymbols (recorded n lens) mapping idToSymbol = .ok r →
      ∀ x, (∀ l i, l ≠ 0 → i < lens.count l → x ≠ mapping l + i) → r x = idToSymbol x
  | [], _, _, _, _, h, _, _ => by cases h; rfl
  | l :: lens, n, mapping, idToSymbol, r, h, x, hx => by
    rw [recorded_cons] at h
    by_cases hl : l = 0
    · rw [if_pos hl, List.nil_append] at h
      subst hl
      exact assignIds_frame h x fun a i ha hi => hx a i ha (by rwa [List.count_cons_of_ne ha])
    · rw [if_neg hl, List.singleton_append] at h
      rw [assignIds_frame (assignIds_cons_eq h) x fun a i ha hi => ?_, Function.update_noteq]
      · simpa using hx l 0 hl (by simp)
      · rw [update_mapping_add]
        exact hx a _ ha (lt_count_cons hi)

/-- The id assignment gives the symbol at position `p` the id `mapping[L] + rank`, `L` its
length and `rank` the number of symbols of length `L` before it. -/
theorem assignIds_recorded :
    ∀ {lens : List Nat} {n : Nat} {mapping idToSymbol r : Nat → Nat},
      assignIds numSymbols (recorded n lens) mapping idToSymbol = .ok r →
      IdRangesDisjoint lens mapping → ∀ p, lens.getD p 0 ≠ 0 →
        r (mapping (lens.getD p 0) + (lens.take p).count (lens.getD p 0)) = n + p
  | [], _, _, _, _, _, _, p, hp => absurd (by simp) hp
  | l :: lens, n, mapping, idToSymbol, r, h, hd, p, hp => by
    rw [recorded_cons] at h
    by_cases hl : l = 0
    · rw [if_pos hl, List.nil_append] at h
      subst hl
      cases p with
      | zero => exact absurd rfl hp
      | succ q =>
        rw [List.getD_cons_succ] at hp ⊢
        rw [List.take_succ_cons, List.count_cons_of_ne hp,
          assignIds_recorded h hd.tail_zero q hp]
        omega
    · rw [if_neg hl, List.singleton_append] at h
      have h' := assignIds_cons_eq h
      cases p with
      | zero =>
        rw [List.getD_cons_zero, List.take_zero, List.count_nil, Nat.add_zero, Nat.add_zero,
          assignIds_frame h' _ fun a i ha hi => ?_, Function.update_same]
        rw [update_mapping_add]
        intro heq
        have hal := hd l a 0 _ hl ha (by simp) (lt_count_cons hi) heq
        subst hal
        rw [if_pos rfl] at heq
        omega
      | succ q =>
        rw [List.getD_cons_succ] at hp ⊢
        have ih := assignIds_recorded h' hd.tail q hp
        rw [update_mapping_add] at ih
        rw [List.take_succ_cons, List.count_cons]
        by_cases hq : lens.getD q 0 = l
        · rw [if_pos hq] at ih
          rw [if_pos (beq_iff_eq.2 hq.symm), ih]
          omega
        · rw [if_neg hq] at ih
          rw [if_neg fun h => hq (beq_iff_eq.1 h).symm, ih]
          omega

end ids

/-! ## The constructor's result -/

/-- What `buildTables` returns. -/
theorem buildTables_eq_ok {rleSymbol : Int} {numSymbols minL maxL : Nat} {idToSymbol : Nat → Nat}
    {base : Nat → BitVec 64} {offset : Nat → Nat} {d : FastHufDecoder}
    (h : buildTables rleSymbol numSymbols minL maxL idToSymbol base offset = .ok d) :
    computeLjBase base = .ok d.ljBase ∧ computeLjOffset d.ljBase offset = .ok d.ljOffset ∧
      d.rleSymbol = rleSymbol ∧ d.numSymbols = numSymbols ∧ d.minCodeLength = minL ∧
      d.maxCodeLength = maxL ∧ d.idToSymbol = idToSymbol ∧
      d.tableMin = d.ljBase (tableMinIdx d.ljBase TABLE_LOOKUP_BITS) ∧
      ∀ i < 2 ^ TABLE_LOOKUP_BITS, tableEntry d.ljBase d.ljOffset idToSymbol numSymbols
        (tableValue i) (lengths minL maxL) = .ok (d.tableCodeLen i, d.tableSymbol i) := by
  simp only [buildTables, bind_eq_ok] at h
  obtain ⟨ljBase, hlj, ljOffset, hlo, ⟨⟩, hall, tableMin, hmin, h⟩ := h
  cases h
  obtain ⟨-, -, rfl⟩ := index_eq_ok hmin
  refine ⟨hlj, hlo, rfl, rfl, rfl, rfl, rfl, by rw [Int.toNat_ofNat], fun i hi => ?_⟩
  obtain ⟨e, he, -⟩ := bind_eq_ok.1 (forM_eq_ok hall i (List.mem_range.2 hi))
  dsimp only
  rw [he]

/-- What the constructor computes on its way to the decoder. -/
theorem new_eq_ok {table : List (BitVec 8)} {numBytes minSymbol maxSymbol : Nat}
    {rleSymbol : Int} {d : FastHufDecoder} {consumed : Nat}
    (h : FastHufDecoder.new table numBytes minSymbol maxSymbol rleSymbol = .ok (d, consumed)) :
    ∃ s base offset mapping, scan table numBytes minSymbol maxSymbol = .ok s ∧
      computeBase s.codeCount s.minCodeLength s.maxCodeLength = .ok base ∧
      computeOffset s.codeCount s.minCodeLength s.maxCodeLength = .ok offset ∧
      computeMapping offset s.minCodeLength s.maxCodeLength = .ok mapping ∧
      assignIds (numSymbolsOf s.codeCount) s.symbols mapping (fun _ => 0) = .ok d.idToSymbol ∧
      buildTables rleSymbol (numSymbolsOf s.codeCount) s.minCodeLength s.maxCodeLength
        d.idToSymbol base offset = .ok d := by
  simp only [FastHufDecoder.new, bind_eq_ok] at h
  obtain ⟨s, hs, base, hbase, offset, hoffset, mapping, hmapping, ids, hids, d', hd, h⟩ := h
  cases h
  obtain ⟨-, -, -, -, -, -, hid, -⟩ := buildTables_eq_ok hd
  exact ⟨s, base, offset, mapping, hs, hbase, hoffset, hmapping, hid ▸ hids, hid ▸ hd⟩

theorem codeLengths_le {cb : List LengthToken} (hcb : ∀ t ∈ cb, t.Valid) :
    ∀ l ∈ codeLengths cb, l ≤ MAX_CODE_LEN := by
  intro l hl
  obtain ⟨t, ht, hl⟩ := List.mem_flatMap.1 hl
  have hv := hcb t ht
  cases t with
  | literal c => exact (List.mem_singleton.1 hl) ▸ hv
  | shortRun r => exact (List.eq_of_mem_replicate hl) ▸ Nat.zero_le _
  | longRun r => exact (List.eq_of_mem_replicate hl) ▸ Nat.zero_le _

theorem getD_mem {lens : List Nat} {p : Nat} (h : lens.getD p 0 ≠ 0) :
    lens.getD p 0 ∈ lens := by
  by_cases hp : p < lens.length
  · rw [List.getD_eq_getElem _ _ hp]
    exact List.getElem_mem hp
  · rw [List.getD_eq_default _ _ (by omega)] at h
    exact absurd rfl h

/-- The codes longer than `l`, counted up to `maxL`, in two parts. -/
theorem countAbove_add (c : Nat → Nat) {l l' maxL : Nat} (h : l ≤ l') (h' : l' ≤ maxL) :
    countAbove c l maxL = countAbove c l l' + countAbove c l' maxL := by
  rw [countAbove, countAbove, countAbove, show maxL - l = (maxL - l') + (l' - l) by omega,
    ← List.range'_append_1, List.map_append, List.sum_append,
    show l + 1 + (l' - l) = l' + 1 by omega]

theorem countAbove_add_le (c : Nat → Nat) {l l' maxL : Nat} (h : l < l') (h' : l' ≤ maxL) :
    countAbove c l' maxL + c l' ≤ countAbove c l maxL := by
  rw [countAbove_add c h.le h', show l' = l' - 1 + 1 by omega,
    countAbove_succ c (by omega : l ≤ l' - 1)]
  omega

theorem countAbove_congr {c c' : Nat → Nat} {l maxL : Nat} (h : ∀ k, l < k → c k = c' k) :
    countAbove c l maxL = countAbove c' l maxL :=
  congrArg List.sum (List.map_congr_left fun k hk => h k (by rw [List.mem_range'_1] at hk; omega))

/-- `b << (64 - L)` as a number, for `b` of at most `L` bits. -/
theorem toNat_ofNat_shiftLeft {b L : Nat} (hb : b < 2 ^ L) (hL : L ≤ 64) :
    (BitVec.ofNat 64 b <<< (64 - L)).toNat = b * 2 ^ (64 - L) := by
  have h64 : b * 2 ^ (64 - L) < 2 ^ 64 := by
    calc b * 2 ^ (64 - L) < 2 ^ L * 2 ^ (64 - L) := Nat.mul_lt_mul_of_pos_right hb (Nat.two_pow_pos _)
      _ = 2 ^ 64 := by rw [← Nat.pow_add]; congr 1; omega
  rw [BitVec.toNat_shiftLeft, BitVec.toNat_ofNat, Nat.shiftLeft_eq,
    Nat.mod_eq_of_lt (lt_of_le_of_lt (Nat.le_mul_of_pos_right _ (Nat.two_pow_pos _)) h64),
    Nat.mod_eq_of_lt h64]

/-- The decoder's tables in closed form, for the code-book with lengths `lens` for the symbols
from `minSymbol` on: the left-justified canonical bases on the lengths in use and the all-ones
mark off them, the offsets of the canonical ids, every symbol at its id, and the acceleration
entries and `_tableMin` as `buildTables` computes them. -/
structure CanonicalTables (d : FastHufDecoder) (minSymbol : Nat) (lens : List Nat) : Prop where
  kraft : weightAbove lens 0 ≤ 2 ^ MAX_CODE_LEN
  minCodeLength_eq : d.minCodeLength = minLength lens
  maxCodeLength_eq : d.maxCodeLength = maxLength lens
  max_le : maxLength lens ≤ 51
  base_lt : ∀ L ∈ lengths (minLength lens) (maxLength lens), canonicalBase lens L < 2 ^ L
  ljBase_used : ∀ L ∈ lengths (minLength lens) (maxLength lens),
    (d.ljBase L).toNat = canonicalBase lens L * 2 ^ (64 - L)
  ljBase_unused : ∀ L ≤ MAX_CODE_LEN, L ∉ lengths (minLength lens) (maxLength lens) →
    d.ljBase L = allOnes
  ljOffset_used : ∀ L ∈ lengths (minLength lens) (maxLength lens),
    d.ljOffset L = BitVec.ofNat 64 (countAbove (fun k => lens.count k) L (maxLength lens))
      - BitVec.ofNat 64 (canonicalBase lens L)
  symbolId_lt : ∀ p, lens.getD p 0 ≠ 0 → symbolId lens p < d.numSymbols
  idToSymbol_symbolId : ∀ p, lens.getD p 0 ≠ 0 → d.idToSymbol (symbolId lens p) = minSymbol + p
  entry_eq : ∀ i < 2 ^ TABLE_LOOKUP_BITS, tableEntry d.ljBase d.ljOffset d.idToSymbol
    d.numSymbols (tableValue i) (lengths (minLength lens) (maxLength lens))
      = .ok (d.tableCodeLen i, d.tableSymbol i)
  tableMin_eq : d.tableMin = d.ljBase (tableMinIdx d.ljBase TABLE_LOOKUP_BITS)

/-- The left-justified tables `buildTables` computes from the constructor's `base` and
`offset`, after a scan that recorded the lengths `lens` (Kraft's inequality, at most 51 bits),
in closed form on every length in use. -/
theorem ljTables_canonical {lens : List Nat} (hk : weightAbove lens 0 ≤ 2 ^ MAX_CODE_LEN)
    (hlong : maxLength lens ≤ 51) {minSymbol : Nat} {s : ScanState}
    (hsyms : s.symbols = recorded minSymbol lens) (hf : ScanFacts s) {base : Nat → BitVec 64}
    {offset : Nat → Nat} {ljBase ljOffset : Nat → BitVec 64}
    (hbase : computeBase s.codeCount s.minCodeLength s.maxCodeLength = .ok base)
    (hoffset : computeOffset s.codeCount s.minCodeLength s.maxCodeLength = .ok offset)
    (hlj : computeLjBase base = .ok ljBase) (hlo : computeLjOffset ljBase offset = .ok ljOffset)
    {L : Nat} (hL : L ∈ lengths (minLength lens) (maxLength lens)) :
    canonicalBase lens L < 2 ^ L ∧ (ljBase L).toNat = canonicalBase lens L * 2 ^ (64 - L) ∧
      offset L = countAbove (fun k => lens.count k) L (maxLength lens) ∧
      ljOffset L = BitVec.ofNat 64 (countAbove (fun k => lens.count k) L (maxLength lens))
        - BitVec.ofNat 64 (canonicalBase lens L) := by
  have hcount : ∀ l, 1 ≤ l → s.codeCount l = lens.count l := fun l hl => by
    rw [hf.codeCount_eq hsyms, List.count_filter (by simpa using (by omega : l ≠ 0))]
  rw [hf.minCodeLength_eq hsyms, hf.maxCodeLength_eq hsyms] at hbase hoffset
  have hmax58 : maxLength lens ≤ MAX_CODE_LEN := hf.maxCodeLength_eq hsyms ▸ hf.max_le
  obtain ⟨hmin1, hcmin⟩ := count_minLength_pos hL
  have hL' := mem_lengths.1 hL
  have hlt : canonicalBase lens L < 2 ^ L := canonicalBase_lt hk hmin1 hL'.1 (by omega) hcmin
  have hb : base L = BitVec.ofNat 64 (canonicalBase lens L) :=
    computeBase_canonical hk hlong hmin1 hcount (fun k hk => count_eq_zero_of_maxLength_lt hk)
      hbase hL
  have h2 : 2 ^ L ≤ 2 ^ 51 := Nat.pow_le_pow_right (by decide) (by omega)
  have hne : BitVec.ofNat 64 (canonicalBase lens L) ≠ allOnes := fun h => by
    have := congrArg BitVec.toNat h
    rw [BitVec.toNat_ofNat, Nat.mod_eq_of_lt (by omega)] at this
    simp only [allOnes, BitVec.toNat_allOnes] at this
    omega
  have hljL : (ljBase L).toNat = canonicalBase lens L * 2 ^ (64 - L) := by
    rw [computeLjBase_spec hlj (by simp only [MAX_CODE_LEN]; omega), hb, if_neg hne,
      toNat_ofNat_shiftLeft hlt (by omega)]
  have hoff : offset L = countAbove (fun k => lens.count k) L (maxLength lens) := by
    rw [computeOffset_spec hmax58 hoffset hL]
    exact countAbove_congr fun k hk => hcount k (by omega)
  have hshift : ljBase L >>> (64 - L) = BitVec.ofNat 64 (canonicalBase lens L) := by
    apply BitVec.eq_of_toNat_eq
    rw [BitVec.toNat_ushiftRight, hljL, Nat.shiftRight_eq_div_pow,
      Nat.mul_div_cancel _ (Nat.two_pow_pos _), BitVec.toNat_ofNat,
      Nat.mod_eq_of_lt (lt_of_lt_of_le hlt (Nat.pow_le_pow_right (by decide) (by omega)))]
  refine ⟨hlt, hljL, hoff, ?_⟩
  rw [computeLjOffset_spec hlo (hmin1.trans hL'.1) (by simp only [MAX_CODE_LEN]; omega), hshift,
    hoff]

/-- The tables built after a scan that recorded the lengths `lens`, when they satisfy Kraft's
inequality and are at most 51 bits, are in closed form. -/
theorem canonicalTables_of_scan {lens : List Nat}
    (hk : weightAbove lens 0 ≤ 2 ^ MAX_CODE_LEN) (hlong : maxLength lens ≤ 51)
    {minSymbol : Nat} {s : ScanState} (hsyms : s.symbols = recorded minSymbol lens)
    (hf : ScanFacts s) {rleSymbol : Int} {base : Nat → BitVec 64} {offset mapping : Nat → Nat}
    {d : FastHufDecoder}
    (hbase : computeBase s.codeCount s.minCodeLength s.maxCodeLength = .ok base)
    (hoffset : computeOffset s.codeCount s.minCodeLength s.maxCodeLength = .ok offset)
    (hmapping : computeMapping offset s.minCodeLength s.maxCodeLength = .ok mapping)
    (hids : assignIds (numSymbolsOf s.codeCount) s.symbols mapping (fun _ => 0)
      = .ok d.idToSymbol)
    (hbuild : buildTables rleSymbol (numSymbolsOf s.codeCount) s.minCodeLength s.maxCodeLength
      d.idToSymbol base offset = .ok d) :
    CanonicalTables d minSymbol lens := by
  obtain ⟨hlj, hlo, -, hnumSym, hmin, hmax, -, htm, hent⟩ := buildTables_eq_ok hbuild
  have hclosed := fun L (hL : L ∈ lengths (minLength lens) (maxLength lens)) =>
    ljTables_canonical hk hlong hsyms hf hbase hoffset hlj hlo hL
  have hminL := hf.minCodeLength_eq hsyms
  have hmaxL := hf.maxCodeLength_eq hsyms
  have hcount : ∀ l, 1 ≤ l → s.codeCount l = lens.count l := fun l hl => by
    rw [hf.codeCount_eq hsyms, List.count_filter (by simpa using (by omega : l ≠ 0))]
  rw [hminL, hmaxL] at hbase hmapping hent
  -- offsets and ids
  have hoff : ∀ L ∈ lengths (minLength lens) (maxLength lens),
      mapping L = countAbove (fun k => lens.count k) L (maxLength lens) := fun L hL => by
    rw [computeMapping_spec hmapping hL, (hclosed L hL).2.2.1]
  have hsymId : ∀ p, lens.getD p 0 ≠ 0 →
      symbolId lens p = mapping (lens.getD p 0) + (lens.take p).count (lens.getD p 0) :=
    fun p hp => by rw [symbolId, hoff _ (mem_lengths_of_mem (getD_mem hp) hp)]
  have hdisj : IdRangesDisjoint lens mapping := fun a b i j ha hb hi hj heq => by
    have hamem : a ∈ lengths (minLength lens) (maxLength lens) :=
      mem_lengths_of_mem (List.count_pos_iff.1 (by omega)) ha
    have hbmem : b ∈ lengths (minLength lens) (maxLength lens) :=
      mem_lengths_of_mem (List.count_pos_iff.1 (by omega)) hb
    rw [hoff a hamem, hoff b hbmem] at heq
    by_contra hab
    rcases Nat.lt_or_gt_of_ne hab with hlt | hlt
    · have := countAbove_add_le (fun k => lens.count k) hlt (mem_lengths.1 hbmem).2
      dsimp only at this
      omega
    · have := countAbove_add_le (fun k => lens.count k) hlt (mem_lengths.1 hamem).2
      dsimp only at this
      omega
  refine ⟨hk, hmin.trans hminL, hmax.trans hmaxL, hlong, fun L hL => (hclosed L hL).1,
    fun L hL => (hclosed L hL).2.1, fun L hL hnot => ?unused, fun L hL => (hclosed L hL).2.2.2,
    fun p hp => ?lt, fun p hp => ?ids, fun i hi => by rw [hnumSym, hent i hi], htm⟩
  case unused =>
    rw [computeLjBase_spec hlj hL, if_pos ((computeBase_spec hbase).1 L hnot)]
  case lt =>
    have hL := mem_lengths_of_mem (getD_mem hp) hp
    have hrank := count_take_lt rfl hp
    have hcountP : s.symbols.countP (fun e => e.2 = lens.getD p 0)
        = lens.count (lens.getD p 0) := by
      rw [← hf.count_eq, hcount _ ((count_minLength_pos hL).1.trans (mem_lengths.1 hL).1)]
    rw [hsymId p hp, hnumSym]
    rcases assignIds_count _ hids (lens.getD p 0) with h0 | hle
    · omega
    · omega
  case ids =>
    rw [hsymId p hp]
    exact assignIds_recorded (hsyms ▸ hids) hdisj p hp

/-- An accepted code-book, written in the wire format, whose lengths satisfy Kraft's inequality
and are at most 51 bits, gives tables in closed form. -/
theorem new_canonical (cb : List LengthToken) (hcb : ∀ t ∈ cb, t.Valid)
    {minSymbol maxSymbol : Nat} (hcover : minSymbol + (codeLengths cb).length = maxSymbol + 1)
    (rest : List (BitVec 8)) {numBytes : Nat} (hnum : (packBits (encode cb)).length < numBytes)
    (hkraft : Kraft (codeLengths cb)) (hlong : maxLength (codeLengths cb) ≤ 51)
    {rleSymbol : Int} {d : FastHufDecoder} {consumed : Nat}
    (hd : FastHufDecoder.new (packBits (encode cb) ++ rest) numBytes minSymbol maxSymbol rleSymbol
      = .ok (d, consumed)) :
    CanonicalTables d minSymbol (codeLengths cb) ∧ d.rleSymbol = rleSymbol := by
  obtain ⟨s, hs, hsyms, hf, -⟩ := scan_encode_ok cb hcb hcover rest hnum
  obtain ⟨s', base, offset, mapping, hs', hbase, hoffset, hmapping, hids, hbuild⟩ := new_eq_ok hd
  rw [hs] at hs'
  cases hs'
  exact ⟨canonicalTables_of_scan ((kraft_iff (codeLengths_le hcb)).1 hkraft)
    hlong hsyms hf hbase hoffset hmapping hids hbuild, (buildTables_eq_ok hbuild).2.2.1⟩

end ExrCodecs.FastHuf
