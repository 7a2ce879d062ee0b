import ExrCodecs.FastHuf.ExactTables

/-!
# The symbol step reads canonical codes

With the tables in closed form (`CanonicalTables`), a 64-bit word whose top bits are the
canonical code of a symbol is read as that symbol. The search over the lengths stops at the
code's length, because the top bits of a code are below the base of every shorter length in use
(`lt_ljBase_of_code`, from `top_lt_canonicalBase`), and the id it computes is the symbol's
(`find_code`):

> `referenceLookup_code`: the reference search over all lengths reads the code.

> `lookupSymbol_table_code`: an acceleration entry sees the top `TABLE_LOOKUP_BITS` bits of the
> word only, which hold every code of at most that many bits: the table path reads such a code.

> `lookupSymbol_search_code`: the search path, from `TABLE_LOOKUP_BITS + 1` on, reads every
> longer code, when some code has at most `TABLE_LOOKUP_BITS` bits.

> `tableMin_le_of_code`, `not_tableMin_le_of_code`: then `_tableMin ≤ buffer` exactly when
> the code at the top of `buffer` has at most `TABLE_LOOKUP_BITS` bits, and the step takes the
> path that reads it.
-/

namespace ExrCodecs.FastHuf

/-! ## Bits at the top of a word -/

theorem natToBits_inj {k x y : Nat} (hx : x < 2 ^ k) (hy : y < 2 ^ k)
    (h : natToBits k x = natToBits k y) : x = y := by
  have := congrArg bitsToNat h
  rwa [bitsToNat_natToBits, bitsToNat_natToBits, Nat.mod_eq_of_lt hx, Nat.mod_eq_of_lt hy] at this

/-- The top `k` bits of a word are the number they spell. -/
theorem top_lt (x : BitVec 64) {k : Nat} (hk : k ≤ 64) : x.toNat / 2 ^ (64 - k) < 2 ^ k :=
  Nat.div_lt_of_lt_mul (by rw [← Nat.pow_add, Nat.sub_add_cancel hk]; exact x.isLt)

/-- The top `k` bits of the top `L` bits. -/
theorem top_div_pow (x : Nat) {k L : Nat} (hk : k ≤ L) (hL : L ≤ 64) :
    x / 2 ^ (64 - L) / 2 ^ (L - k) = x / 2 ^ (64 - k) := by
  rw [Nat.div_div_eq_div_mul, ← Nat.pow_add]
  congr 2
  omega

/-- The probe of the acceleration entry of `b` has the top bits of `b`, down to the
`TABLE_LOOKUP_BITS`-th. -/
theorem tableValue_top (b : BitVec 64) {L : Nat} (hL : L ≤ TABLE_LOOKUP_BITS) :
    (tableValue (b >>> (64 - TABLE_LOOKUP_BITS)).toNat).toNat / 2 ^ (64 - L)
      = b.toNat / 2 ^ (64 - L) := by
  have hi := top_lt b (k := TABLE_LOOKUP_BITS) (by decide)
  rw [BitVec.toNat_ushiftRight, Nat.shiftRight_eq_div_pow] at *
  rw [tableValue, BitVec.toNat_shiftLeft, BitVec.toNat_ofNat, Nat.shiftLeft_eq,
    Nat.mod_eq_of_lt (hi.trans (by decide)), Nat.mod_eq_of_lt (by
      simp only [TABLE_LOOKUP_BITS] at hi ⊢; omega),
    show 2 ^ (64 - L) = 2 ^ (64 - TABLE_LOOKUP_BITS) * 2 ^ (TABLE_LOOKUP_BITS - L) by
      rw [← Nat.pow_add]; congr 1; simp only [TABLE_LOOKUP_BITS] at hL ⊢; omega,
    ← Nat.div_div_eq_div_mul, Nat.mul_div_cancel _ (Nat.two_pow_pos _), Nat.div_div_eq_div_mul]

/-- The lengths in use, split at one of them. -/
theorem lengths_split {m M L : Nat} (h : L ∈ lengths m M) :
    lengths m M = List.range' m (L - m) ++ L :: List.range' (L + 1) (M - L) := by
  rw [mem_lengths] at h
  rw [lengths, show M + 1 - m = (M + 1 - L) + (L - m) by omega, ← List.range'_append_1,
    show m + (L - m) = L by omega, show M + 1 - L = M - L + 1 by omega, List.range'_succ]

/-! ## Canonical codes -/

/-- The number the canonical code of the symbol at position `p` stands for. -/
def codeValue (lens : List Nat) (p : Nat) : Nat :=
  canonicalBase lens (lens.getD p 0) + (lens.take p).count (lens.getD p 0)

theorem canonicalCode_eq (minSymbol : Nat) (lens : List Nat) (p : Nat) :
    canonicalCode minSymbol lens (minSymbol + p) = natToBits (lens.getD p 0) (codeValue lens p) := by
  rw [canonicalCode, Nat.add_sub_cancel_left]
  rfl

theorem codeValue_lt_count {lens : List Nat} {p : Nat} (hp : lens.getD p 0 ≠ 0) :
    codeValue lens p < canonicalBase lens (lens.getD p 0) + lens.count (lens.getD p 0) := by
  have := count_take_lt rfl hp
  rw [codeValue]
  omega

/-- The codes longer than `L` are fewer than their weight. -/
theorem countAbove_le_weightAbove (lens : List Nat) (L : Nat) {M : Nat} (hM : M ≤ MAX_CODE_LEN) :
    countAbove (fun k => lens.count k) L M ≤ weightAbove lens L := by
  by_cases hLM : L ≤ M
  · rw [countAbove, weightAbove, show MAX_CODE_LEN - L = (MAX_CODE_LEN - M) + (M - L) by omega,
      ← List.range'_append_1, List.map_append, List.sum_append]
    exact le_trans (List.sum_le_sum fun k _ => Nat.le_mul_of_pos_right _ (Nat.two_pow_pos _))
      (Nat.le_add_right _ _)
  · rw [countAbove, show M - L = 0 by omega, List.range'_zero, List.map_nil, List.sum_nil]
    exact Nat.zero_le _

section code

variable {d : FastHufDecoder} {minSymbol : Nat} {lens : List Nat}
  (ct : CanonicalTables d minSymbol lens) {p : Nat} (hp : lens.getD p 0 ≠ 0)
include ct

theorem CanonicalTables.le_51 {L : Nat} (hL : L ∈ lengths (minLength lens) (maxLength lens)) :
    1 ≤ L ∧ L ≤ 51 :=
  ⟨(count_minLength_pos hL).1.trans (mem_lengths.1 hL).1, (mem_lengths.1 hL).2.trans ct.max_le⟩

theorem ljBase_le_iff {L : Nat} (hL : L ∈ lengths (minLength lens) (maxLength lens))
    (w : BitVec 64) : d.ljBase L ≤ w ↔ canonicalBase lens L ≤ w.toNat / 2 ^ (64 - L) := by
  rw [BitVec.le_def, ct.ljBase_used L hL, Nat.le_div_iff_mul_le (Nat.two_pow_pos _)]

/-- `_ljOffset[L] + (w >> (64 - L))`: the id of the `L`-bit code at the top of `w`, counted
from the codes longer than `L`. -/
theorem ljOffset_add_shift {L : Nat} (hL : L ∈ lengths (minLength lens) (maxLength lens))
    {w : BitVec 64} (hbase : canonicalBase lens L ≤ w.toNat / 2 ^ (64 - L))
    (hlt : countAbove (fun k => lens.count k) L (maxLength lens)
      + (w.toNat / 2 ^ (64 - L) - canonicalBase lens L) < 2 ^ 64) :
    (d.ljOffset L + w >>> (64 - L)).toNat = countAbove (fun k => lens.count k) L (maxLength lens)
      + (w.toNat / 2 ^ (64 - L) - canonicalBase lens L) := by
  have htop := top_lt w (k := L) (by have := ct.le_51 hL; omega)
  have h2L : 2 ^ L ≤ 2 ^ 64 := Nat.pow_le_pow_right (by decide) (by have := ct.le_51 hL; omega)
  rw [ct.ljOffset_used L hL, BitVec.toNat_add, BitVec.toNat_sub, BitVec.toNat_ofNat,
    BitVec.toNat_ofNat, BitVec.toNat_ushiftRight, Nat.shiftRight_eq_div_pow]
  omega

include hp

theorem codeValue_lt : codeValue lens p < 2 ^ lens.getD p 0 := by
  have h := ct.le_51 (mem_lengths_of_mem (getD_mem hp) hp)
  exact (codeValue_lt_count hp).trans_le
    (canonicalBase_add_count_le ct.kraft h.1 (h.2.trans (by decide)))

theorem symbolId_lt_pow : symbolId lens p < 2 ^ MAX_CODE_LEN := by
  have hL := ct.le_51 (mem_lengths_of_mem (getD_mem hp) hp)
  have hrank := count_take_lt rfl hp
  have habove := countAbove_le_weightAbove lens (lens.getD p 0)
    (ct.max_le.trans (by decide : 51 ≤ MAX_CODE_LEN))
  have hw := @weightAbove_add_count_le lens _ _ (by omega : 0 < lens.getD p 0)
    (hL.2.trans (by decide))
  have hc := Nat.le_mul_of_pos_right (lens.count (lens.getD p 0))
    (Nat.two_pow_pos (MAX_CODE_LEN - lens.getD p 0))
  have := ct.kraft
  rw [symbolId]
  omega

/-- Below the length `L` of the symbol's code, every length `k` in use has its `_ljBase` above
any word whose top `k` bits are those of the code. -/
theorem lt_ljBase_of_top {k : Nat} (hk : k ∈ lengths (minLength lens) (maxLength lens))
    (hkL : k < lens.getD p 0) {w : BitVec 64}
    (hw : w.toNat / 2 ^ (64 - k) = codeValue lens p / 2 ^ (lens.getD p 0 - k)) :
    w < d.ljBase k := by
  have hL := ct.le_51 (mem_lengths_of_mem (getD_mem hp) hp)
  rw [BitVec.lt_def, ct.ljBase_used k hk, ← Nat.div_lt_iff_lt_mul (Nat.two_pow_pos _), hw]
  exact top_lt_canonicalBase hkL (hL.2.trans (by decide)) (codeValue_lt_count hp)

variable {w : BitVec 64} (hw : w.toNat / 2 ^ (64 - lens.getD p 0) = codeValue lens p)
include hw

theorem lt_ljBase_of_code {k : Nat} (hk : k ∈ lengths (minLength lens) (maxLength lens))
    (hkL : k < lens.getD p 0) : w < d.ljBase k := by
  have hL := ct.le_51 (mem_lengths_of_mem (getD_mem hp) hp)
  exact lt_ljBase_of_top ct hp hk hkL (by rw [← top_div_pow _ hkL.le (by omega), hw])

theorem ljBase_le_of_code : d.ljBase (lens.getD p 0) ≤ w :=
  (ljBase_le_iff ct (mem_lengths_of_mem (getD_mem hp) hp) w).2
    (by rw [hw, codeValue]; exact Nat.le_add_right _ _)

/-- The search over the lengths in use stops at the code's length, and computes the symbol's
id. -/
theorem find_code :
    (lengths (minLength lens) (maxLength lens)).find? (fun c => d.ljBase c ≤ w)
        = some (lens.getD p 0) ∧
      (d.ljOffset (lens.getD p 0) + w >>> (64 - lens.getD p 0)).toNat = symbolId lens p := by
  have hL := mem_lengths_of_mem (getD_mem hp) hp
  have hbase : canonicalBase lens (lens.getD p 0) ≤ w.toNat / 2 ^ (64 - lens.getD p 0) :=
    (ljBase_le_iff ct hL w).1 (ljBase_le_of_code ct hp hw)
  have hid : countAbove (fun k => lens.count k) (lens.getD p 0) (maxLength lens)
      + (w.toNat / 2 ^ (64 - lens.getD p 0) - canonicalBase lens (lens.getD p 0))
      = symbolId lens p := by
    rw [hw, codeValue, Nat.add_sub_cancel_left, symbolId]
  have hlt : symbolId lens p < 2 ^ 64 := (symbolId_lt_pow ct hp).trans (by decide)
  refine ⟨?_, by rw [ljOffset_add_shift ct hL hbase (hid ▸ hlt), hid]⟩
  rw [lengths_split hL, List.find?_append, List.find?_eq_none.2 fun c hc => ?_, Option.none_or]
  · exact List.find?_cons_of_pos _ (decide_eq_true ((ljBase_le_iff ct hL w).2 hbase))
  · rw [List.mem_range'_1] at hc
    have hcL : c ∈ lengths (minLength lens) (maxLength lens) :=
      mem_lengths.2 ⟨hc.1, by have := (mem_lengths.1 hL).2; omega⟩
    exact fun h => BitVec.not_le.2 (lt_ljBase_of_code ct hp hw hcL (by omega)) (of_decide_eq_true h)

/-- The reference search reads the code at the top of `w`. -/
theorem referenceLookup_code : referenceLookup d w = .ok (lens.getD p 0, minSymbol + p) := by
  obtain ⟨hfind, hid⟩ := find_code ct hp hw
  rw [referenceLookup, ct.minCodeLength_eq, ct.maxCodeLength_eq, hfind]
  dsimp only
  rw [hid, if_pos (ct.symbolId_lt p hp), ct.idToSymbol_symbolId p hp]
  rfl

end code

/-! ## The two paths of the symbol step -/

/-- An acceleration entry, built from lengths tried in order, whose search stops at `L` with
an id in range, holds `L` and the symbol of that id. -/
theorem tableEntry_of_find {ljBase ljOffset : Nat → BitVec 64} {idToSymbol : Nat → Nat}
    {numSymbols : Nat} {value : BitVec 64} {L : Nat} :
    ∀ {Ls : List Nat}, (∀ c ∈ Ls, 1 ≤ c ∧ c ≤ MAX_CODE_LEN) →
      Ls.find? (fun c => ljBase c ≤ value) = some L →
      (ljOffset L + value >>> (64 - L)).toNat < numSymbols →
      tableEntry ljBase ljOffset idToSymbol numSymbols value Ls
        = .ok (L, idToSymbol (ljOffset L + value >>> (64 - L)).toNat)
  | [], _, h, _ => nomatch h
  | c :: Ls, hLs, h, hid => by
    have hc := hLs c (List.mem_cons_self _ _)
    simp only [MAX_CODE_LEN] at hc
    rw [tableEntry, index_ok _ (by omega) (by simp only [MAX_CODE_LEN]; omega), ok_bind,
      Int.toNat_ofNat]
    by_cases hle : ljBase c ≤ value
    · have hc' : (c :: Ls).find? (fun c => ljBase c ≤ value) = some c :=
        List.find?_cons_of_pos _ (decide_eq_true hle)
      rw [hc'] at h
      obtain rfl := Option.some.inj h
      rw [if_pos hle, index_ok _ (by omega) (by simp only [MAX_CODE_LEN]; omega), ok_bind,
        Int.toNat_ofNat, shr_ok _ (by omega) (by omega), ok_bind,
        show ((64 : Int) - c).toNat = 64 - c by omega]
      dsimp only
      rw [if_pos hid, index_ok _ (by omega) (by exact_mod_cast hid), ok_bind, Int.toNat_ofNat]
      rfl
    · have hc' : (c :: Ls).find? (fun c => ljBase c ≤ value) = Ls.find? (fun c => ljBase c ≤ value) :=
        List.find?_cons_of_neg _ (by simpa using hle)
      rw [hc'] at h
      rw [if_neg hle]
      exact tableEntry_of_find (fun c' hc' => hLs c' (List.mem_cons_of_mem _ hc')) h hid

/-- The search loop from `c` stops at `L` when every length from `c` to `L - 1` makes it go
on and `L` does not. -/
theorem searchLength_eq {d : FastHufDecoder} {b : BitVec 64} {L : Nat} (hL : L ≤ MAX_CODE_LEN)
    (hstop : ¬ (d.ljBase L > b ∧ L ≤ d.maxCodeLength)) :
    ∀ fuel c, c ≤ L → L - c < fuel →
      (∀ k, c ≤ k → k < L → d.ljBase k > b ∧ k ≤ d.maxCodeLength) →
        searchLength d b fuel c = .ok L
  | 0, _, _, h, _ => absurd h (Nat.not_lt_zero _)
  | fuel + 1, c, hc, hfuel, hbelow => by
    rw [searchLength, index_ok _ (by omega) (by simp only [MAX_CODE_LEN] at hL ⊢; omega), ok_bind,
      Int.toNat_ofNat]
    by_cases hcL : c = L
    · subst hcL
      rw [if_neg hstop]
      rfl
    · rw [if_pos (hbelow c le_rfl (by omega))]
      exact searchLength_eq hL hstop fuel (c + 1) (by omega) (by omega)
        fun k h1 h2 => hbelow k (by omega) h2

/-- `minIdx` is the greatest index, down from `n`, that is not all-ones. -/
theorem tableMinIdx_eq {ljBase : Nat → BitVec 64} {m : Nat} (hm : ljBase m ≠ allOnes) :
    ∀ {n}, m ≤ n → (∀ i, m < i → i ≤ n → ljBase i = allOnes) → tableMinIdx ljBase n = m
  | 0, h0, _ => by rw [show m = 0 by omega]; rfl
  | n + 1, hmn, hall => by
    rw [tableMinIdx]
    by_cases hm' : m = n + 1
    · subst hm'
      rw [if_neg hm]
    · rw [if_pos (hall (n + 1) (by omega) le_rfl)]
      exact tableMinIdx_eq hm (by omega) fun i h1 h2 => hall i h1 (by omega)

section paths

variable {d : FastHufDecoder} {minSymbol : Nat} {lens : List Nat}
  (ct : CanonicalTables d minSymbol lens) {p : Nat} (hp : lens.getD p 0 ≠ 0)
include ct

theorem CanonicalTables.lengths_bounds :
    ∀ c ∈ lengths (minLength lens) (maxLength lens), 1 ≤ c ∧ c ≤ MAX_CODE_LEN :=
  fun c hc => ⟨(ct.le_51 hc).1, (ct.le_51 hc).2.trans (by decide)⟩

/-- With some code of at most `TABLE_LOOKUP_BITS` bits, `_tableMin` is `_ljBase` at the longest
length in use of at most `TABLE_LOOKUP_BITS` bits. -/
theorem tableMin_eq_of_short (hshort : minLength lens ≤ TABLE_LOOKUP_BITS)
    (hmax : minLength lens ≤ maxLength lens) :
    d.tableMin = d.ljBase (min TABLE_LOOKUP_BITS (maxLength lens)) := by
  have hm : min TABLE_LOOKUP_BITS (maxLength lens) ∈ lengths (minLength lens) (maxLength lens) :=
    mem_lengths.2 ⟨by omega, by omega⟩
  have hne : d.ljBase (min TABLE_LOOKUP_BITS (maxLength lens)) ≠ allOnes := fun h => by
    have h2 := congrArg (fun x : BitVec 64 => x.toNat % 2) h
    have h51 := ct.le_51 hm
    simp only [ct.ljBase_used _ hm, allOnes, BitVec.toNat_allOnes] at h2
    rw [show 64 - min TABLE_LOOKUP_BITS (maxLength lens)
      = (64 - min TABLE_LOOKUP_BITS (maxLength lens) - 1) + 1 by omega, Nat.pow_succ,
      ← Nat.mul_assoc, Nat.mul_mod_left] at h2
    exact absurd h2 (by decide)
  rw [ct.tableMin_eq, tableMinIdx_eq hne (by omega) fun i h1 h2 =>
    ct.ljBase_unused i (by simp only [TABLE_LOOKUP_BITS, MAX_CODE_LEN] at h2 ⊢; omega)
      (by rw [mem_lengths]; omega)]

include hp

/-- A code of at most `TABLE_LOOKUP_BITS` bits at the top of `buffer` sends the symbol step to
the acceleration table. -/
theorem tableMin_le_of_code (hL12 : lens.getD p 0 ≤ TABLE_LOOKUP_BITS) {w : BitVec 64}
    (hw : w.toNat / 2 ^ (64 - lens.getD p 0) = codeValue lens p) : d.tableMin ≤ w := by
  have hL := mem_lengths_of_mem (getD_mem hp) hp
  have hLm := mem_lengths.1 hL
  have h12 : TABLE_LOOKUP_BITS = 12 := rfl
  set m := min TABLE_LOOKUP_BITS (maxLength lens)
  have hm : m ∈ lengths (minLength lens) (maxLength lens) := mem_lengths.2 ⟨by omega, by omega⟩
  rw [tableMin_eq_of_short ct (by omega) (by omega)]
  refine BitVec.le_trans ?_ (ljBase_le_of_code ct hp hw)
  rw [BitVec.le_def, ct.ljBase_used _ hm, ct.ljBase_used _ hL]
  calc canonicalBase lens m * 2 ^ (64 - m)
      ≤ canonicalBase lens (lens.getD p 0) * 2 ^ (m - lens.getD p 0) * 2 ^ (64 - m) :=
        Nat.mul_le_mul_right _ (canonicalBase_mul_le (by omega) ((ct.le_51 hm).2.trans (by decide)))
    _ = canonicalBase lens (lens.getD p 0) * 2 ^ (64 - lens.getD p 0) := by
        rw [Nat.mul_assoc, ← Nat.pow_add]; congr 2; omega

/-- A code longer than `TABLE_LOOKUP_BITS` bits, of which `buffer` holds at least the top
`TABLE_LOOKUP_BITS`, sends the symbol step to the search, when some code has at most
`TABLE_LOOKUP_BITS` bits. -/
theorem not_tableMin_le_of_code (hshort : minLength lens ≤ TABLE_LOOKUP_BITS)
    (hL12 : TABLE_LOOKUP_BITS < lens.getD p 0) {w : BitVec 64}
    (hw : w.toNat / 2 ^ (64 - TABLE_LOOKUP_BITS)
      = codeValue lens p / 2 ^ (lens.getD p 0 - TABLE_LOOKUP_BITS)) : ¬ d.tableMin ≤ w := by
  have hLm := mem_lengths.1 (mem_lengths_of_mem (getD_mem hp) hp)
  rw [tableMin_eq_of_short ct hshort (by omega), show min TABLE_LOOKUP_BITS (maxLength lens)
    = TABLE_LOOKUP_BITS by omega, BitVec.not_le]
  exact lt_ljBase_of_top ct hp (mem_lengths.2 ⟨hshort, by omega⟩) hL12 hw

/-- The acceleration entry whose probe starts with the code of the symbol at position `p`
holds that code's length and symbol. -/
theorem tableEntry_code {i : Nat} (hi : i < 2 ^ TABLE_LOOKUP_BITS)
    (hw : (tableValue i).toNat / 2 ^ (64 - lens.getD p 0) = codeValue lens p) :
    d.tableCodeLen i = lens.getD p 0 ∧ d.tableSymbol i = minSymbol + p := by
  obtain ⟨hfind, hid⟩ := find_code ct hp hw
  have hent := ct.entry_eq i hi
  rw [tableEntry_of_find ct.lengths_bounds hfind (by rw [hid]; exact ct.symbolId_lt p hp), hid,
    ct.idToSymbol_symbolId p hp] at hent
  obtain ⟨hlen, hsym⟩ := Prod.mk.inj (Except.ok.inj hent)
  exact ⟨hlen.symm, hsym.symm⟩

/-- The acceleration table reads a code of at most `TABLE_LOOKUP_BITS` bits. -/
theorem lookupSymbol_table_code (hL12 : lens.getD p 0 ≤ TABLE_LOOKUP_BITS)
    (src : List (BitVec 8)) {s : DecodeState}
    (hw : s.buffer.toNat / 2 ^ (64 - lens.getD p 0) = codeValue lens p) :
    lookupSymbol d src s = .ok (lens.getD p 0, minSymbol + p, s) := by
  obtain ⟨hlen, hsym⟩ := tableEntry_code ct hp (by exact_mod_cast tableIdx_lt s.buffer)
    (by rw [tableValue_top _ hL12, hw])
  rw [lookupSymbol_table d src (tableMin_le_of_code ct hp hL12 hw), hlen, hsym]

/-- The search reads a code longer than `TABLE_LOOKUP_BITS` bits from the registers the search
path refills, when some code has at most `TABLE_LOOKUP_BITS` bits. -/
theorem lookupSymbol_search_code (hshort : minLength lens ≤ TABLE_LOOKUP_BITS)
    (hL12 : TABLE_LOOKUP_BITS < lens.getD p 0) {src : List (BitVec 8)} {s s₁ : DecodeState}
    (hnot : ¬ d.tableMin ≤ s.buffer)
    (hs₁ : (if s.bufferNumBits < 64 then refillBuffer src s else pure s) = .ok s₁)
    (hw : s₁.buffer.toNat / 2 ^ (64 - lens.getD p 0) = codeValue lens p) :
    lookupSymbol d src s = .ok (lens.getD p 0, minSymbol + p, s₁) := by
  have hL := mem_lengths_of_mem (getD_mem hp) hp
  have hLm := mem_lengths.1 hL
  have h51 := ct.le_51 hL
  obtain ⟨-, hid⟩ := find_code ct hp hw
  have hsearch : searchLength d s₁.buffer (MAX_CODE_LEN + 1) (TABLE_LOOKUP_BITS + 1)
      = .ok (lens.getD p 0) := by
    refine searchLength_eq (h51.2.trans (by decide))
      (fun h => BitVec.not_le.2 h.1 (ljBase_le_of_code ct hp hw)) _ _ (by omega)
      (by simp only [MAX_CODE_LEN, TABLE_LOOKUP_BITS] at hL12 ⊢; omega) fun k h1 h2 => ?_
    rw [ct.maxCodeLength_eq]
    exact ⟨lt_ljBase_of_code ct hp hw (mem_lengths.2 ⟨by omega, by omega⟩) h2, by omega⟩
  rw [lookupSymbol, if_neg hnot]
  dsimp only
  rw [ite_bind_of_eq_ok hs₁, hsearch, ok_bind, if_neg (by rw [ct.maxCodeLength_eq]; omega), index_ok _ (by omega)
    (by simp only [MAX_CODE_LEN]; omega), ok_bind, Int.toNat_ofNat, shr_ok _ (by omega) (by omega),
    ok_bind, show ((64 : Int) - (lens.getD p 0 : Nat)).toNat = 64 - lens.getD p 0 by omega]
  rw [hid, if_pos (ct.symbolId_lt p hp), index_ok _ (by omega) (by exact_mod_cast ct.symbolId_lt p hp),
    ok_bind, Int.toNat_ofNat, ct.idToSymbol_symbolId p hp]
  rfl

end paths

end ExrCodecs.FastHuf
