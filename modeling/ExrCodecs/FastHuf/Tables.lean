import ExrCodecs.FastHuf.Scan

/-!
# What `decode` may assume of an accepted code-book

`decode` relies on three facts about the tables the constructor builds, none of them checked
at run time (`DecoderOk`):

> `max_le`: no code is longer than `MAX_CODE_LEN`, so every shift by a code length and every
> `_ljBase`/`_ljOffset` index is in range.

> `ljBase_max`: `_ljBase[maxCodeLength] = 0` when the longest code is longer than
> `TABLE_LOOKUP_BITS`, which stops the search loop (it reads `_ljBase[codeLen]` before it
> tests `codeLen <= _maxCodeLength`) before it runs off the table.

> `table_len`: an acceleration entry that `_tableMin ≤ buffer` selects has a code length of
> at most `TABLE_LOOKUP_BITS`, unless `_tableMin` is the all-ones sentinel (no code of length
> `≤ TABLE_LOOKUP_BITS`) and `buffer` is all ones; then it is still at most `MAX_CODE_LEN`.

`new_decoderOk` derives them from the constructor's success, for any table bytes. The
argument only uses where the constructor writes, not what it writes: `base` stays all-ones
off `minCodeLength … maxCodeLength` and `base[maxCodeLength]` is the ceiling of an empty
sum (`computeBase_spec`); `_ljBase[l]` is `base[l] << (64 - l)` or the sentinel
(`computeLjBase_spec`); an acceleration entry takes the first length, in increasing order,
whose `_ljBase` is at most its probe (`tableEntry_le`).
-/

namespace ExrCodecs.FastHuf

/-! ## Loops that write one value per index -/

/-- A loop that writes, at each index of `L`, a value computed from the index alone: an
index it misses keeps its value, and an index it visits holds the value computed for it. -/
theorem foldlM_write {α : Type} (g : Nat → Except FastHufError α) (size : Nat) :
    ∀ (L : List Nat) (a0 a : Nat → α),
      L.foldlM (fun a x => g x >>= fun v => write a size x v) a0 = .ok a →
      ∀ j, (j ∉ L → a j = a0 j) ∧ (j ∈ L → g j = .ok (a j)) := by
  intro L
  induction L with
  | nil =>
    intro a0 a h j
    cases h
    simp
  | cons x rest ih =>
    intro a0 a h j
    rw [List.foldlM_cons, bind_eq_ok] at h
    obtain ⟨a1, h1, hrest⟩ := h
    rw [bind_eq_ok] at h1
    obtain ⟨v, hv, hw⟩ := h1
    obtain ⟨-, -, rfl⟩ := write_eq_ok hw
    have hj := ih _ _ hrest j
    rw [Int.toNat_ofNat] at hj
    by_cases hjx : j = x
    · subst hjx
      by_cases hr : j ∈ rest
      · exact ⟨fun h => absurd (List.mem_cons_self _ _) h, fun _ => hj.2 hr⟩
      · refine ⟨fun h => absurd (List.mem_cons_self _ _) h, fun _ => ?_⟩
        rw [hj.1 hr, Function.update_same]
        exact hv
    · simp only [List.mem_cons, hjx, false_or]
      exact ⟨fun hr => by rw [hj.1 hr, Function.update_noteq hjx], hj.2⟩

/-! ## `base` and `_ljBase` -/

@[simp] theorem mem_lengths {l minL maxL : Nat} :
    l ∈ lengths minL maxL ↔ minL ≤ l ∧ l ≤ maxL := by
  simp only [lengths, List.mem_range'_1]
  omega

theorem lengths_sorted (minL maxL : Nat) : (lengths minL maxL).Sorted (· ≤ ·) :=
  (List.pairwise_lt_range' _ _).imp Nat.le_of_lt

/-- `base` is all-ones off the lengths in use, and `base[maxCodeLength]` is the ceiling of an
empty sum, zero. -/
theorem computeBase_spec {codeCount : Nat → Nat} {minL maxL : Nat} {base : Nat → BitVec 64}
    (h : computeBase codeCount minL maxL = .ok base) :
    (∀ l, l ∉ lengths minL maxL → base l = allOnes) ∧ (minL ≤ maxL → base maxL = 0) := by
  simp only [computeBase, bind_eq_ok] at h
  obtain ⟨countTmp, -, h⟩ := h
  have hloop := foldlM_write (fun l => do
      let tmp ← baseSum countTmp l maxL
      let p ← shlNat 2 (maxL - l : Int)
      pure (BitVec.ofNat 64 ((tmp + p - 1) / p))) (MAX_CODE_LEN + 1) _ _ _
    (by simpa only [bind_assoc, pure_bind] using h)
  refine ⟨fun l hl => (hloop l).1 hl, fun hle => ?_⟩
  have hmax := (hloop maxL).2 (mem_lengths.2 ⟨hle, le_rfl⟩)
  simp only [baseSum, Nat.sub_self, List.range'_zero, List.foldlM_nil, shlNat, sub_self] at hmax
  have hzero : Except.ok (ε := FastHufError) (0 : BitVec 64) = .ok (base maxL) := hmax
  exact (Except.ok.inj hzero).symm

/-- The loops over `_ljBase` count with an `int`: the model runs them over the casts of the
lengths. -/
theorem intCounter_eq (L : List Nat) :
    (do let a ← L; pure (a : Int)) = L.map (fun a : Nat => (a : Int)) := by
  simp [List.map_eq_flatMap]

/-- `_ljBase[i]` is `base[i] << (64 - i)`, or the all-ones mark where `base[i]` has it. -/
theorem computeLjBase_spec {base ljBase : Nat → BitVec 64} (h : computeLjBase base = .ok ljBase)
    {i : Nat} (hi : i ≤ MAX_CODE_LEN) :
    ljBase i = if base i = allOnes then allOnes else base i <<< (64 - i) := by
  have hloop := foldlM_write (fun i => do
      let b ← index base (MAX_CODE_LEN + 1) i
      if b ≠ allOnes then shl b (64 - i : Int) else pure allOnes) (MAX_CODE_LEN + 1)
    (List.range (MAX_CODE_LEN + 1)) (fun _ => 0) ljBase (by
      unfold computeLjBase at h
      rw [intCounter_eq, List.foldlM_map] at h
      convert h using 2
      funext a i
      simp only [bind_assoc]
      congr 1
      funext b
      split_ifs <;> simp)
  have hg := (hloop i).2 (List.mem_range.2 (by omega))
  have hlt : (i : Int) < (MAX_CODE_LEN + 1 : Nat) := by simp only [MAX_CODE_LEN] at hi ⊢; omega
  simp only [@index_ok _ base (MAX_CODE_LEN + 1) i (Int.ofNat_nonneg i) hlt, ok_bind,
    Int.toNat_ofNat] at hg
  split_ifs at hg with hb
  · unfold shl at hg
    split_ifs at hg
    rw [if_neg hb, ← Except.ok.inj hg]
    congr 1
    omega
  · rw [if_pos (not_not.mp hb)]
    exact (Except.ok.inj hg).symm

/-- A length of at most `TABLE_LOOKUP_BITS` shifted to the top of the word leaves the bits an
acceleration index does not see zero. -/
theorem shiftLeft_mod_tableBits (y : BitVec 64) {m : Nat} (hm : m ≤ TABLE_LOOKUP_BITS) :
    (y <<< (64 - m)).toNat % 2 ^ (64 - TABLE_LOOKUP_BITS) = 0 := by
  have hdvd : 2 ^ (64 - TABLE_LOOKUP_BITS) ∣ 2 ^ 64 := Nat.pow_dvd_pow 2 (Nat.sub_le _ _)
  rw [BitVec.toNat_shiftLeft, Nat.shiftLeft_eq, Nat.mod_mod_of_dvd _ hdvd]
  exact Nat.mod_eq_zero_of_dvd (Dvd.dvd.mul_left (Nat.pow_dvd_pow 2 (by omega)) _)

/-! ## The acceleration table -/

theorem tableMinIdx_spec (ljBase : Nat → BitVec 64) :
    ∀ n, tableMinIdx ljBase n ≤ n ∧
      (tableMinIdx ljBase n = 0 ∨ ljBase (tableMinIdx ljBase n) ≠ allOnes)
  | 0 => ⟨le_rfl, Or.inl rfl⟩
  | n + 1 => by
    unfold tableMinIdx
    split_ifs with h
    · exact ⟨by have := (tableMinIdx_spec ljBase n).1; omega, (tableMinIdx_spec ljBase n).2⟩
    · exact ⟨le_rfl, Or.inr h⟩

section tableEntry

variable {ljBase ljOffset : Nat → BitVec 64} {idToSymbol : Nat → Nat} {numSymbols : Nat}
  {value : BitVec 64} {e : Nat × Nat}

/-- One round of the entry loop: it stops at `codeLen` when `_ljBase[codeLen]` is at most the
probe, and goes on with the rest otherwise. -/
theorem tableEntry_cons_ok {codeLen : Nat} {rest : List Nat}
    (h : tableEntry ljBase ljOffset idToSymbol numSymbols value (codeLen :: rest) = .ok e) :
    (ljBase codeLen ≤ value ∧ e.1 = codeLen) ∨
      (¬ ljBase codeLen ≤ value ∧
        tableEntry ljBase ljOffset idToSymbol numSymbols value rest = .ok e) := by
  rw [tableEntry, bind_eq_ok] at h
  obtain ⟨b, hb, h⟩ := h
  obtain ⟨-, -, rfl⟩ := index_eq_ok hb
  rw [Int.toNat_ofNat] at h
  split_ifs at h with hle
  · simp only [bind_eq_ok] at h
    obtain ⟨_, -, _, -, h⟩ := h
    split_ifs at h
    obtain ⟨_, -, h⟩ := bind_eq_ok.1 h
    exact .inl ⟨hle, by cases h; rfl⟩
  · exact .inr ⟨hle, h⟩

/-- An entry's length is one of the lengths tried, or 0 when none matched. -/
theorem tableEntry_mem :
    ∀ {L : List Nat}, tableEntry ljBase ljOffset idToSymbol numSymbols value L = .ok e →
      e.1 = 0 ∨ e.1 ∈ L
  | [], h => .inl (by cases h; rfl)
  | _ :: _, h => by
    rcases tableEntry_cons_ok h with ⟨-, he⟩ | ⟨-, hrest⟩
    · exact .inr (he ▸ List.mem_cons_self _ _)
    · exact (tableEntry_mem hrest).imp_right (List.mem_cons_of_mem _)

/-- Tried in increasing order, an entry's length is at most every length whose `_ljBase` is
at most the probe. -/
theorem tableEntry_le {m : Nat} :
    ∀ {L : List Nat}, tableEntry ljBase ljOffset idToSymbol numSymbols value L = .ok e →
      L.Sorted (· ≤ ·) → m ∈ L → ljBase m ≤ value → e.1 ≤ m
  | [], _, _, hm, _ => absurd hm (List.not_mem_nil _)
  | _ :: _, h, hL, hm, hb => by
    rcases tableEntry_cons_ok h with ⟨-, he⟩ | ⟨hlt, hrest⟩
    · rcases List.mem_cons.1 hm with rfl | hm
      · exact he.le
      · exact he ▸ List.rel_of_sorted_cons hL _ hm
    · rcases List.mem_cons.1 hm with rfl | hm
      · exact absurd hb hlt
      · exact tableEntry_le hrest hL.of_cons hm hb

end tableEntry

/-- A word with nothing below its top `TABLE_LOOKUP_BITS` bits that is at most `b` is at most
the probe of `b`'s acceleration entry. -/
theorem le_tableValue {x b : BitVec 64} (hx : x.toNat % 2 ^ (64 - TABLE_LOOKUP_BITS) = 0)
    (h : x ≤ b) : x ≤ tableValue (b >>> (64 - TABLE_LOOKUP_BITS)).toNat := by
  have hb := b.isLt
  have hdiv := Nat.div_le_div_right (c := 2 ^ (64 - TABLE_LOOKUP_BITS)) (BitVec.le_def.1 h)
  rw [BitVec.le_def, tableValue, BitVec.toNat_shiftLeft, BitVec.toNat_ofNat,
    BitVec.toNat_ushiftRight, Nat.shiftRight_eq_div_pow, Nat.shiftLeft_eq]
  simp only [TABLE_LOOKUP_BITS] at *
  omega

/-- `_ljOffset` is always built: its indices are in range and its shifts are by `64 - i` for
`i ≥ 1`. -/
theorem computeLjOffset_ok (ljBase : Nat → BitVec 64) (offset : Nat → Nat) :
    ∃ ljOffset, computeLjOffset ljBase offset = .ok ljOffset := by
  rw [computeLjOffset, index_ok _ le_rfl (by decide), ok_bind, index_ok _ le_rfl (by decide),
    ok_bind, write_ok _ _ le_rfl (by decide), ok_bind]
  rw [intCounter_eq, List.foldlM_map]
  refine foldlM_ok (fun _ i hi => ?_) _
  rw [List.mem_range'_1] at hi
  simp only [MAX_CODE_LEN] at hi
  rw [index_ok _ (by omega) (by simp only [MAX_CODE_LEN]; omega), ok_bind,
    index_ok _ (by omega) (by simp only [MAX_CODE_LEN]; omega), ok_bind,
    shr_ok _ (by omega) (by omega), ok_bind, write_ok _ _ (by omega) (by simp only [MAX_CODE_LEN]; omega)]
  exact ⟨_, rfl⟩

/-- `buildTables` succeeds when `_ljBase` can be built and no acceleration entry throws. -/
theorem buildTables_ok {rleSymbol : Int} {numSymbols minL maxL : Nat} {idToSymbol : Nat → Nat}
    {base : Nat → BitVec 64} {offset : Nat → Nat} {ljBase : Nat → BitVec 64}
    (hlj : computeLjBase base = .ok ljBase)
    (hent : ∀ i < 2 ^ TABLE_LOOKUP_BITS, ∀ ljOffset, ∃ e, tableEntry ljBase ljOffset idToSymbol
      numSymbols (tableValue i) (lengths minL maxL) = .ok e) :
    ∃ d, buildTables rleSymbol numSymbols minL maxL idToSymbol base offset = .ok d := by
  obtain ⟨ljOffset, hlo⟩ := computeLjOffset_ok ljBase offset
  have hmin := (tableMinIdx_spec ljBase TABLE_LOOKUP_BITS).1
  rw [buildTables, hlj, ok_bind, hlo, ok_bind]
  dsimp only
  rw [forM_ok fun i hi => ?_, ok_bind,
    index_ok _ (by omega) (by simp only [TABLE_LOOKUP_BITS, MAX_CODE_LEN] at hmin ⊢; omega)]
  · exact ⟨_, rfl⟩
  · obtain ⟨e, he⟩ := hent i (List.mem_range.1 hi) ljOffset
    rw [he]
    rfl

/-! ## What `decode` may assume -/

/-- The facts about an accepted code-book that `decode` relies on without checking them. -/
structure DecoderOk (d : FastHufDecoder) : Prop where
  max_le : d.maxCodeLength ≤ MAX_CODE_LEN
  ljBase_max : TABLE_LOOKUP_BITS < d.maxCodeLength → d.ljBase d.maxCodeLength = 0
  codeLen_le : ∀ i, d.tableCodeLen i ≤ MAX_CODE_LEN
  codeLen_short : ∀ b, d.tableMin ≤ b → b ≠ allOnes →
    d.tableCodeLen (b >>> (64 - TABLE_LOOKUP_BITS)).toNat ≤ TABLE_LOOKUP_BITS

theorem allOnes_le {b : BitVec 64} (h : allOnes ≤ b) : b = allOnes := by
  have hb := b.isLt
  rw [BitVec.le_def] at h
  apply BitVec.eq_of_toNat_eq
  simp only [allOnes, BitVec.toNat_allOnes] at h ⊢
  omega

/-- `buildTables` from a `base` that is all-ones off the lengths in use and zero at the
longest one builds tables `decode` can rely on. -/
theorem buildTables_decoderOk {rleSymbol : Int} {numSymbols minL maxL : Nat}
    {idToSymbol : Nat → Nat} {base : Nat → BitVec 64} {offset : Nat → Nat} {d : FastHufDecoder}
    (h : buildTables rleSymbol numSymbols minL maxL idToSymbol base offset = .ok d)
    (hmin : 1 ≤ minL) (hmax : maxL ≤ MAX_CODE_LEN)
    (hunused : ∀ l, l ∉ lengths minL maxL → base l = allOnes)
    (hlast : TABLE_LOOKUP_BITS < maxL → base maxL = 0) : DecoderOk d := by
  simp only [buildTables, bind_eq_ok] at h
  obtain ⟨ljBase, hlj, ljOffset, -, -, -, tableMin, hmin', h⟩ := h
  cases h
  obtain ⟨-, -, rfl⟩ := index_eq_ok hmin'
  have hlj' := fun {i} => computeLjBase_spec hlj (i := i)
  -- where an entry is built, its length is one of the lengths in use, or 0
  have hentry : ∀ b, (match tableEntry ljBase ljOffset idToSymbol numSymbols (tableValue b)
      (lengths minL maxL) with | .ok e => e.1 | .error _ => 0) ≤ MAX_CODE_LEN := by
    intro b
    split
    · rename_i e he
      rcases tableEntry_mem he with h0 | hmem
      · omega
      · exact (mem_lengths.1 hmem).2.trans hmax
    · exact Nat.zero_le _
  refine ⟨hmax, fun hgt => ?_, hentry, fun b hb hne => ?_⟩
  · dsimp only at hgt ⊢
    rw [hlj' hmax, hlast hgt, if_neg (by decide)]
    exact BitVec.zero_shiftLeft _
  · dsimp only at hb ⊢
    obtain ⟨hle, hm⟩ := tableMinIdx_spec ljBase TABLE_LOOKUP_BITS
    set m := tableMinIdx ljBase TABLE_LOOKUP_BITS
    rw [Int.toNat_ofNat] at hb
    have hm58 : m ≤ MAX_CODE_LEN := hle.trans (by decide)
    rcases hm with h0 | hm
    · -- no length up to `TABLE_LOOKUP_BITS` is in use: `_tableMin` is all-ones
      rw [h0, hlj' (Nat.zero_le _), if_pos (hunused 0 (by simp; omega))] at hb
      exact absurd (allOnes_le hb) hne
    · -- `_tableMin` is `_ljBase[m]` for a length `m` in use: the entry stops at `m` or before
      have hbase : base m ≠ allOnes := fun h => hm (by rw [hlj' hm58, if_pos h])
      have hmem : m ∈ lengths minL maxL := by_contra fun h => hbase (hunused m h)
      rw [hlj' hm58, if_neg hbase] at hb
      split
      · rename_i e he
        refine (tableEntry_le he (lengths_sorted _ _) hmem ?_).trans hle
        rw [hlj' hm58, if_neg hbase]
        exact le_tableValue (shiftLeft_mod_tableBits _ hle) hb
      · exact Nat.zero_le _

/-- Every code-book the constructor accepts, from any bytes, gives tables `decode` can rely
on. -/
theorem new_decoderOk {table : List (BitVec 8)} {numBytes minSymbol maxSymbol : Nat}
    {rleSymbol : Int} {d : FastHufDecoder} {consumed : Nat}
    (h : FastHufDecoder.new table numBytes minSymbol maxSymbol rleSymbol = .ok (d, consumed)) :
    DecoderOk d := by
  simp only [FastHufDecoder.new, bind_eq_ok] at h
  obtain ⟨s, hs, base, hbase, _, -, _, -, _, -, d', hd, h⟩ := h
  cases h
  have hfacts := scanLoop_facts _ _ _ _ _ _ _ hs ScanFacts.init
  obtain ⟨hunused, hlast⟩ := computeBase_spec hbase
  exact buildTables_decoderOk hd hfacts.min_pos hfacts.max_le hunused fun hgt =>
    hlast (hfacts.empty_or_le.resolve_left (by omega))

end ExrCodecs.FastHuf
