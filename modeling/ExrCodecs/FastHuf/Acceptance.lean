import ExrCodecs.FastHuf.ConstructorSafety
import ExrCodecs.FastHuf.Wire

/-!
# Code-books that use `MAX_CODE_LEN` are refused

`_numSymbols` sums `codeCount[0 … MAX_CODE_LEN - 1]` and leaves out the codes of length
`MAX_CODE_LEN`, while `offset` and the id assignment count every length. The ids of the
shortest length `min` run from `offset[min] = Σ_{min < k ≤ max} codeCount[k]` on, one per
symbol of that length, and all must stay below `_numSymbols`; when the longest code has
length `MAX_CODE_LEN` the last of them is `Σ_k codeCount[k] - 1 ≥ _numSymbols`, so the id
assignment throws "Invalid symbol in header" (`new_rejects_maxCodeLength`). This is so for
every code-book, complete ones included: the complete code-book with lengths
`1, 2, …, 57, 58, 58` is written in the wire format, read back by the scan, and refused
(`new_rejects_fullDepthCodebook`).

> `assignIds_count`: a successful id assignment gives the symbols of each length ids from
> `mapping[l]` on, all below `numSymbols`.

> `computeOffset_spec`, `computeMapping_spec`: `mapping[l] = offset[l]`, the number of codes
> longer than `l`.
-/

namespace ExrCodecs.FastHuf

/-- The codes longer than `l`, up to length `maxL`. -/
def countAbove (codeCount : Nat → Nat) (l maxL : Nat) : Nat :=
  ((List.range' (l + 1) (maxL - l)).map codeCount).sum

/-- Kraft's equality for lengths up to `MAX_CODE_LEN`, scaled by `2 ^ MAX_CODE_LEN`: the
non-zero lengths form a complete prefix code. -/
def IsComplete (lens : List Nat) : Prop :=
  ((lens.filter (· ≠ 0)).map fun l => 2 ^ (MAX_CODE_LEN - l)).sum = 2 ^ MAX_CODE_LEN

instance (lens : List Nat) : Decidable (IsComplete lens) :=
  inferInstanceAs (Decidable (_ = _))

theorem countAbove_self (codeCount : Nat → Nat) (l : Nat) : countAbove codeCount l l = 0 := by
  simp [countAbove]

theorem countAbove_succ (codeCount : Nat → Nat) {l m : Nat} (h : l ≤ m) :
    countAbove codeCount l (m + 1) = countAbove codeCount l m + codeCount (m + 1) := by
  rw [countAbove, countAbove, show m + 1 - l = m - l + 1 by omega, List.range'_concat,
    List.map_append, List.sum_append, List.map_singleton, List.sum_singleton, Nat.one_mul,
    show l + 1 + (m - l) = m + 1 by omega]

/-! ## The id assignment -/

/-- A successful id assignment gives the symbols of each length consecutive ids from
`mapping[l]` on, all below `numSymbols`. -/
theorem assignIds_count (numSymbols : Nat) :
    ∀ {symbols : List (Nat × Nat)} {mapping idToSymbol r : Nat → Nat},
      assignIds numSymbols symbols mapping idToSymbol = .ok r → ∀ l,
        symbols.countP (fun e => e.2 = l) = 0 ∨
          mapping l + symbols.countP (fun e => e.2 = l) ≤ numSymbols
  | [], _, _, _, _, _ => .inl rfl
  | (symbol, codeLen) :: rest, mapping, idToSymbol, r, h, l => by
    rw [assignIds, bind_eq_ok] at h
    obtain ⟨m, hm, h⟩ := h
    obtain ⟨-, -, rfl⟩ := index_eq_ok hm
    split_ifs at h with hge
    obtain ⟨_, -, h⟩ := bind_eq_ok.1 h
    obtain ⟨mapping', hmap, h⟩ := bind_eq_ok.1 h
    obtain ⟨-, -, rfl⟩ := write_eq_ok hmap
    have ih := assignIds_count numSymbols h l
    rw [Int.toNat_ofNat] at hge ih
    rw [List.countP_cons]
    by_cases hl : codeLen = l
    · subst hl
      rw [if_pos (by simp)]
      rw [Function.update_same] at ih
      omega
    · simpa [Function.update_noteq (Ne.symm hl), hl] using ih

/-! ## `offset` and `mapping` -/

/-- The loop of `computeOffset`, from any step that writes `offset[i + 1] + codeCount[i + 1]`
at `i`: run down from `a + n - 1` to `a`, it leaves `offset[l] = offset[a + n] + (the codes
from l + 1 to a + n)` in `[a, a + n)` and every other index alone. -/
theorem offsetLoop_eq {F : (Nat → Nat) → Nat → Except FastHufError (Nat → Nat)}
    {codeCount : Nat → Nat} {a maxL : Nat}
    (hF : ∀ o i, a ≤ i → i < maxL →
      F o i = .ok (Function.update o i (o (i + 1) + codeCount (i + 1)))) :
    ∀ n (o0 : Nat → Nat), a + n ≤ maxL →
      (List.range' a n).reverse.foldlM F o0 = .ok fun l =>
        if a ≤ l ∧ l < a + n then o0 (a + n) + countAbove codeCount l (a + n) else o0 l
  | 0, o0, _ => by
    simp only [List.range'_zero, List.reverse_nil, List.foldlM_nil]
    exact congrArg _ (funext fun l => (if_neg (by omega)).symm)
  | n + 1, o0, hn => by
    rw [List.range'_concat, List.reverse_append, List.reverse_singleton, List.singleton_append,
      List.foldlM_cons, Nat.one_mul, hF o0 (a + n) (by omega) (by omega), ok_bind,
      offsetLoop_eq hF n _ (by omega), ← Nat.add_assoc]
    refine congrArg _ (funext fun l => ?_)
    by_cases hl : l = a + n
    · subst hl
      rw [if_neg (by omega), if_pos (by omega), Function.update_same,
        countAbove_succ codeCount le_rfl, countAbove_self, Nat.zero_add]
    · rw [Function.update_noteq hl, Function.update_same]
      by_cases hin : a ≤ l ∧ l < a + n
      · rw [if_pos hin, if_pos (by omega), countAbove_succ codeCount (by omega)]
        omega
      · rw [if_neg hin, if_neg (by omega)]

/-- `offset[l]` is the number of codes longer than `l`, for every length in use. -/
theorem computeOffset_spec {codeCount offset : Nat → Nat} {minL maxL : Nat}
    (hmax : maxL ≤ MAX_CODE_LEN) (h : computeOffset codeCount minL maxL = .ok offset) {l : Nat}
    (hl : l ∈ lengths minL maxL) : offset l = countAbove codeCount l maxL := by
  rw [mem_lengths] at hl
  simp only [MAX_CODE_LEN] at hmax
  rw [computeOffset, write_ok _ _ (by omega) (by simp only [MAX_CODE_LEN]; omega), ok_bind,
    intCounter_eq, List.foldlM_map, @offsetLoop_eq _ codeCount minL maxL ?_ _ _ (by omega)] at h
  · rw [← Except.ok.inj h, Nat.add_sub_cancel' (hl.1.trans hl.2), Int.toNat_ofNat,
      Function.update_same]
    dsimp only
    split_ifs with hin
    · rw [Nat.zero_add]
    · rw [show l = maxL by omega, Function.update_same, countAbove_self]
  · intro o i _ hi
    dsimp only
    rw [index_ok _ (by omega) (by simp only [MAX_CODE_LEN]; omega), ok_bind,
      index_ok _ (by omega) (by simp only [MAX_CODE_LEN]; omega), ok_bind,
      write_ok _ _ (by omega) (by simp only [MAX_CODE_LEN]; omega),
      show ((i : Int) + 1).toNat = i + 1 by omega, Int.toNat_ofNat]

/-- `mapping[l] = offset[l]` for every length in use. -/
theorem computeMapping_spec {offset mapping : Nat → Nat} {minL maxL : Nat}
    (h : computeMapping offset minL maxL = .ok mapping) {l : Nat} (hl : l ∈ lengths minL maxL) :
    mapping l = offset l := by
  rw [computeMapping, intCounter_eq, List.foldlM_map] at h
  obtain ⟨-, -, hl'⟩ := index_eq_ok
    ((foldlM_write (fun i => index offset (MAX_CODE_LEN + 1) i) _ _ _ _ h l).2 hl)
  rw [hl', Int.toNat_ofNat]

/-! ## The count that comes out short -/

/-- With no code shorter than `minL`, the codes of length `minL` and longer are all the codes:
`_numSymbols` and those of length `MAX_CODE_LEN` that it leaves out. -/
theorem count_from_min (codeCount : Nat → Nat) {minL : Nat} (hmin : minL ≤ MAX_CODE_LEN)
    (h0 : ∀ l < minL, codeCount l = 0) :
    codeCount minL + countAbove codeCount minL MAX_CODE_LEN
      = numSymbolsOf codeCount + codeCount MAX_CODE_LEN := by
  have hlow : ((List.range' 0 minL).map codeCount).sum = 0 := List.sum_eq_zero fun x hx => by
    obtain ⟨l, hl, rfl⟩ := List.mem_map.1 hx
    exact h0 l (by simpa using (List.mem_range'_1.1 hl).2)
  rw [numSymbolsOf, ← List.sum_singleton (a := codeCount MAX_CODE_LEN), ← List.sum_append,
    ← List.map_singleton, ← List.map_append, ← List.range_succ, List.range_eq_range',
    show MAX_CODE_LEN.succ = MAX_CODE_LEN - minL + 1 + minL by omega,
    ← List.range'_append_1 0 minL (MAX_CODE_LEN - minL + 1),
    List.range'_succ, List.map_append, List.sum_append, hlow, List.map_cons, List.sum_cons,
    Nat.zero_add, Nat.zero_add, countAbove]

/-- A code-book whose longest code has length `MAX_CODE_LEN` is refused, whatever else it
holds: `_numSymbols` leaves those codes out, so the ids of the shortest length run past it
and the id assignment throws "Invalid symbol in header". -/
theorem new_rejects_maxCodeLength {table : List (BitVec 8)} {numBytes minSymbol maxSymbol : Nat}
    {rleSymbol : Int} {s : ScanState} (hs : scan table numBytes minSymbol maxSymbol = .ok s)
    (hmax : s.maxCodeLength = MAX_CODE_LEN) :
    FastHufDecoder.new table numBytes minSymbol maxSymbol rleSymbol
      = .error .invalidTableSymbol := by
  have hf := scanLoop_facts _ _ _ _ _ _ _ hs ScanFacts.init
  obtain ⟨e, he, hemax⟩ := hf.max_mem.resolve_left (by rw [hmax]; decide)
  obtain ⟨e', he', hemin⟩ := hf.min_mem.resolve_left (List.ne_nil_of_mem he)
  have hminle : s.minCodeLength ≤ MAX_CODE_LEN := by
    have := hf.symbol_len e he
    omega
  obtain ⟨base, hbase⟩ := computeBase_ok hf.max_le s.codeCount
  obtain ⟨offset, hoffset⟩ := computeOffset_ok hf.max_le s.codeCount
  obtain ⟨mapping, hmapping⟩ := computeMapping_ok hf.max_le offset
  rw [FastHufDecoder.new, hs, ok_bind]
  dsimp only
  rw [hbase, ok_bind, hoffset, ok_bind, hmapping, ok_bind]
  cases hids : assignIds (numSymbolsOf s.codeCount) s.symbols mapping (fun _ => 0) with
  | error err =>
    rw [assignIds_error _ (fun e he => (hf.len_range he).2) hids]
    rfl
  | ok ids =>
    exfalso
    have hlen : s.minCodeLength ∈ lengths s.minCodeLength s.maxCodeLength :=
      mem_lengths.2 ⟨le_rfl, by omega⟩
    have hlast : 0 < s.codeCount MAX_CODE_LEN := by
      rw [hf.count_eq]
      exact List.countP_pos_iff.2 ⟨e, he, by simp [hemax, hmax]⟩
    have hsplit := count_from_min s.codeCount hminle fun l hl => by
      rw [hf.count_eq, List.countP_eq_zero]
      intro x hx hxl
      have := (hf.symbol_len x hx).1
      simp only [decide_eq_true_eq] at hxl
      omega
    have hids := (assignIds_count _ hids s.minCodeLength).resolve_left
      (List.countP_pos_iff.2 ⟨e', he', by simp [hemin]⟩).ne'
    rw [computeMapping_spec hmapping hlen, computeOffset_spec hf.max_le hoffset hlen,
      ← hf.count_eq, hmax] at hids
    omega

/-- Code lengths `1, 2, …, 57, 58, 58` on the symbols `0 … 58`, as literals. -/
def fullDepthCodebook : List LengthToken :=
  (List.range MAX_CODE_LEN).map (fun i => .literal (i + 1)) ++ [.literal MAX_CODE_LEN]

/-- The complete code-book with lengths `1, 2, …, 57, 58, 58`, written in the wire format
(45 bytes) with one more byte after it, is read back with `maxCodeLength = 58` and refused. -/
theorem new_rejects_fullDepthCodebook :
    IsComplete (codeLengths fullDepthCodebook) ∧
      ∃ s, scan (packBits (encode fullDepthCodebook) ++ [0]) 46 0 58 = .ok s ∧
        s.maxCodeLength = MAX_CODE_LEN ∧
        FastHufDecoder.new (packBits (encode fullDepthCodebook) ++ [0]) 46 0 58 0
          = .error .invalidTableSymbol := by
  have hlen : (packBits (encode fullDepthCodebook)).length = 45 := by
    rw [packBits_length, length_encode,
      show (fullDepthCodebook.map fun t => t.tail.length).sum = 0 by decide]
    rfl
  obtain ⟨s, hs, hsyms, hf, -⟩ :=
    @scan_encode_ok fullDepthCodebook (by decide) 0 58 (by decide) [0] 46 (by omega)
  have hmax : s.maxCodeLength = MAX_CODE_LEN := by
    rw [hf.maxCodeLength_eq hsyms, maxLength,
      (List.max?_eq_some_iff' (a := 58)).2 ⟨by decide, by decide⟩]
    rfl
  exact ⟨by decide, s, hs, hmax, new_rejects_maxCodeLength hs hmax⟩

end ExrCodecs.FastHuf
