import ExrCodecs.FastHuf.Tables

/-!
# The constructor makes no undefined move

On a table of `numBytes` bytes and for any symbol range, `FastHufDecoder::FastHufDecoder`
returns its decoder or one of its own exceptions, never a fault (`new_safe`): the scan reads
no byte past the table (`scan_noFault`), and after it every array index and every shift
amount is in range because of what the scan records (`ScanFacts`): lengths in
`[1, MAX_CODE_LEN]`, so `2ll << (max - l)` and `64 - l` are shifts in `[0, 63]`, and
`base[0]` stays all-ones, so `base[0] << 64` is never computed.

The loops that cannot throw are shown to succeed (`computeBase_ok`, `computeOffset_ok`,
`computeMapping_ok`, `computeLjBase_ok`); the two that can throw their own exceptions are
shown to throw nothing else (`assignIds_noFault`, `tableEntry_noFault`).
-/

namespace ExrCodecs.FastHuf

/-! ## The loops over the lengths in use -/

section lengths

variable {minL maxL : Nat} (hmax : maxL ≤ MAX_CODE_LEN)
include hmax

theorem computeCountTmp_ok (codeCount : Nat → Nat) :
    ∃ countTmp, computeCountTmp codeCount minL maxL = .ok countTmp := by
  rw [computeCountTmp, intCounter_eq, List.foldlM_map]
  refine foldlM_ok (fun _ l hl => ?_) _
  rw [mem_lengths] at hl
  simp only [MAX_CODE_LEN] at hmax
  rw [index_ok _ (by omega) (by simp only [MAX_CODE_LEN]; omega), ok_bind,
    shlNat_ok _ (by omega) (by omega), ok_bind, write_ok _ _ (by omega) (by omega)]
  exact ⟨_, rfl⟩

theorem computeBase_ok (codeCount : Nat → Nat) :
    ∃ base, computeBase codeCount minL maxL = .ok base := by
  obtain ⟨countTmp, hcount⟩ := computeCountTmp_ok hmax codeCount
  rw [computeBase, hcount, ok_bind]
  refine foldlM_ok (fun _ l hl => ?_) _
  rw [mem_lengths] at hl
  obtain ⟨tmp, htmp⟩ : ∃ tmp, baseSum countTmp l maxL = .ok tmp := by
    rw [baseSum, intCounter_eq, List.foldlM_map]
    refine foldlM_ok (fun _ k hk => ?_) _
    rw [List.mem_range'_1] at hk
    rw [index_ok _ (by omega) (by omega), ok_bind]
    exact ⟨_, rfl⟩
  simp only [MAX_CODE_LEN] at hmax
  rw [htmp, ok_bind, shlNat_ok _ (by omega) (by omega), ok_bind,
    write_ok _ _ (by omega) (by simp only [MAX_CODE_LEN]; omega)]
  exact ⟨_, rfl⟩

theorem computeOffset_ok (codeCount : Nat → Nat) :
    ∃ offset, computeOffset codeCount minL maxL = .ok offset := by
  simp only [MAX_CODE_LEN] at hmax
  rw [computeOffset, write_ok _ _ (by omega) (by simp only [MAX_CODE_LEN]; omega), ok_bind,
    intCounter_eq, List.foldlM_map]
  refine foldlM_ok (fun _ i hi => ?_) _
  rw [List.mem_reverse, List.mem_range'_1] at hi
  rw [index_ok _ (by omega) (by simp only [MAX_CODE_LEN]; omega), ok_bind,
    index_ok _ (by omega) (by simp only [MAX_CODE_LEN]; omega), ok_bind,
    write_ok _ _ (by omega) (by simp only [MAX_CODE_LEN]; omega)]
  exact ⟨_, rfl⟩

theorem computeMapping_ok (offset : Nat → Nat) :
    ∃ mapping, computeMapping offset minL maxL = .ok mapping := by
  simp only [MAX_CODE_LEN] at hmax
  rw [computeMapping, intCounter_eq, List.foldlM_map]
  refine foldlM_ok (fun _ i hi => ?_) _
  rw [mem_lengths] at hi
  rw [index_ok _ (by omega) (by simp only [MAX_CODE_LEN]; omega), ok_bind,
    write_ok _ _ (by omega) (by simp only [MAX_CODE_LEN]; omega)]
  exact ⟨_, rfl⟩

end lengths

/-- The id assignment over recorded lengths of at most `MAX_CODE_LEN` indexes `mapping` in
range and writes `_idToSymbol` only below `numSymbols`: the only exception it can throw is
"Invalid symbol in header". -/
theorem assignIds_error (numSymbols : Nat) :
    ∀ {symbols : List (Nat × Nat)}, (∀ e ∈ symbols, e.2 ≤ MAX_CODE_LEN) →
      ∀ {mapping idToSymbol : Nat → Nat} {err : FastHufError},
        assignIds numSymbols symbols mapping idToSymbol = .error err → err = .invalidTableSymbol
  | [], _, _, _, _, h => nomatch h
  | (symbol, codeLen) :: _, hlen, mapping, idToSymbol, err, h => by
    have h58 : codeLen < MAX_CODE_LEN + 1 := Nat.lt_succ_of_le (hlen _ (List.mem_cons_self _ _))
    rw [assignIds, index_ok _ (by omega) (by omega), ok_bind] at h
    split_ifs at h with hm
    · exact (Except.error.inj h).symm
    rw [write_ok _ _ (by omega) (by omega), ok_bind, write_ok _ _ (by omega) (by omega),
      ok_bind] at h
    exact assignIds_error numSymbols (fun e he => hlen e (List.mem_cons_of_mem _ he)) h

theorem assignIds_noFault (numSymbols : Nat) {symbols : List (Nat × Nat)}
    (hlen : ∀ e ∈ symbols, e.2 ≤ MAX_CODE_LEN) (mapping idToSymbol : Nat → Nat) :
    NoFault (assignIds numSymbols symbols mapping idToSymbol) := by
  cases h : assignIds numSymbols symbols mapping idToSymbol with
  | ok _ => exact Safe.pure trivial
  | error err => exact safe_error.2 (by rw [assignIds_error numSymbols hlen h]; rfl)

/-! ## `buildTables` -/

/-- `_ljBase` is built whenever `base[0]` is all-ones: every other length shifts by
`64 - i ≤ 63`. -/
theorem computeLjBase_ok {base : Nat → BitVec 64} (hbase : base 0 = allOnes) :
    ∃ ljBase, computeLjBase base = .ok ljBase := by
  rw [computeLjBase, intCounter_eq, List.foldlM_map]
  refine foldlM_ok (fun _ i hi => ?_) _
  rw [List.mem_range] at hi
  rw [index_ok _ (by omega) (by exact_mod_cast hi), ok_bind, Int.toNat_ofNat]
  split_ifs with hb
  · have hi0 : i ≠ 0 := fun h => hb (h ▸ hbase)
    simp only [MAX_CODE_LEN] at hi
    rw [shl_ok _ (by omega) (by omega), ok_bind, write_ok _ _ (by omega) (by exact_mod_cast hi)]
    exact ⟨_, rfl⟩
  · rw [write_ok _ _ (by omega) (by exact_mod_cast hi)]
    exact ⟨_, rfl⟩

/-- An acceleration entry tried over lengths in `[1, MAX_CODE_LEN]` indexes `_ljBase`,
`_ljOffset` and `_idToSymbol` in range and shifts by `64 - codeLen ∈ [6, 63]`; it can only
throw "Overrun". -/
theorem tableEntry_noFault {ljBase ljOffset : Nat → BitVec 64} {idToSymbol : Nat → Nat}
    {numSymbols : Nat} (value : BitVec 64) :
    ∀ {L : List Nat}, (∀ c ∈ L, 1 ≤ c ∧ c ≤ MAX_CODE_LEN) →
      NoFault (tableEntry ljBase ljOffset idToSymbol numSymbols value L)
  | [], _ => Safe.pure trivial
  | codeLen :: _, hL => by
    obtain ⟨h1, h58⟩ := hL codeLen (List.mem_cons_self _ _)
    simp only [MAX_CODE_LEN] at h58
    rw [tableEntry, index_ok _ (by omega) (by simp only [MAX_CODE_LEN]; omega), ok_bind]
    split_ifs
    · rw [index_ok _ (by omega) (by simp only [MAX_CODE_LEN]; omega), ok_bind,
        shr_ok _ (by omega) (by omega), ok_bind]
      dsimp only
      split_ifs with hid
      · rw [index_ok _ (by omega) (by exact_mod_cast hid), ok_bind]
        exact Safe.pure trivial
      · exact Safe.throw rfl
    · exact tableEntry_noFault value fun c hc => hL c (List.mem_cons_of_mem _ hc)

theorem buildTables_noFault {rleSymbol : Int} {numSymbols minL maxL : Nat}
    {idToSymbol : Nat → Nat} {base : Nat → BitVec 64} {offset : Nat → Nat}
    (hbase : base 0 = allOnes) (hL : ∀ c ∈ lengths minL maxL, 1 ≤ c ∧ c ≤ MAX_CODE_LEN) :
    NoFault (buildTables rleSymbol numSymbols minL maxL idToSymbol base offset) := by
  obtain ⟨ljBase, hlj⟩ := computeLjBase_ok hbase
  obtain ⟨ljOffset, hlo⟩ := computeLjOffset_ok ljBase offset
  have hmin := (tableMinIdx_spec ljBase TABLE_LOOKUP_BITS).1
  rw [buildTables, hlj, ok_bind, hlo, ok_bind]
  dsimp only
  refine Safe.bind (Safe.forM fun i _ => Safe.bind (tableEntry_noFault _ hL) fun _ _ =>
    Safe.pure trivial)
    fun _ _ => ?_
  rw [index_ok _ (by omega) (by simp only [TABLE_LOOKUP_BITS, MAX_CODE_LEN] at hmin ⊢; omega),
    ok_bind]
  exact Safe.pure trivial

/-! ## The constructor -/

/-- `FastHufDecoder::FastHufDecoder` on a table of `numBytes` bytes, for any symbol range and
run symbol: it terminates, reads no table byte at or past `numBytes`, indexes `codeCount`,
`countTmp`, `base`, `offset`, `mapping`, `_ljBase`, `_ljOffset`, the acceleration table and
`_idToSymbol` in range, and shifts only by amounts in `[0, 63]`. -/
theorem new_safe (table : List (BitVec 8)) (numBytes minSymbol maxSymbol : Nat) (rleSymbol : Int)
    (hlen : table.length = numBytes) :
    NoFault (FastHufDecoder.new table numBytes minSymbol maxSymbol rleSymbol) := by
  unfold FastHufDecoder.new
  refine Safe.bind_ok (scan_noFault minSymbol maxSymbol hlen) fun s hs => ?_
  have hf := scanLoop_facts _ _ _ _ _ _ _ hs ScanFacts.init
  obtain ⟨base, hbase⟩ := computeBase_ok hf.max_le s.codeCount
  obtain ⟨offset, hoffset⟩ := computeOffset_ok hf.max_le s.codeCount
  obtain ⟨mapping, hmapping⟩ := computeMapping_ok hf.max_le offset
  have hunused := (computeBase_spec hbase).1
  rw [hbase, ok_bind, hoffset, ok_bind, hmapping, ok_bind]
  refine Safe.bind (assignIds_noFault _ (fun e he => (hf.len_range he).2) _ _) fun _ _ => ?_
  refine Safe.bind (buildTables_noFault (hunused 0 (by simp; have := hf.min_pos; omega))
    fun c hc => ?_) fun _ _ => Safe.pure trivial
  rw [mem_lengths] at hc
  exact ⟨hf.min_pos.trans hc.1, hc.2.trans hf.max_le⟩

/-- The spec's smallest code-book, two symbols with codes of length 1 (`[0x04, 0x10]` holds
the lengths `1, 1` as 6-bit fields). -/
theorem new_safe_pairCodebook :
    ([0x04, 0x10] : List (BitVec 8)).length = 2 ∧
      NoFault (FastHufDecoder.new [0x04, 0x10] 2 0 1 0xFFFF) :=
  ⟨rfl, new_safe _ _ _ _ _ rfl⟩

end ExrCodecs.FastHuf
