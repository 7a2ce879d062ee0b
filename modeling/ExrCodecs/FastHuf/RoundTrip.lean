import ExrCodecs.FastHuf.Completeness

/-!
# `decode` reads back the canonical encoding of a stream

For a code-book the constructor accepts, with a code of at most `TABLE_LOOKUP_BITS` bits and
no code longer than 51 bits, `decode` run on the canonical encoding of a stream returns the
symbols the stream stands for (`decode_encodeTokens`).

The proof follows the registers as a bit queue. At the head of each round the queue holds the
encoding of the tokens still to read, then zeros (`Queued`, `StreamAt`), and while the stream
has bytes not loaded yet the registers' valid bits and those bytes' bits are at most the rest
of the encoding (`Queued.left_le`). A refill moves bits and loses none (`refill_left`), so the
balance survives it, and at the end of the stream it leaves no bits unread: the trailing check
of `decode` passes. The balance is an inequality so that registers on any payload are queued
at their own pending bits (`Queued.of_regs`), which the soundness proof uses.

A round reads the code at the head of the queue, through the table or the search
(`lookupSymbol_stream`), shifts it out (`Queued.consume`), and writes a literal
(`step_literal`) or copies the symbol before `count` times (`step_run`, `copyRun_eq`). The
output is followed by `DecodesTo`: what is written is a prefix of the expansion, and the rest
of the expansion is what the tokens still to read stand for.
-/

namespace ExrCodecs.FastHuf

variable {src : List (BitVec 8)} {s s' : DecodeState}

/-! ## What `refill` does to the counters -/

theorem topUp_left {n : Int} (h : topUp s n = .ok s') :
    s'.bufferBackNumBits = s.bufferBackNumBits ∧ s'.currBitsLeft = s.currBitsLeft := by
  obtain ⟨_, -, h⟩ := bind_eq_ok.1 h
  cases h
  exact ⟨rfl, rfl⟩

theorem dropBack_left {n : Int} (h : dropBack s n = .ok s') :
    s'.bufferBackNumBits = s.bufferBackNumBits - n ∧ s'.currBitsLeft = s.currBitsLeft := by
  unfold dropBack at h
  split_ifs at h <;> obtain ⟨_, -, h⟩ := bind_eq_ok.1 h <;> cases h <;> exact ⟨rfl, rfl⟩

/-- The partial reload's loop stops with no bits left to load. -/
theorem reloadTail_left :
    ∀ {fuel : Nat} {acc : BitVec 64} {shift : Int} {currByte : Nat} {currBitsLeft : Int}
      {r : BitVec 64 × Nat × Int},
      reloadTail src fuel acc shift currByte currBitsLeft = .ok r → r.2.2 ≤ 0
  | 0, _, _, _, _, _, h => by
    unfold reloadTail at h
    split_ifs at h with hc
    cases h
    exact not_lt.1 hc
  | _ + 1, _, _, _, _, _, h => by
    unfold reloadTail at h
    split_ifs at h with hc
    · obtain ⟨_, -, h⟩ := bind_eq_ok.1 h
      obtain ⟨_, -, h⟩ := bind_eq_ok.1 h
      exact reloadTail_left h
    · cases h
      exact not_lt.1 hc

/-- A reload fills `bufferBack` and takes 64 bits off the stream, or what is left of it. -/
theorem reloadBack_left (h : reloadBack src s = .ok s') :
    s'.bufferBackNumBits = 64 ∧ (0 < s'.currBitsLeft → s'.currBitsLeft = s.currBitsLeft - 64) := by
  unfold reloadBack at h
  split_ifs at h
  · obtain ⟨_, -, h⟩ := bind_eq_ok.1 h
    cases h
    exact ⟨rfl, fun _ => rfl⟩
  · obtain ⟨⟨w, cb, cbl⟩, hr, h⟩ := bind_eq_ok.1 h
    cases h
    have := reloadTail_left hr
    refine ⟨rfl, fun hpos => ?_⟩
    dsimp only at this hpos ⊢
    split_ifs at hpos <;> omega

/-- `refill (numBits)` moves bits and loses none: while the stream still has bits to load, the
`numBits` bits it puts into `buffer` come from `bufferBack` and the stream. -/
theorem refill_left {n : Int} (h : refill src n s = .ok s') (hpos : 0 < s'.currBitsLeft) :
    0 < s.currBitsLeft ∧
      s'.bufferBackNumBits + s'.currBitsLeft + n = s.bufferBackNumBits + s.currBitsLeft := by
  obtain ⟨s1, h1, h⟩ := bind_eq_ok.1 h
  obtain ⟨hb1, hc1⟩ := topUp_left h1
  split_ifs at h
  · obtain ⟨s2, h2, h⟩ := bind_eq_ok.1 h
    obtain ⟨s3, h3, h⟩ := bind_eq_ok.1 h
    obtain ⟨hb2, hc2⟩ := reloadBack_left h2
    obtain ⟨hb3, hc3⟩ := topUp_left h3
    obtain ⟨hb, hc⟩ := dropBack_left h
    have := hc2 (by omega)
    omega
  · obtain ⟨hb, hc⟩ := dropBack_left h
    omega

/-! ## The queue holds the rest of the stream -/

/-- Shifting `n` valid bits out of `buffer` takes them off the front of the pending bits. -/
theorem pending_consume (hs : RegistersOk src s) {n : Nat} (hn : (n : Int) ≤ s.bufferNumBits) :
    topBits s.buffer n ++ DecodeState.pending src
        { s with buffer := s.buffer <<< n, bufferNumBits := s.bufferNumBits - n }
      = s.pending src := by
  have h64 := hs.buffer_range
  simp only [DecodeState.pending, DecodeState.unread]
  rw [← List.append_assoc, ← List.append_assoc,
    show (s.bufferNumBits - n).toNat = s.bufferNumBits.toNat - n by omega,
    topBits_shiftLeft _ (by omega), Nat.add_sub_cancel' (by omega)]

/-- Registers whose pending bits are `bits`, then zeros; while the stream has bits to load,
the valid bits of the registers and the bits to load are no more than `bits`. -/
structure Queued (src : List (BitVec 8)) (bits : List Bool) (s : DecodeState) : Prop where
  regs : RegistersOk src s
  pending_eq : ∃ pad, s.pending src = bits ++ List.replicate pad false
  left_le : 0 < s.currBitsLeft →
    s.bufferNumBits + s.bufferBackNumBits + s.currBitsLeft ≤ bits.length

/-- The registers at the head of a round: `Queued`, with at least `TABLE_LOOKUP_BITS` valid
bits in `buffer`. -/
structure StreamAt (src : List (BitVec 8)) (bits : List Bool) (s : DecodeState)
    extends Queued src bits s : Prop where
  num_ge : (TABLE_LOOKUP_BITS : Int) ≤ s.bufferNumBits

namespace Queued

variable {bits : List Bool}

/-- Registers are queued at their own pending bits: the bytes not loaded yet hold at least
the bits left. -/
theorem of_regs (hs : RegistersOk src s) : Queued src (s.pending src) s := by
  refine ⟨hs, ⟨0, (List.append_nil _).symm⟩, fun _ => ?_⟩
  have hb := hs.buffer_range
  have hbb := hs.back_range
  have hbytes := hs.bytes_present
  simp only [DecodeState.pending, DecodeState.unread, List.length_append, topBits_length,
    bytesToBits_length, List.length_take, List.length_drop]
  omega

theorem output (hq : Queued src bits s) (dst : Nat → BitVec 16) (dstIdx : Nat) :
    Queued src bits { s with dst, dstIdx } :=
  ⟨hq.regs.output dst dstIdx, hq.pending_eq, hq.left_le⟩

/-- The bits at the head of the queue are at the top of `buffer`, as far as it holds them. -/
theorem topBits_eq {code : List Bool} (hq : Queued src (code ++ bits) s)
    (hn : (code.length : Int) ≤ s.bufferNumBits) : topBits s.buffer code.length = code := by
  obtain ⟨pad, hpad⟩ := hq.pending_eq
  rw [← pending_consume hq.regs hn, List.append_assoc] at hpad
  exact (List.append_inj hpad (topBits_length _ _)).1

theorem top_eq {L v : Nat} (hq : Queued src (natToBits L v ++ bits) s) (hv : v < 2 ^ L)
    (hn : (L : Int) ≤ s.bufferNumBits) : s.buffer.toNat / 2 ^ (64 - L) = v := by
  have hL := hq.regs.buffer_range.2
  have h := hq.topBits_eq (by rwa [natToBits_length])
  rw [natToBits_length, topBits] at h
  exact natToBits_inj (top_lt _ (by omega)) hv h

/-- Shifting the code at the head of the queue out of `buffer` leaves the rest queued. -/
theorem consume {code : List Bool} (hq : Queued src (code ++ bits) s)
    (hn : (code.length : Int) ≤ s.bufferNumBits) :
    Queued src bits
      { s with buffer := s.buffer <<< code.length, bufferNumBits := s.bufferNumBits - code.length } := by
  obtain ⟨pad, hpad⟩ := hq.pending_eq
  rw [← pending_consume hq.regs hn, List.append_assoc] at hpad
  refine ⟨hq.regs.consume hn, ⟨pad, (List.append_inj hpad (topBits_length _ _)).2⟩,
    fun hpos => ?_⟩
  have := hq.left_le hpos
  rw [List.length_append] at this
  dsimp only at hpos ⊢
  omega

/-- A refill keeps the queue, fills `buffer` and writes nothing. -/
theorem refillBuffer (hq : Queued src bits s) (h : s.bufferNumBits < 64) :
    ∃ s', FastHuf.refillBuffer src s = .ok s' ∧ Queued src bits s' ∧ s'.bufferNumBits = 64 ∧
      s'.out = s.out := by
  obtain ⟨s₁, pad, hrun, hinv, hpend⟩ := refill_pending src s hq.regs h
  have hs' : FastHuf.refillBuffer src s = .ok { s₁ with bufferNumBits := 64 } := by
    rw [FastHuf.refillBuffer, hrun, ok_bind]
    rfl
  obtain ⟨pad₀, h₀⟩ := hq.pending_eq
  refine ⟨_, hs', ⟨hinv, ⟨pad₀ + pad, by rw [hpend, h₀, List.append_assoc, List.replicate_add]⟩,
    fun hpos => ?_⟩, rfl, refillBuffer_frame hs'⟩
  obtain ⟨hcur, hsum⟩ := refill_left hrun hpos
  have := hq.left_le hcur
  dsimp only at hpos ⊢
  omega

/-- A call site's refill when `buffer` has fewer than `k ≤ 64` valid bits. -/
theorem refillIf (hq : Queued src bits s) {k : Int} (hk : k ≤ 64) :
    ∃ s', (if s.bufferNumBits < k then FastHuf.refillBuffer src s else pure s) = .ok s' ∧
      Queued src bits s' ∧ k ≤ s'.bufferNumBits ∧ s'.out = s.out := by
  by_cases hlt : s.bufferNumBits < k
  · obtain ⟨s', hrun, hq', h64, hout⟩ := hq.refillBuffer (by omega)
    exact ⟨s', by rw [if_pos hlt, hrun], hq', by omega, hout⟩
  · exact ⟨s, if_neg hlt, hq, by omega, rfl⟩

end Queued

/-! ## The output follows the expansion -/

theorem getD_drop (xs : List Nat) (k j : Nat) : (xs.drop k).getD j 0 = xs.getD (k + j) 0 := by
  simp only [List.getD_eq_getElem?_getD, List.getElem?_drop]

/-- What `decode` has written, against the symbols `xs` of the whole stream: the entries below
`dstIdx` are the first symbols of `xs`, the last of them `prev`, and the symbols after them
are what the tokens `ts` still to read stand for after `prev`. No run comes before the first
symbol. -/
structure DecodesTo (xs : List Nat) (prev : Nat) (ts : List StreamToken)
    (out : (Nat → BitVec 16) × Nat) : Prop where
  drop_eq : xs.drop out.2 = expandFrom prev ts
  written : ∀ i < out.2, out.1 i = BitVec.ofNat 16 (xs.getD i 0)
  prev_eq : 0 < out.2 → xs.getD (out.2 - 1) 0 = prev
  run_first : out.2 = 0 → ∀ count rest, ts ≠ .run count :: rest

namespace DecodesTo

variable {xs : List Nat} {prev : Nat} {ts : List StreamToken} {dst : Nat → BitVec 16} {k : Nat}

/-- Writing a literal at `dstIdx`. -/
theorem literal {x : Nat} (h : DecodesTo xs prev (.literal x :: ts) (dst, k)) :
    DecodesTo xs x ts (Function.update dst k (BitVec.ofNat 16 x), k + 1) := by
  have hd : xs.drop k = x :: expandFrom x ts := h.drop_eq
  have hx : xs.getD k 0 = x := by rw [← Nat.add_zero k, ← getD_drop, hd]; rfl
  refine ⟨?_, fun i hi => ?_, fun _ => hx, fun h0 => absurd h0 (Nat.succ_ne_zero k)⟩
  · rw [← List.drop_drop, hd]
    rfl
  · dsimp only at hi ⊢
    rw [Function.update_apply]
    split_ifs with hik
    · rw [hik, hx]
    · exact h.written i (by omega)

/-- Copying the entry before `dstIdx` `count` times. -/
theorem run {c : Nat} (h : DecodesTo xs prev (.run c :: ts) (dst, k)) :
    DecodesTo xs prev ts (fun i => if k ≤ i ∧ i < k + c then dst (k - 1) else dst i, k + c) := by
  have hd : xs.drop k = List.replicate c prev ++ expandFrom prev ts := h.drop_eq
  have hk : 0 < k := Nat.pos_of_ne_zero fun h0 => h.run_first h0 c ts rfl
  have hrep : ∀ j < c, xs.getD (k + j) 0 = prev := fun j hj => by
    rw [← getD_drop, hd, List.getD_append _ _ _ _ (by rwa [List.length_replicate]),
      List.getD_eq_getElem?_getD, List.getElem?_replicate, if_pos hj]
    rfl
  have hprev : xs.getD (k - 1) 0 = prev := h.prev_eq hk
  have hw : ∀ i < k, dst i = BitVec.ofNat 16 (xs.getD i 0) := h.written
  refine ⟨?_, fun i hi => ?_, fun _ => ?_, fun h0 => absurd h0 (by omega)⟩
  · rw [← List.drop_drop, hd, List.drop_left' (List.length_replicate _ _)]
  · dsimp only at hi ⊢
    split_ifs with hik
    · rw [hw (k - 1) (by omega), hprev, ← hrep (i - k) (by omega), Nat.add_sub_cancel' hik.1]
    · exact hw i (by omega)
  · by_cases hc : c = 0
    · subst hc
      exact hprev
    · dsimp only
      rw [show k + c - 1 = k + (c - 1) by omega, hrep _ (by omega)]

end DecodesTo

/-- A valid token stands for at least one symbol. -/
theorem length_le_expandFrom {minSymbol : Nat} {lens : List Nat} {rleSymbol : Nat} :
    ∀ {ts : List StreamToken} (prev : Nat), (∀ t ∈ ts, t.Valid minSymbol lens rleSymbol) →
      ts.length ≤ (expandFrom prev ts).length
  | [], _, _ => le_rfl
  | .literal x :: ts, _, h => by
    have := length_le_expandFrom x fun t ht => h t (List.mem_cons_of_mem _ ht)
    simp only [expandFrom, List.length_cons]
    omega
  | .run c :: ts, prev, h => by
    have := length_le_expandFrom prev fun t ht => h t (List.mem_cons_of_mem _ ht)
    have hc : 1 ≤ c := (h _ (List.mem_cons_self _ _)).1
    simp only [expandFrom, List.length_cons, List.length_append, List.length_replicate]
    omega

/-! ## The first fill -/

/-- `decode`'s first fill from the payload of a stream: the registers are at the head of the
stream, and nothing is written. -/
theorem initialState_stream (bits : List Bool) (dst : Nat → BitVec 16) :
    ∃ s, initialState (streamPayload bits) (max 128 bits.length : Nat) dst = .ok s ∧
      StreamAt (streamPayload bits) bits s ∧ s.out = (dst, 0) := by
  set src := streamPayload bits
  set M := max 128 bits.length
  have hM : 128 ≤ M ∧ bits.length ≤ M ∧ (M = 128 ∨ M = bits.length) :=
    ⟨le_max_left _ _, le_max_right _ _, max_choice _ _⟩
  have hlen : src.length = (M + 7) / 8 := by
    simp only [src, streamPayload, packBits_length, List.length_append, List.length_replicate]
    congr 1
    omega
  obtain ⟨w0, h0, hw0⟩ := read64_topBits (show 0 + 8 ≤ src.length by omega)
  obtain ⟨w1, h1, hw1⟩ := read64_topBits (show 8 + 8 ≤ src.length by omega)
  set r := (((M : Int) - 128).toNat + 7) / 8
  have hsplit : src.take 8 ++ ((src.drop 8).take 8 ++ (src.drop (8 + 8)).take r) = src := by
    rw [← List.drop_drop, ← List.take_add, ← List.take_add]
    exact List.take_of_length_le (by omega)
  refine ⟨{ buffer := w0, bufferNumBits := 64, bufferBack := w1, bufferBackNumBits := 64
            currByte := 16, currBitsLeft := M - 128, dstIdx := 0, dst },
    by rw [initialState, h0, ok_bind, h1, ok_bind]; rfl,
    ⟨⟨⟨by simp, lowZero_full _, by simp, lowZero_full _, by dsimp only; omega,
      by dsimp only; omega⟩, ?_, fun hpos => by dsimp only at hpos ⊢; omega⟩,
      show (TABLE_LOOKUP_BITS : Int) ≤ 64 by decide⟩, rfl⟩
  refine ⟨128 - bits.length + (8 * ((M + 7) / 8) - M), ?_⟩
  simp only [DecodeState.pending, DecodeState.unread, show (64 : Int).toNat = 64 from rfl, hw0,
    hw1, List.drop_zero, ← bytesToBits_append, List.append_assoc, hsplit]
  show bytesToBits (packBits _) = _
  rw [bytesToBits_packBits, List.length_append, List.length_replicate, List.append_assoc,
    ← List.replicate_add]
  congr 3
  omega

/-! ## One round per token -/

/-- The copy loop of a run of `rleCount` writes the entry before `dstIdx` at the `rleCount`
entries from `dstIdx` on, and nothing else. -/
theorem copyRun_eq (dst : Nat → BitVec 16) {numDstElems dstIdx : Nat} (h1 : 1 ≤ dstIdx) :
    ∀ {rleCount : Nat}, dstIdx + rleCount ≤ numDstElems →
      copyRun dst numDstElems dstIdx rleCount
        = .ok fun i => if dstIdx ≤ i ∧ i < dstIdx + rleCount then dst (dstIdx - 1) else dst i
  | 0, _ => by
    rw [copyRun, intCounter_eq, List.range_zero, List.map_nil, List.foldlM_nil]
    congr
    funext i
    rw [if_neg (by omega)]
  | c + 1, hc => by
    have ih := copyRun_eq dst h1 (show dstIdx + c ≤ numDstElems by omega)
    rw [copyRun, intCounter_eq] at ih ⊢
    rw [List.range_succ, List.map_append, List.foldlM_append, ih, ok_bind, List.map_singleton,
      List.foldlM_cons, @index_ok _ _ numDstElems ((dstIdx : Int) - 1) (by omega) (by omega),
      ok_bind, @write_ok _ _ numDstElems ((dstIdx : Int) + c) _ (by omega) (by omega), ok_bind,
      List.foldlM_nil, show ((dstIdx : Int) - 1).toNat = dstIdx - 1 by omega,
      show ((dstIdx : Int) + c).toNat = dstIdx + c by omega, if_neg (by omega)]
    congr
    funext i
    rw [Function.update_apply]
    split_ifs <;> first | omega | rfl

section rounds

variable {d : FastHufDecoder} {minSymbol : Nat} {lens : List Nat}
  (ct : CanonicalTables d minSymbol lens) (hshort : minLength lens ≤ TABLE_LOOKUP_BITS)
  {bits : List Bool}
include ct hshort

/-- The symbol step on registers whose queue starts with the canonical code of the symbol at
position `p` reads that symbol, by the path it takes, and leaves the code queued with all of
its bits in `buffer`. -/
theorem lookupSymbol_stream {p : Nat} (hp : lens.getD p 0 ≠ 0)
    (hs : StreamAt src (natToBits (lens.getD p 0) (codeValue lens p) ++ bits) s) :
    ∃ s₁, lookupSymbol d src s = .ok (lens.getD p 0, minSymbol + p, s₁) ∧
      Queued src (natToBits (lens.getD p 0) (codeValue lens p) ++ bits) s₁ ∧
      (lens.getD p 0 : Int) ≤ s₁.bufferNumBits ∧ s₁.out = s.out := by
  have hv := codeValue_lt ct hp
  have h51 := ct.le_51 (mem_lengths_of_mem (getD_mem hp) hp)
  have h12 : TABLE_LOOKUP_BITS = 12 := rfl
  have hnum := hs.num_ge
  by_cases hL12 : lens.getD p 0 ≤ TABLE_LOOKUP_BITS
  · exact ⟨s, lookupSymbol_table_code ct hp hL12 src (hs.top_eq hv (by omega)), hs.toQueued,
      by omega, rfl⟩
  · -- the table is not used: its top `TABLE_LOOKUP_BITS` bits are below `_tableMin`
    have hsplit : natToBits (lens.getD p 0) (codeValue lens p) ++ bits
        = natToBits TABLE_LOOKUP_BITS (codeValue lens p / 2 ^ (lens.getD p 0 - TABLE_LOOKUP_BITS))
          ++ (natToBits (lens.getD p 0 - TABLE_LOOKUP_BITS) (codeValue lens p) ++ bits) := by
      rw [← List.append_assoc, ← natToBits_add, Nat.add_sub_cancel' (by omega)]
    have htop := (hsplit ▸ hs.toQueued).top_eq
      (Nat.div_lt_of_lt_mul (by rw [← Nat.pow_add, Nat.sub_add_cancel (by omega)]; exact hv))
      (by omega)
    have hnot := not_tableMin_le_of_code ct hp hshort (by omega) htop
    obtain ⟨s₁, hrun, hq₁, h64, hout⟩ := hs.toQueued.refillIf (le_refl (64 : Int))
    exact ⟨s₁, lookupSymbol_search_code ct hp hshort (by omega) hnot hrun
      (hq₁.top_eq hv (by omega)), hq₁, by omega, hout⟩

variable {rleSymbol : Nat} (hrle : d.rleSymbol = rleSymbol) {ts : List StreamToken}
  {extra : List Bool} {numDstElems : Nat}
include hrle

/-- A round on a literal token: it reads the literal's code, writes the literal at `dstIdx`
and leaves the registers at the head of the next token. -/
theorem step_literal {x : Nat} (hx : (StreamToken.literal x).Valid minSymbol lens rleSymbol)
    (hs : StreamAt src (encodeTokens minSymbol lens rleSymbol (.literal x :: ts) ++ extra) s)
    (hidx : s.dstIdx < numDstElems) :
    ∃ s', step d src numDstElems s = .ok s' ∧
      StreamAt src (encodeTokens minSymbol lens rleSymbol ts ++ extra) s' ∧
      s'.out = (Function.update s.dst s.dstIdx (BitVec.ofNat 16 x), s.dstIdx + 1) := by
  obtain ⟨hmin, -, hp, hne⟩ := hx
  obtain ⟨p, rfl⟩ : ∃ p, x = minSymbol + p := ⟨x - minSymbol, by omega⟩
  rw [Nat.add_sub_cancel_left] at hp
  rw [encodeTokens_cons, StreamToken.bits, canonicalCode_eq, List.append_assoc] at hs
  obtain ⟨s₁, hlook, hq₁, hL₁, hout₁⟩ := lookupSymbol_stream ct hshort hp hs
  have hq₂ := hq₁.consume (by rwa [natToBits_length])
  rw [natToBits_length] at hq₂
  obtain ⟨hdst, hidx₁⟩ := Prod.mk.inj hout₁
  obtain ⟨s', hrun, hq', h12, hout'⟩ := (hq₂.output
    (Function.update s₁.dst s₁.dstIdx (BitVec.ofNat 16 (minSymbol + p))) (s₁.dstIdx + 1)).refillIf
    (show (TABLE_LOOKUP_BITS : Int) ≤ 64 by decide)
  have h51 := ct.le_51 (mem_lengths_of_mem (getD_mem hp) hp)
  refine ⟨s', ?_, ⟨hq', h12⟩, ?_⟩
  · rw [step, hlook, ok_bind]
    dsimp only
    rw [shl_ok _ (by omega) (by omega), ok_bind, if_neg (by rw [hrle]; exact_mod_cast hne),
      write_ok _ _ (by omega) (by omega), ok_bind, pure_bind, Int.toNat_ofNat, Int.toNat_ofNat]
    exact hrun
  · rw [hout', ← hdst, ← hidx₁]
    rfl

/-- A round on a run token: it reads the run symbol's code, then the count, copies the entry
before `dstIdx` `count` times and leaves the registers at the head of the next token. -/
theorem step_run (hcode : minSymbol ≤ rleSymbol ∧ lens.getD (rleSymbol - minSymbol) 0 ≠ 0)
    {c : Nat} (hc : (StreamToken.run c).Valid minSymbol lens rleSymbol)
    (hs : StreamAt src (encodeTokens minSymbol lens rleSymbol (.run c :: ts) ++ extra) s)
    (h1 : 1 ≤ s.dstIdx) (hidx : s.dstIdx + c ≤ numDstElems) :
    ∃ s', step d src numDstElems s = .ok s' ∧
      StreamAt src (encodeTokens minSymbol lens rleSymbol ts ++ extra) s' ∧
      s'.out = (fun i => if s.dstIdx ≤ i ∧ i < s.dstIdx + c then s.dst (s.dstIdx - 1) else s.dst i,
        s.dstIdx + c) := by
  obtain ⟨hmin, hp⟩ := hcode
  obtain ⟨hc1, hc255⟩ := hc
  obtain ⟨p, rfl⟩ : ∃ p, rleSymbol = minSymbol + p := ⟨rleSymbol - minSymbol, by omega⟩
  rw [Nat.add_sub_cancel_left] at hp
  simp only [encodeTokens_cons, StreamToken.bits, canonicalCode_eq, List.append_assoc] at hs
  obtain ⟨s₁, hlook, hq₁, hL₁, hout₁⟩ := lookupSymbol_stream ct hshort hp hs
  have hq₂ := hq₁.consume (by rwa [natToBits_length])
  rw [natToBits_length] at hq₂
  obtain ⟨hdst, hidx₁⟩ := Prod.mk.inj hout₁
  -- the count: the next 8 bits, in `buffer` after the refill for them
  obtain ⟨s₃, hrun₃, hq₃, h8, hout₃⟩ := hq₂.refillIf (show (8 : Int) ≤ 64 by decide)
  obtain ⟨hdst₃, hidx₃⟩ := Prod.mk.inj hout₃
  have hcount : (s₃.buffer >>> 56).toNat = c := by
    rw [BitVec.toNat_ushiftRight, Nat.shiftRight_eq_div_pow]
    exact hq₃.top_eq (by omega) h8
  have hq₄ := hq₃.consume (by rwa [natToBits_length])
  rw [natToBits_length] at hq₄
  obtain ⟨s', hrun, hq', h12, hout'⟩ := (hq₄.output
    (fun i => if s₃.dstIdx ≤ i ∧ i < s₃.dstIdx + c then s₃.dst (s₃.dstIdx - 1) else s₃.dst i)
    (s₃.dstIdx + c)).refillIf (show (TABLE_LOOKUP_BITS : Int) ≤ 64 by decide)
  have h51 := ct.le_51 (mem_lengths_of_mem (getD_mem hp) hp)
  have hd : s₃.dst = s.dst := hdst₃.trans hdst
  have hi : s₃.dstIdx = s.dstIdx := hidx₃.trans hidx₁
  refine ⟨s', ?_, ⟨hq', h12⟩, ?_⟩
  · rw [step, hlook, ok_bind]
    dsimp only
    rw [shl_ok _ (by omega) (by omega), ok_bind, if_pos (by rw [hrle]), Int.toNat_ofNat,
      repeatPrevious]
    dsimp only
    rw [ite_bind_of_eq_ok hrun₃, hcount, if_neg (show ¬ s₃.dstIdx < 1 by omega),
      if_neg (show ¬ s₃.dstIdx + c > numDstElems by omega), if_neg (show ¬ c ≤ 0 by omega),
      copyRun_eq _ (by omega) (by omega), ok_bind, shl_ok _ (by decide) (by decide), ok_bind,
      pure_bind]
    exact hrun
  · rw [hout']
    simp only [DecodeState.out, hd, hi]

/-- A run of the loop over the tokens still to read: from registers at the head of the
stream's rest and an output that follows the expansion, the loop returns with every symbol of
the expansion written and the registers at the end of the stream. -/
theorem decodeLoop_stream {xs : List Nat}
    (hcode : (∃ c, StreamToken.run c ∈ ts) →
      minSymbol ≤ rleSymbol ∧ lens.getD (rleSymbol - minSymbol) 0 ≠ 0) :
    ∀ (fuel prev : Nat) (s : DecodeState), (∀ t ∈ ts, t.Valid minSymbol lens rleSymbol) →
      ts.length ≤ fuel → StreamAt src (encodeTokens minSymbol lens rleSymbol ts ++ extra) s →
      DecodesTo xs prev ts s.out →
      ∃ s', decodeLoop d src xs.length fuel s = .ok s' ∧ StreamAt src extra s' ∧
        ∀ i < xs.length, s'.dst i = BitVec.ofNat 16 (xs.getD i 0) := by
  induction ts with
  | nil =>
    intro fuel prev s _ _ hs hout
    have hend : xs.length ≤ s.dstIdx := List.drop_eq_nil_iff.1 hout.drop_eq
    refine ⟨s, ?_, hs, fun i hi => hout.written i (show i < s.dstIdx by omega)⟩
    unfold decodeLoop
    rw [if_neg (by omega)]
    rfl
  | cons t ts ih =>
    intro fuel prev s hts hfuel hs hout
    obtain ⟨fuel, rfl⟩ : ∃ f, fuel = f + 1 := ⟨fuel - 1, by simp at hfuel; omega⟩
    have hts' : ∀ u ∈ ts, u.Valid minSymbol lens rleSymbol :=
      fun u hu => hts u (List.mem_cons_of_mem _ hu)
    have hcode' : (∃ c, StreamToken.run c ∈ ts) →
        minSymbol ≤ rleSymbol ∧ lens.getD (rleSymbol - minSymbol) 0 ≠ 0 :=
      fun ⟨c, hc⟩ => hcode ⟨c, List.mem_cons_of_mem _ hc⟩
    have hdrop : xs.drop s.dstIdx = expandFrom prev (t :: ts) := hout.drop_eq
    have hle := length_le_expandFrom prev hts
    rw [← hdrop, List.length_drop, List.length_cons] at hle
    have hlen : s.dstIdx + (expandFrom prev (t :: ts)).length = xs.length := by
      rw [← hdrop, List.length_drop]
      omega
    have hlt : s.dstIdx < xs.length := by omega
    rw [decodeLoop, if_pos hlt]
    cases t with
    | literal x =>
      obtain ⟨s₁, hstep, hs₁, hout₁⟩ :=
        step_literal ct hshort hrle (hts _ (List.mem_cons_self _ _)) hs hlt
      rw [hstep, ok_bind]
      exact ih hcode' fuel x s₁ hts' (by simp at hfuel; omega) hs₁ (hout₁ ▸ hout.literal)
    | run c =>
      have h1 : 1 ≤ s.dstIdx := Nat.pos_of_ne_zero fun h0 => hout.run_first h0 c ts rfl
      have hidx : s.dstIdx + c ≤ xs.length := by
        simp only [expandFrom, List.length_append, List.length_replicate] at hlen
        omega
      obtain ⟨s₁, hstep, hs₁, hout₁⟩ := step_run ct hshort hrle
        (hcode ⟨c, List.mem_cons_self _ _⟩) (hts _ (List.mem_cons_self _ _)) hs h1 hidx
      rw [hstep, ok_bind]
      exact ih hcode' fuel prev s₁ hts' (by simp at hfuel; omega) hs₁ (hout₁ ▸ hout.run)

end rounds

/-! ## The round trip -/

/-- `decode`'s first fill and its loop on the payload of a stream followed by any bits
`extra`: the loop returns with every symbol of the expansion written and the registers at the
head of `extra`. -/
theorem decodeLoop_encodeTokens {d : FastHufDecoder} {minSymbol : Nat} {lens : List Nat}
    (ct : CanonicalTables d minSymbol lens) (hshort : minLength lens ≤ TABLE_LOOKUP_BITS)
    {rleSymbol : Nat} (hrle : d.rleSymbol = rleSymbol) {ts : List StreamToken}
    (hts : StreamValid minSymbol lens rleSymbol ts)
    (hcode : (∃ c, StreamToken.run c ∈ ts) →
      minSymbol ≤ rleSymbol ∧ lens.getD (rleSymbol - minSymbol) 0 ≠ 0)
    (extra : List Bool) (dst : Nat → BitVec 16) :
    ∃ s₀ s, initialState (streamPayload (encodeTokens minSymbol lens rleSymbol ts ++ extra))
        (max 128 (encodeTokens minSymbol lens rleSymbol ts ++ extra).length : Nat) dst = .ok s₀ ∧
      decodeLoop d (streamPayload (encodeTokens minSymbol lens rleSymbol ts ++ extra))
        (expandTokens ts).length (expandTokens ts).length s₀ = .ok s ∧
      StreamAt (streamPayload (encodeTokens minSymbol lens rleSymbol ts ++ extra)) extra s ∧
      ∀ i < (expandTokens ts).length, s.dst i = BitVec.ofNat 16 ((expandTokens ts).getD i 0) := by
  obtain ⟨s₀, h₀, hs₀, hout₀⟩ := initialState_stream
    (encodeTokens minSymbol lens rleSymbol ts ++ extra) dst
  have hvalid : ∀ t ∈ ts, t.Valid minSymbol lens rleSymbol := by
    cases ts with
    | nil => exact fun t ht => absurd ht (List.not_mem_nil t)
    | cons t ts => exact hts.2
  have hdec : DecodesTo (expandTokens ts) 0 ts s₀.out := by
    rw [hout₀]
    refine ⟨rfl, fun i hi => absurd hi (Nat.not_lt_zero _), fun h => absurd h (lt_irrefl 0),
      fun _ c rest hts' => ?_⟩
    subst hts'
    exact absurd hts.1 Bool.false_ne_true
  obtain ⟨s, hloop, hs, hw⟩ := decodeLoop_stream ct hshort hrle hcode _ 0 s₀ hvalid
    (length_le_expandFrom 0 hvalid) hs₀ hdec
  exact ⟨s₀, s, h₀, hloop, hs, hw⟩

/-- With at most `TABLE_LOOKUP_BITS` bits left in the stream, all of them are in the
registers: `buffer` alone holds that many. -/
theorem StreamAt.currBitsLeft_eq {extra : List Bool} (hs : StreamAt src extra s)
    (h : extra.length ≤ TABLE_LOOKUP_BITS) : s.currBitsLeft = 0 := by
  have h0 := hs.regs.bits_left
  have h1 := hs.num_ge
  have h2 := hs.regs.back_range.1
  by_contra hne
  have := hs.left_le (by omega)
  omega

/-- On the canonical tables, the payload of a stream's bits, zero-padded to 128, decodes to
the symbols the stream stands for. -/
theorem decode_streamPayload {d : FastHufDecoder} {minSymbol : Nat} {lens : List Nat}
    (ct : CanonicalTables d minSymbol lens) (hshort : minLength lens ≤ TABLE_LOOKUP_BITS)
    {rleSymbol : Nat} (hrle : d.rleSymbol = rleSymbol) {ts : List StreamToken}
    (hts : StreamValid minSymbol lens rleSymbol ts)
    (hcode : (∃ c, StreamToken.run c ∈ ts) →
      minSymbol ≤ rleSymbol ∧ lens.getD (rleSymbol - minSymbol) 0 ≠ 0)
    (dst : Nat → BitVec 16) :
    ∃ dst', d.decode (streamPayload (encodeTokens minSymbol lens rleSymbol ts))
        (max 128 (encodeTokens minSymbol lens rleSymbol ts).length : Nat) dst
        (expandTokens ts).length = .ok dst' ∧
      ∀ i < (expandTokens ts).length, dst' i = BitVec.ofNat 16 ((expandTokens ts).getD i 0) := by
  obtain ⟨s₀, s, h₀, hloop, hs, hw⟩ := decodeLoop_encodeTokens ct hshort hrle hts hcode [] dst
  rw [List.append_nil] at h₀ hloop hs
  exact ⟨s.dst, decode_eq_ok_iff.2 ⟨by omega, s₀, s, h₀, hloop,
    hs.currBitsLeft_eq (Nat.zero_le _), rfl⟩, hw⟩

/-- `decode` reads back the canonical encoding of every stream: for a code-book the
constructor accepts, with a code of at most `TABLE_LOOKUP_BITS` bits and none longer than 51,
the payload of a stream's bits (zero-padded to the 128 bits `decode` needs) decodes, with
the trailing check passed, to the symbols the stream stands for. A stream with a run needs a
code for the run symbol. -/
theorem decode_encodeTokens (cb : List LengthToken) (hcb : ∀ t ∈ cb, t.Valid)
    {minSymbol maxSymbol : Nat} (hcover : minSymbol + (codeLengths cb).length = maxSymbol + 1)
    (rest : List (BitVec 8)) {numBytes : Nat} (hnum : (packBits (encode cb)).length < numBytes)
    (hkraft : Kraft (codeLengths cb)) (hlong : maxLength (codeLengths cb) ≤ 51)
    (hshort : minLength (codeLengths cb) ≤ TABLE_LOOKUP_BITS)
    {rleSymbol : Nat} {d : FastHufDecoder} {consumed : Nat}
    (hd : FastHufDecoder.new (packBits (encode cb) ++ rest) numBytes minSymbol maxSymbol rleSymbol
      = .ok (d, consumed))
    (ts : List StreamToken) (hts : StreamValid minSymbol (codeLengths cb) rleSymbol ts)
    (hcode : (∃ c, StreamToken.run c ∈ ts) →
      minSymbol ≤ rleSymbol ∧ (codeLengths cb).getD (rleSymbol - minSymbol) 0 ≠ 0)
    (dst : Nat → BitVec 16) :
    ∃ dst', d.decode (streamPayload (encodeTokens minSymbol (codeLengths cb) rleSymbol ts))
        (max 128 (encodeTokens minSymbol (codeLengths cb) rleSymbol ts).length : Nat) dst
        (expandTokens ts).length = .ok dst' ∧
      ∀ i < (expandTokens ts).length, dst' i = BitVec.ofNat 16 ((expandTokens ts).getD i 0) := by
  obtain ⟨ct, hrle⟩ := new_canonical cb hcb hcover rest hnum hkraft hlong hd
  exact decode_streamPayload ct hshort hrle hts hcode dst

/-- The stream `0`, then a run of three, over the code-book `1, 1` with run symbol `1`. -/
def pairStream : List StreamToken := [.literal 0, .run 3]

/-- The code-book `1, 1` is complete, so the constructor accepts it; the stream's ten bits
`0 1 00000011`, zero-padded to 128, decode to four zeros. -/
theorem decode_encodeTokens_pairCodebook :
    ∃ d consumed, FastHufDecoder.new (packBits (encode pairCodebook) ++ []) 3 0 1 (1 : Nat)
        = .ok (d, consumed) ∧
      ∃ dst', d.decode (streamPayload (encodeTokens 0 (codeLengths pairCodebook) 1 pairStream))
          (max 128 (encodeTokens 0 (codeLengths pairCodebook) 1 pairStream).length : Nat)
          (fun _ => 0) (expandTokens pairStream).length = .ok dst' ∧
        ∀ i < (expandTokens pairStream).length,
          dst' i = BitVec.ofNat 16 ((expandTokens pairStream).getD i 0) := by
  obtain ⟨d, consumed, hd⟩ := @new_complete pairCodebook (by decide) 0 1 (by decide) [] 3
    (by decide) (by decide) (by decide) (1 : Nat)
  exact ⟨d, consumed, hd, decode_encodeTokens pairCodebook (by decide) (by decide) [] (by decide)
    (by decide) (by decide) (by decide) hd pairStream (by decide)
    (fun _ => ⟨by decide, by decide⟩) _⟩

/-- `decode` is safe on the payload of the stream `0`, then a run of three, over the code-book
`1, 1`: the first fill, every round of the loop and the whole call stay in bounds. -/
theorem decode_safe_pairStream :
    ∃ d consumed, FastHufDecoder.new (packBits (encode pairCodebook) ++ []) 3 0 1 (1 : Nat)
        = .ok (d, consumed) ∧ (128 : Int) ≤ 128 ∧
      (streamPayload (encodeTokens 0 (codeLengths pairCodebook) 1 pairStream)).length
        = ((128 : Int).toNat + 7) / 8 ∧
      (Safe (initialState (streamPayload (encodeTokens 0 (codeLengths pairCodebook) 1 pairStream))
          128 fun _ => 0)
          (LoopInv (streamPayload (encodeTokens 0 (codeLengths pairCodebook) 1 pairStream)) 4) ∧
        (∀ s, LoopInv (streamPayload (encodeTokens 0 (codeLengths pairCodebook) 1 pairStream)) 4 s →
          s.dstIdx < 4 →
          Safe (step d (streamPayload (encodeTokens 0 (codeLengths pairCodebook) 1 pairStream)) 4 s)
            fun s' => LoopInv
              (streamPayload (encodeTokens 0 (codeLengths pairCodebook) 1 pairStream)) 4 s' ∧
              s.dstIdx < s'.dstIdx) ∧
        NoFault (d.decode (streamPayload (encodeTokens 0 (codeLengths pairCodebook) 1 pairStream))
          128 (fun _ => 0) 4)) := by
  obtain ⟨d, consumed, hd⟩ := @new_complete pairCodebook (by decide) 0 1 (by decide) [] 3
    (by decide) (by decide) (by decide) (1 : Nat)
  have hbits : (encodeTokens 0 (codeLengths pairCodebook) 1 pairStream).length ≤ 128 := by decide
  have hlen : (streamPayload (encodeTokens 0 (codeLengths pairCodebook) 1 pairStream)).length
      = ((128 : Int).toNat + 7) / 8 := by
    simp only [streamPayload, packBits_length, List.length_append, List.length_replicate]
    omega
  exact ⟨d, consumed, hd, le_rfl, hlen, decode_safe hd _ 128 le_rfl hlen (fun _ => 0) 4⟩

end ExrCodecs.FastHuf
