import ExrCodecs.FastHuf.RoundTrip

/-!
# What `decode` returns is a stream written with the canonical code

`decode_encodeTokens` runs `FastHufDecoder::decode` forward over a stream it is given. This file
goes the other way: from a run of `decode` that returned, it reads back the tokens the loop
took off the bit queue, for a complete code-book (`weightAbove lens 0 = 2^MAX_CODE_LEN`, so
that every word starts with a code) with a code of at most `TABLE_LOOKUP_BITS` bits.

A round of the loop takes the canonical code of a symbol off the head of the queue, by either
path of the lookup (`lookupSymbol_sound`), and then writes that symbol, or, for the run symbol,
takes the 8 bits of a count and copies the symbol before them (`repeatPrevious_sound`,
`step_sound`). The refills in
between take nothing off the queue; they add zeros after the stream's last byte
(`refillIf_reads`). `DecodeState.Reads s bits s'` says what a round took off the queue, and
`Holds out ys` that the output holds the symbols `ys`. Over the whole loop
(`decodeLoop_sound`):

> `expandTokens_of_decode`: the output `decode` returns is the expansion of a valid stream of
> tokens whose bits, codes and counts, start the first `⌈numSrcBits / 8⌉` bytes of the payload
> followed by zeros, and leave at most 128 of the payload's bits unread.
-/

namespace ExrCodecs.FastHuf

variable {src : List (BitVec 8)} {s s' : DecodeState}

/-! ## The queue across a round -/

/-- The registers went from `s` to `s'` by taking `bits` off the head of the queue: the
pending bits of `s`, with the zeros that refills past the stream's end add, are `bits` and
then the pending bits of `s'`. -/
def DecodeState.Reads (src : List (BitVec 8)) (s : DecodeState) (bits : List Bool)
    (s' : DecodeState) : Prop :=
  ∃ pad, s.pending src ++ List.replicate pad false = bits ++ s'.pending src

namespace DecodeState.Reads

theorem refl : s.Reads src [] s := ⟨0, List.append_nil _⟩

theorem trans {s₁ : DecodeState} {bits bits₁ : List Bool} (h : s.Reads src bits s₁)
    (h₁ : s₁.Reads src bits₁ s') : s.Reads src (bits ++ bits₁) s' := by
  obtain ⟨pad, hpad⟩ := h
  obtain ⟨pad₁, hpad₁⟩ := h₁
  refine ⟨pad + pad₁, ?_⟩
  calc s.pending src ++ List.replicate (pad + pad₁) false
      = (s.pending src ++ List.replicate pad false) ++ List.replicate pad₁ false := by
        rw [List.replicate_add, List.append_assoc]
    _ = bits ++ (s₁.pending src ++ List.replicate pad₁ false) := by rw [hpad, List.append_assoc]
    _ = bits ++ bits₁ ++ s'.pending src := by rw [hpad₁, List.append_assoc]

/-- The output is not part of the queue. -/
theorem output {bits : List Bool} (h : s.Reads src bits s') (dst : Nat → BitVec 16)
    (dstIdx : Nat) : s.Reads src bits { s' with dst, dstIdx } := h

/-- A round that took nothing off the queue left the valid bits of `buffer` where they were. -/
theorem topBits_eq (h : s.Reads src [] s') (hs : RegistersOk src s) (hs' : RegistersOk src s')
    {k : Nat} (hk : (k : Int) ≤ s.bufferNumBits) (hk' : (k : Int) ≤ s'.bufferNumBits) :
    topBits s'.buffer k = topBits s.buffer k := by
  obtain ⟨pad, hpad⟩ := h
  rw [List.nil_append, ← pending_consume hs hk, ← pending_consume hs' hk',
    List.append_assoc] at hpad
  exact (List.append_inj hpad (by rw [topBits_length, topBits_length])).1.symm

end DecodeState.Reads

/-- Shifting `n` valid bits out of `buffer` takes them off the queue. -/
theorem consume_reads (hs : RegistersOk src s) {n : Nat} (hn : (n : Int) ≤ s.bufferNumBits) :
    s.Reads src (topBits s.buffer n)
      { s with buffer := s.buffer <<< n, bufferNumBits := s.bufferNumBits - n } :=
  ⟨0, by rw [List.replicate_zero, List.append_nil, pending_consume hs hn]⟩

/-- A refill of the loop takes nothing off the queue: it adds zeros after the stream's last
byte, and leaves `k` valid bits in `buffer`. -/
theorem refillIf_reads (hs : RegistersOk src s) {k : Int} (hk : k ≤ 64)
    (h : (if s.bufferNumBits < k then refillBuffer src s else pure s) = .ok s') :
    s.Reads src [] s' ∧ RegistersOk src s' ∧ k ≤ s'.bufferNumBits ∧ s'.out = s.out := by
  obtain ⟨s₁, hrun, hq, hk', hout⟩ := (Queued.of_regs hs).refillIf hk
  rw [hrun] at h
  cases h
  obtain ⟨pad, hpad⟩ := hq.pending_eq
  exact ⟨⟨pad, hpad.symm⟩, hq.regs, hk', hout⟩

/-! ## The output across a round -/

/-- The output `(dst, dstIdx)` holds the symbols `ys`: `dstIdx` counts them, and they are the
entries below it, in order. -/
structure Holds (out : (Nat → BitVec 16) × Nat) (ys : List Nat) : Prop where
  idx_eq : out.2 = ys.length
  written : ∀ i < ys.length, out.1 i = BitVec.ofNat 16 (ys.getD i 0)

namespace Holds

variable {out : (Nat → BitVec 16) × Nat} {ys : List Nat}

/-- Writing a literal at `dstIdx`. -/
theorem literal (h : Holds out ys) (x : Nat) :
    Holds (Function.update out.1 out.2 (BitVec.ofNat 16 x), out.2 + 1) (ys ++ [x]) := by
  have hk := h.idx_eq
  refine ⟨by rw [List.length_append, List.length_singleton, hk], fun i hi => ?_⟩
  rw [List.length_append, List.length_singleton] at hi
  dsimp only
  rw [Function.update_apply]
  split_ifs with hio
  · rw [hio, hk, List.getD_append_right _ _ _ _ le_rfl, Nat.sub_self]
    rfl
  · rw [List.getD_append _ _ _ _ (by omega)]
    exact h.written i (by omega)

/-- Copying the entry before `dstIdx` `c` times repeats the last symbol. -/
theorem run (h : Holds out ys) (h1 : 1 ≤ out.2) (c : Nat) :
    Holds (fun i => if out.2 ≤ i ∧ i < out.2 + c then out.1 (out.2 - 1) else out.1 i, out.2 + c)
      (ys ++ List.replicate c (ys.getLastD 0)) := by
  have hk := h.idx_eq
  have hlast : out.1 (out.2 - 1) = BitVec.ofNat 16 (ys.getLastD 0) := by
    rw [h.written _ (by omega), List.getLastD_eq_getLast?, List.getLast?_eq_getElem?, hk,
      List.getD_eq_getElem?_getD]
  refine ⟨by rw [List.length_append, List.length_replicate, hk], fun i hi => ?_⟩
  rw [List.length_append, List.length_replicate] at hi
  dsimp only
  split_ifs with hin
  · rw [hlast, List.getD_append_right _ _ _ _ (by omega), List.getD_eq_getElem?_getD,
      List.getElem?_replicate, if_pos (by omega)]
    rfl
  · rw [List.getD_append _ _ _ _ (by omega)]
    exact h.written i (by omega)

end Holds

/-- The symbols of a token after the symbols `ys`, then those of the tokens after it: a run
repeats the last symbol of `ys`, which stays the last. -/
theorem append_expandFrom_cons (ys : List Nat) (t : StreamToken) (ts : List StreamToken) :
    ys ++ expandFrom (ys.getLastD 0) (t :: ts) = ys ++ expandFrom (ys.getLastD 0) [t] ++
      expandFrom ((ys ++ expandFrom (ys.getLastD 0) [t]).getLastD 0) ts := by
  cases t with
  | literal x =>
    simp only [expandFrom, List.getLastD_concat, List.append_assoc, List.singleton_append]
  | run c =>
    have hlast : (ys ++ List.replicate c (ys.getLastD 0)).getLastD 0 = ys.getLastD 0 := by
      cases c with
      | zero => rw [List.replicate_zero, List.append_nil]
      | succ c => rw [List.replicate_succ', ← List.append_assoc, List.getLastD_concat]
    simp only [expandFrom, List.append_nil, hlast, List.append_assoc]

/-! ## A round of the loop, read back -/

/-- A run, after the run symbol's code: the count in the next 8 bits, then that many copies of
the symbol before. -/
theorem repeatPrevious_sound (hs : RegistersOk src s) {ys : List Nat} (hys : Holds s.out ys)
    {N : Nat} (h : repeatPrevious src N s = .ok s') :
    ∃ c, 1 ≤ c ∧ c ≤ 255 ∧ ys ≠ [] ∧ s.Reads src (natToBits 8 c) s' ∧ RegistersOk src s' ∧
      s'.dstIdx ≤ N ∧ Holds s'.out (ys ++ List.replicate c (ys.getLastD 0)) := by
  obtain ⟨s₁, hr8, -⟩ := (Queued.of_regs hs).refillIf (show (8 : Int) ≤ 64 by decide)
  obtain ⟨hr₁, hs₁, h8, hout₁⟩ := refillIf_reads hs (by decide) hr8
  obtain ⟨hdst, hidx⟩ := Prod.mk.inj hout₁
  rw [repeatPrevious, ite_bind_of_eq_ok hr8] at h
  dsimp only at h
  obtain ⟨h1, h⟩ := ite_throw_eq_ok h
  obtain ⟨hover, h⟩ := ite_throw_eq_ok h
  obtain ⟨hc0, h⟩ := ite_throw_eq_ok h
  rw [copyRun_eq _ (by omega) (by omega), ok_bind, shl_ok _ (by decide) (by decide), ok_bind] at h
  cases h
  have hc255 : (s₁.buffer >>> 56).toNat < 2 ^ 8 := by
    rw [BitVec.toNat_ushiftRight, Nat.shiftRight_eq_div_pow]
    exact top_lt s₁.buffer (k := 8) (by decide)
  have hcount : topBits s₁.buffer 8 = natToBits 8 (s₁.buffer >>> 56).toNat := by
    rw [topBits, BitVec.toNat_ushiftRight, Nat.shiftRight_eq_div_pow]
  have hk0 : s.dstIdx = ys.length := hys.idx_eq
  refine ⟨(s₁.buffer >>> 56).toNat, by omega, by omega, fun h0 => ?_, ?_,
    (hs₁.consume h8).output _ _, show s₁.dstIdx + _ ≤ N by omega, ?_⟩
  · rw [h0, List.length_nil] at hk0
    omega
  · rw [← hcount, ← List.nil_append (topBits s₁.buffer 8)]
    exact hr₁.trans ((consume_reads hs₁ h8).output _ _)
  · show Holds (fun i => if s₁.dstIdx ≤ i ∧ i < s₁.dstIdx + (s₁.buffer >>> 56).toNat then
        s₁.dst (s₁.dstIdx - 1) else s₁.dst i, s₁.dstIdx + (s₁.buffer >>> 56).toNat) _
    rw [hdst, hidx]
    exact hys.run (show 1 ≤ s.dstIdx by omega) _

section rounds

variable {d : FastHufDecoder} {minSymbol : Nat} {lens : List Nat}
  (ct : CanonicalTables d minSymbol lens) (hk : weightAbove lens 0 = 2 ^ MAX_CODE_LEN)
  (hshort : minLength lens ≤ TABLE_LOOKUP_BITS)
include ct hk hshort

/-- The symbol step, from registers with `TABLE_LOOKUP_BITS` valid bits, finds the canonical
code of a symbol at the top of `buffer`, all of it valid, after a refill or none. -/
theorem lookupSymbol_sound (hs : RegistersOk src s)
    (hnum : (TABLE_LOOKUP_BITS : Int) ≤ s.bufferNumBits) {L symbol : Nat}
    (h : lookupSymbol d src s = .ok (L, symbol, s')) :
    ∃ p, lens.getD p 0 ≠ 0 ∧ L = lens.getD p 0 ∧ symbol = minSymbol + p ∧
      s.Reads src [] s' ∧ RegistersOk src s' ∧ (L : Int) ≤ s'.bufferNumBits ∧ s'.out = s.out ∧
      topBits s'.buffer L = canonicalCode minSymbol lens symbol := by
  have h12 : TABLE_LOOKUP_BITS = 12 := rfl
  by_cases ht : d.tableMin ≤ s.buffer
  · -- the table: the code at the top of `buffer` has at most `TABLE_LOOKUP_BITS` bits
    obtain ⟨p, hp, hw⟩ := exists_code hk ct.max_le s.buffer
    have h51 := ct.le_51 (mem_lengths_of_mem (getD_mem hp) hp)
    have hL12 : lens.getD p 0 ≤ TABLE_LOOKUP_BITS := by
      by_contra hgt
      exact not_tableMin_le_of_code ct hp hshort (by omega)
        (by rw [← hw, top_div_pow _ (by omega) (by omega)]) ht
    rw [lookupSymbol_table_code ct hp hL12 src hw] at h
    cases h
    exact ⟨p, hp, rfl, rfl, .refl, hs, by omega, rfl, by rw [canonicalCode_eq, topBits, hw]⟩
  · -- the search, after a refill to 64 bits: the code is longer than `TABLE_LOOKUP_BITS`
    obtain ⟨s₁, hrun, -⟩ := (Queued.of_regs hs).refillIf (le_refl (64 : Int))
    obtain ⟨hr₁, hs₁, h64, hout⟩ := refillIf_reads hs (le_refl _) hrun
    obtain ⟨p, hp, hw⟩ := exists_code hk ct.max_le s₁.buffer
    have h51 := ct.le_51 (mem_lengths_of_mem (getD_mem hp) hp)
    have hL12 : TABLE_LOOKUP_BITS < lens.getD p 0 := by
      by_contra hle
      refine ht (tableMin_le_of_code ct hp (by omega) ?_)
      have htop := hr₁.topBits_eq hs hs₁ (k := lens.getD p 0) (by omega) (by omega)
      unfold topBits at htop
      rw [hw] at htop
      exact (natToBits_inj (codeValue_lt ct hp) (top_lt _ (by omega)) htop).symm
    rw [lookupSymbol_search_code ct hp hshort hL12 ht hrun hw] at h
    cases h
    exact ⟨p, hp, rfl, rfl, hr₁, hs₁, by omega, hout, by rw [canonicalCode_eq, topBits, hw]⟩

variable {rleSymbol : Nat} (hrle : d.rleSymbol = rleSymbol)
  (hsym : ∀ p, lens.getD p 0 ≠ 0 → minSymbol + p ≠ rleSymbol → minSymbol + p ≤ 65535)
  {N : Nat}
include hrle hsym

/-- A round of the loop takes the bits of a valid token off the queue, and writes the
token's symbols after those already written; a run never comes first. -/
theorem step_sound (hs : RegistersOk src s) (hnum : (TABLE_LOOKUP_BITS : Int) ≤ s.bufferNumBits)
    {ys : List Nat} (hys : Holds s.out ys) (h : step d src N s = .ok s') :
    ∃ t : StreamToken, t.Valid minSymbol lens rleSymbol ∧ (ys = [] → t.isLiteral) ∧
      s.Reads src (t.bits minSymbol lens rleSymbol) s' ∧ RegistersOk src s' ∧
      (TABLE_LOOKUP_BITS : Int) ≤ s'.bufferNumBits ∧ s'.dstIdx ≤ N ∧
      Holds s'.out (ys ++ expandFrom (ys.getLastD 0) [t]) := by
  rw [step] at h
  obtain ⟨⟨L, symbol, s₁⟩, hlook, h⟩ := bind_eq_ok.1 h
  obtain ⟨p, hp, rfl, rfl, hr₁, hs₁, hL, hout₁, hcode⟩ :=
    lookupSymbol_sound ct hk hshort hs hnum hlook
  have h51 := ct.le_51 (mem_lengths_of_mem (getD_mem hp) hp)
  obtain ⟨hdst, hidx⟩ := Prod.mk.inj hout₁
  dsimp only at h
  rw [shl_ok _ (by omega) (by omega), ok_bind, Int.toNat_ofNat] at h
  have hr₂ := consume_reads hs₁ hL
  have hs₂ := hs₁.consume hL
  by_cases hrun : ((minSymbol + p : Nat) : Int) = d.rleSymbol
  · -- the run symbol: the count in the next 8 bits, then a copy of the symbol before
    have hp' : minSymbol + p = rleSymbol := by rw [hrle] at hrun; exact_mod_cast hrun
    rw [if_pos hrun] at h
    obtain ⟨s₃, hround, hfin⟩ := bind_eq_ok.1 h
    obtain ⟨c, hc1, hc255, hne, hr₃, hs₃, hle₃, hys₃⟩ :=
      repeatPrevious_sound hs₂ (show Holds s₁.out ys by rwa [hout₁]) hround
    obtain ⟨hr', hs', h12, hout'⟩ := refillIf_reads hs₃ (by decide) hfin
    refine ⟨.run c, ⟨hc1, hc255⟩, fun h0 => absurd h0 hne, ?_, hs', h12, ?_, ?_⟩
    · have := (hr₁.trans hr₂).trans (hr₃.trans hr')
      simpa only [List.nil_append, List.append_nil, hcode, hp', StreamToken.bits] using this
    · obtain ⟨-, hidx'⟩ := Prod.mk.inj hout'
      omega
    · rw [hout', show expandFrom (ys.getLastD 0) [.run c]
        = List.replicate c (ys.getLastD 0) ++ [] from rfl, List.append_nil]
      exact hys₃
  · -- a literal, written at `dstIdx`
    rw [if_neg hrun] at h
    obtain ⟨dst₂, hwrite, hfin⟩ := bind_eq_ok.1 h
    obtain ⟨-, hlt, rfl⟩ := write_eq_ok hwrite
    rw [pure_bind] at hfin
    obtain ⟨hr', hs', h12, hout'⟩ := refillIf_reads (hs₂.output _ _) (by decide) hfin
    have hne : minSymbol + p ≠ rleSymbol := fun he => hrun (by rw [hrle, he])
    refine ⟨.literal (minSymbol + p), ⟨by omega, hsym p hp hne,
      by rwa [Nat.add_sub_cancel_left], hne⟩, fun _ => rfl, ?_, hs', h12, ?_, ?_⟩
    · have := (hr₁.trans (hr₂.output _ _)).trans hr'
      simpa only [List.nil_append, List.append_nil, hcode, StreamToken.bits] using this
    · obtain ⟨-, hidx'⟩ := Prod.mk.inj hout'
      dsimp only at hidx'
      omega
    · rw [hout']
      show Holds (Function.update s₁.dst (s₁.dstIdx : Int).toNat
        (BitVec.ofNat 16 (minSymbol + p)), s₁.dstIdx + 1) (ys ++ [minSymbol + p])
      rw [Int.toNat_ofNat, hdst, hidx]
      exact hys.literal _

/-- A run of the loop that returned took the bits of valid tokens off the queue, no run
first, and wrote all `N` symbols they stand for after those already written. -/
theorem decodeLoop_sound : ∀ (fuel : Nat) {s s' : DecodeState} {ys : List Nat},
    RegistersOk src s → (TABLE_LOOKUP_BITS : Int) ≤ s.bufferNumBits → Holds s.out ys →
    s.dstIdx ≤ N → decodeLoop d src N fuel s = .ok s' →
    ∃ ts : List StreamToken, (∀ t ∈ ts, t.Valid minSymbol lens rleSymbol) ∧
      (ys = [] → ∀ t ∈ ts.head?, t.isLiteral) ∧
      s.Reads src (encodeTokens minSymbol lens rleSymbol ts) s' ∧ RegistersOk src s' ∧
      s'.dstIdx = N ∧ Holds s'.out (ys ++ expandFrom (ys.getLastD 0) ts)
  | fuel, s, s', ys, hs, hnum, hys, hle, h => by
    by_cases hlt : s.dstIdx < N
    · match fuel, h with
      | 0, h =>
        rw [decodeLoop, if_pos hlt] at h
        cases h
      | fuel + 1, h =>
        rw [decodeLoop, if_pos hlt] at h
        obtain ⟨s₁, hstep, hloop⟩ := bind_eq_ok.1 h
        obtain ⟨t, ht, hfirst, hr, hs₁, hnum₁, hle₁, hys₁⟩ :=
          step_sound ct hk hshort hrle hsym hs hnum hys hstep
        obtain ⟨ts, hts, -, hr', hs', hN, hys'⟩ := decodeLoop_sound fuel hs₁ hnum₁ hys₁ hle₁ hloop
        refine ⟨t :: ts, List.forall_mem_cons.2 ⟨ht, hts⟩, fun h0 u hu => ?_, ?_, hs', hN, ?_⟩
        · cases hu
          exact hfirst h0
        · rw [encodeTokens_cons]
          exact hr.trans hr'
        · rw [append_expandFrom_cons]
          exact hys'
    · unfold decodeLoop at h
      rw [if_neg hlt] at h
      cases h
      exact ⟨[], fun t h => absurd h (List.not_mem_nil t),
        fun _ t h => absurd h (Option.not_mem_none t), .refl, hs, by omega,
        by rw [show expandFrom _ [] = [] from rfl, List.append_nil]; exact hys⟩

end rounds

/-! ## The whole of `decode` -/

/-- `decode` returns only what a stream written with the canonical code stands for. The
code-book is one the constructor accepts, complete, with a code of at most `TABLE_LOOKUP_BITS`
bits and none longer than 51, and every symbol up to `maxSymbol` but the run symbol fits the
16 bits of the output. Then the output of a run of `decode` that returned is the expansion of
a valid stream, and the stream's bits start the first `⌈numSrcBits / 8⌉` bytes of the payload
followed by zeros, with at most 128 of those bytes' bits left after them. -/
theorem expandTokens_of_decode (cb : List LengthToken) (hcb : ∀ t ∈ cb, t.Valid)
    {minSymbol maxSymbol : Nat} (hcover : minSymbol + (codeLengths cb).length = maxSymbol + 1)
    (rest : List (BitVec 8)) {numBytes : Nat} (hnum : (packBits (encode cb)).length < numBytes)
    (hcomplete : IsComplete (codeLengths cb)) (hlong : maxLength (codeLengths cb) ≤ 51)
    (hshort : minLength (codeLengths cb) ≤ TABLE_LOOKUP_BITS) {rleSymbol : Nat}
    (hsym : ∀ x ≤ maxSymbol, x ≠ rleSymbol → x ≤ 65535) {d : FastHufDecoder} {consumed : Nat}
    (hd : FastHufDecoder.new (packBits (encode cb) ++ rest) numBytes minSymbol maxSymbol rleSymbol
      = .ok (d, consumed))
    {src : List (BitVec 8)} {numSrcBits : Int} (hlen : (numSrcBits.toNat + 7) / 8 ≤ src.length)
    {dst dst' : Nat → BitVec 16} {N : Nat} (h : d.decode src numSrcBits dst N = .ok dst') :
    ∃ ts : List StreamToken, StreamValid minSymbol (codeLengths cb) rleSymbol ts ∧
      (expandTokens ts).length = N ∧
      (∀ i < N, dst' i = BitVec.ofNat 16 ((expandTokens ts).getD i 0)) ∧
      (∃ pad, encodeTokens minSymbol (codeLengths cb) rleSymbol ts <+:
        bytesToBits (src.take ((numSrcBits.toNat + 7) / 8)) ++ List.replicate pad false) ∧
      8 * ((numSrcBits.toNat + 7) / 8) ≤
        (encodeTokens minSymbol (codeLengths cb) rleSymbol ts).length + 128 := by
  have hk := (isComplete_iff (codeLengths_le hcb)).1 hcomplete
  obtain ⟨ct, hrle⟩ := new_canonical cb hcb hcover rest hnum
    ((kraft_iff (codeLengths_le hcb)).2 hk.le) hlong hd
  have hsym' : ∀ p, (codeLengths cb).getD p 0 ≠ 0 → minSymbol + p ≠ rleSymbol →
      minSymbol + p ≤ 65535 := fun p hp hne => by
    have hlt : p < (codeLengths cb).length :=
      Nat.lt_of_not_le fun hge => hp (List.getD_eq_default _ _ hge)
    exact hsym _ (by omega) hne
  obtain ⟨hbits, s₀, s, h₀, hloop, hleft, rfl⟩ := decode_eq_ok_iff.1 h
  obtain ⟨s₁, h₁, hw0, h64, hw1, hn1, hcur, hleft₀, hidx₀, -⟩ :=
    initialState_words src numSrcBits dst (by omega)
  obtain rfl : s₁ = s₀ := Except.ok.inj (h₁.symm.trans h₀)
  obtain ⟨hs₀, hp₀⟩ := firstFill_regs hbits hlen hw0 h64 hw1 hn1 hcur hleft₀
  have hys₀ : Holds s₁.out [] := ⟨hidx₀, fun i hi => absurd hi (Nat.not_lt_zero i)⟩
  obtain ⟨ts, hts, hfirst, ⟨pad, hpad⟩, hs, hN, hys⟩ := decodeLoop_sound ct hk hshort hrle hsym'
    N hs₀ (by rw [h64]; decide) hys₀ (by omega) hloop
  have hlenN : (expandTokens ts).length = N := hys.idx_eq.symm.trans hN
  rw [hp₀] at hpad
  refine ⟨ts, ?_, hlenN, fun i hi => hys.written i (show i < (expandTokens ts).length by omega),
    ⟨pad, s.pending src, hpad.symm⟩, ?_⟩
  · cases ts with
    | nil => trivial
    | cons t ts => exact ⟨hfirst rfl t rfl, hts⟩
  · -- the registers hold at most 128 bits once no byte is left to load
    have hsl := congrArg List.length hpad
    have hb := hs.buffer_range
    have hbb := hs.back_range
    simp only [List.length_append, List.length_replicate, bytesToBits_length, List.length_take,
      DecodeState.pending, DecodeState.unread, hleft, topBits_length, Int.toNat_zero,
      List.take_zero, bytesToBits_nil, List.length_nil] at hsl
    omega

/-- On the payload of the stream `0`, then a run of three, over the code-book `1, 1`, the
output of `decode` is the expansion of a valid stream that the payload starts with. -/
theorem expandTokens_of_decode_pairStream :
    ∃ d consumed, FastHufDecoder.new (packBits (encode pairCodebook) ++ []) 3 0 1 (1 : Nat)
        = .ok (d, consumed) ∧
      ∃ dst', d.decode (streamPayload (encodeTokens 0 (codeLengths pairCodebook) 1 pairStream))
          (max 128 (encodeTokens 0 (codeLengths pairCodebook) 1 pairStream).length : Nat)
          (fun _ => 0) (expandTokens pairStream).length = .ok dst' ∧
        ∃ ts : List StreamToken, StreamValid 0 (codeLengths pairCodebook) 1 ts ∧
          (expandTokens ts).length = (expandTokens pairStream).length ∧
          (∀ i < (expandTokens pairStream).length,
            dst' i = BitVec.ofNat 16 ((expandTokens ts).getD i 0)) ∧
          (∃ pad, encodeTokens 0 (codeLengths pairCodebook) 1 ts <+:
            bytesToBits
              ((streamPayload (encodeTokens 0 (codeLengths pairCodebook) 1 pairStream)).take
                ((((max 128 (encodeTokens 0 (codeLengths pairCodebook) 1 pairStream).length : Nat)
                  : Int).toNat + 7) / 8)) ++ List.replicate pad false) ∧
          8 * ((((max 128 (encodeTokens 0 (codeLengths pairCodebook) 1 pairStream).length : Nat)
              : Int).toNat + 7) / 8) ≤
            (encodeTokens 0 (codeLengths pairCodebook) 1 ts).length + 128 := by
  obtain ⟨d, consumed, hd⟩ := @new_complete pairCodebook (by decide) 0 1 (by decide) [] 3
    (by decide) (by decide) (by decide) (1 : Nat)
  obtain ⟨ct, hrle⟩ := new_canonical pairCodebook (by decide) (by decide) [] (by decide)
    (by decide) (by decide) hd
  obtain ⟨dst', h, -⟩ := decode_streamPayload ct (by decide) hrle (show StreamValid 0
    (codeLengths pairCodebook) 1 pairStream by decide) (fun _ => ⟨by decide, by decide⟩) fun _ => 0
  have hbits : (encodeTokens 0 (codeLengths pairCodebook) 1 pairStream).length ≤ 128 := by decide
  exact ⟨d, consumed, hd, dst', h, expandTokens_of_decode pairCodebook (by decide) (by decide) []
    (by decide) (by decide) (by decide) (by decide) (fun x hx _ => by omega) hd
    (by simp only [streamPayload, packBits_length, List.length_append, List.length_replicate,
      Int.toNat_ofNat]; omega) h⟩

end ExrCodecs.FastHuf
