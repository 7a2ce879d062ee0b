import ExrCodecs.FastHuf.DecodeSafety

/-!
# What `decode` writes stays written

A round of `decode`'s loop only appends to the output: `dstIdx` does not go back, and no entry
of `dst` below it changes (`step_extends`), so neither does a whole run of the loop
(`decodeLoop_extends`). The symbol lookup and every refill leave the output as it is
(`lookupSymbol_frame`); a literal writes the entry at `dstIdx`, and a run writes only past it
(`copyRun_frame`).

A round that reads its code through the acceleration table and writes a literal is computed
in closed form (`step_tableLiteral`). With the two, the symbol such a round writes is in the
output of every run of `decode` that returns.
-/

namespace ExrCodecs.FastHuf

variable {src : List (BitVec 8)} {s s' : DecodeState}

/-- `s'` keeps what `s` has written: `dstIdx` does not go back, and `dst` below it is as it
was. -/
structure DecodeState.Extends (s s' : DecodeState) : Prop where
  dstIdx_le : s.dstIdx ≤ s'.dstIdx
  dst_eq : ∀ i < s.dstIdx, s'.dst i = s.dst i

namespace DecodeState.Extends

theorem refl (s : DecodeState) : s.Extends s := ⟨le_rfl, fun _ _ => rfl⟩

theorem trans {s₁ s₂ s₃ : DecodeState} (h₁ : s₁.Extends s₂) (h₂ : s₂.Extends s₃) :
    s₁.Extends s₃ :=
  ⟨h₁.dstIdx_le.trans h₂.dstIdx_le, fun i hi =>
    (h₂.dst_eq i (lt_of_lt_of_le hi h₁.dstIdx_le)).trans (h₁.dst_eq i hi)⟩

theorem of_out (h : s'.out = s.out) : s.Extends s' := by
  obtain ⟨hdst, hidx⟩ := Prod.mk.inj h
  exact ⟨hidx.ge, fun i _ => congrFun hdst i⟩

end DecodeState.Extends

/-! ## The parts of a round -/

/-- The refill a call site makes when its test asks for one. -/
theorem refillIf_frame {c : Prop} [Decidable c]
    (h : (if c then refillBuffer src s else pure s) = .ok s') : s'.out = s.out := by
  split_ifs at h
  · exact refillBuffer_frame h
  · cases h
    rfl

theorem lookupSymbol_frame {d : FastHufDecoder} {r : Nat × Nat × DecodeState}
    (h : lookupSymbol d src s = .ok r) : r.2.2.out = s.out := by
  unfold lookupSymbol at h
  dsimp only at h
  by_cases hmin : d.tableMin ≤ s.buffer
  · rw [if_pos hmin] at h
    obtain ⟨_, -, h⟩ := bind_eq_ok.1 h
    obtain ⟨_, -, h⟩ := bind_eq_ok.1 h
    cases h
    rfl
  · rw [if_neg hmin] at h
    obtain ⟨s1, h1, h⟩ := ite_bind_eq_ok h
    obtain ⟨_, -, h⟩ := bind_eq_ok.1 h
    split_ifs at h
    obtain ⟨_, -, h⟩ := bind_eq_ok.1 h
    obtain ⟨_, -, h⟩ := bind_eq_ok.1 h
    split_ifs at h
    obtain ⟨_, -, h⟩ := bind_eq_ok.1 h
    cases h
    exact refillIf_frame h1

/-- The copy loop of a run writes only at `dstIdx` and past it. -/
theorem copyRun_frame {dst dst' : Nat → BitVec 16} {numDstElems dstIdx rleCount : Nat}
    (h : copyRun dst numDstElems dstIdx rleCount = .ok dst') : ∀ i < dstIdx, dst' i = dst i := by
  rw [copyRun, intCounter_eq, List.foldlM_map] at h
  refine foldlM_inv (P := fun a => ∀ i < dstIdx, a i = dst i) (fun a j a' _ ha hj => ?_)
    (fun _ _ => rfl) h
  obtain ⟨_, -, hj⟩ := bind_eq_ok.1 hj
  obtain ⟨-, -, rfl⟩ := write_eq_ok hj
  intro i hi
  rw [Function.update_noteq, ha i hi]
  omega

theorem repeatPrevious_extends {numDstElems : Nat}
    (h : repeatPrevious src numDstElems s = .ok s') : s.Extends s' := by
  unfold repeatPrevious at h
  obtain ⟨s1, h1, h⟩ := ite_bind_eq_ok h
  obtain ⟨hdst, hidx⟩ := Prod.mk.inj (refillIf_frame h1)
  dsimp only at h
  split_ifs at h
  obtain ⟨dst, hcopy, h⟩ := bind_eq_ok.1 h
  obtain ⟨_, -, h⟩ := bind_eq_ok.1 h
  cases h
  exact ⟨by dsimp only; omega, fun i hi =>
    (copyRun_frame hcopy i (by omega)).trans (congrFun hdst i)⟩

/-! ## Rounds and runs -/

section rounds

variable {d : FastHufDecoder} {numDstElems : Nat}

/-- A round of the loop keeps what was written before it. -/
theorem step_extends (h : step d src numDstElems s = .ok s') : s.Extends s' := by
  unfold step at h
  obtain ⟨⟨codeLen, symbol, s1⟩, h1, h⟩ := bind_eq_ok.1 h
  have hs1 : s.Extends s1 := .of_out (lookupSymbol_frame h1)
  obtain ⟨buffer, -, h⟩ := bind_eq_ok.1 h
  dsimp only at h
  split_ifs at h
  · obtain ⟨s3, h3, h⟩ := bind_eq_ok.1 h
    have h2 := repeatPrevious_extends h3
    exact (hs1.trans ⟨h2.dstIdx_le, h2.dst_eq⟩).trans (.of_out (refillIf_frame h))
  · obtain ⟨dst, hdst, h⟩ := bind_eq_ok.1 h
    obtain ⟨-, -, rfl⟩ := write_eq_ok hdst
    refine (hs1.trans ⟨Nat.le_succ _, fun i hi => ?_⟩).trans (.of_out (refillIf_frame h))
    exact Function.update_noteq (by omega) _ _

/-- A run of the loop keeps what was written before it. -/
theorem decodeLoop_extends :
    ∀ {fuel : Nat} {s s' : DecodeState}, decodeLoop d src numDstElems fuel s = .ok s' →
      s.Extends s'
  | 0, s, _, h => by
    rw [decodeLoop] at h
    split_ifs at h
    cases h
    exact .refl s
  | _ + 1, s, _, h => by
    rw [decodeLoop] at h
    split_ifs at h
    · obtain ⟨s1, h1, h⟩ := bind_eq_ok.1 h
      exact (step_extends h1).trans (decodeLoop_extends h)
    · cases h
      exact .refl s

/-- `decode` returns exactly when the payload has its two words, the loop from the first fill
returns, and no bits are left after it; what it returns is the loop's `dst`. -/
theorem decode_eq_ok_iff {numSrcBits : Int} {dst dst' : Nat → BitVec 16} :
    d.decode src numSrcBits dst numDstElems = .ok dst' ↔ 128 ≤ numSrcBits ∧
      ∃ s₀ s, initialState src numSrcBits dst = .ok s₀ ∧
        decodeLoop d src numDstElems numDstElems s₀ = .ok s ∧ s.currBitsLeft = 0 ∧ s.dst = dst' := by
  unfold FastHufDecoder.decode
  constructor
  · intro h
    obtain ⟨_, hbits, h⟩ := ite_bind_eq_ok h
    obtain ⟨s₀, h₀, h⟩ := bind_eq_ok.1 h
    obtain ⟨s, hs, h⟩ := bind_eq_ok.1 h
    obtain ⟨_, hleft, h⟩ := ite_bind_eq_ok h
    split_ifs at hbits hleft with h128 hc
    cases h
    exact ⟨by omega, s₀, s, h₀, hs, not_not.1 hc, rfl⟩
  · rintro ⟨hbits, s₀, s, h₀, hs, hc, rfl⟩
    rw [if_neg (by omega), pure_bind, h₀, ok_bind, hs, ok_bind, if_neg (not_not.2 hc), pure_bind]
    rfl

/-- A round whose code the acceleration table gives and whose symbol is a literal, with at
least `TABLE_LOOKUP_BITS` bits left after the code: it shifts the code out of `buffer`,
writes the table's symbol at `dstIdx` and makes no refill. -/
theorem step_tableLiteral {codeLen symbol : Nat} (hmin : d.tableMin ≤ s.buffer)
    (hlen : d.tableCodeLen (s.buffer >>> (64 - TABLE_LOOKUP_BITS)).toNat = codeLen)
    (hsym : d.tableSymbol (s.buffer >>> (64 - TABLE_LOOKUP_BITS)).toNat = symbol)
    (hrle : (symbol : Int) ≠ d.rleSymbol) (hidx : s.dstIdx < numDstElems)
    (hbits : s.bufferNumBits ≤ 64) (hkeep : (TABLE_LOOKUP_BITS : Int) + codeLen ≤ s.bufferNumBits) :
    step d src numDstElems s = .ok { s with
      buffer := s.buffer <<< codeLen, bufferNumBits := s.bufferNumBits - codeLen
      dst := Function.update s.dst s.dstIdx (BitVec.ofNat 16 symbol), dstIdx := s.dstIdx + 1 } := by
  have hi := tableIdx_lt s.buffer
  simp only [TABLE_LOOKUP_BITS] at hkeep
  rw [step, lookupSymbol, if_pos hmin]
  simp only [index_ok _ (by omega) hi, ok_bind, pure_bind, Int.toNat_ofNat, hlen, hsym]
  rw [shl_ok _ (by omega) (by omega), ok_bind, if_neg hrle, write_ok _ _ (by omega) (by omega),
    ok_bind, if_neg (by simp only [TABLE_LOOKUP_BITS]; omega), Int.toNat_ofNat,
    Int.toNat_ofNat]
  rfl

end rounds

end ExrCodecs.FastHuf
