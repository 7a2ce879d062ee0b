import ExrCodecs.FastHuf.Canonical

/-!
# The code space of a canonical code

`canonicalBase lens L` is a ceiling, `⌈weightAbove lens L / 2^(MAX_CODE_LEN − L)⌉`, where
`weightAbove lens L = Σ_{k>L} count[k] · 2^(MAX_CODE_LEN−k)` is the share of the code space the
codes longer than `L` take, in units of `2^−MAX_CODE_LEN` (`lt_canonicalBase_iff`). What the
decoder needs of the canonical code follows from that and from the weights adding up
(`weightAbove_pred`):

> `top_lt_canonicalBase`: the top `L'` bits of a code of length `L > L'` are below `base[L']`,
> so no shorter code is a prefix of a longer one.

> `canonicalBase_add_count_le`, `canonicalBase_lt`: under Kraft's inequality (`Kraft`) the codes
> of each length fit in that many bits, and `base[L]` does whenever a length of at most `L` is in
> use.

> `canonicalBase_mul_le`: `base[L]` is at most `base[L']` shifted left by `L − L'`, so the
> left-justified bases decrease with the length.

> `canonicalBase_add_count_eq`: for a complete code, `base[L] + count[L] = 2 · base[L − 1]`:
> the codes of length `L` and the prefixes of the longer ones fill the space below the shorter
> ones exactly.
-/

namespace ExrCodecs.FastHuf

/-- `Σ_{k>L} count[k] · 2^(MAX_CODE_LEN−k)`: the share of the code space the codes longer than
`L` take, in units of `2^−MAX_CODE_LEN`. -/
def weightAbove (lens : List Nat) (L : Nat) : Nat :=
  ((List.range' (L + 1) (MAX_CODE_LEN - L)).map fun k => lens.count k * 2 ^ (MAX_CODE_LEN - k)).sum

/-- Kraft's inequality `Σ 2^−len ≤ 1` for lengths up to `MAX_CODE_LEN`, scaled by
`2 ^ MAX_CODE_LEN`: the non-zero lengths are those of a prefix code. -/
def Kraft (lens : List Nat) : Prop :=
  ((lens.filter (· ≠ 0)).map fun l => 2 ^ (MAX_CODE_LEN - l)).sum ≤ 2 ^ MAX_CODE_LEN

instance (lens : List Nat) : Decidable (Kraft lens) := inferInstanceAs (Decidable (_ ≤ _))

section ceiling

variable {a b c : Nat}

/-- `(a + b - 1) / b` is `⌈a / b⌉`: `c` is below it exactly when `c · b < a`. -/
theorem lt_ceil_iff (hb : 0 < b) : c < (a + b - 1) / b ↔ c * b < a := by
  rw [Nat.lt_iff_add_one_le, Nat.le_div_iff_mul_le hb, Nat.succ_mul]
  omega

theorem ceil_le_iff (hb : 0 < b) : (a + b - 1) / b ≤ c ↔ a ≤ c * b := by
  rw [← not_lt, lt_ceil_iff hb, not_lt]

/-- Scaling both sides of a ceiling division by `m > 0` does not change it. -/
theorem ceil_mul_right (hb : 0 < b) {m : Nat} (hm : 0 < m) :
    (a * m + b * m - 1) / (b * m) = (a + b - 1) / b := by
  have hbm : 0 < b * m := Nat.mul_pos hb hm
  refine le_antisymm ((ceil_le_iff hbm).2 ?_) ((ceil_le_iff hb).2 ?_)
  · rw [← Nat.mul_assoc]
    exact Nat.mul_le_mul_right m ((ceil_le_iff hb).1 le_rfl)
  · have h := (ceil_le_iff hbm).1 (le_refl ((a * m + b * m - 1) / (b * m)))
    rw [← Nat.mul_assoc] at h
    exact le_of_mul_le_mul_right h hm

end ceiling

/-- One length's term of a sum over lengths. -/
theorem sum_range'_ite (l : Nat) (f : Nat → Nat) :
    ∀ (s n : Nat), ((List.range' s n).map fun k => if l = k then f k else 0).sum
      = if s ≤ l ∧ l < s + n then f l else 0
  | s, 0 => by rw [List.range'_zero, List.map_nil, List.sum_nil, if_neg (by omega)]
  | s, n + 1 => by
    rw [List.range'_succ, List.map_cons, List.sum_cons, sum_range'_ite l f (s + 1) n]
    by_cases hl : l = s
    · subst hl
      simp
    · rw [if_neg hl, Nat.zero_add]
      congr 1
      simp only [eq_iff_iff]
      omega

section weights

variable {lens : List Nat} {L L' : Nat}

theorem canonicalBase_eq (lens : List Nat) (L : Nat) :
    canonicalBase lens L
      = (weightAbove lens L + 2 ^ (MAX_CODE_LEN - L) - 1) / 2 ^ (MAX_CODE_LEN - L) := rfl

/-- `c < base[L]` exactly when `c` codes of length `L` take less of the code space than the
longer codes. -/
theorem lt_canonicalBase_iff {c : Nat} :
    c < canonicalBase lens L ↔ c * 2 ^ (MAX_CODE_LEN - L) < weightAbove lens L :=
  lt_ceil_iff (Nat.two_pow_pos _)

theorem canonicalBase_le_iff {c : Nat} :
    canonicalBase lens L ≤ c ↔ weightAbove lens L ≤ c * 2 ^ (MAX_CODE_LEN - L) :=
  ceil_le_iff (Nat.two_pow_pos _)

theorem weightAbove_le_canonicalBase_mul (lens : List Nat) (L : Nat) :
    weightAbove lens L ≤ canonicalBase lens L * 2 ^ (MAX_CODE_LEN - L) :=
  canonicalBase_le_iff.1 le_rfl

/-- The weight above `L - 1` is that of the codes of length `L` and of the longer ones. -/
theorem weightAbove_pred (h1 : 1 ≤ L) (h : L ≤ MAX_CODE_LEN) :
    weightAbove lens (L - 1)
      = lens.count L * 2 ^ (MAX_CODE_LEN - L) + weightAbove lens L := by
  rw [weightAbove, weightAbove, show MAX_CODE_LEN - (L - 1) = MAX_CODE_LEN - L + 1 by omega,
    List.range'_succ, Nat.sub_add_cancel h1, List.map_cons, List.sum_cons]

theorem weightAbove_succ_le (lens : List Nat) (L : Nat) :
    weightAbove lens (L + 1) ≤ weightAbove lens L := by
  by_cases h : L + 1 ≤ MAX_CODE_LEN
  · have := @weightAbove_pred lens _ (Nat.le_add_left 1 L) h
    rw [Nat.add_sub_cancel] at this
    omega
  · rw [weightAbove, show MAX_CODE_LEN - (L + 1) = 0 by omega, List.range'_zero]
    exact Nat.zero_le _

theorem weightAbove_antitone (h : L' ≤ L) : weightAbove lens L ≤ weightAbove lens L' := by
  induction L, h using Nat.le_induction with
  | base => exact le_rfl
  | succ L _ ih => exact (weightAbove_succ_le lens L).trans ih

/-- The codes of length `L'` and those longer than `L'` take no more of the code space than
the codes longer than any `L < L'`. -/
theorem weightAbove_add_count_le (h : L < L') (h' : L' ≤ MAX_CODE_LEN) :
    weightAbove lens L' + lens.count L' * 2 ^ (MAX_CODE_LEN - L') ≤ weightAbove lens L := by
  have := @weightAbove_pred lens _ (by omega : 1 ≤ L') h'
  have := @weightAbove_antitone lens _ _ (by omega : L ≤ L' - 1)
  omega

theorem weightAbove_cons (l : Nat) (lens : List Nat) (L : Nat) :
    weightAbove (l :: lens) L
      = weightAbove lens L + if L < l ∧ l ≤ MAX_CODE_LEN then 2 ^ (MAX_CODE_LEN - l) else 0 := by
  simp only [weightAbove, List.count_cons, beq_iff_eq, Nat.add_mul, ite_mul, Nat.one_mul,
    Nat.zero_mul, List.sum_map_add, sum_range'_ite]
  congr 1
  exact if_congr (by omega) rfl rfl

/-- Summed by length, the weights of the codes are those of the symbols. -/
theorem weightAbove_zero (h : ∀ l ∈ lens, l ≤ MAX_CODE_LEN) :
    weightAbove lens 0 = ((lens.filter (· ≠ 0)).map fun l => 2 ^ (MAX_CODE_LEN - l)).sum := by
  induction lens with
  | nil => simp [weightAbove]
  | cons l lens ih =>
    have hl := h l (List.mem_cons_self _ _)
    rw [weightAbove_cons, ih fun l' hl' => h l' (List.mem_cons_of_mem _ hl'), List.filter_cons]
    by_cases hl0 : l = 0
    · simp [hl0]
    · rw [if_pos ⟨Nat.pos_of_ne_zero hl0, hl⟩, if_pos (by simpa using hl0), List.map_cons,
        List.sum_cons, Nat.add_comm]

theorem kraft_iff (h : ∀ l ∈ lens, l ≤ MAX_CODE_LEN) :
    Kraft lens ↔ weightAbove lens 0 ≤ 2 ^ MAX_CODE_LEN := by
  rw [Kraft, weightAbove_zero h]

theorem isComplete_iff (h : ∀ l ∈ lens, l ≤ MAX_CODE_LEN) :
    IsComplete lens ↔ weightAbove lens 0 = 2 ^ MAX_CODE_LEN := by
  rw [IsComplete, weightAbove_zero h]

end weights

section codes

variable {lens : List Nat} {L L' : Nat}

/-- The top `L'` bits of a code of length `L > L'` are below `base[L']`: no code of length `L'`
is a prefix of a code of length `L`. -/
theorem top_lt_canonicalBase (h : L' < L) (hL : L ≤ MAX_CODE_LEN) {v : Nat}
    (hv : v < canonicalBase lens L + lens.count L) :
    v / 2 ^ (L - L') < canonicalBase lens L' := by
  rw [lt_canonicalBase_iff]
  have hsplit : 2 ^ (MAX_CODE_LEN - L') = 2 ^ (L - L') * 2 ^ (MAX_CODE_LEN - L) := by
    rw [← Nat.pow_add]; congr 1; omega
  -- `v` codes of length `L` take less than the codes of length `L` and longer
  have hv' : v * 2 ^ (MAX_CODE_LEN - L)
      < weightAbove lens L + lens.count L * 2 ^ (MAX_CODE_LEN - L) := by
    by_cases hc : v < lens.count L
    · exact lt_of_lt_of_le (Nat.mul_lt_mul_of_pos_right hc (Nat.two_pow_pos _))
        (Nat.le_add_left _ _)
    · have := lt_canonicalBase_iff.1 (show v - lens.count L < canonicalBase lens L by omega)
      rw [Nat.sub_mul] at this
      have := Nat.mul_le_mul_right (2 ^ (MAX_CODE_LEN - L)) (not_lt.1 hc)
      omega
  calc v / 2 ^ (L - L') * 2 ^ (MAX_CODE_LEN - L')
      = v / 2 ^ (L - L') * 2 ^ (L - L') * 2 ^ (MAX_CODE_LEN - L) := by
        rw [hsplit, Nat.mul_assoc]
    _ ≤ v * 2 ^ (MAX_CODE_LEN - L) := Nat.mul_le_mul_right _ (Nat.div_mul_le_self _ _)
    _ < weightAbove lens L + lens.count L * 2 ^ (MAX_CODE_LEN - L) := hv'
    _ ≤ weightAbove lens L' := weightAbove_add_count_le h hL

/-- `base[L] ≤ base[L'] · 2^(L − L')` for `L' ≤ L`: left-justified to the same width, the
bases decrease with the length. -/
theorem canonicalBase_mul_le (h : L' ≤ L) (hL : L ≤ MAX_CODE_LEN) :
    canonicalBase lens L ≤ canonicalBase lens L' * 2 ^ (L - L') := by
  rw [canonicalBase_le_iff, Nat.mul_assoc, ← Nat.pow_add,
    show L - L' + (MAX_CODE_LEN - L) = MAX_CODE_LEN - L' by omega]
  exact (weightAbove_antitone h).trans (weightAbove_le_canonicalBase_mul lens L')

end codes

section kraft

variable {lens : List Nat} {L : Nat} (hk : weightAbove lens 0 ≤ 2 ^ MAX_CODE_LEN)
include hk

/-- Under Kraft's inequality the codes of length `L` fit in `L` bits. -/
theorem canonicalBase_add_count_le (h1 : 1 ≤ L) (hL : L ≤ MAX_CODE_LEN) :
    canonicalBase lens L + lens.count L ≤ 2 ^ L := by
  have hw := (@weightAbove_add_count_le lens _ _ (by omega : 0 < L) hL).trans hk
  have hpow : 2 ^ MAX_CODE_LEN = 2 ^ L * 2 ^ (MAX_CODE_LEN - L) := by
    rw [← Nat.pow_add]; congr 1; omega
  have hc : lens.count L ≤ 2 ^ L := le_of_mul_le_mul_right (by omega) (Nat.two_pow_pos (MAX_CODE_LEN - L))
  have : canonicalBase lens L ≤ 2 ^ L - lens.count L := by
    rw [canonicalBase_le_iff, Nat.sub_mul]
    omega
  omega

/-- Under Kraft's inequality `base[L] < 2^L` as soon as some length `l ≤ L` is in use: the
code space above `base[L]` holds at least that code. -/
theorem canonicalBase_lt {l : Nat} (hl : 1 ≤ l) (hlL : l ≤ L) (hL : L ≤ MAX_CODE_LEN)
    (hc : 0 < lens.count l) : canonicalBase lens L < 2 ^ L := by
  have hw := (@weightAbove_add_count_le lens _ _ (by omega : 0 < l) (hlL.trans hL)).trans hk
  have hLl := @weightAbove_antitone lens _ _ hlL
  have hu : 2 ^ (MAX_CODE_LEN - L) ≤ lens.count l * 2 ^ (MAX_CODE_LEN - l) :=
    le_trans (Nat.pow_le_pow_right (by decide) (by omega)) (Nat.le_mul_of_pos_left _ hc)
  have hpow : 2 ^ MAX_CODE_LEN = 2 ^ L * 2 ^ (MAX_CODE_LEN - L) := by
    rw [← Nat.pow_add]; congr 1; omega
  have : canonicalBase lens L ≤ 2 ^ L - 1 := by
    rw [canonicalBase_le_iff, Nat.sub_mul, Nat.one_mul]
    omega
  have := Nat.one_le_two_pow (n := L)
  omega

end kraft

section complete

variable {lens : List Nat} (hk : weightAbove lens 0 = 2 ^ MAX_CODE_LEN)
include hk

/-- For a complete code the codes longer than `L` fill a whole number of `L`-bit codes: the
rest of the code space is taken by codes of at most `L` bits. -/
theorem pow_dvd_weightAbove : ∀ {L}, L ≤ MAX_CODE_LEN → 2 ^ (MAX_CODE_LEN - L) ∣ weightAbove lens L
  | 0, _ => hk ▸ dvd_rfl
  | L + 1, hL => by
    have hpred := @weightAbove_pred lens _ (Nat.le_add_left 1 L) hL
    rw [Nat.add_sub_cancel] at hpred
    have hdvd : 2 ^ (MAX_CODE_LEN - (L + 1)) ∣ weightAbove lens L :=
      (Nat.pow_dvd_pow 2 (by omega)).trans (pow_dvd_weightAbove (by omega))
    rw [hpred] at hdvd
    exact (Nat.dvd_add_right (Dvd.intro_left _ rfl)).1 hdvd

theorem weightAbove_eq_mul {L : Nat} (hL : L ≤ MAX_CODE_LEN) :
    weightAbove lens L = canonicalBase lens L * 2 ^ (MAX_CODE_LEN - L) := by
  obtain ⟨q, hq⟩ := pow_dvd_weightAbove hk hL
  have hceil := ceil_mul_right (a := q) (b := 1) Nat.one_pos (Nat.two_pow_pos (MAX_CODE_LEN - L))
  rw [Nat.one_mul, Nat.add_sub_cancel, Nat.div_one] at hceil
  rw [canonicalBase_eq, hq, Nat.mul_comm _ q, hceil]

/-- For a complete code, the codes of length `L` and the `L`-bit prefixes of the longer codes
are exactly the `L`-bit extensions of the prefixes of length `L - 1` of the codes longer than
`L - 1`. -/
theorem canonicalBase_add_count_eq {L : Nat} (h1 : 1 ≤ L) (hL : L ≤ MAX_CODE_LEN) :
    canonicalBase lens L + lens.count L = 2 * canonicalBase lens (L - 1) := by
  have hpred := @weightAbove_pred lens _ h1 hL
  rw [weightAbove_eq_mul hk (by omega : L - 1 ≤ MAX_CODE_LEN), weightAbove_eq_mul hk hL,
    show MAX_CODE_LEN - (L - 1) = MAX_CODE_LEN - L + 1 by omega, Nat.pow_succ] at hpred
  refine Nat.eq_of_mul_eq_mul_right (Nat.two_pow_pos (MAX_CODE_LEN - L)) ?_
  rw [Nat.add_mul]
  linarith

end complete

end ExrCodecs.FastHuf
