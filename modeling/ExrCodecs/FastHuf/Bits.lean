import ExrCodecs.FastHuf.Basic

/-!
# MSB-first bit strings

Both of FastHuf's readers take bits most significant first within each byte: the
code-length scan's `readBits` and the decoder's `READ64`/`refill`. This file gives the
denotation both specifications use:

> `bytesToBits`: the bits of a byte list, MSB first; `bitsToNat`, the number an MSB-first
> bit string denotes.

> `bitsToNat_append`, `bitsToNat_take`, `bitsToNat_drop`: appending, keeping the first `k`
> bits, and dropping them, in arithmetic.

> `bytesToBits_packBits`: packing a bit string into bytes (`packBits`, zero-padded to a
> whole byte) and reading it back gives the string and its padding.
-/

namespace ExrCodecs.FastHuf

/-- The number an MSB-first bit string denotes. -/
def bitsToNat (l : List Bool) : Nat := l.foldl (fun acc b => 2 * acc + b.toNat) 0

/-- The low `w` bits of `v`, most significant first. -/
def natToBits : Nat → Nat → List Bool
  | 0, _ => []
  | w + 1, v => v.testBit w :: natToBits w v

/-- The bits of a byte list, each byte most significant bit first. -/
def bytesToBits (bytes : List (BitVec 8)) : List Bool :=
  bytes.flatMap fun b => natToBits 8 b.toNat

/-- A bit string packed into bytes MSB first, the last byte padded with zeros. -/
def packBits (bits : List Bool) : List (BitVec 8) :=
  (List.range ((bits.length + 7) / 8)).map fun i =>
    BitVec.ofNat 8 (bitsToNat (((bits ++ List.replicate 7 false).drop (8 * i)).take 8))

/-! ## `bitsToNat` -/

private theorem foldl_bits (l : List Bool) (acc : Nat) :
    l.foldl (fun acc b => 2 * acc + b.toNat) acc = acc * 2 ^ l.length + bitsToNat l := by
  induction l generalizing acc with
  | nil => simp [bitsToNat]
  | cons b l ih =>
    have hcons : bitsToNat (b :: l) = l.foldl (fun acc b => 2 * acc + b.toNat) (2 * 0 + b.toNat) :=
      rfl
    rw [List.foldl_cons, ih, hcons, ih, List.length_cons, Nat.pow_succ]
    ring

@[simp] theorem bitsToNat_nil : bitsToNat [] = 0 := rfl

theorem bitsToNat_cons (b : Bool) (l : List Bool) :
    bitsToNat (b :: l) = b.toNat * 2 ^ l.length + bitsToNat l := by
  rw [bitsToNat, List.foldl_cons, foldl_bits]
  simp

theorem bitsToNat_append (l l' : List Bool) :
    bitsToNat (l ++ l') = bitsToNat l * 2 ^ l'.length + bitsToNat l' := by
  rw [bitsToNat, List.foldl_append, foldl_bits]
  rfl

theorem bitsToNat_lt (l : List Bool) : bitsToNat l < 2 ^ l.length := by
  induction l with
  | nil => simp
  | cons b l ih =>
    rw [bitsToNat_cons, List.length_cons, Nat.pow_succ]
    have : b.toNat ≤ 1 := Bool.toNat_le b
    calc b.toNat * 2 ^ l.length + bitsToNat l < b.toNat * 2 ^ l.length + 2 ^ l.length :=
          Nat.add_lt_add_left ih _
      _ ≤ 2 ^ l.length * 2 := by nlinarith

/-- The first `k` bits denote the number with the other bits shifted out. -/
theorem bitsToNat_take (l : List Bool) (k : Nat) :
    bitsToNat (l.take k) = bitsToNat l / 2 ^ (l.length - k) := by
  have h := bitsToNat_append (l.take k) (l.drop k)
  have hlt := bitsToNat_lt (l.drop k)
  rw [List.take_append_drop] at h
  rw [List.length_drop] at h hlt
  rw [h, Nat.add_div_of_dvd_right (Dvd.intro_left _ rfl), Nat.mul_div_cancel _ (Nat.two_pow_pos _),
    Nat.div_eq_of_lt hlt, Nat.add_zero]

/-- Dropping the first `k` bits keeps the number below `2^(length - k)`. -/
theorem bitsToNat_drop (l : List Bool) (k : Nat) :
    bitsToNat (l.drop k) = bitsToNat l % 2 ^ (l.length - k) := by
  have h := bitsToNat_append (l.take k) (l.drop k)
  have hlt := bitsToNat_lt (l.drop k)
  rw [List.take_append_drop] at h
  rw [List.length_drop] at h hlt
  rw [h, Nat.add_comm, Nat.add_mul_mod_self_right, Nat.mod_eq_of_lt hlt]

/-! ## `natToBits` -/

@[simp] theorem natToBits_length (w v : Nat) : (natToBits w v).length = w := by
  induction w with
  | zero => rfl
  | succ w ih => simp [natToBits, ih]

theorem bitsToNat_natToBits (w v : Nat) : bitsToNat (natToBits w v) = v % 2 ^ w := by
  induction w with
  | zero => simp [natToBits, Nat.mod_one]
  | succ w ih =>
    rw [natToBits, bitsToNat_cons, ih, natToBits_length, Nat.pow_succ, Nat.mod_mul,
      Nat.testBit_to_div_mod]
    by_cases h : v / 2 ^ w % 2 = 1
    · simp [h, Nat.add_comm]
    · have h0 : v / 2 ^ w % 2 = 0 := by omega
      simp [h0]

/-- `natToBits w` reads only the low `w` bits. -/
theorem natToBits_mod (w v : Nat) : natToBits w (v % 2 ^ w) = natToBits w v := by
  suffices h : ∀ u ≤ w, natToBits u (v % 2 ^ w) = natToBits u v from h w le_rfl
  intro u hu
  induction u with
  | zero => rfl
  | succ u ih => rw [natToBits, natToBits, Nat.testBit_mod_two_pow, ih (by omega)]; simp; omega

/-- A width `m + n` splits into the high `m` bits and the low `n`. -/
theorem natToBits_add (m n v : Nat) :
    natToBits (m + n) v = natToBits m (v / 2 ^ n) ++ natToBits n v := by
  induction m with
  | zero => rw [Nat.zero_add]; rfl
  | succ m ih =>
    rw [Nat.succ_add, natToBits, natToBits, ih, List.cons_append, ← Nat.shiftRight_eq_div_pow,
      Nat.testBit_shiftRight, Nat.add_comm n]

theorem natToBits_add_mul (m n a b : Nat) (hb : b < 2 ^ n) :
    natToBits (m + n) (b + a * 2 ^ n) = natToBits m a ++ natToBits n b := by
  rw [natToBits_add, Nat.add_mul_div_right _ _ (Nat.two_pow_pos n), Nat.div_eq_of_lt hb,
    Nat.zero_add, ← natToBits_mod n, Nat.add_mul_mod_self_right, Nat.mod_eq_of_lt hb]

/-- A number with no bits below `2^w` reads as `w` zeros. -/
theorem natToBits_of_mod_eq_zero {w v : Nat} (h : v % 2 ^ w = 0) :
    natToBits w v = List.replicate w false := by
  rw [← natToBits_mod, h]
  clear h
  induction w with
  | zero => rfl
  | succ w ih => rw [natToBits, Nat.zero_testBit, ih, List.replicate_succ]

theorem natToBits_bitsToNat (l : List Bool) : natToBits l.length (bitsToNat l) = l := by
  induction l with
  | nil => rfl
  | cons b l ih =>
    have hlt := bitsToNat_lt l
    have htop : (bitsToNat (b :: l)).testBit l.length = b := by
      rw [bitsToNat_cons, Nat.testBit_to_div_mod,
        Nat.add_div_of_dvd_right (Dvd.intro_left _ rfl), Nat.mul_div_cancel _ (Nat.two_pow_pos _),
        Nat.div_eq_of_lt hlt, Nat.add_zero]
      cases b <;> rfl
    have hlow : bitsToNat (b :: l) % 2 ^ l.length = bitsToNat l := by
      rw [bitsToNat_cons, Nat.add_comm, Nat.add_mul_mod_self_right, Nat.mod_eq_of_lt hlt]
    rw [List.length_cons, natToBits, htop, ← natToBits_mod, hlow, ih]

/-! ## Bytes -/

@[simp] theorem bytesToBits_nil : bytesToBits [] = [] := rfl

theorem bytesToBits_cons (b : BitVec 8) (bytes : List (BitVec 8)) :
    bytesToBits (b :: bytes) = natToBits 8 b.toNat ++ bytesToBits bytes := rfl

@[simp] theorem bytesToBits_append (bytes bytes' : List (BitVec 8)) :
    bytesToBits (bytes ++ bytes') = bytesToBits bytes ++ bytesToBits bytes' :=
  List.flatMap_append _ _ _

@[simp] theorem bytesToBits_length (bytes : List (BitVec 8)) :
    (bytesToBits bytes).length = 8 * bytes.length := by
  induction bytes with
  | nil => rfl
  | cons b bytes ih => rw [bytesToBits_cons, List.length_append, ih]; simp; omega

theorem bytesToBits_drop (bytes : List (BitVec 8)) (p : Nat) :
    (bytesToBits bytes).drop (8 * p) = bytesToBits (bytes.drop p) := by
  induction bytes generalizing p with
  | nil => simp
  | cons b bytes ih =>
    cases p with
    | zero => rfl
    | succ p =>
      rw [bytesToBits_cons, Nat.mul_succ, Nat.add_comm, ← List.drop_drop,
        List.drop_left' (natToBits_length 8 _), ih, List.drop_succ_cons]

theorem bytesToBits_take (bytes : List (BitVec 8)) (n : Nat) :
    (bytesToBits bytes).take (8 * n) = bytesToBits (bytes.take n) := by
  induction bytes generalizing n with
  | nil => simp
  | cons b bytes ih =>
    cases n with
    | zero => rfl
    | succ n =>
      rw [bytesToBits_cons, List.take_append_eq_append_take, natToBits_length,
        List.take_of_length_le (by simp), show 8 * (n + 1) - 8 = 8 * n by omega, ih,
        List.take_succ_cons, bytesToBits_cons]

/-- The eight bits from bit `8 p` on are byte `p`. -/
theorem bytesToBits_byte (bytes : List (BitVec 8)) {p : Nat} (hp : p < bytes.length) :
    ((bytesToBits bytes).drop (8 * p)).take 8 = natToBits 8 bytes[p].toNat := by
  rw [bytesToBits_drop, List.drop_eq_getElem_cons hp, bytesToBits_cons,
    List.take_left' (natToBits_length 8 _)]

theorem bitsToNat_byte (b : BitVec 8) : bitsToNat (natToBits 8 b.toNat) = b.toNat := by
  rw [bitsToNat_natToBits, Nat.mod_eq_of_lt b.isLt]

@[simp] theorem packBits_length (bits : List Bool) :
    (packBits bits).length = (bits.length + 7) / 8 := by
  simp [packBits]

private theorem flatMap_range_chunks (l : List Bool) :
    ∀ n, (List.range n).flatMap (fun i => (l.drop (8 * i)).take 8) = l.take (8 * n)
  | 0 => by simp
  | n + 1 => by
    rw [List.range_succ, List.flatMap_append, flatMap_range_chunks l n, List.flatMap_singleton,
      Nat.mul_succ, List.take_add]

/-- Packing then unpacking gives the bits and the zero padding of the last byte. -/
theorem bytesToBits_packBits (bits : List Bool) :
    bytesToBits (packBits bits)
      = bits ++ List.replicate (8 * ((bits.length + 7) / 8) - bits.length) false := by
  have hchunk : ∀ i ∈ List.range ((bits.length + 7) / 8),
      natToBits 8 (BitVec.ofNat 8 (bitsToNat
        (((bits ++ List.replicate 7 false).drop (8 * i)).take 8))).toNat
        = ((bits ++ List.replicate 7 false).drop (8 * i)).take 8 := by
    intro i hi
    set c := ((bits ++ List.replicate 7 false).drop (8 * i)).take 8
    have hlen : c.length = 8 := by simp [c] at hi ⊢; omega
    have hlt : bitsToNat c < 2 ^ 8 := hlen ▸ bitsToNat_lt c
    have hc := natToBits_bitsToNat c
    rw [hlen] at hc
    rw [BitVec.toNat_ofNat, Nat.mod_eq_of_lt hlt, hc]
  rw [bytesToBits, packBits, List.flatMap_map, List.flatMap_congr hchunk, flatMap_range_chunks,
    List.take_append_eq_append_take, List.take_of_length_le (by omega), List.take_replicate]
  congr
  omega

end ExrCodecs.FastHuf
