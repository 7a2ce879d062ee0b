import ExrCodecs.Word

/-!
# `FastHufDecoder`: constants, errors and checked machine operations

`ImfFastHuf.cpp` decodes OpenEXR's canonical Huffman streams. Its constructor reads a
code-length table and builds left-justified base and offset tables plus a 4096-entry
acceleration table; `decode` then keeps two 64-bit registers of look-ahead bits and turns
the stream into 16-bit symbols, with a run-length escape.

The code indexes fixed arrays, reads through raw pointers and shifts 64-bit words by
computed amounts without checking any of it. The model makes each such operation checked:

> `shl`, `shr`: a shift of a `uint64_t` by an amount outside `[0, 63]` fails with
> `shiftOutOfRange`.

> `index`: an array access outside the array fails with `indexOutOfRange`.

> `readByte`: a read past the end of a buffer fails with `readPastEnd`.

These faults, and `outOfFuel` for a loop run past a bound that the code relies on without
stating, are not errors of the source (`FastHufError.isFault`): the safety theorems show
when none of them can be returned.

Mirroring notes vs the source:
- `MAX_CODE_LEN` and `TABLE_LOOKUP_BITS` are declared in `ImfFastHuf.h`, which is not under
  src/; their values (58 and 12) come from the spec.
- Arrays are functions `Nat → α` with the array's size passed to `index`.
-/

namespace ExrCodecs.FastHuf

/-- Modelled from the spec: the longest code length, `MAX_CODE_LEN` of `ImfFastHuf.h`. -/
def MAX_CODE_LEN : Nat := 58

/-- Modelled from the spec: the acceleration table's index width, `TABLE_LOOKUP_BITS`. -/
def TABLE_LOOKUP_BITS : Nat := 12

/-- The exceptions `FastHufDecoder` throws (all `InputExc`, told apart by their messages), and
the faults the model adds where the source does something undefined or unchecked. -/
inductive FastHufError
  /-- "Error decoding Huffman table (Truncated table data)." -/
  | tableTruncated
  /-- "Error decoding Huffman table (Run beyond end of table)." -/
  | tableOverrun
  /-- "Huffman decode error (Invalid symbol in header)." -/
  | invalidTableSymbol
  /-- "Huffman decode error (Overrun)." -/
  | tableIdOverrun
  /-- "Error choosing Huffman decoder implementation (insufficient number of bits)." -/
  | insufficientBits
  /-- "Huffman decode error (Decoded an invalid symbol)." -/
  | invalidSymbol
  /-- "Huffman decode error (RLE code with no previous symbol)." -/
  | rleBeforeFirst
  /-- "Huffman decode error (Symbol run beyond expected output buffer length)." -/
  | rleOverrun
  /-- "Huffman decode error (Invalid RLE length)" -/
  | rleInvalid
  /-- "Huffman decode error (Compressed data remains after filling expected output buffer)." -/
  | trailingData
  /-- Not raised by the source: a read of byte `offset` past the end of the data. -/
  | readPastEnd (offset : Nat)
  /-- Not raised by the source: an array access at `index`, outside the array. -/
  | indexOutOfRange (index : Int)
  /-- Not raised by the source: a shift of a 64-bit word by `amount`, outside `[0, 63]`. -/
  | shiftOutOfRange (amount : Int)
  /-- Not raised by the source: a loop ran past the bound the source relies on. -/
  | outOfFuel
deriving DecidableEq, Repr

/-- The errors that stand for undefined or unchecked behaviour of the source. -/
def FastHufError.isFault : FastHufError → Bool
  | .readPastEnd _ | .indexOutOfRange _ | .shiftOutOfRange _ | .outOfFuel => true
  | _ => false

/-- `r` is not a fault, and a value it returns satisfies `P`. It is irreducible: a statement
`Safe r P` about a closed `r` is then never computed while it is elaborated, only where a
proof asks for it (`safe_ok`, `safe_error`). -/
@[irreducible] def Safe {α : Type} (r : Except FastHufError α) (P : α → Prop) : Prop :=
  match r with
  | .ok a => P a
  | .error e => e.isFault = false

/-- A result that is not a fault: a value, or one of the source's own exceptions. -/
def NoFault {α : Type} (r : Except FastHufError α) : Prop := Safe r fun _ => True

/-! ## Checked operations -/

/-- `x << s` on a `uint64_t`. -/
def shl (x : BitVec 64) (s : Int) : Except FastHufError (BitVec 64) :=
  if 0 ≤ s ∧ s < 64 then pure (x <<< s.toNat) else throw (.shiftOutOfRange s)

/-- `x >> s` on a `uint64_t`. -/
def shr (x : BitVec 64) (s : Int) : Except FastHufError (BitVec 64) :=
  if 0 ≤ s ∧ s < 64 then pure (x >>> s.toNat) else throw (.shiftOutOfRange s)

/-- `a[i]` of an array of `size` elements. -/
def index {α : Type} (a : Nat → α) (size : Nat) (i : Int) : Except FastHufError α :=
  if 0 ≤ i ∧ i < size then pure (a i.toNat) else throw (.indexOutOfRange i)

/-- `a[i] = v` on an array of `size` elements. -/
def write {α : Type} (a : Nat → α) (size : Nat) (i : Int) (v : α) : Except FastHufError (Nat → α) :=
  if 0 ≤ i ∧ i < size then pure (Function.update a i.toNat v) else throw (.indexOutOfRange i)

/-- The byte at offset `i` of a buffer. -/
def readByte (buf : List (BitVec 8)) (i : Nat) : Except FastHufError (BitVec 8) :=
  match buf[i]? with
  | some b => pure b
  | none => throw (.readPastEnd i)

/-- `READ64 (p)`: the eight bytes at `p` as a big-endian word. -/
def read64 (src : List (BitVec 8)) (p : Nat) : Except FastHufError (BitVec 64) := do
  let b0 ← readByte src p
  let b1 ← readByte src (p + 1)
  let b2 ← readByte src (p + 2)
  let b3 ← readByte src (p + 3)
  let b4 ← readByte src (p + 4)
  let b5 ← readByte src (p + 5)
  let b6 ← readByte src (p + 6)
  let b7 ← readByte src (p + 7)
  pure (b0 ++ b1 ++ b2 ++ b3 ++ b4 ++ b5 ++ b6 ++ b7)

theorem shl_ok (x : BitVec 64) {s : Int} (h0 : 0 ≤ s) (h : s < 64) :
    shl x s = .ok (x <<< s.toNat) := if_pos ⟨h0, h⟩

theorem shr_ok (x : BitVec 64) {s : Int} (h0 : 0 ≤ s) (h : s < 64) :
    shr x s = .ok (x >>> s.toNat) := if_pos ⟨h0, h⟩

theorem index_ok {α : Type} (a : Nat → α) {size : Nat} {i : Int} (h0 : 0 ≤ i) (h : i < size) :
    index a size i = .ok (a i.toNat) := if_pos ⟨h0, h⟩

theorem write_ok {α : Type} (a : Nat → α) {size : Nat} {i : Int} (v : α) (h0 : 0 ≤ i)
    (h : i < size) : write a size i v = .ok (Function.update a i.toNat v) := if_pos ⟨h0, h⟩

theorem readByte_ok {buf : List (BitVec 8)} {i : Nat} (h : i < buf.length) :
    readByte buf i = .ok buf[i] := by
  simp [readByte, List.getElem?_eq_getElem h, pure, Except.pure]

@[simp] theorem ok_bind {α β : Type} (a : α) (f : α → Except FastHufError β) :
    (Except.ok a : Except FastHufError α) >>= f = f a := rfl

theorem bind_eq_ok {α β : Type} {x : Except FastHufError α} {f : α → Except FastHufError β}
    {b : β} : x >>= f = .ok b ↔ ∃ a, x = .ok a ∧ f a = .ok b := by
  cases x <;> simp [bind, Except.bind]

theorem write_eq_ok {α : Type} {a a' : Nat → α} {size : Nat} {i : Int} {v : α}
    (h : write a size i v = .ok a') : 0 ≤ i ∧ i < size ∧ a' = Function.update a i.toNat v := by
  unfold write at h
  split_ifs at h with hi
  exact ⟨hi.1, hi.2, (Except.ok.inj h).symm⟩

theorem index_eq_ok {α : Type} {a : Nat → α} {size : Nat} {i : Int} {v : α}
    (h : index a size i = .ok v) : 0 ≤ i ∧ i < size ∧ v = a i.toNat := by
  unfold index at h
  split_ifs at h with hi
  exact ⟨hi.1, hi.2, (Except.ok.inj h).symm⟩

@[simp] theorem safe_ok {α : Type} {P : α → Prop} {a : α} :
    Safe (.ok a : Except FastHufError α) P ↔ P a := by
  unfold Safe
  exact Iff.rfl

@[simp] theorem safe_error {α : Type} {P : α → Prop} {e : FastHufError} :
    Safe (.error e : Except FastHufError α) P ↔ e.isFault = false := by
  unfold Safe
  exact Iff.rfl

theorem Safe.pure {α : Type} {P : α → Prop} {a : α} (h : P a) :
    Safe (Pure.pure a : Except FastHufError α) P := safe_ok.2 h

theorem Safe.throw {α : Type} {P : α → Prop} {e : FastHufError} (h : e.isFault = false) :
    Safe (throw e : Except FastHufError α) P := safe_error.2 h

theorem Safe.bind {α β : Type} {x : Except FastHufError α} {f : α → Except FastHufError β}
    {Q : α → Prop} {P : β → Prop} (hx : Safe x Q) (hf : ∀ a, Q a → Safe (f a) P) :
    Safe (x >>= f) P := by
  cases x with
  | error e => exact safe_error.2 (safe_error.1 hx)
  | ok a => exact hf a (safe_ok.1 hx)

theorem Safe.bind_ok {α β : Type} {x : Except FastHufError α} {f : α → Except FastHufError β}
    {P : β → Prop} (hx : NoFault x) (hf : ∀ a, x = .ok a → Safe (f a) P) : Safe (x >>= f) P := by
  cases x with
  | error e => exact safe_error.2 (safe_error.1 hx)
  | ok a => exact hf a rfl

theorem Safe.ite {α : Type} {c : Prop} [Decidable c] {x y : Except FastHufError α}
    {P : α → Prop} (hx : c → Safe x P) (hy : ¬c → Safe y P) : Safe (if c then x else y) P := by
  split_ifs with h
  exacts [hx h, hy h]

-- `let a ← if c then x else pure a₀; k a`: the `do` notation compiles `k` as a join point
theorem Safe.ite_bind_pure {α β : Type} {c : Prop} [Decidable c] {x : Except FastHufError α}
    {a₀ : α} {k : α → Except FastHufError β} {Q : α → Prop} {P : β → Prop}
    (hx : c → Safe x Q) (ha : ¬c → Q a₀) (hk : ∀ a, Q a → Safe (k a) P) :
    Safe (if c then x >>= k else Pure.pure a₀ >>= k) P :=
  Safe.ite (fun h => Safe.bind (hx h) hk) (fun h => Safe.bind (Safe.pure (ha h)) hk)

theorem ite_bind_eq_ok {α β : Type} {c : Prop} [Decidable c] {x : Except FastHufError α}
    {a₀ : α} {k : α → Except FastHufError β} {b : β}
    (h : (if c then x >>= k else Pure.pure a₀ >>= k) = .ok b) :
    ∃ a, (if c then x else Pure.pure a₀) = .ok a ∧ k a = .ok b := by
  split_ifs at h ⊢ <;> exact bind_eq_ok.1 h

theorem ite_bind_of_eq_ok {α β : Type} {c : Prop} [Decidable c] {x : Except FastHufError α}
    {a₀ a : α} {k : α → Except FastHufError β} (h : (if c then x else Pure.pure a₀) = .ok a) :
    (if c then x >>= k else Pure.pure a₀ >>= k) = k a := by
  split_ifs at h ⊢ <;> rw [h, ok_bind]

theorem ite_throw_eq_ok {α : Type} {c : Prop} [Decidable c] {e : FastHufError}
    {x : Except FastHufError α} {a : α} (h : (if c then throw e else x) = .ok a) :
    ¬c ∧ x = .ok a := by
  by_cases hc : c
  · rw [if_pos hc] at h
    cases h
  · rw [if_neg hc] at h
    exact ⟨hc, h⟩

theorem Safe.mono {α : Type} {r : Except FastHufError α} {P Q : α → Prop} (h : Safe r P)
    (hPQ : ∀ a, P a → Q a) : Safe r Q := by
  cases r with
  | error e => exact safe_error.2 (safe_error.1 h)
  | ok a => exact safe_ok.2 (hPQ a (safe_ok.1 h))

theorem Safe.of_ok {α : Type} {r : Except FastHufError α} {P : α → Prop} {a : α} (hr : r = .ok a)
    (h : P a) : Safe r P := by
  subst hr
  exact safe_ok.2 h

theorem Safe.noFault {α : Type} {r : Except FastHufError α} {P : α → Prop} (h : Safe r P) :
    NoFault r := h.mono fun _ _ => trivial

theorem Safe.foldlM {α β : Type} {f : β → α → Except FastHufError β} {P : β → Prop} :
    ∀ {L : List α}, (∀ b x, x ∈ L → P b → Safe (f b x) P) → ∀ b, P b → Safe (L.foldlM f b) P
  | [], _, _, hb => Safe.pure hb
  | x :: _, hf, b, hb => by
    rw [List.foldlM_cons]
    exact Safe.bind (hf b x (List.mem_cons_self _ _) hb) fun b' hb' =>
      Safe.foldlM (fun b y hy => hf b y (List.mem_cons_of_mem _ hy)) b' hb'

theorem foldlM_ok {α β : Type} {f : β → α → Except FastHufError β} :
    ∀ {L : List α}, (∀ b x, x ∈ L → ∃ b', f b x = .ok b') → ∀ b, ∃ r, L.foldlM f b = .ok r
  | [], _, b => ⟨b, rfl⟩
  | x :: _, hf, b => by
    obtain ⟨b', hb'⟩ := hf b x (List.mem_cons_self _ _)
    rw [List.foldlM_cons, hb', ok_bind]
    exact foldlM_ok (fun b y hy => hf b y (List.mem_cons_of_mem _ hy)) b'

theorem foldlM_inv {α β : Type} {f : β → α → Except FastHufError β} {P : β → Prop} :
    ∀ {L : List α}, (∀ b x b', x ∈ L → P b → f b x = .ok b' → P b') →
      ∀ {b b'}, P b → L.foldlM f b = .ok b' → P b'
  | [], _, _, _, hb, h => by
    cases h
    exact hb
  | x :: _, hf, b, _, hb, h => by
    rw [List.foldlM_cons] at h
    obtain ⟨b1, h1, h⟩ := bind_eq_ok.1 h
    exact foldlM_inv (fun b y b' hy => hf b y b' (List.mem_cons_of_mem _ hy))
      (hf b x b1 (List.mem_cons_self _ _) hb h1) h

theorem forM_ok {α : Type} {f : α → Except FastHufError PUnit} :
    ∀ {L : List α}, (∀ x ∈ L, f x = .ok ()) → L.forM f = .ok ()
  | [], _ => rfl
  | x :: _, hf => by
    simp only [List.forM, hf x (List.mem_cons_self _ _), ok_bind]
    exact forM_ok fun y hy => hf y (List.mem_cons_of_mem _ hy)

theorem forM_eq_ok {α : Type} {f : α → Except FastHufError PUnit} :
    ∀ {L : List α}, L.forM f = .ok () → ∀ x ∈ L, f x = .ok ()
  | [], _, _, hx => absurd hx (List.not_mem_nil _)
  | x :: _, h, y, hy => by
    simp only [List.forM] at h
    obtain ⟨⟨⟩, hx, h⟩ := bind_eq_ok.1 h
    rcases List.mem_cons.1 hy with rfl | hy
    · exact hx
    · exact forM_eq_ok h y hy

theorem Safe.forM {α : Type} {f : α → Except FastHufError PUnit} :
    ∀ {L : List α}, (∀ x ∈ L, NoFault (f x)) → NoFault (L.forM f)
  | [], _ => Safe.pure trivial
  | x :: _, hf => by
    simp only [List.forM]
    exact Safe.bind (hf x (List.mem_cons_self _ _)) fun _ _ =>
      Safe.forM fun y hy => hf y (List.mem_cons_of_mem _ hy)

end ExrCodecs.FastHuf
