/-
# Bit masks as sets of positions

A vector comparison leaves a mask: bit `i` tells whether byte `i` of the block
matched. What a program then does with masks are word operations whose meaning
is about positions: the lowest set bit (`ctz`), the bits below it
(`getLsbD_sub_one_and`), the mask without it (`getLsbD_and_sub_one`), the
number of set bits (`popCount`), the parity of the bits up to a position
(`prefixXor`, a carry-less product with all ones) and the positions that follow
an odd run of set bits (`oddRunEnds`, by one subtraction).
-/
import Mathlib.Data.BitVec
import Mathlib.Tactic

namespace Bits

/-- The mask with bit `i` set exactly when `p i`. -/
def ofPred : (n : ℕ) → (ℕ → Bool) → BitVec n
  | 0, _ => BitVec.nil
  | n + 1, p => BitVec.cons (p n) (ofPred n p)

@[simp] theorem getLsbD_ofPred (p : ℕ → Bool) : ∀ (n i : ℕ),
    (ofPred n p).getLsbD i = (decide (i < n) && p i)
  | 0, i => by simp [ofPred]
  | n + 1, i => by
    rw [ofPred, BitVec.getLsbD_cons, getLsbD_ofPred p n i]
    by_cases h : i = n
    · simp [h]
    · have : (i < n + 1) = (i < n) := by simp; omega
      simp [h, this]

/-! ### The first position where a predicate holds -/

/-- The least `i < n` with `p i`, or `n`. -/
def first (p : ℕ → Bool) : ℕ → ℕ
  | 0 => 0
  | n + 1 => if p 0 then 0 else first (fun i => p (i + 1)) n + 1

theorem first_le : ∀ (n : ℕ) (p : ℕ → Bool), first p n ≤ n
  | 0, _ => le_rfl
  | n + 1, p => by
    unfold first
    split
    · omega
    · have := first_le n fun i => p (i + 1)
      omega

theorem first_spec : ∀ (n : ℕ) (p : ℕ → Bool), first p n < n → p (first p n) = true
  | 0, _, h => absurd h (by simp [first])
  | n + 1, p, h => by
    unfold first at h ⊢
    split
    · assumption
    · rename_i h0
      rw [if_neg h0] at h
      exact first_spec n (fun i => p (i + 1)) (by omega)

theorem lt_first : ∀ (n : ℕ) (p : ℕ → Bool) (i : ℕ), i < first p n → p i = false
  | 0, _, _, h => absurd h (by simp [first])
  | n + 1, p, i, h => by
    unfold first at h
    split at h
    · omega
    · rename_i h0
      cases i with
      | zero => simpa using h0
      | succ i => exact lt_first n (fun i => p (i + 1)) i (by omega)

theorem first_eq {p : ℕ → Bool} {n k : ℕ} (hk : k < n) (hp : p k = true) (hlt : ∀ i < k, p i = false) :
    first p n = k := by
  rcases lt_trichotomy (first p n) k with h | h | h
  · have := first_spec n p (by omega)
    simp [hlt _ h] at this
  · exact h
  · have := lt_first n p k h
    simp [hp] at this

theorem first_eq_self {p : ℕ → Bool} {n : ℕ} (h : ∀ i < n, p i = false) : first p n = n := by
  rcases Nat.lt_or_ge (first p n) n with hlt | hge
  · have := first_spec n p hlt
    simp [h _ hlt] at this
  · exact le_antisymm (first_le n p) hge

section
variable {w : ℕ} (x q b : BitVec w)

/-- The position of the lowest set bit, or the width. -/
def ctz : ℕ := first x.getLsbD w

theorem ctz_le : ctz x ≤ w := first_le _ _

theorem eq_zero_iff : x = 0 ↔ ∀ i < w, x.getLsbD i = false := by
  constructor
  · rintro rfl i _
    simp
  · intro h
    exact BitVec.eq_of_getLsbD_eq fun i hi => by simp [h i hi]

variable {x} in
theorem exists_bit_of_ne_zero (h : x ≠ 0) : ∃ i < w, x.getLsbD i = true := by
  by_contra hc
  push Not at hc
  exact h ((eq_zero_iff x).mpr fun i hi => by simpa using hc i hi)

variable {x} in
theorem ctz_lt (h : x ≠ 0) : ctz x < w := by
  obtain ⟨i, hi, hb⟩ := exists_bit_of_ne_zero h
  by_contra hc
  have := lt_first w x.getLsbD i (by have := ctz_le x; unfold ctz at *; omega)
  simp [hb] at this

variable {x} in
theorem getLsbD_ctz (h : x ≠ 0) : x.getLsbD (ctz x) = true := first_spec _ _ (ctz_lt h)

theorem getLsbD_of_lt_ctz {i : ℕ} (h : i < ctz x) : x.getLsbD i = false := lt_first _ _ _ h

variable {x} in
theorem ctz_eq_width (h : x = 0) : ctz x = w := first_eq_self ((eq_zero_iff x).mp h)

variable {x} in
theorem ne_zero_of_ctz_lt {k : ℕ} (h : ctz x < k) (hk : k ≤ w) : x ≠ 0 := fun hz => by
  have := ctz_eq_width hz
  omega

variable {x} in
/-- The lowest set bit depends on the bits up to it. -/
theorem ctz_congr {y : BitVec w} {n : ℕ} (h : ∀ i < n, x.getLsbD i = y.getLsbD i) (hn : n ≤ w)
    (hx : ctz x < n) :
    ctz y = ctz x := by
  refine first_eq (by omega) ?_ fun i hi => ?_
  · rw [← h _ hx]
    exact getLsbD_ctz (ne_zero_of_ctz_lt hx hn)
  · rw [← h i (by omega)]
    exact getLsbD_of_lt_ctz x hi

/-- `x - 1` flips the bits up to and including the lowest set one. -/
theorem getLsbD_sub_one {i : ℕ} (hi : i < w) :
    (x - 1#w).getLsbD i = (x.getLsbD i ^^ !decide (∃ j < i, x.getLsbD j = true)) := by
  rw [← BitVec.not_neg, BitVec.getLsbD_not, BitVec.getLsbD_neg]
  simp only [hi, decide_true, Bool.true_and]
  cases x.getLsbD i <;> cases decide (∃ j < i, x.getLsbD j = true) <;> rfl

/-- For disjoint masks, `(q - 1) & b` are the bits of `b` below the lowest one of `q`. -/
theorem getLsbD_sub_one_and (hd : ∀ i < w, q.getLsbD i = true → b.getLsbD i = false) (i : ℕ) :
    ((q - 1#w) &&& b).getLsbD i = (b.getLsbD i && decide (i < ctz q)) := by
  by_cases hi : i < w
  · rw [BitVec.getLsbD_and, getLsbD_sub_one q hi]
    rcases lt_trichotomy i (ctz q) with h | h | h
    · have h1 := getLsbD_of_lt_ctz q h
      have h2 : ¬ ∃ j < i, q.getLsbD j = true := fun ⟨j, hj, hb⟩ => by
        simp [getLsbD_of_lt_ctz q (hj.trans h)] at hb
      simp [h1, h2, h]
    · have hq : q ≠ 0 := ne_zero_of_ctz_lt (k := w) (by omega) le_rfl
      have hb : q.getLsbD i = true := h ▸ getLsbD_ctz hq
      simp [hd i hi hb]
    · have hq : q ≠ 0 := ne_zero_of_ctz_lt (k := w) (by omega) le_rfl
      have h2 : ∃ j < i, q.getLsbD j = true := ⟨_, h, getLsbD_ctz hq⟩
      have h3 : ¬ i < ctz q := by omega
      cases hqi : q.getLsbD i
      · simp [h2, h3]
      · simp [hd i hi hqi]
  · have h1 : b.getLsbD i = false := BitVec.getLsbD_of_ge _ _ (by omega)
    simp [h1]

/-- `q & (q - 1)` is `q` without its lowest set bit. -/
theorem getLsbD_and_sub_one (i : ℕ) :
    (q &&& (q - 1#w)).getLsbD i = (q.getLsbD i && decide (ctz q < i)) := by
  by_cases hi : i < w
  · rw [BitVec.getLsbD_and, getLsbD_sub_one q hi]
    cases hb : q.getLsbD i
    · simp
    · have hq : q ≠ 0 := fun hz => by simp [hz] at hb
      have hle : ctz q ≤ i := by
        by_contra hc
        simp [getLsbD_of_lt_ctz q (not_le.mp hc)] at hb
      by_cases h : ctz q < i
      · have h2 : ∃ j < i, q.getLsbD j = true := ⟨_, h, getLsbD_ctz hq⟩
        simp [h, h2]
      · have h2 : ¬ ∃ j < i, q.getLsbD j = true := fun ⟨j, hj, hbj⟩ => by
          simp [getLsbD_of_lt_ctz q (show j < ctz q by omega)] at hbj
        simp [h, h2]
  · have h1 : q.getLsbD i = false := BitVec.getLsbD_of_ge _ _ (by omega)
    simp [h1]

theorem sub_one_and_eq_zero (hd : ∀ i < w, q.getLsbD i = true → b.getLsbD i = false) :
    (q - 1#w) &&& b = 0 ↔ ∀ i < ctz q, b.getLsbD i = false := by
  rw [eq_zero_iff]
  constructor
  · intro h i hi
    have := h i (lt_of_lt_of_le hi (ctz_le q))
    rw [getLsbD_sub_one_and q b hd] at this
    simpa [hi] using this
  · intro h i _
    rw [getLsbD_sub_one_and q b hd]
    by_cases hi : i < ctz q
    · simp [h i hi]
    · simp [hi]

end

/-! ### Counting -/

/-- How many `i < n` satisfy `p`. -/
def count (p : ℕ → Bool) : ℕ → ℕ
  | 0 => 0
  | n + 1 => count p n + (p n).toNat

theorem count_congr {p q : ℕ → Bool} : ∀ {n : ℕ}, (∀ i < n, p i = q i) → count p n = count q n
  | 0, _ => rfl
  | n + 1, h => by
    rw [count, count, count_congr fun i hi => h i (by omega), h n (by omega)]

theorem count_head (p : ℕ → Bool) : ∀ n, count p (n + 1) = (p 0).toNat + count (fun i => p (i + 1)) n
  | 0 => by simp [count]
  | n + 1 => by
    rw [count, count_head p n, count]
    omega

theorem count_of_none {p : ℕ → Bool} :
    ∀ {k n : ℕ}, k ≤ n → (∀ i, k ≤ i → i < n → p i = false) → count p n = count p k
  | k, 0, h, _ => by rw [show k = 0 by omega]
  | k, n + 1, h, hp => by
    rcases Nat.lt_or_eq_of_le h with h | rfl
    · rw [count, hp n (by omega) (by omega), count_of_none (by omega) fun i hi hn => hp i hi (by omega)]
      rfl
    · rfl

theorem count_mono (p : ℕ → Bool) {k n : ℕ} (h : k ≤ n) : count p k ≤ count p n := by
  induction n, h using Nat.le_induction with
  | base => exact le_rfl
  | succ n _ ih => exact ih.trans (Nat.le_add_right _ _)

theorem count_le (p : ℕ → Bool) : ∀ n, count p n ≤ n
  | 0 => le_rfl
  | n + 1 => Nat.add_le_add (count_le p n) (Bool.toNat_le (p n))

/-- The number of set bits. -/
def popCount {w : ℕ} (x : BitVec w) : ℕ := count x.getLsbD w

/-- Bits from `k` on cleared, what is counted are the positions below `k`. -/
theorem count_and_lt (p : ℕ → Bool) {n k : ℕ} (h : k ≤ n) :
    count (fun i => p i && decide (i < k)) n = count p k := by
  induction n, h using Nat.le_induction with
  | base => exact count_congr fun i hi => by simp [hi]
  | succ n hn ih =>
    rw [count, ih]
    simp [Nat.not_lt.mpr hn]

/-! ### Parity of the bits up to a position -/

/-- The exclusive or of `f 0 .. f (n - 1)`. -/
def xorUpTo (f : ℕ → Bool) : ℕ → Bool
  | 0 => false
  | n + 1 => xorUpTo f n ^^ f n

theorem xorUpTo_head (f : ℕ → Bool) : ∀ n, xorUpTo f (n + 1) = (f 0 ^^ xorUpTo (fun i => f (i + 1)) n)
  | 0 => by simp [xorUpTo]
  | n + 1 => by
    rw [xorUpTo, xorUpTo_head f n, xorUpTo, Bool.xor_assoc]

/-- The first `n` partial products of the carry-less product, added up. -/
def clmulUpTo {w : ℕ} (x y : BitVec w) : ℕ → BitVec w
  | 0 => 0
  | n + 1 => clmulUpTo x y n ^^^ (if y.getLsbD n then x <<< n else 0)

/-- The low half of the carry-less product. -/
def clmul {w : ℕ} (x y : BitVec w) : BitVec w := clmulUpTo x y w

/-- The carry-less product with all ones. -/
def prefixXor {w : ℕ} (x : BitVec w) : BitVec w := clmul x (BitVec.allOnes w)

theorem getLsbD_clmulUpTo_allOnes {w : ℕ} (x : BitVec w) {i : ℕ} (hi : i < w) : ∀ n ≤ w,
    (clmulUpTo x (BitVec.allOnes w) n).getLsbD i =
      xorUpTo (fun k => decide (k ≤ i) && x.getLsbD (i - k)) n
  | 0, _ => by simp [clmulUpTo, xorUpTo]
  | n + 1, hn => by
    have hn' : (BitVec.allOnes w).getLsbD n = true := by simp; omega
    rw [clmulUpTo, hn', if_pos rfl, BitVec.getLsbD_xor, getLsbD_clmulUpTo_allOnes x hi n (by omega),
      xorUpTo, BitVec.getLsbD_shiftLeft]
    by_cases h : n ≤ i
    · simp [h, hi, Nat.not_lt.mpr h]
    · simp [h, Nat.lt_of_not_le h]

theorem xorUpTo_tail {f : ℕ → Bool} {n k : ℕ} (h : n ≤ k) (hf : ∀ i, n ≤ i → f i = false) :
    xorUpTo f k = xorUpTo f n := by
  induction k, h using Nat.le_induction with
  | base => rfl
  | succ k hk ih => rw [xorUpTo, ih, hf k hk, Bool.xor_false]

theorem getLsbD_prefixXor {w : ℕ} (x : BitVec w) {i : ℕ} (hi : i < w) :
    (prefixXor x).getLsbD i = xorUpTo (fun k => x.getLsbD (i - k)) (i + 1) := by
  rw [prefixXor, clmul, getLsbD_clmulUpTo_allOnes x hi w le_rfl,
    xorUpTo_tail (n := i + 1) hi fun k hk => by simp; omega]
  have : ∀ n ≤ i + 1, xorUpTo (fun k => decide (k ≤ i) && x.getLsbD (i - k)) n =
      xorUpTo (fun k => x.getLsbD (i - k)) n := by
    intro n
    induction n with
    | zero => intro _; rfl
    | succ n ih =>
      intro h
      rw [xorUpTo, xorUpTo, ih (by omega)]
      simp [show n ≤ i by omega]
  exact this _ le_rfl

theorem getLsbD_prefixXor_zero {w : ℕ} (x : BitVec w) (hw : 0 < w) :
    (prefixXor x).getLsbD 0 = x.getLsbD 0 := by
  simp [getLsbD_prefixXor x hw, xorUpTo]

/-- One more position adds that position's bit to the parity. -/
theorem getLsbD_prefixXor_succ {w : ℕ} (x : BitVec w) {i : ℕ} (hi : i + 1 < w) :
    (prefixXor x).getLsbD (i + 1) = ((prefixXor x).getLsbD i ^^ x.getLsbD (i + 1)) := by
  rw [getLsbD_prefixXor x hi, getLsbD_prefixXor x (by omega : i < w), xorUpTo_head]
  simp only [Nat.sub_zero, Nat.add_sub_add_right]
  rw [Bool.xor_comm]

/-! ### The bits below a position -/

theorem getLsbD_shift_sub_one {w k : ℕ} (hk : k < w) (i : ℕ) :
    ((1#w <<< k) - 1#w).getLsbD i = decide (i < k) := by
  have h1 : (1#w <<< k).toNat = 2 ^ k := by
    rw [BitVec.toNat_shiftLeft, BitVec.toNat_ofNat, Nat.one_mod_two_pow (by omega), Nat.one_shiftLeft,
      Nat.mod_eq_of_lt (Nat.pow_lt_pow_right (by omega) hk)]
  have h2 : 2 ^ k < 2 ^ w := Nat.pow_lt_pow_right (by omega) hk
  have h3 : 0 < 2 ^ k := Nat.two_pow_pos k
  have h4 : ((1#w <<< k) - 1#w).toNat = 2 ^ k - 1 := by
    rw [BitVec.toNat_sub, h1, BitVec.toNat_ofNat, Nat.one_mod_two_pow (by omega)]
    rw [show 2 ^ w - 1 + 2 ^ k = 2 ^ k - 1 + 2 ^ w by omega, Nat.add_mod_right,
      Nat.mod_eq_of_lt (by omega)]
  rw [BitVec.getLsbD, h4, Nat.testBit_two_pow_sub_one]

/-- `x` with the bits below `k` cleared. -/
theorem getLsbD_and_not_below {w k : ℕ} (x : BitVec w) (hk : k < w) {i : ℕ} (hi : i < w) :
    (x &&& ~~~((1#w <<< k) - 1#w)).getLsbD i = (x.getLsbD i && decide (k ≤ i)) := by
  rw [BitVec.getLsbD_and, BitVec.getLsbD_not, getLsbD_shift_sub_one hk]
  by_cases h : i < k
  · simp [h, not_le.mpr h]
  · simp [h, hi, not_lt.mp h]

/-! ### The ends of odd runs, by one subtraction -/

/-- `0xAAAA…`: the odd positions. -/
def oddBits (w : ℕ) : BitVec w := ofPred w fun i => i % 2 == 1

theorem getLsbD_sub_eq {w : ℕ} (x y : BitVec w) {i : ℕ} (hi : i < w) :
    (x - y).getLsbD i = (x.getLsbD i ^^ y.getLsbD i ^^ BitVec.carry i (~~~x) y false) := by
  have h : x - y = ~~~(~~~x + y) := by
    have h1 := BitVec.not_eq_neg_add x
    have h2 := BitVec.not_eq_neg_add (~~~x + y)
    rw [h2, h1]
    generalize 1#w = o
    ring
  rw [h, BitVec.getLsbD_not, BitVec.getLsbD_add hi, BitVec.getLsbD_not]
  simp only [hi, decide_true, Bool.true_and]
  cases x.getLsbD i <;> cases y.getLsbD i <;> simp

/-- `((y << 1) | odd) - y`, read against `odd`: set where a run of `y` that began at
an even (odd) position has gone on for an odd (even) number of bits. -/
def oddRunEnds {w : ℕ} (y : BitVec w) : BitVec w := (((y <<< 1) ||| oddBits w) - y) ^^^ oddBits w

/-- Whether position `i` comes after an odd run of `y`. -/
def afterOdd (y : ℕ → Bool) : ℕ → Bool
  | 0 => false
  | i + 1 => y i && !afterOdd y i

/-- The borrow of the subtraction: set inside the runs of `y` that began at an even position. -/
theorem carry_oddRun {w : ℕ} (y : BitVec w) : ∀ i < w,
    BitVec.carry i (~~~((y <<< 1) ||| oddBits w)) y false =
      (decide (0 < i) && y.getLsbD (i - 1) && (afterOdd y.getLsbD i == (i % 2 == 1)))
  | 0, _ => by simp
  | i + 1, hi => by
    rw [BitVec.carry_succ, carry_oddRun y i (by omega)]
    have hx : (~~~((y <<< 1) ||| oddBits w)).getLsbD i =
        !((decide (0 < i) && y.getLsbD (i - 1)) || i % 2 == 1) := by
      rw [BitVec.getLsbD_not, BitVec.getLsbD_or, BitVec.getLsbD_shiftLeft, oddBits, getLsbD_ofPred]
      have hiw : i < w := by omega
      simp only [hiw, decide_true, Bool.true_and]
      rcases Nat.eq_zero_or_pos i with rfl | hpos
      · simp
      · simp [hpos, show ¬ i < 1 by omega]
    have hpar : ((i + 1) % 2 == 1) = !(i % 2 == 1) := by
      rcases Nat.mod_two_eq_zero_or_one i with h | h <;> simp [h, Nat.add_mod]
    rw [hx, hpar, afterOdd]
    rcases Nat.eq_zero_or_pos i with rfl | hpos
    · cases y.getLsbD 0 <;> simp [afterOdd, Bool.atLeastTwo]
    · obtain ⟨k, rfl⟩ : ∃ k, i = k + 1 := ⟨i - 1, by omega⟩
      simp only [afterOdd, Nat.add_sub_cancel, hpos, decide_true, Bool.true_and, Nat.succ_pos,
        Bool.atLeastTwo]
      cases y.getLsbD (k + 1) <;> cases y.getLsbD k <;> cases afterOdd y.getLsbD k <;>
        cases (k + 1) % 2 == 1 <;> rfl

theorem getLsbD_oddRunEnds {w : ℕ} (y : BitVec w) {i : ℕ} (hi : i < w) :
    (oddRunEnds y).getLsbD i = (afterOdd y.getLsbD i ^^ y.getLsbD i) := by
  rw [oddRunEnds, BitVec.getLsbD_xor, getLsbD_sub_eq _ _ hi, carry_oddRun y i hi, BitVec.getLsbD_or,
    BitVec.getLsbD_shiftLeft, oddBits, getLsbD_ofPred]
  simp only [hi, decide_true, Bool.true_and]
  cases i with
  | zero => simp [afterOdd]
  | succ k =>
    simp only [afterOdd, Nat.succ_pos, decide_true, Bool.true_and, Nat.add_sub_cancel,
      show ¬ k + 1 < 1 by omega, decide_false, Bool.not_false]
    cases y.getLsbD (k + 1) <;> cases y.getLsbD k <;> cases afterOdd y.getLsbD k <;>
      cases (k + 1) % 2 == 1 <;> rfl

end Bits
