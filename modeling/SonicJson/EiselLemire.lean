/-
# The conversion by one product

`AtofEiselLemire64` multiplies the mantissa by a truncated power of ten, in a wider step
where the narrow one leaves the rounding open, and rounds the product. `Product` says what
the product tells of the value: the bits above the lowest 73 are those of the value. So
where the function does not give up, the bits it stores are those of the nearest number,
for every value that the truncated power leaves possible
(`AtofEiselLemire64_nearest`).
-/
import SonicJson.Lib.Binary
import SonicJson.Number
import SonicJson.Pow10M128

namespace SonicJson

open Binary

/-- The bits of a word that holds `z`. -/
def u64 (z : ℤ) : ℕ := (z % 2 ^ 64).toNat

/-- `__builtin_clzll`, of a word that is not zero. -/
def LeadingZeroes (input_num : ℕ) : ℕ := 63 - input_num.log2

def MulU64 (x y : ℕ) : ℕ × ℕ := (x * y / 2 ^ 64, x * y % 2 ^ 64)

/-- The product with the upper half of the power, or with all of it where that is not enough; `none`
where neither is. -/
def eiselLemireProduct (mant : ℕ) (pow10 : ℕ × ℕ) : Option (ℕ × ℕ) :=
  let (x_hi, x_lo) := MulU64 mant pow10.2
  if x_hi &&& 0x1FF = 0x1FF ∧ (x_lo + mant) % 2 ^ 64 < mant then
    let (y_hi, y_lo) := MulU64 mant pow10.1
    let merged_lo := (x_lo + y_hi) % 2 ^ 64
    let merged_hi := if merged_lo < x_lo then (x_hi + 1) % 2 ^ 64 else x_hi
    if merged_hi &&& 0x1FF = 0x1FF ∧ (merged_lo + 1) % 2 ^ 64 = 0 ∧
      (y_lo + mant) % 2 ^ 64 < mant then none
    else some (merged_hi, merged_lo)
  else some (x_hi, x_lo)

/-- From the comment `Remain 54 bits` on. -/
def eiselLemireRound (x_hi x_lo ret_exp2 : ℕ) (sgn : ℤ) : Option Double :=
  let msb := x_hi >>> 63
  let ret_man := x_hi >>> (msb + 9)
  let ret_exp2 := u64 (ret_exp2 - (1 ^^^ msb : ℕ))
  if x_lo = 0 ∧ x_hi &&& 0x1FF = 0 ∧ ret_man &&& 3 = 1 then none
  else
    let ret_man := (ret_man + (ret_man &&& 1)) >>> 1
    let (ret_man, ret_exp2) := if 0 < ret_man >>> 53 then (ret_man >>> 1, u64 (ret_exp2 + 1))
      else (ret_man, ret_exp2)
    if 0x7FF - 1 ≤ u64 (ret_exp2 - 1) then none
    else
      let bits : BitVec 64 := BitVec.ofNat 64 (ret_exp2 <<< 52 ||| ret_man &&& 0x000FFFFFFFFFFFFF)
      some (if sgn = -1 then bits ||| 1#64 <<< 63 else bits)

def AtofEiselLemire64 (mant : ℕ) (exp10 sgn : ℤ) : Option Double :=
  if exp10 < -348 ∨ 347 < exp10 then none
  else
    let clz := LeadingZeroes mant
    let mant := (mant <<< clz) % 2 ^ 64
    let ret_exp2 := u64 (217706 * exp10 / 2 ^ 16 + 64 + 1023 - clz)
    match eiselLemireProduct mant (pow10Entry exp10) with
    | none => none
    | some (x_hi, x_lo) => eiselLemireRound x_hi x_lo ret_exp2 sgn

/-! ### Words -/

theorem and_1FF (x : ℕ) : x &&& 0x1FF = x % 2 ^ 9 := Nat.and_two_pow_sub_one_eq_mod x 9

theorem LeadingZeroes_spec {m : ℕ} (h0 : m ≠ 0) (hm : m < 2 ^ 64) :
    LeadingZeroes m < 64 ∧ 2 ^ 63 ≤ m * 2 ^ LeadingZeroes m ∧ m * 2 ^ LeadingZeroes m < 2 ^ 64 := by
  have h1 : m.log2 < 64 := (Nat.log2_lt h0).mpr hm
  have h2 := Nat.log2_self_le h0
  have h3 := @Nat.lt_log2_self m
  unfold LeadingZeroes
  refine ⟨by omega, ?_, ?_⟩
  · calc 2 ^ 63 = 2 ^ m.log2 * 2 ^ (63 - m.log2) := by rw [← pow_add]; congr 1; omega
      _ ≤ m * 2 ^ (63 - m.log2) := Nat.mul_le_mul_right _ h2
  · calc m * 2 ^ (63 - m.log2) < 2 ^ (m.log2 + 1) * 2 ^ (63 - m.log2) :=
        Nat.mul_lt_mul_of_pos_right h3 (Nat.pow_pos (by decide))
      _ = 2 ^ 64 := by rw [← pow_add]; congr 1; omega

theorem u64_eq {z : ℤ} {n : ℕ} (h : z = n) (hn : n < 2 ^ 64) : u64 z = n := by
  unfold u64
  omega

theorem u64_u64_add (z k : ℤ) : u64 (u64 z + k) = u64 (z + k) := by
  unfold u64
  rw [Int.toNat_of_nonneg (Int.emod_nonneg _ (by norm_num)), Int.emod_add_emod]

/-! ### The product -/

/-- The product of 128 bits is not above the value, in units of its last place, and has its upper
bits. -/
structure Product (x_hi x_lo : ℕ) (t : ℚ) : Prop where
  hi_lt : x_hi < 2 ^ 64
  lo_lt : x_lo < 2 ^ 64
  lead : 2 ^ 62 ≤ x_hi
  le : ((x_hi * 2 ^ 64 + x_lo : ℕ) : ℚ) ≤ t
  lt : t < ((x_hi / 2 ^ 9 + 1 : ℕ) : ℚ) * 2 ^ 73

/-- The values that a truncated power leaves possible, in units of the last place of the product. -/
structure Within (m lo hi : ℕ) (t : ℚ) : Prop where
  le : ((m * (hi * 2 ^ 64 + lo) : ℕ) : ℚ) ≤ t * 2 ^ 64
  lt : t * 2 ^ 64 < ((m * (hi * 2 ^ 64 + lo + 1) : ℕ) : ℚ)

section
variable {m lo hi : ℕ} {t : ℚ}

/-- The product with the upper half. -/
theorem Within.narrow (h : Within m lo hi t) (hlo : lo < 2 ^ 64) :
    ((m * hi : ℕ) : ℚ) ≤ t ∧ t < ((m * hi + m : ℕ) : ℚ) := by
  have h1 : m * hi * 2 ^ 64 ≤ m * (hi * 2 ^ 64 + lo) := by nlinarith
  have h2 : m * (hi * 2 ^ 64 + lo + 1) ≤ (m * hi + m) * 2 ^ 64 := by nlinarith
  have hle := h.le
  have hlt := h.lt
  generalize m * (hi * 2 ^ 64 + lo) = T at h1 hle
  generalize m * (hi * 2 ^ 64 + lo + 1) = T' at h2 hlt
  generalize m * hi + m = X' at h2 ⊢
  generalize m * hi = X at h1 ⊢
  have h1' : (X : ℚ) * 2 ^ 64 ≤ T := by exact_mod_cast h1
  have h2' : (T' : ℚ) ≤ X' * 2 ^ 64 := by exact_mod_cast h2
  constructor
  · linarith
  · linarith

/-- The product with both halves, without its last word. -/
theorem Within.wide (h : Within m lo hi t) :
    ((m * hi + m * lo / 2 ^ 64 : ℕ) : ℚ) ≤ t ∧
      t * 2 ^ 64 < (((m * hi + m * lo / 2 ^ 64) * 2 ^ 64 + (m * lo % 2 ^ 64 + m) : ℕ) : ℚ) := by
  have h1 : m * (hi * 2 ^ 64 + lo) = m * hi * 2 ^ 64 + m * lo := by ring
  have h2 : m * (hi * 2 ^ 64 + lo + 1) = m * hi * 2 ^ 64 + m * lo + m := by ring
  have hle := h.le
  have hlt := h.lt
  rw [h1] at hle
  rw [h2] at hlt
  generalize m * hi = X at *
  generalize m * lo = Y at *
  have h3 : (X + Y / 2 ^ 64) * 2 ^ 64 ≤ X * 2 ^ 64 + Y := by omega
  have h4 : X * 2 ^ 64 + Y + m = (X + Y / 2 ^ 64) * 2 ^ 64 + (Y % 2 ^ 64 + m) := by omega
  rw [← h4]
  refine ⟨?_, hlt⟩
  generalize X + Y / 2 ^ 64 = Z at h3 ⊢
  generalize X * 2 ^ 64 + Y = T at h3 hle
  have h3' : (Z : ℚ) * 2 ^ 64 ≤ T := by exact_mod_cast h3
  linarith

/-- The bound above, where nothing of the rest is carried over. -/
theorem lt_of_rest {Z k : ℕ} (h : t < ((Z + k : ℕ) : ℚ)) (hk : Z % 2 ^ 73 + k ≤ 2 ^ 73) :
    t < ((Z / 2 ^ 73 + 1 : ℕ) : ℚ) * 2 ^ 73 := by
  have hZ := Nat.div_add_mod Z (2 ^ 73)
  have : Z + k ≤ (Z / 2 ^ 73 + 1) * 2 ^ 73 := by omega
  calc t < ((Z + k : ℕ) : ℚ) := h
    _ ≤ (((Z / 2 ^ 73 + 1) * 2 ^ 73 : ℕ) : ℚ) := by exact_mod_cast this
    _ = ((Z / 2 ^ 73 + 1 : ℕ) : ℚ) * 2 ^ 73 := by push_cast; ring

/-- The lowest 73 bits of two words. -/
theorem words_mod {a b : ℕ} (hb : b < 2 ^ 64) : (a * 2 ^ 64 + b) % 2 ^ 73 = a % 2 ^ 9 * 2 ^ 64 + b ∧
    (a * 2 ^ 64 + b) / 2 ^ 73 = a / 2 ^ 9 := by
  omega

/-- **What is left of the product has the upper bits of the value.** -/
theorem eiselLemireProduct_spec {x_hi x_lo : ℕ} (hm : 2 ^ 63 ≤ m) (hm' : m < 2 ^ 64)
    (hhi : 2 ^ 63 ≤ hi) (hhi' : hi < 2 ^ 64)
    (hlo : lo < 2 ^ 64) (ht : Within m lo hi t)
    (h : eiselLemireProduct m (lo, hi) = some (x_hi, x_lo)) : Product x_hi x_lo t := by
  have hlead : 2 ^ 126 ≤ m * hi := by
    calc 2 ^ 126 = 2 ^ 63 * 2 ^ 63 := by norm_num
      _ ≤ m * hi := Nat.mul_le_mul hm hhi
  have hmax : m * hi ≤ (2 ^ 64 - 1) * (2 ^ 64 - 1) := Nat.mul_le_mul (by omega) (by omega)
  have hmax' : m * lo ≤ (2 ^ 64 - 1) * (2 ^ 64 - 1) := Nat.mul_le_mul (by omega) (by omega)
  obtain ⟨hn1, hn2⟩ := ht.narrow hlo
  obtain ⟨hw1, hw2⟩ := ht.wide
  unfold eiselLemireProduct MulU64 at h
  simp only [and_1FF] at h
  generalize m * hi = X at *
  generalize m * lo = Y at *
  have hX := Nat.div_add_mod X (2 ^ 64)
  have hXlt : X % 2 ^ 64 < 2 ^ 64 := Nat.mod_lt _ (by norm_num)
  split at h
  · next hwide =>
    -- the merged words are the sum
    have hsum : (if (X % 2 ^ 64 + Y / 2 ^ 64) % 2 ^ 64 < X % 2 ^ 64 then (X / 2 ^ 64 + 1) % 2 ^ 64
        else X / 2 ^ 64) * 2 ^ 64 +
        (X % 2 ^ 64 + Y / 2 ^ 64) % 2 ^ 64 = X + Y / 2 ^ 64 := by
      split <;> omega
    generalize (if (X % 2 ^ 64 + Y / 2 ^ 64) % 2 ^ 64 < X % 2 ^ 64 then (X / 2 ^ 64 + 1) % 2 ^ 64
      else X / 2 ^ 64) = a at *
    have hb : (X % 2 ^ 64 + Y / 2 ^ 64) % 2 ^ 64 < 2 ^ 64 := Nat.mod_lt _ (by norm_num)
    generalize (X % 2 ^ 64 + Y / 2 ^ 64) % 2 ^ 64 = b at *
    have hY : Y % 2 ^ 64 < 2 ^ 64 := Nat.mod_lt _ (by norm_num)
    split at h
    · cases h
    next hamb =>
    obtain ⟨rfl, rfl⟩ := Prod.mk.inj (Option.some.inj h)
    obtain ⟨hmod, hdiv⟩ := @words_mod a b hb
    have hrest : ∃ k, t < ((a * 2 ^ 64 + b + k : ℕ) : ℚ) ∧ (a * 2 ^ 64 + b) % 2 ^ 73 + k ≤ 2 ^ 73 := by
      rw [← hsum] at hw2
      by_cases hcarry : Y % 2 ^ 64 + m < 2 ^ 64
      · refine ⟨1, ?_, by omega⟩
        have : ((a * 2 ^ 64 + b) * 2 ^ 64 + (Y % 2 ^ 64 + m)) ≤ (a * 2 ^ 64 + b + 1) * 2 ^ 64 := by
          omega
        have hq : (((a * 2 ^ 64 + b) * 2 ^ 64 + (Y % 2 ^ 64 + m) : ℕ) : ℚ) ≤
            ((a * 2 ^ 64 + b + 1 : ℕ) : ℚ) * 2 ^ 64 := by
          exact_mod_cast this
        linarith
      · refine ⟨2, ?_, by rw [hmod]; omega⟩
        have : ((a * 2 ^ 64 + b) * 2 ^ 64 + (Y % 2 ^ 64 + m)) ≤ (a * 2 ^ 64 + b + 2) * 2 ^ 64 := by
          omega
        have hq : (((a * 2 ^ 64 + b) * 2 ^ 64 + (Y % 2 ^ 64 + m) : ℕ) : ℚ) ≤
            ((a * 2 ^ 64 + b + 2 : ℕ) : ℚ) * 2 ^ 64 := by
          exact_mod_cast this
        linarith
    obtain ⟨k, hk1, hk2⟩ := hrest
    refine ⟨by omega, hb, by omega, by rw [hsum]; exact hw1, ?_⟩
    rw [← hdiv]
    exact lt_of_rest hk1 hk2
  · next hnarrow =>
    obtain ⟨rfl, rfl⟩ := Prod.mk.inj (Option.some.inj h)
    have hXe : X / 2 ^ 64 * 2 ^ 64 + X % 2 ^ 64 = X := by omega
    obtain ⟨hmod, hdiv⟩ := @words_mod (X / 2 ^ 64) (X % 2 ^ 64) hXlt
    rw [hXe] at hmod hdiv
    refine ⟨by omega, hXlt, by omega, by rw [hXe]; exact hn1, ?_⟩
    rw [← hdiv]
    refine lt_of_rest hn2 ?_
    rw [hmod]
    omega

end

/-! ### Rounding -/

/-- The double with a sign and the bits of a number that is not negative. -/
def signed (sgn : ℤ) (b : ℕ) : Double := BitVec.ofNat 64 (b + if sgn = -1 then 2 ^ 63 else 0)

theorem signed_or {sgn : ℤ} {b : ℕ} (hb : b < 2 ^ 63) :
    (if sgn = -1 then BitVec.ofNat 64 b ||| 1#64 <<< 63 else BitVec.ofNat 64 b) = signed sgn b := by
  unfold signed
  split
  · apply BitVec.eq_of_toNat_eq
    rw [BitVec.toNat_or, BitVec.toNat_ofNat, BitVec.toNat_ofNat, Nat.mod_eq_of_lt (by omega),
      Nat.mod_eq_of_lt (by omega), Nat.add_comm, show (1#64 <<< 63).toNat = 2 ^ 63 from rfl,
      Nat.or_comm]
    simpa using (Nat.two_pow_add_eq_or_of_lt hb 1).symm
  · rfl

/-- The exponent and the fraction beside each other. -/
theorem exp_or_man {E M : ℕ} (h1 : 2 ^ 52 ≤ M) (h2 : M < 2 ^ 53) :
    E <<< 52 ||| M &&& 0x000FFFFFFFFFFFFF = E * 2 ^ 52 + (M - 2 ^ 52) := by
  have hand : M &&& 0x000FFFFFFFFFFFFF = M - 2 ^ 52 := by
    rw [show 0x000FFFFFFFFFFFFF = 2 ^ 52 - 1 by norm_num, Nat.and_two_pow_sub_one_eq_mod]
    omega
  rw [hand, Nat.shiftLeft_eq, Nat.mul_comm, ← Nat.two_pow_add_eq_or_of_lt (by omega)]

theorem u64_lt {z : ℤ} (hz : |z| < 2 ^ 32) (h : ¬ 0x7FF - 1 ≤ u64 (z - 1)) : 1 ≤ z ∧ z ≤ 0x7FE := by
  have := abs_lt.mp hz
  unfold u64 at h
  omega

section
variable {x_hi x_lo : ℕ} {t : ℚ}

/-- The upper 54 bits of the product are those of the value. -/
theorem Product.upper (h : Product x_hi x_lo t) :
    2 ^ 53 ≤ x_hi / 2 ^ (x_hi / 2 ^ 63 + 9) ∧ x_hi / 2 ^ (x_hi / 2 ^ 63 + 9) < 2 ^ 54 ∧
      ((x_hi / 2 ^ (x_hi / 2 ^ 63 + 9) : ℕ) : ℚ) * 2 ^ (73 + x_hi / 2 ^ 63) ≤ t ∧
      t < ((x_hi / 2 ^ (x_hi / 2 ^ 63 + 9) + 1 : ℕ) : ℚ) * 2 ^ (73 + x_hi / 2 ^ 63) := by
  have h1 := h.hi_lt
  have h2 := h.lead
  have hle := h.le
  have hlt := h.lt
  rcases Nat.lt_or_ge x_hi (2 ^ 63) with hmsb | hmsb
  · have h0 : x_hi / 2 ^ 63 = 0 := by omega
    rw [h0, Nat.zero_add, Nat.add_zero]
    refine ⟨by omega, by omega, ?_, hlt⟩
    have : x_hi / 2 ^ 9 * 2 ^ 73 ≤ x_hi * 2 ^ 64 + x_lo := by omega
    calc ((x_hi / 2 ^ 9 : ℕ) : ℚ) * 2 ^ 73 = ((x_hi / 2 ^ 9 * 2 ^ 73 : ℕ) : ℚ) := by push_cast; ring
      _ ≤ ((x_hi * 2 ^ 64 + x_lo : ℕ) : ℚ) := by exact_mod_cast this
      _ ≤ t := hle
  · have h0 : x_hi / 2 ^ 63 = 1 := by omega
    rw [h0]
    refine ⟨by omega, by omega, ?_, ?_⟩
    · have : x_hi / 2 ^ (1 + 9) * 2 ^ (73 + 1) ≤ x_hi * 2 ^ 64 + x_lo := by omega
      calc ((x_hi / 2 ^ (1 + 9) : ℕ) : ℚ) * 2 ^ (73 + 1) =
        ((x_hi / 2 ^ (1 + 9) * 2 ^ (73 + 1) : ℕ) : ℚ) := by push_cast; ring
        _ ≤ ((x_hi * 2 ^ 64 + x_lo : ℕ) : ℚ) := by exact_mod_cast this
        _ ≤ t := hle
    · have : (x_hi / 2 ^ 9 + 1) * 2 ^ 73 ≤ (x_hi / 2 ^ (1 + 9) + 1) * 2 ^ (73 + 1) := by omega
      calc t < ((x_hi / 2 ^ 9 + 1 : ℕ) : ℚ) * 2 ^ 73 := hlt
        _ = (((x_hi / 2 ^ 9 + 1) * 2 ^ 73 : ℕ) : ℚ) := by push_cast; ring
        _ ≤ (((x_hi / 2 ^ (1 + 9) + 1) * 2 ^ (73 + 1) : ℕ) : ℚ) := by exact_mod_cast this
        _ = ((x_hi / 2 ^ (1 + 9) + 1 : ℕ) : ℚ) * 2 ^ (73 + 1) := by push_cast; ring

/-- A value that is half-way has nothing below these bits. -/
theorem Product.exact (h : Product x_hi x_lo t)
    (ht : t = ((x_hi / 2 ^ (x_hi / 2 ^ 63 + 9) : ℕ) : ℚ) * 2 ^ (73 + x_hi / 2 ^ 63)) :
    x_lo = 0 ∧ x_hi % 2 ^ 9 = 0 := by
  have h1 := h.hi_lt
  have hle := h.le
  have hle' : x_hi * 2 ^ 64 + x_lo ≤ x_hi / 2 ^ (x_hi / 2 ^ 63 + 9) * 2 ^ (73 + x_hi / 2 ^ 63) := by
    rw [ht] at hle
    exact_mod_cast hle
  rcases Nat.lt_or_ge x_hi (2 ^ 63) with hmsb | hmsb
  · have h0 : x_hi / 2 ^ 63 = 0 := by omega
    rw [h0] at hle'
    omega
  · have h0 : x_hi / 2 ^ 63 = 1 := by omega
    rw [h0] at hle'
    omega

/-- The significand before rounding, what is left of the value, and when it is rounded up. -/
theorem Product.split (h : Product x_hi x_lo t)
    (hhalf : ¬ (x_lo = 0 ∧ x_hi % 2 ^ 9 = 0 ∧ x_hi / 2 ^ (x_hi / 2 ^ 63 + 9) % 4 = 1)) :
    ∃ r : ℚ, t = ((x_hi / 2 ^ (x_hi / 2 ^ 63 + 9) / 2 : ℕ) + r) * 2 ^ (74 + x_hi / 2 ^ 63) ∧
      0 ≤ r ∧ r < 1 ∧
      (decide (x_hi / 2 ^ (x_hi / 2 ^ 63 + 9) % 2 = 1) = true ↔
        1 / 2 < r ∨ r = 1 / 2 ∧ x_hi / 2 ^ (x_hi / 2 ^ 63 + 9) / 2 % 2 = 1) ∧
      (x_hi / 2 ^ (x_hi / 2 ^ 63 + 9) % 2 = 1 → 1 / 2 ≤ r) := by
  obtain ⟨-, -, h3, h4⟩ := h.upper
  have hexact := h.exact
  generalize x_hi / 2 ^ (x_hi / 2 ^ 63 + 9) = N at *
  generalize x_hi / 2 ^ 63 = msb at *
  have hunit : (0 : ℚ) < 2 ^ (73 + msb) := by positivity
  have hunit2 : (2 : ℚ) ^ (74 + msb) = 2 * 2 ^ (73 + msb) := by
    rw [show 74 + msb = 73 + msb + 1 by omega, pow_succ]
    ring
  push_cast at h4
  have hN : (N : ℚ) = 2 * (N / 2 : ℕ) + (N % 2 : ℕ) := by exact_mod_cast (Nat.div_add_mod N 2).symm
  have hy : N ≤ t / 2 ^ (73 + msb) := (le_div_iff₀ hunit).mpr h3
  have hy' : t / 2 ^ (73 + msb) < N + 1 := (div_lt_iff₀ hunit).mpr h4
  have hty : t = t / 2 ^ (73 + msb) * 2 ^ (73 + msb) := (div_mul_cancel₀ t hunit.ne').symm
  generalize t / 2 ^ (73 + msb) = y at hy hy' hty
  have hmod : (N % 2 : ℕ) = 0 ∨ (N % 2 : ℕ) = 1 := Nat.mod_two_eq_zero_or_one N
  refine ⟨(y - 2 * (N / 2 : ℕ)) / 2, ?_, ?_, ?_, ?_, ?_⟩
  · rw [hunit2, hty]
    ring
  · have : (0 : ℚ) ≤ (N % 2 : ℕ) := Nat.cast_nonneg _
    linarith
  · have : ((N % 2 : ℕ) : ℚ) ≤ 1 := by exact_mod_cast (show N % 2 ≤ 1 by omega)
    linarith
  · rw [decide_eq_true_iff]
    rcases hmod with h0 | h1
    · rw [h0] at hN ⊢
      push_cast at hN
      constructor
      · exact fun hc => absurd hc (by decide)
      · rintro (hr | ⟨hr, -⟩) <;> linarith
    · rw [h1] at hN ⊢
      push_cast at hN
      refine ⟨fun _ => ?_, fun _ => rfl⟩
      rcases lt_or_eq_of_le hy with hlt | heq
      · exact .inl (by linarith)
      · refine .inr ⟨by linarith, ?_⟩
        obtain ⟨hlo, hhi⟩ := hexact (by rw [hty, ← heq])
        have : ¬ N % 4 = 1 := fun hc => hhalf ⟨hlo, hhi, hc⟩
        omega
  · intro h1
    rw [h1] at hN
    push_cast at hN
    linarith

/-- The bits of the significand `n` and the exponent `E` of the format, or of the next number, and
which it is. -/
theorem nearest_bits {x r : ℚ} {n : ℕ} {E : ℤ} {up : Bool} (h1 : 2 ^ 52 ≤ n) (h2 : n < 2 ^ 53)
    (hE : 1 ≤ E ∨ E = 0 ∧ n + up.toNat = 2 ^ 53) (hx : x = (n + r) * 2 ^ (E - 1075)) (h0 : 0 ≤ r)
    (hr : r < 1) (hup : up = true ↔ 1 / 2 < r ∨ r = 1 / 2 ∧ n % 2 = 1)
    (hlt : (E - 1) * 2 ^ 52 + n < 2047 * 2 ^ 52) :
    binary64.Nearest x ((E - 1) * 2 ^ 52 + (n + up.toNat : ℕ)).toNat := by
  rcases hE with hE | ⟨rfl, hn⟩
  · have hfit : binary64.Fits (E - 1).toNat n := ⟨fun h => absurd h (not_lt.mpr h1), h2⟩
    have henc : (binary64.enc (E - 1).toNat n : ℤ) = (E - 1) * 2 ^ 52 + n := by
      unfold Format.enc binary64
      push_cast
      rw [Int.toNat_of_nonneg (by omega)]
    have hinf : binary64.enc (E - 1).toNat n < binary64.inf := by
      have : (binary64.inf : ℤ) = 2047 * 2 ^ 52 := rfl
      omega
    have hulp : binary64.ulp (E - 1).toNat = 2 ^ (E - 1075) := by
      unfold Format.ulp binary64
      dsimp only
      rw [Int.toNat_of_nonneg (by omega)]
      congr 1
      omega
    have hnear := @Format.nearest_floor binary64 _ n x r up hfit hinf (by rw [hulp]; exact hx) h0 hr hup
    have hbits : ((E - 1) * 2 ^ 52 + (n + up.toNat : ℕ)).toNat =
        binary64.enc (E - 1).toNat n + up.toNat := by
      push_cast
      omega
    rw [hbits]
    exact hnear
  · -- the least of the numbers with a leading bit, from below
    have hone : up = true := by
      cases up
      · exact absurd hn (by simp only [Bool.toNat_false]; omega)
      · rfl
    subst hone
    have hn' : n = 2 ^ 53 - 1 := by
      simp only [Bool.toNat_true] at hn
      omega
    have hhalf : 1 / 2 ≤ r := by
      rcases hup.mp rfl with h | ⟨h, -⟩ <;> linarith
    have hfit : binary64.Fits 0 (2 ^ 52 - 1) := ⟨fun _ => rfl, by unfold binary64; norm_num⟩
    have hinf : binary64.enc 0 (2 ^ 52 - 1) < binary64.inf := by decide
    have hulp : binary64.ulp 0 = 2 * 2 ^ ((0 : ℤ) - 1075) := by
      unfold Format.ulp binary64
      dsimp only
      rw [show ((0 : ℕ) : ℤ) + -1074 = (0 : ℤ) - 1075 + 1 by norm_num, zpow_add_one₀ (by norm_num)]
      ring
    have hnear := @Format.nearest_floor binary64 0 (2 ^ 52 - 1) x ((1 + r) / 2) true hfit hinf
      (by
        rw [hulp, hx, hn']
        generalize (2 : ℚ) ^ ((0 : ℤ) - 1075) = u
        push_cast
        ring)
      (by linarith) (by linarith) (by
        refine ⟨fun _ => .inl (by linarith), fun _ => rfl⟩)
    have hbits : ((0 - 1 : ℤ) * 2 ^ 52 + (n + true.toNat : ℕ)).toNat =
        binary64.enc 0 (2 ^ 52 - 1) + true.toNat := by
      rw [hn]
      rfl
    rw [hbits]
    exact hnear

/-- The exponent `F` and the significand `M` are those of the rounded product. -/
theorem Product.nearest {z : ℤ} {F M : ℕ} (h : Product x_hi x_lo t)
    (hhalf : ¬ (x_lo = 0 ∧ x_hi % 2 ^ 9 = 0 ∧ x_hi / 2 ^ (x_hi / 2 ^ 63 + 9) % 4 = 1)) (hF : 1 ≤ F)
    (hF' : F ≤ 0x7FE) (hM : 2 ^ 52 ≤ M) (hM' : M < 2 ^ 53)
    (heq : ((F : ℤ) - 1) * 2 ^ 52 + M = (z + ((x_hi / 2 ^ 63 : ℕ) - 1) - 1) * 2 ^ 52 +
      (x_hi / 2 ^ (x_hi / 2 ^ 63 + 9) / 2 +
        (decide (x_hi / 2 ^ (x_hi / 2 ^ 63 + 9) % 2 = 1)).toNat : ℕ)) :
    binary64.Nearest (t * 2 ^ (z - 1150)) (F * 2 ^ 52 + (M - 2 ^ 52)) := by
  obtain ⟨hN1, hN2, -, -⟩ := h.upper
  obtain ⟨r, hr1, hr2, hr3, hr4, -⟩ := h.split hhalf
  generalize x_hi / 2 ^ (x_hi / 2 ^ 63 + 9) = N at *
  generalize x_hi / 2 ^ 63 = msb at *
  have hup1 : (decide (N % 2 = 1)).toNat ≤ 1 := Bool.toNat_le _
  have hE : z - 1150 + (74 + msb : ℕ) = z + ((msb : ℤ) - 1) - 1075 := by
    push_cast
    ring
  generalize z + ((msb : ℤ) - 1) = E at *
  have hx : t * 2 ^ (z - 1150) = ((N / 2 : ℕ) + r) * 2 ^ (E - 1075) := by
    rw [hr1, mul_assoc, ← zpow_natCast, ← zpow_add₀ (by norm_num), add_comm ((74 + msb : ℕ) : ℤ), hE]
  have hnear := nearest_bits (E := E) (by omega) (by omega) (by omega) hx hr2 hr3 hr4 (by omega)
  have hb : ((E - 1) * 2 ^ 52 + (N / 2 + (decide (N % 2 = 1)).toNat : ℕ)).toNat =
    F * 2 ^ 52 + (M - 2 ^ 52) := by omega
  rwa [hb] at hnear

/-- **The bits stored are those of the nearest number**, for every value that the product stands for. -/
theorem eiselLemireRound_spec {z sgn : ℤ} {d : Double} (hz : |z| < 2 ^ 31) (h1 : x_hi < 2 ^ 64)
    (h2 : 2 ^ 62 ≤ x_hi) (h : eiselLemireRound x_hi x_lo (u64 z) sgn = some d) :
    ∃ b, d = signed sgn b ∧ 2 ^ 52 ≤ b ∧ b < binary64.inf ∧
      ∀ t, Product x_hi x_lo t → binary64.Nearest (t * 2 ^ (z - 1150)) b := by
  have hinf : binary64.inf = 2047 * 2 ^ 52 := rfl
  have hzb := abs_lt.mp hz
  have hmsb : x_hi / 2 ^ 63 = 0 ∨ x_hi / 2 ^ 63 = 1 := by omega
  have hN : 2 ^ 53 ≤ x_hi / 2 ^ (x_hi / 2 ^ 63 + 9) ∧ x_hi / 2 ^ (x_hi / 2 ^ 63 + 9) < 2 ^ 54 := by
    rcases hmsb with h0 | h0 <;> rw [h0] <;> omega
  have hxor : ((1 ^^^ x_hi / 2 ^ 63 : ℕ) : ℤ) = 1 - (x_hi / 2 ^ 63 : ℕ) := by
    rcases hmsb with h0 | h0 <;> rw [h0] <;> rfl
  have hnearest := fun t => @Product.nearest x_hi x_lo t z
  unfold eiselLemireRound at h
  simp only [Nat.shiftRight_eq_div_pow, and_1FF, hxor] at h
  generalize x_hi / 2 ^ (x_hi / 2 ^ 63 + 9) = N at *
  generalize x_hi / 2 ^ 63 = msb at *
  rw [show N &&& 3 = N % 4 from Nat.and_two_pow_sub_one_eq_mod N 2, show N &&& 1 = N % 2 from
    Nat.and_two_pow_sub_one_eq_mod N 1] at h
  rw [show ((u64 z : ℕ) : ℤ) - (1 - (msb : ℤ)) = (u64 z : ℤ) + ((msb : ℤ) - 1) by ring,
    u64_u64_add z ((msb : ℤ) - 1)] at h
  split at h
  · cases h
  next hhalf =>
  -- the significand is rounded
  have hman : (N + N % 2) / 2 ^ 1 = N / 2 + (decide (N % 2 = 1)).toNat := by
    rcases Nat.mod_two_eq_zero_or_one N with h0 | h0
    · rw [h0]
      simp
    · rw [h0]
      simp
      omega
  rw [hman] at h
  have hup1 : (decide (N % 2 = 1)).toNat ≤ 1 := Bool.toNat_le _
  have hE : |z + ((msb : ℤ) - 1)| < 2 ^ 32 - 1 := by
    rw [abs_lt]
    omega
  generalize z + ((msb : ℤ) - 1) = E at *
  have hEb := abs_lt.mp hE
  generalize N / 2 + (decide (N % 2 = 1)).toNat = S at *
  by_cases hover : 0 < S / 2 ^ 53
  · rw [if_pos hover, u64_u64_add] at h
    dsimp only at h
    split at h
    · cases h
    next hrange =>
    rw [show ((u64 (E + 1) : ℕ) : ℤ) - 1 = (u64 (E + 1) : ℤ) + -1 by ring, u64_u64_add] at hrange
    obtain ⟨hE1, hE2⟩ := @u64_lt (E + 1) (by rw [abs_lt]; omega) hrange
    rw [u64_eq (Int.toNat_of_nonneg (show 0 ≤ E + 1 by omega)).symm (by omega),
      @exp_or_man (E + 1).toNat (S / 2 ^ 1) (by omega) (by omega)] at h
    refine ⟨_, ?_, ?_, ?_, fun t ht =>
      hnearest t ht hhalf (F := (E + 1).toNat) (M := S / 2 ^ 1) (by omega) (by omega) (by omega)
      (by omega) (by omega)⟩
    · rw [← Option.some.inj h]
      exact signed_or (by omega)
    · omega
    · omega
  · rw [if_neg hover] at h
    dsimp only at h
    split at h
    · cases h
    next hrange =>
    rw [show ((u64 E : ℕ) : ℤ) - 1 = (u64 E : ℤ) + -1 by ring, u64_u64_add] at hrange
    obtain ⟨hE1, hE2⟩ := @u64_lt E (by rw [abs_lt]; omega) hrange
    rw [u64_eq (Int.toNat_of_nonneg (show 0 ≤ E by omega)).symm (by omega),
      @exp_or_man E.toNat S (by omega) (by omega)] at h
    refine ⟨_, ?_, ?_, ?_,
      fun t ht => hnearest t ht hhalf (F := E.toNat) (M := S) (by omega) (by omega) (by omega)
      (by omega) (by omega)⟩
    · rw [← Option.some.inj h]
      exact signed_or (by omega)
    · omega
    · omega

end

/-! ### The conversion -/

/-- What the truncated power leaves possible for `mant * 10 ^ exp10`. -/
structure Possible (mant : ℕ) (exp10 : ℤ) (v : ℚ) : Prop where
  le : (mant : ℚ) * (((pow10Entry exp10).2 * 2 ^ 64 + (pow10Entry exp10).1 : ℕ) : ℚ) *
    2 ^ pow10Exp2 exp10 ≤ v
  lt : v < (mant : ℚ) * ((((pow10Entry exp10).2 * 2 ^ 64 + (pow10Entry exp10).1 : ℕ) : ℚ) + 1) *
    2 ^ pow10Exp2 exp10

/-- The value itself is one. -/
theorem Possible.value {mant : ℕ} {exp10 : ℤ} (hm : mant ≠ 0) (h0 : -348 ≤ exp10) (h1 : exp10 ≤ 347) :
    Possible mant exp10 (mant * 10 ^ exp10) := by
  have h := kPow10M128Tab_floor h0 h1
  have hpos : (0 : ℚ) < mant := by exact_mod_cast Nat.pos_of_ne_zero hm
  constructor
  · rw [mul_assoc]
    exact mul_le_mul_of_nonneg_left h.le hpos.le
  · rw [mul_assoc]
    exact mul_lt_mul_of_pos_left h.lt hpos

/-- In units of the product's last place. -/
theorem Possible.within {mant : ℕ} {exp10 : ℤ} {v : ℚ} (h : Possible mant exp10 v) (clz : ℕ) :
    Within (mant * 2 ^ clz) (pow10Entry exp10).1 (pow10Entry exp10).2
      (v * 2 ^ (clz - 64 - pow10Exp2 exp10)) := by
  have hunit : (0 : ℚ) < 2 ^ ((clz : ℤ) - pow10Exp2 exp10) := zpow_pos (by norm_num) _
  have hscale : ∀ x : ℚ, x * 2 ^ pow10Exp2 exp10 * 2 ^ ((clz : ℤ) - pow10Exp2 exp10) = x * 2 ^ clz := by
    intro x
    rw [mul_assoc, ← zpow_add₀ (by norm_num),
      show pow10Exp2 exp10 + ((clz : ℤ) - pow10Exp2 exp10) = (clz : ℤ) by ring, zpow_natCast]
  have hv : v * 2 ^ ((clz : ℤ) - 64 - pow10Exp2 exp10) * 2 ^ 64 =
      v * 2 ^ ((clz : ℤ) - pow10Exp2 exp10) := by
    rw [mul_assoc, ← zpow_natCast (2 : ℚ) 64, ← zpow_add₀ (by norm_num)]
    congr 2
    push_cast
    ring
  constructor
  · rw [hv]
    have := mul_le_mul_of_nonneg_right h.le hunit.le
    rw [hscale] at this
    push_cast at this ⊢
    linarith
  · rw [hv]
    have := mul_lt_mul_of_pos_right h.lt hunit
    rw [hscale] at this
    push_cast at this ⊢
    linarith

/-- **The conversion is sound.** Where it does not give up, the bits are those of the nearest number
to `mant * 10 ^ exp10`, which has its leading bit and is finite; and they are for every value that
the truncated power leaves possible. -/
theorem AtofEiselLemire64_nearest (mant : ℕ) (hm0 : mant ≠ 0) (hm : mant < 2 ^ 64) (exp10 sgn : ℤ)
    (d : Double) (h : AtofEiselLemire64 mant exp10 sgn = some d) :
    ∃ b, d = signed sgn b ∧ 2 ^ 52 ≤ b ∧ b < binary64.inf ∧ binary64.Nearest (mant * 10 ^ exp10) b ∧
      ∀ v, Possible mant exp10 v → binary64.Nearest v b := by
  unfold AtofEiselLemire64 at h
  split at h
  · cases h
  next hrange =>
  have h0 : -348 ≤ exp10 := by omega
  have h1 : exp10 ≤ 347 := by omega
  have htab := kPow10M128Tab_floor h0 h1
  obtain ⟨hc, hn1, hn2⟩ := LeadingZeroes_spec hm0 hm
  dsimp only at h
  rw [Nat.shiftLeft_eq, Nat.mod_eq_of_lt hn2] at h
  split at h
  · cases h
  next x_hi x_lo hprod =>
  have hprod' : ∀ v, Possible mant exp10 v →
    Product x_hi x_lo (v * 2 ^ (LeadingZeroes mant - 64 - pow10Exp2 exp10)) := fun v hv =>
    eiselLemireProduct_spec hn1 hn2 htab.lead htab.hi_lt htab.lo_lt (hv.within _) hprod
  have hvalue := Possible.value hm0 h0 h1
  have hone := hprod' _ hvalue
  have hz : |217706 * exp10 / 2 ^ 16 + 64 + 1023 - (LeadingZeroes mant : ℤ)| < 2 ^ 31 := by
    rw [abs_lt]
    omega
  obtain ⟨b, hd, hb1, hb2, hb⟩ := eiselLemireRound_spec hz hone.hi_lt hone.lead h
  have hall : ∀ v, Possible mant exp10 v → binary64.Nearest v b := by
    intro v hv
    have := hb _ (hprod' v hv)
    rwa [mul_assoc, ← zpow_add₀ (by norm_num), show (LeadingZeroes mant : ℤ) - 64 - pow10Exp2 exp10 +
      (217706 * exp10 / 2 ^ 16 + 64 + 1023 - (LeadingZeroes mant : ℤ) - 1150) = 0 by
        unfold pow10Exp2; ring, zpow_zero, mul_one] at this
  exact ⟨b, hd, hb1, hb2, hall _ hvalue, hall⟩

/-- **The conversion is sound.** What it stores is the nearest number; it gives up where the
truncated power leaves two numbers possible, and where the nearest number has no leading bit or is
the infinity. -/
theorem AtofEiselLemire64_sound (mant : ℕ) (hm0 : mant ≠ 0) (hm : mant < 2 ^ 64) (exp10 sgn : ℤ) :
    (∀ d, AtofEiselLemire64 mant exp10 sgn = some d → ∃ b, d = signed sgn b ∧
    binary64.Nearest (mant * 10 ^ exp10) b) ∧
    (∀ v w b c, Possible mant exp10 v → Possible mant exp10 w → binary64.Nearest v b →
    binary64.Nearest w c → b ≠ c →
      AtofEiselLemire64 mant exp10 sgn = none) ∧
    ∀ b, binary64.Nearest (mant * 10 ^ exp10) b → b < 2 ^ 52 ∨ b = binary64.inf →
      AtofEiselLemire64 mant exp10 sgn = none := by
  have hnear := fun d => AtofEiselLemire64_nearest mant hm0 hm exp10 sgn d
  refine ⟨fun d hd => ?_, fun v w b c hv hw hb hc hne => ?_, fun b hb hout => ?_⟩
  · obtain ⟨b, h1, -, -, h2, -⟩ := hnear d hd
    exact ⟨b, h1, h2⟩
  · rw [Option.eq_none_iff_forall_ne_some]
    intro d hd
    obtain ⟨a, -, -, -, -, hall⟩ := hnear d hd
    exact hne ((hb.unique (hall v hv)).trans ((hall w hw).unique hc))
  · rw [Option.eq_none_iff_forall_ne_some]
    intro d hd
    obtain ⟨a, -, h1, h2, h3, -⟩ := hnear d hd
    obtain rfl := hb.unique h3
    omega

/-- `15e1`. -/
theorem AtofEiselLemire64_sound_int :
    ∃ b, AtofEiselLemire64 15 1 1 = some (signed 1 b) ∧
      binary64.Nearest ((15 : ℕ) * 10 ^ (1 : ℤ)) b := by
  have h : AtofEiselLemire64 15 1 1 = some 0x4062C00000000000#64 := by decide +kernel
  obtain ⟨b, h1, h2⟩ := (AtofEiselLemire64_sound 15 (by decide) (by decide) 1 1).1 _ h
  exact ⟨b, h1 ▸ h, h2⟩

end SonicJson
