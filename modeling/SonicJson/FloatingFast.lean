/-
# The conversion by one product of exact numbers

A mantissa of 52 bits and a power of ten up to `10 ^ 22` are both numbers of the format, so
their product or quotient is rounded once. For exponents up to 37 a part of the power is
multiplied in first: below `10 ^ 15` that product is exact too
(`parseFloatingFast_nearest`).
-/
import SonicJson.NormalFast
import SonicJson.Decimal

namespace SonicJson

open Binary

/-- `a * b`, for doubles that are not negative. -/
def mulDouble (a b : ℕ) : ℕ := binary64.round (binary64.val a * binary64.val b)

/-- `a / b`, for doubles that are not negative. -/
def divDouble (a b : ℕ) : ℕ := binary64.round (binary64.val a / binary64.val b)

/-- The entry `1e+n` of the table, for `n` up to 22. -/
def kPow10Tab (n : ℕ) : ℕ := binary64.round (10 ^ n)

def parseFloatingFast (exp10 : ℤ) (man : ℕ) : Option Double :=
  let d := binary64.round man
  if 0 < exp10 then
    if 22 < exp10 then
      let d := mulDouble d (kPow10Tab (exp10 - 22).toNat)
      if binary64.val (kPow10Tab 15) < binary64.val d then none
      else some (BitVec.ofNat 64 (mulDouble d (kPow10Tab 22)))
    else some (BitVec.ofNat 64 (mulDouble d (kPow10Tab exp10.toNat)))
  else some (BitVec.ofNat 64 (divDouble d (kPow10Tab (-exp10).toNat)))

/-- The conversions of the parser. The slow one is told the length of what is left of the text as an
`int`. -/
def floatConv : FloatConv where
  u64 man := BitVec.ofNat 64 (binary64.round man)
  parseFloatingFast := parseFloatingFast
  ParseFloatingNormalFast := ParseFloatingNormalFast
  AtofEiselLemire64 := AtofEiselLemire64
  AtofNative buf := (AtofNative 2048 buf (toInt32 buf.length)).getD 0

/-! ### Exact numbers -/

theorem binary64_val_inf : binary64.val binary64.inf = 2 ^ 1024 := by
  have h := @Format.val_enc binary64 2046 (2 ^ 52) ⟨fun h => absurd h (by decide), by decide⟩
  have he : binary64.enc 2046 (2 ^ 52) = binary64.inf := rfl
  rw [← he, h]
  have hulp : binary64.ulp 2046 = 2 ^ 972 := rfl
  rw [hulp, Nat.cast_pow, Nat.cast_ofNat, ← pow_add]

theorem le_val_inf {x : ℚ} (h : x ≤ 2 ^ 128) : x ≤ binary64.val binary64.inf := by
  rw [binary64_val_inf]
  exact h.trans (pow_le_pow_right₀ (by norm_num) (by norm_num))

/-- An integer of 53 bits. -/
theorem val_round_nat {n : ℕ} (hn : n < 2 ^ 53) : binary64.val (binary64.round n) = n := by
  have hinf : ((n : ℚ) * 2 ^ (0 : ℤ)) ≤ binary64.val binary64.inf := by
    apply le_val_inf
    rw [zpow_zero, mul_one]
    exact_mod_cast (by omega : n ≤ 2 ^ 128)
  have := @Format.val_round binary64 n 0 hn (by decide) hinf
  rwa [zpow_zero, mul_one] at this

theorem val_kPow10Tab {n : ℕ} (hn : n ≤ 22) : binary64.val (kPow10Tab n) = 10 ^ n := by
  have h5 : 5 ^ n < 2 ^ 53 := lt_of_le_of_lt (Nat.pow_le_pow_right (by decide) hn) (by decide)
  have h10 : (10 : ℚ) ^ n = (5 ^ n : ℕ) * 2 ^ (n : ℤ) := by
    rw [zpow_natCast]
    push_cast
    rw [← mul_pow]
    norm_num
  have hinf : ((5 ^ n : ℕ) : ℚ) * 2 ^ (n : ℤ) ≤ binary64.val binary64.inf := by
    apply le_val_inf
    rw [← h10]
    calc (10 : ℚ) ^ n ≤ 10 ^ 22 := pow_le_pow_right₀ (by norm_num) hn
      _ ≤ 2 ^ 128 := by norm_num
  unfold kPow10Tab
  rw [h10]
  exact Format.val_round h5 (show (-1074 : ℤ) ≤ n by omega) hinf

/-- What is below `10 ^ 38` rounds to a finite number. -/
theorem nearest_finite {x : ℚ} {b : ℕ} (hx : x ≤ 10 ^ 38) (h : binary64.Nearest x b) :
    b < binary64.inf := by
  have hbig := @Format.nearest_round binary64 (10 ^ 38) (by norm_num)
  have hle := h.mono hbig hx
  have hlt : binary64.round (10 ^ 38) < binary64.inf := by decide +kernel
  omega

/-- **One rounding.** What the fast conversion gives is the number nearest to `man * 10 ^ exp10`,
and finite. -/
theorem parseFloatingFast_nearest {exp10 : ℤ} {man : ℕ} (hm : man < 2 ^ 52) (h0 : -22 ≤ exp10)
    (h1 : exp10 ≤ 22 + 15) {d : Double} (h : parseFloatingFast exp10 man = some d) :
    ∃ b, d = BitVec.ofNat 64 b ∧ b < binary64.inf ∧ binary64.Nearest (man * 10 ^ exp10) b := by
  have hman : binary64.val (binary64.round man) = man := val_round_nat (by omega)
  have hman' : (man : ℚ) ≤ 2 ^ 52 := by exact_mod_cast hm.le
  -- the last rounding
  have hlast : ∀ x : ℚ, 0 ≤ x → x ≤ 10 ^ 38 → x = man * 10 ^ exp10 →
      d = BitVec.ofNat 64 (binary64.round x) →
      ∃ b, d = BitVec.ofNat 64 b ∧ b < binary64.inf ∧ binary64.Nearest (man * 10 ^ exp10) b := by
    intro x hx hx' heq hd
    exact ⟨_, hd, nearest_finite hx' (Format.nearest_round hx), heq ▸ Format.nearest_round hx⟩
  unfold parseFloatingFast mulDouble divDouble at h
  dsimp only at h
  split_ifs at h with hpos hbig hmax
  · -- the product with a part of the power is an integer below `10 ^ 15`
    have hd := (Option.some.inj h).symm
    obtain ⟨k, hk, hk'⟩ : ∃ k : ℕ, exp10 = k + 22 ∧ k ≤ 15 := ⟨(exp10 - 22).toNat, by omega, by omega⟩
    have hsub : (exp10 - 22).toNat = k := by omega
    rw [hsub, hman, val_kPow10Tab (show k ≤ 22 by omega),
      val_kPow10Tab (show 15 ≤ 22 by decide)] at hmax
    rw [hsub, hman, val_kPow10Tab (show k ≤ 22 by omega), val_kPow10Tab (le_refl 22)] at hd
    have hcast : (man : ℚ) * 10 ^ k = ((man * 10 ^ k : ℕ) : ℚ) := by push_cast; rfl
    have hexact : binary64.val (binary64.round ((man : ℚ) * 10 ^ k)) = (man : ℚ) * 10 ^ k := by
      rw [hcast]
      refine val_round_nat ?_
      by_contra hc
      -- rounding keeps what is not below `2 ^ 53` there
      have hle : ((2 ^ 53 - 1 : ℕ) : ℚ) ≤ ((man * 10 ^ k : ℕ) : ℚ) := by
        exact_mod_cast (by omega : 2 ^ 53 - 1 ≤ man * 10 ^ k)
      have hmono := (@Format.nearest_round binary64 ((2 ^ 53 - 1 : ℕ) : ℚ) (by positivity)).mono
        (@Format.nearest_round binary64 ((man * 10 ^ k : ℕ) : ℚ) (by positivity)) hle
      have hval := Format.val_le_val (f := binary64) hmono
      rw [val_round_nat (by decide), ← hcast] at hval
      refine hmax (lt_of_lt_of_le ?_ hval)
      norm_num
    rw [hexact] at hd hmax
    refine hlast _ (by positivity) ?_ ?_ hd
    · calc (man : ℚ) * 10 ^ k * 10 ^ 22 ≤ 10 ^ 15 * 10 ^ 22 :=
        mul_le_mul_of_nonneg_right (not_lt.mp hmax) (by norm_num)
        _ ≤ 10 ^ 38 := by norm_num
    · rw [hk, zpow_add₀ (by norm_num), zpow_natCast, mul_assoc]
      norm_num
  · have hd := (Option.some.inj h).symm
    obtain ⟨k, hk, hk'⟩ : ∃ k : ℕ, exp10 = k ∧ k ≤ 22 := ⟨exp10.toNat, by omega, by omega⟩
    rw [hk, Int.toNat_natCast, hman, val_kPow10Tab hk'] at hd
    refine hlast _ (by positivity) ?_ ?_ hd
    · calc (man : ℚ) * 10 ^ k ≤ 2 ^ 52 * 10 ^ 22 :=
          mul_le_mul hman' (pow_le_pow_right₀ (by norm_num) hk') (by positivity) (by norm_num)
        _ ≤ 10 ^ 38 := by norm_num
    · rw [hk, zpow_natCast]
  · have hd := (Option.some.inj h).symm
    obtain ⟨k, hk, hk'⟩ : ∃ k : ℕ, exp10 = -k ∧ k ≤ 22 := ⟨(-exp10).toNat, by omega, by omega⟩
    rw [hk, neg_neg, Int.toNat_natCast, hman, val_kPow10Tab hk'] at hd
    refine hlast _ (by positivity) ?_ ?_ hd
    · calc (man : ℚ) / 10 ^ k ≤ man := div_le_self (by positivity) (one_le_pow₀ (by norm_num))
        _ ≤ 2 ^ 52 := hman'
        _ ≤ 10 ^ 38 := by norm_num
    · rw [hk, zpow_neg, zpow_natCast, div_eq_mul_inv]

/-- A zero stays a zero. -/
theorem parseFloatingFast_zero {exp10 : ℤ} (h0 : -22 ≤ exp10) (h1 : exp10 ≤ 0) :
    parseFloatingFast exp10 0 = some 0 := by
  obtain ⟨b, hb, -, hnear⟩ : ∃ b, parseFloatingFast exp10 0 = some (BitVec.ofNat 64 b) ∧
    b < binary64.inf ∧
      binary64.Nearest ((0 : ℕ) * 10 ^ exp10) b := by
    have hsome : parseFloatingFast exp10 0 =
        some (BitVec.ofNat 64 (divDouble (binary64.round (0 : ℕ)) (kPow10Tab (-exp10).toNat))) := by
      unfold parseFloatingFast
      rw [if_neg (by omega)]
    obtain ⟨b, hb, h⟩ := parseFloatingFast_nearest (by decide) h0 (by omega) hsome
    exact ⟨b, hsome.trans (congrArg some hb), h⟩
  have hzero : binary64.val 0 = 0 := by
    unfold Format.val Format.signif
    simp
  rw [Nat.cast_zero, zero_mul, ← hzero] at hnear
  have hb0 : b = 0 := hnear.unique (Format.nearest_val (by decide))
  rw [hb, hb0]
  rfl

end SonicJson
