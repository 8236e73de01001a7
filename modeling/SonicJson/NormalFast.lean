/-
# The conversion by one product, in the normal range

`ParseFloatingNormalFast` decides from nine bits of the product whether the rest can
matter, and looks at a second product only where they are all zeros or all ones. Where it
goes on, the product has the upper bits of the value and is not half-way between two
numbers, so adding half a unit rounds it to the nearest (`ParseFloatingNormalFast_sound`).
-/
import SonicJson.EiselLemire

namespace SonicJson

open Binary

/-- The upper word of the product, where the rest cannot matter. -/
def normalFastProduct (sig1 : ℕ) (pow10 : ℕ × ℕ) : Option ℕ :=
  let (hi, lo) := MulU64 sig1 pow10.2
  let bits := hi &&& (1 <<< (64 - 54 - 1) - 1)
  if u64 (bits - 1) < 1 <<< (64 - 54 - 1) - 2 then some hi
  else
    let (hi2, _) := MulU64 sig1 pow10.1
    let add := (lo + hi2) % 2 ^ 64
    if 1 < (add + 1) % 2 ^ 64 then
      let carry := if add < lo ∨ add < hi2 then 1 else 0
      some ((hi + carry) % 2 ^ 64)
    else none

/-- The bits, once the product is exact. -/
def normalFastRound (hi : ℕ) (exp2 sgn : ℤ) : Double :=
  let lz := if hi < 1 <<< 63 then 1 else 0
  let hi := (hi <<< lz) % 2 ^ 64
  let exp2 := exp2 - lz
  let exp2 := exp2 + 64
  let round_up := 0 < hi &&& 1 <<< (64 - 54)
  let hi := (hi + if round_up then 1 <<< (64 - 54) else 0) % 2 ^ 64
  let (hi, exp2) := if hi < 1 <<< (64 - 54) then (1 <<< 63, exp2 + 1) else (hi, exp2)
  let hi := hi >>> (64 - 53)
  let exp2 := exp2 + 64 - 53 + 52
  let exp2 := exp2 + 1023
  BitVec.ofNat 64 (u64 exp2 <<< 52 ||| hi &&& 0x000FFFFFFFFFFFFF) |||
    BitVec.ofNat 64 (u64 sgn >>> 63) <<< 63

def ParseFloatingNormalFast (exp10 : ℤ) (man : ℕ) (sgn : ℤ) : Option Double :=
  let lz := LeadingZeroes man
  let sig1 := (man <<< lz) % 2 ^ 64
  let exp2 := (217706 * exp10 - 4128768) / 2 ^ 16 - lz
  match normalFastProduct sig1 (pow10Entry exp10) with
  | some hi => some (normalFastRound hi exp2 sgn)
  | none => none

section
variable {m lo hi x_hi : ℕ} {t : ℚ}

/-- **The upper word is that of the value, and something is below it that is no tie.** -/
theorem normalFastProduct_spec (hm : 2 ^ 63 ≤ m) (hm' : m < 2 ^ 64) (hhi : 2 ^ 63 ≤ hi)
    (hhi' : hi < 2 ^ 64) (hlo : lo < 2 ^ 64) (ht : Within m lo hi t)
    (h : normalFastProduct m (lo, hi) = some x_hi) :
    ∃ x_lo, Product x_hi x_lo t ∧ ¬ (x_lo = 0 ∧ x_hi % 2 ^ 9 = 0) := by
  have hlead : 2 ^ 126 ≤ m * hi := by
    calc 2 ^ 126 = 2 ^ 63 * 2 ^ 63 := by norm_num
      _ ≤ m * hi := Nat.mul_le_mul hm hhi
  have hmax : m * hi ≤ (2 ^ 64 - 1) * (2 ^ 64 - 1) := Nat.mul_le_mul (by omega) (by omega)
  have hmax' : m * lo ≤ (2 ^ 64 - 1) * (2 ^ 64 - 1) := Nat.mul_le_mul (by omega) (by omega)
  obtain ⟨hn1, hn2⟩ := ht.narrow hlo
  obtain ⟨hw1, hw2⟩ := ht.wide
  have hmask : ∀ x : ℕ, x &&& (1 <<< (64 - 54 - 1) - 1) = x % 2 ^ 9 := and_1FF
  unfold normalFastProduct MulU64 at h
  simp only [hmask] at h
  generalize m * hi = X at *
  generalize m * lo = Y at *
  have hXlt : X % 2 ^ 64 < 2 ^ 64 := Nat.mod_lt _ (by norm_num)
  split at h
  · next hbits =>
    obtain rfl := Option.some.inj h
    have hXe : X / 2 ^ 64 * 2 ^ 64 + X % 2 ^ 64 = X := by omega
    obtain ⟨hmod, hdiv⟩ := @words_mod (X / 2 ^ 64) (X % 2 ^ 64) hXlt
    rw [hXe] at hmod hdiv
    -- neither all zeros nor all ones
    have hnine : 1 ≤ X / 2 ^ 64 % 2 ^ 9 ∧ X / 2 ^ 64 % 2 ^ 9 ≤ 510 := by
      have h510 : (1 <<< (64 - 54 - 1) - 2 : ℕ) = 510 := rfl
      rw [h510] at hbits
      unfold u64 at hbits
      omega
    refine ⟨X % 2 ^ 64, ⟨by omega, hXlt, by omega, by rw [hXe]; exact hn1, ?_⟩, by omega⟩
    rw [← hdiv]
    refine lt_of_rest hn2 ?_
    rw [hmod]
    omega
  · split at h
    swap
    · cases h
    next hadd =>
    obtain rfl := Option.some.inj h
    have hsum : (X / 2 ^ 64 + if (X % 2 ^ 64 + Y / 2 ^ 64) % 2 ^ 64 < X % 2 ^ 64 ∨
        (X % 2 ^ 64 + Y / 2 ^ 64) % 2 ^ 64 < Y / 2 ^ 64
        then 1 else 0) % 2 ^ 64 * 2 ^ 64 + (X % 2 ^ 64 + Y / 2 ^ 64) % 2 ^ 64 = X + Y / 2 ^ 64 := by
      split <;> omega
    generalize (X / 2 ^ 64 + if (X % 2 ^ 64 + Y / 2 ^ 64) % 2 ^ 64 < X % 2 ^ 64 ∨
      (X % 2 ^ 64 + Y / 2 ^ 64) % 2 ^ 64 < Y / 2 ^ 64
        then 1 else 0) % 2 ^ 64 = a at *
    have hb : (X % 2 ^ 64 + Y / 2 ^ 64) % 2 ^ 64 < 2 ^ 64 := Nat.mod_lt _ (by norm_num)
    generalize (X % 2 ^ 64 + Y / 2 ^ 64) % 2 ^ 64 = b at *
    have hb' : 1 ≤ b ∧ b ≤ 2 ^ 64 - 2 := by omega
    obtain ⟨hmod, hdiv⟩ := @words_mod a b hb
    refine ⟨b, ⟨by omega, hb, by omega, by rw [hsum]; exact hw1, ?_⟩, by omega⟩
    have hk : t < ((a * 2 ^ 64 + b + 2 : ℕ) : ℚ) := by
      have hY : Y % 2 ^ 64 < 2 ^ 64 := Nat.mod_lt _ (by norm_num)
      rw [← hsum] at hw2
      have : (a * 2 ^ 64 + b) * 2 ^ 64 + (Y % 2 ^ 64 + m) ≤ (a * 2 ^ 64 + b + 2) * 2 ^ 64 := by omega
      have hq : (((a * 2 ^ 64 + b) * 2 ^ 64 + (Y % 2 ^ 64 + m) : ℕ) : ℚ) ≤
          ((a * 2 ^ 64 + b + 2 : ℕ) : ℚ) * 2 ^ 64 := by
        exact_mod_cast this
      linarith
    rw [← hdiv]
    refine lt_of_rest hk ?_
    omega

theorem sign_bit {sgn : ℤ} (hs : sgn = 1 ∨ sgn = -1) {b : ℕ} (hb : b < 2 ^ 63) :
    BitVec.ofNat 64 b ||| BitVec.ofNat 64 (u64 sgn >>> 63) <<< 63 = signed sgn b := by
  rw [← signed_or hb]
  rcases hs with rfl | rfl
  · rw [show u64 1 >>> 63 = 0 by decide, if_neg (by decide)]
    simp
  · rw [show u64 (-1) >>> 63 = 1 by decide, if_pos rfl]

theorem and_two_pow (x n : ℕ) : x &&& 2 ^ n = if x.testBit n then 2 ^ n else 0 := by
  apply Nat.eq_of_testBit_eq
  intro i
  rw [Nat.testBit_and, Nat.testBit_two_pow]
  by_cases hi : n = i
  · subst hi
    cases h : x.testBit n <;> simp
  · cases h : x.testBit n <;> simp [hi]

/-- The bit that decides the rounding. -/
theorem and_bit (x : ℕ) : 0 < x &&& 2 ^ 10 ↔ x / 2 ^ 10 % 2 = 1 := by
  rw [and_two_pow, Nat.testBit_eq_decide_div_mod_eq]
  by_cases h : x / 2 ^ 10 % 2 = 1
  · rw [decide_eq_true h]
    exact ⟨fun _ => h, fun _ => by norm_num⟩
  · rw [decide_eq_false h]
    exact ⟨fun hc => absurd hc (by norm_num), fun hc => absurd hc h⟩

/-- Half a unit is added; the exponent goes up where the word runs over. -/
theorem normal_round {x : ℕ} (h1 : 2 ^ 63 ≤ x) (h2 : x < 2 ^ 64) :
    ∃ carry M : ℕ, ∀ e : ℤ,
      (if (x + if 0 < x &&& 2 ^ 10 then 2 ^ 10 else 0) % 2 ^ 64 < 2 ^ 10 then (2 ^ 63, e + 1)
        else ((x + if 0 < x &&& 2 ^ 10 then 2 ^ 10 else 0) % 2 ^ 64, e)).1 / 2 ^ 11 = M ∧
      (if (x + if 0 < x &&& 2 ^ 10 then 2 ^ 10 else 0) % 2 ^ 64 < 2 ^ 10 then (2 ^ 63, e + 1)
        else ((x + if 0 < x &&& 2 ^ 10 then 2 ^ 10 else 0) % 2 ^ 64, e)).2 = e + carry ∧
      2 ^ 52 ≤ M ∧ M < 2 ^ 53 ∧ carry ≤ 1 ∧
      carry * 2 ^ 52 + M = x / 2 ^ 10 / 2 + (decide (x / 2 ^ 10 % 2 = 1)).toNat := by
  simp only [and_bit]
  by_cases hup : x / 2 ^ 10 % 2 = 1
  · simp only [hup, if_true, decide_true, Bool.toNat_true]
    by_cases hcarry : (x + 2 ^ 10) % 2 ^ 64 < 2 ^ 10
    · simp only [hcarry, if_true]
      exact ⟨1, 2 ^ 52, fun e => ⟨by norm_num, by norm_num, le_rfl, by norm_num, le_rfl, by omega⟩⟩
    · simp only [hcarry, if_false]
      exact ⟨0, (x + 2 ^ 10) / 2 ^ 11, fun e => ⟨by omega, by norm_num, by omega, by omega,
        by omega, by omega⟩⟩
  · have hlt : ¬ x % 2 ^ 64 < 2 ^ 10 := by omega
    simp only [hup, hlt, if_false, decide_false, Bool.toNat_false, Nat.add_zero]
    exact ⟨0, x / 2 ^ 11, fun e => ⟨by omega, by norm_num, by omega, by omega, by omega, by omega⟩⟩

/-- **The rounded product is the nearest number.** -/
theorem normalFastRound_spec {x_lo : ℕ} {exp2 sgn : ℤ} (hs : sgn = 1 ∨ sgn = -1) (h1 : -1148 ≤ exp2)
    (h2 : exp2 ≤ 890) (h : Product x_hi x_lo t) (hhalf : ¬ (x_lo = 0 ∧ x_hi % 2 ^ 9 = 0)) :
    ∃ b, normalFastRound x_hi exp2 sgn = signed sgn b ∧ 2 ^ 52 ≤ b ∧ b < binary64.inf ∧
      binary64.Nearest (t * 2 ^ exp2) b := by
  have hinf : binary64.inf = 2047 * 2 ^ 52 := rfl
  have hlt := h.hi_lt
  have hlead := h.lead
  have hnear := @Product.nearest x_hi x_lo t (exp2 + 1150)
  rw [show exp2 + 1150 - 1150 = exp2 by ring] at hnear
  -- the product with its leading bit in place
  obtain ⟨msb, hmsb, hmsb', hlz⟩ : ∃ msb, x_hi / 2 ^ 63 = msb ∧ msb ≤ 1 ∧
      (if x_hi < 2 ^ 63 then 1 else 0 : ℕ) = 1 - msb := by
    rcases Nat.lt_or_ge x_hi (2 ^ 63) with hc | hc
    · exact ⟨0, by omega, by omega, by rw [if_pos hc]⟩
    · exact ⟨1, by omega, le_rfl, by rw [if_neg (by omega)]⟩
  have hshift : 2 ^ 63 ≤ x_hi * 2 ^ (1 - msb) % 2 ^ 64 ∧ x_hi * 2 ^ (1 - msb) % 2 ^ 64 < 2 ^ 64 ∧
      x_hi * 2 ^ (1 - msb) % 2 ^ 64 / 2 ^ 10 = x_hi / 2 ^ (msb + 9) := by
    have : msb = 0 ∨ msb = 1 := by omega
    rcases this with rfl | rfl <;> omega
  obtain ⟨carry, M, hround⟩ := normal_round hshift.1 hshift.2.1
  unfold normalFastRound
  simp only [Nat.shiftRight_eq_div_pow, Nat.shiftLeft_eq, one_mul]
  rw [hlz]
  obtain ⟨e1, e2, hM, hM', hcarry, heq⟩ := hround (exp2 - (1 - msb : ℕ) + 64)
  rw [e1, e2]
  rw [hshift.2.2] at heq
  rw [hmsb] at hnear
  have hF : u64 (exp2 - (1 - msb : ℕ) + 64 + carry + 64 - 53 + 52 + 1023) =
    (exp2 + 1149 + msb + carry).toNat :=
    u64_eq (by omega) (by omega)
  have hor := @exp_or_man (exp2 + 1149 + msb + carry).toNat M hM hM'
  rw [Nat.shiftLeft_eq] at hor
  rw [hF, hor]
  refine ⟨_, ?_, ?_, ?_,
    hnear (F := (exp2 + 1149 + msb + carry).toNat) (M := M) h (fun hc => hhalf ⟨hc.1, hc.2.1⟩)
    (by omega) (by omega) hM hM' ?_⟩
  · have := @sign_bit sgn hs ((exp2 + 1149 + msb + carry).toNat * 2 ^ 52 + (M - 2 ^ 52)) (by omega)
    rwa [Nat.shiftRight_eq_div_pow] at this
  · omega
  · omega
  · omega

end

/-- **The conversion is sound.** What it stores is the nearest number to `man * 10 ^ exp10`, which
has its leading bit and is finite. -/
theorem ParseFloatingNormalFast_nearest (man : ℕ) (hm0 : man ≠ 0) (hm : man < 2 ^ 64) (exp10 : ℤ)
    (h0 : -307 < exp10) (h1 : exp10 < 288) (sgn : ℤ) (hs : sgn = 1 ∨ sgn = -1) (d : Double)
    (h : ParseFloatingNormalFast exp10 man sgn = some d) :
    ∃ b, d = signed sgn b ∧ 2 ^ 52 ≤ b ∧ b < binary64.inf ∧ binary64.Nearest (man * 10 ^ exp10) b := by
  have htab := kPow10M128Tab_floor (e := exp10) (by omega) (by omega)
  obtain ⟨hc, hn1, hn2⟩ := LeadingZeroes_spec hm0 hm
  unfold ParseFloatingNormalFast at h
  dsimp only at h
  rw [Nat.shiftLeft_eq, Nat.mod_eq_of_lt hn2] at h
  split at h
  swap
  · cases h
  next x_hi hprod =>
  have hwithin :=
    (Possible.value hm0 (show -348 ≤ exp10 by omega) (by omega)).within (LeadingZeroes man)
  obtain ⟨x_lo, hp, hhalf⟩ :=
    normalFastProduct_spec hn1 hn2 htab.lead htab.hi_lt htab.lo_lt hwithin hprod
  have hexp2 : -1148 ≤ (217706 * exp10 - 4128768) / 2 ^ 16 - (LeadingZeroes man : ℤ) ∧
      (217706 * exp10 - 4128768) / 2 ^ 16 - (LeadingZeroes man : ℤ) ≤ 890 := by
    omega
  obtain ⟨b, hb, hb1, hb2, hb3⟩ := normalFastRound_spec hs hexp2.1 hexp2.2 hp hhalf
  refine ⟨b, (Option.some.inj h).symm.trans hb, hb1, hb2, ?_⟩
  have hexp : (LeadingZeroes man : ℤ) - 64 - pow10Exp2 exp10 +
      ((217706 * exp10 - 4128768) / 2 ^ 16 - (LeadingZeroes man : ℤ)) = 0 := by
    unfold pow10Exp2
    omega
  rwa [mul_assoc, ← zpow_add₀ (by norm_num), hexp, zpow_zero, mul_one] at hb3

/-- **The fast conversion is sound, and agrees with the one by Eisel and Lemire.** -/
theorem ParseFloatingNormalFast_sound (man : ℕ) (hm0 : man ≠ 0) (hm : man < 2 ^ 64) (exp10 : ℤ)
    (h0 : -307 < exp10) (h1 : exp10 < 288) (sgn : ℤ) (hs : sgn = 1 ∨ sgn = -1) (d : Double)
    (h : ParseFloatingNormalFast exp10 man sgn = some d) :
    (∃ b, d = signed sgn b ∧ 2 ^ 52 ≤ b ∧ b < binary64.inf ∧ binary64.Nearest (man * 10 ^ exp10) b) ∧
      ∀ d', AtofEiselLemire64 man exp10 sgn = some d' → d' = d := by
  obtain ⟨b, hb, hb1, hb2, hb3⟩ := ParseFloatingNormalFast_nearest man hm0 hm exp10 h0 h1 sgn hs d h
  refine ⟨⟨b, hb, hb1, hb2, hb3⟩, fun d' hd' => ?_⟩
  obtain ⟨c, hc, -, -, hc3, -⟩ := AtofEiselLemire64_nearest man hm0 hm exp10 sgn d' hd'
  rw [hc, hb, hc3.unique hb3]

/-- `-123e-4`. -/
theorem ParseFloatingNormalFast_sound_fraction :
    ∃ b, ParseFloatingNormalFast (-4) 123 (-1) = some (signed (-1) b) ∧
      binary64.Nearest ((123 : ℕ) * 10 ^ (-4 : ℤ)) b := by
  have h : ParseFloatingNormalFast (-4) 123 (-1) = some 0xBF8930BE0DED288D#64 := by decide +kernel
  obtain ⟨⟨b, h1, -, -, h2⟩, -⟩ :=
    ParseFloatingNormalFast_sound 123 (by decide) (by decide) (-4) (by decide) (by decide) (-1)
    (.inr rfl) _ h
  exact ⟨b, h1 ▸ h, h2⟩

end SonicJson
