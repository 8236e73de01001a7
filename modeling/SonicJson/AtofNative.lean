/-
# The slow conversion is correctly rounded

A decimal with 800 digits follows the number through all shifts: it is below it only when
digits have been dropped, and no number that could be the middle of two doubles has come
between them (`Decimal.At`). So the digits and the flag decide the rounding at the end
(`extract_nearest`). The loops come to an end since each step is at least a division by
eight, or nearly a doubling (`scaleDown_at`, `scaleUp_at`). What is followed is the number
as `SetDecimal` reads it: with an exponent, the point of more than 800 digits before it is
behind the 800th (`readValue`).
-/
import Mathlib.Data.Nat.Bitwise
import SonicJson.DecimalShift
import SonicJson.FloatingFast

namespace SonicJson

open Significant Binary Cursor

/-- The decimal follows `V * 2 ^ -E`. -/
structure Decimal.At (d : Decimal) (E : ℤ) (V : ℚ) : Prop where
  good : d.Good
  tracks : Tracks (-1075) (d.value * 2 ^ E) V (d.trunc = true)

section
variable {d : Decimal} {E : ℤ} {V : ℚ} {k : ℕ}

theorem Decimal.Good.value_pos (h : d.Good) : 0 < d.value := lt_of_lt_of_le (ten_zpow_pos _) h.place.1

/-- **A shift to the right**, of a number that is not too small, or by not too much. -/
theorem RightShift_at (h : d.At E V) (hk : 0 < k) (hdp : d.dp ≤ 800)
    (hE : E + k ≤ 46 ∨ -8 ≤ (RightShift d k).dp) :
    (RightShift d k).At (E + k) V ∧ Cut 800 (d.value / 2 ^ k)
    (RightShift d k).value (RightShift d k).dp ∧
      (RightShift d k).Trimmed ∧ (RightShift d k).neg = d.neg := by
  obtain ⟨full, hlead, hkeeps, htrim, hneg, hval⟩ := RightShift_keeps h.good hk
  obtain ⟨hgood, hcut, htrunc⟩ := hkeeps.cut hlead
  rw [hval] at hcut htrunc
  have hle : d.value / 2 ^ k < 10 ^ d.dp :=
    (div_le_self h.good.value_pos.le (one_le_pow₀ (by norm_num))).trans_lt h.good.place.2
  have hdp' := hcut.place.2 hle
  refine ⟨⟨hgood, ?_⟩, hcut, htrim, hneg⟩
  have hshift := @Tracks.shift _ _ _ _ E (-k : ℤ) h.tracks
  rw [zpow_neg, zpow_natCast, ← div_eq_mul_inv, sub_neg_eq_add] at hshift
  exact hshift.cut hcut htrunc (by omega) (by omega)

/-- **A shift to the left.** -/
theorem LeftShift_at (h : d.At E V) (h0 : 0 < k) (hk : k ≤ 60)
    (hdp : d.value * 2 ^ k < 10 ^ (800 : ℤ)) (hE : E ≤ 46 ∨ -8 ≤ d.dp) :
    (LeftShift d k).At (E - k) V ∧ Cut 800 (d.value * 2 ^ k) (LeftShift d k).value (LeftShift d k).dp ∧
      (LeftShift d k).Trimmed ∧ (LeftShift d k).neg = d.neg ∧ d.dp ≤ (LeftShift d k).dp := by
  obtain ⟨full, hlead, hkeeps, htrim, hneg, hval⟩ := LeftShift_keeps h.good h0 hk
  obtain ⟨hgood, hcut, htrunc⟩ := hkeeps.cut hlead
  rw [hval] at hcut htrunc
  have hge : (10 : ℚ) ^ (d.dp - 1) ≤ d.value * 2 ^ k :=
    h.good.place.1.trans (le_mul_of_one_le_right h.good.value_pos.le (one_le_pow₀ (by norm_num)))
  have hdp1 := hcut.place.1 hge
  have hdp2 := hcut.place.2 hdp
  refine ⟨⟨hgood, ?_⟩, hcut, htrim, hneg, by omega⟩
  have hshift := @Tracks.shift _ _ _ _ E (k : ℤ) h.tracks
  rw [zpow_natCast] at hshift
  exact hshift.cut hcut htrunc hdp2 (by omega)

theorem DecimalShift_right (h : d.Good) (h0 : 0 < k) (hk : k ≤ 60) :
    DecimalShift d (-(k : ℤ)) = RightShift d k := by
  have hnd := h.pos
  unfold DecimalShift
  rw [if_neg (by omega), if_neg (by omega), neg_neg, Int.toNat_natCast, shifts,
    if_neg (by unfold MAX_SHIFT; omega), if_pos (by omega)]

theorem DecimalShift_left (h : d.Good) (h0 : 0 < k) (hk : k ≤ 60) :
    DecimalShift d k = LeftShift d k := by
  have hnd := h.pos
  unfold DecimalShift
  rw [if_neg (by omega), if_pos (by omega), Int.toNat_natCast, shifts,
    if_neg (by unfold MAX_SHIFT; omega), if_pos (by omega)]

/-- A shift to the right by any number of bits, in pieces. -/
theorem shifts_right_at : ∀ (fuel k : ℕ) (d : Decimal) (E : ℤ), k < fuel → d.At E V → d.dp ≤ 800 →
    E + k ≤ 46 → 0 < k →
    (shifts RightShift fuel d k).At (E + k) V ∧ (shifts RightShift fuel d k).value ≤ d.value / 2 ^ k ∧
      (shifts RightShift fuel d k).neg = d.neg ∧ (shifts RightShift fuel d k).dp ≤ d.dp := by
  intro fuel
  induction fuel with
  | zero => exact fun k _ _ hk => absurd hk (Nat.not_lt_zero k)
  | succ fuel ih =>
    intro k d E hk h hdp hE h0
    have hdown : ∀ k : ℕ, 0 < k → Cut 800 (d.value / 2 ^ k) (RightShift d k).value
      (RightShift d k).dp → (RightShift d k).dp ≤ d.dp :=
      fun k hk hc => hc.place.2
        ((div_le_self h.good.value_pos.le (one_le_pow₀ (by norm_num))).trans_lt h.good.place.2)
    rw [shifts]
    by_cases hbig : MAX_SHIFT < k
    · have hmax : MAX_SHIFT = 60 := rfl
      rw [hmax] at hbig
      rw [if_pos (by rw [hmax]; exact hbig), hmax]
      obtain ⟨hat, hcut, -, hneg⟩ :=
        @RightShift_at d E V 60 h (by decide) hdp (.inl (by push_cast; omega))
      have hdp' := hdown 60 (by decide) hcut
      obtain ⟨h1, h2, h3, h4⟩ := ih (k - 60) (RightShift d 60) (E + (60 : ℕ)) (by omega) hat
        (by omega) (by push_cast; omega) (by omega)
      have hE' : E + (60 : ℕ) + ((k - 60 : ℕ) : ℤ) = E + k := by push_cast; omega
      rw [hE'] at h1
      refine ⟨h1, h2.trans ?_, h3.trans hneg, h4.trans hdp'⟩
      have hpow : (2 : ℚ) ^ k = 2 ^ 60 * 2 ^ (k - 60) := by rw [← pow_add]; congr 1; omega
      rw [hpow, ← div_div]
      exact div_le_div_of_nonneg_right hcut.le (by positivity)
    · rw [if_neg hbig, if_pos (by omega)]
      obtain ⟨hat, hcut, -, hneg⟩ := RightShift_at h h0 hdp (.inl hE)
      exact ⟨hat, hcut.le, hneg, hdown k h0 hcut⟩

theorem kPowTab_range : ∀ i < 9, 0 < i → 3 ≤ kPowTab.getD i 0 ∧ kPowTab.getD i 0 ≤ 27 := by decide

/-- **Down, until the number is below one.** -/
theorem scaleDown_at : ∀ fuel (d : Decimal) (E : ℤ), d.At E V → d.dp ≤ 800 → d.value < 8 ^ fuel →
    (E ≤ 46 ∨ -8 ≤ d.dp) →
    ∃ d' E', scaleDown (fuel + 1) d E = some (d', E') ∧ d'.At E' V ∧ d'.dp ≤ 0 ∧
      (E' ≤ 46 ∨ -8 ≤ d'.dp) ∧ d'.neg = d.neg ∧
      min d.dp (-8) ≤ d'.dp := by
  intro fuel
  induction fuel with
  | zero =>
    intro d E h hdp hval hE
    have hdp0 : d.dp ≤ 0 := by
      by_contra hc
      have h1 : (10 : ℚ) ^ (0 : ℤ) ≤ 10 ^ (d.dp - 1) := zpow_le_zpow_right₀ (by norm_num) (by omega)
      have := h.good.place.1
      rw [zpow_zero] at h1
      rw [pow_zero] at hval
      linarith
    rw [scaleDown, if_neg (by omega)]
    exact ⟨d, E, rfl, h, hdp0, hE, rfl, min_le_left _ _⟩
  | succ fuel ih =>
    intro d E h hdp hval hE
    rw [scaleDown]
    by_cases hpos : 0 < d.dp
    · rw [if_pos hpos]
      dsimp only
      obtain ⟨n, hn, hn3, hn27⟩ : ∃ n, n = (if 9 ≤ d.dp then 27 else kPowTab.getD d.dp.toNat 0) ∧
          3 ≤ n ∧ n ≤ 27 := by
        refine ⟨_, rfl, ?_⟩
        split
        · exact ⟨by decide, le_rfl⟩
        · exact kPowTab_range _ (by omega) (by omega)
      rw [← hn, DecimalShift_right h.good (by omega) (by omega)]
      -- the number was at least one
      have hone : (1 : ℚ) ≤ d.value := by
        have h1 : (10 : ℚ) ^ (0 : ℤ) ≤ 10 ^ (d.dp - 1) := zpow_le_zpow_right₀ (by norm_num) (by omega)
        rw [zpow_zero] at h1
        exact h1.trans h.good.place.1
      have hpow : (2 : ℚ) ^ n ≤ 2 ^ 27 := pow_le_pow_right₀ (by norm_num) hn27
      have hpow8 : (8 : ℚ) ≤ 2 ^ n := by
        have : (2 : ℚ) ^ 3 ≤ 2 ^ n := pow_le_pow_right₀ (by norm_num) hn3
        linarith
      have h2 : (0 : ℚ) < 2 ^ n := by positivity
      have hge : (10 : ℚ) ^ (-9 : ℤ) ≤ d.value / 2 ^ n := by
        rw [le_div_iff₀ h2]
        have h9 : (10 : ℚ) ^ (-9 : ℤ) * 2 ^ 27 ≤ 1 := by norm_num
        have := mul_le_mul_of_nonneg_left hpow (show (0 : ℚ) ≤ 10 ^ (-9 : ℤ) by positivity)
        linarith
      have hdp' : -8 ≤ (RightShift d n).dp := by
        obtain ⟨full, hlead, hkeeps, -, -, hv⟩ := RightShift_keeps h.good (show 0 < n by omega)
        obtain ⟨-, hcut, -⟩ := hkeeps.cut hlead
        rw [hv] at hcut
        have := hcut.place.1 hge
        omega
      obtain ⟨hat, hcut, -, hneg⟩ := RightShift_at h (show 0 < n by omega) hdp (.inr hdp')
      have hval' : (RightShift d n).value < 8 ^ fuel := by
        refine hcut.le.trans_lt ?_
        rw [div_lt_iff₀ h2]
        rw [pow_succ] at hval
        have : (0 : ℚ) < 8 ^ fuel := by positivity
        nlinarith
      have hle : (RightShift d n).dp ≤ d.dp :=
        hcut.place.2 ((div_le_self h.good.value_pos.le (one_le_pow₀ (by norm_num))).trans_lt
          h.good.place.2)
      obtain ⟨d', E', heq, h1, h2, h3, h4, h5⟩ :=
        ih (RightShift d n) (E + n) hat (by omega) hval' (.inr hdp')
      exact ⟨d', E', heq, h1, h2, h3, h4.trans hneg, by omega⟩
    · rw [if_neg hpos]
      exact ⟨d, E, rfl, h, by omega, hE, rfl, min_le_left _ _⟩

/-- The test of the second loop: the number is below one half. -/
theorem half_le_iff (h : d.Good) (hdp : d.dp ≤ 0) :
    (d.dp < 0 ∨ d.dp = 0 ∧ rd d.d 0 < 53) ↔ d.value < 1 / 2 := by
  obtain ⟨b, r, hbr, hb⟩ := h.leading.head
  have hlen := Decimal.digits_length h.size h.le
  have hrd : rd d.d 0 = b := by
    have hd : d.d = b :: (r ++ d.d.drop d.nd) := by
      rw [← List.cons_append, ← hbr, Decimal.digits, List.take_append_drop]
    rw [hd, rd_cons_zero]
  rcases lt_or_eq_of_le hdp with hneg | hzero
  · refine iff_of_true (.inl hneg) ?_
    have h1 : (10 : ℚ) ^ d.dp ≤ 10 ^ (-1 : ℤ) := zpow_le_zpow_right₀ (by norm_num) (by omega)
    have h10 : (10 : ℚ) ^ (-1 : ℤ) < 1 / 2 := by norm_num
    exact (h.place.2.trans_le h1).trans h10
  · have hr := decimal_lt fun x hx => h.isDigit x (by rw [hbr]; exact List.mem_cons_of_mem _ hx)
    have hnd : d.nd = r.length + 1 := by rw [← hlen, hbr, List.length_cons]
    have hP : (0 : ℚ) < 10 ^ r.length := by positivity
    have hval : d.value * 10 ^ (r.length + 1) = (b.toNat - 48 : ℕ) * 10 ^ r.length + decimal r := by
      rw [Decimal.value, hbr, decimal_cons, hzero, hnd, mul_assoc,
        ← zpow_natCast (10 : ℚ) (r.length + 1), ← zpow_add₀ (by norm_num), zero_sub, neg_add_cancel,
        zpow_zero, mul_one]
      push_cast
      rfl
    have hdig : ∀ n : Fin 256, is_digit (UInt8.ofNat n) = true →
      (UInt8.ofNat n < 53 ↔ (UInt8.ofNat n).toNat - 48 < 5) := by decide +kernel
    have hb5 := hdig ⟨b.toNat, b.toNat_lt⟩
    simp only [UInt8.ofNat_toNat] at hb5
    specialize hb5 (h.isDigit b (by rw [hbr]; exact List.mem_cons_self))
    have hr' : (decimal r : ℚ) < 10 ^ r.length := by exact_mod_cast hr
    have hr0 : (0 : ℚ) ≤ decimal r := Nat.cast_nonneg _
    rw [hrd]
    rw [pow_succ] at hval
    generalize (10 : ℚ) ^ r.length = P at *
    constructor
    · rintro (hc | ⟨-, hc⟩)
      · omega
      · have hx : ((b.toNat - 48 : ℕ) : ℚ) ≤ 4 := by exact_mod_cast Nat.le_of_lt_succ (hb5.mp hc)
        nlinarith
    · intro hlt
      refine .inr ⟨hzero, hb5.mpr ?_⟩
      by_contra hc
      have hx : (5 : ℚ) ≤ ((b.toNat - 48 : ℕ) : ℚ) := by exact_mod_cast not_lt.mp hc
      nlinarith

theorem kPowTab_up : ∀ i < 9, 1 ≤ kPowTab.getD i 0 ∧ kPowTab.getD i 0 ≤ 27 ∧
    (0 < i → 2 ^ kPowTab.getD i 0 ≤ 10 ^ i) ∧
    kPowTab.getD 0 0 = 1 := by decide

/-- **Up, until it is at least one half.** -/
theorem scaleUp_at : ∀ fuel (d : Decimal) (E : ℤ), d.At E V → d.dp ≤ 0 → (E ≤ 46 ∨ -8 ≤ d.dp) →
    1 / 2 ≤ d.value * (3 / 2) ^ fuel →
    ∃ d' E', scaleUp (fuel + 1) d E = some (d', E') ∧ d'.At E' V ∧ d'.dp = 0 ∧ 1 / 2 ≤ d'.value ∧
      d'.neg = d.neg := by
  intro fuel
  induction fuel with
  | zero =>
    intro d E h hdp hE hval
    rw [pow_zero, mul_one] at hval
    have hcond := half_le_iff h.good hdp
    have hn : ¬ (d.dp < 0 ∨ d.dp = 0 ∧ rd d.d 0 < 53) :=
      fun hc => absurd (hcond.mp hc) (not_lt.mpr hval)
    rw [scaleUp, if_neg hn]
    exact ⟨d, E, rfl, h, by omega, hval, rfl⟩
  | succ fuel ih =>
    intro d E h hdp hE hval
    have hcond := half_le_iff h.good hdp
    rw [scaleUp]
    by_cases hc : d.dp < 0 ∨ d.dp = 0 ∧ rd d.d 0 < 53
    · rw [if_pos hc]
      dsimp only
      have hhalf := hcond.mp hc
      have hpos := h.good.value_pos
      have hplace := h.good.place.2
      -- the product stays below one
      obtain ⟨n, hn, hn1, hn27, hlt⟩ :
        ∃ n, n = (if 9 ≤ -d.dp then 27 else kPowTab.getD (-d.dp).toNat 0) ∧ 1 ≤ n ∧ n ≤ 27 ∧
          d.value * 2 ^ n < 1 := by
        refine ⟨_, rfl, ?_⟩
        split
        · rename_i h9
          refine ⟨by decide, le_rfl, ?_⟩
          have h1 : (10 : ℚ) ^ d.dp ≤ 10 ^ (-9 : ℤ) := zpow_le_zpow_right₀ (by norm_num) (by omega)
          have h10 : (10 : ℚ) ^ (-9 : ℤ) * 2 ^ 27 ≤ 1 := by norm_num
          have h27 : (0 : ℚ) < 2 ^ 27 := by norm_num
          calc d.value * 2 ^ 27 < 10 ^ (-9 : ℤ) * 2 ^ 27 :=
            mul_lt_mul_of_pos_right (hplace.trans_le h1) h27
            _ ≤ 1 := h10
        · obtain ⟨i, hi⟩ : ∃ i : ℕ, d.dp = -i := ⟨(-d.dp).toNat, by omega⟩
          rw [hi, neg_neg, Int.toNat_natCast]
          obtain ⟨h1, h2, h3, h4⟩ := kPowTab_up i (by omega)
          refine ⟨h1, h2, ?_⟩
          rcases Nat.eq_zero_or_pos i with rfl | hi0
          · rw [h4, pow_one]
            linarith
          · have h3' : (2 : ℚ) ^ kPowTab.getD i 0 ≤ 10 ^ i := by exact_mod_cast h3 hi0
            rw [hi, zpow_neg, zpow_natCast] at hplace
            have hten : (0 : ℚ) < 10 ^ i := by positivity
            calc d.value * 2 ^ kPowTab.getD i 0 ≤ d.value * 10 ^ i :=
              mul_le_mul_of_nonneg_left h3' hpos.le
              _ < (10 ^ i)⁻¹ * 10 ^ i := mul_lt_mul_of_pos_right hplace hten
              _ = 1 := inv_mul_cancel₀ hten.ne'
      rw [← hn, DecimalShift_left h.good (by omega) (by omega)]
      obtain ⟨hat, hcut, -, hneg, hge⟩ := LeftShift_at h (show 0 < n by omega) (by omega)
        (hlt.trans (one_lt_zpow₀ (by norm_num) (by norm_num))) hE
      have hdp0 : (LeftShift d n).dp ≤ 0 := hcut.place.2 (by rw [zpow_zero]; exact hlt)
      -- what is cut off is a small part
      have hgrow : d.value * (3 / 2) ≤ (LeftShift d n).value := by
        have hsmall :
            (10 : ℚ) ^ ((LeftShift d n).dp - (800 : ℕ)) ≤ 10 ^ ((LeftShift d n).dp - 1) / 3 := by
          have h1 : (10 : ℚ) ^ ((LeftShift d n).dp - (800 : ℕ)) ≤ 10 ^ ((LeftShift d n).dp - 1 - 1) :=
            zpow_le_zpow_right₀ (by norm_num) (by push_cast; omega)
          rw [zpow_sub_one₀ (by norm_num)] at h1
          have h2 := ten_zpow_pos ((LeftShift d n).dp - 1)
          linarith
        have h2n : (2 : ℚ) ≤ 2 ^ n := by
          have : (2 : ℚ) ^ 1 ≤ 2 ^ n := pow_le_pow_right₀ (by norm_num) hn1
          linarith
        have h3 := hcut.lt
        have h4 := hcut.lead
        have h5 := mul_le_mul_of_nonneg_left h2n hpos.le
        generalize (10 : ℚ) ^ ((LeftShift d n).dp - (800 : ℕ)) = cutOff at *
        generalize (10 : ℚ) ^ ((LeftShift d n).dp - 1) = lead at *
        linarith
      have hval' : 1 / 2 ≤ (LeftShift d n).value * (3 / 2) ^ fuel := by
        rw [pow_succ] at hval
        have hp : (0 : ℚ) < (3 / 2) ^ fuel := by positivity
        calc (1 / 2 : ℚ) ≤ d.value * ((3 / 2) ^ fuel * (3 / 2)) := hval
          _ = d.value * (3 / 2) * (3 / 2) ^ fuel := by ring
          _ ≤ _ := mul_le_mul_of_nonneg_right hgrow hp.le
      obtain ⟨d', E', heq, h1, h2, h3, h4⟩ := ih (LeftShift d n) (E - n) hat hdp0 (by omega) hval'
      exact ⟨d', E', heq, h1, h2, h3, h4.trans hneg⟩
    · rw [if_neg hc]
      have hhalf : 1 / 2 ≤ d.value := not_lt.mp fun hl => hc (hcond.mpr hl)
      exact ⟨d, E, rfl, h, by omega, hhalf, rfl⟩

end

/-! ### Rounding -/

section
variable {d : Decimal} {E : ℤ} {V : ℚ} {k p : ℕ}

theorem integerPart_eq (h : d.Good) : ∀ left i, integerPart d left i (d.pre i) = d.pre (i + left) := by
  intro left
  induction left with
  | zero => exact fun _ => rfl
  | succ left ih =>
    intro i
    have hstep : (if i < d.nd then d.pre i * 10 + digit d.d i else d.pre i * 10) = d.pre (i + 1) := by
      rw [Decimal.pre_succ h]
      split <;> rfl
    rw [integerPart, hstep, ih (i + 1)]
    congr 1
    omega

/-- What the digits behind the point are worth. -/
theorem rest_eq (h : d.Good) (hp : d.dp = p) :
    (d.nd ≤ p → d.value = d.pre p) ∧
      (p < d.nd → (d.value - d.pre p) * 10 ^ (d.nd - p) =
        digit d.d p * 10 ^ (d.nd - p - 1) + decimal (d.digits.drop (p + 1))) := by
  have hlen := Decimal.digits_length h.size h.le
  constructor
  · intro hle
    rw [Decimal.value, Decimal.pre_end h hle, hp]
    push_cast
    rw [← zpow_natCast]
    congr 2
    omega
  · intro hlt
    have hten : (0 : ℚ) < 10 ^ (d.nd - p) := by positivity
    have hsplit : decimal d.digits = d.pre p * 10 ^ (d.nd - p) + decimal (d.digits.drop p) := by
      conv_lhs => rw [← List.take_append_drop p d.digits]
      rw [decimal_append, List.length_drop, hlen, Decimal.pre, Nat.sub_eq_zero_of_le hlt.le,
        pow_zero, Nat.mul_one]
    have hcons : d.digits.drop p = rd d.d p :: d.digits.drop (p + 1) := by
      have htake := (digit_rd h hlt).1
      have happ := List.take_append_drop (p + 1) d.digits
      rw [htake, List.append_assoc, List.singleton_append] at happ
      exact List.append_cancel_left ((List.take_append_drop p d.digits).trans happ.symm)
    have hrest : (d.digits.drop (p + 1)).length = d.nd - p - 1 := by
      rw [List.length_drop, hlen]
      omega
    have hval : d.value * 10 ^ (d.nd - p) = decimal d.digits := by
      rw [Decimal.value, mul_assoc, ← zpow_natCast, ← zpow_add₀ (by norm_num), hp,
        show (p : ℤ) - d.nd + (d.nd - p : ℕ) = 0 by omega, zpow_zero, mul_one]
    rw [sub_mul, hval, hsplit, hcons, decimal_cons, hrest, digit]
    push_cast
    ring

/-- The integer part, and what is left. -/
theorem pre_floor (h : d.Good) (hp : d.dp = p) : (d.pre p : ℚ) ≤ d.value ∧ d.value < d.pre p + 1 := by
  obtain ⟨h1, h2⟩ := rest_eq h hp
  rcases Nat.lt_or_ge p d.nd with hlt | hle
  · have hten : (0 : ℚ) < 10 ^ (d.nd - p - 1) := by positivity
    have hdig : (digit d.d p : ℚ) ≤ 9 := by exact_mod_cast (digit_rd h hlt).2
    have hdrop : (decimal (d.digits.drop (p + 1)) : ℚ) < 10 ^ (d.nd - p - 1) := by
      have := decimal_lt fun b hb => h.isDigit b (List.mem_of_mem_drop (i := p + 1) hb)
      rw [List.length_drop, Decimal.digits_length h.size h.le, ← Nat.sub_sub] at this
      exact_mod_cast this
    have hrest := h2 hlt
    rw [show d.nd - p = d.nd - p - 1 + 1 by omega, pow_succ, Nat.add_sub_cancel] at hrest
    have h0 : (0 : ℚ) ≤ decimal (d.digits.drop (p + 1)) := Nat.cast_nonneg _
    have hd0 : (0 : ℚ) ≤ digit d.d p := Nat.cast_nonneg _
    generalize (10 : ℚ) ^ (d.nd - p - 1) = T at *
    constructor <;> by_contra hc <;> nlinarith
  · rw [h1 hle]
    exact ⟨le_rfl, by linarith⟩

/-- **The digit behind the point** decides, and when it is a half, the flag and the digit before it. -/
theorem ShouldRoundup_spec (h : d.Good) (ht : d.Trimmed) (hp : d.dp = p) :
    ShouldRoundup d d.dp = true ↔
      1 / 2 < d.value - d.pre p ∨ d.value - d.pre p = 1 / 2 ∧ (d.trunc = true ∨ d.pre p % 2 = 1) := by
  obtain ⟨h1, h2⟩ := rest_eq h hp
  unfold ShouldRoundup
  rw [hp, Int.toNat_natCast]
  rcases Nat.lt_or_ge p d.nd with hlt | hle
  · rw [if_neg (by omega)]
    dsimp only
    have hten : (0 : ℚ) < 10 ^ (d.nd - p - 1) := by positivity
    have hdrop : (decimal (d.digits.drop (p + 1)) : ℚ) < 10 ^ (d.nd - p - 1) := by
      have := decimal_lt fun b hb => h.isDigit b (List.mem_of_mem_drop (i := p + 1) hb)
      rw [List.length_drop, Decimal.digits_length h.size h.le, ← Nat.sub_sub] at this
      exact_mod_cast this
    have h0 : (0 : ℚ) ≤ decimal (d.digits.drop (p + 1)) := Nat.cast_nonneg _
    -- the digits behind are not all zero
    have hlast : p + 1 ≠ d.nd → (0 : ℚ) < decimal (d.digits.drop (p + 1)) := by
      intro hne
      have hpos : decimal (d.digits.drop (p + 1)) ≠ 0 := by
        intro hzero
        refine ht ((decimal_eq_zero_iff fun b hb => h.isDigit b (List.mem_of_mem_drop hb)).mp hzero
          _ ?_)
        have htake := (digit_rd h (show d.nd - 1 < d.nd by omega)).1
        rw [Nat.sub_add_cancel h.pos, List.take_of_length_le (Decimal.digits_length h.size h.le).le]
          at htake
        rw [htake, List.drop_append_of_le_length
          (by rw [List.length_take, Decimal.digits_length h.size h.le]; omega)]
        exact List.mem_append_right _ List.mem_cons_self
      exact_mod_cast Nat.pos_of_ne_zero hpos
    have hrest := h2 hlt
    rw [show d.nd - p = d.nd - p - 1 + 1 by omega, pow_succ, Nat.add_sub_cancel] at hrest
    have hbyte : ∀ n : Fin 256, is_digit (UInt8.ofNat n) = true →
        (53 ≤ UInt8.ofNat n ↔ 5 ≤ (UInt8.ofNat n).toNat - 48) ∧
          (UInt8.ofNat n = 53 ↔ (UInt8.ofNat n).toNat - 48 = 5) := by
      decide +kernel
    have hb := hbyte ⟨(rd d.d p).toNat, (rd d.d p).toNat_lt⟩
    simp only [UInt8.ofNat_toNat] at hb
    obtain ⟨hge, heq⟩ := hb (h.isDigit _ (List.mem_of_mem_take (i := p + 1)
      (by rw [(digit_rd h hlt).1]; exact List.mem_append_right _ List.mem_cons_self)))
    change _ ↔ 5 ≤ digit d.d p at hge
    change _ ↔ digit d.d p = 5 at heq
    by_cases hhalf : rd d.d p = 53 ∧ p + 1 = d.nd
    · rw [if_pos hhalf]
      have hzero : d.digits.drop (p + 1) = [] :=
        List.drop_eq_nil_of_le (by rw [Decimal.digits_length h.size h.le]; exact hhalf.2.ge)
      have hrho : d.value - d.pre p = 1 / 2 := by
        rw [hzero, heq.mp hhalf.1, show d.nd - p - 1 = 0 by omega] at hrest
        have : decimal [] = 0 := rfl
        rw [this] at hrest
        push_cast at hrest
        linarith
      have hodd : (0 < p ∧ digit d.d (p - 1) % 2 ≠ 0) ↔ d.pre p % 2 = 1 := by
        rcases Nat.eq_zero_or_pos p with rfl | hpos
        · rw [Decimal.pre_zero]
          omega
        · obtain ⟨q, rfl⟩ : ∃ q, p = q + 1 := ⟨p - 1, by omega⟩
          rw [Decimal.pre_succ h, if_pos (by omega), Nat.add_sub_cancel]
          omega
      rw [hrho]
      by_cases htr : d.trunc = true
      · rw [if_pos htr]
        exact iff_of_true rfl (.inr ⟨rfl, .inl htr⟩)
      · rw [if_neg htr, decide_eq_true_iff, hodd]
        constructor
        · exact fun ho => .inr ⟨rfl, .inr ho⟩
        · rintro (hc | ⟨-, hc | hc⟩)
          · exact absurd hc (lt_irrefl _)
          · exact absurd hc htr
          · exact hc
    · rw [if_neg hhalf, decide_eq_true_iff, hge]
      generalize (10 : ℚ) ^ (d.nd - p - 1) = T at *
      constructor
      · intro h5
        refine .inl ?_
        have h5' : (5 : ℚ) ≤ digit d.d p := by exact_mod_cast h5
        rcases lt_or_eq_of_le h5 with h6 | h6
        · have h6' : (6 : ℚ) ≤ digit d.d p := by exact_mod_cast h6
          nlinarith
        · have := hlast fun hnd => hhalf ⟨heq.mpr h6.symm, hnd⟩
          nlinarith
      · intro hr
        by_contra h5
        have h4 : (digit d.d p : ℚ) ≤ 4 := by exact_mod_cast (by omega : digit d.d p ≤ 4)
        have : d.value - d.pre p < 1 / 2 := by nlinarith
        rcases hr with hr | ⟨hr, -⟩ <;> linarith
  · rw [if_pos (by omega), h1 hle, sub_self]
    refine iff_of_false Bool.false_ne_true ?_
    rintro (hc | ⟨hc, -⟩) <;> norm_num at hc

/-- **The integer part, rounded**: as the number followed decides it. -/
theorem RoundedInteger_at (h : d.At E V) (ht : d.Trimmed) (hE : -1074 ≤ E) (hdp : d.dp ≤ 20)
    (hlt : d.value < 2 ^ 53) :
    ∃ (n : ℕ) (r : ℚ) (up : Bool), RoundedInteger d = n + up.toNat ∧ V = (n + r) * 2 ^ E ∧
      0 ≤ r ∧ r < 1 ∧
      (up = true ↔ 1 / 2 < r ∨ r = 1 / 2 ∧ n % 2 = 1) ∧ (n : ℚ) ≤ d.value ∧ d.value < n + 1 := by
  have hgood := h.good
  have h2 : (0 : ℚ) < 2 ^ E := zpow_pos (by norm_num) E
  have hhalf : ∀ n : ℕ, ((2 * n + 1 : ℕ) : ℚ) * 2 ^ (E - 1) = (n + 1 / 2) * 2 ^ E := by
    intro n
    rw [zpow_sub_one₀ (by norm_num)]
    push_cast
    ring
  -- what is not reached by the digits is not reached by the number
  have hbelow : ∀ n : ℕ, n < 2 ^ 53 → d.value < n + 1 / 2 → V / 2 ^ E < n + 1 / 2 := by
    intro n hn hv
    rw [div_lt_iff₀ h2, ← hhalf]
    apply h.tracks.clear (2 * n + 1) (E - 1) (by omega) (by omega)
    rw [hhalf]
    exact mul_lt_mul_of_pos_right hv h2
  have habove : ∀ n : ℕ, n < 2 ^ 53 → d.value < n + 1 → V / 2 ^ E < n + 1 := by
    intro n hn hv
    rw [div_lt_iff₀ h2]
    have := h.tracks.clear (n + 1) E (by omega) (by omega)
      (by push_cast; exact mul_lt_mul_of_pos_right hv h2)
    push_cast at this
    exact this
  have hle : d.value ≤ V / 2 ^ E := (le_div_iff₀ h2).mpr h.tracks.le
  have hflag : d.trunc = true ↔ d.value < V / 2 ^ E := by rw [h.tracks.flag, lt_div_iff₀ h2]
  have hV : ∀ n : ℕ, V = (n + (V / 2 ^ E - n)) * 2 ^ E := by
    intro n
    rw [add_sub_cancel, div_mul_cancel₀ _ h2.ne']
  unfold RoundedInteger
  rw [if_neg (by omega)]
  dsimp only
  rcases lt_or_ge d.dp 0 with hneg | hpos
  · have hsmall : d.value < 1 / 2 := by
      have h1 : (10 : ℚ) ^ d.dp ≤ 10 ^ (-1 : ℤ) := zpow_le_zpow_right₀ (by norm_num) (by omega)
      have h10 : (10 : ℚ) ^ (-1 : ℤ) < 1 / 2 := by norm_num
      exact (hgood.place.2.trans_le h1).trans h10
    have hround : ShouldRoundup d d.dp = false := by
      unfold ShouldRoundup
      rw [if_pos (.inl hneg)]
    have hb := hbelow 0 (by decide) (by push_cast; linarith)
    rw [Int.toNat_of_nonpos hneg.le, hround]
    refine ⟨0, V / 2 ^ E - (0 : ℕ), false, rfl, hV 0, ?_, ?_, ?_, ?_, ?_⟩
    · have := hgood.value_pos
      push_cast
      linarith
    · push_cast at hb ⊢
      linarith
    · refine iff_of_false Bool.false_ne_true ?_
      push_cast at hb ⊢
      rintro (hc | ⟨hc, -⟩) <;> linarith
    · push_cast
      exact hgood.value_pos.le
    · push_cast
      linarith
  · obtain ⟨p, hp⟩ : ∃ p : ℕ, d.dp = p := ⟨d.dp.toNat, by omega⟩
    obtain ⟨hlow, hup⟩ := pre_floor hgood hp
    have hround := ShouldRoundup_spec hgood ht hp
    have hint := integerPart_eq hgood p 0
    rw [Decimal.pre_zero, Nat.zero_add] at hint
    have hn : d.pre p < 2 ^ 53 := by
      have := hlow.trans_lt hlt
      exact_mod_cast this
    have hb := hbelow _ hn
    have ha := habove _ hn hup
    rw [show d.dp.toNat = p by omega, hint]
    refine ⟨d.pre p, V / 2 ^ E - d.pre p, ShouldRoundup d d.dp, ?_, hV _, by linarith, by linarith,
      ?_, hlow, hup⟩
    · cases ShouldRoundup d d.dp <;> rfl
    · rw [hround]
      constructor
      · rintro (hc | ⟨hc, htr | hodd⟩)
        · exact .inl (by linarith)
        · have := hflag.mp htr
          exact .inl (by linarith)
        · rcases lt_or_eq_of_le hle with hv | hv
          · exact .inl (by linarith)
          · exact .inr ⟨by linarith, hodd⟩
      · rintro (hc | ⟨hc, hodd⟩)
        · rcases lt_trichotomy (d.value - d.pre p) (1 / 2) with hv | hv | hv
          · have := hb (by linarith)
            linarith
          · exact .inr ⟨hv, .inl (hflag.mpr (by linarith))⟩
          · exact .inl hv
        · rcases lt_or_eq_of_le (show d.value - d.pre p ≤ 1 / 2 by linarith) with hv | hv
          · have := hb (by linarith)
            linarith
          · exact .inr ⟨hv, .inr hodd⟩

end

/-! ### The bits -/

/-- The factor of the sign. -/
def signFactor (neg : Bool) : ℤ := if neg then -1 else 1

theorem assemble_eq (neg : Bool) {mant E : ℕ} {e : ℤ} (he : e + 1023 = E) (hE : E < 2 ^ 11) :
    assemble neg mant e = signed (signFactor neg) (E * 2 ^ 52 + mant % 2 ^ 52) := by
  have hmask : mant &&& 0x000FFFFFFFFFFFFF = mant % 2 ^ 52 := Nat.and_two_pow_sub_one_eq_mod mant 52
  have hu : assemble.u11 (e + 1023) = E := by
    unfold assemble.u11
    omega
  have hmod : mant % 2 ^ 52 < 2 ^ 52 := Nat.mod_lt _ (by decide)
  unfold assemble
  dsimp only
  rw [hmask, hu, Nat.or_comm, Nat.shiftLeft_eq, Nat.mul_comm, ← Nat.two_pow_add_eq_or_of_lt hmod,
    Nat.mul_comm, ← @signed_or (signFactor neg) (E * 2 ^ 52 + mant % 2 ^ 52) (by omega)]
  cases neg <;> rfl

section
variable {d : Decimal} {E : ℤ} {V : ℚ}

theorem assemble_zero (neg : Bool) : assemble neg 0 (-1023) = signed (signFactor neg) 0 :=
  @assemble_eq neg 0 0 (-1023) rfl (by decide)

theorem assemble_inf (neg : Bool) :
    assemble neg 0 (0x7FF - 1023) = signed (signFactor neg) binary64.inf :=
  @assemble_eq neg 0 2047 (0x7FF - 1023) rfl (by decide)

/-- **The last fifty-three bits** are moved before the point and rounded. -/
theorem shift_53 (h : d.At E V) (hdp : d.dp ≤ 0) (hE : -1021 ≤ E) (hE' : E ≤ 46 ∨ -8 ≤ d.dp) :
    ∃ (n : ℕ) (r : ℚ) (up : Bool), RoundedInteger (DecimalShift d 53) = n + up.toNat ∧
      V = (n + r) * 2 ^ (E - 53) ∧ 0 ≤ r ∧
      r < 1 ∧ (up = true ↔ 1 / 2 < r ∨ r = 1 / 2 ∧ n % 2 = 1) ∧ (n : ℚ) ≤ d.value * 2 ^ 53 ∧
        (1 / 2 ≤ d.value → 2 ^ 52 ≤ n) ∧
      n < 2 ^ 53 ∧ (DecimalShift d 53).neg = d.neg := by
  have hone : d.value < 1 := by
    refine h.good.place.2.trans_le ?_
    have : (10 : ℚ) ^ d.dp ≤ 10 ^ (0 : ℤ) := zpow_le_zpow_right₀ (by norm_num) hdp
    rwa [zpow_zero] at this
  have hlt : d.value * 2 ^ 53 < 2 ^ 53 := by
    have : (0 : ℚ) < 2 ^ 53 := by norm_num
    nlinarith
  have hten : (2 : ℚ) ^ 53 < 10 ^ (16 : ℤ) := by norm_num
  have hbig : (10 : ℚ) ^ (16 : ℤ) ≤ 10 ^ (800 : ℤ) := zpow_le_zpow_right₀ (by norm_num) (by norm_num)
  have hshift : DecimalShift d 53 = LeftShift d 53 := DecimalShift_left h.good (by decide) (by decide)
  obtain ⟨hat, hcut, htrim, hneg, -⟩ :=
    LeftShift_at h (show 0 < 53 by decide) (by decide) ((hlt.trans hten).trans_le hbig) hE'
  have hdp' := hcut.place.2 (hlt.trans hten)
  obtain ⟨n, r, up, h1, h2, h3, h4, h5, h6, h7⟩ :=
    RoundedInteger_at hat htrim (by push_cast; omega) (by omega) (hcut.le.trans_lt hlt)
  rw [hshift]
  refine ⟨n, r, up, h1, h2, h3, h4, h5, h6.trans hcut.le, fun hhalf => ?_, ?_, hneg⟩
  · -- the cut does not go below a power of two
    have hge : (2 : ℚ) ^ 52 ≤ d.value * 2 ^ 53 := by
      have : (0 : ℚ) < 2 ^ 53 := by norm_num
      calc (2 : ℚ) ^ 52 = 1 / 2 * 2 ^ 53 := by norm_num
        _ ≤ d.value * 2 ^ 53 := mul_le_mul_of_nonneg_right hhalf this.le
    have hn : (2 : ℚ) ^ 52 < n + 1 := by
      by_contra hc
      have hv : (LeftShift d 53).value < (2 ^ 52 : ℕ) * 2 ^ (0 : ℤ) := by
        rw [zpow_zero, mul_one]
        push_cast
        linarith
      have := hcut.clear (by omega) (by decide) (.inl (by decide)) hv
      rw [zpow_zero, mul_one] at this
      push_cast at this
      linarith
    have hn' : 2 ^ 52 < n + 1 := by exact_mod_cast hn
    omega
  · have := (h6.trans hcut.le).trans_lt hlt
    exact_mod_cast this

theorem and_bit52 {n : ℕ} (h : n < 2 ^ 53) : n &&& 1 <<< 52 = 0 ↔ n < 2 ^ 52 := by
  rw [Nat.one_shiftLeft, Nat.and_two_pow]
  have hbit : n.testBit 52 = decide (2 ^ 52 ≤ n) := by
    rw [Nat.testBit_eq_decide_div_mod_eq]
    congr 1
    apply propext
    omega
  rw [hbit, ← not_le]
  by_cases hc : 2 ^ 52 ≤ n
  · rw [decide_eq_true hc]
    exact iff_of_false (by decide) (not_not_intro hc)
  · rw [decide_eq_false hc]
    exact iff_of_true (by decide) hc

/-- From a number of the range on that is not subnormal. -/
theorem extract_normal (h : d.At E V) (hdp : d.dp = 0) (hhalf : 1 / 2 ≤ d.value) (hE : -1021 ≤ E) :
    ∃ b, extract d E = signed (signFactor d.neg) b ∧ binary64.Nearest V b := by
  have hnorm : ¬ E - 1 < -1022 := by omega
  unfold extract
  dsimp only
  rw [if_neg hnorm]
  dsimp only
  by_cases hover : 0x7FF ≤ E - 1 + 1023
  · rw [if_pos hover, assemble_inf]
    refine ⟨_, rfl, Format.nearest_inf ?_⟩
    rw [binary64_val_inf]
    obtain ⟨N, hN⟩ : ∃ N : ℕ, N = 1024 := ⟨_, rfl⟩
    have hpow : (2 : ℚ) ^ N ≤ 1 / 2 * 2 ^ E := by
      have h1 : (2 : ℚ) ^ (N : ℤ) ≤ 2 ^ (E - 1) := zpow_le_zpow_right₀ (by norm_num) (by omega)
      rw [zpow_sub_one₀ (by norm_num), zpow_natCast] at h1
      linarith
    rw [← hN]
    calc (2 : ℚ) ^ N ≤ 1 / 2 * 2 ^ E := hpow
      _ ≤ d.value * 2 ^ E := mul_le_mul_of_nonneg_right hhalf (zpow_nonneg (by norm_num) E)
      _ ≤ V := h.tracks.le
  · rw [if_neg hover]
    obtain ⟨n, r, up, h1, h2, h3, h4, h5, -, h7, h8, h9⟩ := shift_53 h (by omega) hE (.inr (by omega))
    have hn := h7 hhalf
    have hup := Bool.toNat_le up
    have hexp : E - 53 = E + 1022 - 1075 := by ring
    rw [hexp] at h2
    have hnear := @nearest_bits V r n (E + 1022) up hn h8 (.inl (by omega)) h2 h3 h4 h5 (by omega)
    rw [h1, h9]
    by_cases hcarry : n + up.toNat = 2 <<< 52
    · -- rounded up to a power of two
      have h53 : 2 <<< 52 = 2 ^ 53 := by decide
      rw [if_pos hcarry]
      dsimp only
      rw [h53] at hcarry
      rw [hcarry] at hnear ⊢
      obtain ⟨F, hF⟩ : ∃ F : ℕ, E + 1023 = F := ⟨(E + 1023).toNat, by omega⟩
      have hb : ((E + 1022 - 1) * 2 ^ 52 + (2 ^ 53 : ℕ)).toNat = F * 2 ^ 52 := by omega
      rw [hb] at hnear
      by_cases hinf : 0x7FF ≤ E - 1 + 1 + 1023
      · rw [if_pos hinf, assemble_inf]
        have hF' : F = 2047 := by omega
        rw [hF'] at hnear
        exact ⟨_, rfl, hnear⟩
      · have hbit : ¬ 2 ^ 53 >>> 1 &&& 1 <<< 52 = 0 := by decide +kernel
        have hrest : 2 ^ 53 >>> 1 % 2 ^ 52 = 0 := by decide +kernel
        rw [if_neg hinf, if_neg hbit, @assemble_eq d.neg _ F _ (by omega) (by omega), hrest,
          Nat.add_zero]
        exact ⟨_, rfl, hnear⟩
    · have h53 : 2 <<< 52 = 2 ^ 53 := by decide
      rw [if_neg hcarry]
      dsimp only
      rw [h53] at hcarry
      obtain ⟨F, hF⟩ : ∃ F : ℕ, E + 1022 = F := ⟨(E + 1022).toNat, by omega⟩
      rw [if_neg hover, if_neg (by rw [and_bit52 (by omega)]; omega),
        @assemble_eq d.neg _ F _ (by omega) (by omega)]
      refine ⟨_, rfl, ?_⟩
      have hb : ((E + 1022 - 1) * 2 ^ 52 + (n + up.toNat : ℕ)).toNat =
        F * 2 ^ 52 + (n + up.toNat) % 2 ^ 52 := by omega
      rwa [hb] at hnear

/-- From a number of the range on that is subnormal: it is moved to the least exponent first. -/
theorem extract_subnormal (h : d.At E V) (hdp : d.dp = 0) (hE : E < -1021) :
    ∃ b, extract d E = signed (signFactor d.neg) b ∧ binary64.Nearest V b := by
  obtain ⟨k, hk⟩ : ∃ k : ℕ, -1022 - (E - 1) = k := ⟨(-1022 - (E - 1)).toNat, by omega⟩
  have hk0 : 0 < k := by omega
  have hshift : DecimalShift d (-(k : ℤ)) = shifts RightShift (k + 1) d k := by
    have := h.good.pos
    unfold DecimalShift
    rw [if_neg (by omega), if_neg (by omega), neg_neg, Int.toNat_natCast]
  obtain ⟨hat, hval, hneg, hdp'⟩ :=
    shifts_right_at (k + 1) k d E (Nat.lt_succ_self k) h (by omega) (by omega) hk0
  rw [← hshift] at hat hval hneg hdp'
  have hexp : E + k = -1021 := by omega
  rw [hexp] at hat
  have hsmall : E - 1 < -1022 := by omega
  have hE2 : E - 1 + k = -1022 := by omega
  have hover : ¬ (0x7FF : ℤ) ≤ -1022 + 1023 := by decide
  unfold extract
  dsimp only
  rw [if_pos hsmall, hk]
  dsimp only
  rw [hE2, if_neg hover]
  generalize DecimalShift d (-(k : ℤ)) = d₁ at *
  obtain ⟨n, r, up, h1, h2, h3, h4, h5, h6, -, -, h9⟩ :=
    shift_53 hat (by omega) (by omega) (.inl (by omega))
  have hlt : n < 2 ^ 52 := by
    have hone : d.value < 1 := by
      have := h.good.place.2
      rwa [hdp, zpow_zero] at this
    have hpow : (2 : ℚ) ≤ 2 ^ k := by
      have : (2 : ℚ) ^ 1 ≤ 2 ^ k := pow_le_pow_right₀ (by norm_num) hk0
      linarith
    have hhalf : d₁.value < 1 / 2 := by
      refine hval.trans_lt ?_
      rw [div_lt_iff₀ (by positivity)]
      linarith
    have : (n : ℚ) < 2 ^ 52 := by
      have h53 : (2 : ℚ) ^ 53 = 2 * 2 ^ 52 := by norm_num
      rw [h53] at h6
      have : (0 : ℚ) < 2 ^ 52 := by norm_num
      nlinarith
    exact_mod_cast this
  have hup := Bool.toNat_le up
  have hfit : binary64.Fits 0 n := ⟨fun _ => rfl, by show n < 2 ^ 53; omega⟩
  have henc : binary64.enc 0 n = n := by
    unfold Format.enc
    rw [Nat.zero_mul, Nat.zero_add]
  have hulp : binary64.ulp 0 = 2 ^ ((-1021 : ℤ) - 53) := rfl
  have hinf : binary64.inf = 2047 * 2 ^ 52 := rfl
  have hnear := @Format.nearest_floor binary64 0 n V r up hfit (by rw [henc, hinf]; omega)
    (by rw [hulp]; exact h2) h3 h4 h5
  rw [henc] at hnear
  have h53 : 2 <<< 52 = 2 ^ 53 := by decide
  have hcarry : ¬ n + up.toNat = 2 <<< 52 := by
    rw [h53]
    omega
  rw [h1, h9, if_neg hcarry]
  dsimp only
  rw [if_neg hover, hneg]
  have hbit := @and_bit52 (n + up.toNat) (by omega)
  by_cases hsub : n + up.toNat < 2 ^ 52
  · rw [if_pos (hbit.mpr hsub), @assemble_eq d.neg _ 0 _ rfl (by decide), Nat.mod_eq_of_lt hsub,
      Nat.zero_mul, Nat.zero_add]
    exact ⟨_, rfl, hnear⟩
  · have heq : n + up.toNat = 2 ^ 52 := by omega
    rw [if_neg fun hc => hsub (hbit.mp hc), @assemble_eq d.neg _ 1 _ rfl (by decide), heq]
    rw [heq] at hnear
    exact ⟨_, rfl, hnear⟩

/-- **The rounding at the end.** -/
theorem extract_nearest (h : d.At E V) (hdp : d.dp = 0) (hhalf : 1 / 2 ≤ d.value) :
    ∃ b, extract d E = signed (signFactor d.neg) b ∧ binary64.Nearest V b := by
  rcases lt_or_ge E (-1021) with hE | hE
  · exact extract_subnormal h hdp hE
  · exact extract_normal h hdp hhalf hE

/-- A number that is less than half of the least number. -/
theorem nearest_zero (h0 : 0 ≤ V) (h : V ≤ 2 ^ (-1075 : ℤ)) : binary64.Nearest V 0 := by
  have hulp : binary64.ulp 0 = 2 * 2 ^ (-1075 : ℤ) := by
    unfold Format.ulp binary64
    dsimp only
    rw [show ((0 : ℕ) : ℤ) + -1074 = -1075 + 1 by norm_num, zpow_add_one₀ (by norm_num)]
    ring
  have hpos : (0 : ℚ) < 2 ^ (-1075 : ℤ) := zpow_pos (by norm_num) _
  have hr : V / (2 * 2 ^ (-1075 : ℤ)) ≤ 1 / 2 := by
    rw [div_le_iff₀ (by linarith)]
    linarith
  have hfit : binary64.Fits 0 0 := ⟨fun _ => rfl, by decide⟩
  have hzero : binary64.enc 0 0 = 0 := rfl
  have hnear := @Format.nearest_floor binary64 0 0 V (V / (2 * 2 ^ (-1075 : ℤ))) false hfit (by decide)
    (by rw [hulp, Nat.cast_zero, zero_add, div_mul_cancel₀ _ (by linarith)])
      (div_nonneg h0 (by linarith)) (by linarith)
    (iff_of_false Bool.false_ne_true (by rintro (hc | ⟨-, hc⟩); linarith; exact absurd hc (by decide)))
  rwa [hzero] at hnear

/-- **The number that the decimal is cut from is rounded correctly.** -/
theorem DecimalToF64_nearest (hgood : d.Good) (hcut : Cut 800 V d.value d.dp)
    (htrunc : d.trunc = true ↔ d.value < V) :
    ∃ b, DecimalToF64 2048 d = some (signed (signFactor d.neg) b) ∧ binary64.Nearest V b := by
  have hnd := hgood.pos
  have hV : 0 < V := hcut.pos.trans_le hcut.le
  unfold DecimalToF64
  rw [if_neg (by omega)]
  by_cases hbig : 310 < d.dp
  · rw [if_pos hbig, assemble_inf]
    refine ⟨_, rfl, Format.nearest_inf ?_⟩
    have hnum : 2 ^ 1024 ≤ 10 ^ 310 := by decide +kernel
    have hnum' : (2 : ℚ) ^ 1024 ≤ 10 ^ 310 := by exact_mod_cast hnum
    rw [binary64_val_inf]
    calc (2 : ℚ) ^ 1024 ≤ 10 ^ 310 := hnum'
      _ = 10 ^ (310 : ℤ) := (zpow_natCast 10 310).symm
      _ ≤ 10 ^ (d.dp - 1) := zpow_le_zpow_right₀ (by norm_num) (by omega)
      _ ≤ d.value := hcut.lead
      _ ≤ V := hcut.le
  rw [if_neg hbig]
  by_cases hsmall : d.dp < -330
  · rw [if_pos hsmall, assemble_zero]
    refine ⟨_, rfl, nearest_zero hV.le ?_⟩
    have hnum : 2 ^ 1075 ≤ 10 ^ 331 := by decide +kernel
    have hnum' : (2 : ℚ) ^ 1075 ≤ 10 ^ 331 := by exact_mod_cast hnum
    have hpos : (0 : ℚ) < 2 ^ 1075 := by positivity
    calc V ≤ 10 ^ d.dp := hcut.lt_top.le
      _ ≤ 10 ^ (-331 : ℤ) := zpow_le_zpow_right₀ (by norm_num) (by omega)
      _ = ((10 : ℚ) ^ 331)⁻¹ := by rw [zpow_neg]; rfl
      _ ≤ ((2 : ℚ) ^ 1075)⁻¹ := inv_anti₀ hpos hnum'
      _ = 2 ^ (-1075 : ℤ) := by rw [zpow_neg]; rfl
  rw [if_neg hsmall]
  have hat : d.At 0 V := by
    have hself : Tracks (-1075) (V * 2 ^ (0 : ℤ)) V False := by
      rw [zpow_zero, mul_one]
      exact ⟨le_rfl, (iff_false_intro (lt_irrefl V)).symm, fun _ _ _ _ h => h⟩
    exact ⟨hgood, hself.cut hcut (by rw [htrunc, false_or]) (by omega) (by omega)⟩
  obtain ⟨N, hN⟩ : ∃ N : ℕ, N = 2047 := ⟨_, rfl⟩
  have hdown : d.value < 8 ^ N := by
    have hnum : 10 ^ 310 ≤ 8 ^ N := by
      rw [hN]
      decide +kernel
    have hnum' : (10 : ℚ) ^ 310 ≤ 8 ^ N := by exact_mod_cast hnum
    calc d.value < 10 ^ d.dp := hgood.place.2
      _ ≤ 10 ^ (310 : ℤ) := zpow_le_zpow_right₀ (by norm_num) (by omega)
      _ = 10 ^ 310 := zpow_natCast 10 310
      _ ≤ 8 ^ N := hnum'
  obtain ⟨d₁, E₁, hd₁, h1, h2, h3, h4, h5⟩ := scaleDown_at N d 0 hat (by omega) hdown (.inl (by decide))
  have hup : 1 / 2 ≤ d₁.value * (3 / 2) ^ N := by
    have hnum : 2 ^ N * 10 ^ 331 ≤ 3 ^ N * 2 := by
      rw [hN]
      decide +kernel
    have hnum' : (2 : ℚ) ^ N * 10 ^ 331 ≤ 3 ^ N * 2 := by exact_mod_cast hnum
    have hlow : (10 : ℚ) ^ (-331 : ℤ) ≤ d₁.value :=
      (zpow_le_zpow_right₀ (by norm_num) (by omega)).trans h1.good.place.1
    have hpos : (0 : ℚ) < 10 ^ 331 := by positivity
    have hneg : (10 : ℚ) ^ (-331 : ℤ) = ((10 : ℚ) ^ 331)⁻¹ := by rw [zpow_neg]; rfl
    rw [hneg] at hlow
    generalize (10 : ℚ) ^ 331 = T at *
    have h2N : (0 : ℚ) < 2 ^ N := by positivity
    rw [div_pow]
    calc (1 / 2 : ℚ) ≤ T⁻¹ * (3 ^ N / 2 ^ N) := by
          rw [inv_mul_eq_div, div_div, le_div_iff₀ (by positivity)]
          linarith
      _ ≤ _ := mul_le_mul_of_nonneg_right hlow (by positivity)
  obtain ⟨d₂, E₂, hd₂, k1, k2, k3, k4⟩ := scaleUp_at N d₁ E₁ h1 h2 h3 hup
  rw [hN] at hd₁ hd₂
  rw [hd₁]
  dsimp only
  rw [hd₂]
  dsimp only
  obtain ⟨b, hb, hnear⟩ := extract_nearest k1 k2 k3
  exact ⟨b, by rw [hb, k4, h4], hnear⟩

end

end SonicJson
