/-
# The shortest decimal of a double

`F64ToDecimal` brings the bounds of the rounding interval to a power of ten that is within
a digit of their distance, and looks for a multiple of ten between them, and else for an
integer. As the three products are on the right side of every even number, its comparisons
are those of the exact numbers, and what it chooses is the shortest decimal of the
interval, and the nearest of these (`F64ToDecimal_best`).
-/
import SonicJson.RoundToOdd
import SonicJson.EiselLemire
import SonicJson.Lib.Shortest

namespace SonicJson

open Binary Shortest

structure F64Decimal where
  sig : ℕ
  exp : ℤ
  deriving DecidableEq

/-- From the comparisons of the bounds on: `lower` and `upper` are four times the bounds, and `vb`
four times the value. -/
def selectDecimal (lower upper vb : ℕ) (k : ℤ) : F64Decimal :=
  let s := vb / 4
  let sp := s / 10
  let up_inside := decide (lower ≤ 40 * sp)
  let wp_inside := decide (40 * sp + 40 ≤ upper)
  if 10 ≤ s ∧ up_inside ≠ wp_inside then ⟨sp + wp_inside.toNat, k + 1⟩
  else
    let u_inside := decide (lower ≤ 4 * s)
    let w_inside := decide (4 * s + 4 ≤ upper)
    if u_inside ≠ w_inside then ⟨s + w_inside.toNat, k⟩
    else
      let mid := 4 * s + 2
      let round_up := decide (mid < vb ∨ vb = mid ∧ s % 2 ≠ 0)
      ⟨s + round_up.toNat, k⟩

def F64ToDecimal (rsig : ℕ) (rexp : ℤ) (c : ℕ) (q : ℤ) : F64Decimal :=
  let even := c % 2 = 0
  let irregular := rsig = 0 ∧ 1 < rexp
  let cbl := 4 * c - 2 + if irregular then 1 else 0
  let cb := 4 * c
  let cbr := 4 * c + 2
  let k := (q * 1262611 - if irregular then 524031 else 0) / 2 ^ 22
  let h := (q + -k * 1741647 / 2 ^ 19 + 1).toNat
  let pow10 := Pow10CeilSig (-k)
  let vbl := RoundToOdd pow10 ((cbl <<< h) % 2 ^ 64)
  let vb := RoundToOdd pow10 ((cb <<< h) % 2 ^ 64)
  let vbr := RoundToOdd pow10 ((cbr <<< h) % 2 ^ 64)
  let lower := vbl + if even then 0 else 1
  let upper := vbr - if even then 0 else 1
  selectDecimal lower upper vb k

/-- The numbers that round to `c * 2 ^ q`: up to half the distance to the numbers beside it, where
below a power of two the distance is half of that above. The bounds belong to it when `c` is even.
-/
def RoundingInterval (c : ℕ) (q : ℤ) : Set ℚ :=
  let l : ℚ := ((4 * c - 2 + if c = 2 ^ 52 ∧ q ≠ -1074 then 1 else 0 : ℕ) : ℚ) * 2 ^ (q - 2)
  let r : ℚ := ((4 * c + 2 : ℕ) : ℚ) * 2 ^ (q - 2)
  if c % 2 = 0 then Set.Icc l r else Set.Ioo l r

/-! ### The scaled interval -/

/-- A numeral and a scale for which the products are exact enough. -/
structure Usable (X : ℕ) (q k : ℤ) : Prop where
  lt : X < 2 ^ 56
  clear : Clear ((X : ℚ) * ((2 : ℚ) ^ q * 10 ^ (-k)))

/-- **The product of the source** is on the side of the exact number. -/
theorem RoundToOdd_Pow10CeilSig {X : ℕ} {q k : ℤ} (hk : InTable q k) (hX : Usable X q k) :
    SameSide (RoundToOdd (Pow10CeilSig (-k)) ((X <<< (q + -k * 1741647 / 2 ^ 19 + 1).toNat) % 2 ^ 64))
      ((X : ℚ) * ((2 : ℚ) ^ q * 10 ^ (-k))) := by
  have h0 := hk.shift_nonneg
  have h3 := hk.shift_le
  have htab := @Pow10CeilSig_ceil (-k) (by linarith [hk.k_le]) (by linarith [hk.k_ge])
  generalize hsh : (q + -k * 1741647 / 2 ^ 19 + 1).toNat = sh
  have hsh4 : sh ≤ 4 := by omega
  have hq : q = sh - 128 - pow10CeilExp2 (-k) := by
    unfold pow10CeilExp2
    omega
  have hlt : X * 2 ^ sh < 2 ^ 60 := by
    calc X * 2 ^ sh < 2 ^ 56 * 2 ^ sh := Nat.mul_lt_mul_of_pos_right hX.lt (Nat.pow_pos (by decide))
      _ ≤ 2 ^ 56 * 2 ^ 4 := Nat.mul_le_mul_left _ (Nat.pow_le_pow_right (by decide) hsh4)
      _ = 2 ^ 60 := by norm_num
  rw [Nat.shiftLeft_eq, Nat.mod_eq_of_lt (hlt.trans (by norm_num))]
  generalize Pow10CeilSig (-k) = pow10 at htab ⊢
  obtain ⟨hi, lo⟩ := pow10
  have hle := htab.le
  have hlt' := htab.lt
  dsimp only at hle hlt'
  generalize pow10CeilExp2 (-k) = r at hle hlt' hq
  -- the power in units of the table
  have hr : (0 : ℚ) < 2 ^ r := zpow_pos (by norm_num) r
  have hscale : (X : ℚ) * ((2 : ℚ) ^ q * 10 ^ (-k)) * 2 ^ 128 =
      ((X * 2 ^ sh : ℕ) : ℚ) * (10 ^ (-k) / 2 ^ r) := by
    have h2 : (2 : ℚ) ^ q * 2 ^ 128 = 2 ^ sh / 2 ^ r := by
      rw [eq_div_iff hr.ne', ← zpow_natCast, ← zpow_natCast, ← zpow_add₀ (by norm_num),
        ← zpow_add₀ (by norm_num), hq]
      congr 1
      push_cast
      ring
    rw [mul_assoc, mul_right_comm, h2]
    push_cast
    field_simp
  have hup : (10 : ℚ) ^ (-k) / 2 ^ r ≤ ((hi * 2 ^ 64 + lo : ℕ) : ℚ) := by
    rw [div_le_iff₀ hr]
    exact hle
  have hlow : ((hi * 2 ^ 64 + lo : ℕ) : ℚ) - 1 < (10 : ℚ) ^ (-k) / 2 ^ r := by
    rw [lt_div_iff₀ hr]
    exact hlt'
  have hcp : ((X * 2 ^ sh : ℕ) : ℚ) < 2 ^ 64 := by exact_mod_cast hlt.trans (by norm_num)
  apply RoundToOdd_sameSide (by positivity) _ _ hX.clear
  · rw [hscale, Nat.cast_mul (X * 2 ^ sh)]
    exact mul_le_mul_of_nonneg_left hup (Nat.cast_nonneg _)
  · rw [hscale, Nat.cast_mul (X * 2 ^ sh)]
    have hcp0 : (0 : ℚ) ≤ ((X * 2 ^ sh : ℕ) : ℚ) := Nat.cast_nonneg _
    generalize ((X * 2 ^ sh : ℕ) : ℚ) = cp at *
    generalize ((hi * 2 ^ 64 + lo : ℕ) : ℚ) = G at *
    generalize (10 : ℚ) ^ (-k) / 2 ^ r = β at *
    calc cp * G = cp * (G - 1) + cp := by ring
      _ ≤ cp * β + cp := by linarith [mul_le_mul_of_nonneg_left hlow.le hcp0]
      _ < cp * β + 2 ^ 64 := by linarith

/-- Four times a number of the interval, from `l` to `r`, with or without the bounds. -/
structure Quarters (J : Set ℚ) (even : Prop) (l r : ℚ) : Prop where
  closed : even → ∀ x, x ∈ J ↔ l ≤ 4 * x ∧ 4 * x ≤ r
  opened : ¬ even → ∀ x, x ∈ J ↔ l < 4 * x ∧ 4 * x < r

section
variable {J : Set ℚ} {even : Prop} [Decidable even] {l v r : ℚ} {vbl vb vbr : ℕ}

theorem Quarters.ordConnected (h : Quarters J even l r) : J.OrdConnected := by
  refine ⟨fun x hx y hy z hz => ?_⟩
  have h1 := hz.1
  have h2 := hz.2
  by_cases he : even
  · rw [h.closed he] at hx hy ⊢
    exact ⟨by linarith, by linarith⟩
  · rw [h.opened he] at hx hy ⊢
    exact ⟨by linarith, by linarith⟩

/-- In either case. -/
theorem Quarters.bounds (h : Quarters J even l r) {x : ℚ} (hx : x ∈ J) : l ≤ 4 * x ∧ 4 * x ≤ r := by
  by_cases he : even
  · exact (h.closed he x).mp hx
  · have := (h.opened he x).mp hx
    exact ⟨this.1.le, this.2.le⟩

theorem Quarters.of_between (h : Quarters J even l r) {x : ℚ} (h1 : l < 4 * x) (h2 : 4 * x < r) :
    x ∈ J := by
  by_cases he : even
  · exact (h.closed he x).mpr ⟨h1.le, h2.le⟩
  · exact (h.opened he x).mpr ⟨h1, h2⟩

/-- The comparison with the lower bound. -/
theorem Quarters.below (h : Quarters J even l r) (hl : SameSide vbl l) (hvr : v < r) {t : ℕ}
    (ht : ((2 * t : ℕ) : ℚ) ≤ v) :
    ((2 * t : ℕ) : ℚ) / 4 ∈ J ↔ vbl + (if even then 0 else 1) ≤ 2 * t := by
  have h4 : 4 * (((2 * t : ℕ) : ℚ) / 4) = ((2 * t : ℕ) : ℚ) := by ring
  have hup : ((2 * t : ℕ) : ℚ) < r := ht.trans_lt hvr
  by_cases he : even
  · rw [h.closed he, h4, if_pos he, Nat.add_zero, hl.le]
    exact ⟨fun h => h.1, fun h => ⟨h, hup.le⟩⟩
  · rw [h.opened he, h4, if_neg he, Nat.add_one_le_iff, ← not_le (a := 2 * t), hl.ge, not_le]
    exact ⟨fun h => h.1, fun h => ⟨h, hup⟩⟩

/-- The comparison with the upper bound. -/
theorem Quarters.above (h : Quarters J even l r) (hr : SameSide vbr r) (hlv : l < v) {t : ℕ}
    (ht : v ≤ ((2 * t : ℕ) : ℚ)) (h2 : 2 ≤ r) : ((2 * t : ℕ) : ℚ) / 4 ∈ J ↔
    2 * t ≤ vbr - if even then 0 else 1 := by
  have h4 : 4 * (((2 * t : ℕ) : ℚ) / 4) = ((2 * t : ℕ) : ℚ) := by ring
  have hlow : l < ((2 * t : ℕ) : ℚ) := hlv.trans_le ht
  have hvbr : 2 * 1 ≤ vbr := (hr.ge 1).mpr (by exact_mod_cast h2)
  by_cases he : even
  · rw [h.closed he, h4, if_pos he, Nat.sub_zero, hr.ge]
    exact ⟨fun h => h.2, fun h => ⟨hlow.le, h⟩⟩
  · rw [h.opened he, h4, if_neg he]
    have hlt : 2 * t ≤ vbr - 1 ↔ ¬ vbr ≤ 2 * t := by omega
    rw [hlt, hr.le, not_le]
    exact ⟨fun h => h.2, fun h => ⟨hlow, h⟩⟩

/-- **The selection is the best decimal.** -/
theorem selectDecimal_best (h : Quarters J even l r) (hl : SameSide vbl l) (hv : SameSide vb v)
    (hr : SameSide vbr r) (h0 : 0 < l) (hlv : l < v) (hvr : v < r) (h2 : 2 ≤ r) (hten : r - l < 40)
    (hone : ∀ s : ℕ, (4 * s : ℚ) ≤ v → v < 4 * s + 4 → (s : ℚ) ∈ J ∨ (s : ℚ) + 1 ∈ J) (k : ℤ) :
    ∃ n e, selectDecimal (vbl + if even then 0 else 1) (vbr - if even then 0 else 1) vb k =
      ⟨n, e + k⟩ ∧ Best J (v / 4) n e := by
  have hJ := h.ordConnected
  have hpos : ∀ x ∈ J, 0 < x := fun x hx => by linarith [(h.bounds hx).1]
  have hV : v / 4 ∈ J := h.of_between (by linarith) (by linarith)
  have htwo : ∀ z : ℤ, ¬ ((z : ℚ) * 10 ∈ J ∧ ((z : ℚ) + 1) * 10 ∈ J) := by
    rintro z ⟨hz, hz'⟩
    linarith [(h.bounds hz).1, (h.bounds hz').2]
  unfold selectDecimal
  dsimp only
  -- the integers and the multiples of ten beside the value
  have hs : 4 * (vb / 4) ≤ vb ∧ vb < 4 * (vb / 4) + 4 := by omega
  have hs1 := (hv.ge (2 * (vb / 4))).mp (by omega)
  have hs2 := (not_congr (hv.ge (2 * (vb / 4) + 2))).mp (by omega)
  have hmid := hv.le (2 * (vb / 4) + 1)
  have hmid' := hv.ge (2 * (vb / 4) + 1)
  have hsp : 10 * (vb / 4 / 10) ≤ vb / 4 ∧ vb / 4 < 10 * (vb / 4 / 10) + 10 := by omega
  clear hs
  generalize vb / 4 = s at *
  generalize s / 10 = sp at *
  push_cast at hs1 hs2 hmid hmid'
  rw [not_le] at hs2
  have hsq1 : (10 * sp : ℚ) ≤ s := by exact_mod_cast hsp.1
  have hsq2 : (s : ℚ) + 1 ≤ 10 * sp + 10 := by exact_mod_cast hsp.2
  have hone := hone s (by linarith) (by linarith)
  have hup : (sp : ℚ) * 10 ∈ J ↔ vbl + (if even then 0 else 1) ≤ 40 * sp := by
    have := h.below hl hvr (t := 20 * sp) (by push_cast; linarith)
    rw [show 2 * (20 * sp) = 40 * sp by ring] at this
    rw [← this]
    push_cast
    ring_nf
  have hwp : ((sp : ℚ) + 1) * 10 ∈ J ↔ 40 * sp + 40 ≤ vbr - if even then 0 else 1 := by
    have := h.above hr hlv (t := 20 * sp + 20) (by push_cast; linarith) h2
    rw [show 2 * (20 * sp + 20) = 40 * sp + 40 by ring] at this
    rw [← this]
    push_cast
    ring_nf
  have hu : (s : ℚ) ∈ J ↔ vbl + (if even then 0 else 1) ≤ 4 * s := by
    have := h.below hl hvr (t := 2 * s) (by push_cast; linarith)
    rw [show 2 * (2 * s) = 4 * s by ring] at this
    rw [← this]
    push_cast
    ring_nf
  have hw : (s : ℚ) + 1 ∈ J ↔ 4 * s + 4 ≤ vbr - if even then 0 else 1 := by
    have := h.above hr hlv (t := 2 * s + 2) (by push_cast; linarith) h2
    rw [show 2 * (2 * s + 2) = 4 * s + 4 by ring] at this
    rw [← this]
    push_cast
    ring_nf
  generalize vbl + (if even then 0 else 1) = lower at *
  generalize (vbr - if even then 0 else 1) = upper at *
  by_cases hA : 10 ≤ s ∧ decide (lower ≤ 40 * sp) ≠ decide (40 * sp + 40 ≤ upper)
  · rw [if_pos hA]
    refine ⟨_, 1, congrArg (F64Decimal.mk _) (add_comm k 1),
      best_ten hJ hV hpos htwo (by linarith) (by linarith) ?_⟩
    by_cases hwi : 40 * sp + 40 ≤ upper
    · have hui : ¬ lower ≤ 40 * sp := fun hc => hA.2 (by rw [decide_eq_true hwi, decide_eq_true hc])
      rw [decide_eq_true hwi, if_pos rfl]
      exact ⟨hwp.mpr hwi, fun hc => hui (hup.mp hc)⟩
    · have hui : lower ≤ 40 * sp := by
        by_contra hc
        exact hA.2 (by rw [decide_eq_false hwi, decide_eq_false hc])
      rw [decide_eq_false hwi, if_neg (by decide)]
      exact ⟨hup.mpr hui, fun hc => hwi (hwp.mp hc)⟩
  rw [if_neg hA]
  -- no multiple of ten is inside, or the integers are small
  have hnone : s < 10 ∨ ∀ z : ℤ, (z : ℚ) * 10 ∉ J := by
    rcases Nat.lt_or_ge s 10 with hs | hs
    · exact .inl hs
    · right
      have heq := not_not.mp fun hne => hA ⟨hs, hne⟩
      have hboth : (sp : ℚ) * 10 ∈ J ↔ ((sp : ℚ) + 1) * 10 ∈ J := by
        rw [hup, hwp]
        exact decide_eq_decide.mp heq
      have hnot : (sp : ℚ) * 10 ∉ J :=
        fun hc => htwo sp ⟨by exact_mod_cast hc, by exact_mod_cast hboth.mp hc⟩
      exact no_ten hJ hV (by linarith) (by linarith) hnot fun hc => hnot (hboth.mpr hc)
  by_cases hB : decide (lower ≤ 4 * s) ≠ decide (4 * s + 4 ≤ upper)
  · rw [if_pos hB]
    refine ⟨_, 0, by rw [zero_add], best_one hJ hV hpos (by linarith) (by linarith) hnone ?_ ?_⟩
    · by_cases hwi : 4 * s + 4 ≤ upper
      · rw [decide_eq_true hwi, Bool.toNat_true]
        push_cast
        exact hw.mpr hwi
      · have hui : lower ≤ 4 * s := by
          by_contra hc
          exact hB (by rw [decide_eq_false hwi, decide_eq_false hc])
        rw [decide_eq_false hwi, Bool.toNat_false, Nat.add_zero]
        exact hu.mpr hui
    · by_cases hwi : 4 * s + 4 ≤ upper
      · have hui : ¬ lower ≤ 4 * s := fun hc => hB (by rw [decide_eq_true hwi, decide_eq_true hc])
        rw [decide_eq_true hwi, if_pos rfl]
        exact .inl fun hc => hui (hu.mp hc)
      · rw [decide_eq_false hwi, if_neg (by decide)]
        exact .inl fun hc => hwi (hw.mp hc)
  · -- both are inside, and the middle decides
    rw [if_neg hB]
    have hboth : (s : ℚ) ∈ J ↔ (s : ℚ) + 1 ∈ J := by
      rw [hu, hw]
      exact decide_eq_decide.mp (not_not.mp hB)
    have hin : (s : ℚ) ∈ J ∧ (s : ℚ) + 1 ∈ J := by
      rcases hone with h | h
      · exact ⟨h, hboth.mp h⟩
      · exact ⟨hboth.mpr h, h⟩
    refine ⟨_, 0, by rw [zero_add], best_one hJ hV hpos (by linarith) (by linarith) hnone ?_ ?_⟩
    · by_cases hup : 4 * s + 2 < vb ∨ vb = 4 * s + 2 ∧ s % 2 ≠ 0
      · rw [decide_eq_true hup, Bool.toNat_true]
        push_cast
        exact hin.2
      · rw [decide_eq_false hup, Bool.toNat_false, Nat.add_zero]
        exact hin.1
    · by_cases hup : 4 * s + 2 < vb ∨ vb = 4 * s + 2 ∧ s % 2 ≠ 0
      · rw [decide_eq_true hup, if_pos rfl]
        have := hmid'.mp (by omega)
        exact .inr (by linarith)
      · rw [decide_eq_false hup, if_neg (by decide)]
        have := hmid.mp (by omega)
        exact .inr (by linarith)

end

/-- The significand and the exponent of a finite number that is not zero. -/
structure Decomposed (c : ℕ) (q : ℤ) : Prop where
  pos : 0 < c
  lt : c < 2 ^ 53
  q_ge : -1074 ≤ q
  q_le : q ≤ 971
  lead : q ≠ -1074 → 2 ^ 52 ≤ c

/-- The numerals of the source go with the scale of the source. -/
theorem Decomposed.usable {c : ℕ} {q k : ℤ} (h : Decomposed c q)
    (hk : k = (q * 1262611 - if c = 2 ^ 52 ∧ q ≠ -1074 then 524031 else 0) / 2 ^ 22) :
    InTable q k ∧ Usable (4 * c - 2 + if c = 2 ^ 52 ∧ q ≠ -1074 then 1 else 0) q k ∧
      Usable (4 * c) q k ∧
      Usable (4 * c + 2) q k := by
  have hpos := h.pos
  have hlt := h.lt
  have hlead := h.lead
  have hq0 := h.q_ge
  by_cases hirr : c = 2 ^ 52 ∧ q ≠ -1074
  · obtain ⟨rfl, hq⟩ := hirr
    simp only [ne_eq, hq, not_false_eq_true, and_self, if_true] at hk ⊢
    obtain ⟨htab, -, -, hclear⟩ := irregular_scale (by omega) h.q_le hk
    exact ⟨htab, ⟨by decide, hclear _ (by decide)⟩, ⟨by decide, hclear _ (by decide)⟩,
      ⟨by decide, hclear _ (by decide)⟩⟩
  · rw [if_neg hirr, sub_zero] at hk
    rw [if_neg hirr]
    obtain ⟨htab, -, -, hclear⟩ := regular_scale hq0 h.q_le hk
    have husable : ∀ m : ℕ, 0 < m → m ≤ 2 ^ 54 + 1 → (m % 2 = 1 → q ≠ -1074 → 2 ^ 53 - 1 ≤ m) →
      Usable (2 * m) q k :=
      fun m h1 h2 h3 => ⟨by omega, hclear m h1 h2 h3⟩
    refine ⟨htab, ?_, ?_, ?_⟩
    · rw [show 4 * c - 2 + 0 = 2 * (2 * c - 1) by omega]
      exact husable _ (by omega) (by omega) fun _ hq => by have := hlead hq; omega
    · rw [show 4 * c = 2 * (2 * c) by omega]
      exact husable _ (by omega) (by omega) fun hodd => absurd hodd (by omega)
    · rw [show 4 * c + 2 = 2 * (2 * c + 1) by omega]
      exact husable _ (by omega) (by omega) fun _ hq => by have := hlead hq; omega

/-- The distance of the bounds, in quarters of the unit: room for an integer and not for two
multiples of ten. -/
theorem Decomposed.width {c : ℕ} {q k : ℤ} (h : Decomposed c q)
    (hk : k = (q * 1262611 - if c = 2 ^ 52 ∧ q ≠ -1074 then 524031 else 0) / 2 ^ 22) :
    let w : ℚ := if c = 2 ^ 52 ∧ q ≠ -1074 then 3 else 4
    4 ≤ w * ((2 : ℚ) ^ q * 10 ^ (-k)) ∧ w * ((2 : ℚ) ^ q * 10 ^ (-k)) < 40 := by
  have hq0 := h.q_ge
  dsimp only
  by_cases hirr : c = 2 ^ 52 ∧ q ≠ -1074
  · rw [if_pos hirr] at hk ⊢
    obtain ⟨-, h1, h2, -⟩ := irregular_scale (by omega) h.q_le hk
    exact ⟨h1, h2⟩
  · rw [if_neg hirr, sub_zero] at hk
    rw [if_neg hirr]
    obtain ⟨-, h1, h2, -⟩ := regular_scale hq0 h.q_le hk
    exact ⟨by linarith, by linarith⟩

theorem quarter_le {X x : ℚ} {q k : ℤ} :
    (X * 2 ^ (q - 2) ≤ x * 10 ^ k ↔ X * (2 ^ q * 10 ^ (-k)) ≤ 4 * x) ∧
    (X * 2 ^ (q - 2) < x * 10 ^ k ↔ X * (2 ^ q * 10 ^ (-k)) < 4 * x) ∧
    (x * 10 ^ k ≤ X * 2 ^ (q - 2) ↔ 4 * x ≤ X * (2 ^ q * 10 ^ (-k))) ∧
    (x * 10 ^ k < X * 2 ^ (q - 2) ↔ 4 * x < X * (2 ^ q * 10 ^ (-k))) := by
  have hu : (0 : ℚ) < 10 ^ k / 4 := by positivity
  have h1 : X * 2 ^ (q - 2) = X * (2 ^ q * 10 ^ (-k)) * (10 ^ k / 4) := by
    rw [zpow_sub₀ (by norm_num), zpow_neg]
    field_simp
    norm_num
  have h2 : x * 10 ^ k = 4 * x * (10 ^ k / 4) := by ring
  rw [h1, h2, mul_le_mul_iff_left₀ hu, mul_lt_mul_iff_left₀ hu, mul_le_mul_iff_left₀ hu,
    mul_lt_mul_iff_left₀ hu]
  exact ⟨Iff.rfl, Iff.rfl, Iff.rfl, Iff.rfl⟩

/-- **The decimal of the source is the best one.** -/
theorem F64ToDecimal_best {rsig c : ℕ} {rexp q : ℤ} (h : Decomposed c q)
    (hirr : rsig = 0 ∧ 1 < rexp ↔ c = 2 ^ 52 ∧ q ≠ -1074) :
    Best (RoundingInterval c q) (c * 2 ^ q) (F64ToDecimal rsig rexp c q).sig
      (F64ToDecimal rsig rexp c q).exp := by
  unfold F64ToDecimal
  simp only [hirr]
  generalize hk : (q * 1262611 - if c = 2 ^ 52 ∧ q ≠ -1074 then 524031 else 0) / 2 ^ 22 = k
  obtain ⟨htab, hl, hv, hr⟩ := h.usable hk.symm
  obtain ⟨hw1, hw2⟩ := h.width hk.symm
  have hα : (0 : ℚ) < 2 ^ q * 10 ^ (-k) := by positivity
  have hpos := h.pos
  have hq : Quarters {x | x * 10 ^ k ∈ RoundingInterval c q} (c % 2 = 0)
      (((4 * c - 2 + if c = 2 ^ 52 ∧ q ≠ -1074 then 1 else 0 : ℕ) : ℚ) * ((2 : ℚ) ^ q * 10 ^ (-k)))
      (((4 * c + 2 : ℕ) : ℚ) * ((2 : ℚ) ^ q * 10 ^ (-k))) := by
    constructor
    · intro he x
      show x * 10 ^ k ∈ RoundingInterval c q ↔ _
      unfold RoundingInterval
      rw [if_pos he, Set.mem_Icc, quarter_le.1, quarter_le.2.2.1]
    · intro he x
      show x * 10 ^ k ∈ RoundingInterval c q ↔ _
      unfold RoundingInterval
      rw [if_neg he, Set.mem_Ioo, quarter_le.2.1, quarter_le.2.2.2]
  -- the three numerals
  have hX : ((4 * c - 2 + if c = 2 ^ 52 ∧ q ≠ -1074 then 1 else 0 : ℕ) : ℚ) =
      4 * c + 2 - if c = 2 ^ 52 ∧ q ≠ -1074 then 3 else 4 := by
    rw [Nat.cast_add, Nat.cast_sub (by omega)]
    split <;> push_cast <;> ring
  have hX2 : 2 ≤ 4 * c - 2 + if c = 2 ^ 52 ∧ q ≠ -1074 then 1 else 0 := by omega
  have hX3 : (4 * c - 2 + if c = 2 ^ 52 ∧ q ≠ -1074 then 1 else 0) < 4 * c := by split <;> omega
  have hl' := RoundToOdd_Pow10CeilSig htab hl
  have hv' := RoundToOdd_Pow10CeilSig htab hv
  have hr' := RoundToOdd_Pow10CeilSig htab hr
  have hc : ((4 * c : ℕ) : ℚ) = 4 * c := by push_cast; ring
  have hr4 : ((4 * c + 2 : ℕ) : ℚ) = 4 * c + 2 := by push_cast; ring
  have hval : ((4 * c : ℕ) : ℚ) * (2 ^ q * 10 ^ (-k)) / 4 * 10 ^ k = c * 2 ^ q := by
    rw [hc, zpow_neg]
    field_simp
  have hw4 : (if c = 2 ^ 52 ∧ q ≠ -1074 then (3 : ℚ) else 4) ≤ 4 := by split <;> norm_num
  have hw0 : c % 2 ≠ 0 → (if c = 2 ^ 52 ∧ q ≠ -1074 then (3 : ℚ) else 4) = 4 := fun hodd =>
    if_neg fun hirr => hodd (by rw [hirr.1]; decide)
  have hcbl : (2 : ℚ) ≤ ((4 * c - 2 + if c = 2 ^ 52 ∧ q ≠ -1074 then 1 else 0 : ℕ) : ℚ) := by
    exact_mod_cast hX2
  have hcbl' : ((4 * c - 2 + if c = 2 ^ 52 ∧ q ≠ -1074 then 1 else 0 : ℕ) : ℚ) < 4 * c := by
    rw [← hc]
    exact_mod_cast hX3
  generalize (4 * c - 2 + if c = 2 ^ 52 ∧ q ≠ -1074 then 1 else 0 : ℕ) = cbl at *
  generalize (if c = 2 ^ 52 ∧ q ≠ -1074 then (3 : ℚ) else 4) = w at *
  have hα1 : (1 : ℚ) ≤ 2 ^ q * 10 ^ (-k) := by nlinarith
  have hc1 : (1 : ℚ) ≤ c := by exact_mod_cast hpos
  have hlv : (cbl : ℚ) * (2 ^ q * 10 ^ (-k)) < ((4 * c : ℕ) : ℚ) * (2 ^ q * 10 ^ (-k)) := by
    rw [hc]
    exact mul_lt_mul_of_pos_right hcbl' hα
  have hvr : ((4 * c : ℕ) : ℚ) * (2 ^ q * 10 ^ (-k)) < ((4 * c + 2 : ℕ) : ℚ) * (2 ^ q * 10 ^ (-k)) :=
    mul_lt_mul_of_pos_right (by rw [hc, hr4]; linarith) hα
  have hdiff : ((4 * c + 2 : ℕ) : ℚ) * (2 ^ q * 10 ^ (-k)) - cbl * (2 ^ q * 10 ^ (-k)) =
      w * (2 ^ q * 10 ^ (-k)) := by
    rw [hX, hr4]
    ring
  have hone : ∀ s : ℕ, (4 * s : ℚ) ≤ ((4 * c : ℕ) : ℚ) * (2 ^ q * 10 ^ (-k)) →
      ((4 * c : ℕ) : ℚ) * (2 ^ q * 10 ^ (-k)) < 4 * s + 4 →
      (s : ℚ) ∈ {x | x * 10 ^ k ∈ RoundingInterval c q} ∨
        (s : ℚ) + 1 ∈ {x | x * 10 ^ k ∈ RoundingInterval c q} := by
    intro s hs hs'
    by_contra hcon
    obtain ⟨hn1, hn2⟩ := not_or.mp hcon
    by_cases he : c % 2 = 0
    · rw [hq.closed he, not_and_or, not_le, not_le] at hn1 hn2
      rcases hn1 with hn1 | hn1
      · rcases hn2 with hn2 | hn2 <;> linarith
      · linarith
    · -- both bounds would be integers at a distance of one
      rw [hq.opened he, not_and_or, not_lt, not_lt] at hn1 hn2
      have hl4 : (cbl : ℚ) * (2 ^ q * 10 ^ (-k)) = 4 * s ∧ w * ((2 : ℚ) ^ q * 10 ^ (-k)) = 4 := by
        rcases hn1 with hn1 | hn1
        · rcases hn2 with hn2 | hn2
          · linarith
          · exact ⟨by linarith, by linarith⟩
        · linarith
      rw [hw0 he] at hl4 hX
      have hα2 : (2 : ℚ) ^ q * 10 ^ (-k) = 1 := by linarith [hl4.2]
      have h4 : (4 * c + 2 - 4 : ℚ) = 4 * s := by
        rw [← hX, ← hl4.1, hα2, mul_one]
      have h4' : 4 * c = 4 * s + 2 := by
        have : (4 * c : ℚ) = 4 * s + 2 := by linarith
        exact_mod_cast this
      omega
  obtain ⟨n, e, heq, hbest⟩ :=
    selectDecimal_best hq hl' hv' hr' (by nlinarith) hlv hvr (by rw [hr4]; nlinarith)
    (by rw [hdiff]; exact hw2) hone k
  have hscale := hbest.scale
  rw [hval] at hscale
  rw [heq]
  exact hscale

theorem selectDecimal_exp (lower upper vb : ℕ) (k : ℤ) :
    (selectDecimal lower upper vb k).exp = k ∨ (selectDecimal lower upper vb k).exp = k + 1 := by
  unfold selectDecimal
  dsimp only
  split
  · exact .inr rfl
  · split <;> exact .inl rfl

/-- At most seventeen digits, and an exponent of the range of the table. -/
theorem F64ToDecimal_bounds {rsig c : ℕ} {rexp q : ℤ} (h : Decomposed c q)
    (hirr : rsig = 0 ∧ 1 < rexp ↔ c = 2 ^ 52 ∧ q ≠ -1074) :
    0 < (F64ToDecimal rsig rexp c q).sig ∧ (F64ToDecimal rsig rexp c q).sig < 10 ^ 17 ∧
      -324 ≤ (F64ToDecimal rsig rexp c q).exp ∧ (F64ToDecimal rsig rexp c q).exp ≤ 293 := by
  have hmem := (F64ToDecimal_best h hirr).mem
  have hexp : ∃ k : ℤ, k = (q * 1262611 - if c = 2 ^ 52 ∧ q ≠ -1074 then 524031 else 0) / 2 ^ 22 ∧
      ((F64ToDecimal rsig rexp c q).exp = k ∨ (F64ToDecimal rsig rexp c q).exp = k + 1) := by
    refine ⟨_, rfl, ?_⟩
    unfold F64ToDecimal
    simp only [hirr]
    exact selectDecimal_exp _ _ _ _
  obtain ⟨k, hk, hexp⟩ := hexp
  obtain ⟨htab, -, -, -⟩ := h.usable hk
  obtain ⟨-, hw⟩ := h.width hk
  have hk1 := htab.k_ge
  have hk2 := htab.k_le
  have hc := h.pos
  generalize F64ToDecimal rsig rexp c q = dec at *
  obtain ⟨sig, e⟩ := dec
  dsimp only at *
  -- the bounds of the interval, whether or not they belong to it
  have hbounds : ((4 * c - 2 + if c = 2 ^ 52 ∧ q ≠ -1074 then 1 else 0 : ℕ) : ℚ) * 2 ^ (q - 2) ≤
      sig * 10 ^ e ∧
      (sig : ℚ) * 10 ^ e ≤ ((4 * c + 2 : ℕ) : ℚ) * 2 ^ (q - 2) := by
    unfold RoundingInterval at hmem
    dsimp only at hmem
    split at hmem
    · exact hmem
    · exact ⟨hmem.1.le, hmem.2.le⟩
  obtain ⟨hlow, hup⟩ := hbounds
  have hpos : (0 : ℚ) < sig * 10 ^ e := by
    refine lt_of_lt_of_le ?_ hlow
    have hX : 0 < 4 * c - 2 + if c = 2 ^ 52 ∧ q ≠ -1074 then 1 else 0 := by omega
    have hX' : (0 : ℚ) < ((4 * c - 2 + if c = 2 ^ 52 ∧ q ≠ -1074 then 1 else 0 : ℕ) : ℚ) := by
      exact_mod_cast hX
    positivity
  refine ⟨?_, ?_, by omega, by omega⟩
  · rcases Nat.eq_zero_or_pos sig with rfl | hs
    · rw [Nat.cast_zero, zero_mul] at hpos
      exact absurd hpos (lt_irrefl 0)
    · exact hs
  · have hmono : (sig : ℚ) * 10 ^ k ≤ sig * 10 ^ e :=
      mul_le_mul_of_nonneg_left (zpow_le_zpow_right₀ (by norm_num) (by omega)) (Nat.cast_nonneg _)
    have hfour := quarter_le.2.2.1.mp (hmono.trans hup)
    have hα : (0 : ℚ) < 2 ^ q * 10 ^ (-k) := by positivity
    have hX : ((4 * c + 2 : ℕ) : ℚ) * (2 ^ q * 10 ^ (-k)) < 4 * 10 ^ 17 := by
      generalize (2 : ℚ) ^ q * 10 ^ (-k) = α at *
      by_cases hir : c = 2 ^ 52 ∧ q ≠ -1074
      · rw [if_pos hir] at hw
        rw [hir.1]
        push_cast
        linarith
      · rw [if_neg hir] at hw
        have hclt : ((4 * c + 2 : ℕ) : ℚ) ≤ 4 * 2 ^ 53 := by exact_mod_cast (by have := h.lt; omega)
        calc ((4 * c + 2 : ℕ) : ℚ) * α ≤ 4 * 2 ^ 53 * α := mul_le_mul_of_nonneg_right hclt hα.le
          _ < 4 * 10 ^ 17 := by linarith
    have : (sig : ℚ) < 10 ^ 17 := by linarith
    exact_mod_cast this

/-! ### The doubles -/

/-- What `F64toa` takes apart of the bits: `fp = c * 2 ^ q`. -/
structure F64Parts where
  rsig : ℕ
  rexp : ℤ
  c : ℕ
  q : ℤ

def f64Parts (raw : ℕ) : F64Parts :=
  let rsig := raw &&& 0x000FFFFFFFFFFFFF
  let rexp := (raw &&& 0x7FF0000000000000) >>> 52
  if rexp ≠ 0 then ⟨rsig, rexp, rsig ||| 0x0010000000000000,
    rexp - 1023 - 52⟩ else ⟨rsig, rexp, rsig, 1 - 1023 - 52⟩

section
variable {fp : Double}

theorem toNat_shiftLeft_one : fp <<< 1 = 0 ↔ fp.toNat % 2 ^ 63 = 0 := by
  have hlt := fp.isLt
  rw [← BitVec.toNat_inj, BitVec.toNat_shiftLeft, Nat.shiftLeft_eq]
  simp only [BitVec.ofNat_eq_ofNat, BitVec.toNat_ofNat]
  omega

/-- The parts are those of the format. -/
theorem f64Parts_eq : f64Parts fp.toNat =
    ⟨fp.toNat % 2 ^ 52, (fp.toNat % 2 ^ 63 / 2 ^ 52 : ℕ), binary64.signif (fp.toNat % 2 ^ 63),
      binary64.expo (fp.toNat % 2 ^ 63) - 1074⟩ := by
  have hsig : fp.toNat &&& 0x000FFFFFFFFFFFFF = fp.toNat % 2 ^ 52 := Nat.and_two_pow_sub_one_eq_mod _ 52
  have hexp : (fp.toNat &&& 0x7FF0000000000000) >>> 52 = fp.toNat % 2 ^ 63 / 2 ^ 52 := by
    rw [Nat.shiftRight_and_distrib, Nat.shiftRight_eq_div_pow]
    have : fp.toNat / 2 ^ 52 &&& 2 ^ 11 - 1 = fp.toNat / 2 ^ 52 % 2 ^ 11 :=
      Nat.and_two_pow_sub_one_eq_mod _ 11
    have hc : (0x7FF0000000000000 : ℕ) >>> 52 = 2 ^ 11 - 1 := by decide
    rw [hc, this]
    omega
  have hor : fp.toNat % 2 ^ 52 ||| 0x0010000000000000 = fp.toNat % 2 ^ 52 + 2 ^ 52 := by
    have := Nat.two_pow_add_eq_or_of_lt (show fp.toNat % 2 ^ 52 < 2 ^ 52 by omega) 1
    rw [mul_one] at this
    rw [Nat.or_comm, ← this, Nat.add_comm]
  have hfrac : binary64.frac = 52 := rfl
  unfold f64Parts Format.signif Format.expo
  dsimp only
  rw [hsig, hexp, hor, hfrac]
  generalize hb : fp.toNat % 2 ^ 63 = b
  have hmod : fp.toNat % 2 ^ 52 = b % 2 ^ 52 := by omega
  rw [hmod]
  by_cases h0 : b / 2 ^ 52 = 0
  · rw [if_neg (not_not.mpr h0), F64Parts.mk.injEq]
    exact ⟨rfl, rfl, by omega, by omega⟩
  · rw [if_pos h0, F64Parts.mk.injEq]
    exact ⟨rfl, rfl, by omega, by omega⟩

variable (hfin : (f64Parts fp.toNat).rexp ≠ 0x7FF)
include hfin

theorem lt_inf_of_finite : fp.toNat % 2 ^ 63 < binary64.inf := by
  have hinf : binary64.inf = 2047 * 2 ^ 52 := rfl
  rw [f64Parts_eq] at hfin
  dsimp only at hfin
  omega

variable (hnz : fp <<< 1 ≠ 0)
include hnz

theorem f64Parts_decomposed : Decomposed (f64Parts fp.toNat).c (f64Parts fp.toNat).q := by
  have hlt := lt_inf_of_finite hfin
  have hinf : binary64.inf = 2047 * 2 ^ 52 := rfl
  have hpos : fp.toNat % 2 ^ 63 ≠ 0 := fun h => hnz (toNat_shiftLeft_one.mpr h)
  rw [f64Parts_eq]
  generalize fp.toNat % 2 ^ 63 = b at *
  have hs : binary64.signif b = b - (b / 2 ^ 52 - 1) * 2 ^ 52 := rfl
  have he : binary64.expo b = b / 2 ^ 52 - 1 := rfl
  rw [hs, he]
  constructor <;> dsimp only <;> omega

/-- The interval is that of the numbers which are rounded to this one. -/
theorem mem_RoundingInterval {x : ℚ} :
    x ∈ RoundingInterval (f64Parts fp.toNat).c (f64Parts fp.toNat).q ↔
    binary64.Nearest x (fp.toNat % 2 ^ 63) := by
  have hlt := lt_inf_of_finite hfin
  have hd := f64Parts_decomposed hfin hnz
  have hpos : fp.toNat % 2 ^ 63 ≠ 0 := fun h => hnz (toNat_shiftLeft_one.mpr h)
  rw [f64Parts_eq] at hd ⊢
  dsimp only at hd ⊢
  generalize fp.toNat % 2 ^ 63 = b at *
  rw [Format.nearest_middles (by omega) hlt]
  obtain ⟨e, n, rfl, hfit⟩ := binary64.exists_enc b
  rw [Format.signif_enc hfit, Format.expo_enc hfit] at hd ⊢
  rw [Format.enc_mod_two, Format.val_enc hfit, Format.val_enc_succ hfit]
  have hulp : binary64.ulp e = 4 * (2 : ℚ) ^ ((e : ℤ) - 1074 - 2) := by
    unfold Format.ulp
    rw [zpow_sub₀ (by norm_num)]
    show (2 : ℚ) ^ ((e : ℤ) + -1074) = 4 * (2 ^ ((e : ℤ) - 1074) / 2 ^ (2 : ℤ))
    rw [← sub_eq_add_neg]
    norm_num
    ring
  -- the middle to the number below
  have hpos' := hd.pos
  have hlow : binary64.val (binary64.enc e n - 1) + n * binary64.ulp e =
      2 * (((4 * n - 2 + if n = 2 ^ 52 ∧ (e : ℤ) - 1074 ≠ -1074 then 1 else 0 : ℕ) : ℚ) *
        2 ^ ((e : ℤ) - 1074 - 2)) := by
    rw [Nat.cast_add, Nat.cast_sub (by omega)]
    by_cases hirr : n = 2 ^ 52 ∧ (e : ℤ) - 1074 ≠ -1074
    · obtain ⟨rfl, he⟩ := hirr
      obtain ⟨e, rfl⟩ : ∃ e', e = e' + 1 := ⟨e - 1, by omega⟩
      have hpred := @Format.val_enc_pred_pow binary64 e
      have hfrac : binary64.frac = 52 := rfl
      rw [hfrac] at hpred
      rw [Format.ulp_succ] at hulp
      rw [if_pos ⟨rfl, he⟩, hpred, Format.ulp_succ, hulp]
      have hulp' : binary64.ulp e = 2 * (2 : ℚ) ^ (((e + 1 : ℕ) : ℤ) - 1074 - 2) := by linarith
      rw [hulp']
      push_cast
      ring
    · have hlead : 2 ^ binary64.frac < n ∨ e = 0 := by
        have hfrac : binary64.frac = 52 := rfl
        rw [hfrac]
        by_cases he : e = 0
        · exact .inr he
        · left
          have h52 := hd.lead (by omega)
          have hne : n ≠ 2 ^ 52 := fun hc => hirr ⟨hc, by omega⟩
          omega
      rw [if_neg hirr, Format.val_enc_pred hfit hpos' hlead, hulp]
      push_cast
      ring
  have hup : (n : ℚ) * binary64.ulp e + (n + 1) * binary64.ulp e =
      2 * (((4 * n + 2 : ℕ) : ℚ) * 2 ^ ((e : ℤ) - 1074 - 2)) := by
    rw [hulp]
    push_cast
    ring
  rw [hlow, hup]
  unfold RoundingInterval
  dsimp only
  split
  · rw [Set.mem_Icc]
    constructor
    · exact fun h => ⟨by linarith [h.1], by linarith [h.2]⟩
    · exact fun h => ⟨by linarith [h.1], by linarith [h.2]⟩
  · rw [Set.mem_Ioo]
    constructor
    · exact fun h => ⟨by linarith [h.1], by linarith [h.2]⟩
    · exact fun h => ⟨by linarith [h.1], by linarith [h.2]⟩

end

/-- The decimal that `F64toa` prints. -/
def f64Decimal (fp : Double) : F64Decimal :=
  let p := f64Parts fp.toNat
  F64ToDecimal p.rsig p.rexp p.c p.q

/-- The test of the source for a power of two is the one of the interval. -/
theorem f64Parts_irregular {fp : Double} (hfin : (f64Parts fp.toNat).rexp ≠ 0x7FF) :
    (f64Parts fp.toNat).rsig = 0 ∧ 1 < (f64Parts fp.toNat).rexp ↔
      (f64Parts fp.toNat).c = 2 ^ 52 ∧ (f64Parts fp.toNat).q ≠ -1074 := by
  have hlt := lt_inf_of_finite hfin
  have hinf : binary64.inf = 2047 * 2 ^ 52 := rfl
  rw [f64Parts_eq]
  have hmod : fp.toNat % 2 ^ 52 = fp.toNat % 2 ^ 63 % 2 ^ 52 := by omega
  rw [hmod]
  generalize fp.toNat % 2 ^ 63 = b at *
  have hs : binary64.signif b = b - (b / 2 ^ 52 - 1) * 2 ^ 52 := rfl
  have he : binary64.expo b = b / 2 ^ 52 - 1 := rfl
  rw [hs, he]
  dsimp only
  omega

/-- **The shortest decimal for every double.** It rounds to the number, no number with fewer
significant digits does, and it is nearest to the number among those of its unit that do. -/
theorem F64ToDecimal_shortest (fp : Double) (hfin : (f64Parts fp.toNat).rexp ≠ 0x7FF)
    (hnz : fp <<< 1 ≠ 0) :
    Best (RoundingInterval (f64Parts fp.toNat).c (f64Parts fp.toNat).q)
      ((f64Parts fp.toNat).c * 2 ^ (f64Parts fp.toNat).q) (f64Decimal fp).sig (f64Decimal fp).exp :=
  F64ToDecimal_best (f64Parts_decomposed hfin hnz) (f64Parts_irregular hfin)

/-- `0.3`. -/
theorem F64ToDecimal_shortest_tenths :
    f64Decimal 0x3FD3333333333333#64 = ⟨3000000000000000, -16⟩ ∧
      Best (RoundingInterval (f64Parts 0x3FD3333333333333).c (f64Parts 0x3FD3333333333333).q)
        ((f64Parts 0x3FD3333333333333).c * 2 ^ (f64Parts 0x3FD3333333333333).q)
        (f64Decimal 0x3FD3333333333333#64).sig (f64Decimal 0x3FD3333333333333#64).exp :=
  ⟨by decide +kernel, F64ToDecimal_shortest 0x3FD3333333333333#64 (by decide) (by decide)⟩

end SonicJson
