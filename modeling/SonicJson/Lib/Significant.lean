/-
# Numbers cut to a fixed number of digits

`Cut D u v p` says that `v` are the first `D` decimal digits of `u`, with the point before
`10 ^ p`. A number `m * 2 ^ i` that the cut passes has more digits behind the point than
are kept (`Cut.passed`): so it is tiny, or has a very small exponent. `Tracks L v V t`
follows a number `V` by a lower bound `v`: the flag `t` says whether they differ, and no
`m * 2 ^ i` with a small `m` and `i` at least `L` is between them, so a comparison of `V`
with such a number is decided by `v` and `t`.
-/
import Mathlib.Tactic

namespace Significant

/-- `v` are the first `D` digits of `u`, and the first one is before `10 ^ p`. -/
structure Cut (D : ℕ) (u v : ℚ) (p : ℤ) : Prop where
  grid : ∃ a : ℕ, v = a * 10 ^ (p - D)
  le : v ≤ u
  lt : u < v + 10 ^ (p - D)
  lead : 10 ^ (p - 1) ≤ v
  top : v < 10 ^ p

section
variable {D m : ℕ} {u v : ℚ} {p i : ℤ}

theorem ten_zpow_pos (e : ℤ) : (0 : ℚ) < 10 ^ e := zpow_pos (by norm_num) e

/-- The cut keeps the place of the first digit. -/
theorem Cut.lt_top (h : Cut D u v p) : u < 10 ^ p := by
  obtain ⟨a, ha⟩ := h.grid
  have hu := ten_zpow_pos (p - D)
  have htop : (10 : ℚ) ^ p = ((10 ^ D : ℕ) : ℚ) * 10 ^ (p - D) := by
    push_cast
    rw [← zpow_natCast, ← zpow_add₀ (by norm_num)]
    congr 1
    ring
  have hlt := h.top
  rw [ha, htop] at hlt
  have haD : a < 10 ^ D := by
    have := lt_of_mul_lt_mul_right hlt hu.le
    exact_mod_cast this
  have haD' : (a : ℚ) + 1 ≤ ((10 ^ D : ℕ) : ℚ) := by exact_mod_cast haD
  calc u < v + 10 ^ (p - D) := h.lt
    _ = (a + 1) * 10 ^ (p - D) := by
      rw [ha]
      ring
    _ ≤ ((10 ^ D : ℕ) : ℚ) * 10 ^ (p - D) := mul_le_mul_of_nonneg_right haD' hu.le
    _ = 10 ^ p := htop.symm

theorem Cut.pos (h : Cut D u v p) : 0 < v := lt_of_lt_of_le (ten_zpow_pos _) h.lead

/-- The place of the first digit, from bounds of the number. -/
theorem Cut.place (h : Cut D u v p) {q : ℤ} : (10 ^ q ≤ u → q < p) ∧ (u < 10 ^ q → p ≤ q) := by
  constructor
  · intro hq
    exact (zpow_lt_zpow_iff_right₀ (by norm_num)).mp (hq.trans_lt h.lt_top)
  · intro hq
    have := (h.lead.trans h.le).trans_lt hq
    have := (zpow_lt_zpow_iff_right₀ (by norm_num : (1 : ℚ) < 10)).mp this
    omega

/-- What is on the grid is not passed. -/
theorem Cut.grid_le (h : Cut D u v p) {g : ℕ} (hg : (g : ℚ) * 10 ^ (p - D) ≤ u) :
    (g : ℚ) * 10 ^ (p - D) ≤ v := by
  obtain ⟨a, ha⟩ := h.grid
  have hu := ten_zpow_pos (p - D)
  have hlt := hg.trans_lt h.lt
  rw [ha] at hlt ⊢
  have hga : (g : ℚ) < a + 1 := by
    refine lt_of_mul_lt_mul_right (a := (10 : ℚ) ^ (p - D)) ?_ hu.le
    linarith
  have hga' : g ≤ a := by
    have : g < a + 1 := by exact_mod_cast hga
    omega
  exact mul_le_mul_of_nonneg_right (by exact_mod_cast hga') hu.le

/-- `m * 2 ^ i` has at most `-i` digits behind the point. -/
theorem dyadic_grid {q : ℤ} (hq : q ≤ i) (hq0 : q ≤ 0) : ∃ g : ℕ, (m : ℚ) * 2 ^ i = g * 10 ^ q := by
  obtain ⟨a, ha⟩ : ∃ a : ℕ, i = q + a := ⟨(i - q).toNat, by omega⟩
  obtain ⟨b, hb⟩ : ∃ b : ℕ, q = -b := ⟨(-q).toNat, by omega⟩
  refine ⟨m * 2 ^ a * 5 ^ b, ?_⟩
  have h10 : (10 : ℚ) ^ q = 2 ^ q * 5 ^ q := by rw [← mul_zpow]; norm_num
  have h5 : (5 : ℚ) ^ b * 5 ^ q = 1 := by
    rw [hb, zpow_neg, zpow_natCast]
    exact mul_inv_cancel₀ (by positivity)
  rw [ha, zpow_add₀ (by norm_num), zpow_natCast, h10]
  push_cast
  calc (m : ℚ) * (2 ^ q * 2 ^ a) = m * 2 ^ a * (5 ^ b * 5 ^ q) * 2 ^ q := by
        rw [h5]
        ring
    _ = m * 2 ^ a * 5 ^ b * (2 ^ q * 5 ^ q) := by ring

/-- **What is passed by a cut** has more digits behind the point than are kept. -/
theorem Cut.passed (h : Cut D u v p) (hp : p ≤ D) (hv : v < m * 2 ^ i) (hu : (m : ℚ) * 2 ^ i ≤ u) :
    i < p - D := by
  by_contra hi
  obtain ⟨g, hg⟩ := @dyadic_grid m i (p - D) (by omega) (by omega)
  rw [hg] at hv hu
  exact absurd (h.grid_le hu) (not_le.mpr hv)

/-- So none is passed that has at most 54 bits and is a multiple of `2 ^ -1121`, and none of 54 bits
at all in a cut of a number that is not small. -/
theorem Cut.clear (h : Cut 800 u v p) (hp : p ≤ 800) (hm : m < 2 ^ 54) (hi : -1121 ≤ i ∨ -8 ≤ p)
    (hv : v < m * 2 ^ i) :
    u < m * 2 ^ i := by
  by_contra hu
  have hpass := h.passed (by exact_mod_cast hp) hv (not_lt.mp hu)
  have h2 : (0 : ℚ) < 2 ^ i := zpow_pos (by norm_num) i
  have hm' : (m : ℚ) < 2 ^ 54 := by exact_mod_cast hm
  have hlead : (10 : ℚ) ^ (p - 1) < 2 ^ 54 * 2 ^ i :=
    (h.lead.trans_lt hv).trans (mul_lt_mul_of_pos_right hm' h2)
  rcases hi with hi | hi
  · -- the digits of `2 ^ i` would not be enough for the place
    obtain ⟨j, hj⟩ : ∃ j : ℕ, i = -j := ⟨(-i).toNat, by omega⟩
    have hbig : (10 : ℚ) ^ (800 - (j : ℤ)) ≤ 10 ^ (p - 1) :=
      zpow_le_zpow_right₀ (by norm_num) (by push_cast at hpass; omega)
    have hlt := hbig.trans_lt hlead
    obtain ⟨N, hN⟩ : ∃ N : ℕ, N = 1121 := ⟨_, rfl⟩
    have hj' : j ≤ N := by omega
    have h5 : (2 : ℚ) ^ 54 * 5 ^ j ≤ 10 ^ 800 := by
      have hnum : 2 ^ 54 * 5 ^ N ≤ 10 ^ 800 := by
        rw [hN]
        decide +kernel
      have hmono : 5 ^ j ≤ 5 ^ N := Nat.pow_le_pow_right (by decide) hj'
      exact_mod_cast (Nat.mul_le_mul_left _ hmono).trans hnum
    have hpos : (0 : ℚ) < 10 ^ j := by positivity
    have hmul := mul_lt_mul_of_pos_right hlt hpos
    have hl : (10 : ℚ) ^ (800 - (j : ℤ)) * 10 ^ j = 10 ^ 800 := by
      rw [zpow_sub₀ (by norm_num), zpow_natCast, div_mul_cancel₀ _ hpos.ne']
      exact zpow_natCast 10 800
    have hr : (2 : ℚ) ^ 54 * 2 ^ i * 10 ^ j = 2 ^ 54 * 5 ^ j := by
      have h10 : (10 : ℚ) ^ j = 2 ^ j * 5 ^ j := by rw [← mul_pow]; norm_num
      rw [hj, zpow_neg, zpow_natCast, h10]
      field_simp
    rw [hl, hr] at hmul
    exact absurd hmul (not_lt.mpr h5)
  · have hsmall : (2 : ℚ) ^ 54 * 2 ^ i ≤ 2 ^ (p - 47) := by
      have := zpow_add₀ (show (2 : ℚ) ≠ 0 by norm_num) 54 i
      rw [show (2 : ℚ) ^ 54 = 2 ^ (54 : ℤ) by norm_cast, ← this]
      exact zpow_le_zpow_right₀ (by norm_num) (by push_cast at hpass; omega)
    obtain ⟨k, hk⟩ : ∃ k : ℕ, p = k - 8 := ⟨(p + 8).toNat, by omega⟩
    have hlt := hlead.trans_le hsmall
    rw [hk] at hlt
    have h1 : (10 : ℚ) ^ ((k : ℤ) - 8 - 1) = 10 ^ k / 10 ^ 9 := by
      rw [show (k : ℤ) - 8 - 1 = k - 9 by ring, zpow_sub₀ (by norm_num), zpow_natCast]
      norm_cast
    have h2' : (2 : ℚ) ^ ((k : ℤ) - 8 - 47) = 2 ^ k / 2 ^ 55 := by
      rw [show (k : ℤ) - 8 - 47 = k - 55 by ring, zpow_sub₀ (by norm_num), zpow_natCast, zpow_ofNat]
    rw [h1, h2'] at hlt
    have hmono : (2 : ℚ) ^ k ≤ 10 ^ k := pow_le_pow_left₀ (by norm_num) (by norm_num) k
    have hk0 : (0 : ℚ) < 2 ^ k := by positivity
    have : (2 : ℚ) ^ k / 2 ^ 55 ≤ 10 ^ k / 10 ^ 9 :=
      calc (2 : ℚ) ^ k / 2 ^ 55 ≤ 2 ^ k / 10 ^ 9 :=
        div_le_div_of_nonneg_left hk0.le (by norm_num) (by norm_num)
        _ ≤ 10 ^ k / 10 ^ 9 := div_le_div_of_nonneg_right hmono (by positivity)
    linarith

end

/-- `v` is `V`, or below it when `t`; no number of 54 bits that is a multiple of `2 ^ L` is between
them. -/
structure Tracks (L : ℤ) (v V : ℚ) (t : Prop) : Prop where
  le : v ≤ V
  flag : t ↔ v < V
  clear : ∀ (m : ℕ) (i : ℤ), m < 2 ^ 54 → L ≤ i → v < m * 2 ^ i → V < m * 2 ^ i

section
variable {L : ℤ} {v V w : ℚ} {t : Prop}

/-- A number that is not small any more is followed on from a cut of what followed it, scaled by `2
^ -E`. -/
theorem Tracks.cut {E p : ℤ} {u : ℚ} {t' : Prop} (h : Tracks L (u * 2 ^ E) V t) (hc : Cut 800 u w p)
    (ht : t' ↔ t ∨ w < u) (hp : p ≤ 800) (hE : E ≤ L + 1121 ∨ -8 ≤ p) :
    Tracks L (w * 2 ^ E) V t' := by
  have h2 : (0 : ℚ) < 2 ^ E := zpow_pos (by norm_num) E
  have hle : w * 2 ^ E ≤ u * 2 ^ E := mul_le_mul_of_nonneg_right hc.le h2.le
  refine ⟨hle.trans h.le, ?_, ?_⟩
  · rw [ht, h.flag]
    constructor
    · rintro (hlt | hlt)
      · exact hle.trans_lt hlt
      · exact (mul_lt_mul_of_pos_right hlt h2).trans_le h.le
    · intro hlt
      by_contra hn
      rw [not_or, not_lt, not_lt] at hn
      have := mul_le_mul_of_nonneg_right hn.2 h2.le
      linarith [hn.1]
  · intro m i hm hi hlt
    -- the same number, scaled
    have hscale : (m : ℚ) * 2 ^ i = m * 2 ^ (i - E) * 2 ^ E := by
      rw [mul_assoc, ← zpow_add₀ (by norm_num), sub_add_cancel]
    rw [hscale] at hlt
    have hw := hc.clear hp hm (i := i - E) (by omega) (lt_of_mul_lt_mul_right hlt h2.le)
    apply h.clear m i hm hi
    rw [hscale]
    exact mul_lt_mul_of_pos_right hw h2

/-- Nothing changes when the scale takes a power of two over. -/
theorem Tracks.shift {E k : ℤ} (h : Tracks L (v * 2 ^ E) V t) :
    Tracks L (v * 2 ^ k * 2 ^ (E - k)) V t := by
  rwa [mul_assoc, ← zpow_add₀ (by norm_num), add_sub_cancel]

end

end Significant
