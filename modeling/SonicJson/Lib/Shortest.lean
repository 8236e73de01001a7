/-
# The shortest decimal in an interval

`AtMost d x` says that `d` significant digits are enough to write `x`. `Best J V n e` says
that `n * 10 ^ e` is in `J`, that no number of `J` has fewer significant digits, and that
it is nearest to `V` among the multiples of its own unit in `J`. Where an interval has
room for an integer beside `V` but not for two multiples of ten, the choice is among four
numbers: the multiples of ten beside `V` (`best_ten`), and, when neither of them is inside,
the integers beside `V` (`best_one`).
-/
import Mathlib.Tactic

namespace Shortest

/-- `d` significant digits are enough. -/
def AtMost (d : ℕ) (x : ℚ) : Prop := ∃ (a : ℕ) (e : ℤ), a < 10 ^ d ∧ x = a * 10 ^ e

/-- In `J`, with the fewest digits, and nearest to `V` in its unit. -/
structure Best (J : Set ℚ) (V : ℚ) (n : ℕ) (e : ℤ) : Prop where
  mem : (n : ℚ) * 10 ^ e ∈ J
  short : ∀ y ∈ J, ∀ d, AtMost d y → AtMost d (n * 10 ^ e)
  near : ∀ z : ℤ, (z : ℚ) * 10 ^ e ∈ J → |V - n * 10 ^ e| ≤ |V - z * 10 ^ e|

section
variable {d n : ℕ} {x : ℚ}

theorem AtMost.mul (h : AtMost d x) (k : ℤ) : AtMost d (x * 10 ^ k) := by
  obtain ⟨a, e, ha, rfl⟩ := h
  exact ⟨a, e + k, ha, by rw [zpow_add₀ (by norm_num), mul_assoc]⟩

theorem atMost_nat (h : n < 10 ^ d) : AtMost d n := ⟨n, 0, h, by simp⟩

/-- The unit may be moved. -/
theorem Best.scale {I : Set ℚ} {V : ℚ} {e k : ℤ} (h : Best {x | x * 10 ^ k ∈ I} V n e) :
    Best I (V * 10 ^ k) n (e + k) := by
  have hk : (0 : ℚ) < 10 ^ k := zpow_pos (by norm_num) k
  have hsplit : ∀ y : ℚ, y * 10 ^ (e + k) = y * 10 ^ e * 10 ^ k := fun y => by
    rw [zpow_add₀ (by norm_num), mul_assoc]
  refine ⟨?_, ?_, ?_⟩
  · rw [hsplit]
    exact h.mem
  · intro y hy d hd
    rw [hsplit]
    have hback : y * 10 ^ (-k) * 10 ^ k = y := by
      rw [mul_assoc, ← zpow_add₀ (by norm_num), neg_add_cancel, zpow_zero, mul_one]
    have hy' : y * 10 ^ (-k) ∈ {x | x * 10 ^ k ∈ I} := by
      show y * 10 ^ (-k) * 10 ^ k ∈ I
      rwa [hback]
    exact (h.short _ hy' d (hd.mul (-k))).mul k
  · intro z hz
    rw [hsplit] at hz ⊢
    rw [hsplit, ← sub_mul, ← sub_mul, abs_mul, abs_mul]
    exact mul_le_mul_of_nonneg_right (h.near z hz) (abs_nonneg _)

end

section
variable {J : Set ℚ} {V : ℚ} {s n : ℕ} (hJ : J.OrdConnected) (hV : V ∈ J) (hpos : ∀ x ∈ J, 0 < x)
include hJ hpos

/-- A number of `J` with few digits and a small unit is below a power of ten that is in `J` too. -/
theorem pow_mem {y : ℚ} {a d : ℕ} {e : ℤ} (hy : y ∈ J) (ha : a < 10 ^ d) (hye : y = a * 10 ^ e)
    (he : e ≤ 0) {x : ℚ} (hx : x ∈ J) (hle : (10 : ℚ) ^ d ≤ x) : (10 : ℚ) ^ d ∈ J ∧ d ≠ 0 := by
  have h10 : (10 : ℚ) ^ e ≤ 1 := zpow_le_one_of_nonpos₀ (by norm_num) he
  have hlt : y < 10 ^ d := by
    have hcast : (a : ℚ) < 10 ^ d := by exact_mod_cast ha
    calc y = a * 10 ^ e := hye
      _ ≤ a * 1 := mul_le_mul_of_nonneg_left h10 (Nat.cast_nonneg a)
      _ < 10 ^ d := by rwa [mul_one]
  refine ⟨hJ.out hy hx ⟨hlt.le, hle⟩, ?_⟩
  rintro rfl
  -- no digit is left for a positive number
  have ha0 : a = 0 := by omega
  have := hpos y hy
  rw [hye, ha0, Nat.cast_zero, zero_mul] at this
  exact lt_irrefl _ this

omit hJ hpos in
/-- A number with a greater unit is a multiple of ten. -/
theorem multiple_of_ten {a : ℕ} {e : ℤ} (he : 1 ≤ e) : ∃ z : ℤ, (a : ℚ) * 10 ^ e = z * 10 := by
  obtain ⟨j, rfl⟩ : ∃ j : ℕ, e = j + 1 := ⟨(e - 1).toNat, by omega⟩
  refine ⟨a * 10 ^ j, ?_⟩
  rw [zpow_add₀ (by norm_num), zpow_natCast, zpow_one]
  push_cast
  ring

/-- **The only multiple of ten** in `J` has the fewest digits. -/
theorem short_ten (hn : (n : ℚ) * 10 ∈ J) (huniq : ∀ z : ℤ, (z : ℚ) * 10 ∈ J → z = n) :
    ∀ y ∈ J, ∀ d, AtMost d y → AtMost d ((n : ℚ) * 10) := by
  intro y hy d hd
  obtain ⟨a, e, ha, hye⟩ := hd
  rcases Int.lt_or_le 0 e with he | he
  · obtain ⟨z, hz⟩ := @multiple_of_ten a e he
    have := huniq z (by rw [← hz, ← hye]; exact hy)
    rw [this] at hz
    exact ⟨a, e, ha, by rw [hz, Int.cast_natCast]⟩
  · by_cases hlt : n < 10 ^ d
    · have := (atMost_nat hlt).mul 1
      rwa [zpow_one] at this
    · -- two powers of ten would be inside
      exfalso
      have hge : (10 : ℚ) ^ d ≤ n := by exact_mod_cast not_lt.mp hlt
      have hn0 : (0 : ℚ) ≤ n := Nat.cast_nonneg n
      obtain ⟨hmem, hd0⟩ := pow_mem hJ hpos hy ha hye he hn (hge.trans (by linarith))
      obtain ⟨j, rfl⟩ : ∃ j, d = j + 1 := ⟨d - 1, by omega⟩
      have hp : (0 : ℚ) < 10 ^ j := by positivity
      have hmem' : (10 : ℚ) ^ (j + 1) * 10 ∈ J := by
        refine hJ.out hmem hn ⟨?_, by linarith⟩
        rw [pow_succ]
        linarith
      have h1 := huniq (10 ^ j) (by push_cast; rw [← pow_succ]; exact hmem)
      have h2 := huniq (10 ^ (j + 1)) (by push_cast; exact hmem')
      rw [pow_succ] at h2
      omega

/-- **Where no multiple of ten is in `J`** all integers in `J` have the fewest digits. -/
theorem short_one (hn : (n : ℚ) ∈ J) (hnone : ∀ z : ℤ, (z : ℚ) * 10 ∉ J) :
    ∀ y ∈ J, ∀ d, AtMost d y → AtMost d (n : ℚ) := by
  intro y hy d hd
  obtain ⟨a, e, ha, hye⟩ := hd
  rcases Int.lt_or_le 0 e with he | he
  · obtain ⟨z, hz⟩ := @multiple_of_ten a e he
    exact absurd (by rw [← hz, ← hye]; exact hy) (hnone z)
  · by_cases hlt : n < 10 ^ d
    · exact atMost_nat hlt
    · exfalso
      have hge : (10 : ℚ) ^ d ≤ n := by exact_mod_cast not_lt.mp hlt
      obtain ⟨hmem, hd0⟩ := pow_mem hJ hpos hy ha hye he hn hge
      obtain ⟨j, rfl⟩ : ∃ j, d = j + 1 := ⟨d - 1, by omega⟩
      exact hnone (10 ^ j) (by push_cast; rw [← pow_succ]; exact hmem)

omit hJ in
/-- One digit is enough up to ten, and none is too few. -/
theorem short_small (hn : n ≤ 10) : ∀ y ∈ J, ∀ d, AtMost d y → AtMost d (n : ℚ) := by
  intro y hy d hd
  obtain ⟨a, e, ha, hye⟩ := hd
  have hd1 : 10 ≤ 10 ^ d := by
    refine Nat.le_self_pow ?_ 10
    rintro rfl
    have ha0 : a = 0 := by omega
    have := hpos y hy
    rw [hye, ha0, Nat.cast_zero, zero_mul] at this
    exact lt_irrefl _ this
  rcases Nat.lt_or_ge n 10 with h | h
  · exact atMost_nat (by omega)
  · have h10 : n = 10 := by omega
    exact ⟨1, 1, by omega, by rw [h10]; norm_num⟩

include hV
omit hpos

/-- A multiple of `u` inside, with none inside on the other side of `V`, is the nearest. -/
theorem near_below {u : ℚ} (hu : 0 < u) (h1 : n * u ≤ V) (h2 : V < (n + 1) * u)
    (hout : ((n : ℚ) + 1) * u ∉ J) :
    ∀ z : ℤ, (z : ℚ) * u ∈ J → |V - n * u| ≤ |V - z * u| := by
  intro z hz
  have hzn : z ≤ n := by
    by_contra hc
    have hz1 : ((n : ℚ) + 1) ≤ z := by exact_mod_cast (by omega : (n : ℤ) + 1 ≤ z)
    exact hout (hJ.out hV hz ⟨h2.le, mul_le_mul_of_nonneg_right hz1 hu.le⟩)
  have hle : (z : ℚ) * u ≤ n * u := mul_le_mul_of_nonneg_right (by exact_mod_cast hzn) hu.le
  rw [abs_of_nonneg (by linarith), abs_of_nonneg (by linarith)]
  linarith

theorem near_above {u : ℚ} (hu : 0 < u) (h1 : n * u ≤ V) (h2 : V < (n + 1) * u)
    (hout : (n : ℚ) * u ∉ J) :
    ∀ z : ℤ, (z : ℚ) * u ∈ J → |V - ((n + 1 : ℕ) : ℚ) * u| ≤ |V - z * u| := by
  intro z hz
  have hzn : (n : ℤ) + 1 ≤ z := by
    by_contra hc
    have hz1 : (z : ℚ) ≤ n := by exact_mod_cast (by omega : z ≤ n)
    exact hout (hJ.out hz hV ⟨mul_le_mul_of_nonneg_right hz1 hu.le, h1⟩)
  have hle : ((n : ℚ) + 1) * u ≤ z * u := mul_le_mul_of_nonneg_right (by exact_mod_cast hzn) hu.le
  push_cast
  rw [abs_of_nonpos (by linarith), abs_of_nonpos (by linarith)]
  linarith

omit hJ hV in
/-- On the nearer side of the middle. -/
theorem near_middle {b : Bool} (h1 : n ≤ V) (h2 : V < n + 1)
    (hb : if b then (n : ℚ) + 1 / 2 ≤ V else V ≤ n + 1 / 2) :
    ∀ z : ℤ, |V - ((n + b.toNat : ℕ) : ℚ)| ≤ |V - z| := by
  intro z
  have hhalf : |V - ((n + b.toNat : ℕ) : ℚ)| ≤ V - n ∧ |V - ((n + b.toNat : ℕ) : ℚ)| ≤ n + 1 - V := by
    cases b with
    | false =>
      rw [if_neg (by decide)] at hb
      rw [Bool.toNat_false, Nat.add_zero, abs_of_nonneg (by linarith)]
      exact ⟨le_rfl, by linarith⟩
    | true =>
      rw [if_pos rfl] at hb
      rw [Bool.toNat_true, abs_of_nonpos (by push_cast; linarith)]
      push_cast
      exact ⟨by linarith, by linarith⟩
  rcases Int.lt_or_le n z with hz | hz
  · have hz1 : (n : ℚ) + 1 ≤ z := by exact_mod_cast hz
    rw [abs_of_nonpos (show V - z ≤ 0 by linarith)]
    linarith [hhalf.2]
  · have hz1 : (z : ℚ) ≤ n := by exact_mod_cast hz
    rw [abs_of_nonneg (show 0 ≤ V - z by linarith)]
    linarith [hhalf.1]

variable (htwo : ∀ z : ℤ, ¬ ((z : ℚ) * 10 ∈ J ∧ ((z : ℚ) + 1) * 10 ∈ J))
include hpos

include htwo in
/-- **A multiple of ten.** Exactly one of the two beside `V` is inside. -/
theorem best_ten {b : Bool} (h1 : (n : ℚ) * 10 ≤ V) (h2 : V < (n + 1) * 10)
    (hb : if b then ((n : ℚ) + 1) * 10 ∈ J ∧ (n : ℚ) * 10 ∉ J else (n : ℚ) * 10 ∈ J ∧
    ((n : ℚ) + 1) * 10 ∉ J) :
    Best J V (n + b.toNat) 1 := by
  -- two multiples inside would have neighbours inside
  have huniq : ∀ w : ℤ, (w : ℚ) * 10 ∈ J → ∀ z : ℤ, (z : ℚ) * 10 ∈ J → z = w := by
    have hlt : ∀ w z : ℤ, (w : ℚ) * 10 ∈ J → (z : ℚ) * 10 ∈ J → ¬ w < z := by
      intro w z hw hz hwz
      have hz1 : (w : ℚ) + 1 ≤ z := by exact_mod_cast hwz
      exact htwo w ⟨hw, hJ.out hw hz ⟨by linarith, by linarith⟩⟩
    intro w hw z hz
    have := hlt w z hw hz
    have := hlt z w hz hw
    omega
  have hmem : ((n + b.toNat : ℕ) : ℚ) * 10 ∈ J := by
    cases b with
    | false => simpa using hb.1
    | true => simpa using hb.1
  have hten : ∀ z : ℤ, (z : ℚ) * 10 ∈ J → z = (n + b.toNat : ℕ) := fun z hz =>
    huniq ((n + b.toNat : ℕ) : ℤ) (by rw [Int.cast_natCast]; exact hmem) z hz
  refine ⟨by rwa [zpow_one], by rw [zpow_one]; exact short_ten hJ hpos hmem hten, ?_⟩
  rw [zpow_one]
  cases b with
  | false =>
    rw [Bool.toNat_false, Nat.add_zero]
    exact near_below hJ hV (by norm_num) h1 h2 hb.2
  | true =>
    rw [Bool.toNat_true]
    exact near_above hJ hV (by norm_num) h1 h2 hb.2

/-- **An integer.** It is small, or no multiple of ten is inside. -/
theorem best_one {b : Bool} (h1 : (n : ℚ) ≤ V) (h2 : V < n + 1)
    (hten : n < 10 ∨ ∀ z : ℤ, (z : ℚ) * 10 ∉ J) (hmem : ((n + b.toNat : ℕ) : ℚ) ∈ J)
    (hb : if b then (n : ℚ) ∉ J ∨ (n : ℚ) + 1 / 2 ≤ V else (n : ℚ) + 1 ∉ J ∨ V ≤ n + 1 / 2) :
    Best J V (n + b.toNat) 0 := by
  have hb1 := b.toNat_le
  refine ⟨by rwa [zpow_zero, mul_one], ?_, ?_⟩
  · rw [zpow_zero, mul_one]
    rcases hten with hn | hnone
    · exact short_small hpos (by omega)
    · exact short_one hJ hpos hmem hnone
  · rw [zpow_zero, mul_one]
    intro z hz
    rw [mul_one] at hz ⊢
    cases b with
    | false =>
      rcases hb with hb | hb
      · have := near_below hJ hV (u := 1) one_pos (by rwa [mul_one]) (by rwa [mul_one])
          (by rwa [mul_one]) z (by rwa [mul_one])
        simpa using this
      · exact near_middle (b := false) h1 h2 hb z
    | true =>
      rcases hb with hb | hb
      · have := near_above hJ hV (u := 1) one_pos (by rwa [mul_one]) (by rwa [mul_one])
          (by rwa [mul_one]) z (by rwa [mul_one])
        simpa using this
      · exact near_middle (b := true) h1 h2 hb z

omit hpos in
/-- No multiple of ten is inside where neither of the two beside `V` is. -/
theorem no_ten (h1 : (n : ℚ) * 10 ≤ V) (h2 : V < (n + 1) * 10) (hout : (n : ℚ) * 10 ∉ J)
    (hout' : ((n : ℚ) + 1) * 10 ∉ J) :
    ∀ z : ℤ, (z : ℚ) * 10 ∉ J := by
  intro z hz
  rcases Int.lt_or_le n z with h | h
  · have hz1 : (n : ℚ) + 1 ≤ z := by exact_mod_cast h
    exact hout' (hJ.out hV hz ⟨h2.le, by linarith⟩)
  · have hz1 : (z : ℚ) ≤ n := by exact_mod_cast h
    exact hout (hJ.out hz hV ⟨by linarith, h1⟩)

end

end Shortest
