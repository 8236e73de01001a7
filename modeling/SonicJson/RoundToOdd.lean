/-
# Rounding to odd, and the scales of all exponents

`RoundToOdd` keeps of a product with a power of ten its integer part and one bit for the
rest. The power has been rounded up; the bit is right as long as the rest is neither so
small nor so near to one that this matters (`RoundToOdd_sameSide`). That no multiple in
use has such a rest is checked for every binary exponent, by a pair of neighbouring
fractions (`regular_scale`, `irregular_scale`).
-/
import SonicJson.Pow10CeilSig
import SonicJson.Lib.Farey

namespace SonicJson

open Farey

/-- The products are of 128 bits; none of them runs over. -/
def RoundToOdd (g : ℕ × ℕ) (cp : ℕ) : ℕ :=
  let x := cp * g.2
  let y := cp * g.1 + x / 2 ^ 64
  let y0 := y % 2 ^ 64
  let y1 := y / 2 ^ 64
  y1 ||| if 1 < y0 then 1 else 0

/-! ### Rounding to odd -/

section
variable {x : ℚ} {n : ℕ}

/-- Not too near to the integers above it and to the even ones below it, where it is no integer. -/
structure Clear (x : ℚ) : Prop where
  above : ∀ p : ℕ, x < p → (1 : ℚ) / 2 ^ 63 ≤ p - x
  below : ∀ p : ℕ, p % 2 = 0 → (p : ℚ) < x → (1 : ℚ) / 2 ^ 63 ≤ x - p

/-- On the same side of every even number. -/
structure SameSide (n : ℕ) (x : ℚ) : Prop where
  le : ∀ t : ℕ, n ≤ 2 * t ↔ x ≤ ((2 * t : ℕ) : ℚ)
  ge : ∀ t : ℕ, 2 * t ≤ n ↔ ((2 * t : ℕ) : ℚ) ≤ x

theorem SameSide.self (n : ℕ) : SameSide n n :=
  ⟨fun _ => by rw [Nat.cast_le], fun _ => by rw [Nat.cast_le]⟩

/-- An odd number beside `x`. -/
theorem SameSide.odd {r : ℕ} (h1 : (n : ℚ) < x) (h2 : x < n + 1) (hr : r = n ∨ r = n + 1)
    (hodd : r % 2 = 1) : SameSide r x := by
  have hle : ∀ t : ℕ, x ≤ (t : ℚ) ↔ n + 1 ≤ t := by
    intro t
    constructor
    · intro h
      have : (n : ℚ) < t := h1.trans_le h
      exact_mod_cast this
    · intro h
      have : ((n + 1 : ℕ) : ℚ) ≤ t := by exact_mod_cast h
      push_cast at this
      linarith
  have hge : ∀ t : ℕ, (t : ℚ) ≤ x ↔ t ≤ n := by
    intro t
    constructor
    · intro h
      have : (t : ℚ) < ((n + 1 : ℕ) : ℚ) := by push_cast; linarith
      have : t < n + 1 := by exact_mod_cast this
      omega
    · intro h
      have : (t : ℚ) ≤ n := by exact_mod_cast h
      linarith
  constructor
  · intro t
    rw [hle]
    omega
  · intro t
    rw [hge]
    omega

theorem or_one (n : ℕ) : n ||| 1 = 2 * (n / 2) + 1 := by
  have hdiv : (n ||| 1) / 2 = n / 2 := by
    rw [Nat.or_div_two, Nat.div_eq_of_lt (show 1 < 2 by decide), Nat.or_zero]
  have hmod : (n ||| 1) % 2 = 1 := Nat.or_mod_two_eq_one.mpr (.inr rfl)
  omega

/-- **The product keeps the side.** -/
theorem RoundToOdd_sameSide {hi lo cp : ℕ} (h0 : 0 ≤ x)
    (h1 : x * 2 ^ 128 ≤ ((cp * (hi * 2 ^ 64 + lo) : ℕ) : ℚ))
    (h2 : ((cp * (hi * 2 ^ 64 + lo) : ℕ) : ℚ) < x * 2 ^ 128 + 2 ^ 64) (hx : Clear x) :
    SameSide (RoundToOdd (hi, lo) cp) x := by
  have hy : cp * hi + cp * lo / 2 ^ 64 = cp * (hi * 2 ^ 64 + lo) / 2 ^ 64 := by
    have : cp * (hi * 2 ^ 64 + lo) = cp * lo + cp * hi * 2 ^ 64 := by ring
    rw [this, Nat.add_mul_div_right _ _ (by norm_num), Nat.add_comm]
  unfold RoundToOdd
  dsimp only
  rw [hy]
  generalize cp * (hi * 2 ^ 64 + lo) = P at *
  obtain ⟨n, hn, hn'⟩ : ∃ n : ℕ, (n : ℚ) ≤ x ∧ x < n + 1 :=
    ⟨⌊x⌋₊, Nat.floor_le h0, Nat.lt_floor_add_one x⟩
  rcases eq_or_lt_of_le hn with rfl | hlt
  · -- exact: nothing is left below
    have hP1 : n * 2 ^ 128 ≤ P := by exact_mod_cast h1
    have hP2 : P < n * 2 ^ 128 + 2 ^ 64 := by exact_mod_cast h2
    have h3 : P / 2 ^ 64 / 2 ^ 64 = n := by omega
    have h4 : ¬ 1 < P / 2 ^ 64 % 2 ^ 64 := by omega
    rw [h3, if_neg h4, Nat.or_zero]
    exact SameSide.self n
  · have hup := hx.above (n + 1) (by push_cast; exact hn')
    push_cast at hup
    have hP1 : n * 2 ^ 128 < P := by
      have : (n : ℚ) * 2 ^ 128 < P := by linarith
      exact_mod_cast this
    have hP2 : P < (n + 1) * 2 ^ 128 := by
      have : (P : ℚ) < (n + 1) * 2 ^ 128 := by linarith
      exact_mod_cast this
    have h3 : P / 2 ^ 64 / 2 ^ 64 = n := by omega
    rw [h3]
    by_cases hpar : n % 2 = 1
    · apply SameSide.odd hlt hn'
      · left
        split
        · rw [or_one]
          omega
        · rw [Nat.or_zero]
      · split
        · rw [or_one]
          omega
        · rw [Nat.or_zero]
          exact hpar
    · -- the rest is seen
      have hlow := hx.below n (by omega) hlt
      have hP3 : n * 2 ^ 128 + 2 ^ 65 ≤ P := by
        have : (n : ℚ) * 2 ^ 128 + 2 ^ 65 ≤ P := by linarith
        exact_mod_cast this
      have h4 : 1 < P / 2 ^ 64 % 2 ^ 64 := by omega
      rw [if_pos h4]
      apply SameSide.odd hlt hn'
      · rw [or_one]
        omega
      · rw [or_one]
        omega

end

/-! ### The scales -/

/-- `2 ^ z / 10 ^ k`, as a quotient of natural numbers. -/
def scaledNum (z k : ℤ) : ℕ := 2 ^ z.toNat * 10 ^ (-k).toNat

def scaledDen (z k : ℤ) : ℕ := 2 ^ (-z).toNat * 10 ^ k.toNat

theorem scaledDen_pos (z k : ℤ) : 0 < scaledDen z k := by
  unfold scaledDen
  positivity

theorem scaled_eq (z k : ℤ) : (2 : ℚ) ^ z * 10 ^ (-k) = scaledNum z k / scaledDen z k := by
  rw [zpow_eq_div (by norm_num) z, zpow_eq_div (by norm_num) (-k), neg_neg]
  unfold scaledNum scaledDen
  push_cast
  field_simp

/-- The neighbours found for `2 ^ (q + 1) / 10 ^ k` are a pair, and leave the multiples that are
used clear of the integers. -/
def regularChecked (q : ℤ) : Bool :=
  let k := q * 1262611 / 2 ^ 22
  let N := scaledNum (q + 1) k
  let D := scaledDen (q + 1) k
  match neighbours (2 ^ 54 + 1) N D with
  | (a, b, c, d) =>
    decide (2 * D ≤ N ∧ N < 20 * D ∧ 0 ≤ q + -k * 1741647 / 2 ^ 19 ∧ q + -k * 1741647 / 2 ^ 19 ≤ 3 ∧
      -324 ≤ k ∧ k ≤ 292) &&
      decide (a * D ≤ b * N ∧ d * N < c * D ∧ b * c = a * d + 1 ∧ 2 ^ 54 + 1 < b + d ∧ 0 < b ∧ 0 < d ∧
        D ≤ 2 ^ 63 * (c * D - d * N)) &&
      decide (b * N = a * D ∨ D ≤ 2 ^ 63 * (b * N - a * D) ∨
        (a % 2 = 1 ∨ q ≠ -1074 ∧ b % 2 = 1 ∧ b < 2 ^ 53 - 1) ∧
          (D ≤ 2 ^ 64 * (b * N - a * D) ∨ 2 ^ 54 + 1 < 2 * b))

/-- The same of the bounds of `2 ^ 52 * 2 ^ q`, below which the numbers are nearer to each other. -/
def irregularChecked (q : ℤ) : Bool :=
  let k := (q * 1262611 - 524031) / 2 ^ 22
  let N := scaledNum q k
  let D := scaledDen q k
  decide (4 * D ≤ 3 * N ∧ 3 * N < 40 * D ∧ 0 ≤ q + -k * 1741647 / 2 ^ 19 ∧
    q + -k * 1741647 / 2 ^ 19 ≤ 3 ∧ -324 ≤ k ∧ k ≤ 292) &&
    [2 ^ 54 - 1, 2 ^ 54, 2 ^ 54 + 2].all fun X =>
      decide (X * N % D = 0 ∨ D ≤ 2 ^ 63 * (D - X * N % D) ∧
        (X * N / D % 2 = 1 ∨ D ≤ 2 ^ 63 * (X * N % D)))

/-- The scales of `n` exponents from `q` on. -/
def checkedFrom (p : ℤ → Bool) (q : ℤ) (n : ℕ) : Bool := (List.range n).all fun i => p (q + i)

/-- In blocks, each of which is checked on its own. -/
theorem checked_of_blocks {p : ℤ → Bool} {q₀ q : ℤ} {n m : ℕ}
    (h : ∀ b < m, checkedFrom p (q₀ + n * b) n = true) (h0 : q₀ ≤ q) (h1 : q < q₀ + n * m) :
    p q = true := by
  have hn : 0 < n := Nat.pos_of_ne_zero fun hn => by
    rw [hn, Nat.cast_zero, zero_mul] at h1
    omega
  obtain ⟨i, rfl⟩ : ∃ i : ℕ, q = q₀ + i := ⟨(q - q₀).toNat, by omega⟩
  have hi : i < n * m := by
    have : (i : ℤ) < ((n * m : ℕ) : ℤ) := by
      push_cast
      linarith
    exact_mod_cast this
  have hblock := List.all_eq_true.mp (h (i / n) (Nat.div_lt_of_lt_mul hi)) (i % n)
    (List.mem_range.mpr (Nat.mod_lt i hn))
  have hsplit : q₀ + (n : ℤ) * ((i / n : ℕ) : ℤ) + ((i % n : ℕ) : ℤ) = q₀ + i := by
    have : ((n * (i / n) + i % n : ℕ) : ℤ) = i := congrArg _ (Nat.div_add_mod i n)
    push_cast at this ⊢
    linarith
  rwa [hsplit] at hblock

theorem all_regularChecked {q : ℤ} (h0 : -1074 ≤ q) (h1 : q ≤ 971) : regularChecked q = true := by
  refine @checked_of_blocks regularChecked (-1074) q 66 31 (fun b hb => ?_) h0 (by omega)
  interval_cases b <;> decide +kernel

theorem all_irregularChecked {q : ℤ} (h0 : -1073 ≤ q) (h1 : q ≤ 971) : irregularChecked q = true := by
  refine @checked_of_blocks irregularChecked (-1073) q 66 31 (fun b hb => ?_) h0 (by omega)
  interval_cases b <;> decide +kernel

/-- The table has the power, and the shift is a small one. -/
structure InTable (q k : ℤ) : Prop where
  shift_nonneg : 0 ≤ q + -k * 1741647 / 2 ^ 19
  shift_le : q + -k * 1741647 / 2 ^ 19 ≤ 3
  k_ge : -324 ≤ k
  k_le : k ≤ 292

theorem clear_of_pair {x : ℚ} {a b c d m : ℤ} (h : Pair x a b c d) (hm : 0 < m) (hlt : m < b + d)
    (hup : (1 : ℚ) / 2 ^ 63 ≤ c - d * x)
    (hlow : (b : ℚ) * x = a ∨ (1 : ℚ) / 2 ^ 63 ≤ b * x - a ∨ (a % 2 = 1 ∨ m ≠ b) ∧
    ((1 : ℚ) / 2 ^ 64 ≤ b * x - a ∨ m < 2 * b)) :
    Clear (m * x) := by
  constructor
  · intro p hp
    have := h.ceil_gap hm hlt (p := p) (by exact_mod_cast hp)
    rw [Int.cast_natCast] at this
    exact hup.trans this
  · intro p heven hp
    have hgap := h.floor_gap hm hlt (p := p) (by exact_mod_cast hp.le)
    rw [Int.cast_natCast] at hgap
    rcases hgap with ⟨j, hj, hmj, heq⟩ | hgap
    swap
    · exact hup.trans hgap
    have hj1 : (1 : ℚ) ≤ j := by exact_mod_cast hj
    rcases hlow with hzero | hlow | ⟨hone, hlow⟩
    · rw [hzero, sub_self, mul_zero] at heq
      exact absurd hp (by linarith)
    · rw [heq]
      nlinarith
    · rcases Int.lt_or_le 1 j with hj2 | hj2
      · -- twice the distance
        have hj2' : (2 : ℚ) ≤ j := by exact_mod_cast hj2
        have hb := h.b_pos
        have hδ : (1 : ℚ) / 2 ^ 64 ≤ b * x - a := by
          rcases hlow with hlow | hlow
          · exact hlow
          · nlinarith
        rw [heq]
        nlinarith
      · -- the multiple itself: the integer below it is odd, or it is not in use
        obtain rfl : j = 1 := by omega
        rw [one_mul] at hmj
        subst hmj
        rw [Int.cast_one, one_mul] at heq
        have hpa : ((p : ℤ) : ℚ) = a := by
          rw [Int.cast_natCast]
          linarith
        have hpa' : (p : ℤ) = a := by exact_mod_cast hpa
        rcases hone with hodd | hne
        · omega
        · exact absurd rfl hne

/-- A quotient whose rest is clear. -/
theorem clear_of_quotient {A D : ℕ} (hD : 0 < D)
    (h : A % D = 0 ∨ D ≤ 2 ^ 63 * (D - A % D) ∧ (A / D % 2 = 1 ∨ D ≤ 2 ^ 63 * (A % D))) :
    Clear ((A : ℚ) / D) := by
  have hr : A % D < D := Nat.mod_lt _ hD
  have hDq : (0 : ℚ) < D := by exact_mod_cast hD
  have hx : (A : ℚ) / D = (A / D : ℕ) + ((A % D : ℕ) : ℚ) / D := by
    have : (A : ℚ) = D * (A / D : ℕ) + (A % D : ℕ) := by exact_mod_cast (Nat.div_add_mod A D).symm
    rw [div_eq_iff hDq.ne', add_mul, div_mul_cancel₀ _ hDq.ne']
    linarith
  generalize A / D = n at *
  generalize A % D = r at *
  have hsmall : (1 : ℚ) / 2 ^ 63 ≤ 1 := by norm_num
  have hr1 : (r : ℚ) / D < 1 := by
    rw [div_lt_one hDq]
    exact_mod_cast hr
  have hr0 : (0 : ℚ) ≤ (r : ℚ) / D := by positivity
  rw [hx]
  rcases h with rfl | ⟨hup, hlow⟩
  · rw [Nat.cast_zero, zero_div, add_zero]
    constructor
    · intro p hp
      have : (n : ℚ) + 1 ≤ p := by exact_mod_cast hp
      linarith
    · intro p _ hp
      have : (p : ℚ) + 1 ≤ n := by exact_mod_cast hp
      linarith
  · constructor
    · intro p hp
      have hp' : (n : ℚ) + 1 ≤ p := by
        have : (n : ℚ) < p := by linarith
        exact_mod_cast this
      have hgap : (1 : ℚ) / 2 ^ 63 ≤ 1 - (r : ℚ) / D := by
        have hcast : (D : ℚ) ≤ 2 ^ 63 * (D - r) := by
          have := (Nat.cast_le (α := ℚ)).mpr hup
          rw [Nat.cast_mul, Nat.cast_sub hr.le] at this
          exact_mod_cast this
        rw [one_sub_div hDq.ne', div_le_div_iff₀ (by norm_num) hDq]
        linarith
      linarith
    · intro p heven hp
      have hp' : p ≤ n := by
        have : (p : ℚ) < ((n + 1 : ℕ) : ℚ) := by push_cast; linarith
        have : p < n + 1 := by exact_mod_cast this
        omega
      rcases hlow with hodd | hlow
      · have : (p : ℚ) + 1 ≤ n := by exact_mod_cast (by omega : p + 1 ≤ n)
        linarith
      · have hgap : (1 : ℚ) / 2 ^ 63 ≤ (r : ℚ) / D := by
          have hcast : (D : ℚ) ≤ 2 ^ 63 * r := by exact_mod_cast hlow
          rw [div_le_div_iff₀ (by norm_num) hDq]
          linarith
        have : (p : ℚ) ≤ n := by exact_mod_cast hp'
        linarith

/-- **The regular scale.** The unit is within a digit of the spacing, and no multiple in use has a
rest that is lost. -/
theorem regular_scale {q k : ℤ} (h0 : -1074 ≤ q) (h1 : q ≤ 971) (hk : k = q * 1262611 / 2 ^ 22) :
    InTable q k ∧ 1 ≤ (2 : ℚ) ^ q * 10 ^ (-k) ∧ (2 : ℚ) ^ q * 10 ^ (-k) < 10 ∧
      ∀ m : ℕ, 0 < m → m ≤ 2 ^ 54 + 1 → (m % 2 = 1 → q ≠ -1074 → 2 ^ 53 - 1 ≤ m) →
        Clear ((2 * m : ℕ) * ((2 : ℚ) ^ q * 10 ^ (-k))) := by
  have hchk := @all_regularChecked q (by omega) (by omega)
  rw [regularChecked, ← hk] at hchk
  dsimp only at hchk
  have hD := scaledDen_pos (q + 1) k
  have hx := scaled_eq (q + 1) k
  rw [zpow_add_one₀ (by norm_num)] at hx
  generalize scaledNum (q + 1) k = N at *
  generalize scaledDen (q + 1) k = D at *
  generalize neighbours (2 ^ 54 + 1) N D = nb at *
  obtain ⟨a, b, c, d⟩ := nb
  rw [Bool.and_eq_true, Bool.and_eq_true, decide_eq_true_iff, decide_eq_true_iff,
    decide_eq_true_iff] at hchk
  obtain ⟨⟨⟨hN, hN', hs0, hs3, hk0, hk1⟩, hbelow, habove, hdet, hM, hb, hd, hup⟩, hlow⟩ := hchk
  have hDq : (0 : ℚ) < D := by exact_mod_cast hD
  have hα : (2 : ℚ) ^ q * 10 ^ (-k) = N / D / 2 := by
    rw [← hx]
    ring
  refine ⟨⟨hs0, hs3, hk0, hk1⟩, ?_, ?_, ?_⟩
  · have : (2 : ℚ) * D ≤ N := by exact_mod_cast hN
    rw [hα, le_div_iff₀ (by norm_num), le_div_iff₀ hDq]
    linarith
  · have : (N : ℚ) < 20 * D := by exact_mod_cast hN'
    rw [hα, div_lt_iff₀ (by norm_num), div_lt_iff₀ hDq]
    linarith
  intro m hm hm' hused
  have hcast : ((2 * m : ℕ) : ℚ) * ((2 : ℚ) ^ q * 10 ^ (-k)) = ((m : ℤ) : ℚ) * (N / D) := by
    rw [hα, Int.cast_natCast]
    push_cast
    ring
  rw [hcast]
  have hmul : ∀ u v : ℕ, ((u : ℚ) * (N / D) - v) = (u * N - v * D) / D := fun u v => by field_simp
  have hpair : Pair ((N : ℚ) / D) a b c d := by
    refine ⟨?_, ?_, ?_, by exact_mod_cast hb, by exact_mod_cast hd⟩
    · have : (a : ℚ) * D ≤ b * N := by exact_mod_cast hbelow
      rw [Int.cast_natCast, Int.cast_natCast, mul_div_assoc', le_div_iff₀ hDq]
      exact this
    · have : (d : ℚ) * N < c * D := by exact_mod_cast habove
      rw [Int.cast_natCast, Int.cast_natCast, mul_div_assoc', div_lt_iff₀ hDq]
      exact this
    · have : (b : ℤ) * c = a * d + 1 := by exact_mod_cast hdet
      linarith
  apply clear_of_pair hpair
  · exact_mod_cast hm
  · have : m < b + d := lt_of_le_of_lt hm' hM
    exact_mod_cast this
  · have : (D : ℚ) ≤ 2 ^ 63 * (c * D - d * N) := by
      have := (Nat.cast_le (α := ℚ)).mpr hup
      rw [Nat.cast_mul, Nat.cast_sub habove.le] at this
      exact_mod_cast this
    rw [Int.cast_natCast, Int.cast_natCast, mul_div_assoc', sub_div' hDq.ne',
      div_le_div_iff₀ (by norm_num) hDq]
    linarith
  · have hδ : ∀ e : ℕ, D ≤ 2 ^ e * (b * N - a * D) →
        (1 : ℚ) / 2 ^ e ≤ (b : ℤ) * ((N : ℚ) / D) - (a : ℤ) := by
      intro e he
      have : (D : ℚ) ≤ 2 ^ e * (b * N - a * D) := by
        have := (Nat.cast_le (α := ℚ)).mpr he
        rw [Nat.cast_mul, Nat.cast_sub hbelow] at this
        exact_mod_cast this
      rw [Int.cast_natCast, Int.cast_natCast, hmul, div_le_div_iff₀ (by positivity) hDq]
      linarith
    rcases hlow with h | h | ⟨h, h'⟩
    · left
      have : (b : ℚ) * N = a * D := by exact_mod_cast h
      rw [Int.cast_natCast, Int.cast_natCast, mul_div_assoc', this, mul_div_cancel_right₀ _ hDq.ne']
    · exact .inr (.inl (hδ 63 h))
    · refine .inr (.inr ⟨?_, ?_⟩)
      · rcases h with h | ⟨hq, hbodd, hb53⟩
        · left
          omega
        · right
          intro hmb
          have hmb' : m = b := by exact_mod_cast hmb
          have := hused (by rw [hmb']; exact hbodd) hq
          rw [hmb'] at this
          exact absurd hb53 (not_lt.mpr this)
      · rcases h' with h' | h'
        · exact .inl (hδ 64 h')
        · right
          have : m < 2 * b := lt_of_le_of_lt hm' h'
          exact_mod_cast this

/-- **The irregular scale**, for the three multiples in use. -/
theorem irregular_scale {q k : ℤ} (h0 : -1073 ≤ q) (h1 : q ≤ 971)
    (hk : k = (q * 1262611 - 524031) / 2 ^ 22) :
    InTable q k ∧ 4 ≤ 3 * ((2 : ℚ) ^ q * 10 ^ (-k)) ∧ 3 * ((2 : ℚ) ^ q * 10 ^ (-k)) < 40 ∧
      ∀ X ∈ [2 ^ 54 - 1, 2 ^ 54, 2 ^ 54 + 2], Clear ((X : ℕ) * ((2 : ℚ) ^ q * 10 ^ (-k))) := by
  have hchk := @all_irregularChecked q (by omega) (by omega)
  rw [irregularChecked, ← hk] at hchk
  have hD := scaledDen_pos q k
  rw [scaled_eq q k]
  generalize scaledNum q k = N at *
  generalize scaledDen q k = D at *
  rw [Bool.and_eq_true, decide_eq_true_iff] at hchk
  obtain ⟨⟨hN, hN', hs0, hs3, hk0, hk1⟩, hall⟩ := hchk
  have hDq : (0 : ℚ) < D := by exact_mod_cast hD
  refine ⟨⟨hs0, hs3, hk0, hk1⟩, ?_, ?_, ?_⟩
  · have : (4 : ℚ) * D ≤ 3 * N := by exact_mod_cast hN
    rw [mul_div_assoc', le_div_iff₀ hDq]
    exact this
  · have : (3 : ℚ) * N < 40 * D := by exact_mod_cast hN'
    rw [mul_div_assoc', div_lt_iff₀ hDq]
    exact this
  · intro X hX
    have := List.all_eq_true.mp hall X hX
    rw [decide_eq_true_iff] at this
    have hclear := clear_of_quotient hD this
    rw [Nat.cast_mul] at hclear
    rwa [mul_div_assoc']

end SonicJson
