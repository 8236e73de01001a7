/-
# How near the multiples of a number come to an integer

Two neighbouring fractions `a / b ≤ x < c / d` bound the distances of all the multiples
`m * x` with `0 < m < b + d` to the integers on their two sides: from below the nearest
are the multiples of `b` (`Pair.floor_gap`), and from above `d` (`Pair.ceil_gap`). The
pair for a number is found by Euclid's division (`search`); what is found is a pair
whenever the four comparisons of the definition hold, so no proof is about the search.
-/
import Mathlib.Tactic

namespace Farey

/-- Neighbours in the order of the fractions, with `x` between them. -/
structure Pair (x : ℚ) (a b c d : ℤ) : Prop where
  below : (a : ℚ) ≤ b * x
  above : (d : ℚ) * x < c
  det : b * c - a * d = 1
  b_pos : 0 < b
  d_pos : 0 < d

section
variable {x : ℚ} {a b c d m p : ℤ}

/-- In the basis of the pair. -/
theorem Pair.coords (h : Pair x a b c d) (m p : ℤ) :
    m = (m * c - p * d) * b + (p * b - m * a) * d ∧
      (m : ℚ) * x - p = ((m * c - p * d : ℤ) : ℚ) * (b * x - a) - ((p * b - m * a : ℤ) : ℚ) *
        (c - d * x) := by
  have hdet : ((b : ℚ) * c - a * d) = 1 := by exact_mod_cast h.det
  constructor
  · linear_combination (-m) * h.det
  · push_cast
    linear_combination (-((m : ℚ) * x - p)) * hdet

/-- **The distance down** is that of a multiple of `b`, or at least that of `d` to the other side. -/
theorem Pair.floor_gap (h : Pair x a b c d) (hm : 0 < m) (hlt : m < b + d) (hp : (p : ℚ) ≤ m * x) :
    (∃ j : ℤ, 1 ≤ j ∧ m = j * b ∧ (m : ℚ) * x - p = j * (b * x - a)) ∨ (c : ℚ) - d * x ≤ m * x - p := by
  obtain ⟨h1, h2⟩ := h.coords m p
  have hb := h.below
  have ha := h.above
  have hbp := h.b_pos
  have hdp := h.d_pos
  generalize m * c - p * d = u at h1 h2
  generalize p * b - m * a = v at h1 h2
  rw [h2]
  -- the coordinate along `d` is not positive
  have hv : v ≤ 0 := by
    by_contra hc
    have hv1 : (1 : ℚ) ≤ v := by exact_mod_cast (by omega : 1 ≤ v)
    have hu : 1 ≤ u := by
      by_contra hcu
      have hu0 : (u : ℚ) ≤ 0 := by exact_mod_cast (by omega : u ≤ 0)
      nlinarith
    nlinarith
  rcases lt_or_eq_of_le hv with hlt0 | rfl
  · right
    have hv1 : (v : ℚ) ≤ -1 := by exact_mod_cast (by omega : v ≤ -1)
    have hu : 0 ≤ u := by
      by_contra hcu
      nlinarith
    have hu0 : (0 : ℚ) ≤ u := by exact_mod_cast hu
    nlinarith
  · left
    rw [zero_mul, add_zero] at h1
    refine ⟨u, ?_, h1, by simp⟩
    by_contra hcu
    nlinarith

/-- **The distance up** is at least that of `d`. -/
theorem Pair.ceil_gap (h : Pair x a b c d) (hm : 0 < m) (hlt : m < b + d) (hp : (m : ℚ) * x < p) :
    (c : ℚ) - d * x ≤ p - m * x := by
  obtain ⟨h1, h2⟩ := h.coords m p
  have hb := h.below
  have ha := h.above
  have hbp := h.b_pos
  have hdp := h.d_pos
  generalize m * c - p * d = u at h1 h2
  generalize p * b - m * a = v at h1 h2
  have hu : u ≤ 0 := by
    by_contra hc
    have hu1 : (1 : ℚ) ≤ u := by exact_mod_cast (by omega : 1 ≤ u)
    have hv : 1 ≤ v := by
      by_contra hcv
      have hv0 : (v : ℚ) ≤ 0 := by exact_mod_cast (by omega : v ≤ 0)
      nlinarith
    nlinarith
  have hv : 1 ≤ v := by
    by_contra hcv
    nlinarith
  have hu0 : (u : ℚ) ≤ 0 := by exact_mod_cast hu
  have hv1 : (1 : ℚ) ≤ v := by exact_mod_cast hv
  nlinarith

end

/-- The neighbours of `N / D` with denominators up to `M`: `below` is `b * N - a * D` and `above` is
`c * D - d * N`. -/
def search (M : ℕ) : ℕ → ℕ → ℕ → ℕ → ℕ → ℕ → ℕ → ℕ × ℕ × ℕ × ℕ
  | 0, a, b, c, d, _, _ => (a, b, c, d)
  | fuel + 1, a, b, c, d, below, above =>
    if M < b + d then (a, b, c, d)
    else
      let k := min (below / above) (if d = 0 then below / above else (M - b) / d)
      let a := a + k * c
      let b := b + k * d
      let below := below - k * above
      let k := if below = 0 then (M - d) / b else min ((above - 1) / below) ((M - d) / b)
      search M fuel a b (c + k * a) (d + k * b) below (above - k * below)

/-- The pair of `N / D`. -/
def neighbours (M N D : ℕ) : ℕ × ℕ × ℕ × ℕ := search M 64 (N / D) 1 1 0 (N % D) D

end Farey
