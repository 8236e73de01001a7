/-
# Binary floating point numbers and rounding to the nearest

The non-negative numbers of a binary format, numbered by their bits: the order of the
bits is the order of the values (`val_lt_val`), and the number of the infinity stands for
the first power of two behind the finite ones. `Nearest x b` says that `b` is the number
nearest to `x`, the even one of two that are equally near; there is only one
(`Nearest.unique`). It is the number below `x` or the next one, as the rest of `x` and
the parity decide (`nearest_floor`), and `round` computes it (`nearest_round`).
-/
import Mathlib.Tactic
import Mathlib.Data.Rat.Floor

namespace Binary

/-- A format: the bits of the fraction, the exponent of the last place of the least numbers, and the
number of exponents. -/
structure Format where
  frac : ℕ
  emin : ℤ
  exps : ℕ
  frac_pos : 0 < frac

namespace Format

variable (f : Format)

/-- The bits of the number `n * 2 ^ (e + emin)`. -/
def enc (e n : ℕ) : ℕ := e * 2 ^ f.frac + n

/-- The exponent of the number with these bits, from the least one on. -/
def expo (b : ℕ) : ℕ := b / 2 ^ f.frac - 1

/-- The significand of the number with these bits, with its leading bit. -/
def signif (b : ℕ) : ℕ := b - f.expo b * 2 ^ f.frac

/-- The value. -/
def val (b : ℕ) : ℚ := f.signif b * 2 ^ ((f.expo b : ℤ) + f.emin)

/-- The bits of the infinity. -/
def inf : ℕ := f.exps * 2 ^ f.frac

/-- The value of the last place, for an exponent. -/
def ulp (e : ℕ) : ℚ := 2 ^ ((e : ℤ) + f.emin)

/-- A significand that goes with the exponent: with its leading bit, or one of the least exponent. -/
structure Fits (e n : ℕ) : Prop where
  lead : n < 2 ^ f.frac → e = 0
  lt : n < 2 ^ (f.frac + 1)

/-- The number with bits `b` is nearest to `x`, and the even one of two such. -/
structure Nearest (x : ℚ) (b : ℕ) : Prop where
  le_inf : b ≤ f.inf
  near : ∀ c ≤ f.inf, |x - f.val b| ≤ |x - f.val c|
  even : ∀ c ≤ f.inf, |x - f.val b| = |x - f.val c| → c ≠ b → b % 2 = 0

/-- The number nearest to `x`, for `x` that is not negative. -/
def round (x : ℚ) : ℕ :=
  let n := x.num.toNat * 2 ^ (-f.emin).toNat
  let d := x.den * 2 ^ f.emin.toNat
  let e := (n / d).log2 - f.frac
  let m := n / (d * 2 ^ e)
  let r := n % (d * 2 ^ e)
  let up := d * 2 ^ e < 2 * r ∨ d * 2 ^ e = 2 * r ∧ m % 2 = 1
  min f.inf (f.enc e (if up then m + 1 else m))

variable {f} {e n b c : ℕ} {x y : ℚ}

theorem ulp_pos (e : ℕ) : 0 < f.ulp e := zpow_pos (by norm_num) _

theorem ulp_succ (e : ℕ) : f.ulp (e + 1) = 2 * f.ulp e := by
  unfold ulp
  rw [show ((e + 1 : ℕ) : ℤ) + f.emin = ((e : ℤ) + f.emin) + 1 by push_cast; ring,
    zpow_add_one₀ (by norm_num)]
  ring

theorem two_pow_pos : 0 < 2 ^ f.frac := Nat.pow_pos (by decide)

/-! ### The order -/

theorem exists_enc (b : ℕ) : ∃ e n, b = f.enc e n ∧ f.Fits e n := by
  have hb := Nat.div_add_mod b (2 ^ f.frac)
  have hlt := Nat.mod_lt b f.two_pow_pos
  rcases Nat.eq_zero_or_pos (b / 2 ^ f.frac) with h0 | h0
  · refine ⟨0, b, by simp [enc], fun _ => rfl, ?_⟩
    rw [h0] at hb
    rw [pow_succ]
    omega
  · refine ⟨b / 2 ^ f.frac - 1, 2 ^ f.frac + b % 2 ^ f.frac, ?_, fun h => absurd h (by omega), ?_⟩
    · unfold enc
      obtain ⟨q, hq⟩ := Nat.exists_eq_add_of_le h0
      rw [hq] at hb ⊢
      have : 1 + q - 1 = q := by omega
      rw [this]
      linarith [mul_comm (2 ^ f.frac) q, mul_add (2 ^ f.frac) 1 q]
    · rw [pow_succ]
      omega

theorem expo_enc (h : f.Fits e n) : f.expo (f.enc e n) = e := by
  have h2 := f.two_pow_pos
  have hlt := h.lt
  rw [pow_succ] at hlt
  unfold expo enc
  rw [Nat.add_comm, Nat.add_mul_div_right _ _ h2]
  by_cases hn : n < 2 ^ f.frac
  · rw [h.lead hn, Nat.div_eq_of_lt hn]
  · have hdiv : n / 2 ^ f.frac = 1 := Nat.div_eq_of_lt_le (by omega) (by omega)
    omega

theorem signif_enc (h : f.Fits e n) : f.signif (f.enc e n) = n := by
  rw [signif, expo_enc h, enc]
  omega

theorem val_enc (h : f.Fits e n) : f.val (f.enc e n) = n * f.ulp e := by
  rw [val, signif_enc h, expo_enc h, ulp]

/-- The number before one with a greater significand than the least of its exponent. -/
theorem val_enc_pred (h : f.Fits e n) (hn : 0 < n) (hlead : 2 ^ f.frac < n ∨ e = 0) :
    f.val (f.enc e n - 1) = (n - 1) * f.ulp e := by
  have hfit : f.Fits e (n - 1) := by
    refine ⟨fun hlt => ?_, lt_of_le_of_lt (Nat.sub_le _ _) h.lt⟩
    rcases hlead with hc | he
    · omega
    · exact he
  have := val_enc hfit
  rw [Nat.cast_sub hn, Nat.cast_one] at this
  rw [← this]
  congr 1
  unfold enc
  omega

/-- The number before a power of two has a smaller exponent. -/
theorem val_enc_pred_pow :
    f.val (f.enc (e + 1) (2 ^ f.frac) - 1) = (2 ^ (f.frac + 1) - 1) * f.ulp e := by
  have hp : 0 < 2 ^ f.frac := Nat.pow_pos (by decide)
  have hfit : f.Fits e (2 ^ (f.frac + 1) - 1) := by
    rw [pow_succ]
    exact ⟨fun hlt => absurd hlt (by omega), by rw [pow_succ]; omega⟩
  have := val_enc hfit
  rw [Nat.cast_sub (by rw [pow_succ]; omega), Nat.cast_one] at this
  push_cast at this
  rw [← this]
  congr 1
  unfold enc
  rw [pow_succ]
  have : (e + 1) * 2 ^ f.frac = e * 2 ^ f.frac + 2 ^ f.frac := by ring
  omega

/-- Also where the significand has run over. -/
theorem val_enc_succ (h : f.Fits e n) : f.val (f.enc e n + 1) = (n + 1) * f.ulp e := by
  have hpow : 2 ^ (f.frac + 1) = 2 ^ f.frac + 2 ^ f.frac := by rw [pow_succ]; ring
  rcases Nat.lt_or_ge (n + 1) (2 ^ (f.frac + 1)) with hlt | hge
  · have hfit : f.Fits e (n + 1) := ⟨fun hn => h.lead (by omega), hlt⟩
    have := val_enc hfit
    rw [enc, ← Nat.add_assoc] at this
    rw [enc, this]
    push_cast
    ring
  · have hn : n + 1 = 2 ^ f.frac + 2 ^ f.frac := by
      have := h.lt
      omega
    have hfit : f.Fits (e + 1) (2 ^ f.frac) :=
      ⟨fun hn => absurd hn (lt_irrefl _), by have := f.two_pow_pos; omega⟩
    have henc : f.enc e n + 1 = f.enc (e + 1) (2 ^ f.frac) := by
      unfold enc
      rw [Nat.add_mul]
      omega
    have hcast : (n : ℚ) + 1 = 2 ^ f.frac + 2 ^ f.frac := by exact_mod_cast hn
    rw [henc, val_enc hfit, ulp_succ, hcast]
    push_cast
    ring

theorem val_strictMono : StrictMono f.val := by
  refine strictMono_nat_of_lt_succ fun b => ?_
  obtain ⟨e, n, rfl, h⟩ := f.exists_enc b
  rw [val_enc h, val_enc_succ h]
  have := f.ulp_pos e
  linarith

theorem val_lt_val (h : b < c) : f.val b < f.val c := val_strictMono h

theorem val_le_val (h : b ≤ c) : f.val b ≤ f.val c := val_strictMono.monotone h

theorem val_nonneg (b : ℕ) : 0 ≤ f.val b := by
  unfold val
  positivity

theorem enc_mod_two : f.enc e n % 2 = n % 2 := by
  obtain ⟨p, hp⟩ := Nat.exists_eq_add_of_lt f.frac_pos
  unfold enc
  rw [show 0 + p + 1 = p + 1 by omega] at hp
  rw [hp, pow_succ, ← Nat.mul_assoc, Nat.mul_comm, Nat.mul_add_mod]

/-! ### The nearest number -/

/-- Between a number and the next one it is one of the two, as the distances and the parity decide. -/
theorem nearest_of_between (hb : b < f.inf) (hle : f.val b ≤ x) (hlt : x ≤ f.val (b + 1)) :
    (x - f.val b < f.val (b + 1) - x ∨ x - f.val b = f.val (b + 1) - x ∧ b % 2 = 0 → f.Nearest x b) ∧
      (f.val (b + 1) - x < x - f.val b ∨ x - f.val b = f.val (b + 1) - x ∧
        b % 2 = 1 → f.Nearest x (b + 1)) := by
  have hlow : ∀ c, c ≤ b → x - f.val b ≤ |x - f.val c| ∧ (x - f.val b = |x - f.val c| → c = b) := by
    intro c hc
    have h1 := f.val_le_val hc
    rw [abs_of_nonneg (by linarith)]
    refine ⟨by linarith, fun h => ?_⟩
    exact val_strictMono.injective (by linarith)
  have hhigh : ∀ c, b + 1 ≤ c → f.val (b + 1) - x ≤ |x - f.val c| ∧
      (f.val (b + 1) - x = |x - f.val c| → c = b + 1) := by
    intro c hc
    have h1 := f.val_le_val hc
    rw [abs_of_nonpos (by linarith)]
    refine ⟨by linarith, fun h => ?_⟩
    exact val_strictMono.injective (by linarith)
  have hb0 : |x - f.val b| = x - f.val b := abs_of_nonneg (by linarith)
  have hb1 : |x - f.val (b + 1)| = f.val (b + 1) - x := by
    rw [abs_of_nonpos (by linarith)]
    ring
  constructor
  · intro h
    refine ⟨hb.le, fun c _ => ?_, fun c _ heq hne => ?_⟩
    · rw [hb0]
      rcases Nat.lt_or_ge b c with hc | hc
      · have := (hhigh c hc).1
        rcases h with h | h <;> linarith [h]
      · exact (hlow c hc).1
    · rw [hb0] at heq
      rcases Nat.lt_or_ge b c with hc | hc
      · rcases h with h | h
        · have := (hhigh c hc).1
          linarith
        · exact h.2
      · exact absurd ((hlow c hc).2 heq) hne
  · intro h
    refine ⟨hb, fun c _ => ?_, fun c _ heq hne => ?_⟩
    · rw [hb1]
      rcases Nat.lt_or_ge b c with hc | hc
      · exact (hhigh c hc).1
      · have := (hlow c hc).1
        rcases h with h | h <;> linarith [h]
    · rw [hb1] at heq
      rcases Nat.lt_or_ge b c with hc | hc
      · exact absurd ((hhigh c hc).2 heq) hne
      · rcases h with h | h
        · have := (hlow c hc).1
          linarith
        · omega

/-- The number below `x` is known, and what is left of `x`. -/
theorem nearest_floor {r : ℚ} {up : Bool} (h : f.Fits e n) (hb : f.enc e n < f.inf)
    (hx : x = (n + r) * f.ulp e) (h0 : 0 ≤ r) (h1 : r < 1)
    (hup : up = true ↔ 1 / 2 < r ∨ r = 1 / 2 ∧ n % 2 = 1) :
    f.Nearest x (f.enc e n + up.toNat) := by
  have hu := f.ulp_pos e
  have hv := val_enc h
  have hv' := val_enc_succ h
  have e1 : x - f.val (f.enc e n) = r * f.ulp e := by
    rw [hv, hx]
    ring
  have e2 : f.val (f.enc e n + 1) - x = (1 - r) * f.ulp e := by
    rw [hv', hx]
    ring
  have hle : f.val (f.enc e n) ≤ x := by nlinarith
  have hle' : x ≤ f.val (f.enc e n + 1) := by nlinarith
  obtain ⟨hlow, hhigh⟩ := nearest_of_between hb hle hle'
  rw [e1, e2, enc_mod_two] at hlow hhigh
  cases up with
  | true =>
    refine hhigh ?_
    rcases hup.mp rfl with hr | ⟨hr, hn⟩
    · exact .inl (mul_lt_mul_of_pos_right (by linarith) hu)
    · exact .inr ⟨by rw [hr]; norm_num, hn⟩
  | false =>
    have hnot : ¬ (1 / 2 < r ∨ r = 1 / 2 ∧ n % 2 = 1) := fun hc => Bool.false_ne_true (hup.mpr hc)
    obtain ⟨h2, h3⟩ := not_or.mp hnot
    refine hlow ?_
    rcases lt_or_eq_of_le (not_lt.mp h2) with hr | hr
    · exact .inl (mul_lt_mul_of_pos_right (by linarith) hu)
    · refine .inr ⟨by rw [hr]; norm_num, ?_⟩
      exact (Nat.mod_two_eq_zero_or_one n).resolve_right fun hn => h3 ⟨hr, hn⟩

/-- From the power of two behind the finite numbers on. -/
theorem nearest_inf (h : f.val f.inf ≤ x) : f.Nearest x f.inf := by
  refine ⟨le_rfl, fun c hc => ?_, fun c hc heq hne => ?_⟩
  · have := f.val_le_val hc
    rw [abs_of_nonneg (by linarith), abs_of_nonneg (by linarith)]
    linarith
  · have h1 := f.val_lt_val (lt_of_le_of_ne hc hne)
    rw [abs_of_nonneg (by linarith), abs_of_nonneg (by linarith)] at heq
    linarith

/-- **There is only one nearest number.** -/
theorem Nearest.unique (hb : f.Nearest x b) (hc : f.Nearest x c) : b = c := by
  wlog hlt : b < c with H
  · rcases Nat.lt_trichotomy b c with h | h | h
    · exact absurd h hlt
    · exact h
    · exact (H hc hb h).symm
  exfalso
  have heq := le_antisymm (hb.near c hc.le_inf) (hc.near b hb.le_inf)
  have heven := hb.even c hc.le_inf heq hlt.ne'
  have heven' := hc.even b hb.le_inf heq.symm hlt.ne
  have hv := f.val_lt_val hlt
  -- the number after `b` is nearer, or it is `c`
  have hmid := f.val_lt_val (Nat.lt_succ_self b)
  have hle := f.val_le_val (show b + 1 ≤ c from hlt)
  have hnear := hb.near (b + 1) (hlt.trans_le hc.le_inf)
  have hsum : x - f.val b = f.val c - x := by
    rcases abs_eq_abs.mp heq with h | h
    · exact absurd h (by linarith)
    · linarith
  rw [abs_of_nonneg (show 0 ≤ x - f.val b by linarith)] at hnear
  have hcv : f.val c ≤ f.val (b + 1) := by
    rcases le_total x (f.val (b + 1)) with h | h
    · rw [abs_of_nonpos (by linarith)] at hnear
      linarith
    · rw [abs_of_nonneg (by linarith)] at hnear
      linarith
  have hcb : c ≤ b + 1 := val_strictMono.le_iff_le.mp hcv
  omega

theorem Nearest.mono (hb : f.Nearest x b) (hc : f.Nearest y c) (hxy : x ≤ y) : b ≤ c := by
  by_contra hlt
  push Not at hlt
  have hv := f.val_lt_val hlt
  have h1 := hb.near c hc.le_inf
  have h2 := hc.near b hb.le_inf
  -- `x` is not below the middle of the two, and `y` not above
  have hx : f.val b + f.val c ≤ 2 * x := by
    rcases le_total x (f.val b) with h | h
    · rw [abs_of_nonpos (by linarith)] at h1
      rcases le_total x (f.val c) with h' | h'
      · rw [abs_of_nonpos (by linarith)] at h1
        linarith
      · rw [abs_of_nonneg (by linarith)] at h1
        linarith
    · linarith
  have hy : 2 * y ≤ f.val b + f.val c := by
    rcases le_total (f.val c) y with h | h
    · rw [abs_of_nonneg (show 0 ≤ y - f.val c by linarith)] at h2
      rcases le_total y (f.val b) with h' | h'
      · rw [abs_of_nonpos (by linarith)] at h2
        linarith
      · rw [abs_of_nonneg (by linarith)] at h2
        linarith
    · linarith
  obtain rfl : x = y := by linarith
  exact absurd (hb.unique hc) hlt.ne'

/-- **`round` computes it.** -/
theorem nearest_round (hx : 0 ≤ x) : f.Nearest x (f.round x) := by
  unfold round
  dsimp only
  have hden : 0 < x.den * 2 ^ f.emin.toNat := Nat.mul_pos x.den_pos (Nat.pow_pos (by decide))
  -- a quotient of natural numbers, in units of the least place
  have hxq : x = ((x.num.toNat * 2 ^ (-f.emin).toNat : ℕ) : ℚ) / (x.den * 2 ^ f.emin.toNat : ℕ) *
      2 ^ f.emin := by
    have hnum : ((x.num.toNat : ℕ) : ℚ) = x.num := by
      exact_mod_cast Int.toNat_of_nonneg (Rat.num_nonneg.mpr hx)
    have hpow : (2 : ℚ) ^ (-f.emin).toNat * 2 ^ f.emin = 2 ^ f.emin.toNat := by
      rw [← zpow_natCast, ← zpow_natCast, ← zpow_add₀ (by norm_num)]
      congr 1
      omega
    have hden' : (x.den : ℚ) ≠ 0 := by exact_mod_cast x.den_pos.ne'
    have hpos : (2 : ℚ) ^ f.emin.toNat ≠ 0 := by positivity
    push_cast
    rw [hnum, div_mul_eq_mul_div, mul_assoc, hpow, mul_div_mul_right _ _ hpos]
    exact (Rat.num_div_den x).symm
  generalize x.num.toNat * 2 ^ (-f.emin).toNat = N at hxq
  generalize x.den * 2 ^ f.emin.toNat = D at hxq hden
  have he : N / D < 2 ^ ((N / D).log2 - f.frac + (f.frac + 1)) :=
    Nat.lt_log2_self.trans_le (Nat.pow_le_pow_right (by decide) (by omega))
  have he' : (N / D).log2 - f.frac ≠ 0 → 2 ^ ((N / D).log2 - f.frac + f.frac) ≤ N / D := by
    intro h0
    rw [Nat.sub_add_cancel (by omega)]
    refine Nat.log2_self_le fun h => ?_
    rw [h] at h0
    exact h0 (by simp)
  generalize (N / D).log2 - f.frac = e at he he'
  have hunit : 0 < D * 2 ^ e := Nat.mul_pos hden (Nat.pow_pos (by decide))
  have hdiv := Nat.div_add_mod N (D * 2 ^ e)
  have hmod := Nat.mod_lt N hunit
  have hfit : f.Fits e (N / (D * 2 ^ e)) := by
    rw [← Nat.div_div_eq_div_mul]
    constructor
    · intro hlt
      by_contra h0
      have h1 := he' h0
      rw [Nat.add_comm, pow_add] at h1
      exact absurd ((Nat.le_div_iff_mul_le (Nat.pow_pos (by decide))).mpr h1) (not_le.mpr hlt)
    · rw [Nat.add_comm, pow_add] at he
      exact (Nat.div_lt_iff_lt_mul (Nat.pow_pos (by decide))).mpr he
  generalize N / (D * 2 ^ e) = m at hdiv hfit
  generalize N % (D * 2 ^ e) = r at hdiv hmod
  have hunit' : (0 : ℚ) < (D * 2 ^ e : ℕ) := by exact_mod_cast hunit
  have hxm : x = (m + (r : ℚ) / (D * 2 ^ e : ℕ)) * f.ulp e := by
    have hD : (D : ℚ) ≠ 0 := by exact_mod_cast hden.ne'
    rw [hxq, ulp, zpow_add₀ (by norm_num), zpow_natCast, ← hdiv]
    push_cast
    field_simp
  by_cases hinf : f.enc e m < f.inf
  · have hr0 : (0 : ℚ) ≤ (r : ℚ) / (D * 2 ^ e : ℕ) := div_nonneg (Nat.cast_nonneg _) hunit'.le
    have hr1 : (r : ℚ) / (D * 2 ^ e : ℕ) < 1 := (div_lt_one hunit').mpr (by exact_mod_cast hmod)
    have hhalf : D * 2 ^ e < 2 * r ↔ (1 / 2 : ℚ) < (r : ℚ) / (D * 2 ^ e : ℕ) := by
      rw [lt_div_iff₀ hunit']
      constructor
      · intro h
        have : ((D * 2 ^ e : ℕ) : ℚ) < (2 * r : ℕ) := by exact_mod_cast h
        push_cast at this ⊢
        linarith
      · intro h
        have : ((D * 2 ^ e : ℕ) : ℚ) < (2 * r : ℕ) := by push_cast at h ⊢; linarith
        exact_mod_cast this
    have htie : D * 2 ^ e = 2 * r ↔ (r : ℚ) / (D * 2 ^ e : ℕ) = 1 / 2 := by
      rw [div_eq_iff hunit'.ne']
      constructor
      · intro h
        have : ((D * 2 ^ e : ℕ) : ℚ) = (2 * r : ℕ) := by exact_mod_cast h
        push_cast at this ⊢
        linarith
      · intro h
        have : ((D * 2 ^ e : ℕ) : ℚ) = (2 * r : ℕ) := by push_cast at h ⊢; linarith
        exact_mod_cast this
    have hnear := @nearest_floor f e m x _ (decide (D * 2 ^ e < 2 * r ∨ D * 2 ^ e = 2 * r ∧
      m % 2 = 1)) hfit hinf hxm hr0 hr1
      (by rw [decide_eq_true_iff, hhalf, htie])
    have henc : f.enc e (if D * 2 ^ e < 2 * r ∨ D * 2 ^ e = 2 * r ∧ m % 2 = 1 then m + 1 else m) =
        f.enc e m + (decide (D * 2 ^ e < 2 * r ∨ D * 2 ^ e = 2 * r ∧ m % 2 = 1)).toNat := by
      unfold enc
      split
      · next h => rw [decide_eq_true h]; rfl
      · next h => rw [decide_eq_false h]; rfl
    rw [henc, Nat.min_eq_right hnear.le_inf]
    exact hnear
  · have hle : f.inf ≤ f.enc e m := not_lt.mp hinf
    have hmin : min f.inf (f.enc e (if D * 2 ^ e < 2 * r ∨ D * 2 ^ e = 2 * r ∧
        m % 2 = 1 then m + 1 else m)) = f.inf := by
      refine Nat.min_eq_left (hle.trans ?_)
      unfold enc
      split <;> omega
    rw [hmin]
    apply nearest_inf
    calc f.val f.inf ≤ f.val (f.enc e m) := val_le_val hle
      _ = m * f.ulp e := val_enc hfit
      _ ≤ x := by
        rw [hxm]
        have : (0 : ℚ) ≤ (r : ℚ) / (D * 2 ^ e : ℕ) := div_nonneg (Nat.cast_nonneg _) hunit'.le
        exact mul_le_mul_of_nonneg_right (by linarith) (f.ulp_pos e).le

/-- What is nearest at both ends is nearest between them. -/
theorem Nearest.between {z : ℚ} (hx : f.Nearest x b) (hz : f.Nearest z b) (h0 : 0 ≤ x) (hxy : x ≤ y)
    (hyz : y ≤ z) :
    f.Nearest y b := by
  have hy := @nearest_round f y (h0.trans hxy)
  have h1 := hx.mono hy hxy
  have h2 := hy.mono hz hyz
  exact le_antisymm h2 h1 ▸ hy

theorem nearest_iff (hx : 0 ≤ x) : f.Nearest x b ↔ f.round x = b :=
  ⟨fun h => (nearest_round hx).unique h, fun h => h ▸ nearest_round hx⟩

/-- **The numbers that round to `b`** are those between the middles to its two neighbours, with the
middles when `b` is even. -/
theorem nearest_middles (hb0 : 0 < b) (hb : b < f.inf) :
    f.Nearest x b ↔ if b % 2 = 0 then f.val (b - 1) + f.val b ≤ 2 * x ∧ 2 * x ≤ f.val b + f.val (b + 1)
      else f.val (b - 1) + f.val b < 2 * x ∧ 2 * x < f.val b + f.val (b + 1) := by
  have h1 : f.val (b - 1) < f.val b := val_lt_val (by omega)
  have h2 : f.val b < f.val (b + 1) := val_lt_val (by omega)
  -- the distance to the neighbour, on either side of the middle
  have hbelow : |x - f.val b| ≤ |x - f.val (b - 1)| ↔ f.val (b - 1) + f.val b ≤ 2 * x := by
    rw [← sq_le_sq]
    constructor <;> intro h <;> nlinarith
  have habove : |x - f.val b| ≤ |x - f.val (b + 1)| ↔ 2 * x ≤ f.val b + f.val (b + 1) := by
    rw [← sq_le_sq]
    constructor <;> intro h <;> nlinarith
  have hbelow' : |x - f.val b| = |x - f.val (b - 1)| ↔ f.val (b - 1) + f.val b = 2 * x := by
    rw [← sq_eq_sq_iff_abs_eq_abs]
    constructor
    · intro h
      have : (f.val b - f.val (b - 1)) * (f.val (b - 1) + f.val b - 2 * x) = 0 := by linarith
      rcases mul_eq_zero.mp this with h | h <;> linarith
    · intro h
      have : x = (f.val (b - 1) + f.val b) / 2 := by linarith
      rw [this]
      ring
  have habove' : |x - f.val b| = |x - f.val (b + 1)| ↔ 2 * x = f.val b + f.val (b + 1) := by
    rw [← sq_eq_sq_iff_abs_eq_abs]
    constructor
    · intro h
      have : (f.val (b + 1) - f.val b) * (f.val b + f.val (b + 1) - 2 * x) = 0 := by linarith
      rcases mul_eq_zero.mp this with h | h <;> linarith
    · intro h
      have : x = (f.val b + f.val (b + 1)) / 2 := by linarith
      rw [this]
      ring
  constructor
  · intro h
    have hlow := hbelow.mp (h.near (b - 1) (by omega))
    have hup := habove.mp (h.near (b + 1) (by omega))
    split
    · exact ⟨hlow, hup⟩
    · next hodd =>
      refine ⟨lt_of_le_of_ne hlow fun he => hodd ?_, lt_of_le_of_ne hup fun he => hodd ?_⟩
      · exact h.even (b - 1) (by omega) (hbelow'.mpr he) (by omega)
      · exact h.even (b + 1) (by omega) (habove'.mpr he) (by omega)
  · intro h
    have hle : f.val (b - 1) + f.val b ≤ 2 * x ∧ 2 * x ≤ f.val b + f.val (b + 1) := by
      split at h
      · exact h
      · exact ⟨h.1.le, h.2.le⟩
    -- the others are behind the neighbours
    have hfar : ∀ c, c ≠ b → |x - f.val (b - 1)| ≤ |x - f.val c| ∧ c ≤ b - 1 ∨
        |x - f.val (b + 1)| ≤ |x - f.val c| ∧ b + 1 ≤ c := by
      intro c hc
      rcases Nat.lt_or_ge c b with hcb | hcb
      · left
        have := val_le_val (f := f) (show c ≤ b - 1 by omega)
        rw [abs_of_nonneg (by linarith), abs_of_nonneg (by linarith)]
        exact ⟨by linarith, by omega⟩
      · right
        have := val_le_val (f := f) (show b + 1 ≤ c by omega)
        rw [abs_of_nonpos (by linarith), abs_of_nonpos (by linarith)]
        exact ⟨by linarith, by omega⟩
    refine ⟨hb.le, fun c _ => ?_, fun c _ heq hc => ?_⟩
    · by_cases hc : c = b
      · rw [hc]
      · rcases hfar c hc with ⟨hf, -⟩ | ⟨hf, -⟩
        · exact (hbelow.mpr hle.1).trans hf
        · exact (habove.mpr hle.2).trans hf
    · by_contra hodd
      rw [if_neg hodd] at h
      rcases hfar c hc with ⟨hf, -⟩ | ⟨hf, -⟩
      · have := hbelow'.mp (le_antisymm (hbelow.mpr hle.1) (heq ▸ hf))
        linarith
      · have := habove'.mp (le_antisymm (habove.mpr hle.2) (heq ▸ hf))
        linarith

/-! ### Numbers that are exact -/

/-- A number with few enough bits is one of the format. -/
theorem exists_val {n : ℕ} {z : ℤ} (hn : n < 2 ^ (f.frac + 1)) (hz : f.emin ≤ z) :
    ∃ b, f.val b = n * 2 ^ z := by
  obtain ⟨k, hk⟩ : ∃ k : ℕ, z = k + f.emin := ⟨(z - f.emin).toNat, by omega⟩
  subst hk
  induction k generalizing n with
  | zero => exact ⟨f.enc 0 n, val_enc ⟨fun _ => rfl, hn⟩⟩
  | succ k ih =>
    by_cases hlead : n < 2 ^ f.frac
    · -- the leading bit is moved up
      obtain ⟨b, hb⟩ := @ih (2 * n) (by rw [pow_succ]; omega) (by omega)
      refine ⟨b, hb.trans ?_⟩
      rw [show ((k + 1 : ℕ) : ℤ) + f.emin = ((k : ℤ) + f.emin) + 1 by push_cast; ring,
        zpow_add_one₀ (by norm_num)]
      push_cast
      ring
    · exact ⟨f.enc (k + 1) n, val_enc ⟨fun h => absurd h hlead, hn⟩⟩

theorem nearest_val (hb : b ≤ f.inf) : f.Nearest (f.val b) b := by
  refine ⟨hb, fun c _ => ?_, fun c _ h hc => ?_⟩
  · rw [sub_self, abs_zero]
    exact abs_nonneg _
  · rw [sub_self, abs_zero] at h
    have := sub_eq_zero.mp (abs_eq_zero.mp h.symm)
    exact absurd (val_strictMono.injective this).symm hc

/-- What is below the infinity and exact stays as it is. -/
theorem val_round {z : ℤ} (hn : n < 2 ^ (f.frac + 1)) (hz : f.emin ≤ z)
    (hlt : (n : ℚ) * 2 ^ z ≤ f.val f.inf) :
    f.val (f.round (n * 2 ^ z)) = n * 2 ^ z := by
  obtain ⟨b, hb⟩ := exists_val hn hz
  have hle : b ≤ f.inf := by
    by_contra hc
    have := val_lt_val (f := f) (not_le.mp hc)
    rw [hb] at this
    exact absurd hlt (not_le.mpr this)
  have hnear := nearest_val hle
  rw [hb] at hnear
  rw [(nearest_iff (by positivity)).mp hnear, hb]

end Format

/-- The format of a `double`. -/
def binary64 : Format := ⟨52, -1074, 2047, by decide⟩

end Binary
