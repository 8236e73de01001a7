/-
# Masks of lanes

What a vector comparison finds in its lanes is kept in three ways: one bit a lane
(`lanes`), four bits a lane, where the mask is narrowed to a word (`nibbles`), and the
lanes before the first hit (`brkb`), which are counted. What is asked of two such masks
is where the first hit is and which of two kinds of hits comes first; the answers are
those of `first` (`ctz_lanes`, `ctz_nibbles`, `count_brkb`, `lanes_sub_one_and`,
`nibbles_sub_one_and`).
-/
import SonicJson.Lib.Bits

namespace Bits

/-- One bit for each of the `n` lanes, in a word of `w` bits. -/
def lanes (w n : ℕ) (f : ℕ → Bool) : BitVec w := ofPred w fun i => decide (i < n) && f i

/-- Four bits for each of the 16 lanes. -/
def nibbles (f : ℕ → Bool) : BitVec 64 := ofPred 64 fun i => f (i / 4)

/-- The lanes before the first hit. -/
def brkb (f : ℕ → Bool) (i : ℕ) : Bool := (List.range (i + 1)).all fun j => !f j

section
variable {w n : ℕ} {f g : ℕ → Bool}

theorem first_lt_iff : first f n < n ↔ ∃ i < n, f i = true := by
  constructor
  · intro h
    exact ⟨_, h, first_spec n f h⟩
  · rintro ⟨i, hi, hf⟩
    by_contra hc
    have := lt_first n f i (by omega)
    rw [hf] at this
    cases this

/-- Which of two hits comes first. -/
theorem first_lt_first : first g n < first f n ↔ ∃ i < first f n, g i = true := by
  have hle := first_le n f
  constructor
  · intro h
    exact ⟨_, h, first_spec n g (by omega)⟩
  · rintro ⟨i, hi, hg⟩
    by_contra hc
    have := lt_first n g i (by omega)
    rw [hg] at this
    cases this

/-! ### One bit a lane -/

theorem getLsbD_lanes (h : n ≤ w) (i : ℕ) : (lanes w n f).getLsbD i = (decide (i < n) && f i) := by
  rw [lanes, getLsbD_ofPred]
  by_cases hi : i < n
  · simp [hi, show i < w by omega]
  · simp [hi]

theorem lanes_ne_zero (h : n ≤ w) : lanes w n f ≠ 0 ↔ first f n < n := by
  rw [first_lt_iff, ne_eq, eq_zero_iff]
  push Not
  simp only [getLsbD_lanes h, ne_eq, Bool.not_eq_false, Bool.and_eq_true, decide_eq_true_eq]
  constructor
  · rintro ⟨i, -, hi, hf⟩
    exact ⟨i, hi, hf⟩
  · rintro ⟨i, hi, hf⟩
    exact ⟨i, by omega, hi, hf⟩

theorem ctz_lanes (h : n ≤ w) (hf : first f n < n) : ctz (lanes w n f) = first f n := by
  refine first_eq (by omega) ?_ fun i hi => ?_
  · rw [getLsbD_lanes h, decide_eq_true hf, Bool.true_and]
    exact first_spec n f hf
  · rw [getLsbD_lanes h, lt_first n f i hi, Bool.and_false]

theorem lanes_sub_one_and (h : n ≤ w) (hd : ∀ i, g i = true → f i = false) :
    (lanes w n f - 1#w) &&& lanes w n g ≠ 0 ↔ first g n < first f n := by
  have hle := first_le n f
  have hdis : ∀ i < w, (lanes w n f).getLsbD i = true → (lanes w n g).getLsbD i = false := by
    intro i _ hi
    rw [getLsbD_lanes h, Bool.and_eq_true] at hi
    rw [getLsbD_lanes h]
    cases hg : g i
    · rw [Bool.and_false]
    · rw [hd i hg] at hi
      exact absurd hi.2 (by decide)
  rw [ne_eq, sub_one_and_eq_zero _ _ hdis, first_lt_first]
  push Not
  simp only [getLsbD_lanes h, ne_eq, Bool.not_eq_false, Bool.and_eq_true, decide_eq_true_eq]
  by_cases hf : first f n < n
  · rw [ctz_lanes h hf]
    constructor
    · rintro ⟨i, hi, -, hg⟩
      exact ⟨i, hi, hg⟩
    · rintro ⟨i, hi, hg⟩
      exact ⟨i, hi, by omega, hg⟩
  · rw [ctz_eq_width (not_not.mp (mt (lanes_ne_zero h).mp hf)), show first f n = n by omega]
    constructor
    · rintro ⟨i, -, hi, hg⟩
      exact ⟨i, hi, hg⟩
    · rintro ⟨i, hi, hg⟩
      exact ⟨i, by omega, hi, hg⟩

/-- The first `k` of the lanes are looked at. -/
theorem lanes_and_shift (h : n ≤ w) (k : ℕ) :
    lanes w n f &&& (lanes w n (fun _ => true) >>> (n - k)) = lanes w n fun i =>
      decide (i < k) && f i := by
  refine BitVec.eq_of_getLsbD_eq fun i _ => ?_
  rw [BitVec.getLsbD_and, BitVec.getLsbD_ushiftRight, getLsbD_lanes h, getLsbD_lanes h, getLsbD_lanes h]
  by_cases hi : i < n
  · by_cases hk : i < k
    · simp [hi, hk, show n - k + i < n by omega]
    · simp [hk, show ¬ n - k + i < n by omega]
  · simp [hi]

/-! ### Four bits a lane -/

theorem getLsbD_nibbles (i : ℕ) :
    (nibbles f).getLsbD i = (decide (i < 64) && f (i / 4)) := by rw [nibbles, getLsbD_ofPred]

/-- The lowest bit, of four. -/
theorem ctz_nibbles : ctz (nibbles f) = 4 * first f 16 := by
  have hle := first_le 16 f
  by_cases hf : first f 16 < 16
  · refine first_eq (by omega) ?_ fun i hi => ?_
    · rw [getLsbD_nibbles, decide_eq_true (by omega), Bool.true_and,
        Nat.mul_div_cancel_left _ (by decide)]
      exact first_spec 16 f hf
    · rw [getLsbD_nibbles, lt_first 16 f (i / 4) (by omega), Bool.and_false]
  · have hz : nibbles f = 0 := by
      rw [eq_zero_iff]
      intro i hi
      rw [getLsbD_nibbles, lt_first 16 f (i / 4) (by omega), Bool.and_false]
    rw [ctz_eq_width hz]
    omega

theorem nibbles_ne_zero : nibbles f ≠ 0 ↔ first f 16 < 16 := by
  have hctz := @ctz_nibbles f
  constructor
  · intro h
    have := ctz_lt h
    omega
  · intro h
    exact ne_zero_of_ctz_lt (k := 64) (by omega) le_rfl

theorem nibbles_sub_one_and (hd : ∀ i, g i = true → f i = false) :
    (nibbles f - 1#64) &&& nibbles g ≠ 0 ↔ first g 16 < first f 16 := by
  have hle := first_le 16 f
  have hdis : ∀ i < 64, (nibbles f).getLsbD i = true → (nibbles g).getLsbD i = false := by
    intro i _ hi
    rw [getLsbD_nibbles, Bool.and_eq_true] at hi
    rw [getLsbD_nibbles]
    cases hg : g (i / 4)
    · rw [Bool.and_false]
    · rw [hd _ hg] at hi
      exact absurd hi.2 (by decide)
  rw [ne_eq, sub_one_and_eq_zero _ _ hdis, ctz_nibbles, first_lt_first]
  push Not
  simp only [getLsbD_nibbles, ne_eq, Bool.not_eq_false, Bool.and_eq_true, decide_eq_true_eq]
  constructor
  · rintro ⟨i, hi, -, hg⟩
    exact ⟨i / 4, by omega, hg⟩
  · rintro ⟨i, hi, hg⟩
    refine ⟨4 * i, by omega, by omega, ?_⟩
    rwa [Nat.mul_div_cancel_left _ (by decide)]

/-- The first `k` of the lanes are looked at. -/
theorem nibbles_and_shift (k : ℕ) :
    nibbles f &&& (BitVec.allOnes 64 >>> ((16 - k) * 4)) = nibbles fun i => decide (i < k) && f i := by
  refine BitVec.eq_of_getLsbD_eq fun i hi => ?_
  rw [BitVec.getLsbD_and, BitVec.getLsbD_ushiftRight, getLsbD_nibbles, getLsbD_nibbles,
    BitVec.getLsbD_allOnes]
  by_cases hk : i / 4 < k
  · simp [hi, hk, show (16 - k) * 4 + i < 64 by omega]
  · simp [hk, show ¬ (16 - k) * 4 + i < 64 by omega]

/-! ### The lanes before a hit -/

theorem count_brkb : ∀ n : ℕ, count (brkb f) n = first f n := by
  have hbrkb : ∀ i, brkb f i = true ↔ ∀ j ≤ i, f j = false := by
    intro i
    simp [brkb]
  intro n
  have hbelow : ∀ i < first f n, brkb f i = true :=
    fun i hi => (hbrkb i).mpr fun j hj => lt_first n f j (by omega)
  have hle := first_le n f
  rw [count_of_none hle fun i hi hin => ?_]
  · have hall : ∀ k ≤ first f n, count (brkb f) k = k := by
      intro k
      induction k with
      | zero => exact fun _ => rfl
      | succ k ih =>
        intro hk
        rw [count, ih (by omega), hbelow k (by omega)]
        rfl
    exact hall _ le_rfl
  · cases hb : brkb f i
    · rfl
    · have := (hbrkb i).mp hb _ hi
      rw [first_spec n f (by omega)] at this
      cases this

end

end Bits
