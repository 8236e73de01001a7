/-
# The digits of a fraction, by vectors

`simd_str2int` reads 16 bytes, finds the first that is no digit and multiplies and adds
the lanes in front of it, in pairs, with a shape for each count; on ARM it is a loop. What
`parseNumber` makes of the digits of a fraction is the same with both, and does not
overflow (`fractDigits_spec`).
-/
import SonicJson.IntegerToken
import SonicJson.Lib.Bits

namespace SonicJson

open Cursor

namespace sse

/-! ### The lanes -/

/-- The lanes of a vector, as words of the width that the instruction has. -/
abbrev Vec := ℕ → ℕ

/-- A word of `w` bits as a signed number, and back. -/
def toS (w x : ℕ) : ℤ := if x < 2 ^ (w - 1) then x else x - 2 ^ w

/-- An integer as a lane of `w` bits. -/
def word (w : ℕ) (z : ℤ) : ℕ := (z % 2 ^ w).toNat

/-- Sixteen bytes. -/
def loadu_si128 (c : ℕ → UInt8) : Vec := fun k => (c k).toNat

/-- Equal lanes. -/
def set1_epi8 (x : ℕ) : Vec := fun _ => x

/-- `_mm_set1_epi64x(x)`, by lanes of `w` bits. -/
def set1_epi64x (w x : ℕ) : Vec := fun k => x / 2 ^ (w * (k % (64 / w))) % 2 ^ w

/-- The first argument is the highest lane. -/
def set_epi16 (e7 e6 e5 e4 e3 e2 e1 e0 : ℕ) : Vec := fun k => [e0, e1, e2, e3, e4, e5, e6, e7].getD k 0

def sub_epi8 (a b : Vec) : Vec := fun k => word 8 (a k - b k)

def cmpgt_epi8 (a b : Vec) (k : ℕ) : Bool := decide (toS 8 (b k) < toS 8 (a k))

/-- The bytes move up by `n` places. -/
def slli_si128 (a : Vec) (n : ℕ) : Vec := fun k => if n ≤ k then a (k - n) else 0

/-- Unsigned bytes times signed bytes, added in pairs with saturation. -/
def maddubs_epi16 (a b : Vec) : Vec := fun k =>
  word 16 (max (-2 ^ 15) (min (2 ^ 15 - 1) (a (2 * k) * toS 8 (b (2 * k)) +
    a (2 * k + 1) * toS 8 (b (2 * k + 1)))))

def madd_epi16 (a b : Vec) : Vec := fun k =>
  word 32 (toS 16 (a (2 * k)) * toS 16 (b (2 * k)) + toS 16 (a (2 * k + 1)) * toS 16 (b (2 * k + 1)))

/-- Signed words of 32 bits to unsigned ones of 16, with saturation. -/
def packus_epi32 (a b : Vec) : Vec :=
  fun k => (max 0 (min (2 ^ 16 - 1) (toS 32 (if k < 4 then a k else b (k - 4))))).toNat

def DATA_MADDUBS (data : Vec) : Vec := maddubs_epi16 data (set1_epi64x 8 0x010A010A010A010A)

def DATA_MADD (data : Vec) : Vec := madd_epi16 data (set1_epi64x 16 0x0001006400010064)

def DATA_PACK_AND_MADD (data : Vec) : Vec := madd_epi16 (packus_epi32 data data)
    (set_epi16 0 0 0 0 1 10000 1 10000)

/-- The `switch`: the value of the first `man_nd` lanes. -/
def collect (data : Vec) (man_nd : ℕ) : ℕ :=
  if man_nd = 1 then data 0
  else if man_nd = 2 then data 0 * 10 + data 1
  else if man_nd = 3 ∨ man_nd = 4 then
    let data := DATA_MADDUBS (slli_si128 data (16 - man_nd))
    data 6 * 100 + data 7
  else if 5 ≤ man_nd ∧ man_nd ≤ 8 then
    let data := DATA_MADD (DATA_MADDUBS (slli_si128 data (16 - man_nd)))
    word 64 (toS 32 (data 2) * 10000 + toS 32 (data 3))
  else if 9 ≤ man_nd ∧ man_nd ≤ 16 then
    let data := DATA_PACK_AND_MADD (DATA_MADD (DATA_MADDUBS (slli_si128 data (16 - man_nd))))
    (word 64 (toS 32 (data 0)) * 100000000 + word 64 (toS 32 (data 1))) % 2 ^ 64
  else 0

/-- The value, and what `man_nd` is then. -/
def simd_str2int (c : ℕ → UInt8) (man_nd : ℕ) : ℕ × ℕ :=
  let data := sub_epi8 (loadu_si128 c) (set1_epi8 48)
  let is_num_end := fun k => cmpgt_epi8 (set1_epi8 0) data k || cmpgt_epi8 data (set1_epi8 9) k
  let is_num_end_int := Bits.ofPred 32 fun k => decide (k < 16) && is_num_end k
  let num_end_idx := if is_num_end_int ≠ 0 then Bits.ctz is_num_end_int else 16
  let man_nd := if man_nd < num_end_idx then man_nd else num_end_idx
  (collect data man_nd, man_nd)

end sse

namespace arm_common

/-- The loop, from `sum` and `i` on. -/
def loop (c : ℕ → UInt8) (man_nd : ℕ) : ℕ → ℕ → ℕ → ℕ × ℕ
  | 0, sum, i => (sum, i)
  | fuel + 1, sum, i =>
    if is_digit (c i) = true ∧
      i < man_nd then loop c man_nd fuel ((sum * 10 + ((c i).toNat - 48)) % 2 ^ 64) (i + 1)
    else (sum, i)

def simd_str2int (c : ℕ → UInt8) (man_nd : ℕ) : ℕ × ℕ := loop c man_nd man_nd 0 0

end arm_common

/-! ### The fraction of a number -/

/-- The loop that goes on behind the vector. -/
def fractLoop (c : ℕ → UInt8) : ℕ → ℕ → ℕ → ℕ → ℕ × ℕ × ℕ
  | 0, man, man_nd, i => (man, man_nd, i)
  | fuel + 1, man, man_nd, i =>
    if man_nd < 17 ∧ is_digit (c i) = true then
      fractLoop c fuel ((man * 10 + ((c i).toNat - 48)) % 2 ^ 64) (man_nd + 1) (i + 1)
    else (man, man_nd, i)

/-- The block of `double_fract`, at `i` of the text `c`: the mantissa, its digits and the position,
after the digits that are kept. -/
def fractDigits (str2int : (ℕ → UInt8) → ℕ → ℕ × ℕ) (c : ℕ → UInt8) (man man_nd i : ℕ) : ℕ × ℕ × ℕ :=
  let fract_len := 17 - man_nd
  if 0 < fract_len then
    let r := str2int (fun k => c (i + k)) fract_len
    fractLoop c 17 ((man * 10 ^ r.2 + r.1) % 2 ^ 64) (man_nd + r.2) (i + r.2)
  else (man, man_nd, i)

/-! ### The value of lanes -/

namespace sse

/-- The number with the digits `v 0`, `v 1`, … -/
def horner (v : ℕ → ℕ) : ℕ → ℕ
  | 0 => 0
  | n + 1 => horner v n * 10 + v n

section
variable {v w : ℕ → ℕ} {k n m : ℕ}

theorem horner_congr (h : ∀ k < n, v k = w k) : horner v n = horner w n := by
  induction n with
  | zero => rfl
  | succ n ih => rw [horner, horner, ih fun k hk => h k (by omega), h n (by omega)]

theorem horner_lt (h : ∀ k < n, v k ≤ 9) : horner v n < 10 ^ n := by
  induction n with
  | zero => exact Nat.one_pos
  | succ n ih =>
    have h1 := ih fun k hk => h k (by omega)
    have h2 := h n (by omega)
    rw [horner, pow_succ]
    omega

/-- Zeros in front do not count. -/
theorem horner_slli (v : ℕ → ℕ) (m n : ℕ) : horner (slli_si128 v m) (m + n) = horner v n := by
  induction n with
  | zero =>
    have hz : ∀ j ≤ m, horner (slli_si128 v m) j = 0 := by
      intro j
      induction j with
      | zero => exact fun _ => rfl
      | succ j ih =>
        intro hj
        have h0 : slli_si128 v m j = 0 := if_neg (by omega)
        rw [horner, ih (by omega), h0]
    exact hz m le_rfl
  | succ n ih =>
    have hl : slli_si128 v m (m + n) = v n := by
      rw [slli_si128, if_pos (Nat.le_add_right m n), Nat.add_sub_cancel_left]
    rw [← Nat.add_assoc, horner, horner, ih, hl]

theorem toS_eq {w x : ℕ} (h : x < 2 ^ (w - 1)) : toS w x = x := if_pos h

theorem word_eq {w x : ℕ} {z : ℤ} (hz : z = x) (h : x < 2 ^ w) : word w z = x := by
  subst hz
  have : ((x : ℤ) % 2 ^ w) = (x % 2 ^ w : ℕ) := by push_cast; rfl
  rw [word, this, Nat.mod_eq_of_lt h, Int.toNat_natCast]

/-- Pairs of digits. -/
theorem DATA_MADDUBS_lane (h1 : v (2 * k) ≤ 9) (h2 : v (2 * k + 1) ≤ 9) :
    DATA_MADDUBS v k = v (2 * k) * 10 + v (2 * k + 1) := by
  have hq : toS 8 (set1_epi64x 8 0x010A010A010A010A (2 * k)) = 10 ∧
      toS 8 (set1_epi64x 8 0x010A010A010A010A (2 * k + 1)) = 1 := by
    have e1 : 2 * k % (64 / 8) = 2 * (k % 4) := by omega
    have e2 : (2 * k + 1) % (64 / 8) = 2 * (k % 4) + 1 := by omega
    have hk : k % 4 < 4 := Nat.mod_lt _ (by decide)
    unfold set1_epi64x
    rw [e1, e2]
    generalize k % 4 = j at hk
    interval_cases j <;> decide
  unfold DATA_MADDUBS maddubs_epi16
  rw [hq.1, hq.2]
  refine word_eq ?_ (by omega)
  push_cast
  omega

/-- Pairs of pairs. -/
theorem DATA_MADD_lane (h1 : v (2 * k) ≤ 99) (h2 : v (2 * k + 1) ≤ 99) :
    DATA_MADD v k = v (2 * k) * 100 + v (2 * k + 1) := by
  have hq : toS 16 (set1_epi64x 16 0x0001006400010064 (2 * k)) = 100 ∧
      toS 16 (set1_epi64x 16 0x0001006400010064 (2 * k + 1)) = 1 := by
    have e1 : 2 * k % (64 / 16) = 2 * (k % 2) := by omega
    have e2 : (2 * k + 1) % (64 / 16) = 2 * (k % 2) + 1 := by omega
    have hk : k % 2 < 2 := Nat.mod_lt _ (by decide)
    unfold set1_epi64x
    rw [e1, e2]
    generalize k % 2 = j at hk
    interval_cases j <;> decide
  unfold DATA_MADD madd_epi16
  rw [hq.1, hq.2, toS_eq (show v (2 * k) < 2 ^ 15 by omega),
    toS_eq (show v (2 * k + 1) < 2 ^ 15 by omega)]
  refine word_eq ?_ (by omega)
  push_cast
  omega

/-- Four digits of each lane, two lanes at a time. -/
theorem DATA_PACK_AND_MADD_lane (h : ∀ k < 4, v k ≤ 9999) (hk : k < 2) :
    DATA_PACK_AND_MADD v k = v (2 * k) * 10000 + v (2 * k + 1) := by
  have hpack : ∀ j < 4, toS 16 (packus_epi32 v v j) = v j := by
    intro j hj
    have h9 := h j hj
    have hp : packus_epi32 v v j = v j := by
      unfold packus_epi32
      rw [if_pos hj, toS_eq (show v j < 2 ^ 31 by omega)]
      omega
    rw [hp, toS_eq (show v j < 2 ^ 15 by omega)]
  have hq : toS 16 (set_epi16 0 0 0 0 1 10000 1 10000 (2 * k)) = 10000 ∧
      toS 16 (set_epi16 0 0 0 0 1 10000 1 10000 (2 * k + 1)) = 1 := by
    interval_cases k <;> decide
  have h1 := h (2 * k) (by omega)
  have h2 := h (2 * k + 1) (by omega)
  unfold DATA_PACK_AND_MADD madd_epi16
  rw [hq.1, hq.2, hpack _ (by omega), hpack _ (by omega)]
  refine word_eq ?_ (by omega)
  push_cast
  omega

theorem horner_add (v : ℕ → ℕ) (m : ℕ) :
    ∀ n, horner v (m + n) = horner v m * 10 ^ n + horner (fun k => v (m + k)) n
  | 0 => by simp [horner]
  | n + 1 => by
    rw [← Nat.add_assoc, horner, horner_add v m n, horner, pow_succ]
    ring

/-- Four lanes of digits. -/
theorem horner_four (v : ℕ → ℕ) (m : ℕ) :
    horner (fun k => v (m + k)) 4 = (v m * 10 + v (m + 1)) * 100 + (v (m + 2) * 10 + v (m + 3)) := by
  show (((0 * 10 + v (m + 0)) * 10 + v (m + 1)) * 10 + v (m + 2)) * 10 + v (m + 3) = _
  rw [Nat.add_zero]
  ring

/-- Sixteen lanes of digits, by fours. -/
theorem horner_sixteen (v : ℕ → ℕ) : horner v 16 =
    ((horner (fun k => v (0 + k)) 4 * 10000 + horner (fun k => v (4 + k)) 4) * 10000 +
    horner (fun k => v (8 + k)) 4) * 10000 +
      horner (fun k => v (12 + k)) 4 := by
  have h0 : horner v 4 = horner (fun k => v (0 + k)) 4 := horner_congr fun k _ => by rw [Nat.zero_add]
  rw [show (16 : ℕ) = 4 + 4 + 4 + 4 from rfl, horner_add, horner_add, horner_add, h0]
  simp only [Nat.reduceAdd, Nat.reducePow]

theorem horner_zero (h : ∀ k < n, v k = 0) : horner v n = 0 := by
  induction n with
  | zero => rfl
  | succ n ih => rw [horner, ih fun k hk => h k (by omega), h n (by omega)]

/-- **The lanes for each count** come to the number that the digits make. -/
theorem collect_eq (hn : n ≤ 16) (h : ∀ k < n, v k ≤ 9) : collect v n = horner v n := by
  -- the digits at the end of the vector, and zeros in front of them
  obtain ⟨u, hu⟩ : ∃ u, u = slli_si128 v (16 - n) := ⟨_, rfl⟩
  have hval : horner u 16 = horner v n := by
    have := horner_slli v (16 - n) n
    rwa [Nat.sub_add_cancel hn, ← hu] at this
  have hzero : ∀ k < 16 - n, u k = 0 := fun k hk => by rw [hu, slli_si128, if_neg (by omega)]
  have h9 : ∀ k < 16, u k ≤ 9 := by
    intro k hk
    rw [hu, slli_si128]
    split
    · exact h _ (by omega)
    · exact Nat.zero_le _
  -- two, four and eight digits in a lane
  have hW : ∀ k < 8, DATA_MADDUBS u k = u (2 * k) * 10 + u (2 * k + 1) := fun k hk =>
    DATA_MADDUBS_lane (h9 _ (by omega)) (h9 _ (by omega))
  have hW99 : ∀ k < 8, DATA_MADDUBS u k ≤ 99 := by
    intro k hk
    have h1 := h9 (2 * k) (by omega)
    have h2 := h9 (2 * k + 1) (by omega)
    rw [hW k hk]
    omega
  have hX : ∀ k < 4, DATA_MADD (DATA_MADDUBS u) k = horner (fun j => u (4 * k + j)) 4 := by
    intro k hk
    rw [DATA_MADD_lane (hW99 _ (by omega)) (hW99 _ (by omega)), hW _ (by omega), hW _ (by omega),
      horner_four]
    rw [show 2 * (2 * k) = 4 * k by omega, show 2 * (2 * k + 1) = 4 * k + 2 by omega]
  have hX9 : ∀ k < 4, DATA_MADD (DATA_MADDUBS u) k ≤ 9999 := by
    intro k hk
    rw [hX k hk]
    exact Nat.le_of_lt_succ (horner_lt fun j hj => h9 _ (by omega))
  have hlow : ∀ {a b : ℕ}, a ≤ 9999 → b ≤ 9999 → word 64 (toS 32 a * 10000 + toS 32 b) =
      a * 10000 + b := by
    intro a b ha hb
    rw [toS_eq (show a < 2 ^ 31 by omega), toS_eq (show b < 2 ^ 31 by omega)]
    exact word_eq (by push_cast; rfl) (by omega)
  rw [horner_sixteen] at hval
  unfold collect
  rw [← hu]
  split_ifs with c1 c2 c3 c4 c5
  · subst c1
    show v 0 = 0 * 10 + v 0
    omega
  · subst c2
    show v 0 * 10 + v 1 = (0 * 10 + v 0) * 10 + v 1
    omega
  · dsimp only
    have hz : ∀ m ≤ 8, horner (fun k => u (m + k)) 4 = 0 :=
      fun m hm => horner_zero fun k hk => hzero _ (by omega)
    rw [hz 0 (by omega), hz 4 (by omega), hz 8 (by omega), horner_four] at hval
    rw [← hval, hW 6 (by omega), hW 7 (by omega)]
    ring
  · dsimp only
    have hz : ∀ m ≤ 4, horner (fun k => u (m + k)) 4 = 0 :=
      fun m hm => horner_zero fun k hk => hzero _ (by omega)
    rw [hz 0 (by omega), hz 4 (by omega)] at hval
    rw [hlow (hX9 2 (by omega)) (hX9 3 (by omega)), hX 2 (by omega), hX 3 (by omega), ← hval]
    ring
  · dsimp only
    have hZ0 := DATA_PACK_AND_MADD_lane hX9 (show 0 < 2 by decide)
    have hZ1 := DATA_PACK_AND_MADD_lane hX9 (show 1 < 2 by decide)
    have b0 := hX9 0 (by omega)
    have b1 := hX9 1 (by omega)
    have b2 := hX9 2 (by omega)
    have b3 := hX9 3 (by omega)
    simp only [Nat.mul_zero, Nat.zero_add, Nat.mul_one] at hZ0 hZ1
    have hword : ∀ {a b : ℕ}, a ≤ 9999 → b ≤ 9999 →
        word 64 (toS 32 (a * 10000 + b)) = a * 10000 + b := by
      intro a b ha hb
      rw [toS_eq (show a * 10000 + b < 2 ^ 31 by omega)]
      exact word_eq rfl (by omega)
    rw [hZ0, hZ1, hword b0 b1, hword b2 b3, Nat.mod_eq_of_lt (by omega), ← hval, hX 0 (by omega),
      hX 1 (by omega), hX 2 (by omega), hX 3 (by omega)]
    ring
  · obtain rfl : n = 0 := by omega
    rfl

end

end sse

/-! ### Runs of digits -/

/-- The `n` bytes from the beginning. -/
def front (c : ℕ → UInt8) (n : ℕ) : Bytes := (List.range n).map c

/-- `k` is the length of the longest prefix of at most `n` digits. -/
structure DigitRun (c : ℕ → UInt8) (n k : ℕ) : Prop where
  le : k ≤ n
  digit : ∀ j < k, is_digit (c j) = true
  stop : k < n → is_digit (c k) = false

section
variable {c : ℕ → UInt8} {n m k a b : ℕ}

theorem front_length (c : ℕ → UInt8) (n : ℕ) : (front c n).length = n := by simp [front]

theorem front_succ (c : ℕ → UInt8) (n : ℕ) : front c (n + 1) = front c n ++ [c n] := by
  simp [front, List.range_succ]

theorem front_add (c : ℕ → UInt8) (m : ℕ) :
    ∀ n, front c (m + n) = front c m ++ front (fun k => c (m + k)) n
  | 0 => by simp [front]
  | n + 1 => by rw [← Nat.add_assoc, front_succ, front_add c m n, front_succ, List.append_assoc]

theorem decimal_front (c : ℕ → UInt8) :
    ∀ n, decimal (front c n) = sse.horner (fun k => (c k).toNat - 48) n
  | 0 => rfl
  | n + 1 => by
    rw [front_succ, decimal_append, decimal_front c n, sse.horner, List.length_singleton, pow_one]
    simp [decimal]

theorem DigitRun.front_digits (h : DigitRun c n k) : ∀ d ∈ front c k, is_digit d = true := by
  intro d hd
  obtain ⟨j, hj, rfl⟩ := List.mem_map.mp hd
  exact h.digit j (List.mem_range.mp hj)

theorem DigitRun.decimal_lt (h : DigitRun c n k) : decimal (front c k) < 10 ^ k := by
  have := SonicJson.decimal_lt h.front_digits
  rwa [front_length] at this

theorem DigitRun.unique (h : DigitRun c n a) (h' : DigitRun c n b) : a = b := by
  rcases lt_trichotomy a b with hlt | heq | hgt
  · have h1 := h.stop (hlt.trans_le h'.le)
    rw [h'.digit a hlt] at h1
    cases h1
  · exact heq
  · have h1 := h'.stop (hgt.trans_le h.le)
    rw [h.digit b hgt] at h1
    cases h1

/-- A run, and the run behind it. -/
theorem DigitRun.append (h : DigitRun c m a) (hm : m ≤ n)
    (h' : DigitRun (fun k => c (a + k)) (n - a) b) : DigitRun c n (a + b) := by
  have h1 := h.le
  have h2 := h'.le
  refine ⟨by omega, fun j hj => ?_, fun hlt => h'.stop (by omega)⟩
  rcases Nat.lt_or_ge j a with hja | hja
  · exact h.digit j hja
  · have := h'.digit (j - a) (by omega)
    rwa [Nat.add_sub_cancel' hja] at this

/-! ### The two versions -/

namespace sse

/-- A lane is an end exactly when its byte is no digit. -/
theorem end_lane (x : UInt8) : (decide (toS 8 (word 8 ((x.toNat : ℤ) - (48 : ℕ))) < toS 8 0) ||
    decide (toS 8 9 < toS 8 (word 8 ((x.toNat : ℤ) - (48 : ℕ))))) = !is_digit x := by
  have hall :
      ∀ n : Fin 256, (decide (toS 8 (word 8 (((UInt8.ofNat n).toNat : ℤ) - (48 : ℕ))) < toS 8 0) ||
      decide (toS 8 9 < toS 8 (word 8 (((UInt8.ofNat n).toNat : ℤ) - (48 : ℕ))))) =
        !is_digit (UInt8.ofNat n) := by
    decide +kernel
  have := hall ⟨x.toNat, x.toNat_lt⟩
  simpa only [UInt8.ofNat_toNat] using this

/-- The lane of a digit is its value. -/
theorem digit_lane {x : UInt8} (h : is_digit x = true) :
    word 8 ((x.toNat : ℤ) - (48 : ℕ)) = x.toNat - 48 := by
  have hall : ∀ n : Fin 256, is_digit (UInt8.ofNat n) = true →
      word 8 (((UInt8.ofNat n).toNat : ℤ) - (48 : ℕ)) = (UInt8.ofNat n).toNat - 48 := by
    decide +kernel
  have := hall ⟨x.toNat, x.toNat_lt⟩
  simp only [UInt8.ofNat_toNat] at this
  exact this h

/-- **The vector version** reads the longest prefix of at most `n` and at most sixteen digits. -/
theorem simd_str2int_run (c : ℕ → UInt8) (n : ℕ) :
    DigitRun c (min n 16) (simd_str2int c n).2 ∧
      (simd_str2int c n).1 = decimal (front c (simd_str2int c n).2) := by
  obtain ⟨ends, hends⟩ : ∃ ends : BitVec 32, ends = Bits.ofPred 32 fun k => decide (k < 16) &&
      (cmpgt_epi8 (set1_epi8 0) (sub_epi8 (loadu_si128 c) (set1_epi8 48)) k ||
        cmpgt_epi8 (sub_epi8 (loadu_si128 c) (set1_epi8 48)) (set1_epi8 9) k) := ⟨_, rfl⟩
  have hbit : ∀ k < 32, ends.getLsbD k = (decide (k < 16) && !is_digit (c k)) := by
    intro k hk
    rw [hends, Bits.getLsbD_ofPred, decide_eq_true hk, Bool.true_and]
    exact congrArg _ (end_lane (c k))
  -- the first of the sixteen bytes that is no digit
  have hrun : DigitRun c 16 (if ends ≠ 0 then Bits.ctz ends else 16) := by
    by_cases h0 : ends ≠ 0
    · have h1 := Bits.getLsbD_ctz h0
      have hlt := Bits.ctz_lt h0
      rw [hbit _ hlt, Bool.and_eq_true, decide_eq_true_eq, Bool.not_eq_true'] at h1
      rw [if_pos h0]
      refine ⟨h1.1.le, fun j hj => ?_, fun _ => h1.2⟩
      have hb := Bits.getLsbD_of_lt_ctz ends hj
      rw [hbit j (hj.trans hlt), decide_eq_true (hj.trans h1.1), Bool.true_and] at hb
      simpa using hb
    · rw [if_neg h0]
      refine ⟨le_rfl, fun j hj => ?_, fun h => absurd h (lt_irrefl 16)⟩
      have hb := hbit j (by omega)
      rw [not_not.mp h0, decide_eq_true hj, Bool.true_and] at hb
      simpa using hb
  obtain ⟨e, he⟩ : ∃ e, e = if ends ≠ 0 then Bits.ctz ends else 16 := ⟨_, rfl⟩
  have hval :
      simd_str2int c n = (collect (sub_epi8 (loadu_si128 c) (set1_epi8 48))
      (if n < e then n else e), if n < e then n else e) := by
    unfold simd_str2int
    dsimp only
    rw [← hends, ← he]
  rw [← he] at hrun
  have hmin : DigitRun c (min n 16) (if n < e then n else e) := by
    have h1 := hrun.le
    split
    · exact ⟨by omega, fun j hj => hrun.digit j (by omega), fun h => by omega⟩
    · exact ⟨by omega, hrun.digit, fun h => hrun.stop (by omega)⟩
  rw [hval]
  refine ⟨hmin, ?_⟩
  dsimp only
  generalize (if n < e then n else e) = k at hmin
  have hlane : ∀ j < k, sub_epi8 (loadu_si128 c) (set1_epi8 48) j = (c j).toNat - 48 :=
    fun j hj => digit_lane (hmin.digit j hj)
  have h9 : ∀ j < k, sub_epi8 (loadu_si128 c) (set1_epi8 48) j ≤ 9 := by
    intro j hj
    rw [hlane j hj]
    exact digit_le (hmin.digit j hj)
  have hk := hmin.le
  rw [collect_eq (by omega) h9, decimal_front]
  exact horner_congr hlane

end sse

namespace arm_common

theorem loop_run (c : ℕ → UInt8) (n : ℕ) :
    ∀ fuel i, i ≤ n → n ≤ i + fuel → n ≤ 19 → (∀ j < i, is_digit (c j) = true) →
    DigitRun c n (loop c n fuel (decimal (front c i)) i).2 ∧
      (loop c n fuel (decimal (front c i)) i).1 =
        decimal (front c (loop c n fuel (decimal (front c i)) i).2)
  | 0, i, hi, hf, _, hd => by
    obtain rfl : i = n := by omega
    exact ⟨⟨le_rfl, hd, fun h => absurd h (lt_irrefl i)⟩, rfl⟩
  | fuel + 1, i, hi, hf, h19, hd => by
    rw [loop]
    by_cases hc : is_digit (c i) = true ∧ i < n
    · have hd' : ∀ j < i + 1, is_digit (c j) = true := by
        intro j hj
        rcases Nat.lt_succ_iff_lt_or_eq.mp hj with hlt | rfl
        · exact hd j hlt
        · exact hc.1
      have hrun : DigitRun c (i + 1) (i + 1) := ⟨le_rfl, hd', fun h => absurd h (lt_irrefl _)⟩
      have hlt := hrun.decimal_lt
      have h10 : 10 ^ (i + 1) ≤ 10 ^ 19 := Nat.pow_le_pow_right (by decide) (by omega)
      have hnext : (decimal (front c i) * 10 + ((c i).toNat - 48)) % 2 ^ 64 =
          decimal (front c (i + 1)) := by
        have he : decimal (front c (i + 1)) = decimal (front c i) * 10 + ((c i).toNat - 48) := by
          rw [decimal_front, decimal_front, sse.horner]
        rw [← he]
        exact Nat.mod_eq_of_lt (by omega)
      rw [if_pos hc, hnext]
      exact loop_run c n fuel (i + 1) (by omega) (by omega) h19 hd'
    · rw [if_neg hc]
      refine ⟨⟨hi, hd, fun hlt => ?_⟩, rfl⟩
      simpa [hlt] using hc

/-- **The loop** reads the longest prefix of at most `n` digits. -/
theorem simd_str2int_run (c : ℕ → UInt8) (h : n ≤ 19) :
    DigitRun c n (simd_str2int c n).2 ∧ (simd_str2int c n).1 = decimal (front c (simd_str2int c n).2) :=
  loop_run c n n 0 (Nat.zero_le n) (Nat.zero_add n).ge h fun _ hj => absurd hj (Nat.not_lt_zero _)

end arm_common

/-! ### The mantissa of a fraction -/

/-- The digits `ds` behind the mantissa `man`, as 64 bits hold them. -/
def joined (man : ℕ) (ds : Bytes) : ℕ := (man * 10 ^ ds.length + decimal ds) % 2 ^ 64

theorem joined_append (man : ℕ) (a b : Bytes) : joined (joined man a) b = joined man (a ++ b) := by
  have hsplit : man * 10 ^ (a ++ b).length + decimal (a ++ b) =
      (man * 10 ^ a.length + decimal a) * 10 ^ b.length + decimal b := by
    rw [decimal_append, List.length_append, pow_add]
    ring
  unfold joined
  rw [hsplit, Nat.add_mod, Nat.mod_mul_mod, ← Nat.add_mod]

theorem joined_nil {man : ℕ} (h : man < 2 ^ 64) : joined man [] = man := by
  simp only [joined, decimal, List.length_nil, pow_zero, Nat.mul_one, List.foldl_nil, Nat.add_zero]
  exact Nat.mod_eq_of_lt h

/-- **The loop behind the vector** reads the longest prefix of the digits that are still wanted. -/
theorem fractLoop_run (c : ℕ → UInt8) : ∀ fuel man nd i, man < 2 ^ 64 → nd ≤ 17 → 17 ≤ nd + fuel →
    ∃ k, DigitRun (fun j => c (i + j)) (17 - nd) k ∧
      fractLoop c fuel man nd i = (joined man (front (fun j => c (i + j)) k), nd + k, i + k)
  | 0, man, nd, i, hman, hnd, hf => by
    refine ⟨0, ⟨Nat.zero_le _, fun j hj => absurd hj (Nat.not_lt_zero j), fun h => by omega⟩, ?_⟩
    rw [show front (fun j => c (i + j)) 0 = [] from rfl, joined_nil hman]
    rfl
  | fuel + 1, man, nd, i, hman, hnd, hf => by
    rw [fractLoop]
    by_cases hc : nd < 17 ∧ is_digit (c i) = true
    · rw [if_pos hc]
      have hone : DigitRun (fun j => c (i + j)) 1 1 := by
        refine ⟨le_rfl, fun j hj => ?_, fun h => absurd h (lt_irrefl 1)⟩
        obtain rfl : j = 0 := by omega
        exact hc.2
      obtain ⟨k, hk, he⟩ :=
        fractLoop_run c fuel ((man * 10 + ((c i).toNat - 48)) % 2 ^ 64) (nd + 1) (i + 1)
        (Nat.mod_lt _ (by decide)) (by omega) (by omega)
      have hshift : (fun j => c (i + 1 + j)) = fun j => c (i + (1 + j)) := by
        funext j
        rw [Nat.add_assoc]
      rw [hshift] at hk he
      have hfirst :
          (man * 10 + ((c i).toNat - 48)) % 2 ^ 64 = joined man (front (fun j => c (i + j)) 1) := by
        simp [joined, front, decimal]
      refine ⟨1 + k, hone.append (by omega) (by rwa [Nat.sub_sub]), ?_⟩
      rw [he, hfirst, joined_append, ← front_add, Nat.add_assoc, Nat.add_assoc]
    · rw [if_neg hc]
      refine ⟨0, ⟨Nat.zero_le _, fun j hj => absurd hj (Nat.not_lt_zero j), fun h => ?_⟩, ?_⟩
      · have : nd < 17 := by omega
        simpa [this] using hc
      · rw [show front (fun j => c (i + j)) 0 = [] from rfl, joined_nil hman]
        rfl

/-- The block reads one run, whatever collects the digits, if that reads a run of at most sixteen
digits or more. -/
theorem fractDigits_run {str2int : (ℕ → UInt8) → ℕ → ℕ × ℕ} {m : ℕ} (man : ℕ) {man_nd : ℕ} (i : ℕ)
    (h : man_nd < 17) (hm : m ≤ 17 - man_nd)
    (hrun : DigitRun (fun j => c (i + j)) m (str2int (fun j => c (i + j)) (17 - man_nd)).2)
    (hval : (str2int (fun j => c (i + j)) (17 - man_nd)).1 =
      decimal (front (fun j => c (i + j)) (str2int (fun j => c (i + j)) (17 - man_nd)).2)) :
    ∃ k, DigitRun (fun j => c (i + j)) (17 - man_nd) k ∧
      fractDigits str2int c man man_nd i = (joined man (front (fun j => c (i + j)) k), man_nd + k,
        i + k) := by
  unfold fractDigits
  dsimp only
  rw [if_pos (Nat.sub_pos_of_lt h)]
  obtain ⟨r, hr⟩ : ∃ r, r = str2int (fun j => c (i + j)) (17 - man_nd) := ⟨_, rfl⟩
  rw [← hr] at hrun hval ⊢
  have hle := hrun.le
  have hfirst : (man * 10 ^ r.2 + r.1) % 2 ^ 64 = joined man (front (fun j => c (i + j)) r.2) := by
    rw [hval, joined, front_length]
  obtain ⟨k, hk, he⟩ := fractLoop_run c 17 ((man * 10 ^ r.2 + r.1) % 2 ^ 64) (man_nd + r.2) (i + r.2)
    (Nat.mod_lt _ (by decide)) (by omega) (by omega)
  have hshift : (fun j => c (i + r.2 + j)) = fun j => c (i + (r.2 + j)) := by
    funext j
    rw [Nat.add_assoc]
  rw [hshift] at hk he
  refine ⟨r.2 + k, hrun.append hm (by rwa [Nat.sub_sub]), ?_⟩
  rw [he, hfirst, joined_append, ← front_add, Nat.add_assoc, Nat.add_assoc]

/-- **The digits of a fraction**: the vectors and the loop of ARM both leave the longest prefix of
at most `17 - man_nd` digits behind, counted and appended to the mantissa, and no word overflows. -/
theorem fractDigits_spec (c : ℕ → UInt8) (man man_nd i : ℕ) (h : man_nd < 17) :
    ∃ k, DigitRun (fun j => c (i + j)) (17 - man_nd) k ∧
      fractDigits sse.simd_str2int c man man_nd i = (joined man (front (fun j => c (i + j)) k),
        man_nd + k, i + k) ∧
      fractDigits arm_common.simd_str2int c man man_nd i =
        (joined man (front (fun j => c (i + j)) k), man_nd + k, i + k) ∧
      (man < 10 ^ man_nd →
        joined man (front (fun j => c (i + j)) k) =
          man * 10 ^ k + decimal (front (fun j => c (i + j)) k)) := by
  have hsse := sse.simd_str2int_run (fun j => c (i + j)) (17 - man_nd)
  have harm := arm_common.simd_str2int_run (fun j => c (i + j)) (show 17 - man_nd ≤ 19 by omega)
  obtain ⟨k, hk, he⟩ := fractDigits_run man i h (Nat.min_le_left _ 16) hsse.1 hsse.2
  obtain ⟨k', hk', he'⟩ := fractDigits_run man i h le_rfl harm.1 harm.2
  obtain rfl := hk.unique hk'
  refine ⟨k, hk, he, he', fun hman => ?_⟩
  have hdec := hk.decimal_lt
  have hle := hk.le
  have htop : man * 10 ^ k + decimal (front (fun j => c (i + j)) k) < 10 ^ man_nd * 10 ^ k := calc
    _ < man * 10 ^ k + 10 ^ k := by omega
    _ = (man + 1) * 10 ^ k := by ring
    _ ≤ 10 ^ man_nd * 10 ^ k := Nat.mul_le_mul_right _ hman
  have hpow : 10 ^ man_nd * 10 ^ k ≤ 10 ^ 17 := by
    rw [← pow_add]
    exact Nat.pow_le_pow_right (by decide) (by omega)
  rw [joined, front_length]
  exact Nat.mod_eq_of_lt (by omega)

/-- At the fraction of `1.25,`. -/
theorem fractDigits_spec_25 : ∃ k, DigitRun (fun j => rd [49, 46, 50, 53, 44] (2 + j)) 16 k ∧
    fractDigits sse.simd_str2int (rd [49, 46, 50, 53, 44]) 1 1 2 =
      (joined 1 (front (fun j => rd [49, 46, 50, 53, 44] (2 + j)) k), 1 + k, 2 + k) :=
  have ⟨k, hk, he, _, _⟩ := fractDigits_spec (rd [49, 46, 50, 53, 44]) 1 1 2 (by decide)
  ⟨k, hk, he⟩

end

/-! ### The parser's model of the digits -/

/-- The digits of the text, by the byte that is next. -/
theorem digitsAt_next (s : Bytes) (i : ℕ) :
    digitsAt s i = if is_digit (rd s i) = true then rd s i :: digitsAt s (i + 1) else [] := by
  rcases Nat.lt_or_ge i s.length with hlt | hge
  · have hs : s.drop i = rd s i :: s.drop (i + 1) := (at_cons_rd hlt).drop
    rw [digitsAt, hs, List.takeWhile_cons]
    rfl
  · have hd : is_digit (rd s i) = false := by
      rw [rd_of_length_le hge]
      rfl
    rw [hd, digitsAt, List.drop_eq_nil_of_le hge]
    rfl

/-- The first digits of the text are a run. -/
theorem digitsAt_run (s : Bytes) (i n : ℕ) :
    DigitRun (fun j => rd s (i + j)) n ((digitsAt s i).take n).length ∧
      front (fun j => rd s (i + j)) ((digitsAt s i).take n).length = (digitsAt s i).take n := by
  induction n generalizing i with
  | zero =>
    exact ⟨⟨le_rfl, fun j hj => absurd hj (Nat.not_lt_zero j),
      fun h => absurd h (Nat.lt_irrefl 0)⟩, rfl⟩
  | succ n ih =>
    by_cases hc : is_digit (rd s i) = true
    · obtain ⟨hrun, hfront⟩ := ih (i + 1)
      have hlen : ((digitsAt s i).take (n + 1)).length = 1 + ((digitsAt s (i + 1)).take n).length := by
        rw [digitsAt_next s i, if_pos hc, List.take_succ_cons, List.length_cons, Nat.add_comm]
      have hone : DigitRun (fun j => rd s (i + j)) 1 1 := by
        refine ⟨le_rfl, fun j hj => ?_, fun h => absurd h (lt_irrefl 1)⟩
        obtain rfl : j = 0 := by omega
        exact hc
      have hshift : (fun j => rd s (i + 1 + j)) = fun j => rd s (i + (1 + j)) := by
        funext j
        rw [Nat.add_assoc]
      rw [hshift] at hrun hfront
      rw [hlen]
      refine ⟨hone.append (by omega) (by rwa [Nat.add_sub_cancel]), ?_⟩
      rw [front_add, hfront, digitsAt_next s i, if_pos hc, List.take_succ_cons]
      rfl
    · rw [digitsAt_next s i, if_neg hc]
      exact ⟨⟨Nat.zero_le _, fun j hj => absurd hj (Nat.not_lt_zero j),
        fun _ => by simpa using hc⟩, rfl⟩

/-- What the parser's model says of the vectors. -/
theorem sse.simd_str2int_text (s : Bytes) (i n : ℕ) :
    sse.simd_str2int (fun j => rd s (i + j)) n = SonicJson.simd_str2int s i n := by
  obtain ⟨hrun, hval⟩ := sse.simd_str2int_run (fun j => rd s (i + j)) n
  obtain ⟨hds, hfront⟩ := digitsAt_run s i (min n 16)
  have hdig : ∀ d ∈ (digitsAt s i).take (min n 16), is_digit d = true := by
    rw [← hfront]
    exact hds.front_digits
  have hk := hrun.unique hds
  refine Prod.ext ?_ hk
  rw [hval, hk, hfront]
  exact (carry_decimal hdig (hds.le.trans (by omega))).symm

/-- What the parser's model says of the loop. -/
theorem fractLoop_text (s : Bytes) : ∀ fuel man nd i, 17 ≤ nd + fuel →
    fractLoop (rd s) fuel man nd i =
      (carry man ((digitsAt s i).take (17 - nd)), nd + ((digitsAt s i).take (17 - nd)).length,
        i + ((digitsAt s i).take (17 - nd)).length)
  | 0, man, nd, i, hf => by
    rw [show 17 - nd = 0 by omega]
    rfl
  | fuel + 1, man, nd, i, hf => by
    rw [fractLoop]
    by_cases hc : nd < 17 ∧ is_digit (rd s i) = true
    · have hlen :
          (digitsAt s i).take (17 - nd) = rd s i :: (digitsAt s (i + 1)).take (17 - (nd + 1)) := by
        rw [digitsAt_next s i, if_pos hc.2, show 17 - nd = 17 - (nd + 1) + 1 by omega,
          List.take_succ_cons]
      rw [if_pos hc, fractLoop_text s fuel _ _ _ (by omega), hlen, List.length_cons]
      refine Prod.ext rfl (Prod.ext ?_ ?_) <;> dsimp only <;> omega
    · have hnil : (digitsAt s i).take (17 - nd) = [] := by
        rcases Nat.lt_or_ge nd 17 with hlt | hge
        · rw [digitsAt_next s i, if_neg fun h => hc ⟨hlt, h⟩, List.take_nil]
        · rw [Nat.sub_eq_zero_of_le hge, List.take_zero]
      rw [if_neg hc, hnil]
      rfl

/-- **The label `double_fract`** goes on behind the digits that the block keeps. -/
theorem double_fract_digits (F : FloatConv) (flags : ParseFlags) (s : Bytes)
    (len start_idx exp10_s : ℕ) (x : Num) (i : ℕ) :
    double_fract F flags s len start_idx exp10_s x i =
      let r := fractDigits sse.simd_str2int (rd s) x.man x.man_nd i
      let x := { x with man := r.1, man_nd := r.2.1, exp10 := x.exp10 - (r.2.2 - exp10_s : ℕ) }
      let x := { x with trunc := x.trunc || !(digitsAt s r.2.2).isEmpty }
      let i := r.2.2 + (digitsAt s r.2.2).length
      if !isExp (rd s i) then double_fast F flags s len start_idx x i
      else double_exp F flags s len start_idx x i := by
  unfold double_fract fractDigits
  by_cases h : x.man_nd < 17
  · have hloop :=
      fractLoop_text s 17 ((x.man * 10 ^ ((digitsAt s i).take (min (17 - x.man_nd) 16)).length +
      carry 0 ((digitsAt s i).take (min (17 - x.man_nd) 16))) % 2 ^ 64)
      (x.man_nd + ((digitsAt s i).take (min (17 - x.man_nd) 16)).length)
      (i + ((digitsAt s i).take (min (17 - x.man_nd) 16)).length) (by omega)
    simp only [if_pos h, if_pos (Nat.sub_pos_of_lt h), sse.simd_str2int_text, simd_str2int, hloop]
  · simp only [if_neg h, if_neg (show ¬0 < 17 - x.man_nd by omega)]

end SonicJson
