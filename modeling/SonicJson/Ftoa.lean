/-
# Printing doubles

The shortest decimal of a double in one of four layouts: an integer with `.0`, a decimal
with leading zeros, one with the point between the digits, or scientific. The digits are
written from the last one on, and trailing zeros are taken off again by reading back. What
is written is a number of JSON that is exactly the decimal (`F64toa_wrote`), always with a
point or an exponent, so no parser takes it for an integer (`F64toa_exact`).
-/
import SonicJson.Serialize
import SonicJson.F64ToDecimal
import SonicJson.Itoa

namespace SonicJson

open RawBuffer Itoa

namespace Ftoa

/-! ### The digits -/

def Ctz10 (v : ℕ) : ℕ :=
  if 10000000000 ≤ v then
    if v < 100000000000 then 11
    else if v < 1000000000000 then 12
    else if v < 10000000000000 then 13
    else if v < 100000000000000 then 14
    else if v < 1000000000000000 then 15
    else if v < 10000000000000000 then 16
    else 17
  else if v < 10 then 1
  else if v < 100 then 2
  else if v < 1000 then 3
  else if v < 10000 then 4
  else if v < 100000 then 5
  else if v < 1000000 then 6
  else if v < 10000000 then 7
  else if v < 100000000 then 8
  else if v < 1000000000 then 9
  else 10

/-- The low eight digits, when there are more than 32 bits: `sig`, `p` and `ctz` after them. -/
def lowEight (o : Out) (sig p : ℕ) : Out × ℕ × ℕ × ℕ :=
  if sig / 2 ^ 32 ≠ 0 then
    let q := sig / 100000000
    let r := (sig % 2 ^ 32 + 2 ^ 32 - 100000000 * (q % 2 ^ 32) % 2 ^ 32) % 2 ^ 32
    if r ≠ 0 then
      let c := r % 10000
      let d := r / 10000 % 10000
      let c0 := c % 100 * 2
      let c1 := c / 100 * 2
      let d0 := d % 100 * 2
      let d1 := d / 100 * 2
      let o := Copy2Digs o (p - 2) c0
      let o := Copy2Digs o (p - 4) c1
      let o := Copy2Digs o (p - 6) d0
      (Copy2Digs o (p - 8) d1, q, p - 8, 0)
    else (o, q, p - 8, 8)
  else (o, sig, p, 0)

/-- `while (sig2 >= 10000)`. -/
def fourByFour (o : Out) (sig2 p : ℕ) : Out × ℕ × ℕ :=
  if 10000 ≤ sig2 then
    let c := sig2 - 10000 * (sig2 / 10000)
    let c0 := c % 100 * 2
    let c1 := c / 100 * 2
    let o := Copy2Digs o (p - 2) c0
    let o := Copy2Digs o (p - 4) c1
    fourByFour o (sig2 / 10000) (p - 4)
  else (o, sig2, p)
termination_by sig2

/-- The first one to four digits. -/
def leadDigits (o : Out) (out sig2 p : ℕ) : Out :=
  let (o, sig2, p) :=
    if 100 ≤ sig2 then (Copy2Digs o (p - 2) (sig2 % 100 * 2), sig2 / 100, p - 2)
    else (o, sig2, p)
  if 10 ≤ sig2 then Copy2Digs o (p - 2) (sig2 * 2)
  else o.put out [asciiDigit sig2]

def FormatSignificand (sig : ℕ) (o : Out) (out cnt : ℕ) : Out × ℕ :=
  let (o, sig, p, ctz) := lowEight o sig (out + cnt)
  let (o, sig2, p) := fourByFour o (sig % 2 ^ 32) p
  (leadDigits o out sig2 p, out + cnt - ctz)

/-- `while (*(end - 1) == '0') end--;` -/
def trimZeros (o : Out) : ℕ → ℕ
  | 0 => 0
  | e + 1 => if o.mem e = Ch.zero then trimZeros o e else e + 1

/-! ### The layouts -/

def IsDivPow2 (val : ℕ) (e : ℤ) : Bool :=
  let mask := 2 ^ e.toNat - 1
  val &&& mask == 0

/-- The digits of the exponent. -/
def exponentDigits (o : Out) (e exp : ℕ) : Out × ℕ :=
  if 100 ≤ exp then
    let c := exp % 10
    let o := Copy2Digs o e (2 * (exp / 10))
    (o.put (e + 2) [asciiDigit c], e + 3)
  else if 10 ≤ exp then (Copy2Digs o e (2 * exp), e + 2)
  else (o.put e [asciiDigit exp], e + 1)

/-- From `*out = *p` to the letter of the exponent. -/
def markExponent (flags : SerializeFlags) (o : Out) (out e : ℕ) : Out × ℕ :=
  let p := out + 1
  let o := o.put out [o.mem p]
  if flags.kSerializeFloatFormatJava then
    let o := o.put p [Ch.dot]
    let (o, e) := if e - p ≤ 1 then (o.put (p + 1) [Ch.zero], p + 1 + 1) else (o, e)
    (o.put e [Ch.upE], e + 1)
  else
    let (o, e) := if e - p > 1 then (o.put p [Ch.dot], e) else (o, e - 1)
    (o.put e [Ch.e], e + 1)

/-- The sign of the exponent. -/
def signExponent (flags : SerializeFlags) (o : Out) (e : ℕ) (exp : ℤ) : Out × ℕ :=
  if exp < 0 then (o.put e [Ch.minus], e + 1)
  else if !flags.kSerializeFloatFormatJava then (o.put e [Ch.plus], e + 1)
  else (o, e)

def FormatExponent (flags : SerializeFlags) (v : F64Decimal) (o : Out) (out cnt : ℕ) : Out × ℕ :=
  let p := out + 1
  let (o, e) := FormatSignificand v.sig o p cnt
  let e := trimZeros o e
  let (o, e) := markExponent flags o out e
  let exp := v.exp + cnt - 1
  let (o, e) := signExponent flags o e exp
  exponentDigits o e exp.natAbs

def FormatDecimal (v : F64Decimal) (o : Out) (out cnt : ℕ) : Out × ℕ :=
  let point : ℤ := cnt + v.exp
  let (o, p) :=
    if point ≤ 0 then
      let nzeros := (-point).toNat
      let o := o.put out [Ch.zero, Ch.dot]
      (o.put (out + 2) (List.replicate nzeros Ch.zero), out + 2 + nzeros)
    else (o, out)
  let (o, e) := FormatSignificand v.sig o p cnt
  let e := trimZeros o e
  if point ≤ 0 then (o, e)
  else
    let point := point.toNat
    let digs := e - p
    if point < digs then
      let o := o.put (p + point + 1) (o.read (p + point) (digs - point))
      (o.put (p + point) [Ch.dot], e + 1)
    else
      let nzeros := point - digs
      let o := o.put e (List.replicate (nzeros + 2) Ch.zero)
      (o.put (e + nzeros) [Ch.dot], e + (nzeros + 2))

/-- The number of bytes, zero for what is not finite. -/
def F64toa (flags : SerializeFlags) (o : Out) (out : ℕ) (fp : Double) : Out × ℕ :=
  let raw := fp.toNat
  let neg := if raw / 2 ^ 63 ≠ 0 then 1 else 0
  let ⟨rsig, rexp, c, q⟩ := f64Parts raw
  if rexp = 0x7FF then (o, 0)
  else
    let o := o.put out [Ch.minus]
    let p := out + neg
    if fp <<< 1 = 0 then (o.put p [Ch.zero, Ch.dot, Ch.zero], p + 3 - out)
    else if rexp ≠ 0 ∧ flags.kSerializeFloatFormatJava = false ∧
      (q ≤ 0 ∧ -52 ≤ q ∧ IsDivPow2 c (-q) = true) then
      let u := c / 2 ^ (-q).toNat
      let (o, p) := U64toa o p u
      (o.put p [Ch.dot, Ch.zero], p + 2 - out)
    else
      let dec := F64ToDecimal rsig rexp c q
      let cnt := Ctz10 dec.sig
      let dot : ℤ := cnt + dec.exp
      let exp_fmt :=
        if flags.kSerializeFloatFormatJava then
          let sci_exp := cnt - 1 + dec.exp
          !(decide (-3 ≤ sci_exp) && decide (sci_exp < 7))
        else
          let sci_exp := dot - 1
          decide (sci_exp < -6) || decide (20 < sci_exp)
      if exp_fmt then
        let (o, p) := FormatExponent flags dec o p cnt
        (o, p - out)
      else if dec.exp < 0 then
        let (o, p) := FormatDecimal dec o p cnt
        (o, p - out)
      else
        let dp := p + dot.toNat
        let (o, p) := U64toa o p dec.sig
        let nzeros := dp - p
        let o := o.put p (List.replicate (nzeros + 2) Ch.zero)
        (o.put dp [Ch.dot], dp + 2 - out)

/-! ### The digits are those of the number -/

/-- `n` is the number of digits of `v`. -/
structure Width (n v : ℕ) : Prop where
  pos : 0 < n
  lt : v < 10 ^ n
  le : 10 ^ (n - 1) ≤ v

section
variable {n m v sig : ℕ} (o : Out) (i : ℕ)

theorem Ctz10_width (h0 : 0 < v) (h : v < 10 ^ 17) : Width (Ctz10 v) v := by
  unfold Ctz10
  split_ifs <;> exact ⟨by omega, by omega, by omega⟩

theorem Width.div (h : Width (n + m) v) (hn : 0 < n) : Width n (v / 10 ^ m) := by
  refine ⟨hn, ?_, ?_⟩
  · rw [Nat.div_lt_iff_lt_mul (by positivity), ← pow_add]
    exact h.lt
  · rw [Nat.le_div_iff_mul_le (by positivity), ← pow_add]
    have := h.le
    rwa [Nat.sub_add_comm hn] at this

/-- A bound of the number bounds its width from below. -/
theorem Width.ge (h : Width n v) (hv : 10 ^ m ≤ v) : m < n := by
  by_contra hc
  have := Nat.pow_le_pow_right (show 0 < 10 by decide) (not_lt.mp hc)
  have := h.lt
  omega

theorem Width.of_lt (h : Width n v) (hv : v < 10 ^ m) : n ≤ m := by
  by_contra hc
  have := Nat.pow_le_pow_right (show 0 < 10 by decide) (show m ≤ n - 1 by omega)
  have := h.le
  omega

/-- Four digits, the last two first. -/
theorem fourBack_wrote (hv : v < 10000) :
    Wrote o (Copy2Digs (Copy2Digs o (i + 2) (v % 100 * 2)) i (v / 100 * 2)) i (padded 4 v) 4 := by
  have hfour : padded 4 v = padded 2 (v / 100) ++ padded 2 (v % 100) := by
    rw [padded_four, Nat.mod_eq_of_lt hv]
  have hlast := Copy2Digs_two o (i + 2) (show v % 100 < 100 by omega)
  have hfront := Copy2Digs_two (Copy2Digs o (i + 2) (v % 100 * 2)) i (show v / 100 < 100 by omega)
  rw [hfour]
  exact hlast.prepend_at hfront (padded_length _ _) rfl

theorem fourByFour_wrote (h : Width n v) : ∃ o' v' n' u, fourByFour o v (i + n) = (o', v', i + n') ∧
    v' < 10000 ∧ Width n' v' ∧
    padded n v = padded n' v' ++ u ∧ Wrote o o' (i + n') u u.length := by
  induction v using Nat.strong_induction_on generalizing n o with
  | _ v ih =>
    rw [fourByFour]
    by_cases hv : 10000 ≤ v
    · rw [if_pos hv]
      have hn : 4 < n := h.ge (by omega)
      obtain ⟨n, rfl⟩ : ∃ n', n = n' + 4 := ⟨n - 4, by omega⟩
      have hc : v - 10000 * (v / 10000) = v % 10000 := by omega
      have hdiv : v / 10000 = v / 10 ^ 4 := by norm_num
      dsimp only
      rw [hc, show i + (n + 4) - 2 = i + n + 2 by omega, show i + (n + 4) - 4 = i + n by omega]
      have hfour := fourBack_wrote o (i + n) (show v % 10000 < 10000 by omega)
      obtain ⟨o', v', n', u, heq, hlt, hw, htext, hwrote⟩ := ih (v / 10000) (by omega)
        (Copy2Digs (Copy2Digs o (i + n + 2) (v % 10000 % 100 * 2)) (i + n) (v % 10000 / 100 * 2))
          (hdiv ▸ h.div (by omega))
      have hlast : padded 4 (v % 10000) = padded 4 v := by
        have h4 : (10000 : ℕ) = 10 ^ 4 := by norm_num
        rw [h4, padded_mod le_rfl]
      rw [hlast] at hfour
      have hn' : n = n' + u.length := by
        have := congrArg List.length htext
        rwa [padded_length, List.length_append, padded_length] at this
      refine ⟨o', v', n', u ++ padded 4 v, heq, hlt, hw, ?_, ?_⟩
      · rw [padded_add, ← hdiv, htext, List.append_assoc]
      · rw [List.length_append, padded_length]
        exact hfour.prepend_at hwrote rfl (by omega)
    · rw [if_neg hv]
      exact ⟨o, v, n, [], rfl, by omega, h, by rw [List.append_nil], .refl o _⟩

theorem leadDigits_wrote (h : Width n v) (hv : v < 10000) :
    Wrote o (leadDigits o i v (i + n)) i (padded n v) n := by
  -- one or two digits
  have hlead : ∀ (o : Out) (m w : ℕ), Width m w → w < 100 →
      Wrote o (if 10 ≤ w then Copy2Digs o (i + m - 2) (w * 2) else o.put i [asciiDigit w]) i
        (padded m w) m := by
    intro o m w hw hlt
    have hm := hw.of_lt (show w < 10 ^ 2 by omega)
    by_cases h10 : 10 ≤ w
    · rw [if_pos h10]
      obtain rfl : m = 2 := by
        have := hw.ge (show 10 ^ 1 ≤ w by omega)
        omega
      exact Copy2Digs_two o i hlt
    · rw [if_neg h10]
      obtain rfl : m = 1 := by
        have := hw.of_lt (show w < 10 ^ 1 by omega)
        have := hw.pos
        omega
      have hone : padded 1 w = [asciiDigit w] := by
        rw [padded, padded, List.nil_append, Nat.mod_eq_of_lt (by omega)]
      rw [hone]
      exact put_wrote_all o _
  unfold leadDigits
  by_cases h100 : 100 ≤ v
  · have hn := h.ge (show 10 ^ 2 ≤ v by omega)
    obtain ⟨n, rfl⟩ : ∃ n', n = n' + 2 := ⟨n - 2, by omega⟩
    have hdiv : v / 100 = v / 10 ^ 2 := by norm_num
    have hlast := Copy2Digs_two o (i + n) (show v % 100 < 100 by omega)
    have hmod : padded 2 (v % 100) = padded 2 v := padded_mod (n := 2) le_rfl
    rw [hmod] at hlast
    simp only [h100, if_true]
    rw [show i + (n + 2) - 2 = i + n by omega]
    have hfront :=
      hlead (Copy2Digs o (i + n) (v % 100 * 2)) n (v / 100) (hdiv ▸ h.div (by omega)) (by omega)
    rw [padded_add, ← hdiv]
    have := hlast.prepend_at hfront (padded_length _ _) rfl
    exact this
  · simp only [h100, if_false]
    exact hlead o n v h (by omega)

theorem lowEight_wrote (h : Width n sig) (h17 : sig < 10 ^ 17) :
    ∃ o' sig' n' u z, lowEight o sig (i + n) = (o', sig', i + n', z) ∧ sig' < 2 ^ 32 ∧ Width n' sig' ∧
      padded n sig = padded n' sig' ++ (u ++ List.replicate z Ch.zero) ∧ n = n' + u.length + z ∧
      Wrote o o' (i + n') u u.length := by
  unfold lowEight
  by_cases hbig : sig / 2 ^ 32 ≠ 0
  · rw [if_pos hbig]
    have hn := h.ge (show 10 ^ 8 ≤ sig by omega)
    obtain ⟨n, rfl⟩ : ∃ n', n = n' + 8 := ⟨n - 8, by omega⟩
    have hr : (sig % 2 ^ 32 + 2 ^ 32 - 100000000 * (sig / 100000000 % 2 ^ 32) % 2 ^ 32) % 2 ^ 32 =
      sig % 10 ^ 8 := by omega
    have hdiv : sig / 100000000 = sig / 10 ^ 8 := by norm_num
    have hlast : padded 8 (sig % 10 ^ 8) = padded 8 sig := padded_mod le_rfl
    have hw : Width n (sig / 10 ^ 8) := h.div (by omega)
    dsimp only
    rw [hr, hdiv, show i + (n + 8) - 8 = i + n by omega]
    by_cases hz : sig % 10 ^ 8 = 0
    · rw [hz, if_neg (not_not.mpr rfl)]
      refine ⟨o, _, n, [], 8, rfl, by omega, hw, ?_, rfl, .refl o _⟩
      rw [padded_add, ← hlast, hz]
      rfl
    · rw [if_pos hz]
      refine ⟨_, _, n, padded 8 sig, 0, rfl, by omega, hw, ?_, by rw [padded_length], ?_⟩
      · rw [padded_add, List.replicate_zero, List.append_nil]
      · rw [show i + (n + 8) - 2 = i + n + 4 + 2 by omega, show i + (n + 8) - 4 = i + n + 4 by omega,
          show i + (n + 8) - 6 = i + n + 2 by omega, padded_length, ← hlast]
        generalize hrr : sig % 10 ^ 8 = r at *
        have hr8 : r < 10 ^ 8 := by omega
        have hlow := fourBack_wrote o (i + n + 4) (show r % 10000 < 10000 by omega)
        have hhigh :=
          fourBack_wrote (Copy2Digs (Copy2Digs o (i + n + 4 + 2) (r % 10000 % 100 * 2)) (i + n + 4)
          (r % 10000 / 100 * 2))
          (i + n) (show r / 10000 % 10000 < 10000 by omega)
        have height : padded 8 r = padded 4 (r / 10000 % 10000) ++ padded 4 (r % 10000) := by
          have h4 : (10000 : ℕ) = 10 ^ 4 := by norm_num
          rw [h4, padded_mod (n := 4) le_rfl, padded_mod (n := 4) le_rfl, ← padded_add]
        rw [height]
        exact hlow.prepend_at hhigh (padded_length _ _) rfl
  · rw [if_neg hbig]
    exact ⟨o, sig, n, [], 0, rfl, by omega, h, by simp, by simp, .refl o _⟩

/-- **The digits without the zeros of a low part that is zero.** -/
theorem FormatSignificand_wrote (h : Width n sig) (h17 : sig < 10 ^ 17) :
    ∃ t z, padded n sig = t ++ List.replicate z Ch.zero ∧
      (FormatSignificand sig o i n).2 = i + t.length ∧
      Wrote o (FormatSignificand sig o i n).1 i t t.length ∧ t ≠ [] := by
  obtain ⟨o₁, sig₁, n₁, u₁, z, heq₁, hlt₁, hw₁, htext₁, hn₁, hwrote₁⟩ := lowEight_wrote o i h h17
  obtain ⟨o₂, v₂, n₂, u₂, heq₂, hlt₂, hw₂, htext₂, hwrote₂⟩ := fourByFour_wrote o₁ i hw₁
  have hn₂ : n₁ = n₂ + u₂.length := by
    have := congrArg List.length htext₂
    rwa [padded_length, List.length_append, padded_length] at this
  have hlead := leadDigits_wrote o₂ i hw₂ hlt₂
  unfold FormatSignificand
  rw [heq₁]
  dsimp only
  rw [Nat.mod_eq_of_lt hlt₁, heq₂]
  dsimp only
  refine ⟨padded n₂ v₂ ++ (u₂ ++ u₁), z, ?_, ?_, ?_, ?_⟩
  · rw [htext₁, htext₂]
    simp only [List.append_assoc]
  · simp only [List.length_append, padded_length]
    omega
  · have htail := hwrote₁.prepend_at hwrote₂ rfl (by omega)
    rw [List.length_append, List.length_append, padded_length]
    exact htail.prepend_at hlead (padded_length _ _) rfl
  · intro hc
    have := congrArg List.length hc
    rw [List.length_append, padded_length, List.length_nil] at this
    have := hw₂.pos
    omega

/-- Reading back over the zeros of a text that does not begin with one. -/
theorem trimZeros_text {w : Bytes} (hw : w ≠ []) (h0 : w.head? ≠ some Ch.zero)
    (h : ∀ j, (hj : j < w.length) → o.mem (i + j) = w[j]) :
    ∃ t z, w = t ++ List.replicate z Ch.zero ∧ t ≠ [] ∧ trimZeros o (i + w.length) = i + t.length := by
  induction w using List.reverseRecOn with
  | nil => exact absurd rfl hw
  | append_singleton a b ih =>
    have hlast := h a.length (by simp)
    rw [List.getElem_append_right le_rfl] at hlast
    simp only [Nat.sub_self, List.getElem_cons_zero] at hlast
    rw [List.length_append, List.length_singleton, ← Nat.add_assoc, trimZeros, hlast]
    by_cases hb : b = Ch.zero
    · have ha : a ≠ [] := by
        rintro rfl
        exact h0 (by rw [hb]; rfl)
      obtain ⟨t, z, rfl, ht, htrim⟩ := ih ha (by rwa [List.head?_append_of_ne_nil _ ha] at h0)
          fun j hj => by
        rw [h j (by rw [List.length_append]; omega), List.getElem_append_left hj]
      rw [if_pos hb, htrim, hb]
      refine ⟨t, z + 1, ?_, ht, rfl⟩
      rw [List.append_assoc, List.replicate_succ']
    · rw [if_neg hb]
      refine ⟨a ++ [b], 0, by simp, by simp, by simp [Nat.add_assoc]⟩

/-- The digits of `sig`, `n` of them, without zeros at the end that are passed over. -/
structure Trimmed (sig n : ℕ) (t : Bytes) : Prop where
  head : ∃ d ds, t = d :: ds ∧ d ≠ Ch.zero
  digits : ∀ b ∈ t, is_digit b = true
  value : ∃ z, n = t.length + z ∧ sig = decimal t * 10 ^ z

theorem Trimmed.int {t : Bytes} (h : Trimmed sig n t) : IntPart t := by
  obtain ⟨d, ds, rfl, hd⟩ := h.head
  exact .pos (h.digits d List.mem_cons_self) hd fun b hb => h.digits b (List.mem_cons_of_mem _ hb)

/-- The value of the digits with an exponent. -/
theorem Trimmed.exact {t : Bytes} (h : Trimmed sig n t) (e : ℤ) :
    (sig : ℚ) * 10 ^ e = decimal t * 10 ^ (n + e - t.length) := by
  obtain ⟨z, hn, hsig⟩ := h.value
  have hexp : (n : ℤ) + e - t.length = z + e := by omega
  rw [hexp, zpow_add₀ (by norm_num), zpow_natCast, hsig]
  push_cast
  ring

/-- **The digits without trailing zeros**, and the pointer behind them. -/
theorem trimmed_wrote (h : Width n sig) (h17 : sig < 10 ^ 17) :
    ∃ t, Trimmed sig n t ∧ Wrote o (FormatSignificand sig o i n).1 i t n ∧
      trimZeros (FormatSignificand sig o i n).1 (FormatSignificand sig o i n).2 = i + t.length := by
  obtain ⟨w, z, htext, hend, hwrote, hne⟩ := FormatSignificand_wrote o i h h17
  have hdec : decimal (padded n sig) = sig := by rw [decimal_padded, Nat.mod_eq_of_lt h.lt]
  obtain ⟨d, ds, hpad, hd0⟩ : ∃ d ds, padded n sig = d :: ds ∧ d ≠ Ch.zero := by
    obtain ⟨n, rfl⟩ : ∃ n', n = n' + 1 := ⟨n - 1, by have := h.pos; omega⟩
    have hint := (decimally_padded h.lt (.inl h.le)).int
    have hpos : 0 < sig := lt_of_lt_of_le (Nat.pow_pos (by decide)) h.le
    generalize padded (n + 1) sig = P at *
    cases hint with
    | zero => rw [← hdec] at hpos; exact absurd hpos (by decide)
    | pos hd hd0 hds => exact ⟨_, _, rfl, hd0⟩
  have hfront : ∀ a u, padded n sig = a ++ u → a ≠ [] → ∃ b r, a = b :: r ∧ b ≠ Ch.zero := by
    intro a u hau ha
    cases a with
    | nil => exact absurd rfl ha
    | cons b r =>
      rw [hpad, List.cons_append, List.cons.injEq] at hau
      exact ⟨b, r, rfl, by rw [← hau.1]; exact hd0⟩
  obtain ⟨b, r, rfl, hb⟩ := hfront w _ htext hne
  obtain ⟨t, z', heq, ht, htrim⟩ := trimZeros_text (FormatSignificand sig o i n).1 i hne
    (by rw [List.head?_cons]; exact fun hc => hb (Option.some.inj hc)) hwrote.text
  rw [heq] at htext hwrote
  have hall : padded n sig = t ++ List.replicate (z' + z) Ch.zero := by
    rw [htext, List.append_assoc, List.replicate_add]
  have hlen : n = t.length + (z' + z) := by
    have := congrArg List.length hall
    rwa [padded_length, List.length_append, List.length_replicate] at this
  refine ⟨t, ⟨hfront t _ hall ht, fun b hb => ?_, z' + z, hlen, ?_⟩, hwrote.front.mono ?_,
    by rw [hend, htrim]⟩
  · exact padded_digits b (by rw [hall]; exact List.mem_append_left _ hb)
  · have hzeros : decimal (List.replicate (z' + z) Ch.zero) = 0 :=
      decimal_zeros fun b hb => List.eq_of_mem_replicate hb
    rw [← hdec, hall, decimal_append, hzeros, List.length_replicate, Nat.add_zero]
  · rw [List.length_append, List.length_replicate]
    omega

end

/-! ### The layouts are numbers of JSON -/

/-- The parts of a number that is not an integer, and its absolute value. -/
structure FloatText (I f e : Bytes) (x : ℚ) : Prop where
  int : IntPart I
  frac : FracPart f
  exp : ExpPart e
  floating : f ≠ [] ∨ e ≠ []
  value : absValue I f e = x

/-- A fraction is short, and an exponent is small and follows a short integer. -/
structure ShortParts (I f e : Bytes) : Prop where
  frac : (f.drop 1).length < 23
  int : e ≠ [] → I.length ≤ 19
  exp : |expValue e| < 100000

theorem ShortParts.plain {I f : Bytes} (h : (f.drop 1).length < 23) :
    ShortParts I f [] := ⟨h, fun h => absurd rfl h, by decide⟩

/-- Such a number is written at `i`, with the pointer behind it. -/
def Printed (o : Out) (i : ℕ) (r : Out × ℕ) (x : ℚ) : Prop :=
  ∃ I f e, FloatText I f e x ∧ ShortParts I f e ∧ Wrote o r.1 i (I ++ (f ++ e)) 31 ∧
    r.2 = i + (I ++ (f ++ e)).length

section
variable {flags : SerializeFlags} {o o' : Out} {i n : ℕ} {v : F64Decimal}

theorem exponentDigits_wrote (o : Out) (i : ℕ) {exp : ℕ} (h : exp < 1000) :
    ∃ n, n ≤ 2 ∧ exp < 10 ^ (n + 1) ∧
      Wrote o (exponentDigits o i exp).1 i (padded (n + 1) exp) (n + 1) ∧
      (exponentDigits o i exp).2 = i + (n + 1) := by
  unfold exponentDigits
  by_cases h100 : 100 ≤ exp
  · rw [if_pos h100]
    refine ⟨2, le_rfl, by omega, ?_, rfl⟩
    have hfront := Copy2Digs_two o i (show exp / 10 < 100 by omega)
    have hlast := put_wrote_all (i := i + 2) (Copy2Digs o i (exp / 10 * 2)) [asciiDigit (exp % 10)]
    have htext : padded 3 exp = padded 2 (exp / 10) ++ [asciiDigit (exp % 10)] := rfl
    rw [htext, Nat.mul_comm 2]
    exact hfront.append (by rw [padded_length]; exact hlast)
  rw [if_neg h100]
  by_cases h10 : 10 ≤ exp
  · rw [if_pos h10, Nat.mul_comm 2]
    exact ⟨1, by decide, by omega, Copy2Digs_two o i (by omega), rfl⟩
  · rw [if_neg h10]
    refine ⟨0, by decide, by omega, ?_, rfl⟩
    have hone : padded (0 + 1) exp = [asciiDigit exp] := by
      rw [padded, padded, List.nil_append, Nat.mod_eq_of_lt (by omega)]
    rw [hone]
    exact put_wrote_all o _

/-- The point behind the first digit, and the letter: without a point when there is one digit, or
with a zero behind it. -/
theorem markExponent_wrote {d : UInt8} {ds : Bytes} (h : Wrote o o' (i + 1) (d :: ds) n)
    (hds : ∀ b ∈ ds, is_digit b = true) :
    ∃ f b, FracPart f ∧ (b = Ch.e ∨ b = Ch.upE) ∧
      Wrote o (markExponent flags o' i (i + 1 + (d :: ds).length)).1 i ([d] ++ f ++ [b]) (n + 3) ∧
      (markExponent flags o' i (i + 1 + (d :: ds).length)).2 = i + ([d] ++ f ++ [b]).length ∧
      ∀ e : ℤ, (decimal ([d] ++ f.drop 1) : ℚ) * 10 ^ (e - (f.drop 1).length) =
        decimal (d :: ds) * 10 ^ (e - ds.length) := by
  have hfits := h.fits
  rw [List.length_cons] at hfits
  have hd : o'.mem (i + 1) = d := h.text 0 (by simp)
  have h2 : Wrote o (o'.put i [d]) i ([d] ++ (d :: ds)) (1 + n) :=
    h.prepend_at (put_wrote_all _ _) rfl rfl
  have hdot : Wrote o ((o'.put i [d]).put (i + 1) [Ch.dot]) i ([d] ++ ([Ch.dot] ++ ds)) (1 + n) :=
    @Wrote.patch _ _ _ _ _ [d] [d] ds [Ch.dot] h2 rfl
  have hsub : i + 1 + (d :: ds).length - (i + 1) = ds.length + 1 := by
    rw [List.length_cons]
    omega
  unfold markExponent
  dsimp only
  rw [hd, hsub]
  by_cases hds0 : ds = []
  · subst hds0
    by_cases hj : flags.kSerializeFloatFormatJava = true
    · rw [if_pos hj]
      refine ⟨[Ch.dot, Ch.zero], Ch.upE, .some (by decide) (by simp), .inr rfl, ?_, rfl, fun e => ?_⟩
      · have h3 := hdot.append (put_wrote_all (i := i + 2) _ [Ch.zero])
        have h4 := h3.append (put_wrote_all (i := i + 3) _ [Ch.upE])
        exact h4.mono (by simp; omega)
      · have hdec : decimal ([d] ++ [Ch.dot, Ch.zero].drop 1) = decimal [d] * 10 :=
          decimal_append [d] [Ch.zero]
        have hone : e - (([Ch.dot, Ch.zero].drop 1).length : ℕ) = e - 1 := rfl
        rw [hdec, hone, zpow_sub_one₀ (by norm_num), List.length_nil, Nat.cast_zero, sub_zero]
        push_cast
        ring
    · rw [if_neg hj]
      refine ⟨[], Ch.e, .none, .inl rfl, ?_, rfl, fun e => rfl⟩
      have hfront : Wrote o (o'.put i [d]) i [d] (1 + n) := h2.front
      have h4 := hfront.append (put_wrote_all (i := i + 1) _ [Ch.e])
      exact h4.mono (by simp; omega)
  · have hpos : 0 < ds.length := List.length_pos_iff.mpr hds0
    obtain ⟨c, cs, rfl⟩ := List.exists_cons_of_ne_nil hds0
    have hfrac : FracPart (Ch.dot :: c :: cs) :=
      .some (hds c List.mem_cons_self) fun b hb => hds b (List.mem_cons_of_mem _ hb)
    have hdig : ¬ (c :: cs).length + 1 ≤ 1 := by omega
    have hdig' : (c :: cs).length + 1 > 1 := by omega
    have hletter : ∀ b : UInt8,
        Wrote o (((o'.put i [d]).put (i + 1) [Ch.dot]).put (i + 1 + (d :: c :: cs).length) [b]) i
        ([d] ++ (Ch.dot :: c :: cs) ++ [b]) (n + 3) := by
      intro b
      have hlen : i + 1 + (d :: c :: cs).length = i + ([d] ++ ([Ch.dot] ++ c :: cs)).length := by
        simp only [List.length_append, List.length_cons, List.length_nil]
        omega
      rw [hlen]
      have := hdot.append (put_wrote_all (i := i + ([d] ++ ([Ch.dot] ++ c :: cs)).length) _ [b])
      refine this.mono ?_
      simp only [List.length_append, List.length_cons, List.length_nil] at hfits ⊢
      omega
    have hend : ∀ b : UInt8, i + 1 + (d :: c :: cs).length + 1 =
        i + ([d] ++ (Ch.dot :: c :: cs) ++ [b]).length := by
      intro b
      simp only [List.length_append, List.length_cons, List.length_nil]
      omega
    by_cases hj : flags.kSerializeFloatFormatJava = true
    · rw [if_pos hj, if_neg hdig]
      exact ⟨_, Ch.upE, hfrac, .inr rfl, hletter _, hend _, fun e => rfl⟩
    · rw [if_neg hj, if_pos hdig']
      exact ⟨_, Ch.e, hfrac, .inl rfl, hletter _, hend _, fun e => rfl⟩

/-- **Scientific**, for every exponent of a double. -/
theorem FormatExponent_wrote (o : Out) (i : ℕ) (hw : Width n v.sig) (h17 : v.sig < 10 ^ 17)
    (hlo : -324 ≤ v.exp) (hhi : v.exp ≤ 293) :
    Printed o i (FormatExponent flags v o i n) (v.sig * 10 ^ v.exp) := by
  have hn := hw.of_lt h17
  have hn0 := hw.pos
  obtain ⟨t, ht, hwrote, htrim⟩ := trimmed_wrote o (i + 1) hw h17
  obtain ⟨d, ds, rfl, hd0⟩ := ht.head
  have hds : ∀ b ∈ ds, is_digit b = true := fun b hb => ht.digits b (List.mem_cons_of_mem _ hb)
  obtain ⟨f, b, hf, hb, hmark, hend, hval⟩ := @markExponent_wrote flags o _ i n d ds hwrote hds
  -- the sign
  have hsign : ∃ sg, (sg = [] ∨ sg = [Ch.plus] ∨ sg = [Ch.minus]) ∧
      (sg = [Ch.minus] ↔ v.exp + n - 1 < 0) ∧
      ∀ (o : Out) (e : ℕ), Wrote o (signExponent flags o e (v.exp + n - 1)).1 e sg 1 ∧
        (signExponent flags o e (v.exp + n - 1)).2 = e + sg.length := by
    unfold signExponent
    by_cases hneg : v.exp + n - 1 < 0
    · simp only [hneg, if_true]
      exact ⟨[Ch.minus], .inr (.inr rfl), iff_of_true rfl trivial, fun o e => ⟨put_wrote_all o _, rfl⟩⟩
    · simp only [hneg, if_false]
      by_cases hj : (!flags.kSerializeFloatFormatJava) = true
      · simp only [hj, if_true]
        exact ⟨[Ch.plus], .inr (.inl rfl), iff_of_false (by decide) id,
          fun o e => ⟨put_wrote_all o _, rfl⟩⟩
      · simp only [hj]
        exact ⟨[], .inl rfl, iff_of_false (by decide) id,
          fun o e => ⟨(Wrote.refl o e).mono (by decide), rfl⟩⟩
  obtain ⟨sg, hsg, hsgn, hsign⟩ := hsign
  unfold Printed FormatExponent
  dsimp only
  rw [htrim]
  generalize markExponent flags (FormatSignificand v.sig o (i + 1) n).1 i
    (i + 1 + (d :: ds).length) = r at *
  rw [hend]
  obtain ⟨hs, hsend⟩ := hsign r.1 (i + ([d] ++ f ++ [b]).length)
  rw [hsend]
  generalize (signExponent flags r.1 (i + ([d] ++ f ++ [b]).length) (v.exp + n - 1)).1 = o₃ at hs ⊢
  obtain ⟨k, hk, hlt, hx, hxend⟩ := exponentDigits_wrote o₃ (i + ([d] ++ f ++ [b]).length + sg.length)
    (show (v.exp + n - 1).natAbs < 1000 by omega)
  have hdec : decimal (padded (k + 1) (v.exp + n - 1).natAbs) = (v.exp + n - 1).natAbs := by
    rw [decimal_padded, Nat.mod_eq_of_lt hlt]
  have hdig : ∀ c ∈ padded (k + 1) (v.exp + n - 1).natAbs, is_digit c = true :=
    fun c hc => padded_digits c hc
  have hxlen : (padded (k + 1) (v.exp + n - 1).natAbs).length = k + 1 := padded_length _ _
  generalize padded (k + 1) (v.exp + n - 1).natAbs = X at *
  obtain ⟨c, cs, rfl⟩ : ∃ c cs, X = c :: cs := List.exists_cons_of_length_eq_add_one hxlen
  have hsglen : sg.length ≤ 1 := by rcases hsg with rfl | rfl | rfl <;> decide
  have hflen := hmark.fits
  simp only [List.length_append, List.length_singleton] at hflen
  -- the text
  have hall := (hmark.append hs).append (by rw [List.length_append, ← Nat.add_assoc]; exact hx)
  have htext : [d] ++ f ++ [b] ++ sg ++ (c :: cs) = [d] ++ (f ++ (b :: (sg ++ c :: cs))) := by
    simp only [List.append_assoc, List.cons_append, List.nil_append]
  rw [htext] at hall
  have hE : expValue (b :: (sg ++ c :: cs)) = v.exp + n - 1 := by
    have hc : is_digit c = true := hdig c List.mem_cons_self
    unfold expValue
    rw [List.drop_succ_cons, List.drop_zero]
    rcases hsg with rfl | rfl | rfl
    · have h1 : c ≠ Ch.minus := by rintro rfl; exact absurd hc (by decide)
      have h2 : c ≠ Ch.plus := by rintro rfl; exact absurd hc (by decide)
      have hnn : ¬ v.exp + n - 1 < 0 := fun h => absurd (hsgn.mpr h) (by decide)
      simp only [List.nil_append, h1, h2, if_false]
      omega
    · have hnn : ¬ v.exp + n - 1 < 0 := fun h => absurd (hsgn.mpr h) (by decide)
      have hpm : Ch.plus ≠ Ch.minus := by decide
      simp only [List.singleton_append, hpm, if_false, if_true]
      omega
    · have hnn := hsgn.mp rfl
      simp only [List.singleton_append, if_true]
      omega
  refine ⟨[d], f, _, ⟨.pos (ht.digits d List.mem_cons_self) hd0 (by simp), hf,
    .some hb hsg (hdig c List.mem_cons_self) fun x hx => hdig x (List.mem_cons_of_mem _ hx),
    .inr (by simp), ?_⟩, ⟨?_, fun _ => show 1 ≤ 19 by decide, by rw [hE, abs_lt]; omega⟩,
    hall.mono ?_, ?_⟩
  · unfold absValue
    rw [hE, hval, ht.exact, List.length_cons]
    congr 2
    push_cast
    ring
  · rw [List.length_drop]
    omega
  · simp only [List.length_append, List.length_singleton]
    omega
  · rw [hxend, ← hxlen, ← htext]
    simp only [List.length_append]
    omega

/-- Digits with the point and a zero behind them. -/
theorem dot_zero_wrote (o : Out) (i k : ℕ) :
    Wrote o ((o.put i (List.replicate (k + 2) Ch.zero)).put (i + k) [Ch.dot]) i
      (List.replicate k Ch.zero ++ [Ch.dot, Ch.zero])
      (k + 2) := by
  have h := put_wrote_all (i := i) o (List.replicate (k + 2) Ch.zero)
  have hsplit :
      List.replicate (k + 2) Ch.zero = List.replicate k Ch.zero ++ ([Ch.zero] ++ [Ch.zero]) := by
    rw [List.replicate_add]
    rfl
  rw [List.length_replicate] at h
  have h' : Wrote o (o.put i (List.replicate (k + 2) Ch.zero)) i (List.replicate k Ch.zero ++
      ([Ch.zero] ++ [Ch.zero])) (k + 2) := by
    rw [← hsplit]
    exact h
  have := h'.patch (a := [Ch.dot]) rfl
  rwa [List.length_replicate] at this

/-- An integer with `.0`. -/
theorem FloatText.dot_zero {I : Bytes} (hI : IntPart I) :
    FloatText I [Ch.dot, Ch.zero] [] (decimal I) := by
  refine ⟨hI, .some (by decide) (by simp), .none, .inl (by simp), ?_⟩
  have hdec : decimal (I ++ [Ch.dot, Ch.zero].drop 1) = decimal I * 10 := decimal_append I [Ch.zero]
  have hexp : expValue [] - (([Ch.dot, Ch.zero].drop 1).length : ℕ) = (-1 : ℤ) := rfl
  unfold absValue
  rw [hdec, hexp]
  push_cast
  rw [zpow_neg_one]
  field_simp

/-- **Plain decimal**, with leading zeros, the point between the digits, or zeros behind them. -/
theorem FormatDecimal_wrote (o : Out) (i : ℕ) (hw : Width n v.sig) (h17 : v.sig < 10 ^ 17)
    (hneg : v.exp < 0) (hlo : -5 ≤ n + v.exp) : Printed o i (FormatDecimal v o i n)
    (v.sig * 10 ^ v.exp) := by
  have hn := hw.of_lt h17
  unfold Printed FormatDecimal
  by_cases hpoint : (n : ℤ) + v.exp ≤ 0
  · simp only [hpoint, if_true]
    generalize hnz : (-((n : ℤ) + v.exp)).toNat = k
    obtain ⟨t, ht, hwrote, htrim⟩ :=
      trimmed_wrote ((o.put i [Ch.zero, Ch.dot]).put (i + 2) (List.replicate k Ch.zero))
      (i + 2 + k) hw h17
    rw [htrim]
    have hzeros : Wrote o ((o.put i [Ch.zero, Ch.dot]).put (i + 2) (List.replicate k Ch.zero)) i
        ([Ch.zero, Ch.dot] ++ List.replicate k Ch.zero) (2 + k) := by
      have := o.put_put (i := i) [Ch.zero, Ch.dot] (List.replicate k Ch.zero)
      rw [List.length_cons, List.length_singleton] at this
      rw [this]
      have hput := put_wrote_all (i := i) o ([Ch.zero, Ch.dot] ++ List.replicate k Ch.zero)
      simp only [List.length_append, List.length_cons, List.length_nil, List.length_replicate] at hput
      exact hput
    have hlen : ([Ch.zero, Ch.dot] ++ List.replicate k Ch.zero).length = 2 + k := by
      simp only [List.length_append, List.length_cons, List.length_nil, List.length_replicate]
    have hall := hzeros.append (by rw [hlen, ← Nat.add_assoc]; exact hwrote)
    have htext : [Ch.zero, Ch.dot] ++ List.replicate k Ch.zero ++ t =
        [Ch.zero] ++ ((Ch.dot :: (List.replicate k Ch.zero ++ t)) ++ []) := by simp
    rw [htext, hlen] at hall
    have hdigits : ∀ b ∈ List.replicate k Ch.zero ++ t, is_digit b = true := by
      intro b hb
      rcases List.mem_append.mp hb with hb | hb
      · rw [List.eq_of_mem_replicate hb]
        rfl
      · exact ht.digits b hb
    have hfrac : FracPart (Ch.dot :: (List.replicate k Ch.zero ++ t)) := by
      obtain ⟨d, ds, hds, -⟩ := ht.head
      have hne : List.replicate k Ch.zero ++ t ≠ [] := by
        rw [hds]
        exact List.append_ne_nil_of_right_ne_nil _ (List.cons_ne_nil _ _)
      generalize List.replicate k Ch.zero ++ t = l at *
      obtain ⟨c, cs, rfl⟩ := List.exists_cons_of_ne_nil hne
      exact .some (hdigits c List.mem_cons_self) fun x hx => hdigits x (List.mem_cons_of_mem _ hx)
    refine ⟨[Ch.zero], _, [], ⟨.zero, hfrac, .none, .inl (List.cons_ne_nil _ _), ?_⟩, .plain ?_,
      hall.mono (by omega), ?_⟩
    · have hz : decimal (Ch.zero :: List.replicate k Ch.zero) = 0 := by
        rw [decimal_zeros (Z := Ch.zero :: List.replicate k Ch.zero)]
        intro b hb
        rw [← List.replicate_succ] at hb
        exact List.eq_of_mem_replicate hb
      unfold absValue
      rw [List.drop_succ_cons, List.drop_zero, ← List.append_assoc, decimal_append,
        List.singleton_append, hz, Nat.zero_mul, Nat.zero_add, List.length_append,
        List.length_replicate, ht.exact]
      congr 2
      have : expValue [] = 0 := rfl
      rw [this]
      push_cast
      omega
    · have hfits := hwrote.fits
      rw [List.drop_succ_cons, List.drop_zero, List.length_append, List.length_replicate]
      omega
    · rw [← htext, List.length_append, hlen]
      omega
  · simp only [hpoint, if_false]
    obtain ⟨t, ht, hwrote, htrim⟩ := trimmed_wrote o i hw h17
    generalize hp : ((n : ℤ) + v.exp).toNat = p
    have hE : (n : ℤ) + v.exp - t.length = p - t.length := by omega
    have hfits := hwrote.fits
    rw [htrim, Nat.add_sub_cancel_left]
    by_cases hdigs : p < t.length
    · -- the point between the digits
      simp only [hdigs, if_true]
      obtain ⟨a, b, rfl, ha⟩ : ∃ a b, t = a ++ b ∧ a.length = p :=
        ⟨t.take p, t.drop p, (List.take_append_drop p t).symm, by rw [List.length_take]; omega⟩
      have hb : 0 < b.length := by
        rw [List.length_append] at hdigs
        omega
      have ha0 : a ≠ [] := by
        rintro rfl
        rw [List.length_nil] at ha
        omega
      have hread : (FormatSignificand v.sig o i n).1.read (i + p) ((a ++ b).length - p) = b := by
        have := hwrote.read_back
        rwa [ha, show b.length = (a ++ b).length - p by rw [List.length_append]; omega] at this
      rw [hread]
      have hmove := put_wrote_all (i := i + p + 1) (FormatSignificand v.sig o i n).1 b
      have hdot := hmove.prepend_at (put_wrote_all (i := i + p) _ [Ch.dot]) rfl rfl
      have hall := hwrote.front.append (by rw [ha]; exact hdot)
      obtain ⟨d, ds, hds, hd0⟩ := ht.head
      obtain ⟨c, cs, rfl⟩ := List.exists_cons_of_ne_nil ha0
      rw [List.cons_append, List.cons.injEq] at hds
      have hint : IntPart (c :: cs) := .pos (ht.digits c (by simp)) (by rw [hds.1]; exact hd0)
        fun x hx => ht.digits x (List.mem_append_left _ (List.mem_cons_of_mem _ hx))
      obtain ⟨c', cs', rfl⟩ := List.exists_cons_of_ne_nil (List.length_pos_iff.mp hb)
      have hfrac : FracPart (Ch.dot :: c' :: cs') := .some (ht.digits c' (by simp))
        fun x hx => ht.digits x (List.mem_append_right _ (List.mem_cons_of_mem _ hx))
      refine ⟨c :: cs, Ch.dot :: c' :: cs', [], ⟨hint, hfrac, .none, .inl (List.cons_ne_nil _ _),
        ?_⟩, .plain ?_, ?_, ?_⟩
      · unfold absValue
        rw [ht.exact, hE, List.drop_succ_cons, List.drop_zero, List.length_append, ha]
        congr 2
        have : expValue [] = 0 := rfl
        rw [this]
        push_cast
        ring
      · rw [List.length_append] at hfits
        rw [List.drop_succ_cons, List.drop_zero]
        omega
      · rw [List.append_nil]
        refine hall.mono ?_
        rw [List.length_append] at hfits
        rw [List.length_singleton]
        omega
      · rw [List.append_nil, List.length_append, List.length_append, @List.length_cons _ _ (c' :: cs')]
        omega
    · -- zeros behind the digits
      simp only [hdigs, if_false]
      have hz := dot_zero_wrote (FormatSignificand v.sig o i n).1 (i + t.length) (p - t.length)
      have hall := hwrote.append hz
      have hint : IntPart (t ++ List.replicate (p - t.length) Ch.zero) := by
        obtain ⟨d, ds, rfl, hd0⟩ := ht.head
        refine .pos (ht.digits d List.mem_cons_self) hd0 fun x hx => ?_
        rcases List.mem_append.mp hx with hx | hx
        · exact ht.digits x (List.mem_cons_of_mem _ hx)
        · rw [List.eq_of_mem_replicate hx]
          rfl
      have hzeros : decimal (List.replicate (p - t.length) Ch.zero) = 0 :=
        decimal_zeros fun b hb => List.eq_of_mem_replicate hb
      have hdec : decimal (t ++ List.replicate (p - t.length) Ch.zero) =
          decimal t * 10 ^ (p - t.length) := by
        rw [decimal_append, hzeros, List.length_replicate, Nat.add_zero]
      have hft := FloatText.dot_zero hint
      rw [hdec] at hft
      refine ⟨t ++ List.replicate (p - t.length) Ch.zero, [Ch.dot, Ch.zero], [], ?_,
        .plain (by decide), ?_, ?_⟩
      · have hx : (v.sig : ℚ) * 10 ^ v.exp = (decimal t * 10 ^ (p - t.length) : ℕ) := by
          have he : (p : ℤ) - t.length = (p - t.length : ℕ) := by omega
          rw [ht.exact, hE, he, zpow_natCast]
          push_cast
          rfl
        rw [hx]
        exact hft
      · rw [List.append_nil, List.append_assoc]
        refine hall.mono ?_
        omega
      · simp only [List.append_nil, List.length_append, List.length_replicate, List.length_cons,
          List.length_nil]
        omega

end

/-! ### The choice of the layout -/

theorem Width.unique {m n v : ℕ} (h : Width n v) (h' : Width m v) : n = m := by
  have h1 := h.of_lt h'.lt
  have h2 := h'.of_lt h.lt
  omega

theorem width_of_decimally {t : Bytes} {v : ℕ} (h : Decimally t v) (hv : 0 < v) : Width t.length v := by
  have h0 : t ≠ [Ch.zero] := by
    rintro rfl
    rw [← h.value] at hv
    exact absurd hv (by decide)
  obtain ⟨h1, h2, h3⟩ := h.int.size h0
  rw [h.value] at h2 h3
  exact ⟨h1, h3, h2⟩

theorem IsDivPow2_iff {c : ℕ} {e : ℤ} : IsDivPow2 c e = true ↔ c % 2 ^ e.toNat = 0 := by
  unfold IsDivPow2
  dsimp only
  rw [beq_iff_eq, Nat.and_two_pow_sub_one_eq_mod]

/-- The test of the source for the integers that are printed as they are. -/
def IntegerPath (flags : SerializeFlags) (fp : Double) : Prop :=
  let p := f64Parts fp.toNat
  p.rexp ≠ 0 ∧ flags.kSerializeFloatFormatJava = false ∧
    (p.q ≤ 0 ∧ -52 ≤ p.q ∧ IsDivPow2 p.c (-p.q) = true)

instance (flags : SerializeFlags) (fp : Double) :
    Decidable (IntegerPath flags fp) := inferInstanceAs (Decidable (_ ∧ _))

/-- The absolute value of the text: that of the shortest decimal, or of the number itself where that
is a zero or an integer that is printed as it is. -/
def printedValue (flags : SerializeFlags) (fp : Double) : ℚ :=
  if fp <<< 1 = 0 then 0
  else if IntegerPath flags fp then (f64Parts fp.toNat).c * 2 ^ (f64Parts fp.toNat).q
  else (f64Decimal fp).sig * 10 ^ (f64Decimal fp).exp

/-- The sign bit. -/
def signText (fp : Double) : Bytes := if fp.toNat / 2 ^ 63 ≠ 0 then [Ch.minus] else []

section
variable {flags : SerializeFlags} {n : ℕ}

/-- An integer on the fast path. -/
theorem integer_printed (o : Out) (i : ℕ) {u : ℕ} (hu : u < 2 ^ 64) :
    Printed o i ((U64toa o i u).1.put (U64toa o i u).2 [Ch.dot, Ch.zero], (U64toa o i u).2 + 2) u := by
  obtain ⟨t, ht, hlen, hwrote, hend⟩ := U64toa_wrote o i hu
  have hft := FloatText.dot_zero ht.int
  rw [ht.value] at hft
  refine ⟨t, _, [], hft, .plain (by decide), ?_, ?_⟩
  · rw [hend, List.append_nil]
    exact (hwrote.append (put_wrote_all _ [Ch.dot, Ch.zero])).mono (by simp; omega)
  · rw [hend, List.append_nil, List.length_append]
    rfl

/-- Zeros behind the digits up to the point. -/
theorem digits_printed (o : Out) (i : ℕ) {sig k : ℕ} (hw : Width n sig) (h17 : sig < 10 ^ 17)
    (hk : n + k ≤ 21) :
    Printed o i (((U64toa o i sig).1.put (U64toa o i sig).2
      (List.replicate (i + (n + k) - (U64toa o i sig).2 + 2) Ch.zero)).put
      (i + (n + k)) [Ch.dot], i + (n + k) + 2) (sig * 10 ^ k) := by
  have hpos : 0 < sig := lt_of_lt_of_le (Nat.pow_pos (by decide)) hw.le
  obtain ⟨t, ht, -, hwrote, hend⟩ := U64toa_wrote o i (show sig < 2 ^ 64 by omega)
  obtain rfl := hw.unique (width_of_decimally ht hpos)
  rw [hend, show i + (t.length + k) - (i + t.length) = k by omega, ← Nat.add_assoc]
  have hz := dot_zero_wrote (U64toa o i sig).1 (i + t.length) k
  have hall := hwrote.append hz
  have hint : IntPart (t ++ List.replicate k Ch.zero) := by
    have := (ht.append (by omega) k 0 (Nat.pow_pos (by decide))).int
    rwa [padded_zero] at this
  have hzeros : decimal (List.replicate k Ch.zero) = 0 :=
    decimal_zeros fun b hb => List.eq_of_mem_replicate hb
  have hft := FloatText.dot_zero hint
  rw [decimal_append, ht.value, hzeros, List.length_replicate, Nat.add_zero, Nat.cast_mul,
    Nat.cast_pow] at hft
  refine ⟨_, _, [], hft, .plain (by decide), ?_, ?_⟩
  · rw [List.append_nil, List.append_assoc]
    exact hall.mono (by omega)
  · simp only [List.append_nil, List.length_append, List.length_replicate, List.length_cons,
      List.length_nil]
    omega

/-- The digits in the layout that the exponent asks for. -/
theorem layout_printed (o : Out) (i : ℕ) {dec : F64Decimal} (h0 : 0 < dec.sig)
    (h17 : dec.sig < 10 ^ 17) (hlo : -324 ≤ dec.exp) (hhi : dec.exp ≤ 293) {exp_fmt : Bool}
    (hfmt : exp_fmt = false → -6 ≤ Ctz10 dec.sig + dec.exp - 1 ∧ Ctz10 dec.sig + dec.exp - 1 ≤ 20) :
    ∃ r : Out × ℕ, Printed o i r (dec.sig * 10 ^ dec.exp) ∧ ∀ out,
      (if exp_fmt then
        let (o, p) := FormatExponent flags dec o i (Ctz10 dec.sig)
        (o, p - out)
      else if dec.exp < 0 then
        let (o, p) := FormatDecimal dec o i (Ctz10 dec.sig)
        (o, p - out)
      else
        let dp := i + (Ctz10 dec.sig + dec.exp : ℤ).toNat
        let (o, p) := U64toa o i dec.sig
        let nzeros := dp - p
        let o := o.put p (List.replicate (nzeros + 2) Ch.zero)
        (o.put dp [Ch.dot], dp + 2 - out)) = (r.1, r.2 - out) := by
  have hw := Ctz10_width h0 h17
  cases exp_fmt with
  | true => exact ⟨_, FormatExponent_wrote o i hw h17 hlo hhi, fun out => rfl⟩
  | false =>
    obtain ⟨h1, h2⟩ := hfmt rfl
    by_cases hneg : dec.exp < 0
    · simp only [hneg, if_true, Bool.false_eq_true, if_false]
      exact ⟨_, FormatDecimal_wrote o i hw h17 hneg (by omega), fun out => rfl⟩
    · simp only [hneg, if_false, Bool.false_eq_true]
      obtain ⟨k, hk⟩ : ∃ k : ℕ, dec.exp = k := ⟨dec.exp.toNat, by omega⟩
      have hdot : (Ctz10 dec.sig + dec.exp : ℤ).toNat = Ctz10 dec.sig + k := by omega
      have := digits_printed o i (k := k) hw h17 (by omega)
      rw [hdot, hk, zpow_natCast]
      exact ⟨_, this, fun out => rfl⟩

/-- The sign in front. -/
theorem Printed.sign {o o' : Out} {i out : ℕ} {r : Out × ℕ} {x : ℚ} {sg : Bytes}
    (h : Printed o' i r x) (hs : Wrote o o' out sg 1) (hi : i = out + sg.length) :
    ∃ I f e, FloatText I f e x ∧ ShortParts I f e ∧ Wrote o r.1 out (sg ++ (I ++ (f ++ e))) 32 ∧
      r.2 - out = (sg ++ (I ++ (f ++ e))).length := by
  subst hi
  obtain ⟨I, f, e, hft, hshort, hwrote, hend⟩ := h
  have hfits := hs.fits
  refine ⟨I, f, e, hft, hshort, (hs.append hwrote).mono (by omega), ?_⟩
  rw [hend, Nat.add_assoc, Nat.add_sub_cancel_left, ← List.length_append]

/-- **Every finite double is printed as a number of JSON** with exactly the value of its decimal. -/
theorem F64toa_wrote (o : Out) (out : ℕ) {fp : Double} (hfin : (f64Parts fp.toNat).rexp ≠ 0x7FF) :
    ∃ I f e, FloatText I f e (printedValue flags fp) ∧ ShortParts I f e ∧
      Wrote o (F64toa flags o out fp).1 out (signText fp ++ (I ++ (f ++ e))) 32 ∧
      (F64toa flags o out fp).2 = (signText fp ++ (I ++ (f ++ e))).length := by
  have hsign : Wrote o (o.put out [Ch.minus]) out (signText fp) 1 ∧
      out + (if fp.toNat / 2 ^ 63 ≠ 0 then 1 else 0) = out + (signText fp).length := by
    unfold signText
    split
    · exact ⟨put_wrote_all o _, rfl⟩
    · exact ⟨put_wrote o [] [Ch.minus], rfl⟩
  -- the layout behind the sign
  have hbody : ∃ r, Printed (o.put out [Ch.minus]) (out + (if fp.toNat / 2 ^ 63 ≠ 0 then 1 else 0))
      r (printedValue flags fp) ∧
      F64toa flags o out fp = (r.1, r.2 - out) := by
    generalize hp : out + (if fp.toNat / 2 ^ 63 ≠ 0 then 1 else 0) = p
    unfold F64toa printedValue
    dsimp only
    rw [hp, if_neg hfin]
    by_cases hz : fp <<< 1 = 0
    · rw [if_pos hz, if_pos hz]
      have hft := FloatText.dot_zero .zero
      have hdec : decimal [Ch.zero] = 0 := rfl
      rw [hdec, Nat.cast_zero] at hft
      refine ⟨((o.put out [Ch.minus]).put p [Ch.zero, Ch.dot, Ch.zero], p + 3),
        ⟨_, _, [], hft, .plain (by decide), ?_, rfl⟩, rfl⟩
      exact (put_wrote_all (i := p) (o.put out [Ch.minus]) [Ch.zero, Ch.dot, Ch.zero]).mono (by decide)
    · rw [if_neg hz, if_neg hz]
      have hd := f64Parts_decomposed hfin hz
      by_cases hint : IntegerPath flags fp
      · rw [if_pos hint]
        obtain ⟨h1, h2, h3, h4, h5⟩ := hint
        rw [if_pos ⟨h1, h2, h3, h4, h5⟩]
        rw [IsDivPow2_iff] at h5
        have hc := hd.lt
        generalize f64Parts fp.toNat = parts at *
        obtain ⟨rsig, rexp, c, q⟩ := parts
        dsimp only at *
        have hu : c / 2 ^ (-q).toNat < 2 ^ 64 := lt_of_le_of_lt (Nat.div_le_self _ _) (by omega)
        have hval : (c : ℚ) * 2 ^ q = ((c / 2 ^ (-q).toNat : ℕ) : ℚ) := by
          have hmul : c = 2 ^ (-q).toNat * (c / 2 ^ (-q).toNat) :=
            (Nat.mul_div_cancel' (Nat.dvd_of_mod_eq_zero h5)).symm
          obtain ⟨k, hk⟩ : ∃ k : ℕ, q = -k := ⟨(-q).toNat, by omega⟩
          have hk' : (-q).toNat = k := by omega
          rw [hk'] at hmul ⊢
          have hcast : (c : ℚ) = 2 ^ k * ((c / 2 ^ k : ℕ) : ℚ) := by
            conv_lhs => rw [hmul]
            push_cast
            rfl
          rw [hk, zpow_neg, zpow_natCast]
          rw [hcast, mul_assoc, mul_comm, mul_assoc, inv_mul_cancel₀ (by positivity), mul_one]
        rw [hval]
        exact ⟨_, integer_printed (o.put out [Ch.minus]) p hu, rfl⟩
      · rw [if_neg hint, if_neg (show ¬ (_ ∧ _) from hint)]
        obtain ⟨h0, h17, hlo, hhi⟩ := F64ToDecimal_bounds hd (f64Parts_irregular hfin)
        change 0 < (f64Decimal fp).sig at h0
        change (f64Decimal fp).sig < 10 ^ 17 at h17
        change -324 ≤ (f64Decimal fp).exp at hlo
        change (f64Decimal fp).exp ≤ 293 at hhi
        have hdec : F64ToDecimal (f64Parts fp.toNat).rsig (f64Parts fp.toNat).rexp
            (f64Parts fp.toNat).c (f64Parts fp.toNat).q =
          f64Decimal fp := rfl
        rw [hdec]
        obtain ⟨r, hr, heq⟩ :=
          @layout_printed flags (o.put out [Ch.minus]) p (f64Decimal fp) h0 h17 hlo hhi
          (if flags.kSerializeFloatFormatJava then
            !(decide (-3 ≤ (Ctz10 (f64Decimal fp).sig : ℤ) - 1 + (f64Decimal fp).exp) &&
              decide ((Ctz10 (f64Decimal fp).sig : ℤ) - 1 + (f64Decimal fp).exp < 7))
          else decide ((Ctz10 (f64Decimal fp).sig : ℤ) + (f64Decimal fp).exp - 1 < -6) ||
            decide (20 < (Ctz10 (f64Decimal fp).sig : ℤ) + (f64Decimal fp).exp - 1)) (by
          intro hf
          split at hf
          · simp only [Bool.not_eq_false', Bool.and_eq_true, decide_eq_true_eq] at hf
            omega
          · simp only [Bool.or_eq_false_iff, decide_eq_false_iff_not] at hf
            omega)
        exact ⟨r, hr, heq out⟩
  obtain ⟨r, hr, heq⟩ := hbody
  rw [heq]
  exact hr.sign hsign.1 hsign.2

end

/-- **Floats are printed exactly, and stay floats.** The text of every finite double, in both
formats, is a number of JSON with a point or an exponent, at most 32 bytes of memory are written,
its value is exactly the decimal that was chosen, and whatever stands behind it the parser takes it
for no integer. -/
theorem F64toa_exact (flags : SerializeFlags) (o : Out) (out : ℕ) (fp : Double)
    (hfin : (f64Parts fp.toNat).rexp ≠ 0x7FF) :
    ∃ I f e, FloatText I f e (printedValue flags fp) ∧
      Wrote o (F64toa flags o out fp).1 out (signText fp ++ (I ++ (f ++ e))) 32 ∧
      (F64toa flags o out fp).2 = (signText fp ++ (I ++ (f ++ e))).length ∧
      ∀ (F : FloatConv) (pf : ParseFlags) (s u : Bytes) (p len : ℕ),
        InText s p (signText fp ++ (I ++ (f ++ e))) u →
        (∃ d, (parseNumber F pf s len (p + 1)).ev = some (.Double d)) ∨
          (parseNumber F pf s len (p + 1)).ev = some (.NumStr (signText fp ++ (I ++ (f ++ e)))) := by
  obtain ⟨I, f, e, hft, -, hwrote, hlen⟩ := @F64toa_wrote flags o out fp hfin
  refine ⟨I, f, e, hft, hwrote, hlen, fun F pf s u p len hin => ?_⟩
  have hsign : signText fp = [] ∨ signText fp = [Ch.minus] := by
    unfold signText
    split
    · exact .inr rfl
    · exact .inl rfl
  exact parseNumber_floating hsign hft.int hft.frac hft.exp hft.floating hin

/-- `-1.5`. -/
theorem F64toa_exact_negative :
    ∃ I f e, FloatText I f e (printedValue kSerializeDefault 0xBFF8000000000000#64) ∧
    (F64toa kSerializeDefault ⟨fun _ => 0, 0⟩ 0 0xBFF8000000000000#64).2 =
    (signText 0xBFF8000000000000#64 ++ (I ++ (f ++ e))).length := by
  obtain ⟨I, f, e, hft, -, hlen, -⟩ :=
    F64toa_exact kSerializeDefault ⟨fun _ => 0, 0⟩ 0 0xBFF8000000000000#64 (by decide)
  exact ⟨I, f, e, hft, hlen⟩

end Ftoa

end SonicJson
