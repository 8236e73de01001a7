/-
# Digits on ARM and RISC-V

NEON splits eight digits with the reciprocals of SSE, but takes the two pieces of four by
a division; RISC-V divides throughout. `U64toa` and `I64toa` write the same text with all
of them (`Printer.U64toa_text`). SVE2 counts the digits of a vector by a table lookup and
multiplies them with the powers of ten (`sve2_128.simd_str2int_run`): a fraction comes to
the same mantissa (`sve2_128.fractDigits_eq`).
-/
import SonicJson.Itoa
import SonicJson.Lib.Lanes
import SonicJson.Str2int

namespace SonicJson

open RawBuffer

namespace Itoa

/-! ### NEON -/

namespace neon

/-- A word of four equal lanes. -/
def vdup_n_u16 (v : ℕ) : ℕ := join16 v v v v

/-- Four products of 32 bits. -/
def vmull_u16 (a b : ℕ) : M128 :=
  ⟨join32 (lane16 a 0 * lane16 b 0) (lane16 a 1 * lane16 b 1),
    join32 (lane16 a 2 * lane16 b 2) (lane16 a 3 * lane16 b 3)⟩

/-- Four lanes of 32 bits, shifted and narrowed. -/
def vshrn_n_u32 (v : M128) (n : ℕ) : ℕ :=
  join16 (lane32 v.lo 0 / 2 ^ n % 2 ^ 16) (lane32 v.lo 1 / 2 ^ n % 2 ^ 16)
    (lane32 v.hi 0 / 2 ^ n % 2 ^ 16) (lane32 v.hi 1 / 2 ^ n % 2 ^ 16)

/-- The odd lanes of both. -/
def vuzp2q_u16 (a b : M128) : M128 :=
  ⟨join16 (lane16 a.lo 1) (lane16 a.lo 3) (lane16 a.hi 1) (lane16 a.hi 3),
    join16 (lane16 b.lo 1) (lane16 b.lo 3) (lane16 b.hi 1) (lane16 b.hi 3)⟩

/-- The fronts of a number below 10 ^ 4, in the odd lanes. -/
def Utoa_4_helper (num : ℕ) : M128 :=
  let v := num * 4 % 2 ^ 16
  let v01 := vmull_u16 (vdup_n_u16 v) 0x80003334147b20c5
  let v02 := vshrn_n_u32 v01 16
  vmull_u16 v02 0x8000200008000080

/-- The digits of a number below 10 ^ 8, one in each lane. -/
def UtoaNeon (num : ℕ) : M128 :=
  let hi := num % 10000 % 2 ^ 16
  let lo := num / 10000 % 2 ^ 16
  let v10 := vuzp2q_u16 (Utoa_4_helper lo) (Utoa_4_helper hi)
  let v11 := mullo_epi16 v10 ⟨join16 10 10 10 10, join16 10 10 10 10⟩
  let v12 := slli_epi64 v11 16
  sub_epi16 v10 v12

/-- `vqmovun_s16` of both halves is the saturating pack of SSE. -/
def Utoa_8 (val : ℕ) (out : Out) (i : ℕ) : Out × ℕ :=
  let v0 := UtoaNeon val
  (out.put i (ascii (packus_epi16 v0 ⟨0, 0⟩)), i + 8)

/-- Sixteen digits. -/
def Utoa_16 (val : ℕ) (out : Out) (i : ℕ) : Out × ℕ :=
  let v0 := UtoaNeon (val / 100000000 % 2 ^ 32)
  let v1 := UtoaNeon (val % 100000000)
  (out.put i (ascii (packus_epi16 v0 v1)), i + 16)

/-- Four digits: the fronts of the number. -/
theorem Utoa_4_helper_odd {x : ℕ} (hx : x < 10000) :
    join16 (lane16 (Utoa_4_helper x).lo 1) (lane16 (Utoa_4_helper x).lo 3)
      (lane16 (Utoa_4_helper x).hi 1)
      (lane16 (Utoa_4_helper x).hi 3) = join16 (x / 1000) (x / 100) (x / 10) x := by
  obtain ⟨r1, r2, r3, r4⟩ := reciprocals hx
  have hdiv : (0x80003334147b20c5 : ℕ) = join16 0x20c5 0x147b 0x3334 0x8000 := by decide
  have hshift : (0x8000200008000080 : ℕ) = join16 0x0080 0x0800 0x2000 0x8000 := by decide
  have hv : x * 4 % 2 ^ 16 = 4 * x := by omega
  have hlow : ∀ c < 2 ^ 16, 4 * x * c / 2 ^ 16 % 2 ^ 16 = 4 * x * c / 2 ^ 16 := by
    intro c hc
    apply Nat.mod_eq_of_lt
    rw [Nat.div_lt_iff_lt_mul (by decide)]
    have : 4 * x * c ≤ 40000 * c := Nat.mul_le_mul_right c (by omega)
    omega
  -- a product of 32 bits, its upper half
  have hlane : ∀ {p q : ℕ}, p < 2 ^ 32 → q < 2 ^ 32 → lane32 (join32 p q) 0 = p ∧
      lane32 (join32 p q) 1 = q ∧
      lane16 (join32 p q) 1 = p / 2 ^ 16 ∧ lane16 (join32 p q) 3 = q / 2 ^ 16 := by
    intro p q hp hq
    unfold lane32 lane16 join32
    omega
  obtain ⟨a0, a1, a2, a3⟩ :=
    @lane16_join16 (4 * x) (4 * x) (4 * x) (4 * x) (by omega) (by omega) (by omega) (by omega)
  obtain ⟨b0, b1, b2, b3⟩ :=
    @lane16_join16 0x20c5 0x147b 0x3334 0x8000 (by decide) (by decide) (by decide) (by decide)
  obtain ⟨c0, c1, c2, c3⟩ :=
    @lane16_join16 0x0080 0x0800 0x2000 0x8000 (by decide) (by decide) (by decide) (by decide)
  obtain ⟨h0, h1, -, -⟩ := @hlane (4 * x * 0x20c5) (4 * x * 0x147b) (by omega) (by omega)
  obtain ⟨h2, h3, -, -⟩ := @hlane (4 * x * 0x3334) (4 * x * 0x8000) (by omega) (by omega)
  obtain ⟨d0, d1, d2, d3⟩ :=
    @lane16_join16 (4 * x * 0x20c5 / 2 ^ 16) (4 * x * 0x147b / 2 ^ 16) (4 * x * 0x3334 / 2 ^ 16)
    (4 * x * 0x8000 / 2 ^ 16) (by omega) (by omega) (by omega) (by omega)
  obtain ⟨-, -, e0, e1⟩ :=
    @hlane (4 * x * 0x20c5 / 2 ^ 16 * 0x0080) (4 * x * 0x147b / 2 ^ 16 * 0x0800) (by omega)
    (by omega)
  obtain ⟨-, -, e2, e3⟩ :=
    @hlane (4 * x * 0x3334 / 2 ^ 16 * 0x2000) (4 * x * 0x8000 / 2 ^ 16 * 0x8000) (by omega)
    (by omega)
  unfold Utoa_4_helper vmull_u16 vshrn_n_u32 vdup_n_u16
  dsimp only
  rw [hv, hdiv, hshift, a0, a1, a2, a3, b0, b1, b2, b3, c0, c1, c2, c3, h0, h1, h2, h3,
    hlow _ (by decide), hlow _ (by decide), hlow _ (by decide), hlow _ (by decide), d0, d1, d2, d3,
    e0, e1, e2, e3, r1, r2, r3, r4]

/-- **The lanes of NEON** are those of SSE. -/
theorem UtoaNeon_eq {num : ℕ} (h : num < 10 ^ 8) : UtoaNeon num = UtoaSSE num := by
  have hA : num / 10000 < 10000 := by omega
  have hE : num % 10000 < 10000 := by omega
  have hdig : num / 10 ^ 7 = num / 10000 / 1000 ∧ num / 10 ^ 6 % 10 = num / 10000 / 100 % 10 ∧
      num / 10 ^ 5 % 10 = num / 10000 / 10 % 10 ∧ num / 10 ^ 4 % 10 = num / 10000 % 10 ∧
      num / 10 ^ 3 % 10 = num % 10000 / 1000 ∧ num / 10 ^ 2 % 10 = num % 10000 / 100 % 10 ∧
      num / 10 % 10 = num % 10000 / 10 % 10 ∧ num % 10 = num % 10000 % 10 := by omega
  -- four digits from the fronts of a number
  have hfour : ∀ {x : ℕ}, x < 10000 →
      zip16 (fun x y => (x + 2 ^ 16 - y) % 2 ^ 16) (join16 (x / 1000) (x / 100) (x / 10) x)
        (zip16 (fun x y => x * y % 2 ^ 16) (join16 (x / 1000) (x / 100) (x / 10) x)
          (join16 10 10 10 10) * 2 ^ 16 % 2 ^ 64) =
      join16 (x / 1000) (x / 100 % 10) (x / 10 % 10) (x % 10) := by
    intro x hx
    have h2 : x / 100 - x / 1000 * 10 % 2 ^ 16 = x / 100 % 10 := by omega
    have h3 : x / 10 - x / 100 * 10 % 2 ^ 16 = x / 10 % 10 := by omega
    have h4 : x - x / 10 * 10 % 2 ^ 16 = x % 10 := by omega
    rw [zip16_join16 _ (by omega) (by omega) (by omega) (by omega) (by omega) (by omega) (by omega)
      (by omega), join16_shift (by omega) (by omega) (by omega),
      zip16_join16 _ (by omega) (by omega) (by omega) (by omega) (by omega) (by omega) (by omega)
        (by omega)]
    rw [sub_lane (by omega) (by omega), sub_lane (by omega) (by omega),
      sub_lane (by omega) (by omega), sub_lane (by omega) (by omega)]
    rw [h2, h3, h4, Nat.sub_zero]
  rw [UtoaSSE_eq h, hdig.1, hdig.2.1, hdig.2.2.1, hdig.2.2.2.1, hdig.2.2.2.2.1, hdig.2.2.2.2.2.1,
    hdig.2.2.2.2.2.2.1, hdig.2.2.2.2.2.2.2]
  unfold UtoaNeon
  dsimp only
  rw [Nat.mod_eq_of_lt (show num % 10000 < 2 ^ 16 by omega),
    Nat.mod_eq_of_lt (show num / 10000 < 2 ^ 16 by omega)]
  unfold vuzp2q_u16
  rw [Utoa_4_helper_odd hA, Utoa_4_helper_odd hE]
  unfold mullo_epi16 slli_epi64 sub_epi16
  dsimp only
  rw [M128.mk.injEq]
  exact ⟨hfour hA, hfour hE⟩

end neon

/-! ### RISC-V -/

namespace riscv

/-- Four digits by divisions. -/
def Utoa_4_helper_scalar (num : ℕ) : List ℕ :=
  [num / 1000 % 10, num / 100 % 10, num / 10 % 10, num % 10]

/-- Eight digits by divisions. -/
def Utoa_Scalar (num : ℕ) : List ℕ :=
  let hi := num % 10000 % 2 ^ 16
  let lo := num / 10000 % 2 ^ 16
  Utoa_4_helper_scalar lo ++ Utoa_4_helper_scalar hi

/-- Eight digits, and no more bytes. -/
def Utoa_8 (val : ℕ) (out : Out) (i : ℕ) : Out × ℕ := (out.put i (ascii (Utoa_Scalar val)), i + 8)

/-- Sixteen digits in two stores. -/
def Utoa_16 (val : ℕ) (out : Out) (i : ℕ) : Out × ℕ :=
  let digits_hi := Utoa_Scalar (val / 100000000 % 2 ^ 32)
  let digits_lo := Utoa_Scalar (val % 100000000)
  ((out.put i (ascii digits_hi)).put (i + 8) (ascii digits_lo), i + 16)

theorem ascii_Utoa_Scalar {num : ℕ} (h : num < 10 ^ 8) : ascii (Utoa_Scalar num) = padded 8 num := by
  rw [← ascii_UtoaSSE h, UtoaSSE_digits h]
  have hsat : ∀ d, d < 10 → saturate d = d := by
    intro d hd
    unfold saturate
    rw [if_neg (by omega)]
    omega
  have hdig : num / 10 ^ 7 = num / 10000 / 1000 % 10 ∧ num / 10 ^ 6 % 10 = num / 10000 / 100 % 10 ∧
      num / 10 ^ 5 % 10 = num / 10000 / 10 % 10 ∧ num / 10 ^ 4 % 10 = num / 10000 % 10 ∧
      num / 10 ^ 3 % 10 = num % 10000 / 1000 % 10 ∧ num / 10 ^ 2 % 10 = num % 10000 / 100 % 10 ∧
      num / 10 % 10 = num % 10000 / 10 % 10 ∧ num % 10 = num % 10000 % 10 := by omega
  unfold Utoa_Scalar Utoa_4_helper_scalar
  dsimp only
  rw [Nat.mod_eq_of_lt (show num % 10000 < 2 ^ 16 by omega),
    Nat.mod_eq_of_lt (show num / 10000 < 2 ^ 16 by omega)]
  simp only [List.map_cons, List.map_nil, List.cons_append, List.nil_append]
  rw [hsat _ (by omega), hsat _ (by omega), hsat _ (by omega), hsat _ (by omega), hsat _ (by omega),
    hsat _ (by omega), hsat _ (by omega), hsat _ (by omega), hdig.1, hdig.2.1, hdig.2.2.1,
    hdig.2.2.2.1, hdig.2.2.2.2.1, hdig.2.2.2.2.2.1, hdig.2.2.2.2.2.2.1, hdig.2.2.2.2.2.2.2]

end riscv

/-! ### The numbers -/

namespace Printer

/-- NEON, and SVE2, which takes the same. -/
def neon : Printer := ⟨Itoa.neon.Utoa_8, Itoa.neon.Utoa_16⟩

/-- RISC-V. -/
def riscv : Printer := ⟨Itoa.riscv.Utoa_8, Itoa.riscv.Utoa_16⟩

theorem neon_pads : neon.Pads := by
  constructor
  · intro val out i h
    have hsse : Itoa.neon.Utoa_8 val out i = Itoa.Utoa_8 val out i := by
      unfold Itoa.neon.Utoa_8 Itoa.Utoa_8
      rw [Itoa.neon.UtoaNeon_eq h]
    have hw := Utoa_8_wrote out i h
    rw [← hsse] at hw
    exact hw
  · intro val out i h
    have hsse : Itoa.neon.Utoa_16 val out i = Itoa.Utoa_16 val out i := by
      unfold Itoa.neon.Utoa_16 Itoa.Utoa_16
      rw [Itoa.neon.UtoaNeon_eq (by omega), Itoa.neon.UtoaNeon_eq (by omega)]
    have hw := Utoa_16_wrote out i h
    rw [← hsse] at hw
    exact hw

theorem riscv_pads : riscv.Pads := by
  constructor
  · intro val out i h
    refine ⟨?_, rfl⟩
    show Wrote out (out.put i (ascii (Itoa.riscv.Utoa_Scalar val))) i (padded 8 val) 16
    rw [Itoa.riscv.ascii_Utoa_Scalar h]
    have := @put_wrote_all _ i out (padded 8 val)
    rw [padded_length] at this
    exact this.mono (by decide)
  · intro val out i h
    refine ⟨?_, rfl⟩
    show Wrote out (Itoa.riscv.Utoa_16 val out i).1 i (padded 16 val) 16
    have hhi := Itoa.riscv.ascii_Utoa_Scalar (show val / 100000000 % 2 ^ 32 < 10 ^ 8 by omega)
    have hlo := Itoa.riscv.ascii_Utoa_Scalar (show val % 100000000 < 10 ^ 8 by omega)
    have hput := out.put_put (i := i) (padded 8 (val / 100000000 % 2 ^ 32)) (padded 8 (val % 100000000))
    have hdiv : val / 100000000 % 2 ^ 32 = val / 10 ^ 8 := by omega
    have hmod : padded 8 (val % 10 ^ 8) = padded 8 val := padded_mod le_rfl
    have htext : padded 16 val = padded 8 (val / 10 ^ 8) ++ padded 8 val := padded_add 8 8 val
    unfold Itoa.riscv.Utoa_16
    dsimp only
    rw [padded_length] at hput
    rw [hhi, hlo, hput, hdiv, show (100000000 : ℕ) = 10 ^ 8 from rfl, hmod, ← htext]
    have := @put_wrote_all _ i out (padded 16 val)
    rw [padded_length] at this
    exact this

/-- **All the printers** write the number in decimal, with the sign in front and nothing outside of
their room, for every number of 64 bits. -/
theorem U64toa_text {P : Printer} (hP : P = neon ∨ P = riscv) (out : Out) (i : ℕ) :
    (∀ v < 2 ^ 64, ∃ t, Decimally t v ∧ Wrote out (P.U64toa out i v).1 i t 24 ∧
    (P.U64toa out i v).2 = i + t.length) ∧
      ∀ w : ℤ, -2 ^ 63 ≤ w → w < 2 ^ 63 → ∃ t, Decimally t w.natAbs ∧
        Wrote out (P.I64toa out i w).1 i (minusOf w ++ t) 25 ∧
          (P.I64toa out i w).2 = i + (minusOf w ++ t).length := by
  have hpads : P.Pads := by
    rcases hP with rfl | rfl
    · exact neon_pads
    · exact riscv_pads
  refine ⟨fun v hv => ?_, fun w hlo hhi => ?_⟩
  · obtain ⟨t, ht, -, hw, hend⟩ := hpads.U64toa_wrote out i hv
    exact ⟨t, ht, hw, hend⟩
  · obtain ⟨t, ht, -, hw, hend⟩ := hpads.I64toa_wrote out i hlo hhi
    exact ⟨t, ht, hw, hend⟩

/-- NEON prints `12345678901234567890` behind a dozen of bytes. -/
theorem U64toa_text_neon : ∃ t, Decimally t 12345678901234567890 ∧
    Wrote ⟨fun _ => 0, 12⟩ (neon.U64toa ⟨fun _ => 0, 12⟩ 12 12345678901234567890).1 12 t 24 :=
  have ⟨t, ht, hw, _⟩ :=
    (U64toa_text (.inl rfl) ⟨fun _ => 0, 12⟩ 12).1 12345678901234567890 (by norm_num)
  ⟨t, ht, hw⟩

end Printer

end Itoa

/-! ### SVE2 -/

namespace sve2_128

/-- Signed lanes of a vector. -/
abbrev Vec := ℕ → ℤ

/-- The weights of four digits, twice. -/
def d8d : Vec := fun k => [1000, 100, 10, 1, 1000, 100, 10, 1].getD k 0

/-- The weights of four digits, and nothing behind them. -/
def d4d : Vec := fun k => [1000, 100, 10, 1, 0, 0, 0, 0].getD k 0

/-- The weights of groups of four digits. -/
def d2d : Vec := fun k => [10000, 1, 100000000, 10000].getD k 0

/-- `"1234567890000000"`. -/
def ldigits : Bytes := [49, 50, 51, 52, 53, 54, 55, 56, 57, 48, 48, 48, 48, 48, 48, 48]

/-- The bytes before the first that is not in the table. -/
def digit_cnt (c : ℕ → UInt8) : ℕ := Bits.count (Bits.brkb fun k => !ldigits.contains (c k)) 16

/-- Lanes of 64 bits: four products each. -/
def svdot (a b : Vec) : Vec := fun k =>
  a (4 * k) * b (4 * k) + a (4 * k + 1) * b (4 * k + 1) + a (4 * k + 2) * b (4 * k + 2) +
    a (4 * k + 3) * b (4 * k + 3)

/-- Products lane by lane. -/
def svmul (a b : Vec) : Vec := fun k => a k * b k

/-- Sums lane by lane. -/
def svadd (a b : Vec) : Vec := fun k => a k + b k

/-- The sum of both lanes of 64 bits, as an unsigned word. -/
def svaddv (a : Vec) : ℕ := sse.word 64 (a 0 + a 1)

/-- `svsub_n_s8_x`. -/
def svsub (c : ℕ → UInt8) (n : ℕ) : Vec := fun k => sse.toS 8 (sse.word 8 ((c k).toNat - n))

/-- The lower eight bytes, widened. -/
def svunpklo (a : Vec) : Vec := a

/-- The upper eight bytes, widened. -/
def svunpkhi (a : Vec) : Vec := fun k => a (8 + k)

/-- Eight digits. -/
def simd_str2int_sve_8 (v : Vec) : ℕ := svaddv (svmul d2d (svdot d8d v))

/-- The lanes from `len` on of a vector of zeros, and `v` behind them. -/
def svsplice (len : ℕ) (v : Vec) : Vec := fun k => if 8 - len ≤ k then v (k - (8 - len)) else 0

/-- Fewer than eight digits, shifted behind zeros. -/
def simd_str2int_sve_l8 (v : Vec) (len : ℕ) : ℕ := simd_str2int_sve_8 (svsplice len v)

/-- Twelve digits in two vectors. -/
def simd_str2int_sve_12 (inlo inhi : Vec) : ℕ :=
  svaddv (svadd (svdot d4d inhi) (svmul (fun k => d2d (2 + k)) (svdot d8d inlo)))

/-- The `switch`. -/
def collect (v : Vec) (man_nd : ℕ) : ℕ :=
  if 1 ≤ man_nd ∧ man_nd ≤ 7 then simd_str2int_sve_l8 (svunpklo v) man_nd
  else if man_nd = 8 then simd_str2int_sve_8 (svunpklo v)
  else if man_nd = 12 then simd_str2int_sve_12 (svunpklo v) (svunpkhi v)
  else if 9 ≤ man_nd ∧ man_nd ≤ 15 then
    (simd_str2int_sve_8 (svunpklo v) * 10 ^ (man_nd - 8) +
    simd_str2int_sve_l8 (svunpkhi v) (man_nd - 8)) % 2 ^ 64
  else if man_nd = 16
    then (simd_str2int_sve_8 (svunpklo v) * 100000000 + simd_str2int_sve_8 (svunpkhi v)) % 2 ^ 64
  else 0

/-- The value, and what `man_nd` is then. -/
def simd_str2int (c : ℕ → UInt8) (man_nd : ℕ) : ℕ × ℕ :=
  let len := digit_cnt c
  let man_nd := if man_nd < len then man_nd else len
  (collect (svsub c 48) man_nd, man_nd)

section
variable {v : Vec} {d : ℕ → ℕ} {n : ℕ}

/-- Four lanes of digits. -/
theorem svdot_eq {a : Vec} {k : ℕ} (h : ∀ j, 4 * k ≤ j → j < 4 * k + 4 → v j = d j)
    (ha : a (4 * k) = 1000 ∧ a (4 * k + 1) = 100 ∧ a (4 * k + 2) = 10 ∧ a (4 * k + 3) = 1) :
    svdot a v k = (sse.horner (fun j => d (4 * k + j)) 4 : ℕ) := by
  unfold svdot
  rw [ha.1, ha.2.1, ha.2.2.1, ha.2.2.2, h _ (by omega) (by omega), h _ (by omega) (by omega),
    h _ (by omega) (by omega), h _ (by omega) (by omega), sse.horner_four d (4 * k)]
  push_cast
  ring

/-- Eight lanes. -/
theorem simd_str2int_sve_8_eq (h : ∀ j < 8, v j = d j) (h9 : ∀ j < 8, d j ≤ 9) :
    simd_str2int_sve_8 v = sse.horner d 8 := by
  have hlt := sse.horner_lt h9
  have h0 := @svdot_eq v d d8d 0 (fun j _ hj => h j (by omega)) (by decide)
  have h1 := @svdot_eq v d d8d 1 (fun j _ hj => h j (by omega)) (by decide)
  have hsplit := sse.horner_add d 4 4
  unfold simd_str2int_sve_8 svaddv svmul
  rw [h0, h1]
  refine sse.word_eq ?_ (by omega)
  have hfront : sse.horner (fun j => d (4 * 0 + j)) 4 = sse.horner d 4 :=
    sse.horner_congr fun j _ => by rw [Nat.mul_zero, Nat.zero_add]
  have hd2 : d2d 0 = 10000 ∧ d2d 1 = 1 := by decide
  rw [hfront, hd2.1, hd2.2, show (8 : ℕ) = 4 + 4 from rfl, hsplit]
  push_cast
  ring

/-- The first lanes, behind zeros. -/
theorem simd_str2int_sve_l8_eq (hn : n ≤ 8) (h : ∀ j < n, v j = d j) (h9 : ∀ j < n, d j ≤ 9) :
    simd_str2int_sve_l8 v n = sse.horner d n := by
  have hslli := sse.horner_slli d (8 - n) n
  rw [Nat.sub_add_cancel hn] at hslli
  rw [← hslli]
  refine simd_str2int_sve_8_eq (fun j hj => ?_) fun j hj => ?_
  · unfold svsplice sse.slli_si128
    split
    · exact h _ (by omega)
    · rfl
  · unfold sse.slli_si128
    split
    · exact h9 _ (by omega)
    · exact Nat.zero_le 9

/-- Twelve lanes: the last four of the second vector count for nothing. -/
theorem simd_str2int_sve_12_eq {w : Vec} (h : ∀ j < 8, v j = d j) (h' : ∀ j < 4, w j = d (8 + j))
    (h9 : ∀ j < 12, d j ≤ 9) :
    simd_str2int_sve_12 v w = sse.horner d 12 := by
  have hlt := sse.horner_lt h9
  have h0 := @svdot_eq v d d8d 0 (fun j _ hj => h j (by omega)) (by decide)
  have h1 := @svdot_eq v d d8d 1 (fun j _ hj => h j (by omega)) (by decide)
  have h2 := @svdot_eq w (fun j => d (8 + j)) d4d 0 (fun j _ hj => h' j (by omega)) (by decide)
  have h3 : svdot d4d w 1 = 0 := by
    have hz : d4d 4 = 0 ∧ d4d 5 = 0 ∧ d4d 6 = 0 ∧ d4d 7 = 0 := by decide
    unfold svdot
    norm_num [hz.1, hz.2.1, hz.2.2.1, hz.2.2.2]
  have hsplit := sse.horner_add d 8 4
  have hsplit' := sse.horner_add d 4 4
  have hfront : sse.horner (fun j => d (4 * 0 + j)) 4 = sse.horner d 4 :=
    sse.horner_congr fun j _ => by rw [Nat.mul_zero, Nat.zero_add]
  have hlast : sse.horner (fun j => d (8 + (4 * 0 + j))) 4 = sse.horner (fun j => d (8 + j)) 4 :=
    sse.horner_congr fun j _ => by rw [Nat.mul_zero, Nat.zero_add]
  have hd2 : d2d (2 + 0) = 100000000 ∧ d2d (2 + 1) = 10000 := by decide
  unfold simd_str2int_sve_12 svaddv svmul svadd
  refine sse.word_eq ?_ (by omega)
  dsimp only
  rw [h0, h1, h2, h3, hfront, hlast, hd2.1, hd2.2, show (12 : ℕ) = 8 + 4 from rfl, hsplit,
    show (8 : ℕ) = 4 + 4 from rfl, hsplit']
  push_cast
  ring

/-- **The lanes for each count** come to the number that the digits make. -/
theorem collect_eq (hn : n ≤ 16) (h : ∀ j < n, v j = d j) (h9 : ∀ j < n, d j ≤ 9) :
    collect v n = sse.horner d n := by
  have hlow : ∀ j < n, svunpklo v j = d j := h
  have hhigh : ∀ j < n - 8, svunpkhi v j = d (8 + j) := fun j hj => h (8 + j) (by omega)
  have hlt := sse.horner_lt h9
  -- eight digits, and the others
  have hsplit : 8 < n →
      sse.horner d n = sse.horner d 8 * 10 ^ (n - 8) + sse.horner (fun j => d (8 + j)) (n - 8) := by
    intro hlt8
    have := sse.horner_add d 8 (n - 8)
    rwa [Nat.add_sub_cancel' hlt8.le] at this
  have hpow : 10 ^ n ≤ 10 ^ 16 := Nat.pow_le_pow_right (by decide) hn
  unfold collect
  by_cases h7 : 1 ≤ n ∧ n ≤ 7
  · rw [if_pos h7]
    exact simd_str2int_sve_l8_eq (by omega) hlow h9
  rw [if_neg h7]
  by_cases h8 : n = 8
  · subst h8
    rw [if_pos rfl]
    exact simd_str2int_sve_8_eq hlow h9
  rw [if_neg h8]
  by_cases h12 : n = 12
  · subst h12
    rw [if_pos rfl]
    exact simd_str2int_sve_12_eq (fun j hj => hlow j (by omega)) hhigh h9
  rw [if_neg h12]
  by_cases h15 : 9 ≤ n ∧ n ≤ 15
  · rw [if_pos h15, simd_str2int_sve_8_eq (fun j hj => hlow j (by omega)) fun j hj => h9 j (by omega),
      simd_str2int_sve_l8_eq (by omega) hhigh fun j hj => h9 (8 + j) (by omega), ← hsplit (by omega)]
    exact Nat.mod_eq_of_lt (by omega)
  rw [if_neg h15]
  by_cases h16 : n = 16
  · subst h16
    rw [if_pos rfl, simd_str2int_sve_8_eq (fun j hj => hlow j (by omega)) fun j hj => h9 j (by omega),
      simd_str2int_sve_8_eq (fun j hj => hhigh j (by omega)) fun j hj => h9 (8 + j) (by omega)]
    rw [show (100000000 : ℕ) = 10 ^ (16 - 8) by norm_num, ← hsplit (by omega)]
    exact Nat.mod_eq_of_lt (by omega)
  · obtain rfl : n = 0 := by omega
    rw [if_neg h16]
    rfl

end

section
variable (c : ℕ → UInt8)

theorem ldigits_contains (x : UInt8) : ldigits.contains x = is_digit x := by
  have hall : ∀ n : Fin 256, ldigits.contains (UInt8.ofNat n) = is_digit (UInt8.ofNat n) := by
    decide +kernel
  have := hall ⟨x.toNat, x.toNat_lt⟩
  simpa only [UInt8.ofNat_toNat] using this

/-- **The vector version** reads the longest prefix of at most `n` and at most sixteen digits. -/
theorem simd_str2int_run (n : ℕ) :
    DigitRun c (min n 16) (simd_str2int c n).2 ∧
      (simd_str2int c n).1 = decimal (front c (simd_str2int c n).2) := by
  have hcnt : digit_cnt c = Bits.first (fun k => !is_digit (c k)) 16 := by
    unfold digit_cnt
    rw [Bits.count_brkb]
    simp only [ldigits_contains]
  have hle := Bits.first_le 16 fun k => !is_digit (c k)
  have hrun : DigitRun c 16 (digit_cnt c) := by
    rw [hcnt]
    refine ⟨hle, fun j hj => ?_, fun hlt => ?_⟩
    · simpa using Bits.lt_first 16 (fun k => !is_digit (c k)) j hj
    · simpa using Bits.first_spec 16 (fun k => !is_digit (c k)) hlt
  have hmin : DigitRun c (min n 16) (simd_str2int c n).2 := by
    have h1 := hrun.le
    unfold simd_str2int
    dsimp only
    split
    · exact ⟨by omega, fun j hj => hrun.digit j (by omega), fun h => by omega⟩
    · exact ⟨by omega, hrun.digit, fun h => hrun.stop (by omega)⟩
  refine ⟨hmin, ?_⟩
  have hval : (simd_str2int c n).1 = collect (svsub c 48) (simd_str2int c n).2 := rfl
  rw [hval]
  generalize (simd_str2int c n).2 = k at hmin
  have hk := hmin.le
  have h9 : ∀ j < k, (c j).toNat - 48 ≤ 9 := fun j hj => digit_le (hmin.digit j hj)
  have hlane : ∀ j < k, svsub c 48 j = ((c j).toNat - 48 : ℕ) := by
    intro j hj
    unfold svsub
    rw [sse.digit_lane (hmin.digit j hj), sse.toS_eq]
    have := h9 j hj
    omega
  rw [collect_eq (by omega) hlane h9, decimal_front]

/-- **The digits of a fraction** on SVE2 are those on x86: the same mantissa, count and position. -/
theorem fractDigits_eq (man man_nd i : ℕ) (h : man_nd < 17) :
    fractDigits simd_str2int c man man_nd i = fractDigits sse.simd_str2int c man man_nd i := by
  have hsve := simd_str2int_run (fun j => c (i + j)) (17 - man_nd)
  have hsse := sse.simd_str2int_run (fun j => c (i + j)) (17 - man_nd)
  obtain ⟨k, hk, he⟩ := fractDigits_run man i h (Nat.min_le_left _ 16) hsve.1 hsve.2
  obtain ⟨k', hk', he'⟩ := fractDigits_run man i h (Nat.min_le_left _ 16) hsse.1 hsse.2
  obtain rfl := hk.unique hk'
  exact he.trans he'.symm

/-- At the fraction of `1.25,`. -/
theorem fractDigits_eq_25 : fractDigits simd_str2int (rd [49, 46, 50, 53, 44]) 1 1 2 =
    fractDigits sse.simd_str2int (rd [49, 46, 50, 53, 44]) 1 1 2 :=
  fractDigits_eq (rd [49, 46, 50, 53, 44]) 1 1 2 (by decide)

end

end sve2_128

end SonicJson
