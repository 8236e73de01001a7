/-
# Printing integers

`U64toa` prints a number in pieces of up to eight digits: the first without leading zeros
through a table of two digits (`Utoa_1_8`), the others by a vector of eight lanes
(`UtoaSSE`) whose fixed-point reciprocals are exact for every piece (`UtoaSSE_digits`).
What is written is the number in decimal (`U64toa_wrote`, `I64toa_wrote`).
-/
import SonicJson.IntegerToken
import SonicJson.Lib.RawBuffer

namespace SonicJson

open RawBuffer

/-- The bytes from the pointer `out` on. -/
abbrev Out := Raw UInt8

namespace Itoa

/-! ### The vector -/

/-- A vector of 128 bits, as two words. -/
structure M128 where
  lo : ℕ
  hi : ℕ

/-- A lane of 32 bits. -/
def lane32 (w k : ℕ) : ℕ := w / 2 ^ (32 * k) % 2 ^ 32

/-- A word of two lanes. -/
def join32 (a b : ℕ) : ℕ := a + b * 2 ^ 32

/-- A lane of 16 bits. -/
def lane16 (w k : ℕ) : ℕ := w / 2 ^ (16 * k) % 2 ^ 16

/-- A word of four lanes. -/
def join16 (a b c d : ℕ) : ℕ := a + b * 2 ^ 16 + c * 2 ^ 32 + d * 2 ^ 48

/-- An operation on the lanes of 16 bits. -/
def zip16 (f : ℕ → ℕ → ℕ) (v w : ℕ) : ℕ :=
  join16 (f (lane16 v 0) (lane16 w 0)) (f (lane16 v 1) (lane16 w 1)) (f (lane16 v 2) (lane16 w 2))
    (f (lane16 v 3) (lane16 w 3))

/-- An operation on the lanes of 32 bits. -/
def zip32 (f : ℕ → ℕ → ℕ) (v w : ℕ) : ℕ := join32 (f (lane32 v 0) (lane32 w 0))
    (f (lane32 v 1) (lane32 w 1))

/-- A number in the lowest lane. -/
def cvtsi32_si128 (num : ℕ) : M128 := ⟨num % 2 ^ 32, 0⟩

/-- The products of the even lanes, of 64 bits. -/
def mul_epu32 (a b : M128) : M128 := ⟨lane32 a.lo 0 * lane32 b.lo 0, lane32 a.hi 0 * lane32 b.hi 0⟩

/-- Both words shifted down. -/
def srli_epi64 (a : M128) (n : ℕ) : M128 := ⟨a.lo / 2 ^ n, a.hi / 2 ^ n⟩

/-- Both words shifted up. -/
def slli_epi64 (a : M128) (n : ℕ) : M128 := ⟨a.lo * 2 ^ n % 2 ^ 64, a.hi * 2 ^ n % 2 ^ 64⟩

/-- The differences of the lanes of 32 bits. -/
def sub_epi32 (a b : M128) : M128 :=
  ⟨zip32 (fun x y => (x + 2 ^ 32 - y) % 2 ^ 32) a.lo b.lo,
    zip32 (fun x y => (x + 2 ^ 32 - y) % 2 ^ 32) a.hi b.hi⟩

/-- The differences of the lanes of 16 bits. -/
def sub_epi16 (a b : M128) : M128 :=
  ⟨zip16 (fun x y => (x + 2 ^ 16 - y) % 2 ^ 16) a.lo b.lo,
    zip16 (fun x y => (x + 2 ^ 16 - y) % 2 ^ 16) a.hi b.hi⟩

/-- The upper halves of the products. -/
def mulhi_epu16 (a b : M128) : M128 := ⟨zip16 (fun x y => x * y / 2 ^ 16) a.lo b.lo,
    zip16 (fun x y => x * y / 2 ^ 16) a.hi b.hi⟩

/-- The lower halves of the products. -/
def mullo_epi16 (a b : M128) : M128 :=
  ⟨zip16 (fun x y => x * y % 2 ^ 16) a.lo b.lo, zip16 (fun x y => x * y % 2 ^ 16) a.hi b.hi⟩

/-- The lower lanes of both, in turn. -/
def unpacklo_epi16 (a b : M128) : M128 :=
  ⟨join16 (lane16 a.lo 0) (lane16 b.lo 0) (lane16 a.lo 1) (lane16 b.lo 1),
    join16 (lane16 a.lo 2) (lane16 b.lo 2) (lane16 a.lo 3) (lane16 b.lo 3)⟩

/-- The lower lanes of 32 bits of both, in turn. -/
def unpacklo_epi32 (a b : M128) : M128 :=
  ⟨join32 (lane32 a.lo 0) (lane32 b.lo 0), join32 (lane32 a.lo 1) (lane32 b.lo 1)⟩

/-- The eight lanes, the first one lowest. -/
def lanes (a : M128) : List ℕ :=
  [lane16 a.lo 0, lane16 a.lo 1, lane16 a.lo 2, lane16 a.lo 3, lane16 a.hi 0, lane16 a.hi 1,
    lane16 a.hi 2, lane16 a.hi 3]

/-- A signed lane as a byte, with saturation. -/
def saturate (x : ℕ) : ℕ := if 2 ^ 15 ≤ x then 0 else min x 255

/-- The lanes of both as bytes. -/
def packus_epi16 (a b : M128) : List ℕ := (lanes a ++ lanes b).map saturate

/-- Reciprocals of 1000, 100, 10 and 1. -/
def kVecDivPowers : ℕ := join16 0x20c5 0x147b 0x3334 0x8000

/-- The shifts that go with them, as factors. -/
def kVecShiftPowers : ℕ := join16 0x0080 0x0800 0x2000 0x8000

/-- The digits of a number below 10 ^ 8, one in each lane. -/
def UtoaSSE (num : ℕ) : M128 :=
  let v00 := cvtsi32_si128 num
  let v01 := mul_epu32 v00 ⟨join32 0xd1b71759 0xd1b71759, join32 0xd1b71759 0xd1b71759⟩
  let v02 := srli_epi64 v01 45
  let v03 := mul_epu32 v02 ⟨join32 10000 10000, join32 10000 10000⟩
  let v04 := sub_epi32 v00 v03
  let v05 := unpacklo_epi16 v02 v04
  let v06 := slli_epi64 v05 2
  let v07 := unpacklo_epi16 v06 v06
  let v08 := unpacklo_epi32 v07 v07
  let v09 := mulhi_epu16 v08 ⟨kVecDivPowers, kVecDivPowers⟩
  let v10 := mulhi_epu16 v09 ⟨kVecShiftPowers, kVecShiftPowers⟩
  let v11 := mullo_epi16 v10 ⟨join16 10 10 10 10, join16 10 10 10 10⟩
  let v12 := slli_epi64 v11 16
  sub_epi16 v10 v12

/-- The bytes with `'0'` added. -/
def ascii (ds : List ℕ) : Bytes := ds.map fun d => UInt8.ofNat d + Ch.zero

/-- Eight digits; sixteen bytes are stored. -/
def Utoa_8 (val : ℕ) (out : Out) (i : ℕ) : Out × ℕ :=
  let v0 := UtoaSSE val
  (out.put i (ascii (packus_epi16 v0 ⟨0, 0⟩)), i + 8)

/-- Sixteen digits. -/
def Utoa_16 (val : ℕ) (out : Out) (i : ℕ) : Out × ℕ :=
  let v0 := UtoaSSE (val / 100000000 % 2 ^ 32)
  let v1 := UtoaSSE (val % 100000000)
  (out.put i (ascii (packus_epi16 v0 v1)), i + 16)

/-! ### The table of two digits -/

/-- The table of the numbers below 100, two digits each. -/
def kDigitRows : List String :=
  ["00010203040506070809",
    "10111213141516171819",
    "20212223242526272829",
    "30313233343536373839",
    "40414243444546474849",
    "50515253545556575859",
    "60616263646566676869",
    "70717273747576777879",
    "80818283848586878889",
    "90919293949596979899"]

/-- A byte of the table. -/
def kDigits (n : ℕ) : UInt8 :=
  (kDigitRows.flatMap fun row => row.toList.map fun c => UInt8.ofNat c.toNat).getD n 0

/-- Two bytes of the table. -/
def Copy2Digs (out : Out) (dst src : ℕ) : Out := (out.put dst [kDigits src]).put (dst + 1)
    [kDigits (src + 1)]

/-- A number below 10 ^ 8 without leading zeros, by the table. -/
def Utoa_1_8 (out : Out) (i val : ℕ) : Out × ℕ :=
  if val < 100 then
    let lz := if val < 10 then 1 else 0
    (Copy2Digs out i (val * 2 + lz), i + 2 - lz)
  else if val < 10000 then
    let hi := val / 100
    let lo := val % 100
    let lz := if hi < 10 then 1 else 0
    let out := Copy2Digs out i (hi * 2 + lz)
    let i := i + (2 - lz)
    (Copy2Digs out i (lo * 2), i + 2)
  else if val < 1000000 then
    let hi := val / 10000
    let lo := val % 10000
    let lz := if hi < 10 then 1 else 0
    let out := Copy2Digs out i (hi * 2 + lz)
    let i := i + (2 - lz)
    let a := lo / 100
    let b := lo % 100
    let out := Copy2Digs out i (a * 2)
    (Copy2Digs out (i + 2) (b * 2), i + 4)
  else
    let hi := val / 10000
    let lo := val % 10000
    let a := hi / 100
    let b := hi % 100
    let c := lo / 100
    let d := lo % 100
    let lz := if a < 10 then 1 else 0
    let out := Copy2Digs out i (a * 2 + lz)
    let i := i + (2 - lz)
    let out := Copy2Digs out i (b * 2)
    let out := Copy2Digs out (i + 2) (c * 2)
    (Copy2Digs out (i + 4) (d * 2), i + 6)

/-! ### The integers -/

/-- What an instruction set brings along: its printers of eight and of sixteen digits. -/
structure Printer where
  Utoa_8 : ℕ → Out → ℕ → Out × ℕ
  Utoa_16 : ℕ → Out → ℕ → Out × ℕ

namespace Printer

/-- The vectors of SSE, which AVX2 takes too. -/
def sse : Printer := ⟨Itoa.Utoa_8, Itoa.Utoa_16⟩

variable (P : Printer)

/-- At most four digits by the table, and sixteen. -/
def U64toa_17_20 (out : Out) (i val : ℕ) : Out × ℕ :=
  let lo := val % 10000000000000000
  let hi := val / 10000000000000000 % 2 ^ 32
  let (out, i) :=
    if hi < 100 then
      let lz := if hi < 10 then 1 else 0
      (Copy2Digs out i (hi * 2 + lz), i + (2 - lz))
    else if hi < 10000 then
      let aa := hi / 100
      let bb := hi % 100
      let lz := if aa < 10 then 1 else 0
      let out := Copy2Digs out i (aa * 2 + lz)
      let i := i + (2 - lz)
      (Copy2Digs out i (bb * 2), i + 2)
    else (out, i)
  P.Utoa_16 lo out i

/-- A number by its size: the table, the table and eight digits, or more. -/
def U64toa (out : Out) (i val : ℕ) : Out × ℕ :=
  if val < 100000000 then Utoa_1_8 out i val
  else if val < 10000000000000000 then
    let hi := val / 100000000 % 2 ^ 32
    let lo := val % 100000000 % 2 ^ 32
    let (out, i) := Utoa_1_8 out i hi
    P.Utoa_8 lo out i
  else P.U64toa_17_20 out i val

/-- The sign is always written, and kept if the number is negative; `0 - uval` is on 64 bits. -/
def I64toa (out : Out) (buf : ℕ) (val : ℤ) : Out × ℕ :=
  let neg := if val < 0 then 1 else 0
  let out := out.put buf [Ch.minus]
  let uval := (val % 2 ^ 64).toNat
  let abs_val := if val < 0 then (2 ^ 64 - uval) % 2 ^ 64 else uval
  P.U64toa out (buf + neg) abs_val

end Printer

/-- `U64toa_17_20` on x86. -/
def U64toa_17_20 (out : Out) (i val : ℕ) : Out × ℕ := Printer.sse.U64toa_17_20 out i val

/-- `U64toa` on x86. -/
def U64toa (out : Out) (i val : ℕ) : Out × ℕ := Printer.sse.U64toa out i val

/-- `I64toa` on x86. -/
def I64toa (out : Out) (buf : ℕ) (val : ℤ) : Out × ℕ := Printer.sse.I64toa out buf val

end Itoa

/-! ### Digits of a fixed width -/

/-- `'0' + d`. -/
def asciiDigit (d : ℕ) : UInt8 := UInt8.ofNat (48 + d)

/-- The last `n` digits of `v`. -/
def padded : ℕ → ℕ → Bytes
  | 0, _ => []
  | n + 1, v => padded n (v / 10) ++ [asciiDigit (v % 10)]

section
variable {n m v : ℕ}

@[simp] theorem padded_length (n v : ℕ) : (padded n v).length = n := by
  induction n generalizing v with
  | zero => rfl
  | succ n ih => rw [padded, List.length_append, ih, List.length_singleton]

theorem padded_zero (n : ℕ) : padded n 0 = List.replicate n Ch.zero := by
  induction n with
  | zero => rfl
  | succ n ih =>
    rw [padded, Nat.zero_div, ih, List.replicate_succ']
    rfl

/-- The front digits, and the others. -/
theorem padded_add (m n v : ℕ) : padded (m + n) v = padded m (v / 10 ^ n) ++ padded n v := by
  induction n generalizing v with
  | zero => simp [padded]
  | succ n ih =>
    rw [← Nat.add_assoc, padded, padded, ih, List.append_assoc, Nat.div_div_eq_div_mul, ← pow_succ']

theorem padded_mod (h : m ≤ n) : padded m (v % 10 ^ n) = padded m v := by
  induction m generalizing n v with
  | zero => rfl
  | succ m ih =>
    obtain ⟨n, rfl⟩ : ∃ n', n = n' + 1 := ⟨n - 1, by omega⟩
    have hdiv : v % 10 ^ (n + 1) / 10 = v / 10 % 10 ^ n := by rw [pow_succ', Nat.mod_mul_right_div_self]
    have hmod : v % 10 ^ (n + 1) % 10 = v % 10 := Nat.mod_mod_of_dvd _ (Dvd.intro_left _ rfl)
    rw [padded, padded, hdiv, hmod, ih (by omega)]

theorem asciiDigit_toNat {d : ℕ} (h : d < 10) : (asciiDigit d).toNat - 48 = d := by
  unfold asciiDigit
  rw [UInt8.toNat_ofNat_of_lt' (show 48 + d < 256 by omega)]
  omega

theorem is_digit_asciiDigit {d : ℕ} (h : d < 10) : is_digit (asciiDigit d) = true := by
  have : ∀ d < 10, is_digit (asciiDigit d) = true := by decide
  exact this d h

theorem padded_digits : ∀ d ∈ padded n v, is_digit d = true := by
  induction n generalizing v with
  | zero => exact fun _ h => absurd h List.not_mem_nil
  | succ n ih =>
    intro d hd
    rcases List.mem_append.mp hd with hd | hd
    · exact ih d hd
    · rw [List.mem_singleton.mp hd]
      exact is_digit_asciiDigit (Nat.mod_lt _ (by decide))

theorem decimal_padded (n v : ℕ) : decimal (padded n v) = v % 10 ^ n := by
  induction n generalizing v with
  | zero => rw [pow_zero, Nat.mod_one]; rfl
  | succ n ih =>
    have hlast : decimal [asciiDigit (v % 10)] = v % 10 := by
      rw [decimal_cons, asciiDigit_toNat (Nat.mod_lt _ (by decide))]
      simp [decimal]
    rw [padded, decimal_append, ih, hlast, List.length_singleton, pow_one, pow_succ', Nat.mod_mul]
    ring

/-- A text of digits without leading zeros, and its number. -/
structure Decimally (t : Bytes) (v : ℕ) : Prop where
  int : IntPart t
  value : decimal t = v

/-- A number with its own width. -/
theorem decimally_padded (h : v < 10 ^ (n + 1)) (hlead : 10 ^ n ≤ v ∨ n = 0) :
    Decimally (padded (n + 1) v) v := by
  refine ⟨?_, by rw [decimal_padded, Nat.mod_eq_of_lt h]⟩
  have hfront := padded_add 1 n v
  rw [Nat.add_comm 1 n] at hfront
  have hd : v / 10 ^ n < 10 := by
    rw [Nat.div_lt_iff_lt_mul (by positivity), ← pow_succ']
    exact h
  have hone : padded 1 (v / 10 ^ n) = [asciiDigit (v / 10 ^ n)] := by
    rw [padded, padded, List.nil_append, Nat.mod_eq_of_lt hd]
  rw [hone] at hfront
  rw [hfront]
  by_cases hz : v / 10 ^ n = 0
  · obtain rfl : n = 0 := by
      rcases hlead with hlead | hlead
      · have := Nat.div_pos hlead (by positivity)
        omega
      · exact hlead
    rw [hz]
    exact .zero
  · refine .pos (is_digit_asciiDigit hd) ?_ padded_digits
    have : ∀ d < 10, d ≠ 0 → asciiDigit d ≠ Ch.zero := by decide
    exact this _ hd hz

/-- Digits behind a number that is not zero. -/
theorem Decimally.append {t : Bytes} {hi : ℕ} (h : Decimally t hi) (h0 : hi ≠ 0) (n lo : ℕ)
    (hlo : lo < 10 ^ n) :
    Decimally (t ++ padded n lo) (hi * 10 ^ n + lo) := by
  refine ⟨?_, by rw [decimal_append, h.value, padded_length, decimal_padded, Nat.mod_eq_of_lt hlo]⟩
  have hv := h.value
  cases h.int with
  | zero => exact absurd hv.symm h0
  | pos hd hd0 hds =>
    rw [List.cons_append]
    refine .pos hd hd0 fun b hb => ?_
    rcases List.mem_append.mp hb with hb | hb
    exacts [hds b hb, padded_digits b hb]

end

namespace Itoa

/-! ### The digits of the vector -/

section
variable {a b c d a' b' c' d' : ℕ}

theorem lane16_join16 (ha : a < 2 ^ 16) (hb : b < 2 ^ 16) (hc : c < 2 ^ 16) (hd : d < 2 ^ 16) :
    lane16 (join16 a b c d) 0 = a ∧ lane16 (join16 a b c d) 1 = b ∧ lane16 (join16 a b c d) 2 = c ∧
      lane16 (join16 a b c d) 3 = d := by
  unfold lane16 join16
  omega

theorem lane32_join16 (ha : a < 2 ^ 16) (hb : b < 2 ^ 16) (hc : c < 2 ^ 16) (hd : d < 2 ^ 16) :
    lane32 (join16 a b c d) 0 = a + b * 2 ^ 16 ∧ lane32 (join16 a b c d) 1 = c + d * 2 ^ 16 := by
  unfold lane32 join16
  omega

theorem zip16_join16 (f : ℕ → ℕ → ℕ) (ha : a < 2 ^ 16) (hb : b < 2 ^ 16) (hc : c < 2 ^ 16)
    (hd : d < 2 ^ 16) (ha' : a' < 2 ^ 16) (hb' : b' < 2 ^ 16) (hc' : c' < 2 ^ 16)
    (hd' : d' < 2 ^ 16) :
    zip16 f (join16 a b c d) (join16 a' b' c' d') = join16 (f a a') (f b b') (f c c') (f d d') := by
  obtain ⟨h0, h1, h2, h3⟩ := lane16_join16 ha hb hc hd
  obtain ⟨h0', h1', h2', h3'⟩ := lane16_join16 ha' hb' hc' hd'
  unfold zip16
  rw [h0, h1, h2, h3, h0', h1', h2', h3']

/-- The lanes move up by one. -/
theorem join16_shift (ha : a < 2 ^ 16) (hb : b < 2 ^ 16) (hc : c < 2 ^ 16) :
    join16 a b c d * 2 ^ 16 % 2 ^ 64 = join16 0 a b c := by
  unfold join16
  omega

theorem sub_lane {x y : ℕ} (hx : x < 2 ^ 16) (hy : y ≤ x) : (x + 2 ^ 16 - y) % 2 ^ 16 = x - y := by
  rw [Nat.sub_add_comm hy, Nat.add_mod_right, Nat.mod_eq_of_lt (by omega)]

/-- The fixed-point reciprocals of the powers of ten. -/
theorem reciprocals {x : ℕ} (hx : x < 10000) :
    4 * x * 0x20c5 / 2 ^ 16 * 0x0080 / 2 ^ 16 = x / 1000 ∧
      4 * x * 0x147b / 2 ^ 16 * 0x0800 / 2 ^ 16 = x / 100 ∧
      4 * x * 0x3334 / 2 ^ 16 * 0x2000 / 2 ^ 16 = x / 10 ∧
        4 * x * 0x8000 / 2 ^ 16 * 0x8000 / 2 ^ 16 = x := by
  refine ⟨?_, ?_, ?_, ?_⟩ <;> omega

/-- A piece of four digits, in four lanes: the reciprocals are exact. -/
theorem four_digits {x : ℕ} (hx : x < 10000) :
    let v08 := join16 (4 * x) (4 * x) (4 * x) (4 * x)
    let v10 :=
      zip16 (fun x y => x * y / 2 ^ 16) (zip16 (fun x y => x * y / 2 ^ 16) v08 kVecDivPowers)
      kVecShiftPowers
    zip16 (fun x y => (x + 2 ^ 16 - y) % 2 ^ 16) v10
      (zip16 (fun x y => x * y % 2 ^ 16) v10 (join16 10 10 10 10) * 2 ^ 16 % 2 ^ 64) =
      join16 (x / 1000) (x / 100 % 10) (x / 10 % 10) (x % 10) := by
  dsimp only
  have h2 : x / 100 - x / 1000 * 10 % 2 ^ 16 = x / 100 % 10 := by omega
  have h3 : x / 10 - x / 100 * 10 % 2 ^ 16 = x / 10 % 10 := by omega
  have h4 : x - x / 10 * 10 % 2 ^ 16 = x % 10 := by omega
  have hdiv :
      zip16 (fun x y => x * y / 2 ^ 16)
      (zip16 (fun x y => x * y / 2 ^ 16) (join16 (4 * x) (4 * x) (4 * x) (4 * x))
      kVecDivPowers) kVecShiftPowers = join16 (x / 1000) (x / 100) (x / 10) x := by
    unfold kVecDivPowers kVecShiftPowers
    rw [zip16_join16 _ (by omega) (by omega) (by omega) (by omega) (by omega) (by omega) (by omega)
      (by omega), zip16_join16 _ (by omega) (by omega) (by omega) (by omega) (by omega) (by omega)
      (by omega) (by omega)]
    obtain ⟨h1, h2, h3, h4⟩ := reciprocals hx
    rw [h1, h2, h3, h4]
  rw [hdiv]
  clear hdiv
  rw [zip16_join16 _ (by omega) (by omega) (by omega) (by omega) (by omega) (by omega) (by omega)
    (by omega), join16_shift (by omega) (by omega) (by omega),
    zip16_join16 _ (by omega) (by omega) (by omega) (by omega) (by omega) (by omega) (by omega)
      (by omega)]
  rw [sub_lane (by omega) (by omega), sub_lane (by omega) (by omega),
    sub_lane (by omega) (by omega), sub_lane (by omega) (by omega)]
  rw [h2, h3, h4, Nat.sub_zero]

/-- **The lanes are the digits**, for every number of eight digits. -/
theorem UtoaSSE_eq {num : ℕ} (h : num < 10 ^ 8) :
    UtoaSSE num = ⟨join16 (num / 10 ^ 7) (num / 10 ^ 6 % 10) (num / 10 ^ 5 % 10) (num / 10 ^ 4 % 10),
      join16 (num / 10 ^ 3 % 10) (num / 10 ^ 2 % 10) (num / 10 % 10) (num % 10)⟩ := by
  have hA : num / 10000 < 10000 := by omega
  have hE : num % 10000 < 10000 := by omega
  -- the two pieces of four digits
  have h02 : srli_epi64 (mul_epu32 (cvtsi32_si128 num) ⟨join32 0xd1b71759 0xd1b71759,
      join32 0xd1b71759 0xd1b71759⟩) 45 =
      ⟨num / 10000, 0⟩ := by
    unfold srli_epi64 mul_epu32 cvtsi32_si128 lane32 join32
    rw [M128.mk.injEq]
    dsimp only
    omega
  have h04 :
      sub_epi32 (cvtsi32_si128 num)
      (mul_epu32 ⟨num / 10000, 0⟩ ⟨join32 10000 10000, join32 10000 10000⟩) =
      ⟨num % 10000, 0⟩ := by
    have hten : lane32 (join32 10000 10000) 0 = 10000 := by decide
    have hprod : lane32 (num / 10000) 0 * 10000 = num / 10000 * 10000 := by
      unfold lane32
      rw [Nat.mul_zero, pow_zero, Nat.div_one, Nat.mod_eq_of_lt (by omega)]
    have hle : num / 10000 * 10000 ≤ num := by omega
    have hsub : num - num / 10000 * 10000 = num % 10000 := by omega
    unfold sub_epi32 mul_epu32 cvtsi32_si128
    dsimp only
    rw [hten, hprod, ← hsub]
    obtain ⟨P, hP⟩ : ∃ P, P = num / 10000 * 10000 := ⟨_, rfl⟩
    rw [← hP] at hle ⊢
    have hlow : ∀ w, w < 2 ^ 32 → lane32 w 0 = w ∧ lane32 w 1 = 0 := by
      intro w hw
      unfold lane32
      rw [Nat.mul_zero, pow_zero, Nat.div_one, Nat.mod_eq_of_lt hw, Nat.mul_one, Nat.div_eq_of_lt hw]
      exact ⟨rfl, rfl⟩
    unfold zip32 join32
    rw [Nat.mod_eq_of_lt (show num < 2 ^ 32 by omega), (hlow num (by omega)).1,
      (hlow num (by omega)).2, (hlow P (by omega)).1, (hlow P (by omega)).2]
    dsimp only
    rw [Nat.sub_add_comm hle, Nat.add_mod_right, Nat.mod_eq_of_lt (by omega), M128.mk.injEq]
    have hzero : (0 + 2 ^ 32 - 0) % 2 ^ 32 = 0 := by decide
    rw [hzero, Nat.zero_mul, Nat.add_zero]
    exact ⟨rfl, by decide⟩
  unfold UtoaSSE
  dsimp only
  rw [h02, h04]
  have hdig : num / 10 ^ 7 = num / 10000 / 1000 ∧ num / 10 ^ 6 % 10 = num / 10000 / 100 % 10 ∧
      num / 10 ^ 5 % 10 = num / 10000 / 10 % 10 ∧ num / 10 ^ 4 % 10 = num / 10000 % 10 ∧
      num / 10 ^ 3 % 10 = num % 10000 / 1000 ∧ num / 10 ^ 2 % 10 = num % 10000 / 100 % 10 ∧
      num / 10 % 10 = num % 10000 / 10 % 10 ∧ num % 10 = num % 10000 % 10 := by omega
  rw [hdig.1, hdig.2.1, hdig.2.2.1, hdig.2.2.2.1, hdig.2.2.2.2.1, hdig.2.2.2.2.2.1,
    hdig.2.2.2.2.2.2.1, hdig.2.2.2.2.2.2.2]
  generalize num / 10000 = A at *
  generalize num % 10000 = E at *
  have h05 : unpacklo_epi16 ⟨A, 0⟩ ⟨E, 0⟩ = ⟨join16 A E 0 0, 0⟩ := by
    unfold unpacklo_epi16 lane16 join16
    rw [M128.mk.injEq]
    dsimp only
    omega
  have h06 : slli_epi64 ⟨join16 A E 0 0, 0⟩ 2 = ⟨join16 (4 * A) (4 * E) 0 0, 0⟩ := by
    unfold slli_epi64 join16
    rw [M128.mk.injEq]
    dsimp only
    omega
  have h07 : unpacklo_epi16 ⟨join16 (4 * A) (4 * E) 0 0, 0⟩ ⟨join16 (4 * A) (4 * E) 0 0, 0⟩ =
      ⟨join16 (4 * A) (4 * A) (4 * E) (4 * E), 0⟩ := by
    obtain ⟨h0, h1, h2, h3⟩ :=
      @lane16_join16 (4 * A) (4 * E) 0 0 (by omega) (by omega) (by omega) (by omega)
    unfold unpacklo_epi16
    dsimp only
    rw [h0, h1, h2, h3]
    rfl
  have h08 : unpacklo_epi32 ⟨join16 (4 * A) (4 * A) (4 * E) (4 * E), 0⟩
      ⟨join16 (4 * A) (4 * A) (4 * E) (4 * E), 0⟩ =
      ⟨join16 (4 * A) (4 * A) (4 * A) (4 * A), join16 (4 * E) (4 * E) (4 * E) (4 * E)⟩ := by
    obtain ⟨h0, h1⟩ :=
      @lane32_join16 (4 * A) (4 * A) (4 * E) (4 * E) (by omega) (by omega) (by omega) (by omega)
    unfold unpacklo_epi32 join32
    dsimp only
    rw [h0, h1, M128.mk.injEq]
    unfold join16
    omega
  rw [h05, h06, h07, h08]
  unfold mulhi_epu16 mullo_epi16 slli_epi64 sub_epi16
  dsimp only
  rw [M128.mk.injEq]
  exact ⟨four_digits hA, four_digits hE⟩

/-- The digits of a number, by division. -/
theorem UtoaSSE_digits {num : ℕ} (h : num < 10 ^ 8) :
    lanes (UtoaSSE num) = [num / 10 ^ 7, num / 10 ^ 6 % 10, num / 10 ^ 5 % 10, num / 10 ^ 4 % 10,
      num / 10 ^ 3 % 10, num / 10 ^ 2 % 10, num / 10 % 10, num % 10] := by
  rw [UtoaSSE_eq h]
  unfold lanes
  dsimp only
  obtain ⟨h0, h1, h2, h3⟩ :=
    @lane16_join16 (num / 10 ^ 7) (num / 10 ^ 6 % 10) (num / 10 ^ 5 % 10) (num / 10 ^ 4 % 10)
    (by omega) (by omega) (by omega) (by omega)
  obtain ⟨h4, h5, h6, h7⟩ :=
    @lane16_join16 (num / 10 ^ 3 % 10) (num / 10 ^ 2 % 10) (num / 10 % 10) (num % 10)
    (by omega) (by omega) (by omega) (by omega)
  rw [h0, h1, h2, h3, h4, h5, h6, h7]

theorem asciiDigit_saturate {d : ℕ} (h : d < 10) :
    UInt8.ofNat (saturate d) + Ch.zero = asciiDigit d := by
  have : ∀ d < 10, UInt8.ofNat (saturate d) + Ch.zero = asciiDigit d := by decide
  exact this d h

/-- The bytes of a vector of digits. -/
theorem ascii_UtoaSSE {num : ℕ} (h : num < 10 ^ 8) :
    ascii ((lanes (UtoaSSE num)).map saturate) = padded 8 num := by
  rw [UtoaSSE_digits h]
  unfold ascii
  simp only [List.map_cons, List.map_nil]
  rw [asciiDigit_saturate (by omega), asciiDigit_saturate (by omega),
    asciiDigit_saturate (by omega), asciiDigit_saturate (by omega),
    asciiDigit_saturate (by omega), asciiDigit_saturate (by omega), asciiDigit_saturate (by omega),
    asciiDigit_saturate (by omega)]
  simp only [padded, List.nil_append, List.cons_append, Nat.div_div_eq_div_mul]
  have h7 : num / 10 ^ 7 = num / 10 ^ 7 % 10 := by omega
  rw [h7]
  norm_num

end

/-! ### The pieces -/

section
variable {val : ℕ} (out : Out) (i : ℕ)

theorem Utoa_8_wrote (h : val < 10 ^ 8) :
    Wrote out (Utoa_8 val out i).1 i (padded 8 val) 16 ∧ (Utoa_8 val out i).2 = i + 8 := by
  have hbytes :
      ascii (packus_epi16 (UtoaSSE val) ⟨0, 0⟩) = padded 8 val ++ List.replicate 8 Ch.zero := by
    unfold packus_epi16
    rw [List.map_append, ← ascii_UtoaSSE h]
    unfold ascii
    rw [List.map_append]
    congr 1
  refine ⟨?_, rfl⟩
  unfold Utoa_8
  dsimp only
  rw [hbytes]
  have := @put_wrote _ i out (padded 8 val) (List.replicate 8 Ch.zero)
  rwa [List.length_append, padded_length, List.length_replicate] at this

theorem Utoa_16_wrote (h : val < 10 ^ 16) :
    Wrote out (Utoa_16 val out i).1 i (padded 16 val) 16 ∧ (Utoa_16 val out i).2 = i + 16 := by
  have h108 : (100000000 : ℕ) = 10 ^ 8 := by norm_num
  have hhi : val / 10 ^ 8 % 2 ^ 32 = val / 10 ^ 8 := by omega
  have hbytes : ascii (packus_epi16 (UtoaSSE (val / 10 ^ 8 % 2 ^ 32)) (UtoaSSE (val % 10 ^ 8))) =
      padded 16 val := by
    have hlo : padded 8 (val % 10 ^ 8) = padded 8 val := padded_mod le_rfl
    have hsplit := padded_add 8 8 val
    unfold packus_epi16
    rw [hhi, List.map_append, hsplit, ← hlo, ← @ascii_UtoaSSE (val / 10 ^ 8) (by omega),
      ← @ascii_UtoaSSE (val % 10 ^ 8) (by omega)]
    unfold ascii
    rw [List.map_append]
  refine ⟨?_, rfl⟩
  unfold Utoa_16
  dsimp only
  rw [h108, hbytes]
  have := @put_wrote_all _ i out (padded 16 val)
  rwa [padded_length] at this

theorem kDigitRows_eq : kDigitRows = (List.range 10).map fun a =>
    String.ofList ((List.range 10).flatMap fun b => [Char.ofNat (48 + a), Char.ofNat (48 + b)]) := rfl

theorem kDigits_eq (n : ℕ) :
    kDigits n = ((List.range 100).flatMap fun v => [asciiDigit (v / 10), asciiDigit (v % 10)]).getD
      n 0 := by
  unfold kDigits
  rw [kDigitRows_eq, List.flatMap_map]
  simp only [String.toList_ofList]
  exact congrArg (fun l : List UInt8 => l.getD n 0) (by decide +kernel)

/-- Two digits of the table. -/
theorem kDigits_pair {v : ℕ} (h : v < 100) :
    kDigits (v * 2) = asciiDigit (v / 10) ∧ kDigits (v * 2 + 1) = asciiDigit (v % 10) := by
  have hall : ∀ v < 100, ((List.range 100).flatMap fun v =>
      [asciiDigit (v / 10), asciiDigit (v % 10)]).getD (v * 2) 0 = asciiDigit (v / 10) ∧
      ((List.range 100).flatMap fun v => [asciiDigit (v / 10), asciiDigit (v % 10)]).getD
        (v * 2 + 1) 0 = asciiDigit (v % 10) := by
    decide +kernel
  rw [kDigits_eq, kDigits_eq]
  exact hall v h

theorem Copy2Digs_eq (src : ℕ) : Copy2Digs out i src = out.put i [kDigits src, kDigits (src + 1)] :=
  out.put_put [kDigits src] [kDigits (src + 1)]

theorem Copy2Digs_two {v : ℕ} (h : v < 100) : Wrote out (Copy2Digs out i (v * 2)) i (padded 2 v) 2 := by
  have htext : padded 2 v = [kDigits (v * 2), kDigits (v * 2 + 1)] := by
    rw [(kDigits_pair h).1, (kDigits_pair h).2]
    simp only [padded, List.nil_append, List.cons_append]
    rw [Nat.mod_eq_of_lt (by omega : v / 10 < 10)]
  rw [Copy2Digs_eq, htext]
  exact put_wrote_all out _

/-- Two digits without a leading zero: one digit is followed by the next byte of the table. -/
theorem Copy2Digs_lead {v : ℕ} (h : v < 100) :
    Wrote out (Copy2Digs out i (v * 2 + if v < 10 then 1 else 0)) i
      (padded (2 - if v < 10 then 1 else 0) v) 2 := by
  by_cases hv : v < 10
  · rw [if_pos hv, Copy2Digs_eq, (kDigits_pair h).2]
    have htext : padded (2 - 1) v = [asciiDigit (v % 10)] := rfl
    rw [htext]
    exact put_wrote out [asciiDigit (v % 10)] _
  · rw [if_neg hv]
    exact Copy2Digs_two out i h

/-- A leading pair without leading zeros, and `n` digits behind it, have the own width of the number. -/
theorem own_width {n v i r : ℕ} {o o' : Out} (hn : n ≤ 6) (h0 : 10 ^ n ≤ v) (h1 : v < 10 ^ n * 100)
    (h : Wrote o o' i (padded (2 - if v / 10 ^ n < 10 then 1 else 0) (v / 10 ^ n) ++ padded n v) r)
    (hr : r ≤ 8) :
    ∃ n', n' < 8 ∧ v < 10 ^ (n' + 1) ∧ (10 ^ n' ≤ v ∨ n' = 0) ∧ Wrote o o' i (padded (n' + 1) v) 8 ∧
      i + (2 - if v / 10 ^ n < 10 then 1 else 0) + n = i + (n' + 1) := by
  rw [← padded_add] at h
  by_cases hv : v / 10 ^ n < 10
  · rw [if_pos hv] at h ⊢
    rw [Nat.div_lt_iff_lt_mul (by positivity)] at hv
    refine ⟨n, by omega, by rw [pow_succ']; exact hv, .inl h0, ?_, by omega⟩
    rw [show n + 1 = 2 - 1 + n by omega]
    exact h.mono hr
  · rw [if_neg hv] at h ⊢
    rw [not_lt, Nat.le_div_iff_mul_le (by positivity)] at hv
    refine ⟨n + 1, by omega, by rw [pow_succ, pow_succ, mul_assoc]; exact h1,
      .inl (by rw [pow_succ']; exact hv), ?_, by omega⟩
    rw [show n + 1 + 1 = 2 - 0 + n by omega]
    exact h.mono hr

/-- Two more digits. -/
theorem Wrote.two_more {o o' : Out} {t : Bytes} {r j v : ℕ} (h : Wrote o o' i t r)
    (hj : i + t.length = j) (hv : v < 100) :
    Wrote o (Copy2Digs o' j (v * 2)) i (t ++ padded 2 v) (max r (t.length + 2)) := by
  subst hj
  exact h.append (Copy2Digs_two o' _ hv)

/-- Four digits by pairs. -/
theorem padded_four (v : ℕ) :
    padded 4 v = padded 2 (v % 10000 / 100) ++ padded 2 (v % 10000 % 100) := by
  have h4 : (10000 : ℕ) = 10 ^ 4 := by norm_num
  have h2 : (100 : ℕ) = 10 ^ 2 := by norm_num
  rw [h4, h2, padded_mod (le_refl 2), ← padded_add, padded_mod (le_refl 4)]

/-- The number with its own width, at most eight digits. -/
theorem Utoa_1_8_wrote (h : val < 10 ^ 8) : ∃ n, n < 8 ∧ val < 10 ^ (n + 1) ∧ (10 ^ n ≤ val ∨ n = 0) ∧
    Wrote out (Utoa_1_8 out i val).1 i (padded (n + 1) val) 8 ∧
      (Utoa_1_8 out i val).2 = i + (n + 1) := by
  have hw : ∀ v : ℕ, (2 - if v < 10 then 1 else 0 : ℕ) ≤ 2 := fun v => Nat.sub_le _ _
  unfold Utoa_1_8
  dsimp only
  by_cases h2 : val < 100
  · rw [if_pos h2]
    have hlead := (Copy2Digs_lead out i h2).mono (show 2 ≤ 8 by decide)
    by_cases h1 : val < 10
    · rw [if_pos h1] at hlead ⊢
      exact ⟨0, by omega, by omega, .inr rfl, hlead, rfl⟩
    · rw [if_neg h1] at hlead ⊢
      exact ⟨1, by omega, by omega, .inl (by omega), hlead, rfl⟩
  rw [if_neg h2]
  by_cases h4 : val < 10000
  · rw [if_pos h4]
    have hlead := Copy2Digs_lead out i (v := val / 10 ^ 2) (by omega)
    have h := Wrote.two_more i hlead (by rw [padded_length]) (v := val % 10 ^ 2) (by omega)
    rw [padded_mod (le_refl 2), padded_length] at h
    have := hw (val / 10 ^ 2)
    exact own_width (n := 2) (by decide) (by omega) (by omega) h (by omega)
  rw [if_neg h4]
  by_cases h6 : val < 1000000
  · rw [if_pos h6]
    have hlead := Copy2Digs_lead out i (v := val / 10 ^ 4) (by omega)
    have h := Wrote.two_more i hlead (by rw [padded_length]) (v := val % 10000 / 100) (by omega)
    have h :=
      Wrote.two_more i h (by rw [List.length_append, padded_length, padded_length, ← Nat.add_assoc])
      (v := val % 10000 % 100) (by omega)
    rw [List.append_assoc, ← padded_four] at h
    simp only [List.length_append, padded_length] at h
    have := hw (val / 10 ^ 4)
    exact own_width (n := 4) (by decide) (by omega) (by omega) h (by omega)
  · rw [if_neg h6]
    have hlead := Copy2Digs_lead out i (v := val / 10 ^ 6) (by omega)
    have h := Wrote.two_more i hlead (by rw [padded_length]) (v := val / 10000 % 100) (by omega)
    have h :=
      Wrote.two_more i h (by rw [List.length_append, padded_length, padded_length, ← Nat.add_assoc])
      (v := val % 10000 / 100) (by omega)
    have h := Wrote.two_more i h
      (by
        rw [List.length_append, List.length_append, padded_length, padded_length, padded_length,
          ← Nat.add_assoc, ← Nat.add_assoc])
      (v := val % 10000 % 100) (by omega)
    have htext : padded 6 val = padded 2 (val / 10000 % 100) ++
        (padded 2 (val % 10000 / 100) ++ padded 2 (val % 10000 % 100)) := by
      have h100 : (100 : ℕ) = 10 ^ 2 := by norm_num
      have h10000 : (10000 : ℕ) = 10 ^ 4 := by norm_num
      rw [← padded_four, padded_add 2 4, h100, h10000, padded_mod (le_refl 2)]
    have hdiv : val / 10 ^ 6 = val / 10000 / 100 := by omega
    rw [List.append_assoc, List.append_assoc, ← htext] at h
    simp only [List.length_append, padded_length] at h
    have := hw (val / 10 ^ 6)
    rw [← hdiv]
    exact own_width (n := 6) (by decide) (by omega) (by omega) h (by omega)

namespace Printer

variable {P : Printer}

/-- All eight and all sixteen digits are written, and sixteen bytes at most. -/
structure Pads (P : Printer) : Prop where
  eight : ∀ {val : ℕ} (out : Out) (i : ℕ), val < 10 ^ 8 →
    Wrote out (P.Utoa_8 val out i).1 i (padded 8 val) 16 ∧ (P.Utoa_8 val out i).2 = i + 8
  sixteen : ∀ {val : ℕ} (out : Out) (i : ℕ), val < 10 ^ 16 →
    Wrote out (P.Utoa_16 val out i).1 i (padded 16 val) 16 ∧ (P.Utoa_16 val out i).2 = i + 16

theorem sse_pads : sse.Pads := ⟨Utoa_8_wrote, Utoa_16_wrote⟩

/-- Up to four digits of `hi` by the table, and sixteen behind them. -/
theorem Pads.U64toa_17_20_wrote (hP : P.Pads) (h0 : 10 ^ 16 ≤ val) (h : val < 2 ^ 64) :
    ∃ t, Decimally t val ∧ t.length ≤ 20 ∧ Wrote out (P.U64toa_17_20 out i val).1 i t 20 ∧
      (P.U64toa_17_20 out i val).2 = i + t.length := by
  have h16 : (10000000000000000 : ℕ) = 10 ^ 16 := by norm_num
  have hhi : val / 10 ^ 16 % 2 ^ 32 = val / 10 ^ 16 := Nat.mod_eq_of_lt (by omega)
  have hlo : val % 10 ^ 16 < 10 ^ 16 := Nat.mod_lt _ (by positivity)
  have hval : val / 10 ^ 16 * 10 ^ 16 + val % 10 ^ 16 = val := by
    rw [Nat.mul_comm]
    exact Nat.div_add_mod val (10 ^ 16)
  have hpos : val / 10 ^ 16 ≠ 0 := by omega
  have hsmall : val / 10 ^ 16 < 1845 := by omega
  unfold U64toa_17_20
  dsimp only
  rw [h16, hhi]
  generalize val / 10 ^ 16 = hi at *
  generalize val % 10 ^ 16 = lo at *
  -- the text of `hi`, then the sixteen digits
  have hfinish : ∀ (o : Out) (n : ℕ), n < 4 → hi < 10 ^ (n + 1) → (10 ^ n ≤ hi ∨ n = 0) →
      Wrote out o i (padded (n + 1) hi) 4 → ∃ t, Decimally t val ∧ t.length ≤ 20 ∧
        Wrote out (P.Utoa_16 lo o (i + (n + 1))).1 i t 20 ∧
          (P.Utoa_16 lo o (i + (n + 1))).2 = i + t.length := by
    intro o n hn hlt hge hw
    obtain ⟨hw16, hend⟩ := hP.sixteen o (i + (n + 1)) hlo
    have hdec := (decimally_padded hlt hge).append hpos 16 lo hlo
    rw [hval] at hdec
    refine ⟨_, hdec, ?_, ?_, ?_⟩
    · rw [List.length_append, padded_length, padded_length]
      omega
    · rw [← padded_length (n + 1) hi] at hw16
      have := hw.append hw16
      rw [padded_length] at this
      exact this.mono (by omega)
    · rw [hend, List.length_append, padded_length, padded_length, Nat.add_assoc]
  by_cases h2 : hi < 100
  · rw [if_pos h2]
    have hlead := (Copy2Digs_lead out i h2).mono (show 2 ≤ 4 by decide)
    by_cases h1 : hi < 10
    · rw [if_pos h1] at hlead ⊢
      exact hfinish _ 0 (by decide) (by omega) (.inr rfl) hlead
    · rw [if_neg h1] at hlead ⊢
      exact hfinish _ 1 (by decide) (by omega) (.inl (by omega)) hlead
  · rw [if_neg h2, if_pos (by omega : hi < 10000)]
    have hlead := Copy2Digs_lead out i (v := hi / 10 ^ 2) (by omega)
    have hpair := Wrote.two_more i hlead (by rw [padded_length]) (v := hi % 10 ^ 2) (by omega)
    rw [padded_mod (le_refl 2), padded_length, ← padded_add] at hpair
    have hdiv : hi / 100 = hi / 10 ^ 2 := by norm_num
    have hmod : hi % 100 = hi % 10 ^ 2 := by norm_num
    rw [hdiv, hmod]
    dsimp only
    by_cases h3 : hi / 10 ^ 2 < 10
    · rw [if_pos h3] at hpair ⊢
      rw [Nat.add_assoc]
      exact hfinish _ 2 (by decide) (by omega) (.inl (by omega)) (hpair.mono (by decide))
    · rw [if_neg h3] at hpair ⊢
      rw [Nat.add_assoc]
      exact hfinish _ 3 (by decide) (by omega) (.inl (by omega)) (hpair.mono (by decide))

/-- **The number in decimal**, with room for twenty-four bytes. -/
theorem Pads.U64toa_wrote (hP : P.Pads) (h : val < 2 ^ 64) :
    ∃ t, Decimally t val ∧ t.length ≤ 20 ∧ Wrote out (P.U64toa out i val).1 i t 24 ∧
      (P.U64toa out i val).2 = i + t.length := by
  unfold U64toa
  have h8 : (100000000 : ℕ) = 10 ^ 8 := by norm_num
  have h16 : (10000000000000000 : ℕ) = 10 ^ 16 := by norm_num
  rw [h8, h16]
  by_cases hsmall : val < 10 ^ 8
  · rw [if_pos hsmall]
    obtain ⟨n, hn, hlt, hge, hw, hend⟩ := Utoa_1_8_wrote out i hsmall
    refine ⟨padded (n + 1) val, decimally_padded hlt hge, ?_, hw.mono (by decide), ?_⟩
    · rw [padded_length]
      omega
    · rw [hend, padded_length]
  rw [if_neg hsmall]
  by_cases hmid : val < 10 ^ 16
  · rw [if_pos hmid]
    have hhi : val / 10 ^ 8 % 2 ^ 32 = val / 10 ^ 8 := Nat.mod_eq_of_lt (by omega)
    have hlo : val % 10 ^ 8 < 10 ^ 8 := Nat.mod_lt _ (by positivity)
    have hlo' : val % 10 ^ 8 % 2 ^ 32 = val % 10 ^ 8 := Nat.mod_eq_of_lt (by omega)
    have hval : val / 10 ^ 8 * 10 ^ 8 + val % 10 ^ 8 = val := by
      rw [Nat.mul_comm]
      exact Nat.div_add_mod val (10 ^ 8)
    rw [hhi, hlo']
    obtain ⟨n, hn, hlt, hge, hw, hend⟩ := @Utoa_1_8_wrote (val / 10 ^ 8) out i (by omega)
    have hdec := (decimally_padded hlt hge).append (by omega) 8 _ hlo
    rw [hval] at hdec
    dsimp only
    rw [hend]
    obtain ⟨hw8, hend8⟩ := hP.eight (Utoa_1_8 out i (val / 10 ^ 8)).1 (i + (n + 1)) hlo
    refine ⟨_, hdec, ?_, ?_, ?_⟩
    · rw [List.length_append, padded_length, padded_length]
      omega
    · have hj : i + (n + 1) = i + (padded (n + 1) (val / 10 ^ 8)).length := by rw [padded_length]
      rw [hj] at hw8
      have := hw.append hw8
      rw [padded_length] at this
      exact this.mono (by omega)
    · rw [hend8, List.length_append, padded_length, padded_length, Nat.add_assoc]
  · rw [if_neg hmid]
    obtain ⟨t, ht, hlen, hw, hend⟩ := hP.U64toa_17_20_wrote out i (not_lt.mp hmid) h
    exact ⟨t, ht, hlen, hw.mono (by decide), hend⟩

end Printer

end

/-- The minus sign of a negative number. -/
def minusOf (w : ℤ) : Bytes := if w < 0 then [Ch.minus] else []

/-- **The sign, and the number in decimal.** The sign is always written, and overwritten again. -/
theorem Printer.Pads.I64toa_wrote {P : Printer} (hP : P.Pads) (out : Out) (i : ℕ) {w : ℤ}
    (hlo : -2 ^ 63 ≤ w) (hhi : w < 2 ^ 63) :
    ∃ t, Decimally t w.natAbs ∧ t.length ≤ 20 ∧ Wrote out (P.I64toa out i w).1 i (minusOf w ++ t) 25 ∧
      (P.I64toa out i w).2 = i + (minusOf w ++ t).length := by
  unfold Printer.I64toa minusOf
  dsimp only
  by_cases hw : w < 0
  · simp only [hw, if_true]
    have habs : (2 ^ 64 - (w % 2 ^ 64).toNat) % 2 ^ 64 = w.natAbs := by omega
    rw [habs]
    obtain ⟨t, ht, hlen, hwrote, hend⟩ :=
      hP.U64toa_wrote (out.put i [Ch.minus]) (i + 1) (show w.natAbs < 2 ^ 64 by omega)
    refine ⟨t, ht, hlen, (put_wrote_all out [Ch.minus]).append hwrote |>.mono ?_, ?_⟩
    · rw [List.length_singleton]
      decide
    · rw [hend, List.length_append, List.length_singleton, Nat.add_assoc]
  · simp only [hw, if_false]
    have habs : (w % 2 ^ 64).toNat = w.natAbs := by omega
    rw [habs, Nat.add_zero]
    obtain ⟨t, ht, hlen, hwrote, hend⟩ :=
      hP.U64toa_wrote (out.put i [Ch.minus]) i (show w.natAbs < 2 ^ 64 by omega)
    have hnil := put_wrote (i := i) out [] [Ch.minus]
    have := hnil.append hwrote
    exact ⟨t, ht, hlen,
      this.mono (by rw [List.nil_append, List.length_singleton, List.length_nil]; decide), hend⟩

theorem U64toa_wrote (out : Out) (i : ℕ) {val : ℕ} (h : val < 2 ^ 64) :
    ∃ t, Decimally t val ∧ t.length ≤ 20 ∧ Wrote out (U64toa out i val).1 i t 24 ∧
      (U64toa out i val).2 = i + t.length :=
  Printer.sse_pads.U64toa_wrote out i h

theorem I64toa_wrote (out : Out) (i : ℕ) {w : ℤ} (hlo : -2 ^ 63 ≤ w) (hhi : w < 2 ^ 63) :
    ∃ t, Decimally t w.natAbs ∧ t.length ≤ 20 ∧ Wrote out (I64toa out i w).1 i (minusOf w ++ t) 25 ∧
      (I64toa out i w).2 = i + (minusOf w ++ t).length :=
  Printer.sse_pads.I64toa_wrote out i hlo hhi

/-! ### The way back -/

/-- `GenericNode(int64_t)`: what is not negative is unsigned. -/
def int64Node (i : ℤ) : Scalar := if 0 ≤ i then .Uint i.toNat else .Int i

theorem intEvent_minusOf {w : ℤ} : intEvent (minusOf w) w.natAbs = int64Node w := by
  unfold intEvent minusOf int64Node
  by_cases hw : w < 0
  · have h0 : ¬ w.natAbs = 0 := by omega
    have hneg : ¬ 0 ≤ w := by omega
    have habs : -(w.natAbs : ℤ) = w := by omega
    simp only [hw, h0, hneg, habs, if_true, if_false, List.cons_ne_nil, or_self]
  · have h0 : 0 ≤ w := by omega
    have habs : w.natAbs = w.toNat := by omega
    simp only [hw, h0, habs, if_true, if_false, true_or]

theorem intInRange_minusOf {w : ℤ} (hlo : -2 ^ 63 ≤ w) (hhi : w < 2 ^ 63) :
    IntInRange (minusOf w) w.natAbs := by
  unfold IntInRange minusOf
  by_cases hw : w < 0
  · simp only [hw, if_true, List.cons_ne_nil, if_false]
    omega
  · simp only [hw, if_false, if_true]
    omega

/-- The number `t` at any place of a text is parsed as the node `v`. -/
def ParsedAs (flags : ParseFlags) (t : Bytes) (v : Scalar) : Prop :=
  ∀ (F : FloatConv) (s u : Bytes) (p len : ℕ), InText s p t u →
    parseNumber F flags s len (p + 1) = .event (p + t.length) v

/-- **Integers are printed in decimal and parsed as they were**, of both types, and the lanes
of the vector are the digits. -/
theorem itoa_inverted {flags : ParseFlags} (hraw : flags.kParseIntegerAsRaw = false)
    (out : Out) (i : ℕ) :
    (∀ v, v < 2 ^ 64 → ∃ t, Decimally t v ∧ Wrote out (U64toa out i v).1 i t 24 ∧
    (U64toa out i v).2 = i + t.length ∧
      ParsedAs flags t (.Uint v)) ∧
    (∀ w : ℤ, -2 ^ 63 ≤ w → w < 2 ^ 63 → ∃ t, Decimally t w.natAbs ∧
    Wrote out (I64toa out i w).1 i (minusOf w ++ t) 25 ∧
      (I64toa out i w).2 = i + (minusOf w ++ t).length ∧ ParsedAs flags (minusOf w ++ t)
        (int64Node w)) ∧
    ∀ num, num < 10 ^ 8 → lanes (UtoaSSE num) = [num / 10 ^ 7, num / 10 ^ 6 % 10, num / 10 ^ 5 % 10,
      num / 10 ^ 4 % 10, num / 10 ^ 3 % 10, num / 10 ^ 2 % 10, num / 10 % 10, num % 10] := by
  refine ⟨fun v hv => ?_, fun w hlo hhi => ?_, fun num hnum => UtoaSSE_digits hnum⟩
  · obtain ⟨t, ht, -, hwrote, hend⟩ := U64toa_wrote out i hv
    refine ⟨t, ht, hwrote, hend, fun F s u p len hin => ?_⟩
    have hrange : IntInRange [] (decimal t) := by
      rw [ht.value]
      exact hv
    have := @parseNumber_in_range F _ _ _ _ _ len _ (.inl rfl) ht.int hraw hin hrange
    rw [ht.value] at this
    exact this
  · obtain ⟨t, ht, -, hwrote, hend⟩ := I64toa_wrote out i hlo hhi
    refine ⟨t, ht, hwrote, hend, fun F s u p len hin => ?_⟩
    have hsign : minusOf w = [] ∨ minusOf w = [Ch.minus] := by
      unfold minusOf
      split
      · exact .inr rfl
      · exact .inl rfl
    have hrange : IntInRange (minusOf w) (decimal t) := by
      rw [ht.value]
      exact intInRange_minusOf hlo hhi
    have := @parseNumber_in_range F _ _ _ _ _ len _ hsign ht.int hraw hin hrange
    rw [ht.value, intEvent_minusOf] at this
    exact this

/-- The least number. -/
theorem itoa_inverted_least : ∃ t, Decimally t (2 ^ 63) ∧ ParsedAs kParseDefault (Ch.minus :: t)
    (.Int (-2 ^ 63)) := by
  obtain ⟨t, ht, -, -, hp⟩ :=
    (@itoa_inverted kParseDefault rfl ⟨fun _ => 0, 0⟩ 0).2.1 (-2 ^ 63) (by decide) (by decide)
  exact ⟨t, ht, hp⟩

end Itoa

end SonicJson
