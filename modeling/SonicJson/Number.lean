/-
# Numbers

`parseNumber` with its labels `double_fract`, `double_exp` and `double_fast`,
and `parseNumberAsString`. A loop `while (is_digit(s[i])) i++` is a pass over
`digitsAt s i`. The scanner decides where a number ends and whether it is one
of the integer types; the conversions to a double are the functions of a
`FloatConv`, called with the arguments of the source.
-/
import SonicJson.Grammar

namespace SonicJson

open Cursor

/-- The flags of `flags.h` that the parser reads. -/
structure ParseFlags where
  kParseAllowUnescapedControlChars : Bool
  kParseIntegerAsRaw : Bool
  kParseOverflowNumAsNumStr : Bool

/-- No flag is set. -/
def kParseDefault : ParseFlags := ⟨false, false, false⟩

/-- A `double`, by its bits. -/
abbrev Double := BitVec 64

/-- A size as an `int`. -/
def toInt32 (n : ℕ) : ℤ := (n : ℤ).bmod (2 ^ 32)

theorem toInt32_eq {n : ℕ} (h : n < 2 ^ 31) : toInt32 n = n := by
  unfold toInt32
  rw [Int.bmod_eq_of_le] <;> omega

theorem toInt32_lt (n : ℕ) : toInt32 n < 2 ^ 31 := by
  have := Int.bmod_lt (x := n) (m := 2 ^ 32) (by norm_num)
  unfold toInt32
  omega

/-- Where an `int` is too small, it is not positive. -/
theorem toInt32_nonpos {n : ℕ} (h : 2 ^ 31 ≤ n) (h' : n ≤ 2 ^ 32) : toInt32 n ≤ 0 := by
  unfold toInt32 Int.bmod
  dsimp only
  split <;> omega

/-- The conversions to a `double`: what each function of the source stores, `none` where it returns
`false`. `u64` is the cast `(double)(man)`. -/
structure FloatConv where
  u64 : ℕ → Double
  parseFloatingFast : ℤ → ℕ → Option Double
  ParseFloatingNormalFast : ℤ → ℕ → ℤ → Option Double
  AtofEiselLemire64 : ℕ → ℤ → ℤ → Option Double
  AtofNative : Bytes → Double

/-- What a handler is told of a primitive value. -/
inductive Scalar
  | Null
  | Bool (b : Bool)
  | Uint (v : ℕ)
  | Int (v : ℤ)
  | Double (d : Double)
  | String (s : Bytes)
  | NumStr (s : Bytes)
  | Raw (s : Bytes)
  deriving DecidableEq

/-- Where a number ends, what the handler is told (before any error is set) and the error. -/
structure NumRes where
  i : ℕ
  ev : Option Scalar
  err : SonicError

namespace NumRes

/-- An invalid character. -/
def fail (i : ℕ) : NumRes := ⟨i, none, .kParseErrorInvalidChar⟩

/-- A number for the handler. -/
def event (i : ℕ) (e : Scalar) : NumRes := ⟨i, some e, .kErrorNone⟩

end NumRes

/-- `-d`. -/
def negDouble (d : Double) : Double := d ^^^ 0x8000000000000000#64

/-- `d * sgn`. -/
def mulSgn (d : Double) (sgn : ℤ) : Double := if sgn = -1 then negDouble d else d

/-- The run of digits at `i`. -/
def digitsAt (s : Bytes) (i : ℕ) : Bytes := (s.drop i).takeWhile is_digit

/-- The run of zeros at `i`. -/
def zerosAt (s : Bytes) (i : ℕ) : Bytes := (s.drop i).takeWhile (· == Ch.zero)

/-- The letter of an exponent. -/
def isExp (b : UInt8) : Bool := b == Ch.e || b == Ch.upE

/-- The sign of an exponent. -/
def isSign (b : UInt8) : Bool := b == Ch.minus || b == Ch.plus

/-- `man = man * 10 + s[i] - '0'` over the digits `ds`. -/
def carry (man : ℕ) (ds : Bytes) : ℕ := ds.foldl (fun sum d => (sum * 10 + (d.toNat - 48)) % 2 ^ 64) man

def str2int (s : Bytes) (i : ℕ) : ℕ × ℕ := (carry 0 (digitsAt s i), i + (digitsAt s i).length)

/-- The value of the first digits of 16 bytes, at most `man_nd` of them, and how many they are. -/
def simd_str2int (s : Bytes) (i man_nd : ℕ) : ℕ × ℕ :=
  let ds := (digitsAt s i).take (min man_nd 16)
  (carry 0 ds, ds.length)

/-- The locals of `parseNumber` that its labels share. The counters `man_nd` and `exp10` are an
`int` each in the source, which holds them unless 2³¹ digits are counted. -/
structure Num where
  sgn : ℤ
  man : ℕ
  man_nd : ℕ
  exp10 : ℤ
  trunc : Bool

def kUint64Max : ℕ := 2 ^ 64 - 1

/-- `parseNumberAsString`, with `pos_` after the first byte of the number. -/
def parseNumberAsString (s : Bytes) (pos : ℕ) : NumRes :=
  let start := pos - 1
  let double_string_fast (i : ℕ) : NumRes := .event i (.NumStr (slice s start i))
  let double_string_exp (i : ℕ) : NumRes :=
    let i := i + 1
    let i := if isSign (rd s i) then i + 1 else i
    if !is_digit (rd s i) then .fail i else double_string_fast (i + (digitsAt s i).length)
  let double_string_fract (i : ℕ) : NumRes :=
    let i := i + (digitsAt s i).length
    if !isExp (rd s i) then double_string_fast i else double_string_exp i
  let zero_exp (sgn : ℤ) (i : ℕ) : NumRes :=
    let i := i + 1
    let i := if isSign (rd s i) then i + 1 else i
    if !is_digit (rd s i) then .fail i else .event (i + (digitsAt s i).length) (.Double (mulSgn 0 sgn))
  let neg := rd s start == Ch.minus
  let i := if neg then start + 1 else start
  let sgn : ℤ := if neg then -1 else 1
  if rd s i = Ch.zero then
    let i := i + 1
    if rd s i = Ch.dot then
      let i := i + 1
      if !is_digit (rd s i) then .fail i
      else
        let i := i + (zerosAt s i).length
        if isExp (rd s i) then zero_exp sgn i else double_string_fract i
    else if isExp (rd s i) then zero_exp sgn i
    else .event i (.Uint 0)
  else
    let digit_start := i
    let (man, i) := str2int s i
    let man_nd := i - digit_start
    if man_nd = 0 then .fail i
    else if rd s i = Ch.dot then double_string_fract (i + 1)
    else if isExp (rd s i) then double_string_exp i
    else if man_nd ≤ 19 then
      if neg then if 2 ^ 63 < man then double_string_fast i else .event i (.Int (-man))
      else .event i (.Uint man)
    else if man_nd = 20 then
      let man := carry 0 ((digitsAt s digit_start).take 19)
      let num := (rd s (i - 1)).toNat - 48
      if man < kUint64Max / 10 ∨ man = kUint64Max / 10 ∧ num ≤ kUint64Max % 10 then
        if sgn = -1 then double_string_fast i else .event i (.Uint (man * 10 + num))
      else double_string_fast i
    else double_string_fast i

section
variable (F : FloatConv) (flags : ParseFlags) (s : Bytes) (len : ℕ)

/-- The error and the value; `pos_` is after the first byte of the number. -/
def parseFloatEiselLemire64 (pos : ℕ) (x : Num) : SonicError × Double :=
  let up := match F.AtofEiselLemire64 x.man x.exp10 x.sgn with
    | none => none
    | some d =>
      if !x.trunc then some d
      else if F.AtofEiselLemire64 ((x.man + 1) % 2 ^ 64) x.exp10 x.sgn = some d then some d else none
  match up with
  | some d => (.kErrorNone, d)
  | none =>
    let d := F.AtofNative (slice s (pos - 1) len)
    if d <<< 1 = 0xFFE0000000000000#64 then (.kParseErrorInfinity, d) else (.kErrorNone, d)

/-- From the label `double_fast` on. -/
def double_fast (start_idx : ℕ) (x : Num) (i : ℕ) : NumRes :=
  let fast := if x.man / 2 ^ 52 = 0 ∧ x.exp10 ≤ 22 + 15 ∧
    -22 ≤ x.exp10 then F.parseFloatingFast x.exp10 x.man else none
  match fast with
  | some dbl => .event i (.Double (mulSgn dbl x.sgn))
  | none =>
    let normal := if !x.trunc ∧ -308 + 1 < x.exp10 ∧ x.exp10 < 308 - 20 then
      F.ParseFloatingNormalFast x.exp10 x.man x.sgn else none
    match normal with
    | some raw => .event i (.Double raw)
    | none =>
      let (error_code, d) := parseFloatEiselLemire64 F s len (start_idx + 1) x
      if flags.kParseOverflowNumAsNumStr && error_code == .kParseErrorInfinity then
        parseNumberAsString s (start_idx + 1)
      else ⟨i, some (.Double d), error_code⟩

/-- From the label `double_exp` on: `s[i]` is the `e`. -/
def double_exp (start_idx : ℕ) (x : Num) (i : ℕ) : NumRes :=
  let i := i + 1
  let esm : ℤ := if rd s i = Ch.minus then -1 else 1
  let i := if isSign (rd s i) then i + 1 else i
  if !is_digit (rd s i) then .fail i
  else
    let exp : ℕ :=
      (digitsAt s i).foldl (fun exp d => if exp < 10000 then exp * 10 + (d.toNat - 48) else exp) 0
    double_fast F flags s len start_idx { x with exp10 := x.exp10 + (exp : ℤ) * esm }
      (i + (digitsAt s i).length)

/-- From the label `double_fract` on: the fraction began at `exp10_s`. -/
def double_fract (start_idx exp10_s : ℕ) (x : Num) (i : ℕ) : NumRes :=
  let (x, i) :=
    if x.man_nd < 17 then
      let (sum, fract_len) := simd_str2int s i (17 - x.man_nd)
      let man := (x.man * 10 ^ fract_len + sum) % 2 ^ 64
      let man_nd := x.man_nd + fract_len
      let i := i + fract_len
      let ds := (digitsAt s i).take (17 - man_nd)
      ({ x with man := carry man ds, man_nd := man_nd + ds.length }, i + ds.length)
    else (x, i)
  let x := { x with exp10 := x.exp10 - (i - exp10_s : ℕ) }
  let x := { x with trunc := x.trunc || !(digitsAt s i).isEmpty }
  let i := i + (digitsAt s i).length
  if !isExp (rd s i) then double_fast F flags s len start_idx x i
  else double_exp F flags s len start_idx x i

/-- A zero with an exponent: `s[i]` is the `e`. -/
def zero_exp (sgn : ℤ) (i : ℕ) : NumRes :=
  let i := i + 1
  let i := if isSign (rd s i) then i + 1 else i
  if !is_digit (rd s i) then .fail i else .event (i + (digitsAt s i).length) (.Double (mulSgn 0 sgn))

/-- An integer that ends at `i`. -/
def integer_end (start_idx : ℕ) (x : Num) (i : ℕ) : NumRes :=
  if flags.kParseIntegerAsRaw then .event i (.Raw (slice s start_idx i))
  else if x.exp10 = 0 then
    if x.sgn = -1 then
      if 2 ^ 63 < x.man then
        if flags.kParseOverflowNumAsNumStr then parseNumberAsString s (start_idx + 1)
        else .event i (.Double (negDouble (F.u64 x.man)))
      else .event i (.Int (-x.man))
    else .event i (.Uint x.man)
  else if x.exp10 = 1 then
    let num := (rd s (i - 1)).toNat - 48
    if x.man < kUint64Max / 10 ∨ x.man = kUint64Max / 10 ∧ num ≤ (2 ^ 32 - 1) % 10 then
      let man := (x.man * 10 + num) % 2 ^ 64
      if x.sgn = -1 then
        if flags.kParseOverflowNumAsNumStr then parseNumberAsString s (start_idx + 1)
        else .event i (.Double (negDouble (F.u64 man)))
      else .event i (.Uint man)
    else if flags.kParseOverflowNumAsNumStr then parseNumberAsString s (start_idx + 1)
    else double_fast F flags s len start_idx { x with trunc := true } i
  else if flags.kParseOverflowNumAsNumStr then parseNumberAsString s (start_idx + 1)
  else double_fast F flags s len start_idx { x with trunc := true } i

/-- The digits before any fraction, from `i` on: the first 19 count when there are more. -/
def integer_digits (sgn : ℤ) (i : ℕ) : Num × ℕ :=
  let digit_start := i
  let (man, i) := str2int s i
  let man_nd := i - digit_start
  if 19 < man_nd then
    (⟨sgn, carry 0 ((digitsAt s digit_start).take 19), 19, (man_nd - 19 : ℕ), false⟩, i)
  else (⟨sgn, man, man_nd, 0, false⟩, i)

/-- A number of the buffer `s`, whose text has length `len`; `pos` is after its first byte. -/
def parseNumber (pos : ℕ) : NumRes :=
  let start_idx := pos - 1
  let neg := rd s start_idx == Ch.minus
  let i := if neg then start_idx + 1 else start_idx
  let sgn : ℤ := if neg then -1 else 1
  if rd s i = Ch.zero then
    let i := i + 1
    if rd s i = Ch.dot then
      let i := i + 1
      if !is_digit (rd s i) then .fail i
      else
        let exp10_s := i
        let i := i + (zerosAt s i).length
        if isExp (rd s i) then zero_exp s sgn i
        else double_fract F flags s len start_idx exp10_s ⟨sgn, 0, 0, 0, false⟩ i
    else if isExp (rd s i) then zero_exp s sgn i
    else if flags.kParseIntegerAsRaw then .event i (.Raw (slice s start_idx i))
    else .event i (.Uint 0)
  else
    let digit_start := i
    let (x, i) := integer_digits s sgn i
    if i = digit_start then .fail i
    else if rd s i = Ch.dot then
      let i := i + 1
      if !is_digit (rd s i) then .fail i
      else double_fract F flags s len start_idx i x i
    else if isExp (rd s i) then double_exp F flags s len start_idx x i
    else integer_end F flags s len start_idx x i

end

end SonicJson
