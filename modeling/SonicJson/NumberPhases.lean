/-
# The scan of a number and its conversion

`parseNumber` goes through the digits of a number and, unless it is an integer that is
small enough, jumps to the label `double_fast` with what it has collected. `scanNumber` is
the part before the label; `parseNumber` is the conversion of what it leads to
(`parseNumber_eq`).
-/
import SonicJson.Number

namespace SonicJson

open Cursor

/-- What the scan leads to: a result, or the label `double_fast`. -/
inductive NumScan
  | done (r : NumRes)
  | double_fast (x : Num) (i : ℕ)

section
variable (F : FloatConv) (flags : ParseFlags) (s : Bytes) (len : ℕ)

def NumScan.convert (start_idx : ℕ) : NumScan → NumRes
  | .done r => r
  | .double_fast x i => SonicJson.double_fast F flags s len start_idx x i

/-- `double_exp`, up to the conversion. -/
def scan_exp (x : Num) (i : ℕ) : NumScan :=
  let i := i + 1
  let esm : ℤ := if rd s i = Ch.minus then -1 else 1
  let i := if isSign (rd s i) then i + 1 else i
  if !is_digit (rd s i) then .done (.fail i)
  else
    let exp : ℕ :=
      (digitsAt s i).foldl (fun exp d => if exp < 10000 then exp * 10 + (d.toNat - 48) else exp) 0
    .double_fast { x with exp10 := x.exp10 + (exp : ℤ) * esm } (i + (digitsAt s i).length)

/-- `double_fract`, up to the conversion. -/
def scan_fract (exp10_s : ℕ) (x : Num) (i : ℕ) : NumScan :=
  let (x, i) :=
    if x.man_nd < 17 then
      let (sum, fract_len) := simd_str2int s i (17 - x.man_nd)
      let man := (x.man * 10 ^ fract_len + sum) % 2 ^ 64
      let man_nd := x.man_nd + fract_len
      let i := i + fract_len
      let ds := (digitsAt s i).take (17 - man_nd)
      ({ x with man := carry man ds, man_nd := man_nd + ds.length }, i + ds.length)
    else (x, i)
  let x := { x with exp10 := x.exp10 - (i - exp10_s : ℕ) }
  let x := { x with trunc := x.trunc || !(digitsAt s i).isEmpty }
  let i := i + (digitsAt s i).length
  if !isExp (rd s i) then .double_fast x i else scan_exp s x i

/-- `integer_end`, up to the conversion. -/
def scan_integer_end (start_idx : ℕ) (x : Num) (i : ℕ) : NumScan :=
  if flags.kParseIntegerAsRaw then .done (.event i (.Raw (slice s start_idx i)))
  else if x.exp10 = 0 then
    if x.sgn = -1 then
      if 2 ^ 63 < x.man then
        if flags.kParseOverflowNumAsNumStr then .done (parseNumberAsString s (start_idx + 1))
        else .done (.event i (.Double (negDouble (F.u64 x.man))))
      else .done (.event i (.Int (-x.man)))
    else .done (.event i (.Uint x.man))
  else if x.exp10 = 1 then
    let num := (rd s (i - 1)).toNat - 48
    if x.man < kUint64Max / 10 ∨ x.man = kUint64Max / 10 ∧ num ≤ (2 ^ 32 - 1) % 10 then
      let man := (x.man * 10 + num) % 2 ^ 64
      if x.sgn = -1 then
        if flags.kParseOverflowNumAsNumStr then .done (parseNumberAsString s (start_idx + 1))
        else .done (.event i (.Double (negDouble (F.u64 man))))
      else .done (.event i (.Uint man))
    else if flags.kParseOverflowNumAsNumStr then .done (parseNumberAsString s (start_idx + 1))
    else .double_fast { x with trunc := true } i
  else if flags.kParseOverflowNumAsNumStr then .done (parseNumberAsString s (start_idx + 1))
  else .double_fast { x with trunc := true } i

/-- `parseNumber`, up to the conversion. -/
def scanNumber (pos : ℕ) : NumScan :=
  let start_idx := pos - 1
  let neg := rd s start_idx == Ch.minus
  let i := if neg then start_idx + 1 else start_idx
  let sgn : ℤ := if neg then -1 else 1
  if rd s i = Ch.zero then
    let i := i + 1
    if rd s i = Ch.dot then
      let i := i + 1
      if !is_digit (rd s i) then .done (.fail i)
      else
        let exp10_s := i
        let i := i + (zerosAt s i).length
        if isExp (rd s i) then .done (zero_exp s sgn i)
        else scan_fract s exp10_s ⟨sgn, 0, 0, 0, false⟩ i
    else if isExp (rd s i) then .done (zero_exp s sgn i)
    else if flags.kParseIntegerAsRaw then .done (.event i (.Raw (slice s start_idx i)))
    else .done (.event i (.Uint 0))
  else
    let digit_start := i
    let (x, i) := integer_digits s sgn i
    if i = digit_start then .done (.fail i)
    else if rd s i = Ch.dot then
      let i := i + 1
      if !is_digit (rd s i) then .done (.fail i)
      else scan_fract s i x i
    else if isExp (rd s i) then scan_exp s x i
    else scan_integer_end F flags s start_idx x i

variable {F flags s len} {start : ℕ} {x : Num} {i : ℕ}

theorem double_exp_scan :
    double_exp F flags s len start x i = (scan_exp s x i).convert F flags s len start := by
  unfold double_exp scan_exp
  dsimp only
  split
  · split <;> rfl
  · split <;> rfl

theorem double_fract_scan {exp10_s : ℕ} :
    double_fract F flags s len start exp10_s x i =
      (scan_fract s exp10_s x i).convert F flags s len start := by
  unfold double_fract scan_fract
  dsimp only
  rw [apply_ite (NumScan.convert F flags s len start), double_exp_scan]
  rfl

theorem integer_end_scan :
    integer_end F flags s len start x i = (scan_integer_end F flags s start x i).convert F flags s
      len start := by
  unfold integer_end scan_integer_end
  dsimp only
  split_ifs <;> rfl

/-- **A number is scanned, and then converted.** -/
theorem parseNumber_eq {pos : ℕ} :
    parseNumber F flags s len pos = (scanNumber F flags s pos).convert F flags s len (pos - 1) := by
  unfold parseNumber scanNumber
  simp only [double_fract_scan, double_exp_scan, integer_end_scan]
  split_ifs <;> rfl

end

end SonicJson
