/-
# Decimals

The slow conversion keeps a number as at most 800 decimal digits with a decimal point, and
a flag that digits have been dropped. It is scaled by binary shifts, digit by digit:
`RightShift` is a long division, `LeftShift` a multiplication from the last digit on, whose
number of new digits is looked up. A loop that runs until a condition holds has a fuel
argument; `none` is a run that is not over.
-/
import SonicJson.Number

namespace SonicJson

open Cursor

def DECIMAL_MAX_DNUM : ℕ := 800

/-- Decimal shift without overflow of the 64 bits, e.g. 9 << 61 overflows. -/
def MAX_SHIFT : ℕ := 60

/-- `d` are 800 bytes, of which the first `nd` are the digits; the number is `0.d * 10 ^ dp`. -/
structure Decimal where
  d : Bytes
  nd : ℕ
  dp : ℤ
  neg : Bool
  trunc : Bool

/-- How many digits a shift to the left adds: one less if the digits are under the cutoff. -/
def LSHIFT_TAB : List (ℕ × String) :=
  [(0, ""), (1, "5"), (1, "25"), (1, "125"), (2, "625"), (2, "3125"), (2, "15625"), (3, "78125"),
    (3, "390625"),
   (3, "1953125"), (4, "9765625"), (4, "48828125"), (4, "244140625"), (4, "1220703125"),
   (5, "6103515625"), (5, "30517578125"), (5, "152587890625"), (6, "762939453125"),
   (6, "3814697265625"), (6, "19073486328125"), (7, "95367431640625"), (7, "476837158203125"),
   (7, "2384185791015625"), (7, "11920928955078125"), (8, "59604644775390625"),
   (8, "298023223876953125"), (8, "1490116119384765625"), (9, "7450580596923828125"),
   (9, "37252902984619140625"), (9, "186264514923095703125"), (10, "931322574615478515625"),
   (10, "4656612873077392578125"), (10, "23283064365386962890625"), (10, "116415321826934814453125"),
   (11, "582076609134674072265625"), (11, "2910383045673370361328125"),
   (11, "14551915228366851806640625"), (12, "72759576141834259033203125"),
   (12, "363797880709171295166015625"), (12, "1818989403545856475830078125"),
   (13, "9094947017729282379150390625"), (13, "45474735088646411895751953125"),
   (13, "227373675443232059478759765625"), (13, "1136868377216160297393798828125"),
   (14, "5684341886080801486968994140625"), (14, "28421709430404007434844970703125"),
   (14, "142108547152020037174224853515625"), (15, "710542735760100185871124267578125"),
   (15, "3552713678800500929355621337890625"), (15, "17763568394002504646778106689453125"),
   (16, "88817841970012523233890533447265625"), (16, "444089209850062616169452667236328125"),
   (16, "2220446049250313080847263336181640625"), (16, "11102230246251565404236316680908203125"),
   (17, "55511151231257827021181583404541015625"), (17, "277555756156289135105907917022705078125"),
   (17, "1387778780781445675529539585113525390625"), (18,
   "6938893903907228377647697925567626953125"), (18, "34694469519536141888238489627838134765625"),
   (18, "173472347597680709441192448139190673828125"),
   (19, "867361737988403547205962240695953369140625")]

def kPowTab : List ℕ := [1, 3, 6, 9, 13, 16, 19, 23, 26]

/-- The value of a digit. -/
def digit (d : Bytes) (i : ℕ) : ℕ := (rd d i).toNat - 48

def InitDecimal : Decimal := ⟨List.replicate DECIMAL_MAX_DNUM 0, 0, 0, false, false⟩

/-- The digits and the point of a number, with what stands behind them and whether there was a point. -/
def setDigits : Bytes → Decimal → Bool → Bytes × Decimal × Bool
  | [], d, saw_dot => ([], d, saw_dot)
  | c :: s, d, saw_dot =>
    if is_digit c then
      if c = Ch.zero ∧ d.nd = 0 then setDigits s { d with dp := d.dp - 1 } saw_dot
      else if d.nd < DECIMAL_MAX_DNUM
        then setDigits s { d with d := d.d.set d.nd c, nd := d.nd + 1 } saw_dot
      else if c ≠ Ch.zero then setDigits s { d with trunc := true } saw_dot
      else setDigits s d saw_dot
    else if c = Ch.dot then setDigits s { d with dp := d.nd } true
    else (c :: s, d, saw_dot)

def setExp : Bytes → ℕ → ℕ
  | [], exp => exp
  | c :: s, exp => if is_digit c ∧ exp < 10000 then setExp s (exp * 10 + (c.toNat - 48)) else exp

/-- The first `len` bytes of the buffer; its first byte is looked at anyway. -/
def SetDecimal (buf : Bytes) (len : ℤ) : Decimal :=
  let d := InitDecimal
  let s := buf.take len.toNat
  let (s, d) := if rd buf 0 = Ch.minus then (s.drop 1, { d with neg := true }) else (s, d)
  let (s, d, saw_dot) := setDigits s d false
  let d := if !saw_dot then { d with dp := d.nd } else d
  match s with
  | [] => d
  | c :: s =>
    if isExp c then
      let (s, esgn) : Bytes × ℤ :=
        if rd s 0 = Ch.plus then (s.drop 1, 1) else if rd s 0 = Ch.minus then (s.drop 1, -1) else (s, 1)
      { d with dp := d.dp + (setExp s 0 : ℤ) * esgn }
    else d

/-- How many of the first `n` digits are left without the zeros at the end. -/
def trimmed (d : Bytes) : ℕ → ℕ
  | 0 => 0
  | n + 1 => if rd d n = Ch.zero then trimmed d n else n + 1

def Trim (d : Decimal) : Decimal :=
  let nd := trimmed d.d d.nd
  { d with nd := nd, dp := if nd = 0 then 0 else d.dp }

/-- Pick up enough leading digits to cover the first shift: the read pointer and the word, `none` if
there are no digits. -/
def pickUp (d : Decimal) (k : ℕ) : ℕ → ℕ → ℕ → Option (ℕ × ℕ)
  | 0, _, _ => none
  | fuel + 1, r, n =>
    if n >>> k ≠ 0 then some (r, n)
    else if r < d.nd then pickUp d k fuel (r + 1) (n * 10 + digit d.d r)
    else if n = 0 then none
    else pickUp d k fuel (r + 1) (n * 10)

/-- Pick up a digit, put down a digit, as often as there are digits left. -/
def putDown (k : ℕ) : ℕ → Bytes → ℕ → ℕ → ℕ → Bytes × ℕ × ℕ
  | 0, d, _, w, n => (d, w, n)
  | left + 1, d, r, w, n =>
    let dig := n >>> k
    let n := n &&& (1 <<< k - 1)
    let d := d.set w (UInt8.ofNat (dig + 48))
    putDown k left d (r + 1) (w + 1) (n * 10 + digit d r)

/-- Put down extra digits. -/
def putExtra (k : ℕ) : ℕ → Bytes → ℕ → ℕ → Bool → Bytes × ℕ × Bool
  | 0, d, w, _, trunc => (d, w, trunc)
  | fuel + 1, d, w, n, trunc =>
    if n = 0 then (d, w, trunc)
    else
      let dig := n >>> k
      let n := n &&& (1 <<< k - 1)
      if w < DECIMAL_MAX_DNUM then putExtra k fuel (d.set w (UInt8.ofNat (dig + 48))) (w + 1)
        (n * 10) trunc
      else putExtra k fuel d w (n * 10) (trunc || decide (0 < dig))

/-- Binary shift right by `k` bits. -/
def RightShift (d : Decimal) (k : ℕ) : Decimal :=
  match pickUp d k (d.nd + k + 2) 0 0 with
  | none => { d with nd := 0 }
  | some (r, n) =>
    let dp := d.dp - ((r : ℤ) - 1)
    let (buf, w, n) := putDown k (d.nd - r) d.d r 0 n
    let (buf, w, trunc) := putExtra k (k + 2) buf w n d.trunc
    Trim { d with d := buf, nd := w, dp := dp, trunc := trunc }

/-- Whether the `bn` digits of `b` are under the digits of `s`. -/
def PrefixIsLess (b : Bytes) (s : Bytes) (bn : ℕ) : ℕ → Bool
  | 0 => rd s bn ≠ 0
  | left + 1 =>
    let i := bn - (left + 1)
    if rd s i = 0 then false
    else if rd b i ≠ rd s i then rd b i < rd s i
    else PrefixIsLess b s bn left

/-- Put the last digit of the word down before the write pointer. -/
def putBack (d : Bytes) (w rem : ℕ) (trunc : Bool) : Bytes × ℕ × Bool :=
  let w := w - 1
  if w < DECIMAL_MAX_DNUM then (d.set w (UInt8.ofNat (rem + 48)), w, trunc)
    else (d, w, trunc || decide (rem ≠ 0))

/-- Pick up a digit, put down a digit, from the last one on. -/
def putDownBack (k : ℕ) : ℕ → Bytes → ℕ → ℕ → Bool → Bytes × ℕ × ℕ × Bool
  | 0, d, w, n, trunc => (d, w, n, trunc)
  | r + 1, d, w, n, trunc =>
    let n := n + digit d r <<< k
    let quo := n / 10
    let rem := n - 10 * quo
    let (d, w, trunc) := putBack d w rem trunc
    putDownBack k r d w quo trunc

/-- Put down extra digits, before the others. -/
def putExtraBack : ℕ → Bytes → ℕ → ℕ → Bool → Bytes × ℕ × Bool
  | 0, d, w, _, trunc => (d, w, trunc)
  | fuel + 1, d, w, n, trunc =>
    if n = 0 then (d, w, trunc)
    else
      let quo := n / 10
      let rem := n - 10 * quo
      let (d, w, trunc) := putBack d w rem trunc
      putExtraBack fuel d w quo trunc

/-- Binary shift left by `k` bits. -/
def LeftShift (d : Decimal) (k : ℕ) : Decimal :=
  let (delta, cutoff) := LSHIFT_TAB.getD k (0, "")
  let cutoff := cutoff.toList.map fun c => UInt8.ofNat c.toNat
  let delta := if PrefixIsLess d.d cutoff d.nd d.nd then delta - 1 else delta
  let (buf, w, n, trunc) := putDownBack k d.nd d.d (d.nd + delta) 0 d.trunc
  let (buf, _, trunc) := putExtraBack 20 buf w n trunc
  let nd := d.nd + delta
  let nd := if DECIMAL_MAX_DNUM ≤ nd then DECIMAL_MAX_DNUM else nd
  Trim { d with d := buf, nd := nd, dp := d.dp + delta, trunc := trunc }

/-- Shifts of at most `MAX_SHIFT` bits, until `k` bits are done. -/
def shifts (shift : Decimal → ℕ → Decimal) : ℕ → Decimal → ℕ → Decimal
  | 0, d, _ => d
  | fuel + 1, d, k =>
    if MAX_SHIFT < k then shifts shift fuel (shift d MAX_SHIFT) (k - MAX_SHIFT)
    else if k ≠ 0 then shift d k
    else d

/-- `d * 2 ^ k`. -/
def DecimalShift (d : Decimal) (k : ℤ) : Decimal :=
  if d.nd = 0 ∨ k = 0 then d
  else if 0 < k then shifts LeftShift (k.toNat + 1) d k.toNat
  else shifts RightShift ((-k).toNat + 1) d (-k).toNat

def ShouldRoundup (d : Decimal) (nd : ℤ) : Bool :=
  if nd < 0 ∨ d.nd ≤ nd then false
  else
    let nd := nd.toNat
    -- exactly halfway: round to even
    if rd d.d nd = 53 ∧ nd + 1 = d.nd then
      if d.trunc then true else decide (0 < nd ∧ digit d.d (nd - 1) % 2 ≠ 0)
    else decide (53 ≤ rd d.d nd)

/-- The integer part, of `dp` digits. -/
def integerPart (d : Decimal) : ℕ → ℕ → ℕ → ℕ
  | 0, _, n => n
  | left + 1, i, n => integerPart d left (i + 1) (if i < d.nd then n * 10 + digit d.d i else n * 10)

/-- Extract integer part, rounded appropriately. -/
def RoundedInteger (d : Decimal) : ℕ :=
  if 20 < d.dp then 0xFFFFFFFFFFFFFFFF
  else
    let n := integerPart d d.dp.toNat 0 0
    if ShouldRoundup d d.dp then n + 1 else n

/-- Scale by powers of two, down, until the number is below one. -/
def scaleDown : ℕ → Decimal → ℤ → Option (Decimal × ℤ)
  | 0, _, _ => none
  | fuel + 1, d, exp2 =>
    if 0 < d.dp then
      let n := if 9 ≤ d.dp then 27 else kPowTab.getD d.dp.toNat 0
      scaleDown fuel (DecimalShift d (-(n : ℤ))) (exp2 + n)
    else some (d, exp2)

/-- And up, until it is in the range [0.5, 1.0). -/
def scaleUp : ℕ → Decimal → ℤ → Option (Decimal × ℤ)
  | 0, _, _ => none
  | fuel + 1, d, exp2 =>
    if d.dp < 0 ∨ d.dp = 0 ∧ rd d.d 0 < 53 then
      let n := if 9 ≤ -d.dp then 27 else kPowTab.getD (-d.dp).toNat 0
      scaleUp fuel (DecimalShift d n) (exp2 - n)
    else some (d, exp2)

/-- Assemble bits. -/
def assemble (neg : Bool) (mant : ℕ) (exp2 : ℤ) : Double :=
  let bits : BitVec 64 := BitVec.ofNat 64 (mant &&& 0x000FFFFFFFFFFFFF ||| (u11 (exp2 + 1023)) <<< 52)
  if neg then bits ||| 1#64 <<< 63 else bits
where
  /-- `exp & 0x7FF` -/
  u11 (z : ℤ) : ℕ := (z % 2 ^ 11).toNat

/-- From the number in the range [0.5, 1.0) on. -/
def extract (d : Decimal) (exp2 : ℤ) : Double :=
  let overflow := assemble d.neg 0 (0x7FF - 1023)
  -- our range is [0.5, 1) but floating point range is [1, 2)
  let exp2 := exp2 - 1
  -- the minimum exponent of a double is -1022
  let (d, exp2) :=
    if exp2 < -1022 then
      let n := -1022 - exp2
      (DecimalShift d (-n), exp2 + n)
    else (d, exp2)
  if 0x7FF ≤ exp2 + 1023 then overflow
  else
    let d := DecimalShift d 53
    let mant := RoundedInteger d
    -- rounding might have added a bit; shift down
    let (mant, exp2) := if mant = 2 <<< 52 then (mant >>> 1, exp2 + 1) else (mant, exp2)
    if 0x7FF ≤ exp2 + 1023 then overflow
    else
      let exp2 := if mant &&& 1 <<< 52 = 0 then -1023 else exp2
      assemble d.neg mant exp2

def DecimalToF64 (fuel : ℕ) (d : Decimal) : Option Double :=
  if d.nd = 0 then some (assemble d.neg 0 (-1023))
  else if 310 < d.dp then some (assemble d.neg 0 (0x7FF - 1023))
  else if d.dp < -330 then some (assemble d.neg 0 (-1023))
  else
    match scaleDown fuel d 0 with
    | none => none
    | some (d, exp2) =>
      match scaleUp fuel d exp2 with
      | none => none
      | some (d, exp2) => some (extract d exp2)

/-- The slow fallback. -/
def AtofNative (fuel : ℕ) (buf : Bytes) (len : ℤ) : Option Double :=
  DecimalToF64 fuel (SetDecimal buf len)

end SonicJson
