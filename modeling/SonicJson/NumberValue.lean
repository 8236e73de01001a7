/-
# The value that a number scan keeps

What `parseNumber` hands to the conversion is a mantissa, a decimal exponent and a flag
that digits have been dropped. The mantissa is made of the first digits of the token and
the exponent counts the others (`Kept`), so the value of the token is kept, exactly or up
to the last place of the mantissa as the flag says. Only where an exponent follows an
integer of more than 19 digits the flag is forgotten (`scanNumber_value`).
-/
import SonicJson.NumberScan

namespace SonicJson

open Cursor

/-! ### Decimal digits -/

/-- The number that the digits denote. -/
def decimal (ds : Bytes) : ℕ := ds.foldl (fun n d => n * 10 + (d.toNat - 48)) 0

theorem foldl_decimal (n : ℕ) (ds : Bytes) :
    ds.foldl (fun n d => n * 10 + (d.toNat - 48)) n = n * 10 ^ ds.length + decimal ds := by
  induction ds generalizing n with
  | nil => simp [decimal]
  | cons d ds ih =>
    have h1 := ih (n * 10 + (d.toNat - 48))
    have h2 := ih (0 * 10 + (d.toNat - 48))
    rw [decimal, List.foldl_cons, List.foldl_cons, h1, h2, List.length_cons, pow_succ]
    ring

theorem decimal_append (a b : Bytes) : decimal (a ++ b) = decimal a * 10 ^ b.length + decimal b := by
  rw [decimal, List.foldl_append, foldl_decimal, ← decimal]

theorem decimal_cons (d : UInt8) (ds : Bytes) :
    decimal (d :: ds) = (d.toNat - 48) * 10 ^ ds.length + decimal ds := by
  rw [decimal, List.foldl_cons, foldl_decimal, Nat.zero_mul, Nat.zero_add]

theorem digit_le {d : UInt8} (h : is_digit d = true) : d.toNat - 48 ≤ 9 := by
  have hall : ∀ n : Fin 256, is_digit (UInt8.ofNat n) = true → (UInt8.ofNat n).toNat - 48 ≤ 9 := by
    decide +kernel
  have := hall ⟨d.toNat, d.toNat_lt⟩
  simp only [UInt8.ofNat_toNat] at this
  exact this h

theorem decimal_lt {ds : Bytes} (h : ∀ d ∈ ds, is_digit d = true) : decimal ds < 10 ^ ds.length := by
  induction ds with
  | nil => decide
  | cons d ds ih =>
    have h1 := digit_le (h d List.mem_cons_self)
    have h2 := ih fun x hx => h x (List.mem_cons_of_mem _ hx)
    rw [decimal_cons, List.length_cons, pow_succ]
    nlinarith

/-- On 64 bits, as long as they are enough. -/
theorem carry_eq {n : ℕ} {ds : Bytes} (h : n * 10 ^ ds.length + decimal ds < 2 ^ 64) :
    carry n ds = n * 10 ^ ds.length + decimal ds := by
  induction ds generalizing n with
  | nil => simp [carry, decimal]
  | cons d ds ih =>
    rw [decimal_cons, List.length_cons, pow_succ] at h ⊢
    have hstep : n * (10 ^ ds.length * 10) + ((d.toNat - 48) * 10 ^ ds.length + decimal ds) =
        (n * 10 + (d.toNat - 48)) * 10 ^ ds.length + decimal ds := by ring
    rw [hstep] at h ⊢
    have hpow : 0 < 10 ^ ds.length := Nat.pow_pos (by decide)
    have hlt : n * 10 + (d.toNat - 48) < 2 ^ 64 := by nlinarith
    rw [carry, List.foldl_cons, Nat.mod_eq_of_lt hlt]
    exact ih h

/-- The exponent is not read on above 10000, which is past every one below 100000. -/
theorem foldl_exp {ds : Bytes} {n : ℕ} (h : n * 10 ^ ds.length + decimal ds < 100000) :
    ds.foldl (fun exp d => if exp < 10000 then exp * 10 + (d.toNat - 48) else exp) n =
      n * 10 ^ ds.length + decimal ds := by
  induction ds generalizing n with
  | nil => simp [decimal]
  | cons d ds ih =>
    rw [decimal_cons, List.length_cons, pow_succ] at h ⊢
    have hstep : n * (10 ^ ds.length * 10) + ((d.toNat - 48) * 10 ^ ds.length + decimal ds) =
        (n * 10 + (d.toNat - 48)) * 10 ^ ds.length + decimal ds := by ring
    rw [hstep] at h ⊢
    have hpow : 0 < 10 ^ ds.length := Nat.pow_pos (by decide)
    have hlt : n < 10000 := by nlinarith
    rw [List.foldl_cons, if_pos hlt]
    exact ih h

/-! ### The value of a token -/

/-- The exponent that `e` writes, with the letter before it. -/
def expValue (e : Bytes) : ℤ :=
  match e.drop 1 with
  | [] => 0
  | c :: ds =>
    if c = Ch.minus then -(decimal ds : ℤ) else if c = Ch.plus then decimal ds
      else decimal (c :: ds)

/-- The exponent as the scan reads it: on from 10000 its digits are passed over. -/
def expRead (e : Bytes) : ℤ :=
  let read (ds : Bytes) : ℕ :=
    ds.foldl (fun exp d => if exp < 10000 then exp * 10 + (d.toNat - 48) else exp) 0
  match e.drop 1 with
  | [] => 0
  | c :: ds => if c = Ch.minus then -(read ds : ℤ) else if c = Ch.plus then read ds else read (c :: ds)

/-- Below 100000 all digits are read. -/
theorem expRead_eq {e : Bytes} (hE : |expValue e| < 100000) : expRead e = expValue e := by
  have hread : ∀ ds : Bytes, |(decimal ds : ℤ)| < 100000 →
      ds.foldl (fun exp d => if exp < 10000 then exp * 10 + (d.toNat - 48) else exp) 0 =
        decimal ds := by
    intro ds h
    rw [Nat.abs_cast] at h
    have := @foldl_exp ds 0 (by rw [Nat.zero_mul, Nat.zero_add]; exact_mod_cast h)
    rwa [Nat.zero_mul, Nat.zero_add] at this
  unfold expValue at hE ⊢
  unfold expRead
  dsimp only
  generalize e.drop 1 = l at hE ⊢
  cases l with
  | nil => rfl
  | cons c ds =>
    dsimp only at hE ⊢
    by_cases h1 : c = Ch.minus
    · rw [if_pos h1, abs_neg] at hE
      rw [if_pos h1, if_pos h1, hread ds hE]
    · rw [if_neg h1] at hE
      rw [if_neg h1, if_neg h1]
      by_cases h2 : c = Ch.plus
      · rw [if_pos h2] at hE
        rw [if_pos h2, if_pos h2, hread ds hE]
      · rw [if_neg h2] at hE
        rw [if_neg h2, if_neg h2, hread (c :: ds) hE]

/-- The absolute value of the token of the integer `i`, the fraction `f` and the exponent `e`. -/
def absValue (i f e : Bytes) : ℚ := decimal (i ++ f.drop 1) * 10 ^ (expValue e - (f.drop 1).length)

/-- The absolute value with the exponent as the scan reads it. -/
def absRead (i f e : Bytes) : ℚ := decimal (i ++ f.drop 1) * 10 ^ (expRead e - (f.drop 1).length)

theorem absValue_nonneg {i f e : Bytes} : 0 ≤ absValue i f e := by
  unfold absValue
  positivity

theorem absRead_eq {e : Bytes} (hE : |expValue e| < 100000) (i f : Bytes) :
    absRead i f e = absValue i f e := by
  rw [absRead, absValue, expRead_eq hE]

/-- The value is kept: exactly, or up to the last place when digits have been dropped. -/
def Num.Keeps (x : Num) (v : ℚ) : Prop :=
  if x.trunc then x.man * 10 ^ x.exp10 ≤ v ∧
    v < (x.man + 1) * 10 ^ x.exp10 else v = x.man * 10 ^ x.exp10

/-- The mantissa is the first digits, and the exponent counts the others. -/
structure Num.First (x : Num) (a b : Bytes) (E : ℤ) : Prop where
  man : x.man = decimal a
  exp10 : x.exp10 = E + b.length

theorem Num.First.value {x : Num} {a b : Bytes} {E : ℤ} (h : x.First a b E) :
    (decimal (a ++ b) : ℚ) * 10 ^ E = x.man * 10 ^ x.exp10 + decimal b * 10 ^ E := by
  rw [decimal_append, h.man, h.exp10, zpow_add₀ (by norm_num), zpow_natCast]
  push_cast
  ring

theorem Num.First.keeps {x : Num} {a b : Bytes} {E : ℤ} (h : x.First a b E)
    (hb : ∀ d ∈ b, is_digit d = true) :
    x.Keeps (decimal (a ++ b) * 10 ^ E) ↔ (x.trunc = true ∨ decimal b = 0) := by
  have hE : (0 : ℚ) < 10 ^ E := zpow_pos (by norm_num) E
  have hlt : (decimal b : ℚ) * 10 ^ E < 10 ^ x.exp10 := by
    rw [h.exp10, zpow_add₀ (by norm_num), zpow_natCast, mul_comm ((10 : ℚ) ^ E)]
    have : (decimal b : ℚ) < 10 ^ b.length := by exact_mod_cast decimal_lt hb
    exact mul_lt_mul_of_pos_right this hE
  unfold Num.Keeps
  rw [h.value]
  cases ht : x.trunc with
  | true =>
    have h0 : (0 : ℚ) ≤ decimal b * 10 ^ E := by positivity
    simp only [if_true, true_or, iff_true]
    constructor
    · linarith
    · linarith
  | false =>
    simp only [Bool.false_eq_true, if_false, false_or]
    constructor
    · intro he
      have hz : (decimal b : ℚ) * 10 ^ E = 0 := by linarith
      rcases mul_eq_zero.mp hz with hz | hz
      · exact_mod_cast hz
      · exact absurd hz hE.ne'
    · intro he
      rw [he]
      simp

/-! ### The labels -/

section
variable {F : FloatConv} {s t : Bytes} {i p : ℕ} {x : Num}

theorem ExpPart.digits_follow {e t : Bytes} (he : ExpPart e) (ht : NumEnd t) :
    ∀ b r, e ++ t = b :: r → is_digit b = false := by
  intro b r heq
  cases e with
  | nil =>
    subst heq
    exact ht.1
  | cons c e =>
    obtain ⟨rfl, -⟩ := List.cons.inj heq
    exact he.head_not_digit _ _ rfl

/-- The exponent is added. -/
theorem scan_exp_value {e : Bytes} (h : At s i (e ++ t)) (he : ExpPart e) (hne : e ≠ [])
    (ht : NumEnd t) :
    isExp (rd s i) = true ∧
      scan_exp s x i = .double_fast { x with exp10 := x.exp10 + expRead e } (i + e.length) := by
  cases he with
  | none => exact absurd rfl hne
  | @some e d sg ds hexp hsg hd hds =>
    have h1 : At s (i + 1) (sg ++ (d :: ds) ++ t) := h.succ
    rw [List.append_assoc] at h1
    have h2 := h1.append
    have hall : ∀ b ∈ d :: ds, is_digit b = true := by
      intro b hb
      rcases List.mem_cons.mp hb with rfl | hb
      exacts [hd, hds b hb]
    have hstop : ∀ b r, t = b :: r → is_digit b = false := by
      rintro b r rfl
      exact ht.1
    have hdig := digitsAt_eq h2 hall hstop
    have hrd : is_digit (rd s (i + 1 + sg.length)) = true := by rw [rd_at h2, hd]
    have hd_minus : d ≠ Ch.minus := by
      rintro rfl
      exact absurd hd (by decide)
    have hd_plus : d ≠ Ch.plus := by
      rintro rfl
      exact absurd hd (by decide)
    -- where the digits begin, and the sign
    have hpos : (if isSign (rd s (i + 1)) then i + 1 + 1 else i + 1) = i + 1 + sg.length := by
      rcases hsg with rfl | rfl | rfl
      · rw [rd_at h1, if_neg]
        · rfl
        · rw [isSign_iff]
          exact not_or.mpr ⟨hd_minus, hd_plus⟩
      · rw [rd_at h1, if_pos (by decide)]
        rfl
      · rw [rd_at h1, if_pos (by decide)]
        rfl
    have hval : expRead (e :: (sg ++ d :: ds)) =
        (((d :: ds).foldl (fun exp d => if exp < 10000 then exp * 10 + (d.toNat - 48)
          else exp) 0 : ℕ) : ℤ) *
          (if rd s (i + 1) = Ch.minus then -1 else 1) := by
      rcases hsg with rfl | rfl | rfl
      · rw [rd_at h1, if_neg hd_minus]
        simp [expRead, hd_minus, hd_plus]
      · rw [rd_at h1, if_neg (by decide)]
        simp [expRead, show ¬ Ch.plus = Ch.minus by decide]
      · rw [rd_at h1, if_pos rfl]
        simp [expRead]
    refine ⟨by rw [rd_at h]; exact isExp_iff.mpr hexp, ?_⟩
    unfold scan_exp
    dsimp only
    rw [hpos, hrd, hdig, ← hval, if_neg (by decide)]
    simp only [List.length_cons, List.length_append]
    congr 1
    omega

/-- From the end of the digits on, with an exponent or without. -/
theorem scan_rest {e : Bytes} (h : At s i (e ++ t)) (he : ExpPart e) (ht : NumEnd t) :
    (if !isExp (rd s i) then .double_fast x i else scan_exp s x i) =
      NumScan.double_fast { x with exp10 := x.exp10 + expRead e } (i + e.length) := by
  by_cases hne : e = []
  · subst hne
    have hrd : isExp (rd s i) = false := by
      rw [List.nil_append] at h
      cases t with
      | nil => exact isExp_nil h
      | cons b t =>
        rw [rd_at h]
        exact ht.2.2
    rw [if_pos (by rw [hrd]; rfl)]
    simp [expRead]
  · obtain ⟨h1, h2⟩ := scan_exp_value (x := x) h he hne ht
    rw [if_neg (by rw [h1]; decide), h2]

/-- The digits of a fraction that go into the mantissa, and those that do not. -/
theorem fractNum_first {A D : Bytes} {k : ℕ} (hD : ∀ d ∈ D, is_digit d = true)
    (hman : x.man = decimal A) (hnd : x.man_nd < 17 → decimal A < 10 ^ x.man_nd) :
    ∃ a b, D = a ++ b ∧ (fractNum x k D).man = decimal (A ++ a) ∧
      (fractNum x k D).exp10 = x.exp10 - (k + a.length : ℕ) ∧
      (fractNum x k D).trunc = (x.trunc || !b.isEmpty) ∧ (17 ≤ x.man_nd → a = []) ∧
      (x.man_nd < 17 → decimal (A ++ a) < 10 ^ 17 ∧ (a = [] → D = [])) := by
  unfold fractNum
  by_cases hx : x.man_nd < 17
  swap
  · refine ⟨[], D, rfl, ?_, ?_, ?_, fun _ => rfl, fun h => absurd h hx⟩
    · simp only [if_neg hx, List.append_nil, hman]
    · simp only [if_neg hx, List.length_nil]
    · simp only [if_neg hx, List.drop_zero]
  simp only [if_pos hx]
  -- the digits of the vector step, and those of the loop after it
  obtain ⟨r, hr⟩ := List.take_prefix (min (17 - x.man_nd) 16) D
  have hsome : D.take (min (17 - x.man_nd) 16) = [] → D = [] := by
    intro h
    rcases List.take_eq_nil_iff.mp h with h | h
    · omega
    · exact h
  have ha16 : (D.take (min (17 - x.man_nd) 16)).length ≤ min (17 - x.man_nd) 16 :=
    List.length_take_le _ _
  generalize D.take (min (17 - x.man_nd) 16) = a at hr ha16 hsome
  have hdrop : D.drop a.length = r := by rw [← hr, List.drop_left]
  rw [hdrop]
  obtain ⟨q, hq⟩ := List.take_prefix (17 - (x.man_nd + a.length)) r
  have hc17 : (r.take (17 - (x.man_nd + a.length))).length ≤ 17 - (x.man_nd + a.length) :=
    List.length_take_le _ _
  generalize r.take (17 - (x.man_nd + a.length)) = c at hq hc17
  have hall : ∀ d ∈ a ++ c, is_digit d = true := fun d hd => hD d (by
    rw [← hr, ← hq, ← List.append_assoc]
    exact List.mem_append_left q hd)
  have hsplit : D = (a ++ c) ++ q := by rw [List.append_assoc, hq, hr]
  -- nothing is lost on 64 bits
  have hbound : decimal (A ++ (a ++ c)) < 10 ^ 17 := by
    have hA := hnd hx
    have hac : decimal (a ++ c) < 10 ^ (a ++ c).length := decimal_lt hall
    calc decimal (A ++ (a ++ c)) = decimal A * 10 ^ (a ++ c).length + decimal (a ++ c) :=
      decimal_append _ _
      _ < (decimal A + 1) * 10 ^ (a ++ c).length := by linarith
      _ ≤ 10 ^ x.man_nd * 10 ^ (a ++ c).length := Nat.mul_le_mul_right _ hA
      _ = 10 ^ (x.man_nd + (a ++ c).length) := (pow_add _ _ _).symm
      _ ≤ 10 ^ 17 := Nat.pow_le_pow_right (by decide) (by rw [List.length_append]; omega)
  refine ⟨a ++ c, q, hsplit, ?_, ?_, ?_, fun h => absurd hx (by omega), fun _ => ⟨hbound, fun h => ?_⟩⟩
  · -- the two steps together
    have hfirst : decimal A * 10 ^ a.length + decimal a = decimal (A ++ a) := (decimal_append _ _).symm
    have hsecond : decimal (A ++ a) * 10 ^ c.length + decimal c = decimal (A ++ (a ++ c)) := by
      rw [← decimal_append, List.append_assoc]
    have hpow : 1 ≤ 10 ^ c.length := Nat.pow_pos (by decide)
    have hle : decimal (A ++ a) ≤ decimal (A ++ (a ++ c)) := by
      rw [← hsecond]
      nlinarith
    have h17 : (10 : ℕ) ^ 17 < 2 ^ 64 := by decide
    have hcarry : carry 0 a = decimal a := by
      have := @carry_eq 0 a (by rw [← hfirst] at hle; omega)
      rwa [Nat.zero_mul, Nat.zero_add] at this
    rw [hcarry, hman, hfirst, Nat.mod_eq_of_lt (by omega), carry_eq (by rw [hsecond]; omega), hsecond]
  · rw [List.length_append]
  · have : D.drop (a.length + c.length) = q := by rw [hsplit, ← List.length_append, List.drop_left]
    rw [this]
  · exact hsome (List.append_eq_nil_iff.mp h).1

/-- What `integer_digits` makes of the digits of the integer. -/
theorem integer_digits_first {I : Bytes} {sgn : ℤ} (hI : digitsAt s i = I)
    (hd : ∀ d ∈ I, is_digit d = true) :
    (integer_digits s sgn i).1 = ⟨sgn, decimal (I.take 19), min I.length 19, (I.length - 19 : ℕ),
    false⟩ := by
  have h19 : (10 : ℕ) ^ 19 < 2 ^ 64 := by decide
  have hcarry : carry 0 (I.take 19) = decimal (I.take 19) := by
    have hlt : decimal (I.take 19) < 10 ^ (I.take 19).length :=
      decimal_lt fun d h => hd d (List.mem_of_mem_take h)
    have hlen : (I.take 19).length ≤ 19 := List.length_take_le _ _
    have := Nat.pow_le_pow_right (show 0 < 10 by decide) hlen
    have := @carry_eq 0 (I.take 19) (by omega)
    rwa [Nat.zero_mul, Nat.zero_add] at this
  unfold integer_digits str2int
  dsimp only
  rw [hI, Nat.add_sub_cancel_left]
  by_cases hn : 19 < I.length
  · rw [if_pos hn, hcarry, Nat.min_eq_right hn.le]
  · rw [List.take_of_length_le (by omega)] at hcarry ⊢
    rw [if_neg hn, hcarry, Nat.min_eq_left (by omega), Nat.sub_eq_zero_of_le (by omega)]
    rfl

/-- Digits that an exponent or a fraction follows. -/
theorem follow_digits {f e t : Bytes} (hf : FracPart f) (he : ExpPart e) (ht : NumEnd t) :
    ∀ b r, f ++ (e ++ t) = b :: r → is_digit b = false := by
  cases hf with
  | none => exact he.digits_follow ht
  | some _ _ =>
    intro b r h
    obtain ⟨rfl, -⟩ := List.cons.inj h
    decide

/-- Behind the sign. -/
theorem sign_end {m I u : Bytes} (hm : m = [] ∨ m = [Ch.minus]) (hI : IntPart I)
    (h : At s p (m ++ (I ++ u))) :
    (if rd s p == Ch.minus then p + 1 else p) = p + m.length := by
  rcases hm with rfl | rfl
  · have hne : (rd s p == Ch.minus) = false := by
      have h' : At s p (I ++ u) := h
      cases hI with
      | zero =>
        rw [rd_at h']
        decide
      | pos hd _ _ =>
        rw [rd_at h', beq_eq_false_iff_ne]
        rintro rfl
        exact absurd hd (by decide)
    rw [if_neg (by rw [hne]; decide), List.length_nil, Nat.add_zero]
  · rw [rd_at h, if_pos (by decide), List.length_singleton]

/-- The factor that the sign stands for. -/
def signOf (m : Bytes) : ℤ := if m = [] then 1 else -1

theorem sign_factor {m I u : Bytes} (hm : m = [] ∨ m = [Ch.minus]) (hI : IntPart I)
    (h : At s p (m ++ (I ++ u))) :
    (if rd s p == Ch.minus then -1 else 1) = signOf m := by
  have hend := sign_end hm hI h
  rcases hm with rfl | rfl
  · by_cases hc : rd s p == Ch.minus
    · rw [if_pos hc, List.length_nil] at hend
      omega
    · rw [if_neg hc]
      rfl
  · by_cases hc : rd s p == Ch.minus
    · rw [if_pos hc]
      rfl
    · rw [if_neg hc, List.length_singleton] at hend
      omega

theorem rd_ne_dot {e : Bytes} (h : At s i (e ++ t)) (he : ExpPart e) (ht : NumEnd t) :
    rd s i ≠ Ch.dot := by
  cases he with
  | none =>
    rw [List.nil_append] at h
    cases t with
    | nil =>
      have := rd_at_add h 0
      rw [Nat.add_zero, rd_nil] at this
      rw [this]
      decide
    | cons b t =>
      rw [rd_at h]
      exact ht.2.1
  | some hexp _ _ _ =>
    rw [rd_at h]
    rcases hexp with rfl | rfl <;> decide

/-- The result is a zero. -/
def NumRes.IsZero (r : NumRes) : Prop := r.ev = some (.Uint 0) ∨
    ∃ sgn, r.ev = some (.Double (mulSgn 0 sgn))

theorem zerosAt_stop {u : Bytes} (h : At s i u) : rd s (i + (zerosAt s i).length) ≠ Ch.zero := by
  have hu : zerosAt s i = u.takeWhile (· == Ch.zero) := by rw [zerosAt, h.drop]
  have hdrop : At s (i + (zerosAt s i).length) (u.dropWhile (· == Ch.zero)) := by
    rw [hu]
    apply At.append
    rwa [List.takeWhile_append_dropWhile]
  have hhead := List.head?_dropWhile_not (· == Ch.zero) u
  cases hd : u.dropWhile (· == Ch.zero) with
  | nil =>
    rw [hd] at hdrop
    have := rd_at_add hdrop 0
    rw [Nat.add_zero, rd_nil] at this
    rw [this]
    decide
  | cons b r =>
    rw [hd] at hdrop hhead
    rw [rd_at hdrop]
    simpa using hhead

/-- A zero before a fraction: the zeros that follow are left out, and the digits `D` behind them are
scanned. -/
theorem scanNumber_zero {m f e : Bytes} (hm : m = [] ∨ m = [Ch.minus]) (hf : FracPart f)
    (he : ExpPart e) (ht : NumEnd t) (h : At s p (m ++ ([Ch.zero] ++ (f ++ (e ++ t))))) :
    (∃ r, scanNumber F flags s (p + 1) = .done r ∧
    ((flags.kParseIntegerAsRaw = true → f ≠ [] ∨ e ≠ []) → r.IsZero) ∧
      (∀ z ∈ f.drop 1, z = Ch.zero) ∧ (f = [] ∨ e ≠ [])) ∨
      ∃ Z D j, f ≠ [] ∧ f.drop 1 = Z ++ D ∧ (∀ z ∈ Z, z = Ch.zero) ∧
        (∀ b r, D = b :: r → b ≠ Ch.zero) ∧ (D = [] → e = []) ∧
        scanNumber F flags s (p + 1) =
          .double_fast { fractNum ⟨signOf m, 0, 0, 0, false⟩ Z.length D with
          exp10 := (fractNum ⟨signOf m, 0, 0, 0, false⟩ Z.length D).exp10 + expRead e } j := by
  unfold scanNumber
  dsimp only
  rw [Nat.add_sub_cancel, sign_end hm .zero h, sign_factor hm .zero h]
  have h1 := h.append
  have h2 : At s (p + m.length + 1) (f ++ (e ++ t)) := h1.succ
  rw [if_pos (rd_at h1)]
  have hzexp : ∀ {i : ℕ} {sgn : ℤ}, At s i (e ++ t) → isExp (rd s i) = true → e ≠ [] ∧
      (zero_exp s sgn i).IsZero := by
    intro i sgn hi hx
    have hne : e ≠ [] := by
      rintro rfl
      rw [List.nil_append] at hi
      cases t with
      | nil => rw [isExp_nil hi] at hx; cases hx
      | cons b t =>
        rw [rd_at hi, ht.2.2] at hx
        cases hx
    refine ⟨hne, ?_⟩
    cases he with
    | none => exact absurd rfl hne
    | @some e d sg ds hexp hsg hd hds =>
      have h6 : At s (i + 1) (sg ++ (d :: ds) ++ t) := hi.succ
      rw [List.append_assoc] at h6
      have h7 := rd_at h6.append
      have hdig : is_digit (rd s (if isSign (rd s (i + 1)) = true then i + 1 + 1 else i + 1)) =
          true := by
        rcases hsg with rfl | rfl | rfl
        · have hns : isSign (rd s (i + 1)) = false := by
            rw [rd_at h6]
            by_contra hc
            rcases isSign_iff.mp (by simpa using hc) with rfl | rfl <;> exact absurd hd (by decide)
          rw [hns, if_neg (by decide), rd_at h6]
          exact hd
        · rw [rd_at h6, if_pos (by decide)]
          rw [List.length_singleton] at h7
          rw [h7]
          exact hd
        · rw [rd_at h6, if_pos (by decide)]
          rw [List.length_singleton] at h7
          rw [h7]
          exact hd
      unfold zero_exp
      dsimp only
      rw [hdig, if_neg (by decide)]
      exact .inr ⟨_, rfl⟩
  cases hf with
  | none =>
    have h3 : At s (p + m.length + 1) (e ++ t) := h2
    rw [if_neg (rd_ne_dot h3 he ht)]
    refine .inl ?_
    by_cases hexp : isExp (rd s (p + m.length + 1)) = true
    · rw [if_pos hexp]
      exact ⟨_, rfl, fun _ => (hzexp h3 hexp).2, fun z hz => absurd hz List.not_mem_nil, .inl rfl⟩
    · rw [if_neg hexp]
      cases hraw : flags.kParseIntegerAsRaw with
      | true =>
        refine ⟨_, rfl, fun h => ?_, fun z hz => absurd hz List.not_mem_nil, .inl rfl⟩
        rcases h rfl with hne | hne
        · exact absurd rfl hne
        · cases he with
          | none => exact absurd rfl hne
          | some hx _ _ _ => exact absurd (by rw [rd_at h3]; exact isExp_iff.mpr hx) hexp
      | false => exact ⟨_, rfl, fun _ => .inl rfl, fun z hz => absurd hz List.not_mem_nil, .inl rfl⟩
  | @some d ds hd hds =>
    have h3 : At s (p + m.length + 1 + 1) (d :: ds ++ (e ++ t)) := h2.succ
    rw [if_pos (rd_at h2), if_neg (by rw [rd_at h3, hd]; decide)]
    have hall : ∀ b ∈ d :: ds, is_digit b = true := by
      intro b hb
      rcases List.mem_cons.mp hb with rfl | hb
      exacts [hd, hds b hb]
    have hz := zeros_digits h3
    rw [digitsAt_eq h3 hall (he.digits_follow ht)] at hz
    obtain ⟨u, -, h4, -⟩ := zerosAt_split h3
    have hzero : ∀ z ∈ zerosAt s (p + m.length + 1 + 1), z = Ch.zero := by
      intro z hz
      simpa using List.mem_takeWhile_imp hz
    have hstop := zerosAt_stop h3
    have hat : At s (p + m.length + 1 + 1 + (zerosAt s (p + m.length + 1 + 1)).length)
        (digitsAt s (p + m.length + 1 + 1 + (zerosAt s (p + m.length + 1 + 1)).length) ++
          (e ++ t)) := by
      have h3' := h3
      rw [← hz, List.append_assoc] at h3'
      exact h3'.append
    have h5 := hat.append
    have hscan := @scan_fract_eq s u _ ⟨signOf m, 0, 0, 0, false⟩ _ h4 (Nat.le_add_right _ _)
    rw [Nat.add_sub_cancel_left] at hscan
    generalize digitsAt s (p + m.length + 1 + 1 + (zerosAt s (p + m.length + 1 + 1)).length) = D at *
    by_cases hexp :
      isExp (rd s (p + m.length + 1 + 1 + (zerosAt s (p + m.length + 1 + 1)).length)) = true
    · rw [if_pos hexp]
      have hD : D = [] := by
        cases D with
        | nil => rfl
        | cons b r =>
          rw [List.cons_append] at hat
          rw [rd_at hat] at hexp
          have := hall b (hz ▸ List.mem_append_right _ List.mem_cons_self)
          rw [is_digit_of_isExp hexp] at this
          cases this
      subst hD
      rw [List.append_nil] at hz
      obtain ⟨hne, hz0⟩ := hzexp hat hexp
      exact .inl ⟨_, rfl, fun _ => hz0, fun z hzm => hzero z (hz ▸ hzm), .inr hne⟩
    · rw [if_neg hexp]
      refine .inr ⟨_, D, _, by simp, hz.symm, hzero, ?_, ?_,
        hscan.trans (scan_rest h5 he ht)⟩
      · rintro b r rfl
        rw [List.cons_append] at hat
        rwa [rd_at hat] at hstop
      · rintro rfl
        cases he with
        | none => rfl
        | some hx _ _ _ =>
          refine absurd ?_ hexp
          rw [List.nil_append] at hat
          rw [rd_at hat]
          exact isExp_iff.mpr hx

/-- The digits of an integer, and what is behind them. -/
theorem scanNumber_pos {m I f e : Bytes} (hm : m = [] ∨ m = [Ch.minus]) (hI : IntPart I)
    (hI0 : I ≠ [Ch.zero]) (hf : FracPart f) (he : ExpPart e) (ht : NumEnd t)
    (h : At s p (m ++ (I ++ (f ++ (e ++ t))))) :
    ∃ x, x = Num.mk (signOf m) (decimal (I.take 19)) (min I.length 19) (I.length - 19 : ℕ) false ∧
      (f = [] ∧ e = [] ∧
        scanNumber F flags s (p + 1) = scan_integer_end F flags s p x (p + m.length + I.length) ∨
      ∃ j, f = [] ∧ e ≠ [] ∧
        scanNumber F flags s (p + 1) = .double_fast { x with exp10 := x.exp10 + expRead e } j ∨
        f ≠ [] ∧ scanNumber F flags s (p + 1) =
          .double_fast
            { fractNum x 0 (f.drop 1) with exp10 := (fractNum x 0 (f.drop 1)).exp10 + expRead e }
            j) := by
  unfold scanNumber
  dsimp only
  rw [Nat.add_sub_cancel, sign_end hm hI h, sign_factor hm hI h]
  have h1 := h.append
  cases hI with
  | zero => exact absurd rfl hI0
  | @pos d ds hd hd0 hds =>
    have hall : ∀ b ∈ d :: ds, is_digit b = true := by
      intro b hb
      rcases List.mem_cons.mp hb with rfl | hb
      exacts [hd, hds b hb]
    have hdig := digitsAt_eq h1 hall (follow_digits hf he ht)
    rw [if_neg (by rw [rd_at h1]; exact hd0), integer_digits_first hdig hall, integer_digits_i, hdig,
      if_neg (by rw [List.length_cons]; omega)]
    have h2 := h1.append
    refine ⟨_, rfl, ?_⟩
    cases hf with
    | none =>
      have h3 : At s (p + m.length + (d :: ds).length) (e ++ t) := h2
      rw [if_neg (rd_ne_dot h3 he ht)]
      by_cases hne : e = []
      · subst hne
        have hrd : isExp (rd s (p + m.length + (d :: ds).length)) = false := by
          cases t with
          | nil => exact isExp_nil h3
          | cons b t =>
            have h4 : At s (p + m.length + (d :: ds).length) (b :: t) := h3
            rw [rd_at h4]
            exact ht.2.2
        rw [if_neg (by rw [hrd]; decide)]
        exact .inl ⟨rfl, rfl, rfl⟩
      · have hexp := fun x => @scan_exp_value s t _ x e h3 he hne ht
        rw [if_pos (hexp ⟨1, 0, 0, 0, false⟩).1, (hexp _).2]
        exact .inr ⟨_, .inl ⟨rfl, hne, rfl⟩⟩
    | @some d' ds' hd' hds' =>
      have h3 : At s (p + m.length + (d :: ds).length + 1) (d' :: ds' ++ (e ++ t)) := h2.succ
      rw [if_pos (rd_at h2), if_neg (by rw [rd_at h3, hd']; decide)]
      have hall' : ∀ b ∈ d' :: ds', is_digit b = true := by
        intro b hb
        rcases List.mem_cons.mp hb with rfl | hb
        exacts [hd', hds' b hb]
      have hdig' := digitsAt_eq h3 hall' (he.digits_follow ht)
      rw [scan_fract_eq h3 le_rfl, hdig', Nat.sub_self]
      exact .inr ⟨_, .inr ⟨by simp, scan_rest h3.append he ht⟩⟩

theorem IntPart.digits {I : Bytes} (h : IntPart I) : ∀ d ∈ I, is_digit d = true := by
  cases h with
  | zero =>
    intro d hd
    rw [List.mem_singleton.mp hd]
    decide
  | pos hd _ hds =>
    intro b hb
    rcases List.mem_cons.mp hb with rfl | hb
    exacts [hd, hds b hb]

theorem FracPart.digits {f : Bytes} (h : FracPart f) : ∀ d ∈ f.drop 1, is_digit d = true := by
  cases h with
  | none => exact fun _ hd => absurd hd List.not_mem_nil
  | some hd hds =>
    intro b hb
    rcases List.mem_cons.mp hb with rfl | hb
    exacts [hd, hds b hb]

theorem decimal_zeros {Z : Bytes} (h : ∀ z ∈ Z, z = Ch.zero) : decimal Z = 0 := by
  induction Z with
  | nil => rfl
  | cons z Z ih =>
    rw [decimal_cons, ih fun x hx => h x (List.mem_cons_of_mem _ hx), h z List.mem_cons_self,
      Nat.add_zero]
    exact Nat.zero_mul _

theorem not_double_fast {r : NumRes} {P : Num → Prop} {scan : NumScan} (h : scan = .done r) :
    ∀ x j, scan = .double_fast x j → P x := by
  intro x j hx
  rw [h] at hx
  cases hx

theorem forall_double_fast {y : Num} {k : ℕ} {P : Num → Prop} {scan : NumScan}
    (h : scan = .double_fast y k) :
    (∀ x j, scan = .double_fast x j → P x) ↔ P y := by
  constructor
  · exact fun hall => hall y k h
  · intro hP x j hx
    rw [h, NumScan.double_fast.injEq] at hx
    exact hx.1 ▸ hP

/-! ### The counters -/

/-- What the conversion is reached with stands in an `int` each. -/
structure Num.InInt (x : Num) : Prop where
  man_nd : x.man_nd < 2 ^ 31
  exp10 : x.exp10 ∈ Set.Ico (-2 ^ 31) (2 ^ 31)

/-- The digits of a fraction that the exponent counts: the zeros behind a zero, and those of the
mantissa. -/
def fractRead (I f : Bytes) : ℕ :=
  let zeros := (f.drop 1).takeWhile (· == Ch.zero)
  if I = [Ch.zero] then zeros.length + min 17 ((f.drop 1).length - zeros.length)
    else min (17 - I.length) (f.drop 1).length

/-- No `int` of the scan overflows: the digits of the integer are counted, and then those of the
fraction, and the exponent is added. -/
structure CountersFit (I f e : Bytes) : Prop where
  digits : I.length < 2 ^ 31
  fraction : -2 ^ 31 ≤ (I.length - 19 : ℕ) - (fractRead I f : ℤ)
  exponent : (I.length - 19 : ℕ) - (fractRead I f : ℤ) + expRead e ∈ Set.Ico (-2 ^ 31) (2 ^ 31)

/-- What the digits of a fraction do to the counters. -/
theorem fractNum_counts {k : ℕ} {D : Bytes} :
    (fractNum x k D).man_nd = x.man_nd + min (17 - x.man_nd) D.length ∧
    (fractNum x k D).exp10 = x.exp10 - (k + min (17 - x.man_nd) D.length : ℕ) := by
  unfold fractNum
  dsimp only
  split
  · rename_i hx
    simp only [List.length_take, List.length_drop]
    have hused : min (min (17 - x.man_nd) 16) D.length +
        min (17 - (x.man_nd + min (min (17 - x.man_nd) 16) D.length))
          (D.length - min (min (17 - x.man_nd) 16) D.length) =
          min (17 - x.man_nd) D.length := by omega
    rw [hused]
    exact ⟨rfl, rfl⟩
  · rename_i hx
    have hused : min (17 - x.man_nd) D.length = 0 := by omega
    rw [hused]
    exact ⟨rfl, rfl⟩

/-- An integer is done with, or converted with its flag set. -/
theorem scan_integer_end_cases {F : FloatConv} {flags : ParseFlags} {s : Bytes} {start i : ℕ}
    {x : Num} :
    (∃ r, scan_integer_end F flags s start x i = .done r) ∨
    scan_integer_end F flags s start x i = .double_fast { x with trunc := true } i := by
  unfold scan_integer_end
  dsimp only
  split_ifs <;> first
    | exact .inl ⟨_, rfl⟩
    | exact .inr rfl

/-- The counters of a token that fits are `int`s. -/
theorem scanNumber_counters {m I f e : Bytes} (hm : m = [] ∨ m = [Ch.minus]) (hI : IntPart I)
    (hf : FracPart f) (he : ExpPart e) (hin : InText s p (m ++ I ++ f ++ e) t)
    (hint : CountersFit I f e) {j : ℕ} (h : scanNumber F flags s (p + 1) = .double_fast x j) :
    x.InInt := by
  have hat : At s p (m ++ (I ++ (f ++ (e ++ t)))) := by simpa only [List.append_assoc] using hin.at'
  have hexp := hint.exponent
  by_cases hI0 : I = [Ch.zero]
  · subst hI0
    rcases @scanNumber_zero F _ _ _ flags _ _ _ hm hf he hin.stop hat
      with ⟨r, hr, -⟩ | ⟨Z, D, k, -, hZD, hZ, hD, -, hr⟩
    · rw [hr] at h
      cases h
    · have htake : (f.drop 1).takeWhile (· == Ch.zero) = Z := by
        rw [hZD]
        exact takeWhile_append_of_not (fun z hz => beq_iff_eq.mpr (hZ z hz))
          fun b r hb => beq_eq_false_iff_ne.mpr (hD b r hb)
      obtain ⟨hnd, he10⟩ := @fractNum_counts ⟨signOf m, 0, 0, 0, false⟩ Z.length D
      rw [fractRead, if_pos rfl, htake, hZD, List.length_append, Nat.add_sub_cancel_left,
        List.length_singleton] at hexp
      rw [hr] at h
      obtain ⟨rfl, -⟩ := NumScan.double_fast.inj h
      refine ⟨?_, ?_⟩
      · rw [hnd]
        dsimp only
        omega
      · rw [he10]
        simpa using hexp
  · obtain ⟨y, rfl, hcases⟩ := @scanNumber_pos F _ _ _ flags _ _ _ _ hm hI hI0 hf he hin.stop hat
    rw [fractRead, if_neg hI0] at hexp
    rcases hcases with ⟨rfl, rfl, hr⟩ | ⟨k, ⟨rfl, hne, hr⟩ | ⟨hfne, hr⟩⟩
    · rcases @scan_integer_end_cases F flags s p (p + m.length + I.length)
          ⟨signOf m, decimal (I.take 19), min I.length 19, (I.length - 19 : ℕ), false⟩ with ⟨r, h'⟩ | h'
      · rw [hr, h'] at h
        cases h
      · rw [hr, h'] at h
        obtain ⟨rfl, -⟩ := NumScan.double_fast.inj h
        refine ⟨by dsimp only; omega, ?_⟩
        simpa [expRead] using hexp
    · rw [hr] at h
      obtain ⟨rfl, -⟩ := NumScan.double_fast.inj h
      refine ⟨by dsimp only; omega, ?_⟩
      simpa using hexp
    · obtain ⟨hnd, he10⟩ := @fractNum_counts ⟨signOf m, decimal (I.take 19), min I.length 19,
        (I.length - 19 : ℕ), false⟩ 0 (f.drop 1)
      rw [hr] at h
      obtain ⟨rfl, -⟩ := NumScan.double_fast.inj h
      have hmin : 17 - min I.length 19 = 17 - I.length := by omega
      refine ⟨?_, ?_⟩
      · rw [hnd]
        dsimp only
        omega
      · rw [he10]
        dsimp only
        rw [hmin, Nat.zero_add]
        exact hexp

/-- The scan keeps the value it reads. -/
theorem scanNumber_read (F : FloatConv) (flags : ParseFlags) {m I f e : Bytes}
    (hm : m = [] ∨ m = [Ch.minus]) (hI : IntPart I) (hf : FracPart f) (he : ExpPart e)
    (hin : InText s p (m ++ I ++ f ++ e) t) :
    (∀ x j, scanNumber F flags s (p + 1) = .double_fast x j → x.Keeps (absRead I f e)) ↔
      ¬ (f = [] ∧ e ≠ [] ∧ decimal (I.drop 19) ≠ 0) := by
  have hat : At s p (m ++ (I ++ (f ++ (e ++ t)))) := by simpa only [List.append_assoc] using hin.at'
  have hfd := hf.digits
  by_cases hI0 : I = [Ch.zero]
  · subst hI0
    have hlost : ¬ (f = [] ∧ e ≠ [] ∧ decimal ([Ch.zero].drop 19) ≠ 0) := fun h => h.2.2 rfl
    refine iff_of_true ?_ hlost
    have hscan := @scanNumber_zero F _ _ _ flags _ _ _ hm hf he hin.stop hat
    rcases hscan with ⟨r, hr, -⟩ | ⟨Z, D, j, -, hZD, hZ, -, -, hr⟩
    · exact not_double_fast hr
    · rw [forall_double_fast hr]
      have hZ0 : decimal ([Ch.zero] ++ Z) = 0 := decimal_zeros fun z hz => by
        rcases List.mem_cons.mp hz with rfl | hz
        exacts [rfl, hZ z hz]
      obtain ⟨a, b, rfl, hman, hexp, htr, -, -⟩ :=
        @fractNum_first ⟨signOf m, 0, 0, 0, false⟩ ([Ch.zero] ++ Z) D Z.length
        (fun d hd => hfd d (hZD ▸ List.mem_append_right Z hd)) hZ0.symm
          (fun _ => by rw [hZ0]; exact Nat.one_pos)
      have hfirst : Num.First { fractNum ⟨signOf m, 0, 0, 0, false⟩ Z.length (a ++ b) with
          exp10 := (fractNum ⟨signOf m, 0, 0, 0, false⟩ Z.length (a ++ b)).exp10 +
            expRead e } ([Ch.zero] ++ Z ++ a) b
          (expRead e - (f.drop 1).length) := by
        refine ⟨hman, ?_⟩
        dsimp only
        rw [hexp, hZD]
        simp only [List.length_append]
        push_cast
        ring
      have hkeeps :=
        hfirst.keeps fun d hd => hfd d (hZD ▸ List.mem_append_right Z (List.mem_append_right a hd))
      have hds : [Ch.zero] ++ f.drop 1 = [Ch.zero] ++ Z ++ a ++ b := by rw [hZD]; simp
      rw [absRead, hds]
      refine hkeeps.mpr ?_
      dsimp only
      rw [htr]
      cases b with
      | nil => exact .inr rfl
      | cons _ _ => exact .inl rfl
  have hscan := @scanNumber_pos F _ _ _ flags _ _ _ _ hm hI hI0 hf he hin.stop hat
  obtain ⟨x, hx, hcases⟩ := hscan
  have hId := hI.digits
  have htail : ∀ d ∈ I.drop 19, is_digit d = true := fun d hd => hId d (List.mem_of_mem_drop hd)
  have hlen : (I.drop 19).length = I.length - 19 := List.length_drop
  rcases hcases with ⟨rfl, rfl, hr⟩ | ⟨j, ⟨rfl, hne, hr⟩ | ⟨hfne, hr⟩⟩
  · -- an integer: when it is converted, the flag is set
    refine iff_of_true ?_ (fun h => h.2.1 rfl)
    intro y k hy
    rw [hr] at hy
    have hy' : y = { x with trunc := true } := by
      unfold scan_integer_end at hy
      dsimp only at hy
      split_ifs at hy <;> exact (NumScan.double_fast.inj hy).1.symm
    have hfirst : y.First (I.take 19) (I.drop 19) (0 - 0) := by
      rw [hy', hx]
      exact ⟨rfl, by rw [hlen]; simp⟩
    have := (hfirst.keeps htail).mpr (.inl (by rw [hy']))
    rw [List.take_append_drop] at this
    simpa [absRead, expRead] using this
  · -- an exponent behind the integer: the flag is not set
    rw [forall_double_fast hr]
    have hfirst :
        Num.First { x with exp10 := x.exp10 + expRead e } (I.take 19) (I.drop 19) (expRead e) := by
      rw [hx]
      refine ⟨rfl, ?_⟩
      dsimp only
      rw [hlen, add_comm]
    have hkeeps := hfirst.keeps htail
    rw [List.take_append_drop] at hkeeps
    have hval : absRead I [] e = decimal I * 10 ^ expRead e := by simp [absRead]
    rw [hval, hkeeps, hx]
    simp [hne]
  · -- a fraction
    refine iff_of_true ?_ (fun h => hfne h.1)
    rw [forall_double_fast hr]
    have hbound : x.man_nd < 17 → decimal (I.take 19) < 10 ^ x.man_nd := by
      intro hnd
      have hd : decimal (I.take 19) < 10 ^ (I.take 19).length :=
        decimal_lt fun d hd => hId d (List.mem_of_mem_take hd)
      rw [List.length_take, Nat.min_comm] at hd
      rw [hx]
      exact hd
    obtain ⟨a, b, hab, hman, hexp, htr, hskip, -⟩ :=
      @fractNum_first x (I.take 19) (f.drop 1) 0 hfd (by rw [hx]) hbound
    have hbd : ∀ d ∈ b, is_digit d = true := fun d hd => hfd d (hab ▸ List.mem_append_right a hd)
    have hx10 : x.exp10 = (I.length - 19 : ℕ) := by rw [hx]
    have htr' : (fractNum x 0 (f.drop 1)).trunc = !b.isEmpty := by rw [htr, hx, Bool.false_or]
    by_cases h19 : I.length ≤ 19
    · have hfirst :
        Num.First
        { fractNum x 0 (f.drop 1) with exp10 := (fractNum x 0 (f.drop 1)).exp10 + expRead e }
          (I.take 19 ++ a) b (expRead e - (f.drop 1).length) := by
        refine ⟨hman, ?_⟩
        dsimp only
        rw [hexp, hx10, hab, Nat.sub_eq_zero_of_le h19]
        simp only [List.length_append]
        push_cast
        ring
      have hds : I ++ f.drop 1 = I.take 19 ++ a ++ b := by
        rw [hab, List.take_of_length_le h19, List.append_assoc]
      rw [absRead, hds]
      refine (hfirst.keeps hbd).mpr ?_
      dsimp only
      rw [htr']
      cases b with
      | nil => exact .inr rfl
      | cons _ _ => exact .inl rfl
    · -- a long integer: no digit of the fraction is used
      have ha : a = [] := hskip (by rw [hx]; simp only; omega)
      subst ha
      rw [List.nil_append] at hab
      have hfirst :
        Num.First
        { fractNum x 0 (f.drop 1) with exp10 := (fractNum x 0 (f.drop 1)).exp10 + expRead e }
          (I.take 19) (I.drop 19 ++ b) (expRead e - (f.drop 1).length) := by
        refine ⟨by rw [hman, List.append_nil], ?_⟩
        dsimp only
        rw [hexp, hx10, hab, List.length_append, hlen]
        push_cast
        simp only [List.length_nil, Nat.cast_zero]
        ring
      have hds : I ++ f.drop 1 = I.take 19 ++ (I.drop 19 ++ b) := by
        rw [hab, ← List.append_assoc, List.take_append_drop]
      have hbne : b ≠ [] := by
        rw [← hab]
        cases hf with
        | none => exact absurd rfl hfne
        | some _ _ => simp
      rw [absRead, hds]
      refine (hfirst.keeps fun d hd => ?_).mpr (.inl ?_)
      · rcases List.mem_append.mp hd with hd | hd
        exacts [htail d hd, hbd d hd]
      · dsimp only
        rw [htr']
        cases b with
        | nil => exact absurd rfl hbne
        | cons _ _ => rfl

/-- **The scan keeps the value** of every token whose counters are `int`s, but for those of an
exponent behind an integer that has other digits than zeros behind its nineteenth. -/
theorem scanNumber_value (F : FloatConv) {m I f e : Bytes} (hm : m = [] ∨ m = [Ch.minus])
    (hI : IntPart I) (hf : FracPart f) (he : ExpPart e) (hE : |expValue e| < 100000)
    (hin : InText s p (m ++ I ++ f ++ e) t) (hint : CountersFit I f e) :
    (∀ x j, scanNumber F kParseDefault s (p + 1) = .double_fast x j → x.InInt) ∧
      ((∀ x j, scanNumber F kParseDefault s (p + 1) = .double_fast x j → x.Keeps (absValue I f e)) ↔
        ¬ (f = [] ∧ e ≠ [] ∧ decimal (I.drop 19) ≠ 0)) := by
  have hread := scanNumber_read F kParseDefault hm hI hf he hin
  rw [absRead_eq hE] at hread
  exact ⟨fun x j hx => scanNumber_counters hm hI hf he hin hint hx, hread⟩

end

/-- Conversions that fail, and a slow one. -/
def slowFloats : FloatConv := ⟨fun _ => 0, fun _ _ => none, fun _ _ _ => none, fun _ _ _ => none,
    fun _ => 0⟩

/-- `1.5e3`. -/
theorem scanNumber_value_fraction :
    (∀ x j, scanNumber slowFloats kParseDefault [49, 46, 53, 101, 51] (0 + 1) = .double_fast x j →
    x.InInt) ∧
    ((∀ x j, scanNumber slowFloats kParseDefault [49, 46, 53, 101, 51] (0 + 1) = .double_fast x j →
      x.Keeps (absValue [49] [46, 53] [101, 51])) ↔
        ¬ (([46, 53] : Bytes) = [] ∧ ([101, 51] : Bytes) ≠ [] ∧
          decimal (([49] : Bytes).drop 19) ≠ 0)) :=
  scanNumber_value (m := []) (t := []) slowFloats (.inl rfl)
    (.pos (by decide) (by decide) (by decide +kernel)) (.some (by decide) (by decide +kernel))
    (.some (.inl rfl) (.inl rfl) (by decide) (by decide +kernel)) (by decide)
    ⟨at_zero _, trivial⟩ ⟨by decide, by decide, by decide⟩

/-- `12345678901234567891e0` loses its last digit, and the flag does not say so. -/
theorem scanNumber_exponent : ¬ ∀ (F : FloatConv) (s t m I f e : Bytes)
    (p : ℕ), (m = [] ∨ m = [Ch.minus]) → IntPart I → FracPart f →
    ExpPart e → |expValue e| < 100000 → InText s p (m ++ I ++ f ++ e) t →
      ∀ x j, scanNumber F kParseDefault s (p + 1) = .double_fast x j → x.Keeps (absValue I f e) := by
  intro h
  have hkeeps := h slowFloats
    [49, 50, 51, 52, 53, 54, 55, 56, 57, 48, 49, 50, 51, 52, 53, 54, 55, 56, 57, 49, 101, 48] [] []
    [49, 50, 51, 52, 53, 54, 55, 56, 57, 48, 49, 50, 51, 52, 53, 54, 55, 56, 57, 49] []
    [101, 48] 0 (.inl rfl)
    (.pos (by decide) (by decide) (by decide +kernel)) .none
    (.some (.inl rfl) (.inl rfl) (by decide) (by decide +kernel)) (by decide)
    ⟨at_zero _, trivial⟩ ⟨1, 1234567890123456789, 19, 1 + 0 * 1, false⟩ 22 (by rfl)
  have hdec : decimal ([49, 50, 51, 52, 53, 54, 55, 56, 57, 48, 49, 50, 51, 52, 53, 54, 55, 56, 57,
      49] ++ List.drop 1 []) =
      12345678901234567891 := by rfl
  have hexp : expValue [101, 48] - (List.drop 1 ([] : Bytes)).length = 0 := by rfl
  rw [absValue, hdec, hexp] at hkeeps
  norm_num [Num.Keeps] at hkeeps

end SonicJson
