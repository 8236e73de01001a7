/-
# Integers

A token without fraction and exponent. The first nineteen digits are kept on 64 bits, the
twentieth is looked at on its own, and from the twenty-first on the number is too great for
an integer type. So a number in the range of its type is delivered exactly
(`parseNumber_in_range`), and every other one goes on to the conversion, or is scanned again
as a string (`parseNumber_out_of_range`). Either scan ends with the token (`parseNumber_i`).
-/
import SonicJson.NumberPrefix
import SonicJson.NumberValue

namespace SonicJson

open Cursor

/-- The range of the integer type that goes with the sign. -/
def IntInRange (m : Bytes) (v : ℕ) : Prop := if m = [] then v < 2 ^ 64 else v ≤ 2 ^ 63

/-- The event for an integer in range: a zero has no sign. -/
def intEvent (m : Bytes) (v : ℕ) : Scalar := if m = [] ∨ v = 0 then .Uint v else .Int (-v)

section
variable {F : FloatConv} {flags : ParseFlags} {s t m I : Bytes} {len p : ℕ}

theorem signOf_eq (hm : m = [] ∨ m = [Ch.minus]) : signOf m = -1 ↔ m ≠ [] := by
  rcases hm with rfl | rfl
  · exact iff_of_false (by decide) (by decide)
  · exact iff_of_true rfl (by decide)

/-- What the number of digits says of the size. -/
theorem IntPart.size (hI : IntPart I) (h0 : I ≠ [Ch.zero]) :
    0 < I.length ∧ 10 ^ (I.length - 1) ≤ decimal I ∧ decimal I < 10 ^ I.length := by
  refine ⟨?_, ?_, decimal_lt hI.digits⟩
  · cases hI <;> simp
  · cases hI with
    | zero => exact absurd rfl h0
    | @pos d ds hd hd0 _ =>
      have hall : ∀ n : Fin 256, is_digit (UInt8.ofNat n) = true → UInt8.ofNat n ≠ Ch.zero →
          1 ≤ (UInt8.ofNat n).toNat - 48 := by
        decide +kernel
      have h1 := hall ⟨d.toNat, d.toNat_lt⟩
      simp only [UInt8.ofNat_toNat] at h1
      rw [decimal_cons, List.length_cons, Nat.add_sub_cancel]
      calc 10 ^ ds.length = 1 * 10 ^ ds.length := (Nat.one_mul _).symm
        _ ≤ (d.toNat - 48) * 10 ^ ds.length := Nat.mul_le_mul_right _ (h1 hd hd0)
        _ ≤ (d.toNat - 48) * 10 ^ ds.length + decimal ds := Nat.le_add_right _ _

/-- Of twenty digits the last one is read again. -/
theorem twenty_digits {u : Bytes} (hI : ∀ b ∈ I, is_digit b = true) (h : At s p (m ++ (I ++ u)))
    (h20 : I.length = 20) :
    decimal I = decimal (I.take 19) * 10 + ((rd s (p + m.length + I.length - 1)).toNat - 48) ∧
      (rd s (p + m.length + I.length - 1)).toNat - 48 ≤ 9 := by
  have hdrop : (I.drop 19).length = 1 := by rw [List.length_drop, h20]
  obtain ⟨b, hb⟩ := List.length_eq_one_iff.mp hdrop
  have hsplit : I.take 19 ++ [b] = I := by rw [← hb, List.take_append_drop]
  have htake : (I.take 19).length = 19 := by rw [List.length_take, h20]; rfl
  have hrd : rd s (p + m.length + I.length - 1) = b := by
    have h1 : At s (p + m.length + (I.take 19).length) ([b] ++ u) := by
      have := h.append
      rw [← hsplit, List.append_assoc] at this
      exact this.append
    rw [htake] at h1
    rw [h20]
    exact rd_at h1
  have hdec : decimal I = decimal (I.take 19) * 10 + decimal [b] := by
    conv_lhs => rw [← hsplit]
    rw [decimal_append, List.length_singleton, pow_one]
  rw [hrd]
  refine ⟨?_, digit_le (hI b (by rw [← hsplit]; exact List.mem_append_right _ List.mem_cons_self))⟩
  rw [hdec, decimal_cons]
  simp [decimal]

/-- **The end of an integer**: in its range it is delivered, and else converted or scanned again. -/
theorem scan_integer_end_spec {u : Bytes} (hm : m = [] ∨ m = [Ch.minus]) (hI : IntPart I)
    (h0 : I ≠ [Ch.zero]) (hraw : flags.kParseIntegerAsRaw = false) (h : At s p (m ++ (I ++ u))) :
    let x := Num.mk (signOf m) (decimal (I.take 19)) (min I.length 19) (I.length - 19 : ℕ) false
    let i := p + m.length + I.length
    (IntInRange m (decimal I) →
    scan_integer_end F flags s p x i = .done (.event i (intEvent m (decimal I)))) ∧
      (¬ IntInRange m (decimal I) →
        (flags.kParseOverflowNumAsNumStr = true →
          scan_integer_end F flags s p x i = .done (parseNumberAsString s (p + 1))) ∧
        (flags.kParseOverflowNumAsNumStr = false →
          (scan_integer_end F flags s p x i =
            .done (.event i (.Double (negDouble (F.u64 (decimal I))))) ∧ m ≠ [] ∧
            decimal I < 2 ^ 64) ∨
          scan_integer_end F flags s p x i = .double_fast { x with trunc := true } i)) := by
  dsimp only
  obtain ⟨hlen, hge, hlt⟩ := hI.size h0
  have hpos : decimal I ≠ 0 := by
    have : 0 < 10 ^ (I.length - 1) := Nat.pow_pos (by decide)
    omega
  have hmax : kUint64Max / 10 = 1844674407370955161 := by decide
  have hmod : (2 ^ 32 - 1) % 10 = 5 := by decide
  have h19 : (10 : ℕ) ^ 19 = 10000000000000000000 := by norm_num
  unfold scan_integer_end IntInRange intEvent
  rw [hmax, hmod]
  simp only [hraw, Bool.false_eq_true, if_false, signOf_eq hm]
  rcases Nat.lt_or_ge 19 I.length with hbig | hsmall
  · by_cases h20 : I.length = 20
    · -- twenty digits: too many for a negative number
      obtain ⟨hdec, hdig⟩ := twenty_digits hI.digits h h20
      rw [h20] at hge
      have hexp : ((I.length - 19 : ℕ) : ℤ) = 1 := by omega
      have hone : ¬ (1 : ℤ) = 0 := by decide
      simp only [hexp, hone, if_true, if_false]
      generalize (rd s (p + m.length + I.length - 1)).toNat - 48 = num at *
      generalize decimal (I.take 19) = man at *
      rw [show 20 - 1 = 19 by rfl, h19] at hge
      by_cases hfit : man < 1844674407370955161 ∨ man = 1844674407370955161 ∧ num ≤ 5
      · have hin : decimal I < 2 ^ 64 := by omega
        rw [if_pos hfit]
        by_cases hmn : m = []
        · simp only [hmn, ne_eq, not_true_eq_false, if_true, if_false, true_or]
          refine ⟨fun _ => ?_, fun hc => absurd hin hc⟩
          rw [Nat.mod_eq_of_lt (by omega), hdec]
        · simp only [hmn, ne_eq, not_false_eq_true, if_true, if_false]
          refine ⟨fun hc => absurd hc (by omega),
            fun _ => ⟨fun hov => by rw [if_pos hov], fun hov => .inl ⟨?_, trivial, hin⟩⟩⟩
          rw [hov, if_neg (by decide), Nat.mod_eq_of_lt (by omega), hdec]
      · have hout : ¬ decimal I < 2 ^ 64 := by omega
        rw [if_neg hfit]
        refine ⟨fun hc => ?_, fun _ => ⟨fun hov => by rw [if_pos hov],
          fun hov => .inr (by rw [hov, if_neg (by decide)])⟩⟩
        split at hc <;> omega
    · have hexp : ¬ ((I.length - 19 : ℕ) : ℤ) = 0 := by omega
      have hexp' : ¬ ((I.length - 19 : ℕ) : ℤ) = 1 := by omega
      simp only [hexp, hexp', if_false]
      have hhuge : 10 ^ 20 ≤ decimal I := le_trans (Nat.pow_le_pow_right (by decide) (by omega)) hge
      refine ⟨fun hc => ?_,
        fun _ => ⟨fun hov => by rw [if_pos hov], fun hov => .inr (by rw [hov, if_neg (by decide)])⟩⟩
      split at hc <;> omega
  · have hexp : ((I.length - 19 : ℕ) : ℤ) = 0 := by omega
    have htake : I.take 19 = I := List.take_of_length_le (by omega)
    have hlt19 : decimal I < 10 ^ 19 := hlt.trans_le (Nat.pow_le_pow_right (by decide) hsmall)
    rw [h19] at hlt19
    simp only [hexp, if_true, htake]
    by_cases hmn : m = []
    · simp only [hmn, ne_eq, not_true_eq_false, if_false, if_true, true_or]
      exact ⟨fun _ => trivial, fun hc => absurd (by omega) hc⟩
    · simp only [hmn, ne_eq, not_false_eq_true, if_true, if_false, hpos, or_self]
      by_cases hover : 2 ^ 63 < decimal I
      · simp only [hover, if_true]
        refine ⟨fun hc => absurd hc (by omega),
          fun _ => ⟨fun hov => by rw [if_pos hov], fun hov => .inl ⟨?_, trivial, by omega⟩⟩⟩
        rw [hov, if_neg (by decide)]
      · simp only [hover, if_false]
        exact ⟨fun _ => trivial, fun hc => absurd (by omega) hc⟩

/-- A zero without fraction and exponent. -/
theorem scanNumber_zero_int (hm : m = [] ∨ m = [Ch.minus]) (hraw : flags.kParseIntegerAsRaw = false)
    (h : At s p (m ++ ([Ch.zero] ++ t))) (ht : NumEnd t) :
    scanNumber F flags s (p + 1) = .done (.event (p + m.length + 1) (.Uint 0)) := by
  unfold scanNumber
  dsimp only
  rw [Nat.add_sub_cancel, sign_end hm .zero h]
  have h1 := h.append
  have h2 : At s (p + m.length + 1) ([] ++ t) := h1.succ
  have hexp : isExp (rd s (p + m.length + 1)) = false := by
    cases t with
    | nil => exact isExp_nil h2
    | cons b t =>
      have h3 : At s (p + m.length + 1) (b :: t) := h2
      rw [rd_at h3]
      exact ht.2.2
  rw [if_pos (rd_at h1), if_neg (rd_ne_dot h2 .none ht), hexp, if_neg (by decide), hraw,
    if_neg (by decide)]

/-- **An integer in the range of its type is delivered exactly.** -/
theorem parseNumber_in_range (hm : m = [] ∨ m = [Ch.minus]) (hI : IntPart I)
    (hraw : flags.kParseIntegerAsRaw = false) (hin : InText s p (m ++ I) t)
    (hv : IntInRange m (decimal I)) :
    parseNumber F flags s len (p + 1) = .event (p + (m ++ I).length) (intEvent m (decimal I)) := by
  have hat : At s p (m ++ (I ++ t)) := by simpa only [List.append_assoc] using hin.at'
  rw [parseNumber_eq, List.length_append, ← Nat.add_assoc]
  by_cases h0 : I = [Ch.zero]
  · subst h0
    rw [scanNumber_zero_int hm hraw hat hin.stop]
    have hz : intEvent m (decimal [Ch.zero]) = .Uint 0 := if_pos (.inr rfl)
    rw [hz]
    rfl
  · obtain ⟨x, rfl, hcases⟩ := @scanNumber_pos F _ _ _ flags _ _ [] [] hm hI h0 .none .none hin.stop
      (by simpa only [List.nil_append] using hat)
    rcases hcases with ⟨-, -, hr⟩ | ⟨j, ⟨-, hne, -⟩ | ⟨hne, -⟩⟩
    · rw [hr, (scan_integer_end_spec hm hI h0 hraw hat).1 hv]
      rfl
    · exact absurd rfl hne
    · exact absurd rfl hne

end

/-! ### The second scan, as a string -/

instance (m : Bytes) (v : ℕ) : Decidable (IntInRange m v) := inferInstanceAs (Decidable (ite _ _ _))

/-- What the token of the parts `m`, `I`, `f` and `e` is as a string: the integers in range and the
zeros are not kept. -/
def tokenAsString (m I f e : Bytes) : Scalar :=
  if f = [] ∧ e = [] then if IntInRange m (decimal I) then intEvent m (decimal I) else .NumStr (m ++ I)
  else if I = [Ch.zero] ∧ (f.drop 1).all (· == Ch.zero) = true ∧
    e ≠ [] then .Double (mulSgn 0 (signOf m))
  else .NumStr (m ++ (I ++ (f ++ e)))

section
variable {s t m I f e : Bytes} {p i start : ℕ}

theorem slice_text {tok : Bytes} (h : At s p (tok ++ t)) {j : ℕ} (hj : j = p + tok.length) :
    slice s p j = tok := by
  subst hj
  unfold slice
  rw [h.drop, Nat.add_sub_cancel_left, List.take_left]

/-- An exponent, and what ends the number behind it. -/
theorem exp_in_text (h : At s i (e ++ t)) (he : ExpPart e) (hne : e ≠ []) (ht : NumEnd t) :
    isExp (rd s i) = true ∧ is_digit (rd s (expDigits s i)) = true ∧
      expDigits s i + (digitsAt s (expDigits s i)).length = i + e.length := by
  obtain ⟨hexp, hscan⟩ := scan_exp_value (x := ⟨1, 0, 0, 0, false⟩) h he hne ht
  unfold scan_exp at hscan
  dsimp only at hscan
  unfold expDigits
  by_cases hd : is_digit (rd s (if isSign (rd s (i + 1)) then i + 1 + 1 else i + 1)) = true
  · rw [hd, if_neg (by decide)] at hscan
    injection hscan with _ hpos
    exact ⟨hexp, hd, hpos⟩
  · rw [Bool.not_eq_true] at hd
    rw [hd, if_pos (by decide)] at hscan
    cases hscan

theorem stringExp_text (h : At s i (e ++ t)) (he : ExpPart e) (hne : e ≠ []) (ht : NumEnd t) :
    stringExp s start i = .event (i + e.length) (.NumStr (slice s start (i + e.length))) := by
  obtain ⟨-, hd, hpos⟩ := exp_in_text h he hne ht
  unfold expDigits at hd hpos
  unfold stringExp
  dsimp only
  rw [hd, if_neg (by decide), hpos]

theorem zero_exp_text {sgn : ℤ} (h : At s i (e ++ t)) (he : ExpPart e) (hne : e ≠ []) (ht : NumEnd t) :
    zero_exp s sgn i = .event (i + e.length) (.Double (mulSgn 0 sgn)) := by
  obtain ⟨-, hd, hpos⟩ := exp_in_text h he hne ht
  unfold expDigits at hd hpos
  unfold zero_exp
  dsimp only
  rw [hd, if_neg (by decide), hpos]

theorem isExp_iff_ne_nil (h : At s i (e ++ t)) (he : ExpPart e) (ht : NumEnd t) :
    isExp (rd s i) = true ↔ e ≠ [] := by
  refine ⟨?_, fun hne => (exp_in_text h he hne ht).1⟩
  rintro hexp rfl
  rw [List.nil_append] at h
  cases t with
  | nil =>
    rw [isExp_nil h] at hexp
    cases hexp
  | cons b t =>
    rw [rd_at h, ht.2.2] at hexp
    cases hexp

theorem stringFract_text {D : Bytes} (h : At s i (D ++ (e ++ t))) (hD : ∀ d ∈ D, is_digit d = true)
    (he : ExpPart e) (ht : NumEnd t) :
    stringFract s start i =
      .event (i + (D ++ e).length) (.NumStr (slice s start (i + (D ++ e).length))) := by
  have hdig := digitsAt_eq h hD (he.digits_follow ht)
  have h1 := h.append
  unfold stringFract
  dsimp only
  rw [hdig, List.length_append, ← Nat.add_assoc]
  by_cases hne : e = []
  · subst hne
    have hx : isExp (rd s (i + D.length)) = false := by
      rw [← Bool.not_eq_true, isExp_iff_ne_nil h1 .none ht]
      exact not_not.mpr rfl
    rw [hx, if_pos (by decide)]
    rfl
  · rw [(exp_in_text h1 he hne ht).1, if_neg (by decide), stringExp_text h1 he hne ht]

/-- The digits of an integer on 64 bits. -/
theorem carry_decimal {ds : Bytes} (hd : ∀ d ∈ ds, is_digit d = true) (hlen : ds.length ≤ 19) :
    carry 0 ds = decimal ds := by
  have hlt := decimal_lt hd
  have h19 : 10 ^ ds.length ≤ 10 ^ 19 := Nat.pow_le_pow_right (by decide) hlen
  have := @carry_eq 0 ds (by rw [Nat.zero_mul, Nat.zero_add]; omega)
  rwa [Nat.zero_mul, Nat.zero_add] at this

/-- The integer of the second scan. -/
theorem integer_as_string (hm : m = [] ∨ m = [Ch.minus]) (hI : IntPart I) (h0 : I ≠ [Ch.zero])
    {u : Bytes} (hat : At s p (m ++ (I ++ u))) :
    (if I.length ≤ 19 then
        if rd s p == Ch.minus then
          if 2 ^ 63 < carry 0 I then NumRes.event (p + m.length + I.length) (.NumStr (m ++ I))
          else .event (p + m.length + I.length) (.Int (-carry 0 I))
        else .event (p + m.length + I.length) (.Uint (carry 0 I))
      else if I.length = 20 then
        if carry 0 (I.take 19) < kUint64Max / 10 ∨ carry 0 (I.take 19) = kUint64Max / 10 ∧
            (rd s (p + m.length + I.length - 1)).toNat - 48 ≤ kUint64Max % 10 then
          if signOf m = -1 then .event (p + m.length + I.length) (.NumStr (m ++ I))
          else .event (p + m.length + I.length)
            (.Uint (carry 0 (I.take 19) * 10 + ((rd s (p + m.length + I.length - 1)).toNat - 48)))
        else .event (p + m.length + I.length) (.NumStr (m ++ I))
      else .event (p + m.length + I.length) (.NumStr (m ++ I))) =
      .event (p + m.length + I.length) (if IntInRange m (decimal I) then intEvent m (decimal I)
        else .NumStr (m ++ I)) := by
  obtain ⟨hlen, hge, hlt⟩ := hI.size h0
  have hpos : decimal I ≠ 0 := by
    have : 0 < 10 ^ (I.length - 1) := Nat.pow_pos (by decide)
    omega
  have hmax : kUint64Max / 10 = 1844674407370955161 := by decide
  have hmod : kUint64Max % 10 = 5 := by decide
  have h19 : (10 : ℕ) ^ 19 = 10000000000000000000 := by norm_num
  have hneg : (rd s p == Ch.minus) = true ↔ m ≠ [] := by
    have hfac := sign_factor hm hI hat
    rw [← signOf_eq hm, ← hfac]
    by_cases hc : (rd s p == Ch.minus) = true
    · rw [if_pos hc]
      exact iff_of_true hc rfl
    · rw [if_neg hc]
      exact iff_of_false hc (by decide)
  unfold IntInRange intEvent
  rw [hmax, hmod]
  simp only [hneg, signOf_eq hm]
  rcases Nat.lt_or_ge 19 I.length with hbig | hsmall
  · rw [if_neg (by omega)]
    by_cases h20 : I.length = 20
    · obtain ⟨hdec, hdig⟩ := twenty_digits hI.digits hat h20
      have htake : (I.take 19).length = 19 := by rw [List.length_take, h20]; rfl
      have hcarry : carry 0 (I.take 19) = decimal (I.take 19) :=
        carry_decimal (fun d hd => hI.digits d (List.mem_of_mem_take hd)) htake.le
      rw [h20] at hge
      rw [if_pos h20, hcarry]
      generalize (rd s (p + m.length + I.length - 1)).toNat - 48 = num at *
      generalize decimal (I.take 19) = man at *
      rw [show 20 - 1 = 19 by rfl, h19] at hge
      by_cases hfit : man < 1844674407370955161 ∨ man = 1844674407370955161 ∧ num ≤ 5
      · have hin : decimal I < 2 ^ 64 := by omega
        rw [if_pos hfit]
        by_cases hmn : m = []
        · simp only [hmn, ne_eq, not_true_eq_false, if_true, if_false, true_or, hin]
          rw [hdec]
        · have hout : ¬ decimal I ≤ 2 ^ 63 := by omega
          simp only [hmn, ne_eq, not_false_eq_true, if_true, if_false, hout]
      · have hout : ¬ decimal I < 2 ^ 64 := by omega
        have hout' : ¬ decimal I ≤ 2 ^ 63 := by omega
        rw [if_neg hfit]
        by_cases hmn : m = []
        · simp only [hmn, if_true, hout, if_false]
        · simp only [hmn, hout', if_false]
    · have hhuge : 10 ^ 20 ≤ decimal I := le_trans (Nat.pow_le_pow_right (by decide) (by omega)) hge
      have hout : ¬ decimal I < 2 ^ 64 := by omega
      have hout' : ¬ decimal I ≤ 2 ^ 63 := by omega
      rw [if_neg h20]
      by_cases hmn : m = []
      · simp only [hmn, if_true, hout, if_false]
      · simp only [hmn, hout', if_false]
  · have hlt19 : decimal I < 10 ^ 19 := hlt.trans_le (Nat.pow_le_pow_right (by decide) hsmall)
    rw [h19] at hlt19
    rw [if_pos hsmall, carry_decimal hI.digits hsmall]
    by_cases hmn : m = []
    · have hin : decimal I < 2 ^ 64 := by omega
      simp only [hmn, ne_eq, not_true_eq_false, if_false, if_true, true_or, hin]
    · simp only [hmn, ne_eq, not_false_eq_true, if_true, if_false, hpos, or_self]
      by_cases hover : 2 ^ 63 < decimal I
      · have hout : ¬ decimal I ≤ 2 ^ 63 := by omega
        simp only [hover, hout, if_true, if_false]
      · have hin : decimal I ≤ 2 ^ 63 := by omega
        simp only [hover, hin, if_true, if_false]

/-- **The second scan ends with the token**, and keeps it as it is unless it is an integer in range
or a zero. -/
theorem parseNumberAsString_text (hm : m = [] ∨ m = [Ch.minus]) (hI : IntPart I) (hf : FracPart f)
    (he : ExpPart e) (h : InText s p (m ++ (I ++ (f ++ e))) t) :
    parseNumberAsString s (p + 1) =
      .event (p + (m ++ (I ++ (f ++ e))).length) (tokenAsString m I f e) := by
  have ht := h.stop
  have hat : At s p (m ++ (I ++ (f ++ (e ++ t)))) := by simpa only [List.append_assoc] using h.at'
  have htok : ∀ j, j = p + (m ++ (I ++ (f ++ e))).length → slice s p j = m ++ (I ++ (f ++ e)) :=
    fun j hj => slice_text h.at' hj
  have hend : ∀ j, j = p + m.length + I.length + f.length + e.length →
      j = p + (m ++ (I ++ (f ++ e))).length := by
    intro j hj
    simp only [List.length_append]
    omega
  have h1 := hat.append
  have h2 := h1.append
  have hsgn := sign_factor hm hI hat
  rw [parseNumberAsString_eq, sign_end hm hI hat]
  unfold stringBody tokenAsString
  dsimp only
  rw [hsgn]
  by_cases h0 : I = [Ch.zero]
  · subst h0
    have hdec : IntInRange m (decimal [Ch.zero]) := by
      unfold IntInRange
      split <;> decide
    have hev : intEvent m (decimal [Ch.zero]) = .Uint 0 := if_pos (.inr rfl)
    rw [if_pos (rd_at h1), if_pos hdec, hev]
    rw [List.length_singleton] at h2 hend
    cases hf with
    | none =>
      have h3 : At s (p + m.length + 1) (e ++ t) := h2
      rw [if_neg (rd_ne_dot h3 he ht)]
      by_cases hne : e = []
      · subst hne
        have hx : ¬ isExp (rd s (p + m.length + 1)) = true :=
          fun hc => (isExp_iff_ne_nil h3 .none ht).mp hc rfl
        rw [if_neg hx, if_pos ⟨rfl, rfl⟩, ← hend (p + m.length + 1) rfl]
      · rw [if_pos ((isExp_iff_ne_nil h3 he ht).mpr hne), if_neg fun hc => hne hc.2,
          if_pos ⟨rfl, rfl, hne⟩, zero_exp_text h3 he hne ht,
          ← hend (p + m.length + 1 + e.length) rfl]
    | @some d ds hd hds =>
      have h3 : At s (p + m.length + 1 + 1) (d :: ds ++ (e ++ t)) := h2.succ
      have hall : ∀ b ∈ d :: ds, is_digit b = true := by
        intro b hb
        rcases List.mem_cons.mp hb with rfl | hb
        exacts [hd, hds b hb]
      have hnf : ¬ (Ch.dot :: d :: ds = [] ∧ e = []) := fun hc => List.cons_ne_nil _ _ hc.1
      have hdd : ¬ (!is_digit d) = true := by rw [hd]; decide
      rw [if_pos (rd_at h2), if_neg (by rw [rd_at h3]; exact hdd), if_neg hnf]
      have hz := zeros_digits h3
      rw [digitsAt_eq h3 hall (he.digits_follow ht)] at hz
      have hzero : ∀ z ∈ zerosAt s (p + m.length + 1 + 1), z = Ch.zero := by
        intro z hz
        simpa using List.mem_takeWhile_imp hz
      have hstop := zerosAt_stop h3
      generalize hZ : zerosAt s (p + m.length + 1 + 1) = Z at *
      generalize hDD : digitsAt s (p + m.length + 1 + 1 + Z.length) = D at *
      have hlen : (d :: ds).length = Z.length + D.length := by
        rw [← hz, List.length_append]
      have h4 : At s (p + m.length + 1 + 1 + Z.length) (D ++ (e ++ t)) := by
        rw [← hz, List.append_assoc] at h3
        exact h3.append
      have hD : ∀ b ∈ D, is_digit b = true := fun b hb => hall b (hz ▸ List.mem_append_right _ hb)
      cases D with
      | cons b D =>
        -- a digit that is not zero
        have hb := hD b List.mem_cons_self
        have hb0 : b ≠ Ch.zero := by rwa [rd_at h4] at hstop
        have hx : ¬ isExp (rd s (p + m.length + 1 + 1 + Z.length)) = true := by
          intro hc
          rw [rd_at h4] at hc
          rw [is_digit_of_isExp hc] at hb
          cases hb
        have hnz : ¬ ([Ch.zero] = [Ch.zero] ∧
            ((Ch.dot :: d :: ds).drop 1).all (· == Ch.zero) = true ∧ e ≠ []) := by
          rintro ⟨-, hc, -⟩
          exact hb0
            (eq_of_beq
            (List.all_eq_true.mp hc b
            (by
              rw [List.drop_succ_cons, List.drop_zero, ← hz]
              exact List.mem_append_right _ List.mem_cons_self)))
        rw [if_neg hx, if_neg hnz, stringFract_text h4 hD he ht]
        have hj := hend (p + m.length + 1 + 1 + Z.length + ((b :: D) ++ e).length) (by
          rw [List.length_append, @List.length_cons _ _ (d :: ds), hlen]
          omega)
        rw [htok _ hj, ← hj]
      | nil =>
        rw [List.append_nil] at hz
        have h5 : At s (p + m.length + 1 + 1 + Z.length) (e ++ t) := h4
        by_cases hne : e = []
        · subst hne
          have hx : ¬ isExp (rd s (p + m.length + 1 + 1 + Z.length)) = true :=
            fun hc => (isExp_iff_ne_nil h5 .none ht).mp hc rfl
          rw [if_neg hx, if_neg (fun hc => hc.2.2 rfl), stringFract_text h4 hD .none ht]
          have hj := hend (p + m.length + 1 + 1 + Z.length + (([] : Bytes) ++ []).length) (by
            rw [@List.length_cons _ _ (d :: ds), hlen]
            simp only [List.length_nil, List.append_nil]
            omega)
          rw [htok _ hj, ← hj]
        · have hzall : ((Ch.dot :: d :: ds).drop 1).all (· == Ch.zero) = true := by
            rw [List.drop_succ_cons, List.drop_zero, ← hz]
            exact List.all_eq_true.mpr fun z hz => beq_iff_eq.mpr (hzero z hz)
          rw [if_pos ((isExp_iff_ne_nil h5 he ht).mpr hne), if_pos ⟨rfl, hzall, hne⟩,
            zero_exp_text h5 he hne ht]
          have hj := hend (p + m.length + 1 + 1 + Z.length + e.length) (by
            rw [@List.length_cons _ _ (d :: ds), hlen]
            simp only [List.length_nil]
            omega)
          rw [← hj]
  · have hdig := digitsAt_eq h1 hI.digits (follow_digits hf he ht)
    obtain ⟨hlen, hge, hlt⟩ := hI.size h0
    have hhead : rd s (p + m.length) ≠ Ch.zero := by
      cases hI with
      | zero => exact absurd rfl h0
      | pos _ hd0 _ =>
        rw [rd_at h1]
        exact hd0
    have hn0 : ¬ p + m.length + I.length - (p + m.length) = 0 := by omega
    rw [if_neg hhead, hdig, if_neg hn0, Nat.add_sub_cancel_left]
    have hnz : ¬ (I = [Ch.zero] ∧ (f.drop 1).all (· == Ch.zero) = true ∧ e ≠ []) := fun hc => h0 hc.1
    cases hf with
    | none =>
      have h3 : At s (p + m.length + I.length) (e ++ t) := h2
      rw [if_neg (rd_ne_dot h3 he ht)]
      by_cases hne : e = []
      · subst hne
        have hx : ¬ isExp (rd s (p + m.length + I.length)) = true :=
          fun hc => (isExp_iff_ne_nil h3 .none ht).mp hc rfl
        have hj := hend (p + m.length + I.length) rfl
        have hstr : m ++ (I ++ ([] ++ [])) = m ++ I := by rw [List.append_nil, List.append_nil]
        rw [if_neg hx, if_pos (⟨rfl, rfl⟩ : ([] : Bytes) = [] ∧ ([] : Bytes) = []), htok _ hj, ← hj,
          hstr]
        exact integer_as_string hm hI h0 hat
      · have hj := hend (p + m.length + I.length + e.length) rfl
        rw [if_pos ((isExp_iff_ne_nil h3 he ht).mpr hne), if_neg fun hc => hne hc.2, if_neg hnz,
          stringExp_text h3 he hne ht, htok _ hj, ← hj]
    | @some d ds hd hds =>
      have h3 : At s (p + m.length + I.length + 1) (d :: ds ++ (e ++ t)) := h2.succ
      have hall : ∀ b ∈ d :: ds, is_digit b = true := by
        intro b hb
        rcases List.mem_cons.mp hb with rfl | hb
        exacts [hd, hds b hb]
      have hnf : ¬ (Ch.dot :: d :: ds = [] ∧ e = []) := fun hc => List.cons_ne_nil _ _ hc.1
      have hj := hend (p + m.length + I.length + 1 + (d :: ds ++ e).length) (by
        rw [List.length_append, @List.length_cons _ _ (d :: ds)]
        omega)
      rw [if_pos (rd_at h2), if_neg hnf, if_neg hnz, stringFract_text h3 hall he ht, htok _ hj, ← hj]

end

/-! ### A point or an exponent -/

section
variable {F : FloatConv} {flags : ParseFlags} {s t m I f e : Bytes} {p len : ℕ}

/-- A zero with an exponent. -/
theorem scanNumber_zero_exp (hm : m = [] ∨ m = [Ch.minus]) (hf : FracPart f) (he : ExpPart e)
    (hne : e ≠ []) (hz : ∀ z ∈ f.drop 1, z = Ch.zero)
    (h : InText s p (m ++ ([Ch.zero] ++ (f ++ e))) t) :
    scanNumber F flags s (p + 1) = .done
      (.event (p + (m ++ ([Ch.zero] ++ (f ++ e))).length) (.Double (mulSgn 0 (signOf m)))) := by
  have ht := h.stop
  have hat : At s p (m ++ ([Ch.zero] ++ (f ++ (e ++ t)))) := by
    simpa only [List.append_assoc] using h.at'
  have h1 := hat.append
  have h2 : At s (p + m.length + 1) (f ++ (e ++ t)) := h1.succ
  unfold scanNumber
  dsimp only
  rw [Nat.add_sub_cancel, sign_end hm .zero hat, sign_factor hm .zero hat, if_pos (rd_at h1)]
  simp only [List.length_append, List.length_singleton, ← Nat.add_assoc]
  cases hf with
  | none =>
    have h3 : At s (p + m.length + 1) (e ++ t) := h2
    rw [if_neg (rd_ne_dot h3 he ht), if_pos ((isExp_iff_ne_nil h3 he ht).mpr hne),
      zero_exp_text h3 he hne ht]
    rfl
  | @some d ds hd hds =>
    have h3 : At s (p + m.length + 1 + 1) (d :: ds ++ (e ++ t)) := h2.succ
    rw [List.drop_succ_cons, List.drop_zero] at hz
    have hzeros : zerosAt s (p + m.length + 1 + 1) = d :: ds := by
      unfold zerosAt
      rw [h3.drop]
      apply takeWhile_append_of_not (fun z hzm => beq_iff_eq.mpr (hz z hzm))
      intro b r hb
      have := he.digits_follow ht b r hb
      rw [beq_eq_false_iff_ne]
      rintro rfl
      exact absurd this (by decide)
    have h4 := h3.append
    have hdd : ¬ (!is_digit d) = true := by rw [hd]; decide
    have hend : p + m.length + 1 + 1 + (d :: ds).length + e.length =
        p + m.length + 1 + (Ch.dot :: d :: ds).length + e.length := by
      rw [@List.length_cons _ _ (d :: ds)]
      omega
    rw [if_pos (rd_at h2), if_neg (by rw [rd_at h3]; exact hdd), hzeros,
      if_pos ((isExp_iff_ne_nil h4 he ht).mpr hne), zero_exp_text h4 he hne ht, hend]

/-- A number with a point or an exponent is converted, or a zero whose exponent is read. -/
theorem scanNumber_floating (hm : m = [] ∨ m = [Ch.minus]) (hI : IntPart I) (hf : FracPart f)
    (he : ExpPart e) (hfe : f ≠ [] ∨ e ≠ []) (h : InText s p (m ++ (I ++ (f ++ e))) t) :
    (∃ x j, scanNumber F flags s (p + 1) = .double_fast x j) ∨
    ∃ d, (parseNumber F flags s len (p + 1)).ev = some (.Double d) := by
  have hat : At s p (m ++ (I ++ (f ++ (e ++ t)))) := by simpa only [List.append_assoc] using h.at'
  by_cases h0 : I = [Ch.zero]
  · subst h0
    rcases scanNumber_zero hm hf he h.stop hat with ⟨r, -, -, hz, hfe'⟩ | ⟨Z, D, j, -, -, -, -, -, hr⟩
    · have hne : e ≠ [] := by
        rcases hfe' with rfl | hne
        · exact hfe.resolve_left fun hc => hc rfl
        · exact hne
      rw [parseNumber_eq, scanNumber_zero_exp hm hf he hne hz h]
      exact .inr ⟨_, rfl⟩
    · exact .inl ⟨_, _, hr⟩
  · obtain ⟨x, -, ⟨rfl, rfl, -⟩ | ⟨j, ⟨-, -, hr⟩ | ⟨-, hr⟩⟩⟩ :=
      @scanNumber_pos F _ _ _ flags _ _ _ _ hm hI h0 hf he h.stop hat
    · rcases hfe with hc | hc <;> exact absurd rfl hc
    · exact .inl ⟨_, _, hr⟩
    · exact .inl ⟨_, _, hr⟩

/-- **A number with a point or an exponent is never an integer**: it is converted, or kept as it is. -/
theorem parseNumber_floating (hm : m = [] ∨ m = [Ch.minus]) (hI : IntPart I) (hf : FracPart f)
    (he : ExpPart e) (hfe : f ≠ [] ∨ e ≠ []) (h : InText s p (m ++ (I ++ (f ++ e))) t) :
    (∃ d, (parseNumber F flags s len (p + 1)).ev = some (.Double d)) ∨
      (parseNumber F flags s len (p + 1)).ev = some (.NumStr (m ++ (I ++ (f ++ e)))) := by
  have hstr : (∃ d, tokenAsString m I f e = .Double d) ∨
      tokenAsString m I f e = .NumStr (m ++ (I ++ (f ++ e))) := by
    unfold tokenAsString
    rw [if_neg (by rw [not_and_or]; exact hfe)]
    split
    · exact .inl ⟨_, rfl⟩
    · exact .inr rfl
  rcases @scanNumber_floating F flags s _ _ _ _ _ _ len hm hI hf he hfe h with ⟨x, j, hx⟩ | hd
  swap
  · exact .inl hd
  rw [parseNumber_eq, hx]
  unfold NumScan.convert double_fast
  dsimp only
  rw [Nat.add_sub_cancel, parseNumberAsString_text hm hI hf he h]
  split
  · exact .inl ⟨_, rfl⟩
  split
  · exact .inl ⟨_, rfl⟩
  split
  · rcases hstr with ⟨d, hd⟩ | hd
    · exact .inl ⟨d, congrArg some hd⟩
    · exact .inr (congrArg some hd)
  · exact .inl ⟨_, rfl⟩

end

/-! ### Where a number ends -/

section
variable {F : FloatConv} {flags : ParseFlags} {s tok t : Bytes} {p len : ℕ}

theorem double_fast_or_string (x : Num) (i : ℕ) :
    double_fast F flags s len p x i = parseNumberAsString s (p + 1) ∨
    double_fast F flags s len p x i = double_fast F flags.scan s len p x i := by
  unfold double_fast ParseFlags.scan
  dsimp only
  split
  · exact .inr rfl
  split
  · exact .inr rfl
  split
  · exact .inl rfl
  · exact .inr (if_neg (by simp)).symm

theorem scan_integer_end_or_string (x : Num) (i : ℕ) :
    scan_integer_end F flags s p x i = .done (parseNumberAsString s (p + 1)) ∨
      scan_integer_end F flags s p x i = scan_integer_end F flags.scan s p x i := by
  obtain ⟨allow, raw, overflow⟩ := flags
  cases overflow with
  | false => exact .inr rfl
  | true =>
    unfold scan_integer_end ParseFlags.scan
    dsimp only
    generalize kUint64Max / 10 = top
    split
    · exact .inr rfl
    split
    · split
      · split
        · exact .inl rfl
        · exact .inr rfl
      · exact .inr rfl
    split
    · split
      · split
        · exact .inl rfl
        · exact .inr rfl
      · exact .inl rfl
    · exact .inl rfl

/-- Beside the scan of a number there is only `parseNumberAsString`. -/
theorem parseNumber_or_string : parseNumber F flags s len (p + 1) = parseNumberAsString s (p + 1) ∨
    parseNumber F flags s len (p + 1) = parseNumber F flags.scan s len (p + 1) := by
  rw [parseNumber_eq, parseNumber_eq]
  have hscan : scanNumber F flags s (p + 1) = .done (parseNumberAsString s (p + 1)) ∨
      scanNumber F flags s (p + 1) = scanNumber F flags.scan s (p + 1) := by
    unfold scanNumber
    rw [Nat.add_sub_cancel]
    dsimp only
    generalize (if rd s p == Ch.minus then p + 1 else p) = i
    generalize (if rd s p == Ch.minus then (-1 : ℤ) else 1) = sgn
    split
    · exact .inr rfl
    split
    · exact .inr rfl
    split
    · exact .inr rfl
    split
    · exact .inr rfl
    · exact scan_integer_end_or_string _ _
  rcases hscan with h | h
  · exact .inl (by rw [h]; rfl)
  · rw [h]
    cases scanNumber F flags.scan s (p + 1) with
    | done r => exact .inr rfl
    | double_fast x i => exact double_fast_or_string x i

/-- **Where a number ends**: with any flags and conversions, at the end of its token. -/
theorem parseNumber_i (h : InText s p tok t) (htok : NumTok tok) :
    (parseNumber F flags s len (p + 1)).Ok ∧
    (parseNumber F flags s len (p + 1)).i = p + tok.length := by
  rcases @parseNumber_or_string F flags s p len with he | he
  · obtain @⟨m, I, f, e, hm, hI, hf, hx⟩ := htok
    rw [List.append_assoc, List.append_assoc] at h ⊢
    rw [he, parseNumberAsString_text hm hI hf hx h]
    exact ⟨.inl rfl, rfl⟩
  · have hs := @parseNumber_shift (F.slow fun _ => F.AtofNative (slice s p len)) flags.scan s tok t
      p len h rfl htok rfl
    obtain ⟨hok, hi⟩ := @parseNumber_token (F.slow fun _ => F.AtofNative (slice s p len)) flags.scan
      tok.length rfl tok htok
    rw [he, ← @parseNumber_slow F flags.scan s p len (fun _ => F.AtofNative (slice s p len)) rfl,
      hs.i, hi]
    refine ⟨?_, rfl⟩
    rwa [NumRes.Ok, hs.err]

end

end SonicJson
