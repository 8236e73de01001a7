/-
# What follows a number

The scan of a number in front of bytes that it has stopped at, whatever they are: it
returns what it returns of the token alone (`parseNumber_alone`), unless the slow
conversion, which is given all that is left of the text, makes something else of that.
-/
import SonicJson.Node

namespace SonicJson

open Cursor

theorem takeWhile_append_le {p : UInt8 → Bool} {t : Bytes} : ∀ {a : Bytes},
    ((a ++ t).takeWhile p).length ≤ a.length → a.takeWhile p = (a ++ t).takeWhile p
  | [], h => by
    rw [List.nil_append] at h ⊢
    rw [List.takeWhile_nil, List.length_eq_zero_iff.mp (Nat.le_zero.mp h)]
  | b :: a, h => by
    rw [List.cons_append, List.takeWhile_cons] at h
    rw [List.cons_append, List.takeWhile_cons, List.takeWhile_cons]
    by_cases hb : p b = true
    · rw [if_pos hb, List.length_cons, List.length_cons, Nat.succ_le_succ_iff] at h
      rw [if_pos hb, if_pos hb, takeWhile_append_le h]
    · rw [if_neg hb, if_neg hb]

theorem digitsAt_pos {s : Bytes} {i : ℕ} (h : is_digit (rd s i) = true) :
    0 < (digitsAt s i).length := by
  have hlt : i < s.length := rd_nonzero_lt fun h0 => by
    rw [h0] at h
    exact absurd h (by decide)
  rw [digitsAt_cons (at_drop hlt.le) h]
  exact Nat.succ_pos _

/-- `tok` stands at `p` in `s`, in front of any bytes. -/
def Front (s : Bytes) (p : ℕ) (tok t : Bytes) : Prop := At s p (tok ++ t)

section
variable {s tok t : Bytes} {p j : ℕ} (h : Front s p tok t)
include h

namespace Front

theorem rd_left (hj : j < tok.length) :
    rd s (p + j) = rd tok j := by rw [rd_at_add h, rd_append_left hj]

theorem drop_left (hj : j ≤ tok.length) : s.drop (p + j) = tok.drop j ++ t := by
  rw [← List.drop_drop, At.drop h, List.drop_append_of_le_length hj]

theorem le_length : p + tok.length ≤ s.length := by
  have := At.length_add h
  rw [List.length_append] at this
  omega

theorem digits_left (hle : j + (digitsAt s (p + j)).length ≤ tok.length) :
    digitsAt tok j = digitsAt s (p + j) := by
  have hd := h.drop_left (j := j) (by omega)
  rw [digitsAt, digitsAt, hd]
  refine takeWhile_append_le ?_
  rw [digitsAt, hd] at hle
  rw [List.length_drop]
  omega

theorem zeros_left (hle : j + (zerosAt s (p + j)).length ≤ tok.length) :
    zerosAt tok j = zerosAt s (p + j) := by
  have hd := h.drop_left (j := j) (by omega)
  rw [zerosAt, zerosAt, hd]
  refine takeWhile_append_le ?_
  rw [zerosAt, hd] at hle
  rw [List.length_drop]
  omega

/-- At the end of the token there is no byte. -/
theorem rd_left_or (hj : j ≤ tok.length) : rd tok j = rd s (p + j) ∨ rd tok j = 0 := by
  rcases Nat.lt_or_eq_of_le hj with hj | rfl
  · exact .inl (h.rd_left hj).symm
  · exact .inr (rd_of_length_le le_rfl)

theorem exp_left (hj : j ≤ tok.length) (he : isExp (rd s (p + j)) = false) :
    isExp (rd tok j) = false := by
  rcases h.rd_left_or hj with h1 | h1
  · rw [h1, he]
  · rw [h1]
    decide

theorem dot_left (hj : j ≤ tok.length) (hd : rd s (p + j) ≠ Ch.dot) : rd tok j ≠ Ch.dot := by
  rcases h.rd_left_or hj with h1 | h1
  · rw [h1]
    exact hd
  · rw [h1]
    decide

theorem slice_left (hj : j ≤ tok.length) : slice s p (p + j) = slice tok 0 j := by
  rw [slice, slice, At.drop h, Nat.add_sub_cancel_left, Nat.sub_zero, List.drop_zero,
    List.take_append_of_le_length hj]

/-- The exponent of the token. -/
theorem expDigits_left (hd : is_digit (rd s (expDigits s (p + j))) = true)
    (hle : expDigits s (p + j) + (digitsAt s (expDigits s (p + j))).length ≤ p + tok.length) :
    expDigits s (p + j) = p + expDigits tok j ∧ rd s (p + j + 1) = rd tok (j + 1) ∧
      is_digit (rd tok (expDigits tok j)) = true ∧
        digitsAt tok (expDigits tok j) = digitsAt s (expDigits s (p + j)) := by
  have hpos := digitsAt_pos hd
  have hlow : p + j + 1 ≤ expDigits s (p + j) := by
    unfold expDigits
    split <;> omega
  have h1 : rd s (p + j + 1) = rd tok (j + 1) := by
    rw [Nat.add_assoc, h.rd_left (by omega)]
  have h2 : expDigits s (p + j) = p + expDigits tok j := by
    unfold expDigits
    rw [h1]
    split <;> omega
  rw [h2] at hd hle hpos ⊢
  have h3 := h.digits_left (j := expDigits tok j) (by omega)
  rw [h.rd_left (by omega)] at hd
  exact ⟨rfl, h1, hd, h3⟩

end Front

end

/-! ### The parts of a number -/

/-- The same flags but for `kParseOverflowNumAsNumStr`. -/
def ParseFlags.scan (flags : ParseFlags) : ParseFlags :=
  { flags with kParseOverflowNumAsNumStr := false }

section
variable {F : FloatConv} {flags : ParseFlags} {s tok t : Bytes} {p j len : ℕ} {x : Num}
variable (h : Front s p tok t)

/-- A number that is kept as a string is the same one. -/
def StringSame (flags : ParseFlags) (s tok : Bytes) (p : ℕ) : Prop :=
  flags.kParseOverflowNumAsNumStr = true →
    (parseNumberAsString s (p + 1)).Shift p (parseNumberAsString tok 1)

variable (hF : SlowSame F s tok p len) (hS : StringSame flags s tok p)

include hF hS in
theorem double_fast_alone (j : ℕ) :
    (double_fast F flags s len p x (p + j)).Shift p (double_fast F flags tok tok.length 0 x j) := by
  have hp : parseFloatEiselLemire64 F s len (p + 1) x =
      parseFloatEiselLemire64 F tok tok.length (0 + 1) x := by
    unfold parseFloatEiselLemire64
    rw [Nat.add_sub_cancel, Nat.add_sub_cancel, hF]
  unfold double_fast
  rw [hp]
  dsimp only
  split
  · exact ⟨rfl, rfl, rfl⟩
  split
  · exact ⟨rfl, rfl, rfl⟩
  split
  · rename_i hstr
    rw [Bool.and_eq_true] at hstr
    exact hS hstr.1
  · exact ⟨rfl, rfl, rfl⟩

include h in
theorem zero_exp_alone {sgn : ℤ} (hok : (zero_exp s sgn (p + j)).Ok)
    (hi : (zero_exp s sgn (p + j)).i = p + tok.length) :
    (zero_exp s sgn (p + j)).Shift p (zero_exp tok sgn j) := by
  rw [zero_exp_eq] at hok hi ⊢
  by_cases hd : is_digit (rd s (expDigits s (p + j))) = true
  swap
  · rw [if_pos (by simpa using hd)] at hok
    exact absurd hok (NumRes.not_ok_fail _)
  rw [if_neg (by simpa using hd)] at hi ⊢
  obtain ⟨h1, -, h2, h3⟩ := h.expDigits_left hd hi.le
  rw [zero_exp_eq, if_neg (by simpa using h2), h3, h1, Nat.add_assoc]
  exact ⟨rfl, rfl, rfl⟩

include h hF hS in
theorem double_exp_alone (hok : (double_exp F flags.scan s len p x (p + j)).Ok)
    (hi : (double_exp F flags.scan s len p x (p + j)).i = p + tok.length) :
    (double_exp F flags s len p x (p + j)).Shift p (double_exp F flags tok tok.length 0 x j) := by
  rw [double_exp_eq] at hok hi ⊢
  by_cases hd : is_digit (rd s (expDigits s (p + j))) = true
  swap
  · rw [if_pos (by simpa using hd)] at hok
    exact absurd hok (NumRes.not_ok_fail _)
  have hd' : ¬(!is_digit (rd s (expDigits s (p + j)))) = true := by simpa using hd
  rw [if_neg hd', (double_fast_ok rfl).2] at hi
  obtain ⟨h1, h2, h3, h4⟩ := h.expDigits_left hd hi.le
  have h3' : ¬(!is_digit (rd tok (expDigits tok j))) = true := by simpa using h3
  rw [double_exp_eq, if_neg hd', if_neg h3', h4, h2, h1, Nat.add_assoc]
  exact double_fast_alone hF hS _

theorem expDigits_lt {s : Bytes} {i : ℕ} : i < expDigits s i := by
  unfold expDigits
  split <;> omega

include h hF hS in
theorem double_fract_alone {exp10_s : ℕ} (hj : p + j ≤ s.length) (hx : exp10_s ≤ j)
    (hok : (double_fract F flags.scan s len p (p + exp10_s) x (p + j)).Ok)
    (hi : (double_fract F flags.scan s len p (p + exp10_s) x (p + j)).i = p + tok.length) :
    (double_fract F flags s len p (p + exp10_s) x (p + j)).Shift p
      (double_fract F flags tok tok.length 0 exp10_s x j) := by
  rw [double_fract_eq (at_drop hj) (by omega)] at hok hi ⊢
  dsimp only at hok hi ⊢
  have hsub : p + j - (p + exp10_s) = j - exp10_s := by omega
  by_cases he : isExp (rd s (p + j + (digitsAt s (p + j)).length)) = true
  · rw [if_neg (by simpa using he)] at hok hi ⊢
    have hle : p + j + (digitsAt s (p + j)).length < p + tok.length := by
      rw [double_exp_eq] at hok hi
      split at hok
      · exact absurd hok (NumRes.not_ok_fail _)
      · rename_i hd
        rw [if_neg hd, (double_fast_ok rfl).2] at hi
        have := @expDigits_lt s (p + j + (digitsAt s (p + j)).length)
        omega
    have h1 := h.digits_left (j := j) (by omega)
    rw [Nat.add_assoc p] at he hok hi ⊢
    rw [double_fract_eq (at_drop (by omega)) hx, h1, hsub]
    dsimp only
    rw [if_neg (by rw [← h.rd_left (by omega), he]; decide)]
    exact double_exp_alone h hF hS (hsub ▸ hok) (hsub ▸ hi)
  · rw [if_pos (by simpa using he)] at hok hi ⊢
    rw [(double_fast_ok rfl).2] at hi
    have h1 := h.digits_left (j := j) (by omega)
    rw [Nat.add_assoc p] at he ⊢
    rw [double_fract_eq (at_drop (by omega)) hx, h1, hsub]
    dsimp only
    rw [if_pos (by rw [h.exp_left (by omega) (by simpa using he)]; rfl)]
    exact double_fast_alone hF hS _

include h hF hS in
theorem integer_end_alone (hj : j ≤ tok.length) (hj0 : 0 < j) :
    (integer_end F flags s len p x (p + j)).Shift p (integer_end F flags tok tok.length 0 x j) := by
  have hrd : rd s (p + j - 1) = rd tok (j - 1) := by
    rw [show p + j - 1 = p + (j - 1) by omega, h.rd_left (by omega)]
  have he : ∀ e, (NumRes.event (p + j) e).Shift p (NumRes.event j e) := fun e => ⟨rfl, rfl, rfl⟩
  have hd := fun y => @double_fast_alone F flags s tok p len y hF hS j
  unfold integer_end
  simp only [hrd, h.slice_left hj]
  split_ifs with h1 h2 h3 h4 h5
  all_goals first | exact he _ | exact hd _ | exact hS ‹_›

/-! ### Where the parts end -/

theorem zero_exp_lt {s : Bytes} {sgn : ℤ} {i : ℕ} (hok : (zero_exp s sgn i).Ok) :
    i < (zero_exp s sgn i).i := by
  rw [zero_exp_eq] at hok ⊢
  split at hok
  · exact absurd hok (NumRes.not_ok_fail _)
  · rename_i hd
    rw [if_neg hd]
    exact Nat.lt_of_lt_of_le expDigits_lt (Nat.le_add_right _ _)

theorem double_exp_lt {start i : ℕ} (hok : (double_exp F flags.scan s len start x i).Ok) :
    i < (double_exp F flags.scan s len start x i).i := by
  rw [double_exp_eq] at hok ⊢
  split at hok
  · exact absurd hok (NumRes.not_ok_fail _)
  · rename_i hd
    rw [if_neg hd, (double_fast_ok rfl).2]
    exact Nat.lt_of_lt_of_le expDigits_lt (Nat.le_add_right _ _)

theorem double_fract_le {start exp10_s i : ℕ} (hj : i ≤ s.length) (hx : exp10_s ≤ i)
    (hok : (double_fract F flags.scan s len start exp10_s x i).Ok) :
    i + (digitsAt s i).length ≤ (double_fract F flags.scan s len start exp10_s x i).i := by
  rw [double_fract_eq (at_drop hj) hx] at hok ⊢
  dsimp only at hok ⊢
  split at hok
  · rename_i he
    rw [if_pos he, (double_fast_ok rfl).2]
  · rename_i he
    rw [if_neg he]
    exact (double_exp_lt hok).le

/-- There is a byte behind the sign. -/
theorem NumTok.sign {tok : Bytes} (h : NumTok tok) :
    (if rd tok 0 == Ch.minus then 0 + 1 else 0) < tok.length := by
  obtain @⟨m, ip, f, e, hm, hip, -, -⟩ := h
  obtain ⟨b, r, rfl⟩ : ∃ b r, ip = b :: r := by cases hip <;> exact ⟨_, _, rfl⟩
  rcases hm with rfl | rfl
  · rw [if_neg]
    · simp
    · rw [List.nil_append, List.append_assoc, List.cons_append, rd_cons_zero, beq_iff_eq]
      rintro rfl
      cases hip with
      | pos hd _ _ => exact absurd hd (by decide)
  · rw [if_pos]
    · simp
    · rfl

/-! ### The token alone -/

include h hF hS in
/-- **A number in front of anything** that the scan stops at is treated as it is alone. -/
theorem parseNumber_alone (htok : NumTok tok) (hok : (parseNumber F flags.scan s len (p + 1)).Ok)
    (hi : (parseNumber F flags.scan s len (p + 1)).i = p + tok.length) :
    (parseNumber F flags s len (p + 1)).Shift p (parseNumber F flags tok tok.length 1) := by
  have hl := h.le_length
  have hk := htok.sign
  have h0 : rd s p = rd tok 0 := h.rd_left (Nat.zero_lt_of_lt hk)
  obtain ⟨k, hki, hks⟩ : ∃ k, (if rd tok 0 == Ch.minus then 0 + 1 else 0) = k ∧
      (if rd tok 0 == Ch.minus then p + 1 else p) = p + k := by
    split
    · exact ⟨1, rfl, rfl⟩
    · exact ⟨0, rfl, rfl⟩
  rw [hki] at hk
  unfold parseNumber at hok hi ⊢
  simp only [Nat.add_sub_cancel, Nat.sub_self, h0, hki, hks] at hok hi ⊢
  clear hki hks
  generalize (if (rd tok 0 == Ch.minus) = true then (-1 : ℤ) else 1) = sgn at *
  rw [h.rd_left hk] at hok hi ⊢
  by_cases hz : rd tok k = Ch.zero
  · simp only [if_pos hz, Nat.add_assoc p] at hok hi ⊢
    by_cases hdot : rd s (p + (k + 1)) = Ch.dot
    · simp only [if_pos hdot] at hok hi ⊢
      by_cases hd : is_digit (rd s (p + (k + 1 + 1))) = true
      swap
      · rw [if_pos (by simpa using hd)] at hok
        exact absurd hok (NumRes.not_ok_fail _)
      have hd' : ¬(!is_digit (rd s (p + (k + 1 + 1)))) = true := by simpa using hd
      rw [if_neg hd'] at hok hi ⊢
      have hlt : p + (k + 1 + 1) < s.length := rd_nonzero_lt fun h1 => by
        rw [h1] at hd
        exact absurd hd (by decide)
      have hzle := zerosAt_le hlt.le
      -- zeros and digits behind the dot, one at least
      have hzd := congrArg List.length (zeros_digits (at_drop hlt.le))
      rw [List.length_append] at hzd
      have hpos := digitsAt_pos hd
      by_cases he : isExp (rd s (p + (k + 1 + 1 + (zerosAt s (p + (k + 1 + 1))).length))) = true
      · simp only [if_pos he] at hok hi ⊢
        have hend := zero_exp_lt hok
        have h1 : rd tok (k + 1) = Ch.dot := by rw [← h.rd_left (by omega), hdot]
        have h2 : ¬(!is_digit (rd tok (k + 1 + 1))) = true := by rwa [← h.rd_left (by omega)]
        have h3 := h.zeros_left (j := k + 1 + 1) (by omega)
        rw [if_pos h1, if_neg h2, h3, if_pos (by rwa [← h.rd_left (by omega)])]
        exact zero_exp_alone h hok hi
      · simp only [if_neg he] at hok hi ⊢
        have hend := double_fract_le (by omega) (by omega) hok
        rw [hi] at hend
        rw [show p + (k + 1 + 1) + (zerosAt s (p + (k + 1 + 1))).length =
          p + (k + 1 + 1 + (zerosAt s (p + (k + 1 + 1))).length) by omega] at hzd
        have h1 : rd tok (k + 1) = Ch.dot := by rw [← h.rd_left (by omega), hdot]
        have h2 : ¬(!is_digit (rd tok (k + 1 + 1))) = true := by rwa [← h.rd_left (by omega)]
        have h3 := h.zeros_left (j := k + 1 + 1) (by omega)
        rw [if_pos h1, if_neg h2, h3,
          if_neg (by rw [h.exp_left (by omega) (by simpa using he)]; decide)]
        exact double_fract_alone h hF hS (by omega) (by omega) hok hi
    · simp only [if_neg hdot] at hok hi ⊢
      by_cases he : isExp (rd s (p + (k + 1))) = true
      · simp only [if_pos he] at hok hi ⊢
        have hend := zero_exp_lt hok
        rw [if_neg (h.dot_left (by omega) hdot), if_pos (by rwa [← h.rd_left (by omega)])]
        exact zero_exp_alone h hok hi
      · have hk1 : p + (k + 1) = p + tok.length := by
          rw [if_neg he] at hi
          rw [← hi]
          split <;> rfl
        have he' : isExp (rd tok (k + 1)) = false := h.exp_left (by omega) (by simpa using he)
        rw [if_neg he, if_neg (h.dot_left (by omega) hdot), he', if_neg Bool.false_ne_true,
          h.slice_left (by omega)]
        split <;> exact ⟨rfl, rfl, rfl⟩
  · have hlk := digitsAt_le (s := s) (j := p + k) (by omega)
    simp only [if_neg hz, integer_digits_i, Nat.add_assoc p] at hok hi ⊢
    by_cases hnil : digitsAt s (p + k) = []
    · rw [if_pos (by simp [hnil])] at hok
      exact absurd hok (NumRes.not_ok_fail _)
    have hpos : 0 < (digitsAt s (p + k)).length := List.length_pos_iff.mpr hnil
    have hne : ¬p + (k + (digitsAt s (p + k)).length) = p + k := by omega
    simp only [if_neg hne] at hok hi ⊢
    -- the token has these digits
    have hnum : (digitsAt tok k) = digitsAt s (p + k) →
        (integer_digits s sgn (p + k)).1 = (integer_digits tok sgn k).1 := by
      intro hdig
      unfold integer_digits str2int
      simp only [hdig, Nat.add_sub_cancel_left]
      split <;> rfl
    have hne' : ¬k + (digitsAt s (p + k)).length = k := by omega
    by_cases hdot : rd s (p + (k + (digitsAt s (p + k)).length)) = Ch.dot
    · simp only [if_pos hdot] at hok hi ⊢
      by_cases hd : is_digit (rd s (p + (k + (digitsAt s (p + k)).length + 1))) = true
      swap
      · rw [if_pos (by simpa using hd)] at hok
        exact absurd hok (NumRes.not_ok_fail _)
      have hd' : ¬(!is_digit (rd s (p + (k + (digitsAt s (p + k)).length + 1)))) = true := by
        simpa using hd
      rw [if_neg hd'] at hok hi ⊢
      have hlt : p + (k + (digitsAt s (p + k)).length + 1) < s.length := rd_nonzero_lt fun h1 => by
        rw [h1] at hd
        exact absurd hd (by decide)
      have hend := double_fract_le hlt.le (by omega) hok
      have hpos' := digitsAt_pos hd
      rw [hi] at hend
      have h1 := h.digits_left (j := k) (by omega)
      have h2 : rd tok (k + (digitsAt s (p + k)).length) = Ch.dot := by
        rw [← h.rd_left (by omega), hdot]
      have h3 : ¬(!is_digit (rd tok (k + (digitsAt s (p + k)).length + 1))) = true := by
        rwa [← h.rd_left (by omega)]
      rw [h1, if_neg hne', if_pos h2, if_neg h3, ← hnum h1]
      exact double_fract_alone h hF hS hlt.le le_rfl hok hi
    · simp only [if_neg hdot] at hok hi ⊢
      by_cases he : isExp (rd s (p + (k + (digitsAt s (p + k)).length))) = true
      · simp only [if_pos he] at hok hi ⊢
        have hend := double_exp_lt hok
        have h1 := h.digits_left (j := k) (by omega)
        rw [h1, if_neg hne', if_neg (h.dot_left (by omega) hdot),
          if_pos (by rwa [← h.rd_left (by omega)]), ← hnum h1]
        exact double_exp_alone h hF hS hok hi
      · simp only [if_neg he] at hok hi ⊢
        rw [(integer_end_ok rfl).2] at hi
        have h1 := h.digits_left (j := k) (by omega)
        rw [h1, if_neg hne', if_neg (h.dot_left (by omega) hdot),
          if_neg (by rw [h.exp_left (by omega) (by simpa using he)]; decide), ← hnum h1]
        exact integer_end_alone h hF hS (by omega) (by omega)

/-! ### The token kept as a string -/

/-- The two outcomes are the same, and the scans stop behind the token. -/
structure SameEnd (p : ℕ) (tok : Bytes) (r r' : NumRes) : Prop extends NumRes.Shift p r r' where
  stop : r.i = p + tok.length

include h in
theorem same_event {f : Bytes → Scalar} {i j : ℕ} (hj : j = tok.length) (hi : i = p + j) :
    SameEnd p tok (.event i (f (slice s p i))) (.event j (f (slice tok 0 j))) := by
  subst hi hj
  rw [h.slice_left le_rfl]
  exact ⟨⟨rfl, rfl, rfl⟩, rfl⟩

include h in
theorem stringExp_alone (hok : (double_exp F flags.scan s len p x (p + j)).Ok)
    (hi : (double_exp F flags.scan s len p x (p + j)).i = p + tok.length) :
    SameEnd p tok (stringExp s p (p + j)) (stringExp tok 0 j) := by
  rw [double_exp_eq] at hok hi
  by_cases hd : is_digit (rd s (expDigits s (p + j))) = true
  swap
  · rw [if_pos (by simpa using hd)] at hok
    exact absurd hok (NumRes.not_ok_fail _)
  have hd' : ¬(!is_digit (rd s (expDigits s (p + j)))) = true := by simpa using hd
  rw [if_neg hd', (double_fast_ok rfl).2] at hi
  obtain ⟨h1, -, h3, h4⟩ := h.expDigits_left hd hi.le
  have h3' : ¬(!is_digit (rd tok (expDigits tok j))) = true := by simpa using h3
  have e1 : stringExp s p (p + j) = if !is_digit (rd s (expDigits s (p + j)))
      then .fail (expDigits s (p + j))
      else .event (expDigits s (p + j) + (digitsAt s (expDigits s (p + j))).length)
        (.NumStr (slice s p (expDigits s (p + j) + (digitsAt s (expDigits s (p + j))).length))) := rfl
  have e2 : stringExp tok 0 j = if !is_digit (rd tok (expDigits tok j)) then .fail (expDigits tok j)
      else .event (expDigits tok j + (digitsAt tok (expDigits tok j)).length)
        (.NumStr (slice tok 0 (expDigits tok j + (digitsAt tok (expDigits tok j)).length))) := rfl
  rw [e1, e2, if_neg hd', if_neg h3', h4]
  exact same_event h (by omega) (by omega)

include h in
theorem stringFract_alone {exp10_s : ℕ} (hj : p + j ≤ s.length) (hx : exp10_s ≤ j)
    (hok : (double_fract F flags.scan s len p (p + exp10_s) x (p + j)).Ok)
    (hi : (double_fract F flags.scan s len p (p + exp10_s) x (p + j)).i = p + tok.length) :
    SameEnd p tok (stringFract s p (p + j)) (stringFract tok 0 j) := by
  have hend := double_fract_le hj (by omega) hok
  rw [hi] at hend
  rw [double_fract_eq (at_drop hj) (by omega)] at hok hi
  dsimp only at hok hi
  have h1 := h.digits_left (j := j) (by omega)
  unfold stringFract
  rw [h1, Nat.add_assoc p] at *
  by_cases he : isExp (rd s (p + (j + (digitsAt s (p + j)).length))) = true
  · rw [if_neg (by simpa using he)] at hok hi
    have hlt := double_exp_lt hok
    dsimp only
    rw [if_neg (by rw [he]; decide), if_neg (by rw [← h.rd_left (by omega), he]; decide)]
    exact stringExp_alone h hok hi
  · rw [if_pos (by simpa using he), (double_fast_ok rfl).2] at hi
    have he' : isExp (rd tok (j + (digitsAt s (p + j)).length)) = false :=
      h.exp_left (by omega) (by simpa using he)
    dsimp only
    rw [if_pos (by simpa using he), he', if_pos (by decide)]
    exact same_event h (by omega) rfl

include h in
/-- Behind the digits of an integer that ends with them. -/
theorem stringInt_alone {neg : Bool} {ds : Bytes} (hj0 : 0 < j) (hj : j = tok.length) :
    SameEnd p tok
      (if ds.length ≤ 19 then
        if neg then if 2 ^ 63 < carry 0 ds then .event (p + j) (.NumStr (slice s p (p + j)))
          else .event (p + j) (.Int (-(carry 0 ds : ℤ)))
        else .event (p + j) (.Uint (carry 0 ds))
      else if ds.length = 20 then
        let man := carry 0 (ds.take 19)
        let num := (rd s (p + j - 1)).toNat - 48
        if man < kUint64Max / 10 ∨ man = kUint64Max / 10 ∧ num ≤ kUint64Max % 10 then
          if (if neg then -1 else 1 : ℤ) = -1 then .event (p + j) (.NumStr (slice s p (p + j)))
            else .event (p + j) (.Uint (man * 10 + num))
        else .event (p + j) (.NumStr (slice s p (p + j)))
      else .event (p + j) (.NumStr (slice s p (p + j))))
      (if ds.length ≤ 19 then
        if neg then if 2 ^ 63 < carry 0 ds then .event j (.NumStr (slice tok 0 j))
          else .event j (.Int (-(carry 0 ds : ℤ)))
        else .event j (.Uint (carry 0 ds))
      else if ds.length = 20 then
        let man := carry 0 (ds.take 19)
        let num := (rd tok (j - 1)).toNat - 48
        if man < kUint64Max / 10 ∨ man = kUint64Max / 10 ∧ num ≤ kUint64Max % 10 then
          if (if neg then -1 else 1 : ℤ) = -1 then .event j (.NumStr (slice tok 0 j))
            else .event j (.Uint (man * 10 + num))
        else .event j (.NumStr (slice tok 0 j))
      else .event j (.NumStr (slice tok 0 j))) := by
  have hrd : rd s (p + j - 1) = rd tok (j - 1) := by
    rw [show p + j - 1 = p + (j - 1) by omega, h.rd_left (by omega)]
  have hstr : SameEnd p tok (.event (p + j) (.NumStr (slice s p (p + j))))
    (.event j (.NumStr (slice tok 0 j))) :=
    same_event h hj rfl
  have hnum : ∀ e, SameEnd p tok (.event (p + j) e) (.event j e) :=
    fun e => ⟨⟨rfl, rfl, rfl⟩, by rw [hj]; rfl⟩
  rw [hrd]
  dsimp only
  split_ifs <;> first | exact hstr | exact hnum _

include h in
/-- **A number kept as a string**, in front of anything that the scan of a number stops at. -/
theorem parseNumberAsString_alone (htok : NumTok tok)
    (hok : (parseNumber F flags.scan s len (p + 1)).Ok)
    (hi : (parseNumber F flags.scan s len (p + 1)).i = p + tok.length) :
    SameEnd p tok (parseNumberAsString s (p + 1)) (parseNumberAsString tok 1) := by
  have hl := h.le_length
  have hk := htok.sign
  have h0 : rd s p = rd tok 0 := h.rd_left (Nat.zero_lt_of_lt hk)
  obtain ⟨k, hki, hks⟩ : ∃ k, (if rd tok 0 == Ch.minus then 0 + 1 else 0) = k ∧
      (if rd tok 0 == Ch.minus then p + 1 else p) = p + k := by
    split
    · exact ⟨1, rfl, rfl⟩
    · exact ⟨0, rfl, rfl⟩
  rw [hki] at hk
  have hstr := parseNumberAsString_eq tok 0
  rw [hki] at hstr
  rw [parseNumberAsString_eq, hstr]
  unfold parseNumber at hok hi
  simp only [Nat.add_sub_cancel, h0, hks] at hok hi ⊢
  clear hki hks hstr
  generalize (rd tok 0 == Ch.minus) = neg at *
  unfold stringBody
  rw [h.rd_left hk] at hok hi ⊢
  by_cases hz : rd tok k = Ch.zero
  · simp only [if_pos hz, Nat.add_assoc p] at hok hi ⊢
    by_cases hdot : rd s (p + (k + 1)) = Ch.dot
    · simp only [if_pos hdot] at hok hi ⊢
      by_cases hd : is_digit (rd s (p + (k + 1 + 1))) = true
      swap
      · rw [if_pos (by simpa using hd)] at hok
        exact absurd hok (NumRes.not_ok_fail _)
      have hd' : ¬(!is_digit (rd s (p + (k + 1 + 1)))) = true := by simpa using hd
      rw [if_neg hd'] at hok hi ⊢
      have hlt : p + (k + 1 + 1) < s.length := rd_nonzero_lt fun h1 => by
        rw [h1] at hd
        exact absurd hd (by decide)
      have hzle := zerosAt_le hlt.le
      have hzd := congrArg List.length (zeros_digits (at_drop hlt.le))
      rw [List.length_append] at hzd
      have hpos := digitsAt_pos hd
      by_cases he : isExp (rd s (p + (k + 1 + 1 + (zerosAt s (p + (k + 1 + 1))).length))) = true
      · simp only [if_pos he] at hok hi ⊢
        have hend := zero_exp_lt hok
        have h1 : rd tok (k + 1) = Ch.dot := by rw [← h.rd_left (by omega), hdot]
        have h2 : ¬(!is_digit (rd tok (k + 1 + 1))) = true := by rwa [← h.rd_left (by omega)]
        have h3 := h.zeros_left (j := k + 1 + 1) (by omega)
        have h4 : isExp (rd tok (k + 1 + 1 + (zerosAt s (p + (k + 1 + 1))).length)) = true := by
          rwa [← h.rd_left (by omega)]
        rw [if_pos h1, if_neg h2, h3, if_pos h4]
        exact ⟨zero_exp_alone h hok hi, hi⟩
      · simp only [if_neg he] at hok hi ⊢
        have hend := double_fract_le (by omega) (by omega) hok
        rw [hi] at hend
        rw [show p + (k + 1 + 1) + (zerosAt s (p + (k + 1 + 1))).length =
          p + (k + 1 + 1 + (zerosAt s (p + (k + 1 + 1))).length) by omega] at hzd
        have h1 : rd tok (k + 1) = Ch.dot := by rw [← h.rd_left (by omega), hdot]
        have h2 : ¬(!is_digit (rd tok (k + 1 + 1))) = true := by rwa [← h.rd_left (by omega)]
        have h3 := h.zeros_left (j := k + 1 + 1) (by omega)
        have h4 : isExp (rd tok (k + 1 + 1 + (zerosAt s (p + (k + 1 + 1))).length)) = false :=
          h.exp_left (by omega) (by simpa using he)
        rw [if_pos h1, if_neg h2, h3, h4, if_neg Bool.false_ne_true]
        exact stringFract_alone h (by omega) (by omega) hok hi
    · simp only [if_neg hdot] at hok hi ⊢
      by_cases he : isExp (rd s (p + (k + 1))) = true
      · simp only [if_pos he] at hok hi ⊢
        have hend := zero_exp_lt hok
        have he' : isExp (rd tok (k + 1)) = true := by rwa [← h.rd_left (by omega)]
        rw [if_neg (h.dot_left (by omega) hdot), if_pos he']
        exact ⟨zero_exp_alone h hok hi, hi⟩
      · have hk1 : p + (k + 1) = p + tok.length := by
          rw [if_neg he] at hi
          rw [← hi]
          split <;> rfl
        have he' : isExp (rd tok (k + 1)) = false := h.exp_left (by omega) (by simpa using he)
        rw [if_neg he, if_neg (h.dot_left (by omega) hdot), he', if_neg Bool.false_ne_true]
        exact ⟨⟨rfl, rfl, rfl⟩, hk1⟩
  · have hlk := digitsAt_le (s := s) (j := p + k) (by omega)
    simp only [if_neg hz, integer_digits_i, Nat.add_assoc p] at hok hi ⊢
    by_cases hnil : digitsAt s (p + k) = []
    · rw [if_pos (by simp [hnil])] at hok
      exact absurd hok (NumRes.not_ok_fail _)
    have hpos : 0 < (digitsAt s (p + k)).length := List.length_pos_iff.mpr hnil
    have hne : ¬p + (k + (digitsAt s (p + k)).length) = p + k := by omega
    have hnd : p + (k + (digitsAt s (p + k)).length) - (p + k) = (digitsAt s (p + k)).length := by omega
    have hnd' : k + (digitsAt s (p + k)).length - k = (digitsAt s (p + k)).length := by omega
    have hpos' : ¬(digitsAt s (p + k)).length = 0 := hpos.ne'
    simp only [if_neg hne] at hok hi
    by_cases hdot : rd s (p + (k + (digitsAt s (p + k)).length)) = Ch.dot
    · simp only [if_pos hdot] at hok hi ⊢
      by_cases hd : is_digit (rd s (p + (k + (digitsAt s (p + k)).length + 1))) = true
      swap
      · rw [if_pos (by simpa using hd)] at hok
        exact absurd hok (NumRes.not_ok_fail _)
      have hd' : ¬(!is_digit (rd s (p + (k + (digitsAt s (p + k)).length + 1)))) = true := by
        simpa using hd
      rw [if_neg hd'] at hok hi
      have hlt : p + (k + (digitsAt s (p + k)).length + 1) < s.length := rd_nonzero_lt fun h1 => by
        rw [h1] at hd
        exact absurd hd (by decide)
      have hend := double_fract_le hlt.le (by omega) hok
      have hdig := digitsAt_pos hd
      rw [hi] at hend
      have h1 := h.digits_left (j := k) (by omega)
      have h2 : rd tok (k + (digitsAt s (p + k)).length) = Ch.dot := by
        rw [← h.rd_left (by omega), hdot]
      rw [h1, hnd, hnd', if_neg hpos', if_neg hpos', if_pos h2]
      exact stringFract_alone h hlt.le le_rfl hok hi
    · simp only [if_neg hdot] at hok hi ⊢
      by_cases he : isExp (rd s (p + (k + (digitsAt s (p + k)).length))) = true
      · simp only [if_pos he] at hok hi ⊢
        have hend := double_exp_lt hok
        have h1 := h.digits_left (j := k) (by omega)
        have he' : isExp (rd tok (k + (digitsAt s (p + k)).length)) = true := by
          rwa [← h.rd_left (by omega)]
        rw [h1, hnd, hnd', if_neg hpos', if_neg hpos', if_neg (h.dot_left (by omega) hdot), if_pos he']
        exact stringExp_alone h hok hi
      · simp only [if_neg he] at hok hi ⊢
        rw [(integer_end_ok rfl).2] at hi
        have h1 := h.digits_left (j := k) (by omega)
        have he' : isExp (rd tok (k + (digitsAt s (p + k)).length)) = false :=
          h.exp_left (by omega) (by simpa using he)
        rw [h1, hnd, hnd', if_neg hpos', if_neg hpos', if_neg (h.dot_left (by omega) hdot), he',
          if_neg Bool.false_ne_true]
        exact stringInt_alone h (by omega) (by omega)

end

/-! ### Any outcome of a scan -/

/-- The conversions, with another slow one. -/
def FloatConv.slow (F : FloatConv) (g : Bytes → Double) : FloatConv := { F with AtofNative := g }

section
variable {F : FloatConv} {flags : ParseFlags} {s tok t u : Bytes} {p i len : ℕ} {x : Num}
    {g : Bytes → Double}

section
variable (hg : g (slice s p len) = F.AtofNative (slice s p len))
include hg

theorem double_fast_slow :
    double_fast (F.slow g) flags s len p x i = double_fast F flags s len p x i := by
  have hp : parseFloatEiselLemire64 (F.slow g) s len (p + 1) x =
      parseFloatEiselLemire64 F s len (p + 1) x := by
    unfold parseFloatEiselLemire64
    rw [Nat.add_sub_cancel, show (F.slow g).AtofNative = g from rfl, hg]
    rfl
  unfold double_fast
  rw [hp]
  rfl

theorem double_exp_slow : double_exp (F.slow g) flags s len p x i = double_exp F flags s len p x i := by
  rw [double_exp_eq, double_exp_eq, double_fast_slow hg]

theorem double_fract_slow {exp10_s : ℕ} :
    double_fract (F.slow g) flags s len p exp10_s x i = double_fract F flags s len p exp10_s x i := by
  simp only [double_fract, double_fast_slow hg, double_exp_slow hg]

theorem integer_end_slow :
    integer_end (F.slow g) flags s len p x i = integer_end F flags s len p x i := by
  simp only [integer_end, double_fast_slow hg]
  rfl

/-- The slow conversion is called with all that is left of the text. -/
theorem parseNumber_slow :
    parseNumber (F.slow g) flags s len (p + 1) = parseNumber F flags s len (p + 1) := by
  simp only [parseNumber, Nat.add_sub_cancel, double_fract_slow hg, double_exp_slow hg,
    integer_end_slow hg]

end

/-- The scan gets to the end of a number, where the other one stops, or the other one fails on a
byte, too. -/
def Ends (s : Bytes) (p : ℕ) (r r' : NumRes) : Prop :=
  r.Ok ∧ (r'.i = r.i ∨ r'.i = (parseNumberAsString s (p + 1)).i) ∨ ∃ i, r' = .fail i

theorem fail_ends {r : NumRes} : Ends s p r (.fail i) := .inr ⟨i, rfl⟩

theorem event_ends {e : Scalar} : Ends s p (.event i e) (.event i e) := .inl ⟨.inl rfl, .inl rfl⟩

theorem zero_exp_ends {sgn : ℤ} : Ends s p (zero_exp s sgn i) (zero_exp s sgn i) := by
  rw [zero_exp_eq]
  split
  exacts [fail_ends, event_ends]

theorem double_fast_i : (double_fast F flags s len p x i).i = i ∨
    (double_fast F flags s len p x i).i = (parseNumberAsString s (p + 1)).i := by
  unfold double_fast
  dsimp only
  split
  · exact .inl rfl
  split
  · exact .inl rfl
  split
  exacts [.inr rfl, .inl rfl]

theorem double_fast_ends :
    Ends s p (double_fast F flags.scan s len p x i) (double_fast F flags s len p x i) := by
  obtain ⟨hok, hi⟩ := @double_fast_ok F flags.scan s len i p x rfl
  exact .inl ⟨hok, hi.symm ▸ double_fast_i⟩

theorem double_exp_ends :
    Ends s p (double_exp F flags.scan s len p x i) (double_exp F flags s len p x i) := by
  rw [double_exp_eq, double_exp_eq]
  split
  exacts [fail_ends, double_fast_ends]

theorem double_fract_ends {exp10_s : ℕ} :
    Ends s p (double_fract F flags.scan s len p exp10_s x i)
      (double_fract F flags s len p exp10_s x i) := by
  unfold double_fract
  dsimp only
  split_ifs
  all_goals first | exact double_fast_ends | exact double_exp_ends

theorem integer_end_ends :
    Ends s p (integer_end F flags.scan s len p x i) (integer_end F flags s len p x i) := by
  obtain ⟨hok, hi⟩ := @integer_end_ok F flags.scan s len i p x rfl
  refine .inl ⟨hok, hi.symm ▸ ?_⟩
  unfold integer_end
  dsimp only
  split_ifs
  all_goals first | exact .inl rfl | exact .inr rfl | exact double_fast_i

theorem parseNumber_ends :
    Ends s p (parseNumber F flags.scan s len (p + 1)) (parseNumber F flags s len (p + 1)) := by
  have hraw : flags.scan.kParseIntegerAsRaw = flags.kParseIntegerAsRaw := rfl
  unfold parseNumber
  simp only [Nat.add_sub_cancel]
  rw [hraw]
  split_ifs
  all_goals with_reducible first
    | exact fail_ends
    | exact event_ends
    | exact zero_exp_ends
    | exact double_fract_ends
    | exact double_exp_ends
    | exact integer_end_ends

/-- The slow conversion is not come to with the token. -/
def Fast (F : FloatConv) (flags : ParseFlags) (tok : Bytes) : Prop :=
  ∀ g, numRes (F.slow g) flags tok = numRes F flags tok

/-- A token that is converted without the slow conversion is treated as it is alone, wherever it
stands. -/
theorem parseNumber_fast (h : InText s p tok t) (hflags : flags.kParseOverflowNumAsNumStr = false)
    (htok : NumTok tok) (hfast : Fast F flags tok) :
    (parseNumber F flags s len (p + 1)).Shift p (numRes F flags tok) := by
  -- with the value that the slow conversion has here for all texts
  have hsh := @parseNumber_shift (F.slow fun _ => F.AtofNative (slice s p len)) flags s tok t p len
    h hflags htok rfl
  rw [@parseNumber_slow F flags s p len (fun _ => F.AtofNative (slice s p len)) rfl] at hsh
  rwa [← hfast fun _ => F.AtofNative (slice s p len)]

/-- **What the handler is told of a number** is what it is told of the token alone, if the slow
conversion makes of all that is left of the text what it makes of the token, or is not come to. -/
theorem parseNumber_event {e : Scalar} (h : At s p u)
    (he : (parseNumber F flags s len (p + 1)).ev = some e) :
    ∃ tok t, u = tok ++ t ∧ NumToken tok t ∧ (parseNumber F flags s len (p + 1)).i = p + tok.length ∧
      (F.AtofNative (slice s p len) = F.AtofNative tok ∨ Fast F flags tok →
        (numRes F flags tok).ev = some e) := by
  rcases @parseNumber_ends F flags s p len with ⟨hok, hend⟩ | ⟨i, hi⟩
  swap
  · rw [hi] at he
    exact absurd he (by simp [NumRes.fail])
  obtain ⟨tok, t, rfl, htok, hi⟩ := parseNumber_sound rfl h hok
  have hself : slice tok 0 tok.length = tok := by
    rw [slice, List.drop_zero, Nat.sub_zero, List.take_length]
  have hsame := parseNumberAsString_alone h htok.numTok hok hi
  have hstr : StringSame flags s tok p := fun _ => hsame.toShift
  have hend' : (parseNumber F flags s len (p + 1)).i = p + tok.length := by
    rcases hend with hend | hend
    exacts [hend.trans hi, hend.trans hsame.stop]
  refine ⟨tok, t, rfl, htok, hend', ?_⟩
  rintro (hF | hfast)
  · have hsh := parseNumber_alone h (by rw [SlowSame, hself, hF]) hstr htok.numTok hok hi
    rw [numRes, ← hsh.ev, he]
  · -- with the value that the slow conversion has here for all texts
    obtain ⟨g, hg, hcst⟩ : ∃ g : Bytes → Double, g (slice s p len) = F.AtofNative (slice s p len) ∧
      ∀ u v, g u = g v :=
      ⟨fun _ => F.AtofNative (slice s p len), rfl, fun _ _ => rfl⟩
    have heq : ∀ flags, parseNumber (F.slow g) flags s len (p + 1) =
      parseNumber F flags s len (p + 1) :=
      fun flags => parseNumber_slow hg
    have hsh := parseNumber_alone (F := F.slow g) h (hcst _ _) hstr htok.numTok ((heq _).symm ▸ hok)
      ((heq _).symm ▸ hi)
    rw [heq] at hsh
    rw [← hfast g, numRes, ← hsh.ev, he]

end

end SonicJson
