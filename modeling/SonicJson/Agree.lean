/-
# Two buffers with one text

The scanners on two buffers that hold the same text, with the sentinel behind it
and anything behind the sentinel. A number ends at the `x`, a string at the quote,
and the skipping of values ends with the text: what they return is the same on
both buffers, errors and their positions included.
-/
import SonicJson.ParserText

namespace SonicJson

open Cursor

/-- The buffers hold the same bytes from `lo` on, up to an `x` at `hi`. -/
structure Agree (s s' : Bytes) (lo hi : ℕ) : Prop where
  text : ∃ u q q', At s lo (u ++ Ch.x :: q) ∧ At s' lo (u ++ Ch.x :: q') ∧ lo + u.length = hi

namespace Agree

variable {s s' : Bytes} {lo hi i j : ℕ}

theorem le (h : Agree s s' lo hi) : lo ≤ hi := by
  obtain ⟨u, q, q', -, -, rfl⟩ := h
  exact Nat.le_add_right _ _

theorem mono (h : Agree s s' lo hi) (h1 : lo ≤ i) (h2 : i ≤ hi) : Agree s s' i hi := by
  obtain ⟨u, q, q', hs, hs', rfl⟩ := h
  obtain ⟨k, rfl⟩ := Nat.exists_eq_add_of_le h1
  have hk : k ≤ u.length := by omega
  have e1 := hs.drop_at (k := k) (by simp; omega)
  have e2 := hs'.drop_at (k := k) (by simp; omega)
  rw [List.drop_append_of_le_length hk] at e1 e2
  exact ⟨u.drop k, q, q', e1, e2, by simp; omega⟩

theorem symm (h : Agree s s' lo hi) : Agree s' s lo hi := by
  obtain ⟨u, q, q', hs, hs', e⟩ := h
  exact ⟨u, q', q, hs', hs, e⟩

theorem rd_eq (h : Agree s s' lo hi) : rd s' lo = rd s lo := by
  obtain ⟨u, q, q', hs, hs', -⟩ := h
  cases u with
  | nil => exact (rd_at hs').trans (rd_at hs).symm
  | cons b u => exact (rd_at hs').trans (rd_at hs).symm

/-- A byte other than `x` is before the end. -/
theorem succ (h : Agree s s' lo hi) (hx : rd s lo ≠ Ch.x) : Agree s s' (lo + 1) hi := by
  refine h.mono (Nat.le_succ _) ?_
  obtain ⟨u, q, q', hs, -, rfl⟩ := h
  cases u with
  | nil => exact absurd (rd_at hs) hx
  | cons b u =>
    simp only [List.length_cons]
    omega

theorem takeWhile {p : UInt8 → Bool} (h : Agree s s' lo hi) (hp : p Ch.x = false) :
    (s'.drop lo).takeWhile p = (s.drop lo).takeWhile p ∧
    Agree s s' (lo + ((s.drop lo).takeWhile p).length) hi := by
  have hlen : ∀ (u q : Bytes), (u ++ Ch.x :: q).takeWhile p = u.takeWhile p := by
    intro u q
    induction u with
    | nil => rw [List.nil_append, List.takeWhile_cons, if_neg (by rw [hp]; decide), List.takeWhile_nil]
    | cons b u ih => rw [List.cons_append, List.takeWhile_cons, List.takeWhile_cons, ih]
  refine ⟨?_, h.mono (Nat.le_add_right _ _) ?_⟩
  · obtain ⟨u, q, q', hs, hs', -⟩ := h
    rw [hs.drop, hs'.drop, hlen, hlen]
  · obtain ⟨u, q, q', hs, -, rfl⟩ := h
    rw [hs.drop, hlen]
    have := (List.takeWhile_prefix (l := u) p).length_le
    omega

theorem slice_eq (h : Agree s s' lo hi) (hj : j ≤ hi) : slice s' lo j = slice s lo j := by
  obtain ⟨u, q, q', hs, hs', rfl⟩ := h
  rw [slice, slice, hs.drop, hs'.drop, List.take_append_of_le_length (by omega),
    List.take_append_of_le_length (by omega)]

theorem digitsAt_eq (h : Agree s s' lo hi) :
    digitsAt s' lo = digitsAt s lo := (h.takeWhile (by decide)).1

theorem digits (h : Agree s s' lo hi) : Agree s s' (lo + (digitsAt s lo).length) hi :=
  (h.takeWhile (by decide)).2

theorem zerosAt_eq (h : Agree s s' lo hi) : zerosAt s' lo = zerosAt s lo := (h.takeWhile (by decide)).1

theorem zeros (h : Agree s s' lo hi) : Agree s s' (lo + (zerosAt s lo).length) hi :=
  (h.takeWhile (by decide)).2

end Agree

/-! ### Numbers -/

section
variable {F : FloatConv} {flags : ParseFlags} {s s' : Bytes} {lo len i : ℕ} {x : Num}

/-- Behind an `e` and a sign. -/
theorem Agree.expStart (h : Agree s s' i len) (he : isExp (rd s i) = true) :
    Agree s s' (if isSign (rd s (i + 1)) then i + 1 + 1 else i + 1) len := by
  have h1 := h.succ fun hx => by
    rw [hx] at he
    exact absurd he (by decide)
  split
  · rename_i hs
    exact h1.succ fun hx => by
      rw [hx] at hs
      exact absurd hs (by decide)
  · exact h1

theorem Agree.zero_exp {sgn : ℤ} (h : Agree s s' i len) (he : isExp (rd s i) = true) :
    SonicJson.zero_exp s' sgn i = SonicJson.zero_exp s sgn i := by
  have h1 := h.succ fun hx => by
    rw [hx] at he
    exact absurd he (by decide)
  have h2 := h.expStart he
  simp only [SonicJson.zero_exp, h1.rd_eq, h2.rd_eq, h2.digitsAt_eq]

theorem ne_x {b c : UInt8} (h : b = c) (hc : c ≠ Ch.x) : b ≠ Ch.x := h ▸ hc

theorem isExp_ne_x {b : UInt8} (h : isExp b = true) : b ≠ Ch.x := fun hx => by
  rw [hx] at h
  exact absurd h (by decide)

/-- Behind the optional minus of a number. -/
theorem Agree.sign (h : Agree s s' lo len) :
    Agree s s' (if rd s lo == Ch.minus then lo + 1 else lo) len := by
  split
  · rename_i hm
    exact h.succ (ne_x (beq_iff_eq.mp hm) (by decide))
  · exact h

theorem Agree.stringExp {p : ℕ} (h : Agree s s' p len) (hi : Agree s s' i len)
    (he : isExp (rd s i) = true) :
    SonicJson.stringExp s' p i = SonicJson.stringExp s p i := by
  have h1 := hi.succ (isExp_ne_x he)
  have h2 := hi.expStart he
  simp only [SonicJson.stringExp, h1.rd_eq, h2.rd_eq, h2.digitsAt_eq, h.slice_eq h2.digits.le]

theorem Agree.stringFract {p : ℕ} (h : Agree s s' p len) (hi : Agree s s' i len) :
    SonicJson.stringFract s' p i = SonicJson.stringFract s p i := by
  simp only [SonicJson.stringFract, hi.digitsAt_eq, hi.digits.rd_eq, h.slice_eq hi.digits.le]
  refine ite_congr rfl (fun _ => rfl) fun he => ?_
  exact h.stringExp hi.digits (by simpa using he)

theorem Agree.stringBody {p : ℕ} {neg : Bool} (h : Agree s s' p len) (hi : Agree s s' i len) :
    SonicJson.stringBody s' p neg i = SonicJson.stringBody s p neg i := by
  unfold SonicJson.stringBody
  rw [hi.rd_eq]
  refine ite_congr rfl (fun hz => ?_) fun hz => ?_
  · have h1 := hi.succ (ne_x hz (by decide))
    rw [h1.rd_eq]
    refine ite_congr rfl (fun hd => ?_) fun hd => ?_
    · have h2 := h1.succ (ne_x hd (by decide))
      simp only [h2.rd_eq, h2.zerosAt_eq, h2.zeros.rd_eq, h.stringFract h2.zeros]
      refine ite_congr rfl (fun _ => rfl) fun _ => ite_congr rfl (fun he => ?_) fun _ => rfl
      exact h2.zeros.zero_exp he
    · refine ite_congr rfl (fun he => ?_) fun _ => rfl
      exact h1.zero_exp he
  · have hlast : 0 < (digitsAt s i).length → rd s' (i + (digitsAt s i).length - 1) =
      rd s (i + (digitsAt s i).length - 1) :=
      fun hpos => (hi.mono (by omega) (by have := hi.digits.le; omega)).rd_eq
    simp only [hi.digitsAt_eq, hi.digits.rd_eq, h.slice_eq hi.digits.le]
    refine ite_congr rfl (fun _ => rfl) fun hne => ?_
    rw [hlast (by omega)]
    refine ite_congr rfl (fun hd => ?_) fun _ => ite_congr rfl (fun he => ?_) fun _ => rfl
    · exact h.stringFract (hi.digits.succ (ne_x hd (by decide)))
    · exact h.stringExp hi.digits he

theorem Agree.parseNumberAsString (h : Agree s s' lo len) :
    SonicJson.parseNumberAsString s' (lo + 1) = SonicJson.parseNumberAsString s (lo + 1) := by
  rw [parseNumberAsString_eq, parseNumberAsString_eq, h.rd_eq, h.stringBody h.sign]

section
variable {p : ℕ} (h : Agree s s' p len)
include h

theorem Agree.double_fast :
    SonicJson.double_fast F flags s' len p x i = SonicJson.double_fast F flags s len p x i := by
  simp only [SonicJson.double_fast, parseFloatEiselLemire64, Nat.add_sub_cancel, h.slice_eq le_rfl,
    h.parseNumberAsString]

theorem Agree.double_exp (hi : Agree s s' i len) (he : isExp (rd s i) = true) :
    SonicJson.double_exp F flags s' len p x i = SonicJson.double_exp F flags s len p x i := by
  have h1 := hi.succ (isExp_ne_x he)
  have h2 := hi.expStart he
  simp only [SonicJson.double_exp, h1.rd_eq, h2.rd_eq, h2.digitsAt_eq, h.double_fast]

omit h in
theorem Agree.simd_str2int {n : ℕ} (hi : Agree s s' i len) :
    SonicJson.simd_str2int s' i n = SonicJson.simd_str2int s i n := by
  simp only [SonicJson.simd_str2int, hi.digitsAt_eq]

omit h in
/-- The digits that count are some of the digits at `i`. -/
theorem Agree.take {ds : Bytes} (hi : Agree s s' i len) (hds : ∃ n, ds = (digitsAt s i).take n) :
    Agree s s' (i + ds.length) len := by
  obtain ⟨n, rfl⟩ := hds
  have h1 := hi.digits.le
  refine hi.mono (Nat.le_add_right _ _) ?_
  rw [List.length_take]
  omega

theorem Agree.double_fract {exp10_s : ℕ} (hi : Agree s s' i len) :
    SonicJson.double_fract F flags s' len p exp10_s x i =
      SonicJson.double_fract F flags s len p exp10_s x i := by
  have rest : ∀ {j : ℕ} {y : Num}, Agree s s' j len →
      (if !isExp (rd s' (j + (digitsAt s' j).length)) then
        SonicJson.double_fast F flags s' len p { y with trunc := y.trunc || !(digitsAt s' j).isEmpty }
          (j + (digitsAt s' j).length)
      else SonicJson.double_exp F flags s' len p { y with trunc := y.trunc || !(digitsAt s' j).isEmpty }
          (j + (digitsAt s' j).length)) =
      if !isExp (rd s (j + (digitsAt s j).length)) then
        SonicJson.double_fast F flags s len p { y with trunc := y.trunc || !(digitsAt s j).isEmpty }
          (j + (digitsAt s j).length)
      else SonicJson.double_exp F flags s len p { y with trunc := y.trunc || !(digitsAt s j).isEmpty }
          (j + (digitsAt s j).length) := by
    intro j y hj
    rw [hj.digitsAt_eq, hj.digits.rd_eq]
    refine ite_congr rfl (fun _ => h.double_fast) fun he => ?_
    exact h.double_exp hj.digits (by simpa using he)
  unfold SonicJson.double_fract
  by_cases hn : x.man_nd < 17
  · rw [if_pos hn, if_pos hn]
    have h1 : Agree s s' (i + (SonicJson.simd_str2int s i (17 - x.man_nd)).2) len := hi.take ⟨_, rfl⟩
    simp only [hi.simd_str2int, h1.digitsAt_eq]
    exact rest (y := { x with man := _, man_nd := _, exp10 := _ }) (h1.take ⟨_, rfl⟩)
  · rw [if_neg hn, if_neg hn]
    exact rest (y := { x with exp10 := _ }) hi

theorem Agree.integer_end (hi : Agree s s' i len) (hlt : p < i) :
    SonicJson.integer_end F flags s' len p x i = SonicJson.integer_end F flags s len p x i := by
  have hlast : rd s' (i - 1) = rd s (i - 1) := (h.mono (by omega) (by have := hi.le; omega)).rd_eq
  simp only [SonicJson.integer_end, h.slice_eq hi.le, h.parseNumberAsString, h.double_fast, hlast]

omit h in
theorem Agree.integer_digits {sgn : ℤ} (hi : Agree s s' i len) :
    SonicJson.integer_digits s' sgn i = SonicJson.integer_digits s sgn i := by
  simp only [SonicJson.integer_digits, str2int, hi.digitsAt_eq]
  rfl

/-- **A number**, or what fails to be one, is the same on both buffers. -/
theorem Agree.parseNumber :
    SonicJson.parseNumber F flags s' len (p + 1) = SonicJson.parseNumber F flags s len (p + 1) := by
  have hs := h.sign
  unfold SonicJson.parseNumber
  simp only [Nat.add_sub_cancel, h.rd_eq]
  have hle : p ≤ if rd s p == Ch.minus then p + 1 else p := by split <;> omega
  generalize (if rd s p == Ch.minus then p + 1 else p) = i at hs hle ⊢
  generalize (if rd s p == Ch.minus then (-1 : ℤ) else 1) = sgn
  rw [hs.rd_eq]
  refine ite_congr rfl (fun hz => ?_) fun hz => ?_
  · have h1 := hs.succ (ne_x hz (by decide))
    rw [h1.rd_eq]
    refine ite_congr rfl (fun hd => ?_) fun hd => ?_
    · have h2 := h1.succ (ne_x hd (by decide))
      rw [h2.rd_eq, h2.zerosAt_eq, h2.zeros.rd_eq, h.double_fract h2.zeros]
      refine ite_congr rfl (fun _ => rfl) fun _ => ite_congr rfl (fun he => ?_) fun _ => rfl
      exact h2.zeros.zero_exp he
    · refine ite_congr rfl (fun he => h1.zero_exp he) fun _ => ite_congr rfl (fun _ => ?_) fun _ => rfl
      rw [h.slice_eq h1.le]
  · have hend : (SonicJson.integer_digits s sgn i).2 = i + (digitsAt s i).length := integer_digits_i
    rw [hs.integer_digits, hend, hs.digits.rd_eq]
    refine ite_congr rfl (fun _ => rfl) fun hne => ite_congr rfl (fun hd => ?_) fun _ =>
      ite_congr rfl (fun he => ?_) fun _ => ?_
    · have h1 := hs.digits.succ (ne_x hd (by decide))
      rw [h1.rd_eq, h.double_fract h1]
    · exact h.double_exp hs.digits he
    · exact h.integer_end hs.digits (by omega)

end

/-! The scan stays in the text. -/

/-- The scan has passed `lo`, and not the end of the text. -/
def NumRes.Within (r : NumRes) (lo hi : ℕ) : Prop := lo < r.i ∧ r.i ≤ hi

theorem within_fail (h1 : lo < i) (h2 : i ≤ len) : (NumRes.fail i).Within lo len := ⟨h1, h2⟩

theorem within_event {e : Scalar} (h1 : lo < i) (h2 : i ≤ len) :
    (NumRes.event i e).Within lo len := ⟨h1, h2⟩

section
variable (hi : Agree s s' i len) (hlo : lo < i)
include hi hlo

theorem Agree.exp_within (he : isExp (rd s i) = true) :
    lo < (if isSign (rd s (i + 1)) then i + 1 + 1 else i + 1) ∧
      (if isSign (rd s (i + 1)) then i + 1 + 1 else i + 1) ≤ len ∧
      (if isSign (rd s (i + 1)) then i + 1 + 1 else i + 1) +
        (digitsAt s (if isSign (rd s (i + 1)) then i + 1 + 1 else i + 1)).length ≤ len := by
  have h1 := hi.expStart he
  refine ⟨?_, h1.le, h1.digits.le⟩
  split <;> omega

theorem Agree.zero_exp_within {sgn : ℤ} (he : isExp (rd s i) = true) :
    (SonicJson.zero_exp s sgn i).Within lo len := by
  obtain ⟨h1, h2, h3⟩ := hi.exp_within hlo he
  unfold SonicJson.zero_exp
  dsimp only
  generalize (if isSign (rd s (i + 1)) then i + 1 + 1 else i + 1) = j at h1 h2 h3 ⊢
  split
  · exact within_fail h1 h2
  · exact within_event (by omega) h3

theorem Agree.stringExp_within {p : ℕ} (he : isExp (rd s i) = true) :
    (SonicJson.stringExp s p i).Within lo len := by
  obtain ⟨h1, h2, h3⟩ := hi.exp_within hlo he
  unfold SonicJson.stringExp
  dsimp only
  generalize (if isSign (rd s (i + 1)) then i + 1 + 1 else i + 1) = j at h1 h2 h3 ⊢
  split
  · exact within_fail h1 h2
  · exact within_event (by omega) h3

theorem Agree.stringFract_within {p : ℕ} : (SonicJson.stringFract s p i).Within lo len := by
  have h1 := hi.digits.le
  unfold SonicJson.stringFract
  dsimp only
  split
  · exact within_event (by omega) h1
  · rename_i he
    exact hi.digits.stringExp_within (by omega) (by simpa using he)

end

/-- A scan begins behind its sign, or at a digit. -/
def Began (s : Bytes) (p i : ℕ) : Prop := p < i ∨ p = i ∧ is_digit (rd s i) = true

theorem began_sign {p : ℕ} (h : is_digit (rd s p) = true ∨ rd s p = Ch.minus) :
    Began s p (if rd s p == Ch.minus then p + 1 else p) := by
  split
  · exact .inl (Nat.lt_succ_self p)
  · rename_i hm
    exact .inr ⟨rfl, h.resolve_right (by simpa using hm)⟩

theorem Began.le {p : ℕ} (h : Began s p i) : p ≤ i := by
  rcases h with h | ⟨h, -⟩ <;> omega

theorem Began.digits {p : ℕ} (h : Began s p i) : p < i + (digitsAt s i).length := by
  rcases h with h | ⟨rfl, h⟩
  · omega
  · have : digitsAt s p ≠ [] := by
      rw [digitsAt]
      have hlt : p < s.length := by
        by_contra hc
        rw [rd_of_length_le (not_lt.mp hc)] at h
        exact absurd h (by decide)
      rw [(at_cons_rd hlt).drop, List.takeWhile_cons, if_pos h]
      simp
    have := List.length_pos_iff.mpr this
    omega

theorem Agree.stringBody_within {p : ℕ} {neg : Bool} (hi : Agree s s' i len) (hb : Began s p i) :
    (SonicJson.stringBody s p neg i).Within p len := by
  have hp := hb.le
  unfold SonicJson.stringBody
  dsimp only
  split
  · rename_i hz
    have h1 := hi.succ (ne_x hz (by decide))
    split
    · rename_i hd
      have h2 := h1.succ (ne_x hd (by decide))
      split
      · exact within_fail (by omega) h2.le
      split
      · exact h2.zeros.zero_exp_within (by omega) ‹_›
      · exact h2.zeros.stringFract_within (by omega)
    · split
      · exact h1.zero_exp_within (by omega) ‹_›
      · exact within_event (by omega) h1.le
  · have h1 := hi.digits.le
    have h2 := hb.digits
    split
    · exact within_fail h2 h1
    split
    · exact (hi.digits.succ (ne_x ‹_› (by decide))).stringFract_within (by omega)
    split
    · exact hi.digits.stringExp_within h2 ‹_›
    split_ifs <;> exact within_event h2 h1

section
variable {p : ℕ} (h : Agree s s' p len) (hd : is_digit (rd s p) = true ∨ rd s p = Ch.minus)
include h hd

theorem Agree.parseNumberAsString_within : (SonicJson.parseNumberAsString s (p + 1)).Within p len := by
  rw [parseNumberAsString_eq]
  exact h.sign.stringBody_within (began_sign hd)

theorem Agree.double_fast_within (h1 : p < i) (h2 : i ≤ len) :
    (SonicJson.double_fast F flags s len p x i).Within p len := by
  unfold SonicJson.double_fast
  dsimp only
  split
  · exact within_event h1 h2
  split
  · exact within_event h1 h2
  split
  · exact h.parseNumberAsString_within hd
  · exact ⟨h1, h2⟩

theorem Agree.double_exp_within (hi : Agree s s' i len) (h1 : p < i) (he : isExp (rd s i) = true) :
    (SonicJson.double_exp F flags s len p x i).Within p len := by
  obtain ⟨h2, h3, h4⟩ := hi.exp_within h1 he
  unfold SonicJson.double_exp
  dsimp only
  generalize (if isSign (rd s (i + 1)) then i + 1 + 1 else i + 1) = j at h2 h3 h4 ⊢
  split
  · exact within_fail h2 h3
  · exact h.double_fast_within hd (by omega) h4

theorem Agree.double_fract_within {exp10_s : ℕ} (hi : Agree s s' i len) (h1 : p < i) :
    (SonicJson.double_fract F flags s len p exp10_s x i).Within p len := by
  have rest : ∀ {j : ℕ} {y : Num}, Agree s s' j len → p < j →
      NumRes.Within (if !isExp (rd s (j + (digitsAt s j).length)) then
        SonicJson.double_fast F flags s len p { y with trunc := y.trunc || !(digitsAt s j).isEmpty }
          (j + (digitsAt s j).length)
      else SonicJson.double_exp F flags s len p { y with trunc := y.trunc || !(digitsAt s j).isEmpty }
          (j + (digitsAt s j).length)) p len := by
    intro j y hj hlt
    split
    · exact h.double_fast_within hd (by omega) hj.digits.le
    · rename_i he
      exact h.double_exp_within hd hj.digits (by omega) (by simpa using he)
  unfold SonicJson.double_fract
  by_cases hn : x.man_nd < 17
  · rw [if_pos hn]
    have h2 : Agree s s' (i + (SonicJson.simd_str2int s i (17 - x.man_nd)).2) len := hi.take ⟨_, rfl⟩
    exact rest (y := { x with man := _, man_nd := _, exp10 := _ }) (h2.take ⟨_, rfl⟩) (by omega)
  · rw [if_neg hn]
    exact rest (y := { x with exp10 := _ }) hi h1

theorem Agree.integer_end_within (h1 : p < i) (h2 : i ≤ len) :
    (SonicJson.integer_end F flags s len p x i).Within p len := by
  unfold SonicJson.integer_end
  dsimp only
  split_ifs
  all_goals first
    | exact within_event h1 h2
    | exact h.parseNumberAsString_within hd
    | exact h.double_fast_within hd h1 h2

/-- The scan of a number passes its first byte, and not the end of the text. -/
theorem Agree.parseNumber_within : (SonicJson.parseNumber F flags s len (p + 1)).Within p len := by
  have hs := h.sign
  have hb := began_sign hd
  unfold SonicJson.parseNumber
  simp only [Nat.add_sub_cancel]
  generalize (if rd s p == Ch.minus then p + 1 else p) = i at hs hb ⊢
  generalize (if rd s p == Ch.minus then (-1 : ℤ) else 1) = sgn
  have hp := hb.le
  split
  · rename_i hz
    have h1 := hs.succ (ne_x hz (by decide))
    split
    · rename_i hdot
      have h2 := h1.succ (ne_x hdot (by decide))
      split
      · exact within_fail (by omega) h2.le
      split
      · exact h2.zeros.zero_exp_within (by omega) ‹_›
      · exact h.double_fract_within hd h2.zeros (by omega)
    · split
      · exact h1.zero_exp_within (by omega) ‹_›
      split <;> exact within_event (by omega) h1.le
  · have hend : (SonicJson.integer_digits s sgn i).2 = i + (digitsAt s i).length := integer_digits_i
    have h1 := hs.digits.le
    have h2 := hb.digits
    rw [hend]
    split
    · exact within_fail h2 h1
    split
    · have h3 := hs.digits.succ (ne_x ‹_› (by decide))
      split
      · exact within_fail (by omega) h3.le
      · exact h.double_fract_within hd h3 (by omega)
    split
    · exact h.double_exp_within hd hs.digits h2 ‹_›
    · exact h.integer_end_within hd h2 h1

end

end

/-! ### Strings -/

/-- What is left of a text before its sentinel is closed: the quote of the sentinel is still to
come, with its `x` before it unless that has been passed. -/
def Guarded (S : Bytes) : Prop := (∃ s, S = s ++ [Ch.x, Ch.quote, Ch.x]) ∨ S = [Ch.quote, Ch.x]

theorem Guarded.quote_mem {S : Bytes} (h : Guarded S) : Ch.quote ∈ S := by
  rcases h with ⟨s, rfl⟩ | rfl <;> simp

/-- The quote is not passed where no quote is passed. -/
theorem Guarded.drop {S : Bytes} (h : Guarded S) {k : ℕ} (hk : ∀ i < k, rd S i ≠ Ch.quote) :
    k < S.length ∧ Guarded (S.drop k) := by
  rcases h with ⟨s, rfl⟩ | rfl
  · have hlt : k ≤ s.length + 1 := by
      by_contra hc
      refine hk (s.length + 1) (by omega) ?_
      rw [rd_append_right]
      rfl
    refine ⟨by simp; omega, ?_⟩
    rcases Nat.lt_or_eq_of_le hlt with hlt | rfl
    · exact .inl ⟨s.drop k, List.drop_append_of_le_length (by omega)⟩
    · exact .inr (by simp [List.drop_append])
  · have h0 : k = 0 := by
      by_contra hc
      exact hk 0 (by omega) rfl
    subst h0
    exact ⟨by simp, .inr rfl⟩

/-- A backslash stands before the `x` of the sentinel. -/
theorem Guarded.bslash {S r : Bytes} (h : Guarded S) (hS : S = Ch.bslash :: r) :
    ∃ s, r = s ++ [Ch.x, Ch.quote, Ch.x] := by
  rcases h with ⟨_ | ⟨b, s⟩, rfl⟩ | rfl
  · exact absurd (List.cons.inj hS).1 (by decide)
  · exact ⟨s, (List.cons.inj hS).2.symm⟩
  · exact absurd (List.cons.inj hS).1 (by decide)

/-- Two buffers of one length with `S` from `src` on. -/
structure Twins (buf buf' : Bytes) (src : ℕ) (S : Bytes) : Prop where
  left : ∃ q, At buf src (S ++ q)
  right : ∃ q, At buf' src (S ++ q)
  length : buf'.length = buf.length

namespace Twins

variable {buf buf' S T w : Bytes} {src dst k : ℕ}

theorem rd_left (h : Twins buf buf' src S) {i : ℕ} (hi : i < S.length) : rd buf (src + i) = rd S i := by
  obtain ⟨q, hq⟩ := h.left
  rw [rd_at_add hq, rd_append_left hi]

theorem rd_right (h : Twins buf buf' src S) {i : ℕ} (hi : i < S.length) :
    rd buf' (src + i) = rd S i := by
  obtain ⟨q, hq⟩ := h.right
  rw [rd_at_add hq, rd_append_left hi]

theorem drop (h : Twins buf buf' src S) (hk : k ≤ S.length) : Twins buf buf' (src + k) (S.drop k) := by
  obtain ⟨q, hq⟩ := h.left
  obtain ⟨q', hq'⟩ := h.right
  have e1 := hq.drop_at (k := k) (by simp; omega)
  have e2 := hq'.drop_at (k := k) (by simp; omega)
  rw [List.drop_append_of_le_length hk] at e1 e2
  exact ⟨⟨q, e1⟩, ⟨q', e2⟩, h.length⟩

theorem at_store {t : Bytes} {p : ℕ} (h : At buf p t) (hd : dst + w.length ≤ p) :
    At (store buf dst w) p t := by
  have h1 := h.le
  refine ⟨?_, ?_⟩
  · rw [store_drop (by omega) hd, h.drop]
  · rw [store_length (by omega)]
    exact h1

/-- A write before the position. -/
theorem store (h : Twins buf buf' src S) {w' : Bytes} (hd : dst + w.length ≤ src)
    (hw : w'.length = w.length) :
    Twins (Cursor.store buf dst w) (Cursor.store buf' dst w') src S := by
  obtain ⟨q, hq⟩ := h.left
  obtain ⟨q', hq'⟩ := h.right
  have h1 := hq.le
  have h2 := hq'.le
  refine ⟨⟨q, at_store hq hd⟩, ⟨q', at_store hq' (by omega)⟩, ?_⟩
  rw [store_length (by omega), store_length (by omega), h.length]

section
variable (A : Arch) (allow : Bool)

theorem mask_agree (h : Twins buf buf' src S) (p : UInt8 → Bool) {i : ℕ} (hi : i < S.length) :
    (vecMask A buf src p).getLsbD i = (vecMask A buf' src p).getLsbD i := by
  rw [getLsbD_vecMask, getLsbD_vecMask, h.rd_left hi, h.rd_right hi]

omit A allow in
/-- The lowest bit of one mask is below those of another. -/
theorem quote_first {B Q : BitVec 32} (hd : ∀ i < 32, B.getLsbD i = true → Q.getLsbD i = false)
    (hQ : Bits.ctz Q < 32) :
    (B - 1#32) &&& Q ≠ 0 ↔ ∀ i ≤ Bits.ctz Q, B.getLsbD i = false := by
  have hQ0 : Q.getLsbD (Bits.ctz Q) = true := Bits.getLsbD_ctz (Bits.ne_zero_of_ctz_lt hQ le_rfl)
  rw [ne_eq, Bits.sub_one_and_eq_zero B Q hd]
  push Not
  constructor
  · rintro ⟨i, hi, hne⟩ j hj
    have hle : Bits.ctz Q ≤ i := by
      by_contra hc
      exact hne (Bits.getLsbD_of_lt_ctz Q (not_le.mp hc))
    exact Bits.getLsbD_of_lt_ctz B (by omega)
  · intro hall
    refine ⟨Bits.ctz Q, ?_, by simp [hQ0]⟩
    by_contra hc
    have hB := Bits.getLsbD_ctz (Bits.ne_zero_of_ctz_lt (x := B) (k := 32) (by omega) le_rfl)
    rw [hall _ (not_lt.mp hc)] at hB
    exact absurd hB (by decide)

/-- What a block tells of a text with a quote. -/
theorem find_agree (h : Twins buf buf' src S) (hq : Ch.quote ∈ S) :
    (StringBlock.Find A buf' src).HasQuoteFirst allow =
    (StringBlock.Find A buf src).HasQuoteFirst allow ∧
    (StringBlock.Find A buf' src).HasUnescaped = (StringBlock.Find A buf src).HasUnescaped ∧
    (StringBlock.Find A buf' src).HasBackslash = (StringBlock.Find A buf src).HasBackslash ∧
    ((StringBlock.Find A buf src).HasQuoteFirst allow = true →
      (StringBlock.Find A buf' src).QuoteIndex = (StringBlock.Find A buf src).QuoteIndex) ∧
    ((StringBlock.Find A buf src).HasBackslash = true →
      (StringBlock.Find A buf' src).BsIndex = (StringBlock.Find A buf src).BsIndex) := by
  have hV := A.VEC_LEN_le
  rcases le_or_gt A.VEC_LEN S.length with hlen | hlen
  · -- the whole block is text
    have hmask : ∀ p, vecMask A buf' src p = vecMask A buf src p := fun p =>
      BitVec.eq_of_getLsbD_eq fun i _ => by
        rcases lt_or_ge i S.length with hi | hi
        · exact (h.mask_agree A p hi).symm
        · rw [getLsbD_vecMask, getLsbD_vecMask, decide_eq_false (by omega), Bool.false_and,
            Bool.false_and]
    have hfind : StringBlock.Find A buf' src = StringBlock.Find A buf src := by
      simp only [StringBlock.Find, hmask]
    rw [hfind]
    exact ⟨rfl, rfl, rfl, fun _ => rfl, fun _ => rfl⟩
  · -- the block has the quote, and what decides is before it
    have agree := fun p {i : ℕ} => h.mask_agree A p (i := i)
    have disj : ∀ (buf : Bytes) (p r : UInt8 → Bool), (∀ b, p b = true → r b = false) → ∀ i < 32,
        (vecMask A buf src p).getLsbD i = true → (vecMask A buf src r).getLsbD i = false := by
      intro buf p r hpr i _ hi
      rw [getLsbD_vecMask, Bool.and_eq_true] at hi
      rw [getLsbD_vecMask, hpr _ hi.2, Bool.and_false]
    have hqb := fun buf => disj buf (· == Ch.quote) (· == Ch.bslash) fun b hb => by
      rw [beq_iff_eq.mp hb]; decide
    have hqu := fun buf => disj buf (· == Ch.quote) (fun b => decide (b ≤ 0x1f)) fun b hb => by
      rw [beq_iff_eq.mp hb]
      decide
    have hbq := fun buf => disj buf (· == Ch.bslash) (· == Ch.quote) fun b hb => by
      rw [beq_iff_eq.mp hb]; decide
    obtain ⟨j, hj, hjq⟩ := List.getElem_of_mem hq
    have hctz : Bits.ctz (vecMask A buf src (· == Ch.quote)) < S.length := by
      refine lt_of_le_of_lt ?_ hj
      by_contra hc
      have h1 := Bits.getLsbD_of_lt_ctz _ (not_le.mp hc)
      have h2 : rd S j = Ch.quote := by
        rw [rd, List.getD_eq_getElem _ _ hj]
        exact hjq
      rw [getLsbD_vecMask, h.rd_left hj, h2, decide_eq_true (by omega)] at h1
      exact absurd h1 (by decide)
    set Q := vecMask A buf src (· == Ch.quote) with hQ
    set Q' := vecMask A buf' src (· == Ch.quote) with hQ'
    set B := vecMask A buf src (· == Ch.bslash) with hB
    set B' := vecMask A buf' src (· == Ch.bslash) with hB'
    set U := vecMask A buf src (fun b => decide (b ≤ 0x1f)) with hU
    set U' := vecMask A buf' src (fun b => decide (b ≤ 0x1f)) with hU'
    have hcq : Bits.ctz Q' = Bits.ctz Q := Bits.ctz_congr (fun i hi => agree _ hi) (by omega) hctz
    have hcb : Bits.ctz B < Bits.ctz Q → Bits.ctz B' = Bits.ctz B := fun hlt =>
      Bits.ctz_congr (fun i hi => agree _ hi) (by omega) (hlt.trans hctz)
    have hun : ((Q' - 1#32) &&& U' ≠ 0) ↔ ((Q - 1#32) &&& U ≠ 0) := by
      rw [ne_eq, ne_eq, Bits.sub_one_and_eq_zero Q' U' (hqu buf'),
        Bits.sub_one_and_eq_zero Q U (hqu buf), hcq]
      refine not_congr (forall₂_congr fun i hi => ?_)
      rw [hU', hU, agree _ (hi.trans hctz)]
    have hbs : ((Q' - 1#32) &&& B' ≠ 0) ↔ ((Q - 1#32) &&& B ≠ 0) := by
      rw [ne_eq, ne_eq, Bits.sub_one_and_eq_zero Q' B' (hqb buf'),
        Bits.sub_one_and_eq_zero Q B (hqb buf), hcq]
      refine not_congr (forall₂_congr fun i hi => ?_)
      rw [hB', hB, agree _ (hi.trans hctz)]
    have hqf : ((B' - 1#32) &&& Q' ≠ 0) ↔ ((B - 1#32) &&& Q ≠ 0) := by
      have hlt : Bits.ctz Q < 32 := by omega
      have hlt' : Bits.ctz Q' < 32 := by omega
      rw [quote_first (B := B') (Q := Q') (hbq buf') hlt',
        quote_first (B := B) (Q := Q) (hbq buf) hlt, hcq]
      refine forall₂_congr fun i hi => ?_
      rw [hB', hB, agree _ (hi.trans_lt hctz)]
    have hqf' : decide ((B' - 1#32) &&& Q' ≠ 0) = decide ((B - 1#32) &&& Q ≠ 0) :=
      decide_eq_decide.mpr hqf
    have hun' : decide ((Q' - 1#32) &&& U' ≠ 0) = decide ((Q - 1#32) &&& U ≠ 0) :=
      decide_eq_decide.mpr hun
    refine ⟨?_, hun', decide_eq_decide.mpr hbs, fun _ => hcq, fun hb => hcb ?_⟩
    · change (if allow then decide ((B' - 1#32) &&& Q' ≠ 0)
          else decide ((B' - 1#32) &&& Q' ≠ 0) && !decide ((Q' - 1#32) &&& U' ≠ 0)) =
        if allow then decide ((B - 1#32) &&& Q ≠ 0)
          else decide ((B - 1#32) &&& Q ≠ 0) && !decide ((Q - 1#32) &&& U ≠ 0)
      rw [hqf', hun']
    · rw [StringBlock.HasBackslash, decide_eq_true_eq] at hb
      change (Q - 1#32) &&& B ≠ 0 at hb
      rw [ne_eq, Bits.sub_one_and_eq_zero Q B (hqb buf)] at hb
      push Not at hb
      obtain ⟨i, hi, hbi⟩ := hb
      refine lt_of_le_of_lt ?_ hi
      by_contra hc
      exact hbi (Bits.getLsbD_of_lt_ctz B (not_le.mp hc))

end

end Twins

theorem Guarded.ne_nil {S : Bytes} (h : Guarded S) : S ≠ [] := by
  rintro rfl
  rcases h with ⟨s, h⟩ | h
  · exact absurd h.symm (by simp)
  · exact absurd h (by simp)

/-- Before the quote of the sentinel: a byte that is reached without a quote is of the text. -/
theorem Guarded.split {S q a r : Bytes} {b : UInt8} (h : Guarded S) (he : S ++ q = a ++ b :: r)
    (ha : Ch.quote ∉ a) :
    ∃ r₀, S = a ++ b :: r₀ ∧ Guarded (b :: r₀) := by
  have hlow : ∀ i < a.length, rd S i ≠ Ch.quote := by
    intro i hi hc
    have hS : i < S.length := by
      by_contra hge
      rw [rd_of_length_le (not_lt.mp hge)] at hc
      exact absurd hc (by decide)
    rw [← rd_append_left (t := q) hS, he, rd_append_left hi] at hc
    exact ha (hc ▸ rd_mem hi)
  obtain ⟨h1, h2⟩ := h.drop hlow
  obtain ⟨r₀, rfl⟩ : ∃ r₀, S = a ++ r₀ := by
    have h3 : a <+: S := List.prefix_of_prefix_length_le ⟨b :: r, he.symm⟩ ⟨q, rfl⟩ h1.le
    obtain ⟨r₀, h4⟩ := h3
    exact ⟨r₀, h4.symm⟩
  rw [List.drop_left] at h2
  rcases r₀ with _ | ⟨c, r₀⟩
  · exact absurd rfl h2.ne_nil
  · rw [List.append_assoc, List.append_cancel_left_eq, List.cons_append, List.cons.injEq] at he
    exact ⟨r₀, by rw [he.1], he.1 ▸ h2⟩

/-- An escape is read from the text before the `x`. -/
theorem unicodeEsc_same (s q q' : Bytes) :
    (unicodeEsc (s ++ Ch.x :: q) = none ∧ unicodeEsc (s ++ Ch.x :: q') = none) ∨
    ∃ u t w, s = u ++ t ∧ 4 ≤ u.length ∧ w.length ≤ 4 ∧
      unicodeEsc (s ++ Ch.x :: q) = some (w, t ++ Ch.x :: q) ∧
      unicodeEsc (s ++ Ch.x :: q') = some (w, t ++ Ch.x :: q') := by
  have some_of : ∀ {q₁ w r : Bytes}, unicodeEsc (s ++ Ch.x :: q₁) = some (w, r) →
      ∃ u t, s = u ++ t ∧ 4 ≤ u.length ∧ w.length ≤ 4 ∧
        ∀ q₂, unicodeEsc (s ++ Ch.x :: q₂) = some (w, t ++ Ch.x :: q₂) := by
    intro q₁ w r hr
    obtain ⟨u, h1, h2⟩ := unicodeEsc_local hr
    obtain ⟨v, h3, h4⟩ := unicodeEsc_ge hr
    obtain ⟨⟨v', h5, h6⟩, h7⟩ := unicodeEsc_length hr
    obtain rfl : u = v := List.append_cancel_right (h1.symm.trans h3)
    obtain rfl : u = v' := List.append_cancel_right (h1.symm.trans h5)
    obtain ⟨t, rfl⟩ := exists_of_append_x h1.symm fun hx => (h4 _ hx).2.1 rfl
    rw [← List.append_assoc] at h1
    obtain rfl := List.append_cancel_right h1
    refine ⟨u, t, rfl, h6, h7, fun q₂ => ?_⟩
    rw [List.append_assoc]
    exact h2 _
  cases h : unicodeEsc (s ++ Ch.x :: q) with
  | none =>
    cases h' : unicodeEsc (s ++ Ch.x :: q') with
    | none => exact .inl ⟨rfl, rfl⟩
    | some p =>
      obtain ⟨u, t, -, -, -, h1⟩ := some_of h'
      rw [h1 q] at h
      exact absurd h (by simp)
  | some p =>
    obtain ⟨w, r⟩ := p
    obtain ⟨u, t, h1, h2, h3, h4⟩ := some_of h
    exact .inr ⟨u, t, w, h1, h2, h3, h ▸ h4 q, h4 q'⟩

/-- What two calls return beside the buffer. -/
structure SameResult (r r' : StrResult) : Prop where
  n : r'.n = r.n
  src : r'.src = r.src
  err : r'.err = r.err

/-- What has been read between `dst` and `src` may be overwritten. -/
theorem Mid.of_at {buf s : Bytes} {src dst : ℕ} (h : At buf src s) (hd : dst ≤ src) :
    Mid buf src dst (buf.take dst) [] ((buf.drop dst).take (src - dst)) s := by
  have hle := h.le
  refine ⟨?_, ?_, ?_⟩
  · rw [List.nil_append]
    calc buf = buf.take dst ++ buf.drop dst := (List.take_append_drop dst buf).symm
      _ = buf.take dst ++ ((buf.drop dst).take (src - dst) ++ (buf.drop dst).drop (src - dst)) := by
        rw [List.take_append_drop (src - dst)]
      _ = _ := by rw [List.drop_drop, Nat.add_sub_cancel' hd, h.drop]
  · simp only [List.length_take, List.length_drop, List.length_nil]
    omega
  · simp only [List.length_take, List.length_nil]
    omega

/-- The copying loop stops at the first `stop`. -/
theorem copyUntil_stops {stop : UInt8} {buf a r : Bytes} {fuel src dst : ℕ}
    (h : At buf src (a ++ stop :: r)) (ha : stop ∉ a) (hf : a.length < fuel) (hd : dst ≤ src) :
    ∃ buf', copyUntil stop fuel buf src dst = (buf', src + a.length, dst + a.length) ∧
      At buf' (src + a.length) (stop :: r) ∧ buf'.length = buf.length := by
  have hm := Mid.of_at h hd
  obtain ⟨buf', junk', h1, h2⟩ := copyUntil_eq fuel a hm ha hf
  refine ⟨buf', h1, h2.at, ?_⟩
  have e1 := h2.at.length_add
  have e2 := h.length_add
  simp only [List.length_append, List.length_cons] at e1 e2
  omega

namespace Twins

variable {buf buf' S a r : Bytes} {b : UInt8} {src dst sdst fuel : ℕ}

theorem pass (h : Twins buf buf' src (a ++ r)) : Twins buf buf' (src + a.length) r := by
  have := h.drop (k := a.length) (by simp)
  rwa [List.drop_left] at this

theorem copyUntil (h : Twins buf buf' src (a ++ b :: r)) (ha : b ∉ a) (hf : a.length < fuel)
    (hd : dst ≤ src) :
    ∃ buf₁ buf₁', SonicJson.copyUntil b fuel buf src dst = (buf₁, src + a.length, dst + a.length) ∧
      SonicJson.copyUntil b fuel buf' src dst = (buf₁', src + a.length, dst + a.length) ∧
      Twins buf₁ buf₁' (src + a.length) (b :: r) := by
  obtain ⟨q, hq⟩ := h.left
  obtain ⟨q', hq'⟩ := h.right
  rw [List.append_assoc, List.cons_append] at hq hq'
  obtain ⟨buf₁, h1, h2, h3⟩ := copyUntil_stops hq ha hf hd
  obtain ⟨buf₁', h4, h5, h6⟩ := copyUntil_stops hq' ha hf hd
  exact ⟨buf₁, buf₁', h1, h4, ⟨⟨q, h2⟩, ⟨q', h5⟩, by rw [h6, h3, h.length]⟩⟩

variable {A : Arch} {allow : Bool}

/-- The outcome of a block is that of the other buffer's, and what it leads to is before the
sentinel's quote. -/
inductive Block (A : Arch) (allow : Bool) (v v' : StringBlock) (S : Bytes) : Prop
  | quote (a r : Bytes) : S = a ++ Ch.quote :: r → Ch.quote ∉ a → a.length < 32 →
    v.HasQuoteFirst allow = true →
      v'.HasQuoteFirst allow = true → v.QuoteIndex = a.length → v'.QuoteIndex = a.length →
        Block A allow v v' S
  | unescaped : v.HasQuoteFirst allow = false → v'.HasQuoteFirst allow = false →
    (!allow && v.HasUnescaped) = true →
      (!allow && v'.HasUnescaped) = true → Block A allow v v' S
  | neither : v.HasQuoteFirst allow = false → v'.HasQuoteFirst allow = false →
    (!allow && v.HasUnescaped) = false →
      (!allow && v'.HasUnescaped) = false → v.HasBackslash = false → v'.HasBackslash = false →
      A.VEC_LEN < S.length → Guarded (S.drop A.VEC_LEN) → Block A allow v v' S
  | bslash (a r : Bytes) : S = a ++ Ch.bslash :: r → Ch.bslash ∉ a → a.length < 32 →
    Guarded (Ch.bslash :: r) →
      v.HasQuoteFirst allow = false → v'.HasQuoteFirst allow = false →
        (!allow && v.HasUnescaped) = false →
      (!allow && v'.HasUnescaped) = false → v.HasBackslash = true → v'.HasBackslash = true →
        v.BsIndex = a.length →
      v'.BsIndex = a.length → Block A allow v v' S

theorem block (h : Twins buf buf' src S) (hg : Guarded S) :
    Block A allow (StringBlock.Find A buf src) (StringBlock.Find A buf' src) S := by
  have hV := A.VEC_LEN_le
  obtain ⟨e1, e2, e3, e4, e5⟩ := h.find_agree A allow hg.quote_mem
  obtain ⟨q, hq⟩ := h.left
  have plain : ∀ {a : Bytes}, (∀ x ∈ a, Plain allow x) → Ch.quote ∉ a ∧ Ch.bslash ∉ a := fun ha =>
    ⟨fun hx => (ha _ hx).1 rfl, fun hx => (ha _ hx).2.1 rfl⟩
  cases block_cases A allow hq with
  | quote a r hs ha hl h1 h2 =>
    obtain ⟨r₀, h3, -⟩ := hg.split hs (plain ha).1
    exact .quote a r₀ h3 (plain ha).1 (by omega) h1 (e1.trans h1) h2 ((e4 h1).trans h2)
  | unescaped h1 h2 h3 h4 =>
    have h5 : (!allow && (StringBlock.Find A buf src).HasUnescaped) = true := by
      rw [h2, h3, Bool.not_false, Bool.true_and]
    exact .unescaped h1 (e1.trans h1) h5 (by rw [e2, h5])
  | neither h1 h2 h3 h4 =>
    obtain ⟨h5, h6⟩ := hg.drop (k := A.VEC_LEN) fun i hi hc => by
      have hS : i < S.length := by
        by_contra hge
        rw [rd_of_length_le (not_lt.mp hge)] at hc
        exact absurd hc (by decide)
      rw [← rd_append_left (t := q) hS] at hc
      exact (h4 i hi).1 hc
    exact .neither h1 (e1.trans h1) h2 (by rw [e2, h2]) h3 (e3.trans h3) h5 h6
  | bslash a r hs ha hl h1 h2 h3 h4 =>
    obtain ⟨r₀, h5, h6⟩ := hg.split hs (plain ha).1
    exact .bslash a r₀ h5 (plain ha).2 (by omega) h6 h1 (e1.trans h1) h2 (by rw [e2, h2]) h3
      (e3.trans h3) h4
      ((e5 h3).trans h4)

/-- **In lockstep**: from each of the three labels the calls return the same. -/
theorem lockstep (A : Arch) (allow : Bool) (sdst : ℕ) : ∀ fuel : ℕ,
    (∀ {buf buf' S : Bytes} {src : ℕ}, Twins buf buf' src S → Guarded S →
      SameResult (find A allow sdst fuel buf src) (find A allow sdst fuel buf' src)) ∧
    (∀ {buf buf' r : Bytes} {src dst : ℕ}, Twins buf buf' src (Ch.bslash :: r) →
    Guarded (Ch.bslash :: r) → dst ≤ src →
      SameResult (cont A allow sdst fuel buf src dst) (cont A allow sdst fuel buf' src dst)) ∧
    (∀ {buf buf' S : Bytes} {src dst : ℕ}, Twins buf buf' src S → Guarded S → dst ≤ src →
      SameResult (find_and_move A allow sdst fuel buf src dst)
        (find_and_move A allow sdst fuel buf' src dst)) := by
  intro fuel
  induction fuel with
  | zero =>
    exact ⟨fun _ _ => ⟨rfl, rfl, rfl⟩, fun _ _ _ => ⟨rfl, rfl, rfl⟩, fun _ _ _ => ⟨rfl, rfl, rfl⟩⟩
  | succ fuel ih =>
    obtain ⟨ihf, ihc, ihm⟩ := ih
    have hV := A.VEC_LEN_le
    refine ⟨fun {buf buf' S src} h hg => ?_, fun {buf buf' r src dst} h hg hd => ?_,
      fun {buf buf' S src dst} h hg hd => ?_⟩
    · -- `find`
      unfold find
      cases @Twins.block _ _ _ _ A allow h hg with
      | quote a r hS ha hl h1 h1' h2 h2' =>
        simp only [h1, h1', h2, h2', if_true]
        exact ⟨rfl, rfl, rfl⟩
      | unescaped h1 h1' h2 h2' =>
        simp only [h1, h1', h2, h2', Bool.false_eq_true, if_false, if_true]
        exact ⟨rfl, rfl, rfl⟩
      | neither h1 h1' h2 h2' h3 h3' h4 h5 =>
        simp only [h1, h1', h2, h2', h3, h3', Bool.false_eq_true, if_false, Bool.not_false, if_true]
        exact ihf (h.drop h4.le) h5
      | bslash a r hS ha hl h1 h2 h2' h3 h3' h4 h4' h5 h5' =>
        subst hS
        simp only [h2, h2', h3, h3', h4, h4', h5, h5', Bool.false_eq_true, if_false, Bool.not_true]
        exact ihc h.pass h1 le_rfl
    · -- `cont`
      obtain ⟨s, rfl⟩ := hg.bslash rfl
      -- behind an escape
      have step : ∀ {w t : Bytes} {n : ℕ}, s.drop n = t → n ≤ s.length → 0 < n → w.length ≤ n + 1 →
          SameResult
            (if rd (Cursor.store buf dst w) (src + (n + 1)) = Ch.bslash then
                cont A allow sdst fuel (Cursor.store buf dst w) (src + (n + 1)) (dst + w.length)
              else find_and_move A allow sdst fuel (Cursor.store buf dst w) (src + (n + 1))
                (dst + w.length))
            (if rd (Cursor.store buf' dst w) (src + (n + 1)) = Ch.bslash then
                cont A allow sdst fuel (Cursor.store buf' dst w) (src + (n + 1)) (dst + w.length)
              else find_and_move A allow sdst fuel (Cursor.store buf' dst w) (src + (n + 1))
                (dst + w.length)) := by
        intro w t n ht hn hpos hw
        have h1 := @Twins.store _ _ _ w _ dst (h.drop (k := n + 1) (by simp; omega)) w (by omega) rfl
        rw [List.drop_succ_cons, List.drop_append_of_le_length hn, ht] at h1
        have h2 : Guarded (t ++ [Ch.x, Ch.quote, Ch.x]) := .inl ⟨t, rfl⟩
        have h3 := h1.rd_left (i := 0) (by simp)
        have h4 := h1.rd_right (i := 0) (by simp)
        rw [Nat.add_zero] at h3 h4
        rw [h3, h4]
        split
        · rename_i hb
          obtain ⟨t', ht'⟩ : ∃ t', t ++ [Ch.x, Ch.quote, Ch.x] = Ch.bslash :: t' := by
            rcases ht' : t ++ [Ch.x, Ch.quote, Ch.x] with _ | ⟨c, t'⟩
            · simp at ht'
            · rw [ht', rd_cons_zero] at hb
              exact ⟨t', by rw [hb]⟩
          rw [ht'] at h1 h2
          exact ihc h1 h2 (by omega)
        · exact ihm h1 h2 (by omega)
      have hc := h.rd_left (i := 1) (by simp)
      have hc' := h.rd_right (i := 1) (by simp)
      unfold cont
      simp only [hc, hc', rd_cons_succ]
      rcases s with _ | ⟨c, s⟩
      · exact ⟨rfl, rfl, rfl⟩
      rw [List.cons_append, rd_cons_zero]
      obtain ⟨q, hq⟩ := h.left
      obtain ⟨q', hq'⟩ := h.right
      by_cases hu : c = Ch.u
      · subst hu
        simp only [if_true]
        rw [List.cons_append, List.cons_append, List.cons_append, List.append_assoc] at hq hq'
        rw [handle_unicode_codepoint_eq hq, handle_unicode_codepoint_eq hq']
        simp only [List.cons_append]
        rcases unicodeEsc_same s (Ch.quote :: Ch.x :: q) (Ch.quote :: Ch.x :: q')
          with ⟨h1, h2⟩ | ⟨u, t, w, rfl, h1, h2, h3, h4⟩
        · rw [List.nil_append, List.nil_append, h1, h2]
          exact ⟨rfl, rfl, rfl⟩
        · rw [List.nil_append, List.nil_append, h3, h4]
          have e1 := hq.length_add
          have e2 := hq'.length_add
          simp only [List.length_append, List.length_cons, List.length_nil] at e1 e2
          have e3 : buf.length - (t ++ Ch.x :: Ch.quote :: Ch.x :: q).length =
              src + (u.length + 1 + 1) := by
            simp only [List.length_append, List.length_cons]
            omega
          have e4 : buf'.length - (t ++ Ch.x :: Ch.quote :: Ch.x :: q').length =
              src + (u.length + 1 + 1) := by
            simp only [List.length_append, List.length_cons]
            omega
          simp only [Bool.not_true, Bool.false_eq_true, if_false, e3, e4]
          exact step (w := w) (t := t) (by simp) (by simp) (by omega) (by omega)
      · simp only [hu, if_false]
        by_cases he : kEscapedMap c = 0
        · rw [if_pos he, if_pos he]
          exact ⟨rfl, rfl, rfl⟩
        · rw [if_neg he, if_neg he]
          exact step (w := [kEscapedMap c]) (n := 1) rfl (by simp) (by omega) (by simp)
    · -- `find_and_move`
      unfold find_and_move
      cases @Twins.block _ _ _ _ A allow h hg with
      | quote a r hS ha hl h1 h1' h2 h2' =>
        subst hS
        obtain ⟨buf₁, buf₁', e1, e2, -⟩ := h.copyUntil ha hl hd
        simp only [h1, h1', e1, e2, if_true]
        exact ⟨rfl, rfl, rfl⟩
      | unescaped h1 h1' h2 h2' =>
        simp only [h1, h1', h2, h2', Bool.false_eq_true, if_false, if_true]
        exact ⟨rfl, rfl, rfl⟩
      | neither h1 h1' h2 h2' h3 h3' h4 h5 =>
        simp only [h1, h1', h2, h2', h3, h3', Bool.false_eq_true, if_false, Bool.not_false, if_true]
        obtain ⟨q, hq⟩ := h.left
        obtain ⟨q', hq'⟩ := h.right
        have hw : ∀ q, ((S ++ q).take A.VEC_LEN) = S.take A.VEC_LEN :=
          fun q => List.take_append_of_le_length h4.le
        have hl : (S.take A.VEC_LEN).length = A.VEC_LEN := by
          rw [List.length_take]
          omega
        rw [hq.drop, hq'.drop, hw, hw]
        exact ihm ((h.drop h4.le).store (by omega) rfl) h5 (by omega)
      | bslash a r hS ha hl h1 h2 h2' h3 h3' h4 h4' h5 h5' =>
        subst hS
        obtain ⟨buf₁, buf₁', e1, e2, e3⟩ := h.copyUntil ha hl hd
        simp only [h2, h2', h3, h3', h4, h4', e1, e2, Bool.false_eq_true, if_false, Bool.not_true]
        exact ihc e3 h1 (by omega)

/-- **A string**, or what fails to be one, ends at the same place and in the same way on both
buffers. -/
theorem parseStringInplace (h : Twins buf buf' src S) (hg : Guarded S) :
    SameResult (SonicJson.parseStringInplace A allow buf src)
      (SonicJson.parseStringInplace A allow buf' src) := by
  unfold SonicJson.parseStringInplace
  rw [h.length]
  exact (lockstep A allow src _).1 h hg

end Twins

/-! ### Skipping -/

section
variable {A : Arch} {data data' tokens : Bytes} {len pos : ℕ} {c : UInt8}

/-- The buffers hold the same bytes from `lo` to `len`. -/
def SameTo (data data' : Bytes) (len lo : ℕ) : Prop := ∀ i, lo ≤ i → i < len → rd data' i = rd data i

theorem SameTo.mono {lo : ℕ} (h : SameTo data data' len lo) (hle : lo ≤ pos) :
    SameTo data data' len pos :=
  fun i hi => h i (hle.trans hi)

/-- Two buffers with one text left hold the same bytes of it. -/
theorem Left.sameTo {s : Bytes} (h : Left data len pos s) (h' : Left data' len pos s) :
    SameTo data data' len pos := by
  have rd_take : ∀ {d : Bytes} {i : ℕ}, i < len → rd (d.take len) i = rd d i := fun hi => by
    rw [rd, rd, List.getD_eq_getElem?_getD, List.getD_eq_getElem?_getD, List.getElem?_take_of_lt hi]
  intro i hi hlt
  obtain ⟨k, rfl⟩ := Nat.exists_eq_add_of_le hi
  rw [← rd_take (d := data') hlt, ← rd_take (d := data) hlt, rd_at_add h'.at', rd_at_add h.at']

theorem SameTo.to_bitmask (h : SameTo data data' len pos) {n : ℕ} (hn : pos + n ≤ len)
    (p : UInt8 → Bool) :
    SonicJson.to_bitmask n data' pos p = SonicJson.to_bitmask n data pos p := by
  unfold SonicJson.to_bitmask
  congr 1
  funext i
  by_cases hi : i < n
  · rw [h (pos + i) (Nat.le_add_right _ _) (by omega)]
  · rw [decide_eq_false hi, Bool.false_and, Bool.false_and]

theorem skipStringTail_same : ∀ (fuel : ℕ) (found : Bool) (pos : ℕ), SameTo data data' len pos →
    skipStringTail data' len fuel found pos = skipStringTail data len fuel found pos
  | 0, _, _, _ => rfl
  | fuel + 1, found, pos, h => by
    rw [skipStringTail, skipStringTail]
    refine ite_congr rfl (fun hlt => ?_) fun _ => rfl
    rw [h pos le_rfl hlt, skipStringTail_same fuel true (pos + 2) (h.mono (by omega)),
      skipStringTail_same fuel found (pos + 1) (h.mono (by omega))]

theorem skipStringBlocks_same :
    ∀ (fuel : ℕ) (found : Bool) (prev : BitVec 64) (pos : ℕ), SameTo data data' len pos →
    skipStringBlocks A data' len fuel found prev pos = skipStringBlocks A data len fuel found prev pos
  | 0, found, _, pos, h => skipStringTail_same len found pos h
  | fuel + 1, found, prev, pos, h => by
    have ih := fun f p => skipStringBlocks_same fuel f p (pos + A.VEC_LEN) (h.mono (by omega))
    rw [skipStringBlocks, skipStringBlocks]
    refine ite_congr rfl (fun hle => ?_) fun _ =>
      skipStringTail_same len found _ (h.mono (by split <;> omega))
    rw [h.to_bitmask hle, h.to_bitmask hle]
    dsimp only
    split <;> simp only [ih]

theorem SameTo.SkipString (h : SameTo data data' len pos) :
    SonicJson.SkipString A data' pos len = SonicJson.SkipString A data pos len :=
      skipStringBlocks_same len false 0 pos h

theorem SameTo.SKIP_LOOP (h : SameTo data data' len pos) (hle : pos + 64 ≤ len) (left right : UInt8)
    (st : ContState) :
    SonicJson.SKIP_LOOP data' pos left right st = SonicJson.SKIP_LOOP data pos left right st := by
  simp only [SonicJson.SKIP_LOOP, GetStringBits, h.to_bitmask hle]

theorem SameTo.slice (h : SameTo data data' len pos) (hl : len ≤ data.length)
    (hl' : len ≤ data'.length) :
    SonicJson.slice data' pos len = SonicJson.slice data pos len := by
  refine List.ext_getElem (by simp [SonicJson.slice]; omega) fun i h1 h2 => ?_
  have h3 : i < len - pos := by
    simp only [SonicJson.slice, List.length_take, List.length_drop] at h1
    omega
  have h4 := h (pos + i) (by omega) (by omega)
  rw [rd, rd, List.getD_eq_getElem _ _ (by omega), List.getD_eq_getElem _ _ (by omega)] at h4
  simpa [SonicJson.slice] using h4

theorem skipContainerBlocks_same {left right : UInt8} (hl : len ≤ data.length)
    (hl' : len ≤ data'.length) :
    ∀ (fuel : ℕ) (st : ContState) (pos : ℕ), SameTo data data' len pos →
    skipContainerBlocks data' len left right fuel st pos =
      skipContainerBlocks data len left right fuel st pos
  | 0, _, _, _ => rfl
  | fuel + 1, st, pos, h => by
    rw [skipContainerBlocks, skipContainerBlocks]
    refine ite_congr rfl (fun hle => ?_) fun _ => ?_
    · rw [h.SKIP_LOOP hle]
      split
      · rfl
      · exact skipContainerBlocks_same hl hl' fuel _ (pos + 64) (h.mono (by omega))
    · rw [h.slice hl hl']

/-- A literal is looked at from its first byte on. -/
theorem SkipLiteral_same (h : SameTo data data' len (pos - 1)) (hl : len ≤ data.length)
    (hl' : len ≤ data'.length) :
    SkipLiteral data' pos len c = SkipLiteral data pos len c := by
  have four : ∀ {i : ℕ} {lit : Bytes}, pos - 1 ≤ i → i + 4 ≤ len →
      EqBytes4 data' i lit = EqBytes4 data i lit := by
    intro i lit hi hle
    have h1 : SameTo data data' (i + 4) i := fun j hj hlt => h j (hi.trans hj) (by omega)
    rw [EqBytes4, EqBytes4, h1.slice (by omega) (by omega)]
  have sep : ∀ {i : ℕ}, pos - 1 ≤ i → i ≤ len → (i == len || IsValidSeparator (rd data' i)) =
      (i == len || IsValidSeparator (rd data i)) := by
    intro i hi hle
    rcases Nat.lt_or_eq_of_le hle with hlt | rfl
    · rw [h i hi hlt]
    · rw [beq_self_eq_true, Bool.true_or, Bool.true_or]
  have cond : ∀ {i j : ℕ} {lit : Bytes}, pos - 1 ≤ i → i + 4 ≤ j →
      (decide (j ≤ len) && EqBytes4 data' i lit && (j == len || IsValidSeparator (rd data' j))) =
      (decide (j ≤ len) && EqBytes4 data i lit && (j == len || IsValidSeparator (rd data j))) := by
    intro i j lit hi hj
    by_cases hle : j ≤ len
    · rw [four hi (hj.trans hle), sep (by omega) hle]
    · simp only [decide_eq_false hle, Bool.false_and]
  unfold SkipLiteral
  dsimp only
  rw [cond le_rfl le_rfl, cond le_rfl le_rfl, cond (Nat.le_succ _) le_rfl]

theorem skipValue_same {s : Bytes} (h : Left data len pos s) (h' : Left data' len pos s)
    (hc : rd data' (pos - 1) = rd data (pos - 1)) :
    skipValue A data' pos len c = skipValue A data pos len c := by
  have h1 := h.sameTo h'
  have h2 : SameTo data data' len (pos - 1) := fun i hi hlt => by
    rcases Nat.lt_or_ge i pos with hlt' | hge
    · obtain rfl : i = pos - 1 := by omega
      exact hc
    · exact h1 i hge hlt
  have hcont := fun l r => @skipContainerBlocks_same _ _ _ l r h.le h'.le (len + 1) ⟨0, 0, 0, 0⟩ pos h1
  simp only [skipValue, h1.SkipString, SkipObject, SkipArray, SkipContainer, hcont,
    SkipLiteral_same h2 h.le h'.le, SkipNumber, GetNextToken_eq h, GetNextToken_eq h']

/-- **A value is skipped alike** on both buffers, whatever is remembered of spaces. -/
theorem SkipOne_same {k k' : SpaceBits} {s : Bytes} (h : Scan data len pos k s)
    (h' : Scan data' len pos k' s) (hc : rd data' (pos - 1) = rd data (pos - 1)) :
    (SkipOne A data' pos len k').1 = (SkipOne A data pos len k).1 ∧
      (SkipOne A data' pos len k').2.1 = (SkipOne A data pos len k).2.1 := by
  have hsame := h.left.sameTo h'.left
  have hl := h.left.length_add
  have hrd : ∀ q, pos ≤ q → q ≤ len → rd data' (q - 1) = rd data (q - 1) := fun q hq hle => by
    rcases Nat.eq_or_lt_of_le hq with rfl | hlt
    · exact hc
    · exact hsame _ (by omega) (by omega)
  cases hs : s.dropWhile IsSpace with
  | nil =>
    obtain ⟨k₁, e1, h1⟩ := h.skip_space_end hs
    obtain ⟨k₁', e2, h2⟩ := h'.skip_space_end hs
    have hlast := hrd len (by omega) le_rfl
    simp only [SkipOne, e1, e2, hlast, skipValue_same h1.left h2.left hlast, and_self]
  | cons c t =>
    obtain ⟨p, k₁, e1, h1, hp⟩ := h.skip_space hs
    obtain ⟨p', k₁', e2, h2, hp'⟩ := h'.skip_space hs
    have e3 := h1.left.length_add
    have e4 := h2.left.length_add
    obtain rfl : p' = p := by omega
    simp only [SkipOne, e1, e2, skipValue_same h1.left h2.left (hrd p' hp.le (by omega)), and_self]

end

/-! ### On the parser's buffers -/

namespace Parser

variable {σ : Type*} {E : Env σ} {p p' : Parser σ} {pad pad' r s : Bytes} {b : UInt8}

/-- Two parsers with the same text left. -/
theorem Buf.agree {i : ℕ} (h : Buf p i pad s) (h' : Buf p' i pad' s) (hpad : Sentinel pad)
    (hpad' : Sentinel pad') :
    Agree p.json_buf_ p'.json_buf_ i p.len_ := by
  have hl := h.left.length_add
  obtain ⟨q, rfl⟩ := hpad
  obtain ⟨q', rfl⟩ := hpad'
  exact ⟨s, _, _, h.at', h'.at', hl⟩

/-- Behind a number, or what fails to be one, less of the text is left. -/
theorem Got.number {flags : ParseFlags} {F : FloatConv} (h : Got p pad b r) (hpad : Sentinel pad)
    (hb : is_digit b = true ∨ b = Ch.minus) :
    ∃ t, t <:+ r ∧
      OnText { p with pos_ := (SonicJson.parseNumber F flags p.json_buf_ p.len_ p.pos_).i }
      pad t := by
  have hl := h.buf.left.length_add
  have hrd : rd p.json_buf_ (p.pos_ - 1) = b := rd_at h.byte
  have hw := @Agree.parseNumber_within F flags _ _ _ _ (h.buf.agree h.buf hpad hpad) (hrd ▸ hb)
  rw [h.pos] at hw
  obtain ⟨h1, h2⟩ := hw
  simp only [List.length_cons] at hl
  have hpos := h.pos
  obtain ⟨k, hk⟩ :=
    Nat.exists_eq_add_of_le (show p.pos_ ≤
    (SonicJson.parseNumber F flags p.json_buf_ p.len_ p.pos_).i by omega)
  have hkr : k ≤ r.length := by omega
  rw [hk]
  have hat := h.at'.drop_at (k := k) (by simp; omega)
  rw [List.drop_append_of_le_length hkr] at hat
  exact ⟨r.drop k, List.drop_suffix k r, h.toOnText.move (by omega) hat⟩

end Parser

end SonicJson
