/-
# What `parseNumber` scans

Three facts about the scan. A number token standing alone is scanned to its end
(`parseNumber_token`); what is scanned is a number token (`parseNumber_sound`);
and a token in a buffer is treated as it is alone, given that no byte after it
continues a number (`parseNumber_shift`), so that the value is a function of
the token once the slow conversion is.
-/
import SonicJson.NumberPhases

namespace SonicJson

open Cursor

/-- No byte that continues a number: the text after a token. -/
def NumEnd : Bytes → Prop
  | [] => True
  | b :: _ => is_digit b = false ∧ b ≠ Ch.dot ∧ isExp b = false

theorem Follow.numEnd {t : Bytes} (h : Follow t) : NumEnd t := by
  cases t with
  | nil => trivial
  | cons b t =>
    rcases h with hb | rfl | rfl | rfl
    · simp only [IsSpace, Bool.or_eq_true, beq_iff_eq] at hb
      rcases hb with ((rfl | rfl) | rfl) | rfl <;> exact ⟨by decide, by decide, by decide⟩
    all_goals exact ⟨by decide, by decide, by decide⟩

/-- The slow conversion, which counts the bytes that are left as an `int`, reads a token and nothing
after it. -/
def FloatConv.Local (F : FloatConv) : Prop :=
  ∀ tok t : Bytes, tok.length + t.length < 2 ^ 31 → NumTok tok → NumEnd t →
    F.AtofNative (tok ++ t) = F.AtofNative tok

theorem isExp_iff {b : UInt8} : isExp b = true ↔ b = Ch.e ∨ b = Ch.upE := by
  simp [isExp]

theorem isSign_iff {b : UInt8} : isSign b = true ↔ b = Ch.minus ∨ b = Ch.plus := by
  simp [isSign]

/-! ### The two loops -/

theorem takeWhile_append_of_not {p : UInt8 → Bool} {a t : Bytes} (ha : ∀ b ∈ a, p b = true)
    (ht : ∀ b r, t = b :: r → p b = false) : (a ++ t).takeWhile p = a := by
  rw [List.takeWhile_append_of_pos ha]
  cases t with
  | nil => simp
  | cons b r => simp [ht b r rfl]

theorem takeWhile_append_stop {p : UInt8 → Bool} {t : Bytes} (ht : t.takeWhile p = []) :
    ∀ a : Bytes, (a ++ t).takeWhile p = a.takeWhile p
  | [] => by simpa using ht
  | b :: a => by
    rw [List.cons_append, List.takeWhile_cons, List.takeWhile_cons, takeWhile_append_stop ht a]

section
variable {s t u : Bytes} {i : ℕ}

theorem digitsAt_eq {ds : Bytes} (h : At s i (ds ++ t)) (hd : ∀ b ∈ ds, is_digit b = true)
    (ht : ∀ b r, t = b :: r → is_digit b = false) : digitsAt s i = ds := by
  rw [digitsAt, h.drop, takeWhile_append_of_not hd ht]

/-- The digits from `i` on, and what is after them. -/
theorem digitsAt_split (h : At s i u) :
    ∃ t, u = digitsAt s i ++ t ∧ At s (i + (digitsAt s i).length) t ∧
    ∀ b ∈ digitsAt s i, is_digit b = true := by
  have hu : digitsAt s i = u.takeWhile is_digit := by rw [digitsAt, h.drop]
  rw [hu]
  refine ⟨u.dropWhile is_digit, List.takeWhile_append_dropWhile.symm, ?_,
    fun b hb => List.mem_takeWhile_imp hb⟩
  apply At.append
  rwa [List.takeWhile_append_dropWhile]

/-- The digits end at a byte that is none. -/
theorem digitsAt_stop (h : At s i (digitsAt s i ++ t)) : ∀ b r, t = b :: r → is_digit b = false := by
  rintro b r rfl
  have htake : digitsAt s i = (digitsAt s i ++ b :: r).takeWhile is_digit := by
    conv_lhs => rw [digitsAt, h.drop]
  have hdigits : ∀ c ∈ digitsAt s i, is_digit c = true := by
    intro c hc
    rw [htake] at hc
    exact List.mem_takeWhile_imp hc
  rw [List.takeWhile_append_of_pos hdigits, List.takeWhile_cons] at htake
  split at htake
  · exact absurd (congrArg List.length htake) (by simp)
  · simpa using ‹¬is_digit b = true›

theorem zerosAt_split (h : At s i u) : ∃ t, u = zerosAt s i ++ t ∧ At s (i + (zerosAt s i).length) t ∧
    ∀ b ∈ zerosAt s i, is_digit b = true := by
  have hu : zerosAt s i = u.takeWhile (· == Ch.zero) := by rw [zerosAt, h.drop]
  rw [hu]
  refine ⟨u.dropWhile (· == Ch.zero), List.takeWhile_append_dropWhile.symm, ?_, fun b hb => ?_⟩
  · apply At.append
    rwa [List.takeWhile_append_dropWhile]
  · have := List.mem_takeWhile_imp hb
    rw [beq_iff_eq] at this
    subst this
    decide

/-- A byte that is not the 0 read past the end is one of the text. -/
theorem exists_cons_of_rd (h : At s i u) (h0 : rd s i ≠ 0) : ∃ t, u = rd s i :: t ∧ At s (i + 1) t := by
  cases u with
  | nil =>
    have := rd_at_add h 0
    simp only [Nat.add_zero, rd_nil] at this
    exact absurd this h0
  | cons b t =>
    rw [rd_at h]
    exact ⟨t, rfl, h.succ⟩

theorem exists_cons_of_digit (h : At s i u) (hd : is_digit (rd s i) = true) :
    ∃ t, u = rd s i :: t ∧ At s (i + 1) t := by
  refine exists_cons_of_rd h fun h0 => ?_
  rw [h0] at hd
  exact absurd hd (by decide)

theorem exists_cons_of_eq {b : UInt8} (h : At s i u) (hb : rd s i = b) (h0 : b ≠ 0) :
    ∃ t, u = b :: t ∧ At s (i + 1) t := by
  subst hb
  exact exists_cons_of_rd h h0

theorem digitsAt_nil (h : At s i u) (hd : is_digit (rd s i) = false) : digitsAt s i = [] := by
  rw [digitsAt, h.drop]
  cases u with
  | nil => rfl
  | cons b u =>
    rw [rd_at h] at hd
    simp [hd]

theorem digitsAt_cons (h : At s i u) (hd : is_digit (rd s i) = true) :
    digitsAt s i = rd s i :: digitsAt s (i + 1) := by
  obtain ⟨t, rfl, ht⟩ := exists_cons_of_digit h hd
  rw [digitsAt, h.drop, List.takeWhile_cons, if_pos hd, digitsAt, ht.drop]

/-- Leading zeros are digits. -/
theorem zeros_digits (h : At s i u) :
    zerosAt s i ++ digitsAt s (i + (zerosAt s i).length) = digitsAt s i := by
  obtain ⟨t, hu, ht, hz⟩ := zerosAt_split h
  have hs : digitsAt s i = u.takeWhile is_digit := by rw [digitsAt, h.drop]
  rw [hs, digitsAt, ht.drop]
  conv_rhs => rw [hu]
  rw [List.takeWhile_append_of_pos hz]

theorem fracPart_digitsAt (h : At s i u) (hd : is_digit (rd s i) = true) :
    FracPart (Ch.dot :: digitsAt s i) := by
  obtain ⟨t, -, ht⟩ := exists_cons_of_digit h hd
  rw [digitsAt_cons h hd]
  obtain ⟨_, _, _, hds⟩ := digitsAt_split ht
  exact .some hd hds

theorem is_digit_of_isExp {b : UInt8} (h : isExp b = true) : is_digit b = false := by
  rcases isExp_iff.mp h with rfl | rfl <;> decide

end

/-! ### What is scanned -/

/-- The scan has not failed on a byte. -/
def NumRes.Ok (r : NumRes) : Prop := r.err = .kErrorNone ∨ r.err = .kParseErrorInfinity

theorem NumRes.not_ok_fail (i : ℕ) : ¬ (NumRes.fail i).Ok := by
  simp [NumRes.Ok, NumRes.fail]

section
variable {F : FloatConv} {flags : ParseFlags} {s u : Bytes} {len i start : ℕ} {x : Num}
variable (hflags : flags.kParseOverflowNumAsNumStr = false)
include hflags

theorem double_fast_ok :
    (double_fast F flags s len start x i).Ok ∧ (double_fast F flags s len start x i).i = i := by
  unfold double_fast
  simp only [hflags, Bool.false_and, Bool.false_eq_true, if_false]
  split
  · exact ⟨.inl rfl, rfl⟩
  split
  · exact ⟨.inl rfl, rfl⟩
  refine ⟨?_, rfl⟩
  unfold parseFloatEiselLemire64 NumRes.Ok
  dsimp only
  split
  · exact .inl rfl
  split
  · exact .inr rfl
  · exact .inl rfl

theorem integer_end_ok :
    (integer_end F flags s len start x i).Ok ∧ (integer_end F flags s len start x i).i = i := by
  have hd := fun y => @double_fast_ok F flags s len i start y hflags
  have he : ∀ e, (NumRes.event i e).Ok ∧ (NumRes.event i e).i = i := fun e => ⟨.inl rfl, rfl⟩
  unfold integer_end
  simp only [hflags, Bool.false_eq_true, if_false]
  split_ifs <;> first | exact he _ | exact hd _

end

theorem integer_digits_i {s : Bytes} {sgn : ℤ} {i : ℕ} :
    (integer_digits s sgn i).2 = i + (digitsAt s i).length := by
  unfold integer_digits str2int
  dsimp only
  split <;> rfl

/-- Where the scan of an exponent stops, after its sign and at its digits. -/
def expDigits (s : Bytes) (i : ℕ) : ℕ := if isSign (rd s (i + 1)) then i + 1 + 1 else i + 1

/-- Behind the digits of a number, of which `e` is the exponent. -/
def Behind (e t : Bytes) : Prop := ∀ b r, t = b :: r → is_digit b = false ∧ (isExp b = true → e ≠ [])

theorem exp_sound {s u : Bytes} {i : ℕ} (h : At s i u) (he : isExp (rd s i) = true)
    (hd : is_digit (rd s (expDigits s i)) = true) :
    ∃ e t, u = e ++ t ∧ ExpPart e ∧ e ≠ [] ∧ Behind e t ∧
      expDigits s i + (digitsAt s (expDigits s i)).length = i + e.length := by
  have he' := isExp_iff.mp he
  obtain ⟨u1, rfl, h1⟩ := exists_cons_of_rd h (by rcases he' with he' | he' <;> rw [he'] <;> decide)
  unfold expDigits at *
  by_cases hs : isSign (rd s (i + 1)) = true
  · rw [if_pos hs] at *
    have hs' := isSign_iff.mp hs
    obtain ⟨u2, rfl, h2⟩ := exists_cons_of_rd h1 (by rcases hs' with hs' | hs' <;> rw [hs'] <;> decide)
    obtain ⟨u3, rfl, h3⟩ := exists_cons_of_digit h2 hd
    obtain ⟨t, rfl, -, hds⟩ := digitsAt_split h3
    have hstop := digitsAt_stop h3
    rw [digitsAt_cons h2 hd]
    refine ⟨rd s i :: ([rd s (i + 1)] ++ rd s (i + 1 + 1) :: digitsAt s (i + 1 + 1 + 1)), t,
      by simp, ?_, by simp, fun b r hb => ⟨hstop b r hb, fun _ => by simp⟩, ?_⟩
    · exact .some he' (by rcases hs' with hs' | hs' <;> simp [hs']) hd hds
    · simp
      omega
  · rw [if_neg hs] at *
    obtain ⟨u3, rfl, h3⟩ := exists_cons_of_digit h1 hd
    obtain ⟨t, rfl, -, hds⟩ := digitsAt_split h3
    have hstop := digitsAt_stop h3
    rw [digitsAt_cons h1 hd]
    refine ⟨rd s i :: ([] ++ rd s (i + 1) :: digitsAt s (i + 1 + 1)), t, by simp, ?_, by simp,
      fun b r hb => ⟨hstop b r hb, fun _ => by simp⟩, ?_⟩
    · exact .some he' (.inl rfl) hd hds
    · simp
      omega

theorem exp_token {s e : Bytes} {i : ℕ} (h : At s i e) (he : ExpPart e) (hne : e ≠ []) :
    isExp (rd s i) = true ∧ is_digit (rd s (expDigits s i)) = true ∧
      expDigits s i + (digitsAt s (expDigits s i)).length = i + e.length := by
  cases he with
  | none => exact absurd rfl hne
  | @some e d sg ds hexp hsg hd hds =>
    have h1 := h.succ
    have hsplit : At s (i + 1 + sg.length) (d :: ds) := h1.append
    have hdig : expDigits s i = i + 1 + sg.length := by
      unfold expDigits
      rcases hsg with rfl | rfl | rfl
      · rw [rd_at h1, if_neg]
        · rfl
        · rw [isSign_iff]
          rintro (rfl | rfl) <;> revert hd <;> decide
      · rw [rd_at h1, if_pos (by decide)]
        rfl
      · rw [rd_at h1, if_pos (by decide)]
        rfl
    refine ⟨by rw [rd_at h]; exact isExp_iff.mpr hexp, by rw [hdig, rd_at hsplit]; exact hd, ?_⟩
    have hall : ∀ b ∈ d :: ds, is_digit b = true := by
      intro b hb
      rcases List.mem_cons.mp hb with rfl | hb
      · exact hd
      · exact hds b hb
    rw [hdig, @digitsAt_eq s [] _ (d :: ds) (by simpa using hsplit) hall (by simp)]
    simp
    omega

section
variable {F : FloatConv} {flags : ParseFlags} {s u : Bytes} {len i start : ℕ} {x : Num}

theorem double_exp_eq : double_exp F flags s len start x i =
    if !is_digit (rd s (expDigits s i)) then .fail (expDigits s i)
    else double_fast F flags s len start { x with exp10 := x.exp10 +
        ((digitsAt s (expDigits s i)).foldl (fun exp d => if exp < 10000
          then exp * 10 + (d.toNat - 48) else exp) 0 : ℕ) *
          (if rd s (i + 1) = Ch.minus then -1 else 1 : ℤ) }
      (expDigits s i + (digitsAt s (expDigits s i)).length) := rfl

theorem zero_exp_eq {sgn : ℤ} : zero_exp s sgn i =
    if !is_digit (rd s (expDigits s i)) then .fail (expDigits s i)
    else .event (expDigits s i + (digitsAt s (expDigits s i)).length) (.Double (mulSgn 0 sgn)) := rfl

/-- What `double_fract` makes of the digits `ds` of a fraction that began `skipped` bytes before
them. -/
def fractNum (x : Num) (skipped : ℕ) (ds : Bytes) : Num :=
  let used := if x.man_nd < 17 then
      let n := (ds.take (min (17 - x.man_nd) 16)).length
      n + ((ds.drop n).take (17 - (x.man_nd + n))).length
    else 0
  let man := if x.man_nd < 17 then
      let a := ds.take (min (17 - x.man_nd) 16)
      carry ((x.man * 10 ^ a.length + carry 0 a) % 2 ^ 64)
        ((ds.drop a.length).take (17 - (x.man_nd + a.length)))
    else x.man
  ⟨x.sgn, man, x.man_nd + used, x.exp10 - (skipped + used : ℕ), x.trunc || !(ds.drop used).isEmpty⟩

theorem digitsAt_drop (h : At s i u) {n : ℕ} (hn : n ≤ (digitsAt s i).length) :
    digitsAt s (i + n) = (digitsAt s i).drop n := by
  have hs : s.drop (i + n) = u.drop n := by rw [← h.drop, List.drop_drop]
  rw [digitsAt, hs]
  have hu : digitsAt s i = u.takeWhile is_digit := by rw [digitsAt, h.drop]
  rw [hu] at hn ⊢
  clear hu hs h
  induction n generalizing u with
  | zero => rfl
  | succ n ih =>
    cases u with
    | nil => simp
    | cons b u =>
      by_cases hb : is_digit b = true
      · simp only [List.takeWhile_cons, hb, if_true, List.length_cons, Nat.succ_le_succ_iff,
          List.drop_succ_cons] at hn ⊢
        exact ih hn
      · simp [hb] at hn

theorem scan_fract_eq {exp10_s : ℕ} (h : At s i u) (hi : exp10_s ≤ i) :
    scan_fract s exp10_s x i =
      let j := i + (digitsAt s i).length
      let y := fractNum x (i - exp10_s) (digitsAt s i)
      if !isExp (rd s j) then .double_fast y j else scan_exp s y j := by
  unfold scan_fract fractNum
  by_cases hx : x.man_nd < 17
  · simp only [hx, if_true, simd_str2int]
    set ds := digitsAt s i with hds
    set a := ds.take (min (17 - x.man_nd) 16) with ha
    have hale : a.length ≤ ds.length := by
      rw [ha]
      exact List.length_take_le' _ _
    rw [digitsAt_drop h hale, ← hds]
    set c := (ds.drop a.length).take (17 - (x.man_nd + a.length)) with hc
    have hcle : a.length + c.length ≤ ds.length := by
      have : c.length ≤ (ds.drop a.length).length := List.length_take_le' _ _
      rw [List.length_drop] at this
      omega
    have e1 : i + a.length + c.length = i + (a.length + c.length) := by omega
    rw [e1, digitsAt_drop h hcle, ← hds]
    have e2 : i + (a.length + c.length) + (ds.drop (a.length + c.length)).length = i + ds.length := by
      rw [List.length_drop]
      omega
    have e3 : i + (a.length + c.length) - exp10_s = i - exp10_s + (a.length + c.length) := by omega
    have e4 : x.man_nd + a.length + c.length = x.man_nd + (a.length + c.length) := by omega
    rw [e2, e3, e4]
  · simp only [hx, if_false, List.drop_zero, Nat.add_zero]

theorem double_fract_eq {exp10_s : ℕ} (h : At s i u) (hi : exp10_s ≤ i) :
    double_fract F flags s len start exp10_s x i =
      let j := i + (digitsAt s i).length
      let y := fractNum x (i - exp10_s) (digitsAt s i)
      if !isExp (rd s j) then double_fast F flags s len start y j
        else double_exp F flags s len start y j := by
  rw [double_fract_scan, scan_fract_eq h hi]
  dsimp only
  rw [apply_ite (NumScan.convert F flags s len start), double_exp_scan]
  rfl

end

section
variable {F : FloatConv} {flags : ParseFlags} {s u : Bytes} {len i p start : ℕ} {x : Num}
variable (hflags : flags.kParseOverflowNumAsNumStr = false)
include hflags

theorem double_exp_sound (h : At s i u) (he : isExp (rd s i) = true)
    (hok : (double_exp F flags s len start x i).Ok) :
    ∃ e t, u = e ++ t ∧ ExpPart e ∧ e ≠ [] ∧ Behind e t ∧
      (double_exp F flags s len start x i).i = i + e.length := by
  rw [double_exp_eq] at *
  by_cases hd : is_digit (rd s (expDigits s i)) = true
  · rw [if_neg (by simpa using hd)] at *
    obtain ⟨e, t, hu, hep, hne, hb, hl⟩ := exp_sound h he hd
    exact ⟨e, t, hu, hep, hne, hb, by rw [(double_fast_ok hflags).2, hl]⟩
  · rw [if_pos (by simpa using hd)] at hok
    exact absurd hok (NumRes.not_ok_fail _)

omit hflags in
theorem zero_exp_sound {sgn : ℤ} (h : At s i u) (he : isExp (rd s i) = true)
    (hok : (zero_exp s sgn i).Ok) :
    ∃ e t, u = e ++ t ∧ ExpPart e ∧ e ≠ [] ∧ Behind e t ∧ (zero_exp s sgn i).i = i + e.length := by
  rw [zero_exp_eq] at *
  by_cases hd : is_digit (rd s (expDigits s i)) = true
  · rw [if_neg (by simpa using hd)] at *
    obtain ⟨e, t, hu, hep, hne, hb, hl⟩ := exp_sound h he hd
    exact ⟨e, t, hu, hep, hne, hb, hl⟩
  · rw [if_pos (by simpa using hd)] at hok
    exact absurd hok (NumRes.not_ok_fail _)

theorem double_fract_sound {exp10_s : ℕ} (h : At s i u) (hi : exp10_s ≤ i)
    (hok : (double_fract F flags s len start exp10_s x i).Ok) :
    ∃ e t, u = digitsAt s i ++ (e ++ t) ∧ ExpPart e ∧ Behind e t ∧
      (double_fract F flags s len start exp10_s x i).i = i + (digitsAt s i).length + e.length := by
  rw [double_fract_eq h hi] at *
  dsimp only at *
  obtain ⟨t, hu, ht, -⟩ := digitsAt_split h
  by_cases he : isExp (rd s (i + (digitsAt s i).length)) = true
  · rw [if_neg (by simpa using he)] at *
    obtain ⟨e, t', rfl, hep, -, hb, hl⟩ := double_exp_sound hflags ht he hok
    exact ⟨e, t', hu, hep, hb, hl⟩
  · rw [if_pos (by simpa using he)] at *
    refine ⟨[], t, hu, .none, fun b r hb => ?_, (double_fast_ok hflags).2⟩
    have hrd : rd s (i + (digitsAt s i).length) = b := rd_at (hb ▸ ht)
    exact ⟨digitsAt_stop (hu ▸ h) b r hb, fun hc => absurd (hrd ▸ hc) he⟩

/-- The byte behind the number is not one that continues it. -/
structure Complete (I f e : Bytes) (b : UInt8) : Prop where
  digit : is_digit b = true → I = [Ch.zero] ∧ f = [] ∧ e = []
  exp : isExp b = true → e ≠ []
  dot : b = Ch.dot → f ≠ [] ∨ e ≠ []

/-- A number token with the text behind it, which does not continue it. -/
inductive NumToken : Bytes → Bytes → Prop
  | mk {m I f e t : Bytes} : m = [] ∨ m = [Ch.minus] → IntPart I → FracPart f → ExpPart e →
      (∀ b r, t = b :: r → Complete I f e b) → NumToken (m ++ I ++ f ++ e) t

omit hflags in
theorem NumToken.numTok {tok t : Bytes} (h : NumToken tok t) : NumTok tok := by
  cases h with
  | mk hm hI hf he _ => exact .mk hm hI hf he

omit hflags in
theorem NumToken.left {tok t r : Bytes} (h : NumToken tok (t ++ r)) : NumToken tok t := by
  generalize hu : t ++ r = u at h
  cases h with
  | mk hm hI hf he hb =>
    refine .mk hm hI hf he fun c w ht => hb c (w ++ r) ?_
    rw [← hu, ht, List.cons_append]

omit hflags in
theorem Behind.complete {I f e t : Bytes} (h : Behind e t) (hne : f ≠ [] ∨ e ≠ []) :
    ∀ b r, t = b :: r → Complete I f e b := by
  intro b r hb
  obtain ⟨h1, h2⟩ := h b r hb
  exact ⟨fun hd => absurd hd (by rw [h1]; decide), h2, fun _ => hne⟩

/-- **What is scanned is a number token**: its text begins where the scan did and ends where it
stopped. -/
theorem parseNumber_sound (h : At s p u) (hok : (parseNumber F flags s len (p + 1)).Ok) :
    ∃ tok t, u = tok ++ t ∧ NumToken tok t ∧
      (parseNumber F flags s len (p + 1)).i = p + tok.length := by
  -- the sign
  obtain ⟨m, u0, rfl, hm, h0, hi0⟩ : ∃ m u0, u = m ++ u0 ∧ (m = [] ∨ m = [Ch.minus]) ∧
    At s (p + m.length) u0 ∧
      (if rd s p == Ch.minus then p + 1 else p) = p + m.length := by
    by_cases hneg : rd s p = Ch.minus
    · obtain ⟨u0, rfl, h0⟩ := exists_cons_of_eq h hneg (by decide)
      exact ⟨[Ch.minus], u0, rfl, .inr rfl, h0, by rw [if_pos (by simpa using hneg)]; rfl⟩
    · exact ⟨[], u, rfl, .inl rfl, h, by rw [if_neg (by simpa using hneg)]; rfl⟩
  -- the parts, once they are found
  have done : ∀ {ip f e t : Bytes} {j : ℕ}, u0 = ip ++ (f ++ (e ++ t)) → IntPart ip → FracPart f →
      ExpPart e →
      (∀ b r, t = b :: r → Complete ip f e b) → j = p + m.length + ip.length + f.length + e.length →
      ∃ tok t, m ++ u0 = tok ++ t ∧ NumToken tok t ∧ j = p + tok.length := by
    intro ip f e t j hu hip hf he hb hj
    refine ⟨m ++ ip ++ f ++ e, t, by rw [hu]; simp, .mk hm hip hf he hb, ?_⟩
    rw [hj]
    simp
    omega
  unfold parseNumber at *
  simp only [Nat.add_sub_cancel, hi0] at *
  clear hi0
  generalize (if (rd s p == Ch.minus) = true then (-1 : ℤ) else 1) = sgn at *
  generalize p + m.length = q at *
  by_cases hz : rd s q = Ch.zero
  · rw [if_pos hz] at *
    obtain ⟨u1, rfl, h1⟩ := exists_cons_of_eq h0 hz (by decide)
    by_cases hdot : rd s (q + 1) = Ch.dot
    · rw [if_pos hdot] at *
      obtain ⟨u2, rfl, h2⟩ := exists_cons_of_eq h1 hdot (by decide)
      by_cases hd : is_digit (rd s (q + 1 + 1)) = true
      · rw [if_neg (by simpa using hd)] at *
        have hfrac := fracPart_digitsAt h2 hd
        rw [← zeros_digits h2] at hfrac
        obtain ⟨u3, rfl, h3, -⟩ := zerosAt_split h2
        by_cases he : isExp (rd s (q + 1 + 1 + (zerosAt s (q + 1 + 1)).length)) = true
        · rw [if_pos he] at *
          rw [digitsAt_nil h3 (is_digit_of_isExp he), List.append_nil] at hfrac
          obtain ⟨e, t, rfl, hep, hne, hb, hl⟩ := zero_exp_sound h3 he hok
          refine done rfl .zero hfrac hep (hb.complete (.inr hne)) ?_
          rw [hl]
          simp
          omega
        · rw [if_neg he] at *
          obtain ⟨e, t, hu3, hep, hb, hl⟩ := double_fract_sound hflags h3 (by omega) hok
          refine done (t := t) (by rw [hu3]; simp) .zero hfrac hep (hb.complete (.inl (by simp))) ?_
          rw [hl]
          simp
          omega
      · rw [if_pos (by simpa using hd)] at hok
        exact absurd hok (NumRes.not_ok_fail _)
    · rw [if_neg hdot] at *
      by_cases he : isExp (rd s (q + 1)) = true
      · rw [if_pos he] at *
        obtain ⟨e, t, rfl, hep, hne, hb, hl⟩ := zero_exp_sound h1 he hok
        exact done (f := []) rfl .zero .none hep (hb.complete (.inr hne)) (by rw [hl]; simp)
      · rw [if_neg he] at *
        refine done (f := []) (e := []) rfl .zero .none .none (fun b r hb => ?_) ?_
        · have hrd : rd s (q + 1) = b := rd_at (hb ▸ h1)
          exact ⟨fun _ => ⟨rfl, rfl, rfl⟩, fun hc => absurd (hrd ▸ hc) he,
            fun hc => absurd (hrd.trans hc) hdot⟩
        · split <;> simp [NumRes.event]
  · rw [if_neg hz] at *
    rw [integer_digits_i] at *
    obtain ⟨u1, rfl, h1, hds⟩ := digitsAt_split h0
    by_cases hnil : digitsAt s q = []
    · rw [if_pos (by simp [hnil])] at hok
      exact absurd hok (NumRes.not_ok_fail _)
    have hint : IntPart (digitsAt s q) := by
      obtain ⟨d, ds, hcons⟩ := List.exists_cons_of_ne_nil hnil
      rw [hcons] at hds h0 ⊢
      refine .pos (hds d List.mem_cons_self) (fun he => hz ?_) fun b hb =>
        hds b (List.mem_cons_of_mem _ hb)
      rw [← he]
      exact rd_at h0
    rw [if_neg (by simpa using hnil)] at *
    by_cases hdot : rd s (q + (digitsAt s q).length) = Ch.dot
    · rw [if_pos hdot] at *
      obtain ⟨u2, rfl, h2⟩ := exists_cons_of_eq h1 hdot (by decide)
      by_cases hd : is_digit (rd s (q + (digitsAt s q).length + 1)) = true
      · rw [if_neg (by simpa using hd)] at *
        obtain ⟨e, t, hu2, hep, hb, hl⟩ := double_fract_sound hflags h2 le_rfl hok
        refine done (t := t) (by rw [hu2]; rfl) hint (fracPart_digitsAt h2 hd) hep
          (hb.complete (.inl (by simp))) ?_
        rw [hl]
        simp
        omega
      · rw [if_pos (by simpa using hd)] at hok
        exact absurd hok (NumRes.not_ok_fail _)
    · rw [if_neg hdot] at *
      by_cases he : isExp (rd s (q + (digitsAt s q).length)) = true
      · rw [if_pos he] at *
        obtain ⟨e, t, rfl, hep, hne, hb, hl⟩ := double_exp_sound hflags h1 he hok
        exact done (f := []) rfl hint .none hep (hb.complete (.inr hne)) (by rw [hl]; simp)
      · rw [if_neg he] at *
        refine done (f := []) (e := []) rfl hint .none .none (fun b r hb => ?_)
          (by rw [(integer_end_ok hflags).2]; simp)
        have hrd : rd s (q + (digitsAt s q).length) = b := rd_at (hb ▸ h1)
        exact ⟨fun hc => absurd hc (by rw [digitsAt_stop h0 b r hb]; decide),
          fun hc => absurd (hrd ▸ hc) he, fun hc => absurd (hrd.trans hc) hdot⟩

end

/-! ### What the slow conversion reads -/

/-- Behind a number with the exponent `e` there is nothing that the slow conversion reads on at. -/
def NumStop (e t : Bytes) : Prop :=
  ∀ b r, t = b :: r → is_digit b = false ∧ (e = [] → b ≠ Ch.dot ∧ isExp b = false)

theorem NumEnd.numStop {e t : Bytes} (h : NumEnd t) : NumStop e t := by
  rintro b r rfl
  exact ⟨h.1, fun _ => h.2⟩

theorem NumStop.take {e t : Bytes} (h : NumStop e t) (k : ℕ) : NumStop e (t.take k) := by
  intro b r hb
  cases k with
  | zero => exact absurd hb (by simp)
  | succ k =>
    cases t with
    | nil => exact absurd hb (by simp)
    | cons c t =>
      rw [List.take_succ_cons, List.cons.injEq] at hb
      exact h b t (by rw [hb.1])

/-- The slow conversion reads a number and nothing behind it: it reads on at a digit, and without an
exponent at a dot, and it counts what is left of the text in an `int`. -/
structure Alone (tok t : Bytes) : Prop where
  stop : ∀ b r, t = b :: r → is_digit b = false ∧ (b = Ch.dot → ∃ c ∈ tok, isExp c = true)
  length : (tok.length : ℤ) ≤ toInt32 (tok ++ t).length

/-- The slow conversion stops behind a number, where it reads nothing else. -/
def FloatConv.Stops (F : FloatConv) : Prop :=
  ∀ tok t : Bytes, NumToken tok t → Alone tok t → F.AtofNative (tok ++ t) = F.AtofNative tok

theorem not_exp_of_digit {b : UInt8} (h : is_digit b = true) : isExp b = false := by
  by_contra hc
  rw [is_digit_of_isExp (by simpa using hc)] at h
  exact absurd h (by decide)

theorem IntPart.no_exp {I : Bytes} (h : IntPart I) : ∀ b ∈ I, isExp b = false := by
  cases h with
  | zero => simp [isExp, Ch.zero, Ch.e, Ch.upE]
  | pos hd _ hds =>
    intro b hb
    rcases List.mem_cons.mp hb with rfl | hb
    exacts [not_exp_of_digit hd, not_exp_of_digit (hds b hb)]

theorem FracPart.no_exp {f : Bytes} (h : FracPart f) : ∀ b ∈ f, isExp b = false := by
  cases h with
  | none => simp
  | some hd hds =>
    intro b hb
    rcases List.mem_cons.mp hb with rfl | hb
    · decide
    rcases List.mem_cons.mp hb with rfl | hb
    exacts [not_exp_of_digit hd, not_exp_of_digit (hds b hb)]

theorem NumToken.parts {tok t : Bytes} (h : NumToken tok t) (ha : Alone tok t) : ∃ m I f e,
    tok = m ++ I ++ f ++ e ∧ (m = [] ∨ m = [Ch.minus]) ∧ IntPart I ∧ FracPart f ∧ ExpPart e ∧
      NumStop e t := by
  obtain @⟨m, I, f, e, t, hm, hI, hf, he, hb⟩ := h
  refine ⟨m, I, f, e, rfl, hm, hI, hf, he, fun b r ht => ?_⟩
  obtain ⟨h1, h2⟩ := ha.stop b r ht
  refine ⟨h1, ?_⟩
  rintro rfl
  refine ⟨fun hdot => ?_, by simpa using fun hexp => (hb b r ht).exp hexp rfl⟩
  -- there is no exponent in the other parts
  obtain ⟨c, hc, hexp⟩ := h2 hdot
  simp only [List.append_nil, List.mem_append] at hc
  rcases hc with (hc | hc) | hc
  · rcases hm with rfl | rfl
    · exact absurd hc List.not_mem_nil
    · rw [List.mem_singleton.mp hc] at hexp
      exact absurd hexp (by decide)
  · exact absurd hexp (by rw [hI.no_exp c hc]; decide)
  · exact absurd hexp (by rw [hf.no_exp c hc]; decide)

/-! ### A token alone -/

theorem ExpPart.head_not_digit {e : Bytes} (h : ExpPart e) :
    ∀ b r, e = b :: r → is_digit b = false := by
  intro b r he
  cases h with
  | none => simp at he
  | some hexp _ _ _ =>
    simp only [List.cons.injEq] at he
    rw [← he.1]
    exact is_digit_of_isExp (isExp_iff.mpr hexp)

section
variable {F : FloatConv} {flags : ParseFlags} {s : Bytes} {len i start : ℕ} {x : Num}
variable (hflags : flags.kParseOverflowNumAsNumStr = false)
include hflags

theorem double_exp_token {e : Bytes} (h : At s i e) (he : ExpPart e) (hne : e ≠ []) :
    (double_exp F flags s len start x i).Ok ∧
    (double_exp F flags s len start x i).i = i + e.length := by
  obtain ⟨-, hd, hl⟩ := exp_token h he hne
  rw [double_exp_eq, if_neg (by simpa using hd), ← hl]
  exact double_fast_ok hflags

omit hflags in
theorem zero_exp_token {e : Bytes} {sgn : ℤ} (h : At s i e) (he : ExpPart e) (hne : e ≠ []) :
    (zero_exp s sgn i).Ok ∧ (zero_exp s sgn i).i = i + e.length := by
  obtain ⟨-, hd, hl⟩ := exp_token h he hne
  rw [zero_exp_eq, if_neg (by simpa using hd), ← hl]
  exact ⟨.inl rfl, rfl⟩

omit hflags in
theorem isExp_nil (h : At s i []) : isExp (rd s i) = false := by
  have := rd_at_add h 0
  simp only [Nat.add_zero, rd_nil] at this
  rw [this]
  decide

theorem double_fract_token {exp10_s : ℕ} {ds e : Bytes} (h : At s i (ds ++ e)) (hi : exp10_s ≤ i)
    (hds : ∀ b ∈ ds, is_digit b = true) (he : ExpPart e) :
    (double_fract F flags s len start exp10_s x i).Ok ∧
      (double_fract F flags s len start exp10_s x i).i = i + ds.length + e.length := by
  rw [double_fract_eq h hi, digitsAt_eq h hds he.head_not_digit]
  dsimp only
  by_cases hne : e = []
  · subst hne
    rw [if_pos (by rw [isExp_nil h.append]; rfl)]
    exact double_fast_ok hflags
  · rw [if_neg (by rw [(exp_token h.append he hne).1]; simp)]
    exact double_exp_token hflags h.append he hne

/-- **A number token is scanned to its end.** -/
theorem parseNumber_token {tok : Bytes} (h : NumTok tok) :
    (parseNumber F flags tok len 1).Ok ∧ (parseNumber F flags tok len 1).i = tok.length := by
  obtain @⟨m, ip, f, e, hm, hip, hf, he⟩ := h
  have h0 := at_zero (m ++ ip ++ f ++ e)
  have hlen : (m ++ ip ++ f ++ e).length = m.length + ip.length + f.length + e.length := by
    simp [Nat.add_assoc]
  rw [hlen]
  clear hlen
  generalize hs : m ++ ip ++ f ++ e = s at *
  -- the sign
  have h1 : At s m.length (ip ++ (f ++ e)) := by
    have : At s 0 (m ++ (ip ++ (f ++ e))) := by simpa [← hs] using h0
    simpa using this.append
  have hi0 : (if rd s 0 == Ch.minus then 0 + 1 else 0) = m.length := by
    rcases hm with rfl | rfl
    · rw [if_neg]
      · rfl
      · have h1' : At s 0 (ip ++ (f ++ e)) := h1
        cases hip with
        | zero => rw [rd_at h1']; decide
        | pos hd _ _ =>
          rw [rd_at h1', beq_iff_eq]
          rintro rfl
          exact absurd hd (by decide)
    · rw [if_pos]
      · rfl
      · rw [← hs]
        rfl
  unfold parseNumber
  simp only [Nat.sub_self, hi0]
  clear hi0 h0 hs
  generalize (if (rd s 0 == Ch.minus) = true then (-1 : ℤ) else 1) = sgn
  generalize m.length = q at *
  cases hip with
  | zero =>
    rw [if_pos (rd_at h1)]
    have h2 : At s (q + 1) (f ++ e) := h1.succ
    cases hf with
    | none =>
      rw [if_neg]
      · by_cases hne : e = []
        · subst hne
          rw [if_neg (by simpa using isExp_nil h2)]
          split <;> exact ⟨.inl rfl, rfl⟩
        · rw [if_pos (exp_token h2 he hne).1]
          exact zero_exp_token h2 he hne
      · cases he with
        | none =>
          have := rd_at_add h2 0
          simp only [Nat.add_zero, List.nil_append, rd_nil] at this
          rw [this]
          decide
        | some hexp _ _ _ =>
          rw [rd_at h2]
          rcases hexp with rfl | rfl <;> decide
    | @some d ds hd hds =>
      have h3 : At s (q + 1 + 1) (d :: ds ++ e) := h2.succ
      rw [if_pos (rd_at h2), if_neg (by rw [rd_at h3, hd]; simp)]
      have hall : ∀ b ∈ d :: ds, is_digit b = true := by
        intro b hb
        rcases List.mem_cons.mp hb with rfl | hb
        exacts [hd, hds b hb]
      have hdig := digitsAt_eq h3 hall he.head_not_digit
      have hz := zeros_digits h3
      rw [hdig] at hz
      obtain ⟨t, ht, h4, -⟩ := zerosAt_split h3
      have hsplit : t = digitsAt s (q + 1 + 1 + (zerosAt s (q + 1 + 1)).length) ++ e := by
        have e1 : zerosAt s (q + 1 + 1) ++ t = (zerosAt s (q + 1 + 1) ++
            digitsAt s (q + 1 + 1 + (zerosAt s (q + 1 + 1)).length)) ++ e := by rw [hz, ← ht]
        rwa [List.append_assoc, List.append_cancel_left_eq] at e1
      have hl : (d :: ds).length = (zerosAt s (q + 1 + 1)).length +
          (digitsAt s (q + 1 + 1 + (zerosAt s (q + 1 + 1)).length)).length := by
        rw [← List.length_append, hz]
      obtain ⟨-, -, -, hds4⟩ := digitsAt_split h4
      generalize hD : digitsAt s (q + 1 + 1 + (zerosAt s (q + 1 + 1)).length) = D at *
      subst hsplit
      simp only [List.length_cons, List.length_nil] at hl ⊢
      by_cases hexp : isExp (rd s (q + 1 + 1 + (zerosAt s (q + 1 + 1)).length)) = true
      · rw [if_pos hexp]
        have hDnil : D = [] := by rw [← hD, digitsAt_nil h4 (is_digit_of_isExp hexp)]
        subst hDnil
        have hne : e ≠ [] := by
          rintro rfl
          rw [isExp_nil h4] at hexp
          exact absurd hexp (by decide)
        obtain ⟨h5, h6⟩ := @zero_exp_token s _ _ sgn h4 he hne
        refine ⟨h5, ?_⟩
        rw [h6]
        simp at hl
        simp
        omega
      · rw [if_neg hexp]
        obtain ⟨h5, h6⟩ :=
          @double_fract_token F flags s len _ 0 ⟨sgn, 0, 0, 0, false⟩ hflags (q + 1 + 1) _ _ h4
          (by omega) hds4 he
        refine ⟨h5, ?_⟩
        rw [h6]
        omega
  | @pos d ds hd hd0 hds =>
    rw [if_neg (by rw [rd_at h1]; exact hd0), integer_digits_i]
    have hall : ∀ b ∈ d :: ds, is_digit b = true := by
      intro b hb
      rcases List.mem_cons.mp hb with rfl | hb
      exacts [hd, hds b hb]
    have hend : ∀ b r, f ++ e = b :: r → is_digit b = false := by
      intro b r hfe
      cases hf with
      | none => exact he.head_not_digit b r hfe
      | some _ _ =>
        simp only [List.cons_append, List.cons.injEq] at hfe
        rw [← hfe.1]
        decide
    rw [digitsAt_eq h1 hall hend, if_neg (by simp)]
    have h2 := h1.append
    generalize (d :: ds).length = n at *
    cases hf with
    | none =>
      rw [if_neg]
      · by_cases hne : e = []
        · subst hne
          rw [if_neg (by simpa using isExp_nil h2)]
          simpa using @integer_end_ok F flags s len (q + n) 0 _ hflags
        · rw [if_pos (exp_token h2 he hne).1]
          exact double_exp_token hflags h2 he hne
      · cases he with
        | none =>
          have := rd_at_add h2 0
          simp only [Nat.add_zero, List.nil_append, rd_nil] at this
          rw [this]
          decide
        | some hexp _ _ _ =>
          rw [rd_at h2]
          rcases hexp with rfl | rfl <;> decide
    | @some d' ds' hd' hds' =>
      have h3 : At s (q + n + 1) (d' :: ds' ++ e) := h2.succ
      rw [if_pos (rd_at h2), if_neg (by rw [rd_at h3, hd']; simp)]
      have hall' : ∀ b ∈ d' :: ds', is_digit b = true := by
        intro b hb
        rcases List.mem_cons.mp hb with rfl | hb
        exacts [hd', hds' b hb]
      obtain ⟨h5, h6⟩ :=
        @double_fract_token F flags s len _ 0 (integer_digits s sgn q).1 hflags _ _ _ h3 le_rfl
        hall' he
      refine ⟨h5, ?_⟩
      rw [h6]
      simp only [List.length_cons]
      omega

end

/-! ### Numbers kept as strings -/

/-- The label `double_string_exp` of `parseNumberAsString`. -/
def stringExp (s : Bytes) (start i : ℕ) : NumRes :=
  let i := if isSign (rd s (i + 1)) then i + 1 + 1 else i + 1
  if !is_digit (rd s i) then .fail i
  else .event (i + (digitsAt s i).length) (.NumStr (slice s start (i + (digitsAt s i).length)))

/-- The label `double_string_fract`. -/
def stringFract (s : Bytes) (start i : ℕ) : NumRes :=
  let i := i + (digitsAt s i).length
  if !isExp (rd s i) then .event i (.NumStr (slice s start i)) else stringExp s start i

/-- `parseNumberAsString` behind the sign. -/
def stringBody (s : Bytes) (start : ℕ) (neg : Bool) (i : ℕ) : NumRes :=
  let sgn : ℤ := if neg then -1 else 1
  if rd s i = Ch.zero then
    if rd s (i + 1) = Ch.dot then
      if !is_digit (rd s (i + 1 + 1)) then .fail (i + 1 + 1)
      else
        let j := i + 1 + 1 + (zerosAt s (i + 1 + 1)).length
        if isExp (rd s j) then zero_exp s sgn j else stringFract s start j
    else if isExp (rd s (i + 1)) then zero_exp s sgn (i + 1)
    else .event (i + 1) (.Uint 0)
  else
    let j := i + (digitsAt s i).length
    let man := carry 0 (digitsAt s i)
    let man_nd := j - i
    if man_nd = 0 then .fail j
    else if rd s j = Ch.dot then stringFract s start (j + 1)
    else if isExp (rd s j) then stringExp s start j
    else if man_nd ≤ 19 then
      if neg then if 2 ^ 63 < man then .event j (.NumStr (slice s start j)) else .event j (.Int (-man))
      else .event j (.Uint man)
    else if man_nd = 20 then
      let man := carry 0 ((digitsAt s i).take 19)
      let num := (rd s (j - 1)).toNat - 48
      if man < kUint64Max / 10 ∨ man = kUint64Max / 10 ∧ num ≤ kUint64Max % 10 then
        if sgn = -1 then .event j (.NumStr (slice s start j)) else .event j (.Uint (man * 10 + num))
      else .event j (.NumStr (slice s start j))
    else .event j (.NumStr (slice s start j))

theorem parseNumberAsString_eq (s : Bytes) (p : ℕ) :
    parseNumberAsString s (p + 1) =
      stringBody s p (rd s p == Ch.minus) (if rd s p == Ch.minus then p + 1 else p) := rfl

/-! ### What the handler is told -/

/-- A scan without error tells the handler of a value. -/
def NumRes.Told (r : NumRes) : Prop := r.err = .kErrorNone → r.ev.isSome = true

theorem NumRes.told_fail (i : ℕ) : (NumRes.fail i).Told := by simp [NumRes.Told, NumRes.fail]

theorem NumRes.told_event (i : ℕ) (e : Scalar) : (NumRes.event i e).Told := fun _ => rfl

section
variable {F : FloatConv} {flags : ParseFlags} {s : Bytes} {len i start : ℕ} {x : Num}

theorem zero_exp_told {sgn : ℤ} : (zero_exp s sgn i).Told := by
  rw [zero_exp_eq]
  split_ifs
  exacts [NumRes.told_fail _, NumRes.told_event _ _]

theorem stringExp_told : (stringExp s start i).Told := by
  unfold stringExp
  generalize (if isSign (rd s (i + 1)) then i + 1 + 1 else i + 1) = j
  dsimp only
  split
  exacts [NumRes.told_fail _, NumRes.told_event _ _]

theorem stringFract_told : (stringFract s start i).Told := by
  unfold stringFract
  dsimp only
  split
  exacts [NumRes.told_event _ _, stringExp_told]

theorem parseNumberAsString_told {p : ℕ} : (parseNumberAsString s (p + 1)).Told := by
  rw [parseNumberAsString_eq]
  unfold stringBody
  dsimp only
  split_ifs
  all_goals first
    | exact NumRes.told_fail _
    | exact NumRes.told_event _ _
    | exact zero_exp_told
    | exact stringFract_told
    | exact stringExp_told

theorem double_fast_told : (double_fast F flags s len start x i).Told := by
  unfold double_fast
  dsimp only
  split
  · exact NumRes.told_event _ _
  split
  · exact NumRes.told_event _ _
  split
  · exact parseNumberAsString_told
  · exact fun _ => rfl

theorem double_exp_told : (double_exp F flags s len start x i).Told := by
  rw [double_exp_eq]
  split
  exacts [NumRes.told_fail _, double_fast_told]

theorem double_fract_told {exp10_s : ℕ} : (double_fract F flags s len start exp10_s x i).Told := by
  unfold double_fract
  dsimp only
  split_ifs
  all_goals first | exact double_fast_told | exact double_exp_told

theorem integer_end_told : (integer_end F flags s len start x i).Told := by
  unfold integer_end
  dsimp only
  split_ifs
  all_goals first
    | exact NumRes.told_event _ _
    | exact double_fast_told
    | exact parseNumberAsString_told

theorem parseNumber_told {pos : ℕ} : (parseNumber F flags s len pos).Told := by
  unfold parseNumber
  dsimp only
  split_ifs
  all_goals first
    | exact NumRes.told_fail _
    | exact NumRes.told_event _ _
    | exact zero_exp_told
    | exact double_fract_told
    | exact double_exp_told
    | exact integer_end_told

end

/-! ### A token in a buffer -/

/-- `tok` stands at `p` in `s`, and nothing after it continues a number. -/
structure InText (s : Bytes) (p : ℕ) (tok t : Bytes) : Prop where
  at' : At s p (tok ++ t)
  stop : NumEnd t

/-- The same outcome, `p` bytes further on. -/
structure NumRes.Shift (p : ℕ) (r r' : NumRes) : Prop where
  i : r.i = p + r'.i
  ev : r.ev = r'.ev
  err : r.err = r'.err

theorem rd_nonzero_lt {s : Bytes} {j : ℕ} (h : rd s j ≠ 0) : j < s.length := by
  by_contra hc
  exact h (rd_of_length_le (not_lt.mp hc))

section
variable {s tok t : Bytes} {p j : ℕ} (h : InText s p tok t)
include h

namespace InText

theorem rd_lt (hj : j < tok.length) : rd s (p + j) = rd tok j := by
  rw [rd_at_add h.at', rd_append_left hj]

theorem rd_end : is_digit (rd s (p + tok.length)) = false ∧ rd s (p + tok.length) ≠ Ch.dot ∧
    isExp (rd s (p + tok.length)) = false := by
  have h1 := rd_at_add h.at' tok.length
  have h2 := rd_append_right (t := t) tok 0
  rw [Nat.add_zero] at h2
  rw [h1, h2]
  cases t with
  | nil => exact ⟨by decide, by decide, by decide⟩
  | cons b t => exact h.stop

theorem digit (hj : j ≤ tok.length) : is_digit (rd s (p + j)) = is_digit (rd tok j) := by
  rcases Nat.lt_or_eq_of_le hj with hj | rfl
  · rw [h.rd_lt hj]
  · rw [h.rd_end.1, rd_of_length_le le_rfl]
    decide

theorem exp (hj : j ≤ tok.length) : isExp (rd s (p + j)) = isExp (rd tok j) := by
  rcases Nat.lt_or_eq_of_le hj with hj | rfl
  · rw [h.rd_lt hj]
  · rw [h.rd_end.2.2, rd_of_length_le le_rfl]
    decide

theorem dot (hj : j ≤ tok.length) : rd s (p + j) = Ch.dot ↔ rd tok j = Ch.dot := by
  rcases Nat.lt_or_eq_of_le hj with hj | rfl
  · rw [h.rd_lt hj]
  · rw [rd_of_length_le le_rfl]
    exact ⟨fun hc => absurd hc h.rd_end.2.1, fun hc => absurd hc (by decide)⟩

theorem zero (hj : j ≤ tok.length) : rd s (p + j) = Ch.zero ↔ rd tok j = Ch.zero := by
  rcases Nat.lt_or_eq_of_le hj with hj | rfl
  · rw [h.rd_lt hj]
  · rw [rd_of_length_le le_rfl]
    refine ⟨fun hc => ?_, fun hc => absurd hc (by decide)⟩
    have := h.rd_end.1
    rw [hc] at this
    exact absurd this (by decide)

theorem drop (hj : j ≤ tok.length) : s.drop (p + j) = tok.drop j ++ t := by
  rw [← List.drop_drop, h.at'.drop, List.drop_append_of_le_length hj]

theorem digits (hj : j ≤ tok.length) : digitsAt s (p + j) = digitsAt tok j := by
  rw [digitsAt, h.drop hj, digitsAt]
  have ht : t.takeWhile is_digit = [] := by
    have := h.stop
    cases t with
    | nil => rfl
    | cons b t => rw [List.takeWhile_cons, if_neg (by rw [this.1]; simp)]
  exact takeWhile_append_stop ht _

theorem zeros (hj : j ≤ tok.length) : zerosAt s (p + j) = zerosAt tok j := by
  rw [zerosAt, h.drop hj, zerosAt]
  have ht : t.takeWhile (· == Ch.zero) = [] := by
    have := h.stop
    cases t with
    | nil => rfl
    | cons b t =>
      rw [List.takeWhile_cons, if_neg]
      rintro hb
      rw [beq_iff_eq] at hb
      subst hb
      exact absurd this.1 (by decide)
  exact takeWhile_append_stop ht _

theorem slice_eq (hj : j ≤ tok.length) : slice s p (p + j) = slice tok 0 j := by
  rw [slice, slice, h.at'.drop, Nat.add_sub_cancel_left, Nat.sub_zero, List.drop_zero,
    List.take_append_of_le_length hj]

end InText

end

theorem isExp_lt {b : Bytes} {k : ℕ} (he : isExp (rd b k) = true) : k < b.length := by
  refine rd_nonzero_lt fun h0 => ?_
  rw [h0] at he
  exact absurd he (by decide)

theorem digitsAt_le {s : Bytes} {j : ℕ} (hj : j ≤ s.length) : j + (digitsAt s j).length ≤ s.length := by
  have := (List.takeWhile_sublist (l := s.drop j) is_digit).length_le
  rw [List.length_drop] at this
  unfold digitsAt
  omega

theorem zerosAt_le {s : Bytes} {j : ℕ} (hj : j ≤ s.length) : j + (zerosAt s j).length ≤ s.length := by
  have := (List.takeWhile_sublist (l := s.drop j) (· == Ch.zero)).length_le
  rw [List.length_drop] at this
  unfold zerosAt
  omega

section
variable {F : FloatConv} {flags : ParseFlags} {s tok t : Bytes} {p j len : ℕ} {x : Num}
variable (hflags : flags.kParseOverflowNumAsNumStr = false) (h : InText s p tok t)
include h

/-- The digits of an exponent begin within the token if they are there at all. -/
theorem InText.expDigits (hj : j < tok.length) :
    SonicJson.expDigits s (p + j) = p + SonicJson.expDigits tok j ∧
      SonicJson.expDigits tok j ≤ tok.length ∨
      is_digit (rd tok (SonicJson.expDigits tok j)) = false := by
  unfold SonicJson.expDigits
  rcases Nat.lt_or_eq_of_le (Nat.succ_le_of_lt hj) with hj1 | hj1
  · left
    have := h.rd_lt (j := j + 1) hj1
    rw [show p + j + 1 = p + (j + 1) by omega, this]
    split
    · exact ⟨by omega, by omega⟩
    · exact ⟨rfl, by omega⟩
  · right
    have h0 : rd tok (j + 1) = 0 := rd_of_length_le (by omega)
    rw [h0, if_neg (by decide), h0]
    decide

/-- The conversion of the token in the text and alone. -/
def SlowSame (F : FloatConv) (s tok : Bytes) (p len : ℕ) : Prop :=
  F.AtofNative (slice s p len) = F.AtofNative (slice tok 0 tok.length)

variable (hF : SlowSame F s tok p len)

omit h in
include hflags hF in
theorem double_fast_shift (j : ℕ) :
    (double_fast F flags s len p x (p + j)).Shift p (double_fast F flags tok tok.length 0 x j) := by
  have hp : parseFloatEiselLemire64 F s len (p + 1) x =
      parseFloatEiselLemire64 F tok tok.length (0 + 1) x := by
    unfold parseFloatEiselLemire64
    rw [Nat.add_sub_cancel, Nat.add_sub_cancel, hF]
  unfold double_fast
  rw [hp]
  simp only [hflags, Bool.false_and, Bool.false_eq_true, if_false]
  split
  · exact ⟨rfl, rfl, rfl⟩
  split
  · exact ⟨rfl, rfl, rfl⟩
  exact ⟨rfl, rfl, rfl⟩

include hflags hF in
theorem double_exp_shift (hj : j < tok.length)
    (hok : (double_exp F flags tok tok.length 0 x j).Ok) :
    (double_exp F flags s len p x (p + j)).Shift p (double_exp F flags tok tok.length 0 x j) := by
  rw [double_exp_eq] at hok ⊢
  rw [double_exp_eq]
  by_cases hd : is_digit (rd tok (expDigits tok j)) = true
  swap
  · rw [if_pos (by simpa using hd)] at hok
    exact absurd hok (NumRes.not_ok_fail _)
  rcases h.expDigits hj with ⟨h1, h2⟩ | h1
  swap
  · rw [h1] at hd
    exact absurd hd (by decide)
  have hj1 : j + 1 < tok.length := by
    by_contra hc
    have h0 : rd tok (j + 1) = 0 := rd_of_length_le (by omega)
    rw [expDigits, h0, if_neg (by decide), h0] at hd
    exact absurd hd (by decide)
  simp only [h1, h.digit h2, h.digits h2, hd, Bool.not_true, Bool.false_eq_true, if_false,
    show p + j + 1 = p + (j + 1) by omega, h.rd_lt hj1, Nat.add_assoc]
  exact double_fast_shift hflags hF _

theorem zero_exp_shift {sgn : ℤ} (hj : j < tok.length)
    (hok : (zero_exp tok sgn j).Ok) : (zero_exp s sgn (p + j)).Shift p (zero_exp tok sgn j) := by
  rw [zero_exp_eq] at hok ⊢
  rw [zero_exp_eq]
  by_cases hd : is_digit (rd tok (expDigits tok j)) = true
  swap
  · rw [if_pos (by simpa using hd)] at hok
    exact absurd hok (NumRes.not_ok_fail _)
  rcases h.expDigits hj with ⟨h1, h2⟩ | h1
  swap
  · rw [h1] at hd
    exact absurd hd (by decide)
  rw [h1, h.digit h2, h.digits h2, if_neg (by simpa using hd), if_neg (by simpa using hd),
    Nat.add_assoc]
  exact ⟨rfl, rfl, rfl⟩

include hflags hF in
theorem double_fract_shift {exp10_s : ℕ} (hj : j ≤ tok.length) (hx : exp10_s ≤ j)
    (hok : (double_fract F flags tok tok.length 0 exp10_s x j).Ok) :
    (double_fract F flags s len p (p + exp10_s) x (p + j)).Shift p
      (double_fract F flags tok tok.length 0 exp10_s x j) := by
  have hjd := digitsAt_le hj
  rw [double_fract_eq (at_drop hj) hx] at hok ⊢
  rw [double_fract_eq (at_drop (by have := h.at'.length_add; simp at this; omega)) (by omega),
    h.digits hj, show p + j - (p + exp10_s) = j - exp10_s by omega, Nat.add_assoc]
  dsimp only at hok ⊢
  rw [h.exp hjd]
  split
  · exact double_fast_shift hflags hF _
  · rename_i he
    rw [if_neg he] at hok
    have he' : isExp (rd tok (j + (digitsAt tok j).length)) = true := by simpa using he
    exact double_exp_shift hflags h hF (isExp_lt he') hok

include hflags hF in
theorem integer_end_shift (hj : j ≤ tok.length) (hj0 : 0 < j) :
    (integer_end F flags s len p x (p + j)).Shift p (integer_end F flags tok tok.length 0 x j) := by
  have hrd : rd s (p + j - 1) = rd tok (j - 1) := by
    rw [show p + j - 1 = p + (j - 1) by omega, h.rd_lt (by omega)]
  have he : ∀ e, (NumRes.event (p + j) e).Shift p (NumRes.event j e) := fun e => ⟨rfl, rfl, rfl⟩
  have hd := fun y => @double_fast_shift F flags s tok p len y hflags hF j
  unfold integer_end
  simp only [hflags, Bool.false_eq_true, if_false, hrd, h.slice_eq hj]
  split_ifs <;> first | exact he _ | exact hd _

/-- **A token in a buffer is treated as it is alone**, when nothing after it continues a number. -/
theorem parseNumber_shift (hflags : flags.kParseOverflowNumAsNumStr = false) (htok : NumTok tok)
    (hF : SlowSame F s tok p len) :
    (parseNumber F flags s len (p + 1)).Shift p (parseNumber F flags tok tok.length 1) := by
  have hok := (@parseNumber_token F flags tok.length hflags tok htok).1
  have hlen0 : 0 < tok.length := by
    obtain ⟨b, r, rfl, -⟩ := htok.cons_head
    simp
  obtain ⟨k, hk, hki, hks⟩ : ∃ k, k ≤ tok.length ∧ (if rd tok 0 == Ch.minus then 0 + 1 else 0) = k ∧
      (if rd s p == Ch.minus then p + 1 else p) = p + k := by
    have h0 := h.rd_lt hlen0
    rw [Nat.add_zero] at h0
    rw [h0]
    split
    · exact ⟨1, by omega, rfl, rfl⟩
    · exact ⟨0, by omega, rfl, rfl⟩
  have hsgn : (if rd s p == Ch.minus then (-1 : ℤ) else 1) = if rd tok 0 == Ch.minus then -1
      else 1 := by
    have h0 := h.rd_lt hlen0
    rw [Nat.add_zero] at h0
    rw [h0]
  unfold parseNumber at hok ⊢
  simp only [Nat.add_sub_cancel, Nat.sub_self, hki, hks, hsgn] at hok ⊢
  clear hki hks
  generalize (if (rd tok 0 == Ch.minus) = true then (-1 : ℤ) else 1) = sgn at *
  simp only [h.zero hk]
  by_cases hz : rd tok k = Ch.zero
  · have hk1 : k + 1 ≤ tok.length := rd_nonzero_lt (by rw [hz]; decide)
    simp only [if_pos hz, Nat.add_assoc p, h.dot hk1] at hok ⊢
    by_cases hdot : rd tok (k + 1) = Ch.dot
    · have hk2 : k + 1 + 1 ≤ tok.length := rd_nonzero_lt (by rw [hdot]; decide)
      have hkz := zerosAt_le hk2
      simp only [if_pos hdot, h.digit hk2, h.zeros hk2, h.exp hkz] at hok ⊢
      by_cases hd : is_digit (rd tok (k + 1 + 1)) = true
      · simp only [hd, Bool.not_true, Bool.false_eq_true, if_false] at hok ⊢
        by_cases he : isExp (rd tok (k + 1 + 1 + (zerosAt tok (k + 1 + 1)).length)) = true
        · simp only [if_pos he] at hok ⊢
          exact zero_exp_shift h (isExp_lt he) hok
        · simp only [if_neg he] at hok ⊢
          exact double_fract_shift hflags h hF hkz (by omega) hok
      · rw [if_pos (by simpa using hd)] at hok
        exact absurd hok (NumRes.not_ok_fail _)
    · simp only [if_neg hdot, h.exp hk1] at hok ⊢
      by_cases he : isExp (rd tok (k + 1)) = true
      · simp only [if_pos he] at hok ⊢
        exact zero_exp_shift h (isExp_lt he) hok
      · rw [if_neg he, if_neg he, h.slice_eq hk1]
        split <;> exact ⟨rfl, rfl, rfl⟩
  · have hkd := digitsAt_le hk
    have hnum : (integer_digits s sgn (p + k)).1 = (integer_digits tok sgn k).1 := by
      unfold integer_digits str2int
      simp only [h.digits hk, Nat.add_sub_cancel_left]
      split <;> rfl
    simp only [if_neg hz, integer_digits_i, h.digits hk, hnum, Nat.add_assoc p, h.dot hkd,
      h.exp hkd] at hok ⊢
    by_cases hnil : digitsAt tok k = []
    · rw [if_pos (by simp [hnil])] at hok
      exact absurd hok (NumRes.not_ok_fail _)
    have hpos : 0 < (digitsAt tok k).length := List.length_pos_iff.mpr hnil
    simp only [show ¬ k + (digitsAt tok k).length = k by omega,
      show ¬ p + (k + (digitsAt tok k).length) = p + k by omega, if_false] at hok ⊢
    by_cases hdot : rd tok (k + (digitsAt tok k).length) = Ch.dot
    · have hk1 : k + (digitsAt tok k).length + 1 ≤ tok.length := rd_nonzero_lt (by rw [hdot]; decide)
      simp only [if_pos hdot, h.digit hk1] at hok ⊢
      by_cases hd : is_digit (rd tok (k + (digitsAt tok k).length + 1)) = true
      · simp only [hd, Bool.not_true, Bool.false_eq_true, if_false] at hok ⊢
        exact double_fract_shift hflags h hF hk1 le_rfl hok
      · rw [if_pos (by simpa using hd)] at hok
        exact absurd hok (NumRes.not_ok_fail _)
    · simp only [if_neg hdot] at hok ⊢
      by_cases he : isExp (rd tok (k + (digitsAt tok k).length)) = true
      · simp only [if_pos he] at hok ⊢
        exact double_exp_shift hflags h hF (isExp_lt he) hok
      · simp only [if_neg he] at hok ⊢
        exact integer_end_shift hflags h hF hkd (by omega)

end

end SonicJson
