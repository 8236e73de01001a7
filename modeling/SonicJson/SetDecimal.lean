/-
# What the slow conversion reads

The digits of a token are taken up to the 800th behind the zeros in front
(`setDigits_digits`). The point is set where it stands among the digits taken: behind an
integer of more than 800 digits it is put after the 800th. So the decimal is the cut of
the token's value divided by ten for each digit of the integer past 800
(`AtofNative_reads`), and this is what is rounded. It is the token that is rounded exactly
if there is no such digit, or if both come out as zero or as infinity
(`AtofNative_nearest_iff`).
-/
import SonicJson.AtofNative

namespace SonicJson

open Significant Binary

/-- The digits behind the zeros in front. -/
def significant (D : Bytes) : Bytes := D.dropWhile (· == Ch.zero)

/-- The number of zeros in front. -/
def zerosOf (D : Bytes) : ℕ := (D.takeWhile (· == Ch.zero)).length

/-- The decimal holds the digits `D`. -/
structure Decimal.Scanned (d : Decimal) (D : Bytes) : Prop where
  size : d.d.length = 800
  nd : d.nd = min (significant D).length 800
  text : d.digits = (significant D).take 800
  trunc : d.trunc = true ↔ ∃ b ∈ (significant D).drop 800, b ≠ Ch.zero

/-- The place of the point in front of which the slow conversion has the digits. -/
def pointRead (I f e : Bytes) : ℤ :=
  (significant (I ++ f.drop 1)).length + expRead e - (f.drop 1).length - (I.length - 800 : ℕ)

/-- The value as the slow conversion reads it. -/
def readValue (I f e : Bytes) : ℚ :=
  decimal (I ++ f.drop 1) * 10 ^ (expRead e - (f.drop 1).length - (I.length - 800 : ℕ))

section
variable {d : Decimal} {D ds I f e m t : Bytes} {c : UInt8}

theorem zerosOf_add (D : Bytes) : zerosOf D + (significant D).length = D.length := by
  rw [zerosOf, significant, ← List.length_append, List.takeWhile_append_dropWhile]

theorem decimal_significant (D : Bytes) : decimal (significant D) = decimal D := by
  have hz : decimal (D.takeWhile (· == Ch.zero)) = 0 :=
    decimal_zeros fun b hb => beq_iff_eq.mp (List.mem_takeWhile_imp (p := fun b => b == Ch.zero) hb)
  conv_rhs => rw [← List.takeWhile_append_dropWhile (p := (· == Ch.zero)) (l := D), decimal_append,
    hz, Nat.zero_mul, Nat.zero_add]
  rfl

theorem significant_snoc (D : Bytes) (c : UInt8) :
    significant (D ++ [c]) = if significant D = [] ∧ c = Ch.zero then [] else significant D ++ [c] := by
  unfold significant
  rw [List.dropWhile_append]
  by_cases hs : D.dropWhile (· == Ch.zero) = []
  · rw [hs]
    by_cases hc : c = Ch.zero
    · simp [hc]
    · simp [hc]
  · simp [hs]

theorem significant_leading (hD : ∀ b ∈ D, is_digit b = true) (h : significant D ≠ []) :
    Leading (significant D) := by
  refine ⟨fun b hb => hD b ((List.dropWhile_suffix _).subset hb), ?_⟩
  obtain ⟨b, r, hbr⟩ := List.exists_cons_of_ne_nil h
  refine ⟨b, r, hbr, fun hb => ?_⟩
  have hhead := @List.head_dropWhile_not _ (· == Ch.zero) D h
  unfold significant at hbr
  simp only [hbr, List.head_cons, hb] at hhead
  exact absurd hhead (by decide)

/-- **One digit more.** -/
theorem setDigits_digit (h : d.Scanned D) (hc : is_digit c = true) :
    ∃ d', (∀ s saw, setDigits (c :: s) d saw = setDigits s d' saw) ∧ d'.Scanned (D ++ [c]) ∧
      d'.dp + zerosOf (D ++ [c]) = d.dp + zerosOf D ∧ d'.neg = d.neg := by
  have hnd := h.nd
  have hsnoc := significant_snoc D c
  have hz := zerosOf_add D
  have hz' := zerosOf_add (D ++ [c])
  rw [List.length_append, List.length_singleton] at hz'
  have hnil : d.nd = 0 ↔ significant D = [] := by
    rw [hnd, ← List.length_eq_zero_iff]
    omega
  by_cases hlead : c = Ch.zero ∧ d.nd = 0
  · have hs : significant D = [] := hnil.mp hlead.2
    rw [if_pos ⟨hs, hlead.1⟩] at hsnoc
    rw [hsnoc] at hz'
    rw [hs] at hz
    refine ⟨{ d with dp := d.dp - 1 }, fun s saw => ?_, ?_, ?_, rfl⟩
    · rw [setDigits, if_pos hc, if_pos hlead]
    · have htext := h.text
      have htrunc := h.trunc
      rw [hs] at hnd htext htrunc
      exact ⟨h.size, by rw [hsnoc]; exact hnd, by rw [hsnoc]; exact htext, by rw [hsnoc]; exact htrunc⟩
    · simp only [List.length_nil] at hz hz'
      show d.dp - 1 + (zerosOf (D ++ [c]) : ℤ) = _
      omega
  · have hne : ¬ (significant D = [] ∧ c = Ch.zero) := fun hn => hlead ⟨hn.2, hnil.mpr hn.1⟩
    rw [if_neg hne] at hsnoc
    have hzeros : zerosOf (D ++ [c]) = zerosOf D := by
      rw [hsnoc, List.length_append, List.length_singleton] at hz'
      omega
    by_cases hroom : d.nd < 800
    · -- the digit is taken
      have hlen : (significant D).length < 800 := by omega
      have hwhole : (significant D).take 800 = significant D := List.take_of_length_le hlen.le
      have hrest : (significant D).drop 800 = [] := List.drop_eq_nil_of_le hlen.le
      refine ⟨{ d with d := d.d.set d.nd c, nd := d.nd + 1 }, fun s saw => ?_, ⟨?_, ?_, ?_, ?_⟩,
        by rw [hzeros], rfl⟩
      · rw [setDigits, if_pos hc, if_neg hlead, if_pos (show d.nd < DECIMAL_MAX_DNUM from hroom)]
      · show (d.d.set d.nd c).length = 800
        rw [List.length_set, h.size]
      · show d.nd + 1 = _
        rw [hsnoc, List.length_append, List.length_singleton]
        omega
      · have htext := h.text
        unfold Decimal.digits at htext ⊢
        dsimp only
        have hset : (d.d.set d.nd c)[d.nd]? = some c := by
          rw [List.getElem?_set_self (by rw [h.size]; exact hroom)]
        rw [List.take_add_one, hset, List.take_set_of_le (le_refl _), htext, hwhole, hsnoc,
          List.take_of_length_le (by rw [List.length_append, List.length_singleton]; omega)]
        rfl
      · have htrunc := h.trunc
        rw [hrest] at htrunc
        rw [hsnoc, List.drop_eq_nil_of_le (by rw [List.length_append, List.length_singleton]; omega)]
        exact htrunc
    · -- it is only looked at
      have hlen : 800 ≤ (significant D).length := by omega
      have hkeep : ∀ d' : Decimal, d'.d = d.d → d'.nd = d.nd →
          (d'.trunc = true ↔ d.trunc = true ∨ c ≠ Ch.zero) → d'.Scanned (D ++ [c]) := by
        intro d' h1 h2 h3
        refine ⟨by rw [h1]; exact h.size, ?_, ?_, ?_⟩
        · rw [h2, hsnoc, List.length_append, List.length_singleton]
          omega
        · have htext := h.text
          unfold Decimal.digits at htext ⊢
          rw [h1, h2, htext, hsnoc, List.take_append_of_le_length hlen]
        · rw [h3, h.trunc, hsnoc, List.drop_append_of_le_length hlen]
          simp only [List.mem_append, List.mem_singleton]
          constructor
          · rintro (⟨b, hb, hb0⟩ | hc0)
            · exact ⟨b, .inl hb, hb0⟩
            · exact ⟨c, .inr rfl, hc0⟩
          · rintro ⟨b, hb | rfl, hb0⟩
            · exact .inl ⟨b, hb, hb0⟩
            · exact .inr hb0
      by_cases hc0 : c ≠ Ch.zero
      · refine ⟨{ d with trunc := true }, fun s saw => ?_, hkeep _ rfl rfl ?_, by rw [hzeros], rfl⟩
        · rw [setDigits, if_pos hc, if_neg hlead,
            if_neg (show ¬ d.nd < DECIMAL_MAX_DNUM from hroom), if_pos hc0]
        · exact iff_of_true rfl (.inr hc0)
      · refine ⟨d, fun s saw => ?_, hkeep _ rfl rfl ?_, by rw [hzeros], rfl⟩
        · rw [setDigits, if_pos hc, if_neg hlead,
            if_neg (show ¬ d.nd < DECIMAL_MAX_DNUM from hroom), if_neg hc0]
        · exact ⟨.inl, fun hor => hor.resolve_right hc0⟩

/-- **A run of digits.** -/
theorem setDigits_digits : ∀ (ds D : Bytes) (d : Decimal), d.Scanned D → (∀ b ∈ ds, is_digit b = true) →
    ∃ d', (∀ s saw, setDigits (ds ++ s) d saw = setDigits s d' saw) ∧ d'.Scanned (D ++ ds) ∧
      d'.dp + zerosOf (D ++ ds) = d.dp + zerosOf D ∧ d'.neg = d.neg := by
  intro ds
  induction ds with
  | nil =>
    intro D d h _
    exact ⟨d, fun _ _ => rfl, by rwa [List.append_nil], by rw [List.append_nil], rfl⟩
  | cons c ds ih =>
    intro D d h hd
    obtain ⟨d₁, h1, h2, h3, h4⟩ := setDigits_digit h (hd c List.mem_cons_self)
    obtain ⟨d₂, k1, k2, k3, k4⟩ := ih (D ++ [c]) d₁ h2 fun b hb => hd b (List.mem_cons_of_mem _ hb)
    rw [List.append_assoc, List.singleton_append] at k2 k3
    refine ⟨d₂, fun s saw => ?_, k2, k3.trans h3, k4.trans h4⟩
    rw [List.cons_append, h1, k1]

theorem setExp_eq (hd : ∀ b ∈ ds, is_digit b = true)
    (ht : ∀ b r, t = b :: r → is_digit b = false) (n : ℕ) :
    setExp (ds ++ t) n = ds.foldl (fun exp d => if exp < 10000 then exp * 10 + (d.toNat - 48)
      else exp) n := by
  induction ds generalizing n with
  | nil =>
    rw [List.nil_append]
    cases t with
    | nil => rfl
    | cons b r =>
      rw [setExp, ht b r rfl, if_neg (by simp)]
      rfl
  | cons c ds ih =>
    have hrest := ih fun b hb => hd b (List.mem_cons_of_mem _ hb)
    rw [List.cons_append, setExp, List.foldl_cons]
    by_cases hn : n < 10000
    · rw [if_pos ⟨hd c List.mem_cons_self, hn⟩, if_pos hn, hrest]
    · rw [if_neg fun hc => hn hc.2, if_neg hn]
      -- from 10000 on nothing is read
      clear hrest ih hd
      induction ds with
      | nil => rfl
      | cons _ ds ih => rwa [List.foldl_cons, if_neg hn]

/-- The exponent of a token, with what stands behind it. -/
def readExp (s : Bytes) (d : Decimal) : Decimal :=
  match s with
  | [] => d
  | c :: s =>
    if isExp c then
      let (s, esgn) : Bytes × ℤ :=
        if rd s 0 = Ch.plus then (s.drop 1, 1) else if rd s 0 = Ch.minus then (s.drop 1, -1) else (s, 1)
      { d with dp := d.dp + (setExp s 0 : ℤ) * esgn }
    else d

/-- With the length of the buffer. -/
theorem SetDecimal_eq (s : Bytes) : SetDecimal s s.length =
    (let p := if rd s 0 = Ch.minus then (s.drop 1, { InitDecimal with neg := true }) else (s,
    InitDecimal)
    let r := setDigits p.1 p.2 false
    readExp r.1 (if !r.2.2 then { r.2.1 with dp := r.2.1.nd } else r.2.1)) := by
  unfold SetDecimal
  rw [Int.toNat_natCast, List.take_length]
  rfl

/-- With no length, or a negative one. -/
theorem SetDecimal_nonpos (s : Bytes) {len : ℤ} (h : len ≤ 0) :
    SetDecimal s len = if rd s 0 = Ch.minus then { InitDecimal with neg := true } else InitDecimal := by
  unfold SetDecimal
  rw [Int.toNat_of_nonpos h, List.take_zero]
  split <;> rfl

/-- With a length within the buffer. -/
theorem SetDecimal_take (s : Bytes) {n : ℕ} (hn : 0 < n) :
    SetDecimal s n = SetDecimal (s.take n) (s.take n).length := by
  have hrd : rd (s.take n) 0 = rd s 0 := by
    cases s with
    | nil => rw [List.take_nil]
    | cons b s =>
      obtain ⟨k, rfl⟩ := Nat.exists_eq_succ_of_ne_zero hn.ne'
      rw [List.take_succ_cons, rd_cons_zero, rd_cons_zero]
  unfold SetDecimal
  rw [Int.toNat_natCast, Int.toNat_natCast, List.take_length, hrd]

theorem readExp_text (he : ExpPart e) (ht : NumStop e t) (d : Decimal) :
    readExp (e ++ t) d = { d with dp := d.dp + expRead e } := by
  cases he with
  | none =>
    have hzero : expRead [] = 0 := rfl
    rw [hzero, add_zero, List.nil_append]
    cases t with
    | nil => rfl
    | cons b r =>
      unfold readExp
      dsimp only
      rw [((ht b r rfl).2 rfl).2, if_neg (by decide)]
  | some hc hsg hd hds =>
    rename_i c b sg ds
    have hexp : isExp c = true := isExp_iff.mpr hc
    have hdig : ∀ x ∈ b :: ds, is_digit x = true := List.forall_mem_cons.mpr ⟨hd, hds⟩
    have hstop : ∀ x r, t = x :: r → is_digit x = false := fun x r hx => (ht x r hx).1
    have hplus : b ≠ Ch.plus := by
      rintro rfl
      exact absurd hd (by decide)
    have hminus : b ≠ Ch.minus := by
      rintro rfl
      exact absurd hd (by decide)
    have hread : setExp (b :: (ds ++ t)) 0 =
        (b :: ds).foldl (fun exp d => if exp < 10000 then exp * 10 + (d.toNat - 48) else exp) 0 :=
          setExp_eq hdig hstop 0
    rw [List.cons_append, List.append_assoc, List.cons_append]
    unfold readExp expRead
    dsimp only
    rw [hexp, if_pos rfl]
    rcases hsg with rfl | rfl | rfl
    · simp only [List.nil_append, rd_cons_zero, if_neg hplus, if_neg hminus, hread, mul_one,
        List.drop_one, List.tail_cons]
    · have hpm : ¬ Ch.plus = Ch.minus := by decide
      simp only [List.singleton_append, rd_cons_zero, if_pos, if_neg hpm, hread, mul_one,
        List.drop_one, List.tail_cons]
    · have hmp : ¬ Ch.minus = Ch.plus := by decide
      simp only [List.singleton_append, rd_cons_zero, if_pos, if_neg hmp, hread, mul_neg_one,
        List.drop_one, List.tail_cons]

theorem scanned_init : InitDecimal.Scanned [] := by
  refine ⟨List.length_replicate, rfl, ?_, ?_⟩
  · rfl
  · refine iff_of_false Bool.false_ne_true ?_
    rintro ⟨b, hb, -⟩
    cases hb

theorem IntPart.rd_ne_minus (h : IntPart I) (u : Bytes) : rd (I ++ u) 0 ≠ Ch.minus := by
  cases h with
  | zero =>
    rw [List.singleton_append, rd_cons_zero]
    decide
  | pos hd _ _ =>
    rw [List.cons_append, rd_cons_zero]
    rintro rfl
    exact absurd hd (by decide)

/-- The point is not far behind the digits that are kept. -/
theorem pointRead_lt (hE : |expValue e| < 100000) : pointRead I f e < 2 ^ 31 := by
  have hsig := zerosOf_add (I ++ f.drop 1)
  have hexp := (abs_lt.mp hE).2
  rw [List.length_append] at hsig
  rw [pointRead, expRead_eq hE]
  omega

/-- **What is read of a token**, whatever ends it. -/
theorem SetDecimal_text (hm : m = [] ∨ m = [Ch.minus]) (hI : IntPart I) (hf : FracPart f)
    (he : ExpPart e) :
    ∃ d, (∀ t s, NumStop e t → s = m ++ (I ++ (f ++ (e ++ t))) → SetDecimal s s.length = d) ∧
      d.Scanned (I ++ f.drop 1) ∧
      d.dp = pointRead I f e ∧
      signFactor d.neg = signOf m := by
  have hdigI := hI.digits
  have hdigF := hf.digits
  -- the sign
  obtain ⟨d₀, hd₀, h₀, hneg₀⟩ :
    ∃ d₀, (∀ u, (if rd (m ++ (I ++ u)) 0 = Ch.minus then ((m ++ (I ++ u)).drop 1,
    { InitDecimal with neg := true })
      else (m ++ (I ++ u), InitDecimal)) = (I ++ u, d₀)) ∧ d₀.Scanned [] ∧
        signFactor d₀.neg = signOf m := by
    rcases hm with rfl | rfl
    · refine ⟨InitDecimal, fun u => ?_, scanned_init, rfl⟩
      rw [List.nil_append, if_neg (hI.rd_ne_minus u)]
    · exact ⟨{ InitDecimal with neg := true }, fun u => rfl,
        ⟨scanned_init.size, scanned_init.nd, scanned_init.text, scanned_init.trunc⟩, rfl⟩
  obtain ⟨d₁, h1, hs₁, hz₁, hn₁⟩ := setDigits_digits I [] d₀ h₀ hdigI
  rw [List.nil_append] at hs₁ hz₁
  -- the point is behind the digits that have been taken
  obtain ⟨d₂, h2, hs₂, hz₂, hn₂⟩ := setDigits_digits (f.drop 1) I { d₁ with dp := d₁.nd }
    ⟨hs₁.size, hs₁.nd, hs₁.text, hs₁.trunc⟩ hdigF
  have hscan : ∀ t, NumStop e t → ∃ saw, setDigits (I ++ (f ++ (e ++ t))) d₀ false =
      (e ++ t, (if saw then d₂ else d₁), saw) ∧
      (saw = false → d₂ = { d₁ with dp := d₁.nd }) := by
    intro t ht
    have hstop : ∀ d saw, setDigits (e ++ t) d saw = (e ++ t, d, saw) := by
      intro d saw
      cases heq : e ++ t with
      | nil => rfl
      | cons b r =>
        obtain ⟨hdig, hdot⟩ : is_digit b = false ∧ b ≠ Ch.dot := by
          cases he with
          | none => exact ⟨(ht b r heq).1, ((ht b r heq).2 rfl).1⟩
          | some hc _ _ _ =>
            rw [List.cons_append, List.cons.injEq] at heq
            rw [← heq.1]
            rcases hc with rfl | rfl <;> exact ⟨by decide, by decide⟩
        rw [setDigits, hdig, if_neg (by decide), if_neg hdot]
    rw [h1]
    cases hf with
    | none =>
      refine ⟨false, hstop _ _, fun _ => ?_⟩
      have hend := h2 [] false
      simp only [List.drop_nil, List.append_nil, setDigits, Prod.mk.injEq] at hend
      exact hend.2.1.symm
    | some hd hds =>
      refine ⟨true, ?_, fun hc => absurd hc (by decide)⟩
      rw [List.cons_append, setDigits, if_neg (by decide), if_pos rfl]
      rw [List.drop_one, List.tail_cons] at h2
      rw [h2, hstop]
      rfl
  refine ⟨{ d₂ with dp := d₂.dp + expRead e }, fun t s ht hs => ?_,
    ⟨hs₂.size, hs₂.nd, hs₂.text, hs₂.trunc⟩, ?_, ?_⟩
  · obtain ⟨saw, hset, hint⟩ := hscan t ht
    rw [SetDecimal_eq, hs, hd₀]
    dsimp only
    rw [hset]
    cases saw with
    | true => exact readExp_text he ht d₂
    | false =>
      rw [hint rfl]
      exact readExp_text he ht _
  · have hz := zerosOf_add (I ++ f.drop 1)
    have hzI := zerosOf_add I
    rw [List.length_append] at hz
    have hnd := hs₁.nd
    have hI' : zerosOf I + min (significant I).length 800 = min I.length 800 := by
      cases hI with
      | zero => rfl
      | @pos b r _ hne _ =>
        have : zerosOf (b :: r) = 0 := by
          rw [zerosOf, List.takeWhile_cons, if_neg (by simpa using hne), List.length_nil]
        omega
    dsimp only at hz₂ ⊢
    rw [pointRead]
    omega
  · rw [← hneg₀, ← hn₁, ← hn₂]

/-- **The value as it is read is rounded correctly.** -/
theorem AtofNative_reads (hm : m = [] ∨ m = [Ch.minus]) (hI : IntPart I) (hf : FracPart f)
    (he : ExpPart e) :
    ∃ b, (∀ t s, NumStop e t → s = m ++ (I ++ (f ++ (e ++ t))) →
      AtofNative 2048 s s.length = some (signed (signOf m) b)) ∧
      binary64.Nearest (readValue I f e) b := by
  obtain ⟨d, hset, hscan, hdp, hneg⟩ := SetDecimal_text hm hI hf he
  have hdig : ∀ b ∈ I ++ f.drop 1, is_digit b = true := by
    intro b hb
    rcases List.mem_append.mp hb with hb | hb
    · exact hI.digits b hb
    · exact hf.digits b hb
  have hval : readValue I f e = decimal (significant (I ++ f.drop 1)) *
      10 ^ (d.dp - (significant (I ++ f.drop 1)).length) := by
    rw [readValue, decimal_significant, hdp, pointRead]
    congr 2
    ring
  by_cases hnil : significant (I ++ f.drop 1) = []
  · have hnd := hscan.nd
    rw [hnil] at hnd hval
    have hzero : decimal [] = 0 := rfl
    have hnd0 : d.nd = 0 := hnd
    rw [hzero, Nat.cast_zero, zero_mul] at hval
    refine ⟨0, fun t s ht hs => ?_, ?_⟩
    · rw [AtofNative, hset t s ht hs, DecimalToF64, if_pos hnd0, assemble_zero, hneg]
    · rw [hval]
      exact nearest_zero le_rfl (zpow_nonneg (by norm_num) _)
  · have hlead := significant_leading hdig hnil
    have hkeeps : d.Keeps (significant (I ++ f.drop 1)) d.dp False :=
      ⟨hscan.size, by rw [hscan.nd]; exact min_le_right _ _, rfl, ⟨0, by rw [hscan.text]; simp⟩,
        by rw [hscan.trunc, false_or]⟩
    obtain ⟨hgood, hcut, htrunc⟩ := hkeeps.cut hlead
    rw [← hval] at hcut htrunc
    rw [false_or] at htrunc
    obtain ⟨b, hb, hnear⟩ := DecimalToF64_nearest hgood hcut htrunc
    exact ⟨b, fun t s ht hs => by rw [AtofNative, hset t s ht hs, hb, hneg], hnear⟩

/-- Of no bytes a zero is read, with the sign of the token. -/
theorem AtofNative_nonpos {s u : Bytes} (hm : m = [] ∨ m = [Ch.minus]) (hI : IntPart I)
    (hs : s = m ++ (I ++ u)) {len : ℤ} (h : len ≤ 0) :
    AtofNative 2048 s len = some (signed (signOf m) 0) := by
  have hset := SetDecimal_nonpos s h
  have hneg : signFactor (SetDecimal s len).neg = signOf m := by
    rw [hset, hs]
    rcases hm with rfl | rfl
    · rw [List.nil_append, if_neg (hI.rd_ne_minus _)]
      rfl
    · rw [List.singleton_append, rd_cons_zero, if_pos rfl]
      rfl
  have hnd : (SetDecimal s len).nd = 0 := by
    rw [hset]
    split <;> rfl
  rw [AtofNative, DecimalToF64, if_pos hnd, assemble_zero, hneg]

/-- With a length that is not within the token nothing behind it is read. -/
theorem AtofNative_stops (hm : m = [] ∨ m = [Ch.minus]) (hI : IntPart I) (hf : FracPart f)
    (he : ExpPart e) (ht : NumStop e t)
    (hlen : ((m ++ I ++ f ++ e).length : ℤ) ≤ toInt32 (m ++ I ++ f ++ e ++ t).length) :
    floatConv.AtofNative (m ++ I ++ f ++ e ++ t) = floatConv.AtofNative (m ++ I ++ f ++ e) := by
  obtain ⟨b, hb, -⟩ := AtofNative_reads hm hI hf he
  have hpos : 0 < (m ++ I ++ f ++ e).length := by
    obtain ⟨c, r, hcons, -⟩ := (NumTok.mk hm hI hf he).cons_head
    rw [hcons]
    exact Nat.succ_pos _
  have hself : toInt32 (m ++ I ++ f ++ e).length = (m ++ I ++ f ++ e).length :=
    toInt32_eq (by have := toInt32_lt (m ++ I ++ f ++ e ++ t).length; omega)
  show (AtofNative 2048 _ (toInt32 _)).getD 0 = (AtofNative 2048 _ (toInt32 _)).getD 0
  rw [hself,
    hb [] _ (fun _ _ h => absurd h (by simp)) (by simp only [List.append_assoc, List.append_nil])]
  generalize toInt32 (m ++ I ++ f ++ e ++ t).length = len at hlen
  lift len to ℕ using (by omega)
  rw [AtofNative, SetDecimal_take _ (by omega), ← AtofNative, List.take_append,
    List.take_of_length_le (by omega)]
  rw [hb _ _ (ht.take (len - (m ++ I ++ f ++ e).length)) (by simp only [List.append_assoc])]

/-- Nothing behind a number is read. -/
theorem floatConv_stops : floatConv.Stops := by
  intro tok t htok ha
  obtain ⟨m, I, f, e, rfl, hm, hI, hf, he, ht⟩ := htok.parts ha
  exact AtofNative_stops hm hI hf he ht ha.length

/-- Nothing behind a token is read. -/
theorem floatConv_local : floatConv.Local := by
  intro tok t hlen htok ht
  obtain @⟨m, I, f, e, hm, hI, hf, he⟩ := htok
  refine AtofNative_stops hm hI hf he ht.numStop ?_
  have hadd := @List.length_append _ (m ++ I ++ f ++ e) t
  rw [toInt32_eq (hadd ▸ hlen)]
  omega

/-! ### When the token is rounded -/

theorem signed_injective {sgn : ℤ} {b c : ℕ} (hb : b ≤ binary64.inf) (hc : c ≤ binary64.inf) :
    signed sgn b = signed sgn c ↔ b = c := by
  have hinf : binary64.inf < 2 ^ 63 := by decide
  refine ⟨fun h => ?_, fun h => h ▸ rfl⟩
  have := congrArg BitVec.toNat h
  unfold signed at this
  rw [BitVec.toNat_ofNat, BitVec.toNat_ofNat] at this
  split at this <;> omega

/-- What rounds to zero. -/
theorem nearest_zero_iff {x : ℚ} (hx : 0 ≤ x) : binary64.Nearest x 0 ↔ x ≤ 2 ^ (-1075 : ℤ) := by
  refine ⟨fun h => ?_, nearest_zero hx⟩
  have h0 : binary64.val 0 = 0 := by
    have := @Format.val_enc binary64 0 0 ⟨fun _ => rfl, by decide⟩
    rwa [Nat.cast_zero, zero_mul] at this
  have h1 : binary64.val 1 = 2 * 2 ^ (-1075 : ℤ) := by
    have := @Format.val_enc binary64 0 1 ⟨fun _ => rfl, by decide⟩
    rw [Nat.cast_one, one_mul, Format.ulp, show ((0 : ℕ) : ℤ) + binary64.emin = -1075 + 1 from rfl,
      zpow_add_one₀ (by norm_num), mul_comm] at this
    exact this
  have hnear := h.near 1 (by decide)
  have hpos : (0 : ℚ) < 2 ^ (-1075 : ℤ) := zpow_pos (by norm_num) _
  rw [h0, h1, sub_zero, abs_of_nonneg hx] at hnear
  generalize (2 : ℚ) ^ (-1075 : ℤ) = u at *
  by_contra hc
  rcases abs_cases (x - 2 * u) with ⟨ha, hb⟩ | ⟨ha, hb⟩ <;> linarith

theorem val_max : binary64.val (binary64.inf - 1) = 2 ^ 1024 - 2 ^ 971 := by
  have h := @Format.val_enc binary64 2045 (2 ^ 53 - 1) ⟨fun h => absurd h (by decide), by decide⟩
  have he : binary64.enc 2045 (2 ^ 53 - 1) = binary64.inf - 1 := rfl
  rw [← he, h]
  have hulp : binary64.ulp 2045 = 2 ^ 971 := rfl
  obtain ⟨N, hN⟩ : ∃ N : ℕ, N = 971 := ⟨_, rfl⟩
  have hN' : 1024 = 53 + N := by omega
  rw [hulp, hN', ← hN, pow_add]
  push_cast
  ring

/-- What rounds to the infinity. -/
theorem nearest_inf_iff {x : ℚ} : binary64.Nearest x binary64.inf ↔ 2 ^ 1024 - 2 ^ 970 ≤ x := by
  have hinf := binary64_val_inf
  have hmax := val_max
  have h971 : (2 : ℚ) ^ 971 = 2 ^ 970 * 2 := pow_succ 2 970
  have hu : (0 : ℚ) < 2 ^ 970 := by positivity
  rw [h971] at hmax
  clear h971
  generalize (2 : ℚ) ^ 970 = u at *
  generalize (2 : ℚ) ^ 1024 = top at *
  constructor
  · intro h
    have hnear := h.near (binary64.inf - 1) (by decide)
    rw [hinf, hmax] at hnear
    by_contra hc
    rcases abs_cases (x - top) with ⟨ha, hb⟩ | ⟨ha, hb⟩ <;>
      rcases abs_cases (x - (top - u * 2)) with ⟨ha', hb'⟩ | ⟨ha', hb'⟩ <;> linarith
  · intro h
    rcases le_or_gt (binary64.val binary64.inf) x with hge | hlt
    · exact Format.nearest_inf hge
    · have hsucc : binary64.inf - 1 + 1 = binary64.inf := rfl
      have hbetween :=
        (@Format.nearest_of_between binary64 (binary64.inf - 1) x (by decide)
        (by rw [hmax]; linarith)
        (by rw [hsucc]; exact hlt.le)).2
      rw [hsucc, hinf, hmax] at hbetween
      refine hbetween ?_
      rcases lt_or_eq_of_le h with h | h
      · exact .inl (by linarith)
      · exact .inr ⟨by linarith, rfl⟩

/-- **A number and its tenth** round to the same only as zero or as infinity. -/
theorem nearest_tenth {x y : ℚ} {b : ℕ} (hx : 0 ≤ x) (hxy : x * 10 ≤ y) (hbx : binary64.Nearest x b)
    (hby : binary64.Nearest y b) :
    y ≤ 2 ^ (-1075 : ℤ) ∨ 2 ^ 1024 - 2 ^ 970 ≤ x := by
  rcases Nat.eq_zero_or_pos b with rfl | hpos
  · exact .inl ((nearest_zero_iff (by linarith)).mp hby)
  rcases Nat.lt_or_ge b binary64.inf with hlt | hge
  · exfalso
    obtain ⟨e, n, rfl, hfit⟩ := binary64.exists_enc b
    have hv := Format.val_enc hfit
    have hv' := Format.val_enc_succ hfit
    have hu := @Format.ulp_pos binary64 e
    have hn : (1 : ℚ) ≤ n := by
      have : n ≠ 0 := by
        rintro rfl
        have he := hfit.lead (Nat.pow_pos (by decide))
        rw [he] at hpos
        exact absurd hpos (by decide)
      exact_mod_cast Nat.pos_of_ne_zero this
    have hnu := mul_le_mul_of_nonneg_right hn hu.le
    have hprev := binary64.val_nonneg (binary64.enc e n - 1)
    have hlow : binary64.val (binary64.enc e n - 1) + binary64.val (binary64.enc e n) ≤ 2 * x := by
      have := (Format.nearest_middles hpos hlt).mp hbx
      split at this
      · exact this.1
      · exact this.1.le
    have hup : 2 * y ≤ binary64.val (binary64.enc e n) + binary64.val (binary64.enc e n + 1) := by
      have := (Format.nearest_middles hpos hlt).mp hby
      split at this
      · exact this.2
      · exact this.2.le
    rw [hv, hv'] at hup
    rw [hv] at hlow
    linarith
  · obtain rfl : b = binary64.inf := le_antisymm hbx.le_inf hge
    exact .inr (nearest_inf_iff.mp hbx)

theorem readValue_eq : readValue I f e = absRead I f e / 10 ^ (I.length - 800) := by
  rw [readValue, absRead, zpow_sub₀ (by norm_num), zpow_natCast, mul_div_assoc]

theorem absRead_nonneg : 0 ≤ absRead I f e := by
  unfold absRead
  positivity

/-- What the slow conversion reads rounds as the value does, if and only if no digit of the integer
is passed over, or both round to zero or to the infinity. -/
theorem readValue_rounds {b : ℕ} (hnear : binary64.Nearest (readValue I f e) b) :
    b = binary64.round (absRead I f e) ↔
      I.length ≤ 800 ∨ absRead I f e ≤ 2 ^ (-1075 : ℤ) ∨
        2 ^ 1024 - 2 ^ 970 ≤ absRead I f e / 10 ^ (I.length - 800) := by
  have h0 := @absRead_nonneg I f e
  have hround := @Format.nearest_round binary64 _ h0
  rw [readValue_eq] at hnear
  have h0' : 0 ≤ absRead I f e / 10 ^ (I.length - 800) := by positivity
  have hle : absRead I f e / 10 ^ (I.length - 800) ≤ absRead I f e :=
    div_le_self h0 (one_le_pow₀ (by norm_num))
  constructor
  · intro hbr
    rw [hbr] at hnear
    by_cases hlen : I.length ≤ 800
    · exact .inl hlen
    · refine .inr (nearest_tenth h0' ?_ hnear hround)
      obtain ⟨k, hk⟩ : ∃ k, I.length - 800 = k + 1 := ⟨I.length - 800 - 1, by omega⟩
      have hk1 : (1 : ℚ) ≤ 10 ^ k := one_le_pow₀ (by norm_num)
      rw [hk, pow_succ, ← div_div, div_mul_cancel₀ _ (by norm_num)]
      exact div_le_self h0 hk1
  · rintro (hlen | hzero | hinf)
    · rw [Nat.sub_eq_zero_of_le hlen, pow_zero, div_one] at hnear
      exact hnear.unique hround
    · have h1 : b = 0 := hnear.unique (nearest_zero h0' (hle.trans hzero))
      have h2 : binary64.round (absRead I f e) = 0 := hround.unique (nearest_zero h0 hzero)
      rw [h1, h2]
    · have h1 : b = binary64.inf := hnear.unique (nearest_inf_iff.mpr hinf)
      have h2 : binary64.round (absRead I f e) = binary64.inf :=
        hround.unique (nearest_inf_iff.mpr (hinf.trans hle))
      rw [h1, h2]

/-- **The slow conversion comes to an end, and rounds the token correctly** if and only if the token
rounds to zero, or the length is an `int` and the integer has at most 800 digits or the value
without those past 800 rounds to the infinity. The point of the decimal is then an `int`, too. -/
theorem AtofNative_nearest_iff (hm : m = [] ∨ m = [Ch.minus]) (hI : IntPart I) (hf : FracPart f)
    (he : ExpPart e) (ht : NumEnd t) (hE : |expValue e| < 100000)
    (hpoint : -2 ^ 31 ≤ pointRead I f e) {s : Bytes} (hs : s = m ++ (I ++ (f ++ (e ++ t))))
    (hlen : s.length < 2 ^ 32) :
    (SetDecimal s (toInt32 s.length)).dp ∈ Set.Ico (-2 ^ 31) (2 ^ 31) ∧
      ∃ d, AtofNative 2048 s (toInt32 s.length) = some d ∧
        (d = signed (signOf m) (binary64.round (absValue I f e)) ↔
          absValue I f e ≤ 2 ^ (-1075 : ℤ) ∨ s.length < 2 ^ 31 ∧
            (I.length ≤ 800 ∨ 2 ^ 1024 - 2 ^ 970 ≤ absValue I f e / 10 ^ (I.length - 800))) := by
  have hround := @Format.nearest_round binary64 (absValue I f e) absValue_nonneg
  by_cases hlt : s.length < 2 ^ 31
  · rw [toInt32_eq hlt]
    obtain ⟨d, hset, -, hdp, -⟩ := SetDecimal_text hm hI hf he
    obtain ⟨b, hb, hnear⟩ := AtofNative_reads hm hI hf he
    refine ⟨?_, _, hb t s ht.numStop hs, ?_⟩
    · have hhigh := pointRead_lt hE (I := I) (f := f)
      rw [hset t s ht.numStop hs, hdp]
      exact ⟨hpoint, hhigh⟩
    · rw [← absRead_eq hE,
        signed_injective hnear.le_inf (Format.nearest_round absRead_nonneg).le_inf,
        readValue_rounds hnear]
      tauto
  · -- the length is not positive, and nothing is read
    have hnon := toInt32_nonpos (not_lt.mp hlt) hlen.le
    have hdp : (SetDecimal s (toInt32 s.length)).dp = 0 := by
      rw [SetDecimal_nonpos s hnon]
      split <;> rfl
    refine ⟨by rw [hdp]; norm_num, _, AtofNative_nonpos hm hI hs hnon, ?_⟩
    have hno : ¬ (s.length < 2 ^ 31 ∧
      (I.length ≤ 800 ∨ 2 ^ 1024 - 2 ^ 970 ≤ absValue I f e / 10 ^ (I.length - 800))) :=
      fun h => hlt h.1
    rw [signed_injective (Nat.zero_le _) hround.le_inf, ← nearest_zero_iff absValue_nonneg,
      or_iff_left hno]
    exact ⟨fun h => h ▸ hround, fun h => h.unique hround⟩

/-- The input `1.5e-7`. -/
theorem AtofNative_nearest_short :
    (SetDecimal [49, 46, 53, 101, 45, 55, 44] (toInt32 7)).dp ∈ Set.Ico (-2 ^ 31) (2 ^ 31) ∧
    ∃ d, AtofNative 2048 [49, 46, 53, 101, 45, 55, 44] (toInt32 7) = some d ∧
      (d = signed (signOf []) (binary64.round (absValue [49] [46, 53] [101, 45, 55])) ↔
        absValue [49] [46, 53] [101, 45, 55] ≤ 2 ^ (-1075 : ℤ) ∨ 7 < 2 ^ 31 ∧
          (([49] : Bytes).length ≤ 800 ∨
          2 ^ 1024 - 2 ^ 970 ≤
            absValue [49] [46, 53] [101, 45, 55] / 10 ^ (([49] : Bytes).length - 800))) :=
  AtofNative_nearest_iff (.inl rfl)
    (.pos (by decide) (by decide) (fun x hx => absurd hx List.not_mem_nil))
    (.some (by decide) (fun x hx => absurd hx List.not_mem_nil))
    (@ExpPart.some 101 55 [45] [] (.inl rfl) (.inr (.inr rfl)) (by decide)
    (fun x hx => absurd hx List.not_mem_nil))
    (t := [44]) ⟨by decide, by decide, by decide⟩ (by decide) (by decide) rfl (by decide)

/-- **A one with nine hundred zeros, and the exponent `-900`**: the value is one, and what is
returned is `1e-101`. -/
theorem AtofNative_long_integer :
    absValue (49 :: List.replicate 900 48) [] [101, 45, 57, 48, 48] = 1 ∧
      AtofNative 2048 (49 :: List.replicate 900 48 ++ [101, 45, 57, 48, 48]) 906 ≠
        some (signed 1 (binary64.round 1)) := by
  obtain ⟨N, hN⟩ : ∃ N : ℕ, N = 900 := ⟨_, rfl⟩
  have hdec : decimal (49 :: List.replicate N 48 ++ List.drop 1 []) = 10 ^ N := by
    have hz : decimal (List.replicate N 48) = 0 := decimal_zeros fun b hb => List.eq_of_mem_replicate hb
    rw [List.drop_nil, List.append_nil, decimal_cons, hz, List.length_replicate]
    show 1 * 10 ^ N + 0 = _
    rw [Nat.one_mul, Nat.add_zero]
  have hexp : expValue [101, 45, 57, 48, 48] = -(N : ℤ) := by
    rw [hN]
    decide
  have hread : expRead [101, 45, 57, 48, 48] = -(N : ℤ) := by
    rw [hN]
    decide
  rw [← hN]
  have hone : absValue (49 :: List.replicate N 48) [] [101, 45, 57, 48, 48] = 1 := by
    rw [absValue, hdec, hexp, List.drop_nil, List.length_nil, Nat.cast_zero, sub_zero, zpow_neg,
      zpow_natCast, Nat.cast_pow, Nat.cast_ofNat, mul_inv_cancel₀ (by positivity)]
  refine ⟨hone, fun hc => ?_⟩
  have hI : IntPart (49 :: List.replicate N 48) :=
    .pos (by decide) (by decide) fun x hx => by rw [List.eq_of_mem_replicate hx]; decide
  obtain ⟨b, hb, hnear⟩ := @AtofNative_reads _ [] [101, 45, 57, 48, 48] [] (.inl rfl) hI .none
    (@ExpPart.some 101 57 [45] [48, 48] (.inl rfl) (.inr (.inr rfl)) rfl
      (List.forall_mem_cons.mpr ⟨rfl, List.forall_mem_cons.mpr ⟨rfl, List.forall_mem_nil _⟩⟩))
  have heq :=
    hb [] (49 :: List.replicate N 48 ++ [101, 45, 57, 48, 48]) (fun _ _ h => absurd h (by simp)) rfl
  have hlen : (49 :: List.replicate N 48 ++ [101, 45, 57, 48, 48] : Bytes).length = 906 := by
    rw [List.length_append, List.length_cons, List.length_replicate, hN]
    rfl
  rw [hlen, Nat.cast_ofNat, hc, Option.some.injEq] at heq
  have hround := @Format.nearest_round binary64 1 (by norm_num)
  have hval : readValue (49 :: List.replicate N 48) [] [101, 45, 57, 48, 48] = 10 ^ (-101 : ℤ) := by
    have hlen : (49 :: List.replicate N 48 : Bytes).length - 800 = 101 := by
      rw [List.length_cons, List.length_replicate, hN]
    have hsum : (N : ℤ) + (-N - (101 : ℕ)) = -101 := by
      push_cast
      ring
    rw [readValue, hdec, hread, hlen, List.drop_nil, List.length_nil, Nat.cast_zero, sub_zero,
      Nat.cast_pow, ← zpow_natCast, Nat.cast_ofNat, ← zpow_add₀ (by norm_num), hsum]
  rw [hval] at hnear
  have hbr : binary64.round 1 = b := (signed_injective hround.le_inf hnear.le_inf).mp heq
  rw [← hbr] at hnear
  -- a number and its tenth do not round to the same
  rcases nearest_tenth (zpow_nonneg (by norm_num) _) (by norm_num) hnear hround with hz | hz
  · have h1 : (2 : ℚ) ^ (-1075 : ℤ) < 1 := zpow_lt_one_of_neg₀ (by norm_num) (by norm_num)
    exact absurd hz (not_le.mpr h1)
  · have h1 : (10 : ℚ) ^ (-101 : ℤ) < 1 := zpow_lt_one_of_neg₀ (by norm_num) (by norm_num)
    have h2 : (2 : ℚ) ^ 970 * 2 ≤ 2 ^ 1024 := by
      rw [← pow_succ]
      exact pow_le_pow_right₀ (by norm_num) (by norm_num)
    have h3 : (1 : ℚ) ≤ 2 ^ 970 := one_le_pow₀ (by norm_num)
    generalize (2 : ℚ) ^ 970 = u at *
    generalize (2 : ℚ) ^ 1024 = w at *
    linarith

end

end SonicJson
