/-
# The mantissas that the word-level conversions are given

`ParseFloatingNormalFast` and `AtofEiselLemire64` shift the mantissa by its leading zeros,
which a zero has none of. `numberCalls` lists the mantissas they are given for a token;
they are all that a conversion depends on (`parseNumber_congr`). A zero is among them for
a zero with a fraction of 23 zeros or more, and for no other token
(`numberCalls_nonzero`).
-/
import SonicJson.NumberValue
import SonicJson.FloatingFast

namespace SonicJson

open Cursor

section
variable (F : FloatConv) (flags : ParseFlags) (s : Bytes)

/-- The mantissas that `parseFloatEiselLemire64` passes on, in order. -/
def eiselLemireCalls (x : Num) : List ℕ :=
  x.man :: match F.AtofEiselLemire64 x.man x.exp10 x.sgn with
    | some _ => if x.trunc then [(x.man + 1) % 2 ^ 64] else []
    | none => []

/-- The mantissas of the calls from the label `double_fast` on. -/
def wordCalls (x : Num) : List ℕ :=
  let fast := if x.man / 2 ^ 52 = 0 ∧ x.exp10 ≤ 22 + 15 ∧
    -22 ≤ x.exp10 then F.parseFloatingFast x.exp10 x.man else none
  match fast with
  | some _ => []
  | none =>
    if !x.trunc ∧ -308 + 1 < x.exp10 ∧ x.exp10 < 308 - 20 then
      x.man :: match F.ParseFloatingNormalFast x.exp10 x.man x.sgn with
        | some _ => []
        | none => eiselLemireCalls F x
    else eiselLemireCalls F x

def numberCalls (pos : ℕ) : List ℕ :=
  match scanNumber F flags s pos with
  | .done _ => []
  | .double_fast x _ => wordCalls F x

end

section
variable {F G : FloatConv} {flags : ParseFlags} {s t : Bytes} {len p start i : ℕ} {x : Num}

/-- The conversions answer the same when they are given these mantissas. -/
def FloatConv.SameOn (F G : FloatConv) (ws : List ℕ) : Prop :=
  ∀ w ∈ ws, ∀ exp10 sgn, F.ParseFloatingNormalFast exp10 w sgn = G.ParseFloatingNormalFast exp10 w sgn ∧
    F.AtofEiselLemire64 w exp10 sgn = G.AtofEiselLemire64 w exp10 sgn

theorem parseFloatEiselLemire64_congr (hnative : F.AtofNative = G.AtofNative)
    (h : F.SameOn G (eiselLemireCalls F x)) {pos : ℕ} :
    parseFloatEiselLemire64 F s len pos x = parseFloatEiselLemire64 G s len pos x := by
  have hman := (h x.man List.mem_cons_self x.exp10 x.sgn).2
  unfold parseFloatEiselLemire64
  rw [← hnative, ← hman]
  cases hel : F.AtofEiselLemire64 x.man x.exp10 x.sgn with
  | none => rfl
  | some d =>
    cases htr : x.trunc with
    | false => rfl
    | true =>
      have hmem : (x.man + 1) % 2 ^ 64 ∈ eiselLemireCalls F x := by
        unfold eiselLemireCalls
        rw [hel, htr]
        simp
      rw [← (h _ hmem x.exp10 x.sgn).2]

theorem double_fast_congr (hfast : F.parseFloatingFast = G.parseFloatingFast)
    (hnative : F.AtofNative = G.AtofNative) (h : F.SameOn G (wordCalls F x)) :
    double_fast F flags s len start x i = double_fast G flags s len start x i := by
  unfold wordCalls at h
  unfold double_fast
  rw [← hfast]
  dsimp only at h ⊢
  cases hf : (if x.man / 2 ^ 52 = 0 ∧ x.exp10 ≤ 22 + 15 ∧
    -22 ≤ x.exp10 then F.parseFloatingFast x.exp10 x.man else none) with
  | some d => rfl
  | none =>
    rw [hf] at h
    dsimp only at h ⊢
    by_cases hn : (!x.trunc) = true ∧ -308 + 1 < x.exp10 ∧ x.exp10 < 308 - 20
    · simp only [if_pos hn] at h ⊢
      have hman := (h x.man List.mem_cons_self x.exp10 x.sgn).1
      rw [← hman]
      cases hraw : F.ParseFloatingNormalFast x.exp10 x.man x.sgn with
      | some _ => rfl
      | none =>
        rw [hraw] at h
        have hel :=
          @parseFloatEiselLemire64_congr F G s len x hnative
          (fun w hw => h w (List.mem_cons_of_mem _ hw)) (start + 1)
        dsimp only
        rw [hel]
    · simp only [if_neg hn] at h ⊢
      rw [@parseFloatEiselLemire64_congr F G s len x hnative h (start + 1)]

/-- **The listed calls are all.** Conversions that answer the same when given these mantissas give
the same result. -/
theorem parseNumber_congr (hu : F.u64 = G.u64) (hfast : F.parseFloatingFast = G.parseFloatingFast)
    (hnative : F.AtofNative = G.AtofNative) {pos : ℕ} (h : F.SameOn G (numberCalls F flags s pos)) :
    parseNumber F flags s len pos = parseNumber G flags s len pos := by
  have hscan : scanNumber F flags s pos = scanNumber G flags s pos := by
    unfold scanNumber scan_integer_end
    rw [hu]
  rw [parseNumber_eq, parseNumber_eq, ← hscan]
  unfold numberCalls at h
  cases hs : scanNumber F flags s pos with
  | done r => rfl
  | double_fast x i =>
    rw [hs] at h
    exact double_fast_congr hfast hnative h

/-! ### The mantissa -/

theorem decimal_pos {d : UInt8} {ds : Bytes} (hd : is_digit d = true) (h0 : d ≠ Ch.zero) :
    0 < decimal (d :: ds) := by
  have hall : ∀ n : Fin 256, is_digit (UInt8.ofNat n) = true → UInt8.ofNat n ≠ Ch.zero →
      0 < (UInt8.ofNat n).toNat - 48 := by
    decide +kernel
  have h1 := hall ⟨d.toNat, d.toNat_lt⟩
  simp only [UInt8.ofNat_toNat] at h1
  rw [decimal_cons]
  have := Nat.mul_pos (h1 hd h0) (Nat.pow_pos (show 0 < 10 by decide) : 0 < 10 ^ ds.length)
  omega

theorem decimal_append_pos {a b : Bytes} (h : 0 < decimal a) : 0 < decimal (a ++ b) := by
  rw [decimal_append]
  have := Nat.mul_pos h (Nat.pow_pos (show 0 < 10 by decide) : 0 < 10 ^ b.length)
  omega

/-- A mantissa with a digit that is not zero, and room for one more. -/
structure Num.Nonzero (x : Num) : Prop where
  pos : 0 < x.man
  lt : x.man < 10 ^ 19

/-- **The mantissa of a token** is zero only where the digits are zeros and no exponent follows them. -/
theorem scanNumber_mantissa {m I f e : Bytes} (hm : m = [] ∨ m = [Ch.minus]) (hI : IntPart I)
    (hf : FracPart f) (he : ExpPart e) (hin : InText s p (m ++ I ++ f ++ e) t) :
    (∃ r, scanNumber F flags s (p + 1) = .done r ∧ (f = [] ∨ e ≠ []) ∧
      (decimal (I ++ f.drop 1) = 0 → (flags.kParseIntegerAsRaw = true → f ≠ [] ∨ e ≠ []) → r.IsZero)) ∨
    ∃ x j, scanNumber F flags s (p + 1) = .double_fast x j ∧
      (x.Nonzero ∧ 0 < decimal (I ++ f.drop 1) ∨
        x.man = 0 ∧ x.exp10 = -(f.drop 1).length ∧ I = [Ch.zero] ∧ f ≠ [] ∧ e = [] ∧
          ∀ z ∈ f.drop 1, z = Ch.zero) := by
  have hat : At s p (m ++ (I ++ (f ++ (e ++ t)))) := by simpa only [List.append_assoc] using hin.at'
  have hfd := hf.digits
  have h17 : (10 : ℕ) ^ 17 < 10 ^ 19 := by decide
  by_cases hI0 : I = [Ch.zero]
  · subst hI0
    rcases @scanNumber_zero F _ _ _ flags _ _ _ hm hf he hin.stop hat with
      ⟨r, hr, hzero, -, hfe⟩ | ⟨Z, D, j, hfne, hZD, hZ, hD, hDe, hr⟩
    · exact .inl ⟨r, hr, hfe, fun _ => hzero⟩
    · refine .inr ⟨_, j, hr, ?_⟩
      cases D with
      | nil =>
        refine .inr ⟨rfl, ?_, rfl, hfne, hDe rfl, fun z hz => ?_⟩
        · rw [hDe rfl, hZD]
          simp [fractNum, expRead]
        · rw [hZD, List.append_nil] at hz
          exact hZ z hz
      | cons b D =>
        -- the first digit behind the zeros is in the mantissa
        have hdig : ∀ d ∈ b :: D, is_digit d = true :=
          fun d hd => hfd d (hZD ▸ List.mem_append_right Z hd)
        obtain ⟨a, c, hac, hman, -, -, -, hlt⟩ :=
          @fractNum_first ⟨signOf m, 0, 0, 0, false⟩ [] (b :: D) Z.length hdig rfl
          (fun _ => Nat.one_pos)
        obtain ⟨hlt, hne⟩ := hlt (show 0 < 17 by decide)
        obtain ⟨a, rfl⟩ : ∃ a', a = b :: a' := by
          cases a with
          | nil => cases hne rfl
          | cons d a =>
            obtain ⟨rfl, -⟩ := List.cons.inj hac
            exact ⟨a, rfl⟩
        have hpos : 0 < decimal (b :: a) := decimal_pos (hdig b List.mem_cons_self) (hD b D rfl)
        refine .inl ⟨⟨?_, ?_⟩, ?_⟩
        · dsimp only
          rw [hman]
          exact hpos
        · dsimp only
          rw [hman]
          exact hlt.trans h17
        · rw [hZD, hac, decimal_append, decimal_append]
          have := decimal_append_pos (b := c) hpos
          omega
  · obtain ⟨x, hx, hcases⟩ := @scanNumber_pos F _ _ _ flags _ _ _ _ hm hI hI0 hf he hin.stop hat
    have hId := hI.digits
    -- the first digit is in the mantissa
    have htake : 0 < decimal (I.take 19) := by
      cases hI with
      | zero => exact absurd rfl hI0
      | pos hd hd0 _ => exact decimal_pos hd hd0
    have hsome : 0 < decimal (I ++ f.drop 1) := by
      rw [← List.take_append_drop 19 I, List.append_assoc]
      exact decimal_append_pos htake
    have htake' : decimal (I.take 19) < 10 ^ (I.take 19).length :=
      decimal_lt fun d hd => hId d (List.mem_of_mem_take hd)
    have hlt : decimal (I.take 19) < 10 ^ 19 :=
      htake'.trans_le (Nat.pow_le_pow_right (by decide) (List.length_take_le _ _))
    have hfirst : x.Nonzero := by rw [hx]; exact ⟨htake, hlt⟩
    rcases hcases with ⟨rfl, rfl, hr⟩ | ⟨j, ⟨rfl, hne, hr⟩ | ⟨hfne, hr⟩⟩
    · rw [hr]
      rcases @scan_integer_end_cases F flags s p (p + m.length + I.length) x with ⟨r, h⟩ | h
      · exact .inl ⟨r, h, .inl rfl, fun h => absurd h hsome.ne'⟩
      · exact .inr ⟨_, _, h, .inl ⟨⟨hfirst.pos, hfirst.lt⟩, hsome⟩⟩
    · exact .inr ⟨_, j, hr, .inl ⟨⟨hfirst.pos, hfirst.lt⟩, hsome⟩⟩
    · refine .inr ⟨_, j, hr, .inl ⟨?_, hsome⟩⟩
      have hbound : x.man_nd < 17 → decimal (I.take 19) < 10 ^ x.man_nd := by
        intro _
        rw [List.length_take, Nat.min_comm] at htake'
        rw [hx]
        exact htake'
      obtain ⟨a, b, -, hman, -, -, hskip, hused⟩ :=
        @fractNum_first x (I.take 19) (f.drop 1) 0 hfd (by rw [hx]) hbound
      refine ⟨?_, ?_⟩
      · dsimp only
        rw [hman]
        exact decimal_append_pos htake
      · dsimp only
        rw [hman]
        rcases Nat.lt_or_ge x.man_nd 17 with h | h
        · exact (hused h).1.trans h17
        · rw [hskip h, List.append_nil]
          exact hlt

/-! ### The calls -/

/-- A mantissa that can be normalized. -/
def Normalizable (w : ℕ) : Prop := w ≠ 0 ∧ LeadingZeroes w < 64

theorem eiselLemireCalls_nonzero (hx : x.Nonzero) : ∀ w ∈ eiselLemireCalls F x, Normalizable w := by
  have h19 : (10 : ℕ) ^ 19 < 2 ^ 64 - 1 := by decide
  have hlt := hx.lt
  have hpos := hx.pos
  intro w hw
  have hw' : w = x.man ∨ w = (x.man + 1) % 2 ^ 64 := by
    rcases List.mem_cons.mp hw with rfl | hw
    · exact .inl rfl
    · split at hw
      · split at hw
        · exact .inr (List.mem_singleton.mp hw)
        · cases hw
      · cases hw
  have hw0 : w ≠ 0 ∧ w < 2 ^ 64 := by rcases hw' with rfl | rfl <;> omega
  exact ⟨hw0.1, (LeadingZeroes_spec hw0.1 hw0.2).1⟩

theorem wordCalls_nonzero (hx : x.Nonzero) : ∀ w ∈ wordCalls F x, Normalizable w := by
  have hel := @eiselLemireCalls_nonzero F x hx
  have hman : Normalizable x.man := hel x.man List.mem_cons_self
  intro w hw
  unfold wordCalls at hw
  dsimp only at hw
  split at hw
  · cases hw
  · split at hw
    · rcases List.mem_cons.mp hw with rfl | hw
      · exact hman
      · split at hw
        · cases hw
        · exact hel w hw
    · exact hel w hw

/-- A mantissa with an exponent below those of the exact conversion is passed on. -/
theorem man_mem_wordCalls (hx : x.exp10 < -22) : x.man ∈ wordCalls F x := by
  unfold wordCalls eiselLemireCalls
  rw [if_neg (by omega)]
  dsimp only
  split <;> exact List.mem_cons_self

end

section
variable (flags : ParseFlags) (s : Bytes) (len p : ℕ)

/-- No word-level conversion sees a zero, and zeros `ds` are delivered as a zero before. -/
structure ZerosAside (ds tail : Bytes) : Prop where
  calls : ∀ w ∈ numberCalls floatConv flags s (p + 1), Normalizable w
  zeros : decimal ds = 0 → numberCalls floatConv flags s (p + 1) = [] ∧
    ((flags.kParseIntegerAsRaw = true → tail ≠ []) → (parseNumber floatConv flags s len (p + 1)).IsZero)

end

/-- A zero with 23 zeros or more behind the point, and no exponent. -/
theorem numberCalls_long_zero (flags : ParseFlags) {s t : Bytes} {p : ℕ} {m f : Bytes}
    (hm : m = [] ∨ m = [Ch.minus]) (hf : FracPart f) (hlen : 23 ≤ (f.drop 1).length)
    (hz : ∀ z ∈ f.drop 1, z = Ch.zero) (hin : InText s p (m ++ [Ch.zero] ++ f ++ []) t) :
    0 ∈ numberCalls floatConv flags s (p + 1) := by
  have h0 : decimal ([Ch.zero] ++ f.drop 1) = 0 := decimal_zeros fun z hzm => by
    rcases List.mem_cons.mp hzm with rfl | hzm
    exacts [rfl, hz z hzm]
  rcases @scanNumber_mantissa floatConv flags _ _ _ _ _ _ _ hm .zero hf .none hin with
    ⟨r, -, hfe, -⟩ | ⟨x, j, hr, ⟨-, hpos⟩ | ⟨hx0, hexp, -⟩⟩
  · rcases hfe with rfl | hne
    · exact absurd hlen (by decide)
    · exact absurd rfl hne
  · exact absurd h0 hpos.ne'
  · have hcalls : numberCalls floatConv flags s (p + 1) = wordCalls floatConv x := by
      unfold numberCalls
      rw [hr]
    rw [hcalls, ← hx0]
    exact man_mem_wordCalls (by omega)

/-- The other tokens. -/
theorem numberCalls_aside (flags : ParseFlags) {s t : Bytes} (len : ℕ) {p : ℕ} {m I f e : Bytes}
    (hm : m = [] ∨ m = [Ch.minus]) (hI : IntPart I) (hf : FracPart f) (he : ExpPart e)
    (hin : InText s p (m ++ I ++ f ++ e) t)
    (hlong : ¬ (I = [Ch.zero] ∧ 23 ≤ (f.drop 1).length ∧ (∀ z ∈ f.drop 1, z = Ch.zero) ∧ e = [])) :
    ZerosAside flags s len p (I ++ f.drop 1) (f ++ e) := by
  have htail : f ++ e ≠ [] → f ≠ [] ∨ e ≠ [] := by
    intro h
    by_contra hc
    obtain ⟨rfl, rfl⟩ := not_or.mp hc |>.imp not_not.mp not_not.mp
    exact h rfl
  rcases @scanNumber_mantissa floatConv flags _ _ _ _ _ _ _ hm hI hf he hin with
    ⟨r, hr, hfe, hzero⟩ | ⟨x, j, hr, ⟨hx, hpos⟩ | ⟨hx0, hexp, hI0, hfne, he0, hz⟩⟩
  · have hcalls : numberCalls floatConv flags s (p + 1) = [] := by
      unfold numberCalls
      rw [hr]
    refine ⟨fun w hw => ?_, fun h0 => ⟨hcalls, fun hraw => ?_⟩⟩
    · rw [hcalls] at hw
      cases hw
    · rw [parseNumber_eq, hr]
      exact hzero h0 fun h => htail (hraw h)
  · refine ⟨?_, fun h0 => absurd h0 hpos.ne'⟩
    unfold numberCalls
    rw [hr]
    exact wordCalls_nonzero hx
  · have hlen : (f.drop 1).length < 23 := by
      by_contra hc
      exact hlong ⟨hI0, by omega, hz, he0⟩
    -- the exact conversion gives the zero
    have hfast : floatConv.parseFloatingFast x.exp10 0 = some 0 :=
      parseFloatingFast_zero (by omega) (by omega)
    have hcond : x.man / 2 ^ 52 = 0 ∧ x.exp10 ≤ 22 + 15 ∧ -22 ≤ x.exp10 := by
      rw [hx0]
      exact ⟨by decide, by omega, by omega⟩
    have hnone : numberCalls floatConv flags s (p + 1) = [] := by
      unfold numberCalls wordCalls
      rw [hr]
      dsimp only
      rw [if_pos hcond, hx0, hfast]
    refine ⟨fun w hw => ?_, fun _ => ⟨hnone, fun _ => ?_⟩⟩
    · rw [hnone] at hw
      cases hw
    · rw [parseNumber_eq, hr, NumScan.convert]
      unfold double_fast
      rw [if_pos hcond, hx0, hfast]
      exact .inr ⟨x.sgn, rfl⟩

/-- **Where no zero is normalized.** All tokens but a zero with 23 zeros or more behind the point
and no exponent, while the counters of the scan are `int`s. -/
theorem numberCalls_nonzero (flags : ParseFlags) {s t : Bytes} (len : ℕ) {p : ℕ} {m I f e : Bytes}
    (hm : m = [] ∨ m = [Ch.minus]) (hI : IntPart I) (hf : FracPart f) (he : ExpPart e)
    (hin : InText s p (m ++ I ++ f ++ e) t) (hint : CountersFit I f e) :
    (∀ x j, scanNumber floatConv flags s (p + 1) = .double_fast x j → x.InInt) ∧
      (ZerosAside flags s len p (I ++ f.drop 1) (f ++ e) ↔
        ¬ (I = [Ch.zero] ∧ 23 ≤ (f.drop 1).length ∧ (∀ z ∈ f.drop 1, z = Ch.zero) ∧ e = [])) := by
  refine ⟨fun x j hx => scanNumber_counters hm hI hf he hin hint hx, ?_,
    numberCalls_aside flags len hm hI hf he hin⟩
  rintro h ⟨rfl, hlen, hz, rfl⟩
  exact (h.calls 0 (numberCalls_long_zero flags hm hf hlen hz hin)).1 rfl

/-- `0.` and 23 zeros: the mantissa passed on is zero. -/
theorem numberCalls_zero : ¬ ∀ (flags : ParseFlags) (s t : Bytes) (len p : ℕ)
    (m I f e : Bytes), (m = [] ∨ m = [Ch.minus]) →
    IntPart I → FracPart f → ExpPart e → InText s p (m ++ I ++ f ++ e) t →
      ZerosAside flags s len p (I ++ f.drop 1) (f ++ e) := by
  intro h
  have hzeros := h kParseDefault ([Ch.zero, Ch.dot] ++ List.replicate 23 Ch.zero) [] 25 0 [] [Ch.zero]
    (Ch.dot :: List.replicate 23 Ch.zero) []
    (.inl rfl) .zero (.some (by decide) (by decide +kernel)) .none ⟨at_zero _, trivial⟩
  have hmem :
      0 ∈ numberCalls floatConv kParseDefault ([Ch.zero, Ch.dot] ++ List.replicate 23 Ch.zero)
      (0 + 1) := by
    have hscan : scanNumber floatConv kParseDefault ([Ch.zero, Ch.dot] ++ List.replicate 23 Ch.zero)
        (0 + 1) =
        .double_fast ⟨1, 0, 0, -23, false⟩ 25 := by rfl
    unfold numberCalls
    rw [hscan]
    exact man_mem_wordCalls (show (-23 : ℤ) < -22 by decide)
  exact (hzeros.calls 0 hmem).1 rfl

/-- `0.5`. -/
theorem numberCalls_nonzero_half :
    (∀ x j, scanNumber floatConv kParseDefault [48, 46, 53] (0 + 1) = .double_fast x j → x.InInt) ∧
    (ZerosAside kParseDefault [48, 46, 53] 3 0 ([48] ++ ([46, 53] : Bytes).drop 1) ([46, 53] ++ []) ↔
      ¬ (([48] : Bytes) = [Ch.zero] ∧ 23 ≤ (([46, 53] : Bytes).drop 1).length ∧
        (∀ z ∈ ([46, 53] : Bytes).drop 1, z = Ch.zero) ∧ ([] : Bytes) = [])) :=
  numberCalls_nonzero kParseDefault (m := []) (t := []) 3 (.inl rfl) .zero
    (.some (by decide) (by decide +kernel)) .none
    ⟨at_zero _, trivial⟩ ⟨by decide, by decide, by decide⟩

end SonicJson
