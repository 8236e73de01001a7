/-
# Skipping a container

`SkipContainer` goes by 64 bytes: `GetStringBits` marks the bytes inside
strings, and the loop over the closing brackets counts the opening ones before
each. `contEnd` is the byte automaton it computes: quotes that are not escaped
switch, brackets outside strings count, and the container ends at the first
closing bracket with none open.
-/
import SonicJson.SkipString

namespace SonicJson

open Cursor

/-- The bytes of a block that are inside a string (with the opening quote, without the closing one),
and what is passed on: whether the next block begins inside a string (all ones) and escaped. -/
def GetStringBits (data : Bytes) (p : ℕ) (prev_instring prev_escaped : BitVec 64) :
    BitVec 64 × BitVec 64 × BitVec 64 :=
  let bs_bits := to_bitmask 64 data p (· == Ch.bslash)
  let (escaped, prev_escaped) :=
    if bs_bits ≠ 0 then GetEscaped 64 prev_escaped bs_bits else (prev_escaped, 0)
  let quote_bits := to_bitmask 64 data p (· == Ch.quote) &&& ~~~escaped
  let in_string := Bits.prefixXor quote_bits ^^^ prev_instring
  (in_string, in_string.sshiftRight 63, prev_escaped)

/-- `while (rbrace > 0)`: where the container closes, and how many closing brackets there have been. -/
def closeLoop (lbrace : BitVec 64) (last_lbrace_num : ℕ) : ℕ → BitVec 64 → ℕ → Option ℕ × ℕ
  | 0, _, rbrace_num => (none, rbrace_num)
  | fuel + 1, rbrace, rbrace_num =>
    if rbrace ≠ 0 then
      let rbrace_num := rbrace_num + 1
      let lbrace_num := last_lbrace_num + Bits.popCount ((rbrace - 1#64) &&& lbrace)
      if lbrace_num < rbrace_num then (some (Bits.ctz rbrace + 1), rbrace_num)
      else closeLoop lbrace last_lbrace_num fuel (rbrace &&& (rbrace - 1#64)) rbrace_num
    else (none, rbrace_num)

/-- What a scan of blocks carries over: the string flags and the counts. -/
structure ContState where
  prev_instring : BitVec 64
  prev_escaped : BitVec 64
  rbrace_num : ℕ
  lbrace_num : ℕ

/-- `SKIP_LOOP`, on the block at `p`. -/
def SKIP_LOOP (data : Bytes) (p : ℕ) (left right : UInt8) (st : ContState) : Option ℕ × ContState :=
  let (instring, prev_instring, prev_escaped) := GetStringBits data p st.prev_instring st.prev_escaped
  let rbrace := to_bitmask 64 data p (· == right) &&& ~~~instring
  let lbrace := to_bitmask 64 data p (· == left) &&& ~~~instring
  let (closed, rbrace_num) := closeLoop lbrace st.lbrace_num 65 rbrace st.rbrace_num
  (closed, ⟨prev_instring, prev_escaped, rbrace_num, st.lbrace_num + Bits.popCount lbrace⟩)

def skipContainerBlocks (data : Bytes) (len : ℕ) (left right : UInt8) : ℕ → ContState → ℕ → Bool × ℕ
  | 0, _, pos => (false, pos)
  | fuel + 1, st, pos =>
    if pos + 64 ≤ len then
      match SKIP_LOOP data pos left right st with
      | (some k, _) => (true, pos + k)
      | (none, st) => skipContainerBlocks data len left right fuel st (pos + 64)
    else
      let buf := slice data pos len ++ List.replicate (64 - (len - pos)) 0
      match SKIP_LOOP buf 0 left right st with
      | (some k, _) => (true, pos + k)
      | (none, _) => (false, pos)

/-- Skips to after the bracket that closes the container whose opening bracket is before `pos`. -/
def SkipContainer (data : Bytes) (pos len : ℕ) (left right : UInt8) : Bool × ℕ :=
  skipContainerBlocks data len left right (len + 1) ⟨0, 0, 0, 0⟩ pos

def SkipArray (data : Bytes) (pos len : ℕ) : Bool × ℕ := SkipContainer data pos len Ch.lbrack Ch.rbrack

def SkipObject (data : Bytes) (pos len : ℕ) : Bool × ℕ := SkipContainer data pos len Ch.lbrace Ch.rbrace

theorem le_skipContainerBlocks {data : Bytes} {len : ℕ} {left right : UInt8} :
    ∀ (fuel : ℕ) (st : ContState) (pos : ℕ), pos ≤
    (skipContainerBlocks data len left right fuel st pos).2
  | 0, _, _ => le_rfl
  | fuel + 1, st, pos => by
    rw [skipContainerBlocks]
    split
    · split
      · exact Nat.le_add_right _ _
      · exact (Nat.le_add_right _ _).trans (le_skipContainerBlocks fuel _ (pos + 64))
    · dsimp only
      split
      · exact Nat.le_add_right _ _
      · exact le_rfl

/-! ### The byte automaton -/

/-- What is left after the bracket that closes the container: `ins` and `esc` say whether the first
byte is inside a string and escaped, `d` how many brackets are open within. -/
def contEnd (left right : UInt8) : Bool → Bool → ℕ → Bytes → Option Bytes
  | _, _, _, [] => none
  | ins, esc, d, b :: s =>
    let ins' := ins ^^ ((b == Ch.quote) && !esc)
    let esc' := (b == Ch.bslash) && !esc
    if (b == right) && !ins' then if d = 0 then some s else contEnd left right ins' esc' (d - 1) s
    else if (b == left) && !ins' then contEnd left right ins' esc' (d + 1) s
    else contEnd left right ins' esc' d s

/-- Whether the byte of `s` at `i` is reached inside a string. -/
def insIn (s : Bytes) (ins esc : Bool) : ℕ → Bool
  | 0 => ins
  | i + 1 => insIn s ins esc i ^^ ((rd s i == Ch.quote) && !escIn s esc i)

theorem insIn_cons (b : UInt8) (s : Bytes) (ins esc : Bool) : ∀ i, insIn (b :: s) ins esc (i + 1) =
    insIn s (ins ^^ ((b == Ch.quote) && !esc)) ((b == Ch.bslash) && !esc) i
  | 0 => rfl
  | i + 1 => by
    rw [insIn, insIn_cons b s ins esc i, escIn_cons, rd_cons_succ]
    rfl

/-- Whether the byte of `s` at `i` is the bracket `c`, outside strings. -/
def bracketAt (c : UInt8) (s : Bytes) (ins esc : Bool) (i : ℕ) : Bool :=
  (rd s i == c) && !insIn s ins esc (i + 1)

theorem bracketAt_cons (c b : UInt8) (s : Bytes) (ins esc : Bool) (i : ℕ) :
    bracketAt c (b :: s) ins esc (i + 1) =
      bracketAt c s (ins ^^ ((b == Ch.quote) && !esc)) ((b == Ch.bslash) && !esc) i := by
  rw [bracketAt, insIn_cons, rd_cons_succ]
  rfl

/-- The closing bracket at `i` has no partner, after `l` opening and `r` closing ones. -/
def ClosesAt (L R : ℕ → Bool) (l r i : ℕ) : Prop := R i = true ∧
    l + Bits.count L i < r + Bits.count R i + 1

theorem count_bracketAt_cons (c b : UInt8) (s : Bytes) (ins esc : Bool) (i : ℕ) :
    Bits.count (bracketAt c (b :: s) ins esc) (i + 1) =
      ((b == c) && !(ins ^^ ((b == Ch.quote) && !esc))).toNat +
      Bits.count (bracketAt c s (ins ^^ ((b == Ch.quote) && !esc)) ((b == Ch.bslash) && !esc)) i := by
  rw [Bits.count_head]
  congr 1
  exact Bits.count_congr fun j _ => bracketAt_cons c b s ins esc j

section
variable {left right : UInt8} (hlr : left ≠ right)
include hlr

/-- Past brackets that do not close the container. -/
theorem contEnd_drop : ∀ {s : Bytes} {ins esc : Bool} {d i : ℕ}, i ≤ s.length →
    (∀ j < i, ¬ ClosesAt (bracketAt left s ins esc) (bracketAt right s ins esc) d 0 j) →
    contEnd left right ins esc d s = contEnd left right (insIn s ins esc i) (escIn s esc i)
        (d + Bits.count (bracketAt left s ins esc) i - Bits.count (bracketAt right s ins esc) i)
          (s.drop i) ∧
      Bits.count (bracketAt right s ins esc) i ≤ d + Bits.count (bracketAt left s ins esc) i
  | s, ins, esc, d, 0, _, _ => ⟨rfl, Nat.zero_le _⟩
  | [], _, _, _, i + 1, hi, _ => by simp at hi
  | b :: s, ins, esc, d, i + 1, hi, h => by
    have hi' : i ≤ s.length := by simpa using hi
    rw [insIn_cons, escIn_cons, List.drop_succ_cons, count_bracketAt_cons, count_bracketAt_cons]
    have hR : bracketAt right (b :: s) ins esc 0 =
      ((b == right) && !(ins ^^ ((b == Ch.quote) && !esc))) := rfl
    have h0 := h 0 (by omega)
    rw [ClosesAt, hR] at h0
    have hs :
        ∀ j < i, ¬ (bracketAt right s (ins ^^ ((b == Ch.quote) && !esc)) ((b == Ch.bslash) && !esc)
        j = true ∧
        d + ((((b == left) && !(ins ^^ ((b == Ch.quote) && !esc)))).toNat +
          Bits.count
            (bracketAt left s (ins ^^ ((b == Ch.quote) && !esc)) ((b == Ch.bslash) && !esc)) j) <
        0 + ((((b == right) && !(ins ^^ ((b == Ch.quote) && !esc)))).toNat +
          Bits.count (bracketAt right s (ins ^^ ((b == Ch.quote) && !esc))
            ((b == Ch.bslash) && !esc)) j) + 1) := by
      intro j hj
      have := h (j + 1) (by omega)
      rwa [ClosesAt, bracketAt_cons, count_bracketAt_cons, count_bracketAt_cons] at this
    rw [contEnd]
    generalize (ins ^^ ((b == Ch.quote) && !esc)) = ins' at *
    generalize ((b == Ch.bslash) && !esc) = esc' at *
    by_cases hr : ((b == right) && !ins') = true
    · have hl : ((b == left) && !ins') = false := by
        simp only [Bool.and_eq_true, beq_iff_eq] at hr
        rw [hr.1, Bool.and_eq_false_iff]
        exact .inl (by simpa using Ne.symm hlr)
      simp only [hr, Bits.count, true_and, Nat.add_zero, Nat.zero_add, not_lt] at h0
      rw [hr, hl] at hs ⊢
      simp only [Bool.toNat_true, Bool.toNat_false, Nat.zero_add] at hs ⊢
      rw [if_pos trivial, if_neg (by omega)]
      obtain ⟨h1, h2⟩ := contEnd_drop (d := d - 1) hi' fun j hj hc =>
        hs j hj ⟨hc.1, by have := hc.2; omega⟩
      rw [h1]
      refine ⟨?_, by omega⟩
      congr 1
      omega
    · have hr' : ((b == right) && !ins') = false := by simpa using hr
      rw [hr'] at hs ⊢
      rw [if_neg (by simp)]
      simp only [Bool.toNat_false, Nat.zero_add] at hs ⊢
      by_cases hl : ((b == left) && !ins') = true
      · rw [hl] at hs ⊢
        simp only [Bool.toNat_true] at hs ⊢
        rw [if_pos trivial]
        obtain ⟨h1, h2⟩ := contEnd_drop (d := d + 1) hi' fun j hj hc =>
          hs j hj ⟨hc.1, by have := hc.2; omega⟩
        rw [h1]
        refine ⟨?_, by omega⟩
        congr 1
        omega
      · have hl' : ((b == left) && !ins') = false := by simpa using hl
        rw [hl'] at hs ⊢
        simp only [Bool.toNat_false, Nat.zero_add] at hs ⊢
        rw [if_neg (by simp)]
        exact contEnd_drop hi' fun j hj hc => hs j hj ⟨hc.1, by have := hc.2; omega⟩

theorem contEnd_close {s : Bytes} {ins esc : Bool} {d i : ℕ} (hi : i < s.length)
    (h : ∀ j < i, ¬ ClosesAt (bracketAt left s ins esc) (bracketAt right s ins esc) d 0 j)
    (hc : ClosesAt (bracketAt left s ins esc) (bracketAt right s ins esc) d 0 i) :
    contEnd left right ins esc d s = some (s.drop (i + 1)) := by
  obtain ⟨h1, h2⟩ := contEnd_drop hlr (Nat.le_of_lt hi) h
  obtain ⟨hr, hlt⟩ := hc
  rw [h1, (at_cons_rd hi).drop, contEnd]
  have hr' :
    ((rd s i == right) && !(insIn s ins esc i ^^ ((rd s i == Ch.quote) && !escIn s esc i))) =
    true := hr
  rw [if_pos hr', if_pos (by omega)]

end

/-! ### One block -/

/-- What is passed on of being inside a string: all ones or none. -/
def allFlag (b : Bool) : BitVec 64 := if b then BitVec.allOnes 64 else 0#64

theorem getLsbD_allFlag (b : Bool) {i : ℕ} (hi : i < 64) : (allFlag b).getLsbD i = b := by
  cases b
  · simp [allFlag]
  · rw [allFlag, if_pos rfl, BitVec.getLsbD_allOnes, decide_eq_true hi]

section
variable {data s : Bytes} {p : ℕ} (ins esc : Bool)

theorem GetStringBits_esc (hbyte : ∀ i < 64, rd data (p + i) = rd s i) (x : BitVec 64) :
    (GetStringBits data p x (flag esc)).2.2 = flag (escIn s esc 64) := by
  have hbs : ∀ i < 64, (to_bitmask 64 data p (· == Ch.bslash)).getLsbD i = (rd s i == Ch.bslash) :=
      fun i hi => by
    rw [getLsbD_to_bitmask le_rfl, hbyte i hi]
    simp [hi]
  rw [GetStringBits]
  set bs := to_bitmask 64 data p (· == Ch.bslash) with hbsdef
  by_cases hz : bs = 0
  · -- no backslash in the block
    rw [if_neg (by simpa using hz)]
    have : escIn s esc 64 = false := by
      have h63 := (Bits.eq_zero_iff bs).mp hz 63 (by omega)
      rw [hbs 63 (by omega)] at h63
      rw [escIn, escAt, h63]
      rfl
    rw [this]
    rfl
  · rw [if_pos (by simpa using hz)]
    have h1 : escAt bs.getLsbD esc 64 = escIn s esc 64 := escAt_congr hbs
    rw [← h1]
    exact @GetEscaped_next 63 (by omega) esc bs

theorem getLsbD_GetStringBits (hbyte : ∀ i < 64, rd data (p + i) = rd s i) : ∀ i < 64,
    (GetStringBits data p (allFlag ins) (flag esc)).1.getLsbD i = insIn s ins esc (i + 1) := by
  have hbs : ∀ i < 64, (to_bitmask 64 data p (· == Ch.bslash)).getLsbD i = (rd s i == Ch.bslash) :=
      fun i hi => by
    rw [getLsbD_to_bitmask le_rfl, hbyte i hi]
    simp [hi]
  have hq : ∀ i < 64, (to_bitmask 64 data p (· == Ch.quote)).getLsbD i = (rd s i == Ch.quote) :=
      fun i hi => by
    rw [getLsbD_to_bitmask le_rfl, hbyte i hi]
    simp [hi]
  set bs := to_bitmask 64 data p (· == Ch.bslash) with hbsdef
  set q := to_bitmask 64 data p (· == Ch.quote) with hqdef
  have hesc : ∀ i < 64, (if bs ≠ 0 then GetEscaped 64 (flag esc) bs else (flag esc, 0)).1.getLsbD
      i = escIn s esc i := by
    intro i hi
    by_cases hz : bs = 0
    · rw [if_neg (by simpa using hz), getLsbD_flag]
      cases i with
      | zero => simp [escIn, escAt]
      | succ i =>
        have hi' := (Bits.eq_zero_iff bs).mp hz i (by omega)
        rw [hbs i (by omega)] at hi'
        rw [escIn, escAt, hi']
        simp
    · rw [if_pos (by simpa using hz), getLsbD_GetEscaped esc bs hi]
      exact escAt_congr fun j hj => hbs j (by omega)
  rcases hsplit : (if bs ≠ 0 then GetEscaped 64 (flag esc) bs else (flag esc, 0)) with ⟨escaped, e'⟩
  rw [hsplit] at hesc
  have hbits : (GetStringBits data p (allFlag ins) (flag esc)).1 =
      Bits.prefixXor (q &&& ~~~escaped) ^^^ allFlag ins := by
    rw [GetStringBits, ← hbsdef, ← hqdef, hsplit]
  have hreal : ∀ i < 64, (q &&& ~~~escaped).getLsbD i = ((rd s i == Ch.quote) && !escIn s esc i) :=
      fun i hi => by
    rw [BitVec.getLsbD_and, BitVec.getLsbD_not, hesc i hi, hq i hi]
    simp [hi]
  intro i hi
  rw [hbits, BitVec.getLsbD_xor, getLsbD_allFlag ins hi]
  induction i with
  | zero =>
    rw [Bits.getLsbD_prefixXor_zero _ (by omega), hreal 0 hi, Bool.xor_comm]
    rfl
  | succ i ih =>
    rw [Bits.getLsbD_prefixXor_succ _ hi, hreal (i + 1) hi, insIn, ← ih (by omega)]
    cases (Bits.prefixXor (q &&& ~~~escaped)).getLsbD i <;> cases ins <;>
      cases ((rd s (i + 1) == Ch.quote) && !escIn s esc (i + 1)) <;> rfl

theorem GetStringBits_ins (hbyte : ∀ i < 64, rd data (p + i) = rd s i) :
    (GetStringBits data p (allFlag ins) (flag esc)).2.1 = allFlag (insIn s ins esc 64) := by
  have h63 := getLsbD_GetStringBits ins esc hbyte 63 (by omega)
  have hdef : (GetStringBits data p (allFlag ins) (flag esc)).2.1 =
      (GetStringBits data p (allFlag ins) (flag esc)).1.sshiftRight 63 := rfl
  rw [hdef, ← h63]
  apply BitVec.eq_of_getLsbD_eq
  intro i hi
  rw [BitVec.getLsbD_sshiftRight, getLsbD_allFlag _ hi, BitVec.msb_eq_getLsbD_last]
  rcases Nat.eq_zero_or_pos i with rfl | hpos
  · simp
  · simp [show ¬ 63 + i < 64 by omega, hi]

end

/-- The next closing bracket of a block in which those before `k` have been looked at. -/
theorem closeLoop_bit {L R : ℕ → Bool} {lbrace rbrace : BitVec 64} {k : ℕ}
    (hL : ∀ i < 64, lbrace.getLsbD i = L i) (hd : ∀ i < 64, R i = true → L i = false)
    (hR : ∀ i < 64, rbrace.getLsbD i = (R i && decide (k ≤ i))) (hz : rbrace ≠ 0) :
    Bits.ctz rbrace < 64 ∧ k ≤ Bits.ctz rbrace ∧ R (Bits.ctz rbrace) = true ∧
      (∀ j, k ≤ j → j < Bits.ctz rbrace → R j = false) ∧
      Bits.popCount ((rbrace - 1#64) &&& lbrace) = Bits.count L (Bits.ctz rbrace) ∧
      ∀ i < 64, (rbrace &&& (rbrace - 1#64)).getLsbD i = (R i && decide (Bits.ctz rbrace + 1 ≤ i)) := by
  have hc64 := Bits.ctz_lt hz
  have hcb := Bits.getLsbD_ctz hz
  rw [hR _ hc64, Bool.and_eq_true, decide_eq_true_eq] at hcb
  obtain ⟨hRc, hkc⟩ := hcb
  refine ⟨hc64, hkc, hRc, fun j hj hjc => ?_, ?_, fun i hi => ?_⟩
  · have := Bits.getLsbD_of_lt_ctz rbrace hjc
    rw [hR j (by omega)] at this
    simpa [hj] using this
  · rw [Bits.popCount, Bits.count_congr fun i hi => ?_]
    · exact Bits.count_and_lt L (Nat.le_of_lt hc64)
    · rw [Bits.getLsbD_sub_one_and rbrace lbrace, hL i hi]
      intro j hj hb
      rw [hR j hj, Bool.and_eq_true] at hb
      rw [hL j hj, hd j hj hb.1]
  · rw [Bits.getLsbD_and_sub_one, hR i hi]
    by_cases hri : R i = true
    · simp only [hri, Bool.true_and]
      by_cases hki : k ≤ i
      · simp only [hki, decide_true, Bool.true_and]
        exact decide_eq_decide.mpr (by omega)
      · simp [hki, show ¬ Bits.ctz rbrace + 1 ≤ i by omega]
    · simp [hri]

/-- The loop over the closing brackets comes to the first one that closes the container. -/
theorem closeLoop_spec {L R : ℕ → Bool} {lbrace : BitVec 64} {l r : ℕ}
    (hL : ∀ i < 64, lbrace.getLsbD i = L i) (hd : ∀ i < 64, R i = true → L i = false) :
    ∀ (fuel k : ℕ) (rbrace : BitVec 64), k ≤ 64 → 64 < k + fuel →
    (∀ i < 64, rbrace.getLsbD i = (R i && decide (k ≤ i))) →
    (∃ i < 64, k ≤ i ∧ ClosesAt L R l r i ∧ (∀ j, k ≤ j → j < i → ¬ ClosesAt L R l r j) ∧
      (closeLoop lbrace l fuel rbrace (r + Bits.count R k)).1 = some (i + 1)) ∨
    (∀ j, k ≤ j → j < 64 → ¬ ClosesAt L R l r j) ∧
      closeLoop lbrace l fuel rbrace (r + Bits.count R k) = (none, r + Bits.count R 64)
  | 0, k, _, hk, hf, _ => by omega
  | fuel + 1, k, rbrace, hk, hf, hR => by
    rw [closeLoop]
    by_cases hz : rbrace = 0
    · right
      have hnone : ∀ j, k ≤ j → j < 64 → R j = false := fun j hj hj64 => by
        have := (Bits.eq_zero_iff rbrace).mp hz j hj64
        rw [hR j hj64] at this
        simpa [hj] using this
      refine ⟨fun j hj hj64 hc => ?_, ?_⟩
      · rw [ClosesAt, hnone j hj hj64] at hc
        exact absurd hc.1 (by decide)
      · rw [if_neg (by simpa using hz), Bits.count_of_none hk hnone]
    rw [if_pos (by simpa using hz)]
    obtain ⟨hc64, hkc, hRc, hbelow, hpop, hR'⟩ := closeLoop_bit hL hd hR hz
    have hcount : Bits.count R (Bits.ctz rbrace) = Bits.count R k := Bits.count_of_none hkc hbelow
    have hno : ∀ j, k ≤ j → j < Bits.ctz rbrace → ¬ ClosesAt L R l r j := fun j hj hjc hcl => by
      rw [ClosesAt, hbelow j hj hjc] at hcl
      exact absurd hcl.1 (by decide)
    simp only [hpop]
    by_cases hcl : l + Bits.count L (Bits.ctz rbrace) < r + Bits.count R k + 1
    · left
      rw [if_pos hcl]
      exact ⟨_, hc64, hkc, ⟨hRc, by rw [hcount]; exact hcl⟩, hno, rfl⟩
    · rw [if_neg hcl]
      have hnoc : ¬ ClosesAt L R l r (Bits.ctz rbrace) :=
        fun h => hcl (by have := h.2; rwa [hcount] at this)
      have hnext : r + Bits.count R k + 1 = r + Bits.count R (Bits.ctz rbrace + 1) := by
        rw [Bits.count, hRc, hcount]
        rfl
      rw [hnext]
      have hno' : ∀ j, k ≤ j → j < Bits.ctz rbrace + 1 → ¬ ClosesAt L R l r j := fun j hj hjc => by
        rcases Nat.lt_or_eq_of_le (Nat.le_of_lt_succ hjc) with h | rfl
        · exact hno j hj h
        · exact hnoc
      rcases closeLoop_spec hL hd fuel (Bits.ctz rbrace + 1) _ hc64 (by omega) hR' with
        ⟨i, hi, hki, h1, h2, h3⟩ | ⟨h1, h2⟩
      · refine .inl ⟨i, hi, by omega, h1, fun j hj hji => ?_, h3⟩
        rcases lt_or_ge j (Bits.ctz rbrace + 1) with h | h
        · exact hno' j hj h
        · exact h2 j h hji
      · refine .inr ⟨fun j hj hj64 => ?_, h2⟩
        rcases lt_or_ge j (Bits.ctz rbrace + 1) with h | h
        · exact hno' j hj h
        · exact h1 j h hj64

/-- One block: the container closes in it, or everything is passed on. -/
theorem SKIP_LOOP_spec {data s : Bytes} {p : ℕ} {left right : UInt8} (hlr : left ≠ right)
    (ins esc : Bool) {l r : ℕ} (hbyte : ∀ i < 64, rd data (p + i) = rd s i) :
    (∃ i < 64, ClosesAt (bracketAt left s ins esc) (bracketAt right s ins esc) l r i ∧
      (∀ j < i, ¬ ClosesAt (bracketAt left s ins esc) (bracketAt right s ins esc) l r j) ∧
      (SKIP_LOOP data p left right ⟨allFlag ins, flag esc, r, l⟩).1 = some (i + 1)) ∨
    (∀ j < 64, ¬ ClosesAt (bracketAt left s ins esc) (bracketAt right s ins esc) l r j) ∧
      SKIP_LOOP data p left right ⟨allFlag ins, flag esc, r, l⟩ =
        (none, ⟨allFlag (insIn s ins esc 64), flag (escIn s esc 64),
          r + Bits.count (bracketAt right s ins esc) 64,
          l + Bits.count (bracketAt left s ins esc) 64⟩) := by
  have h1 := getLsbD_GetStringBits ins esc hbyte
  have h2 := GetStringBits_ins ins esc hbyte
  have h3 := GetStringBits_esc esc hbyte (allFlag ins)
  have hbr : ∀ c, ∀ i < 64, (to_bitmask 64 data p (· == c) &&&
      ~~~(GetStringBits data p (allFlag ins) (flag esc)).1).getLsbD i = bracketAt c s ins esc i :=
        fun c i hi => by
    rw [BitVec.getLsbD_and, BitVec.getLsbD_not, h1 i hi, getLsbD_to_bitmask le_rfl, hbyte i hi,
      bracketAt]
    simp [hi]
  have hd : ∀ i < 64, bracketAt right s ins esc i = true → bracketAt left s ins esc i = false :=
      fun i _ hi => by
    rw [bracketAt, Bool.and_eq_true, beq_iff_eq] at hi
    rw [bracketAt, hi.1, Bool.and_eq_false_iff]
    exact .inl (by simpa using Ne.symm hlr)
  have hpop : Bits.popCount (to_bitmask 64 data p (· == left) &&&
      ~~~(GetStringBits data p (allFlag ins) (flag esc)).1) =
        Bits.count (bracketAt left s ins esc) 64 :=
    Bits.count_congr (hbr left)
  have hloop := closeLoop_spec (l := l) (r := r) (hbr left) hd 65 0 _ (Nat.zero_le _) (by omega)
      fun i hi => by
    rw [hbr right i hi]
    simp
  rw [SKIP_LOOP]
  simp only [h2, h3, hpop]
  rcases hloop with ⟨i, hi, -, hc, hno, hres⟩ | ⟨hno, hres⟩
  · exact .inl ⟨i, hi, hc, fun j hj => hno j (Nat.zero_le j) hj, hres⟩
  · refine .inr ⟨fun j hj => hno j (Nat.zero_le j) hj, ?_⟩
    simp only [Bits.count, Nat.add_zero] at hres
    rw [hres]
    rfl

/-! ### The whole container -/

theorem Left.slice_eq {data s : Bytes} {len p : ℕ} (h : Left data len p s) : slice data p len = s := by
  rw [slice, ← List.drop_take, h.at'.drop]

theorem rd_replicate (n i : ℕ) : rd (List.replicate n 0) i = 0 := by
  rw [rd, List.getD_eq_getElem?_getD, List.getElem?_replicate]
  split <;> rfl

theorem rd_append_zeros (s : Bytes) (n i : ℕ) : rd (s ++ List.replicate n 0) i = rd s i := by
  rcases lt_or_ge i s.length with h | h
  · exact rd_append_left h
  · obtain ⟨k, rfl⟩ := Nat.exists_eq_add_of_le h
    rw [rd_append_right, rd_replicate, rd_of_length_le (by omega)]

/-- What `SkipContainer` returns: whether the container closes, and the position after its bracket. -/
def SkipsContainer (len : ℕ) (r : Bool × ℕ) : Option Bytes → Prop
  | none => r.1 = false
  | some t => r = (true, len - t.length)

section
variable {data : Bytes} {len : ℕ} {left right : UInt8} (hlr : left ≠ right) (hr0 : right ≠ 0)
include hlr hr0

omit hlr in
theorem ClosesAt.lt_length {s : Bytes} {ins esc : Bool} {l r i : ℕ}
    (h : ClosesAt (bracketAt left s ins esc) (bracketAt right s ins esc) l r i) : i < s.length := by
  by_contra hc
  have := h.1
  rw [bracketAt, rd_of_length_le (not_lt.mp hc), Bool.and_eq_true, beq_iff_eq] at this
  exact hr0 this.1.symm

theorem skipContainerBlocks_spec :
    ∀ (fuel pos : ℕ) (s : Bytes) (ins esc : Bool) (l r : ℕ), Left data len pos s →
    r ≤ l → s.length < 64 * fuel →
    SkipsContainer len (skipContainerBlocks data len left right fuel ⟨allFlag ins, flag esc, r, l⟩ pos)
      (contEnd left right ins esc (l - r) s)
  | 0, _, _, _, _, _, _, _, _, hf => by omega
  | fuel + 1, pos, s, ins, esc, l, r, h, hrl, hf => by
    have hl := h.length_add
    have hiff : ∀ j, ClosesAt (bracketAt left s ins esc) (bracketAt right s ins esc) l r j ↔
        ClosesAt (bracketAt left s ins esc) (bracketAt right s ins esc) (l - r) 0 j := fun j =>
      and_congr_right fun _ => by omega
    -- a block in which the container closes
    have hclose : ∀ {i : ℕ}, ClosesAt (bracketAt left s ins esc) (bracketAt right s ins esc) l r i →
        (∀ j < i, ¬ ClosesAt (bracketAt left s ins esc) (bracketAt right s ins esc) l r j) →
        SkipsContainer len (true, pos + (i + 1)) (contEnd left right ins esc (l - r) s) := by
      intro i hc hno
      have hi := ClosesAt.lt_length hr0 hc
      rw [contEnd_close hlr hi (fun j hj => by rw [← hiff]; exact hno j hj) ((hiff i).mp hc),
        SkipsContainer, List.length_drop]
      congr 1
      omega
    rw [skipContainerBlocks]
    by_cases hb : pos + 64 ≤ len
    · rw [if_pos hb]
      have hbyte : ∀ i < 64, rd data (pos + i) = rd s i := fun i hi => h.rd_add (by omega)
      rcases SKIP_LOOP_spec (l := l) (r := r) hlr ins esc hbyte
        with ⟨i, hi, hc, hno, hres⟩ | ⟨hno, hres⟩
      · rcases hst : SKIP_LOOP data pos left right ⟨allFlag ins, flag esc, r, l⟩ with ⟨o, st⟩
        rw [hst] at hres
        simp only at hres
        subst hres
        exact hclose hc hno
      · obtain ⟨h1, h2⟩ := contEnd_drop hlr (d := l - r) (show 64 ≤ s.length by omega)
          fun j hj => by rw [← hiff]; exact hno j hj
        rw [hres, h1]
        have := skipContainerBlocks_spec fuel (pos + 64) (s.drop 64) (insIn s ins esc 64)
          (escIn s esc 64)
          (l + Bits.count (bracketAt left s ins esc) 64) (r + Bits.count (bracketAt right s ins esc) 64)
          (h.drop (by omega)) (by omega) (by simp; omega)
        have he : l + Bits.count (bracketAt left s ins esc) 64 -
            (r + Bits.count (bracketAt right s ins esc) 64) =
          l - r + Bits.count (bracketAt left s ins esc) 64 - Bits.count (bracketAt right s ins esc)
            64 := by omega
        rwa [he] at this
    · rw [if_neg hb, h.slice_eq]
      have hbyte : ∀ i < 64, rd (s ++ List.replicate (64 - (len - pos)) 0) (0 + i) = rd s i :=
          fun i _ => by
        rw [Nat.zero_add, rd_append_zeros]
      dsimp only
      rcases SKIP_LOOP_spec (l := l) (r := r) hlr ins esc hbyte
        with ⟨i, hi, hc, hno, hres⟩ | ⟨hno, hres⟩
      · rcases hst : SKIP_LOOP (s ++ List.replicate (64 - (len - pos)) 0) 0 left right
          ⟨allFlag ins, flag esc, r, l⟩ with ⟨o, st⟩
        rw [hst] at hres
        simp only at hres
        subst hres
        exact hclose hc hno
      · obtain ⟨h1, -⟩ := contEnd_drop hlr (d := l - r) (le_refl s.length)
          fun j hj => by rw [← hiff]; exact hno j (by omega)
        rw [hres, h1, List.drop_length, contEnd]
        rfl

/-- **The end of a container** is where the byte automaton finds it. -/
theorem SkipContainer_spec {pos : ℕ} {s : Bytes} (h : Left data len pos s) :
    SkipsContainer len (SkipContainer data pos len left right) (contEnd left right false false 0 s) :=
  skipContainerBlocks_spec hlr hr0 (len + 1) pos s false false 0 0 h le_rfl
    (by have := h.length_add; omega)

end

end SonicJson
