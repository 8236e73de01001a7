/-
# The end of a container, byte by byte

`SkipContainer` against an automaton that reads one byte at a time: its state is
whether the next byte is escaped, whether it is inside a string, and the depth, one
at the beginning. The container ends with the byte that takes the depth to zero
(`SkipContainer_automaton`). The counters of the blocks are `int`s and an assertion
stands where the container is closed: both hold in every run (`skipContainerAsserts`).
-/
import SonicJson.SkipContainer

namespace SonicJson

open Cursor

/-- What the automaton remembers. -/
structure ContAut where
  esc : Bool
  ins : Bool
  depth : ℕ

namespace ContAut

variable (left right : UInt8)

def start : ContAut := ⟨false, false, 1⟩

/-- One byte: brackets count outside strings, and the byte behind a backslash is escaped unless the
backslash is. -/
def step (a : ContAut) (b : UInt8) : ContAut :=
  let ins := a.ins ^^ ((b == Ch.quote) && !a.esc)
  { esc := (b == Ch.bslash) && !a.esc
    ins := ins
    depth :=
      if (b == right) && !ins then a.depth - 1
      else if (b == left) && !ins then a.depth + 1
      else a.depth }

/-- The state after the first `k` bytes of `s`. -/
def after (a : ContAut) (s : Bytes) (k : ℕ) : ContAut := (s.take k).foldl (step left right) a

/-- The depth is zero after `k` bytes, for the first time. -/
def ClosedAfter (a : ContAut) (s : Bytes) (k : ℕ) : Prop :=
  (after left right a s k).depth = 0 ∧ ∀ j < k, (after left right a s j).depth ≠ 0

end ContAut

/-! ### What is asserted on the way -/

/-- The values of an `int` that are not negative. -/
def isInt (n : ℕ) : Bool := decide (n < 2 ^ 31)

/-- `while (rbrace > 0)`: the counters do not overflow, and `sonic_assert(rbrace_num == lbrace_num +
1)`. -/
def closeLoopAsserts (lbrace : BitVec 64) (last_lbrace_num : ℕ) : ℕ → BitVec 64 → ℕ → Bool
  | 0, _, _ => true
  | fuel + 1, rbrace, rbrace_num =>
    if rbrace ≠ 0 then
      let rbrace_num := rbrace_num + 1
      let lbrace_num := last_lbrace_num + Bits.popCount ((rbrace - 1#64) &&& lbrace)
      isInt rbrace_num && isInt lbrace_num &&
        if lbrace_num < rbrace_num then rbrace_num == lbrace_num + 1
        else closeLoopAsserts lbrace last_lbrace_num fuel (rbrace &&& (rbrace - 1#64)) rbrace_num
    else true

def skipLoopAsserts (data : Bytes) (p : ℕ) (left right : UInt8) (st : ContState) : Bool :=
  let (instring, _, _) := GetStringBits data p st.prev_instring st.prev_escaped
  let rbrace := to_bitmask 64 data p (· == right) &&& ~~~instring
  let lbrace := to_bitmask 64 data p (· == left) &&& ~~~instring
  closeLoopAsserts lbrace st.lbrace_num 65 rbrace st.rbrace_num &&
    isInt (st.lbrace_num + Bits.popCount lbrace)

def skipContainerBlocksAsserts (data : Bytes) (len : ℕ) (left right : UInt8) : ℕ → ContState → ℕ → Bool
  | 0, _, _ => true
  | fuel + 1, st, pos =>
    if pos + 64 ≤ len then
      skipLoopAsserts data pos left right st &&
        match SKIP_LOOP data pos left right st with
        | (some _, _) => true
        | (none, st) => skipContainerBlocksAsserts data len left right fuel st (pos + 64)
    else skipLoopAsserts (slice data pos len ++ List.replicate (64 - (len - pos)) 0) 0 left right st

/-- Everything that is asserted in a call of `SkipContainer`. -/
def skipContainerAsserts (data : Bytes) (pos len : ℕ) (left right : UInt8) : Bool :=
  skipContainerBlocksAsserts data len left right (len + 1) ⟨0, 0, 0, 0⟩ pos

/-! ### The automaton -/

namespace ContAut

variable {left right : UInt8} {a : ContAut} {b : UInt8} {s : Bytes}

theorem after_zero : after left right a s 0 = a := rfl

theorem closedAfter_cons {k : ℕ} (h0 : a.depth ≠ 0) :
    ClosedAfter left right a (b :: s) (k + 1) ↔ ClosedAfter left right (step left right a b) s k := by
  unfold ClosedAfter
  refine and_congr Iff.rfl ⟨fun h j hj => h (j + 1) (by omega), fun h j hj => ?_⟩
  cases j with
  | zero => exact h0
  | succ j => exact h j (by omega)

/-- Where `contEnd` ends the container. -/
theorem contEnd_automaton : ∀ (s : Bytes) (a : ContAut) (d : ℕ), a.depth = d + 1 →
    match contEnd left right a.ins a.esc d s with
    | some t => ∃ k ≤ s.length, t = s.drop k ∧ ClosedAfter left right a s k
    | none => ∀ k ≤ s.length, (after left right a s k).depth ≠ 0
  | [], a, d, hd => by
    intro k hk
    obtain rfl : k = 0 := by simpa using hk
    rw [after_zero, hd]
    omega
  | b :: s, a, d, hd => by
    have h0 : a.depth ≠ 0 := by omega
    -- from the state behind `b`, in which brackets are still open
    have more : ∀ d', (step left right a b).depth = d' + 1 →
        match contEnd left right (a.ins ^^ ((b == Ch.quote) && !a.esc)) ((b == Ch.bslash) && !a.esc)
          d' s with
        | some t => ∃ k ≤ (b :: s).length, t = (b :: s).drop k ∧ ClosedAfter left right a (b :: s) k
        | none => ∀ k ≤ (b :: s).length, (after left right a (b :: s) k).depth ≠ 0 := by
      intro d' hd'
      have ih := contEnd_automaton s (step left right a b) d' hd'
      change match contEnd left right (a.ins ^^ ((b == Ch.quote) && !a.esc))
        ((b == Ch.bslash) && !a.esc) d' s with
        | some t => ∃ k ≤ s.length, t = s.drop k ∧ ClosedAfter left right (step left right a b) s k
        | none => ∀ k ≤ s.length, (after left right (step left right a b) s k).depth ≠ 0 at ih
      split at ih
      · obtain ⟨k, hk, ht, hc⟩ := ih
        exact ⟨k + 1, by simpa using hk, ht, (closedAfter_cons h0).mpr hc⟩
      · intro k hk
        cases k with
        | zero => exact h0
        | succ k => exact ih k (by simpa using hk)
    have hdepth : (step left right a b).depth =
        if (b == right) && !(a.ins ^^ ((b == Ch.quote) && !a.esc)) then a.depth - 1
        else if (b == left) && !(a.ins ^^ ((b == Ch.quote) && !a.esc)) then a.depth + 1
          else a.depth := rfl
    rw [contEnd]
    by_cases hr : ((b == right) && !(a.ins ^^ ((b == Ch.quote) && !a.esc))) = true
    · rw [if_pos hr] at hdepth ⊢
      by_cases hz : d = 0
      · rw [if_pos hz]
        refine ⟨1, by simp, rfl,
          (closedAfter_cons h0).mpr ⟨?_, fun j hj => absurd hj (Nat.not_lt_zero j)⟩⟩
        rw [after_zero]
        omega
      · rw [if_neg hz]
        exact more (d - 1) (by omega)
    · rw [if_neg hr] at hdepth ⊢
      by_cases hl : ((b == left) && !(a.ins ^^ ((b == Ch.quote) && !a.esc))) = true
      · rw [if_pos hl] at hdepth ⊢
        exact more (d + 1) (by omega)
      · rw [if_neg hl] at hdepth ⊢
        exact more d (by omega)

end ContAut

/-! ### The assertions hold -/

/-- The counters before the bit `k` of a block are in order, and what the block adds fits an `int`. -/
theorem closeLoopAsserts_true {L R : ℕ → Bool} {lbrace : BitVec 64} {l r : ℕ}
    (hL : ∀ i < 64, lbrace.getLsbD i = L i) (hd : ∀ i < 64, R i = true → L i = false)
    (hr : r + Bits.count R 64 < 2 ^ 31) (hl : l + Bits.count L 64 < 2 ^ 31) :
    ∀ (fuel k : ℕ) (rbrace : BitVec 64), (∀ i < 64, rbrace.getLsbD i = (R i && decide (k ≤ i))) →
      r + Bits.count R k ≤ l + Bits.count L k →
        closeLoopAsserts lbrace l fuel rbrace (r + Bits.count R k) = true
  | 0, _, _, _, _ => rfl
  | fuel + 1, k, rbrace, hR, hle => by
    rw [closeLoopAsserts]
    by_cases hz : rbrace = 0
    · rw [if_neg (by simpa using hz)]
    rw [if_pos (by simpa using hz)]
    obtain ⟨hc64, hkc, hRc, hbelow, hpop, hR'⟩ := closeLoop_bit hL hd hR hz
    have hcount : Bits.count R (Bits.ctz rbrace) = Bits.count R k := Bits.count_of_none hkc hbelow
    have hnext : r + Bits.count R k + 1 = r + Bits.count R (Bits.ctz rbrace + 1) := by
      rw [Bits.count, hRc, hcount]
      rfl
    have h1 := Bits.count_mono R (show Bits.ctz rbrace + 1 ≤ 64 from hc64)
    have h2 := Bits.count_mono L (Nat.le_of_lt hc64)
    have h3 := Bits.count_mono L hkc
    have h4 := Bits.count_mono L (show Bits.ctz rbrace ≤ Bits.ctz rbrace + 1 by omega)
    dsimp only
    rw [hpop, isInt, isInt, decide_eq_true (by omega), decide_eq_true (by omega), Bool.true_and,
      Bool.true_and]
    split
    · rw [beq_iff_eq]
      omega
    · rw [hnext]
      exact closeLoopAsserts_true hL hd hr hl fuel _ _ hR' (by omega)

section
variable {data s : Bytes} {len : ℕ} {left right : UInt8}

/-- The brackets of a block are bytes of the text. -/
theorem count_bracketAt_le {c : UInt8} (hc : c ≠ 0) (s : Bytes) (ins esc : Bool) :
    ∀ k, Bits.count (bracketAt c s ins esc) k ≤ s.length
  | 0 => Nat.zero_le _
  | k + 1 => by
    rcases lt_or_ge k s.length with h | h
    · exact (Bits.count_le _ (k + 1)).trans h
    · have hk : bracketAt c s ins esc k = false := by
        rw [bracketAt, rd_of_length_le h, Bool.and_eq_false_iff, beq_eq_false_iff_ne]
        exact .inl (Ne.symm hc)
      rw [Bits.count, hk]
      exact count_bracketAt_le hc s ins esc k

theorem skipLoopAsserts_true {p l r : ℕ} (hlr : left ≠ right) (ins esc : Bool)
    (hbyte : ∀ i < 64, rd data (p + i) = rd s i) (hrl : r ≤ l)
    (hr : r + Bits.count (bracketAt right s ins esc) 64 < 2 ^ 31)
    (hl : l + Bits.count (bracketAt left s ins esc) 64 < 2 ^ 31) :
    skipLoopAsserts data p left right ⟨allFlag ins, flag esc, r, l⟩ = true := by
  have h1 := getLsbD_GetStringBits ins esc hbyte
  have hbr : ∀ c, ∀ i < 64, (to_bitmask 64 data p (· == c) &&&
      ~~~(GetStringBits data p (allFlag ins) (flag esc)).1).getLsbD i = bracketAt c s ins esc i :=
        fun c i hi => by
    rw [BitVec.getLsbD_and, BitVec.getLsbD_not, h1 i hi, getLsbD_to_bitmask le_rfl, hbyte i hi,
      bracketAt]
    simp [hi]
  have hd : ∀ i < 64, bracketAt right s ins esc i = true → bracketAt left s ins esc i = false :=
      fun i _ hi => by
    rw [bracketAt, Bool.and_eq_true, beq_iff_eq] at hi
    rw [bracketAt, hi.1, Bool.and_eq_false_iff]
    exact .inl (by simpa using Ne.symm hlr)
  have hpop : Bits.popCount (to_bitmask 64 data p (· == left) &&&
      ~~~(GetStringBits data p (allFlag ins) (flag esc)).1) =
        Bits.count (bracketAt left s ins esc) 64 :=
    Bits.count_congr (hbr left)
  rw [skipLoopAsserts]
  dsimp only
  rw [hpop, Bool.and_eq_true]
  refine ⟨?_, decide_eq_true hl⟩
  exact closeLoopAsserts_true (hbr left) hd hr hl 65 0 _ (fun i hi => by rw [hbr right i hi]; simp) hrl

theorem skipContainerBlocksAsserts_true (hlr : left ≠ right) (hl0 : left ≠ 0) (hr0 : right ≠ 0)
    (hlen : len < 2 ^ 31) :
    ∀ (fuel pos : ℕ) (s : Bytes) (ins esc : Bool) (l r : ℕ), Left data len pos s → r ≤ l →
      l + s.length ≤ len →
      skipContainerBlocksAsserts data len left right fuel ⟨allFlag ins, flag esc, r, l⟩ pos = true
  | 0, _, _, _, _, _, _, _, _, _ => rfl
  | fuel + 1, pos, s, ins, esc, l, r, h, hrl, hls => by
    have hl := h.length_add
    have h1 := count_bracketAt_le hl0 s ins esc 64
    have h2 := count_bracketAt_le hr0 s ins esc 64
    rw [skipContainerBlocksAsserts]
    by_cases hb : pos + 64 ≤ len
    · rw [if_pos hb]
      have hbyte : ∀ i < 64, rd data (pos + i) = rd s i := fun i hi => h.rd_add (by omega)
      rw [skipLoopAsserts_true hlr ins esc hbyte hrl (by omega) (by omega), Bool.true_and]
      rcases SKIP_LOOP_spec (l := l) (r := r) hlr ins esc hbyte
        with ⟨i, hi, hc, hno, hres⟩ | ⟨hno, hres⟩
      · rcases hst : SKIP_LOOP data pos left right ⟨allFlag ins, flag esc, r, l⟩ with ⟨o, st⟩
        rw [hst] at hres
        simp only at hres
        subst hres
        rfl
      · obtain ⟨-, h4⟩ := contEnd_drop hlr (d := l - r) (show 64 ≤ s.length by omega) fun j hj hc =>
          hno j hj ⟨hc.1, by have := hc.2; omega⟩
        have h3 := Bits.count_le (bracketAt left s ins esc) 64
        rw [hres]
        exact skipContainerBlocksAsserts_true hlr hl0 hr0 hlen fuel (pos + 64) (s.drop 64) _ _ _ _
          (h.drop (by omega)) (by omega)
          (by simp; omega)
    · rw [if_neg hb, h.slice_eq]
      refine skipLoopAsserts_true (s := s) hlr ins esc (fun i _ => ?_) hrl (by omega) (by omega)
      rw [Nat.zero_add, rd_append_zeros]

end

/-! ### The two together -/

/-- **Skipping a container by blocks** is the automaton, and nothing that is asserted fails. -/
theorem SkipContainer_automaton {data : Bytes} {pos len : ℕ} {left right : UInt8}
    (hlen : len < 2 ^ 31) (hdata : len ≤ data.length) (hpos : pos ≤ len)
    (hbr : left = Ch.lbrack ∧ right = Ch.rbrack ∨ left = Ch.lbrace ∧ right = Ch.rbrace) :
    (∀ p, SkipContainer data pos len left right = (true, p) ↔
      ∃ k ≤ len - pos, p = pos + k ∧ ContAut.ClosedAfter left right .start (slice data pos len) k) ∧
    ((SkipContainer data pos len left right).1 = false ↔
      ∀ k ≤ len - pos, (ContAut.after left right .start (slice data pos len) k).depth ≠ 0) ∧
    skipContainerAsserts data pos len left right = true := by
  obtain ⟨hlr, hl0, hr0⟩ : left ≠ right ∧ left ≠ 0 ∧ right ≠ 0 := by
    rcases hbr with ⟨rfl, rfl⟩ | ⟨rfl, rfl⟩
    · decide
    · decide
  have hs := left_slice hdata hpos
  have hsl : (slice data pos len).length = len - pos := by
    have := hs.length_add
    omega
  have hspec := SkipContainer_spec hlr hr0 hs
  have haut := @ContAut.contEnd_automaton left right (slice data pos len) .start 0 rfl
  change match contEnd left right false false 0 (slice data pos len) with
    | some t => _
    | none => _ at haut
  rw [hsl] at haut
  -- the first time that the depth is zero
  have unique : ∀ {k k'}, ContAut.ClosedAfter left right .start (slice data pos len) k →
      ContAut.ClosedAfter left right .start (slice data pos len) k' → k = k' := by
    intro k k' h h'
    rcases lt_trichotomy k k' with hlt | heq | hlt
    · exact absurd h.1 (h'.2 k hlt)
    · exact heq
    · exact absurd h'.1 (h.2 k' hlt)
  have hchecks := skipContainerBlocksAsserts_true hlr hl0 hr0 hlen (len + 1) pos _ false false 0 0
    hs le_rfl (by omega)
  cases hc : contEnd left right false false 0 (slice data pos len) with
  | none =>
    rw [hc] at hspec haut
    have hf : (SkipContainer data pos len left right).1 = false := hspec
    refine ⟨fun p => ⟨fun h => ?_, ?_⟩, iff_of_true hf haut, hchecks⟩
    · rw [h] at hf
      cases hf
    · rintro ⟨k, hk, -, h0, -⟩
      exact absurd h0 (haut k hk)
  | some t =>
    rw [hc] at hspec haut
    obtain ⟨k, hk, rfl, hcl⟩ := haut
    have ht : SkipContainer data pos len left right = (true, pos + k) := by
      have hp : len - ((slice data pos len).drop k).length = pos + k := by
        rw [List.length_drop, hsl]
        omega
      exact hspec.trans (by rw [hp])
    refine ⟨fun p => ?_, ?_, hchecks⟩
    · rw [ht]
      constructor
      · intro h
        exact ⟨k, hk, (Prod.mk.inj h).2.symm, hcl⟩
      · rintro ⟨k', -, rfl, hcl'⟩
        rw [unique hcl hcl']
    · rw [ht]
      exact iff_of_false (by simp) fun h => h k hk hcl.1

/-- `[{"]":1}]x`, from behind the first bracket. -/
theorem SkipContainer_automaton_array :
    (∀ p, SkipContainer [91, 123, 34, 93, 34, 58, 49, 125, 93, 120] 1 10 Ch.lbrack Ch.rbrack =
    (true, p) ↔
      ∃ k ≤ 10 - 1, p = 1 + k ∧
        ContAut.ClosedAfter Ch.lbrack Ch.rbrack .start
          (slice [91, 123, 34, 93, 34, 58, 49, 125, 93, 120] 1 10) k) ∧
    ((SkipContainer [91, 123, 34, 93, 34, 58, 49, 125, 93, 120] 1 10 Ch.lbrack Ch.rbrack).1 = false ↔
      ∀ k ≤ 10 - 1, (ContAut.after Ch.lbrack Ch.rbrack .start
        (slice [91, 123, 34, 93, 34, 58, 49, 125, 93, 120] 1 10) k).depth ≠ 0) ∧
    skipContainerAsserts [91, 123, 34, 93, 34, 58, 49, 125, 93, 120] 1 10 Ch.lbrack Ch.rbrack = true :=
  SkipContainer_automaton (by norm_num) (by decide) (by decide) (.inl ⟨rfl, rfl⟩)

end SonicJson
