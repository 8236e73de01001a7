/-
# The end of a string, on every architecture

The x86 scanners mark the escaped bytes of a block and carry an escape into the next
one; the ARM scanner jumps past each backslash and the byte behind it, and has masks of
four bits a byte. Both find the first quote that is not escaped, and say whether a
backslash stands before it (`SkipString_exact`, `Arm.SkipString_exact`).
-/
import SonicJson.SkipString

namespace SonicJson

open Cursor

/-! ### The ARM scanner -/

namespace Arm

def VEC_LEN : ℕ := 16

/-- The mask of a comparison of 16 bytes, narrowed: four bits for a byte. -/
def to_bitmask (data : Bytes) (pos : ℕ) (p : UInt8 → Bool) : BitVec 64 :=
  Bits.ofPred 64 fun i => p (rd data (pos + i / 4))

/-- `while (pos < len)` in a block: past the escapes that follow one another. -/
def skipEscapes (data : Bytes) (len : ℕ) : ℕ → ℕ → ℕ
  | 0, pos => pos
  | fuel + 1, pos =>
    if pos < len then if rd data pos = Ch.bslash then skipEscapes data len fuel (pos + 2) else pos
    else pos

/-- The blocks; `escaped` says that `ret` is `kEscaped`. The bytes behind the last whole block are
read as on x86. -/
def skipStringBlocks (data : Bytes) (len : ℕ) : ℕ → Bool → ℕ → ℕ × ℕ
  | 0, escaped, pos => skipStringTail data len len escaped pos
  | fuel + 1, escaped, pos =>
    if pos + VEC_LEN ≤ len then
      let bs_bits := to_bitmask data pos (· == Ch.bslash)
      let quote_bits := to_bitmask data pos (· == Ch.quote)
      if (bs_bits - 1#64) &&& quote_bits ≠ 0 then (if escaped then kEscaped else kNormal,
        pos + (Bits.ctz quote_bits / 4 + 1))
      else if bs_bits ≠ 0 then skipStringBlocks data len fuel true
        (skipEscapes data len len (pos + (Bits.ctz bs_bits / 4 + 2)))
      else skipStringBlocks data len fuel escaped (pos + VEC_LEN)
    else skipStringTail data len len escaped pos

def SkipString (data : Bytes) (pos len : ℕ) : ℕ × ℕ := skipStringBlocks data len len false pos

end Arm

/-! ### Exactly one status for a string -/

/-- The status and the position for the string that is left; `found` says that a backslash has been
read before. -/
def SkipsExactly (len : ℕ) (found : Bool) (s : Bytes) (r : ℕ × ℕ) : Prop :=
  match strEnd false s with
  | none => r.1 = kUnclosed
  | some t =>
    ∃ a, s = a ++ Ch.quote :: t ∧ r = (if found = true ∨ Ch.bslash ∈ a then kEscaped else kNormal,
      len - t.length)

/-- Before the closing quote there is no quote, unless behind a backslash. -/
theorem strEnd_eq_append : ∀ {s t : Bytes} {esc : Bool}, strEnd esc s = some t →
    ∃ a, s = a ++ Ch.quote :: t ∧ (esc = false → Ch.bslash ∉ a → Ch.quote ∉ a)
  | [], _, _, h => by simp at h
  | b :: s, t, true, h => by
    obtain ⟨a, rfl, -⟩ := @strEnd_eq_append _ _ false h
    exact ⟨b :: a, rfl, nofun⟩
  | b :: s, t, false, h => by
    rw [strEnd] at h
    by_cases hq : b = Ch.quote
    · rw [if_pos hq] at h
      obtain rfl := Option.some.inj h
      exact ⟨[], by rw [hq]; rfl, fun _ _ => by simp⟩
    · rw [if_neg hq] at h
      obtain ⟨a, rfl, ha⟩ := strEnd_eq_append h
      refine ⟨b :: a, rfl, fun _ hb => ?_⟩
      simp only [List.mem_cons, not_or] at hb ⊢
      exact ⟨Ne.symm hq, ha (by simpa using Ne.symm hb.1) hb.2⟩

section
variable {data s : Bytes} {len pos : ℕ} {r : ℕ × ℕ} {found : Bool}

theorem SkipsString.exact (h : SkipsString len found s r (strEnd false s))
    (hplain : found = false → ∀ a t, s = a ++ Ch.quote :: t → Ch.quote ∉ a → Ch.bslash ∉ a →
    r.1 = kNormal) :
    SkipsExactly len found s r := by
  unfold SkipsExactly
  cases hs : strEnd false s with
  | none =>
    rw [hs] at h
    exact h
  | some t =>
    rw [hs] at h
    obtain ⟨a, ha, hq⟩ := strEnd_eq_append hs
    obtain ⟨h1, h2⟩ := h
    refine ⟨a, ha, Prod.ext ?_ h2⟩
    by_cases hf : found = true ∨ Ch.bslash ∈ a
    · rw [if_pos hf]
      rcases h1 with h1 | ⟨-, h3, b, hb, hbs⟩
      · exact h1
      · obtain rfl : a = b := by
          have := ha.symm.trans hb
          exact List.append_cancel_right this
        rcases hf with hf | hf
        · rw [h3] at hf
          cases hf
        · exact absurd hf hbs
    · rw [if_neg hf]
      obtain ⟨hf1, hf2⟩ := not_or.mp hf
      exact hplain (by simpa using hf1) a t ha (hq rfl hf2) hf2

theorem skipStringTail_exact (h : Left data len pos s) :
    SkipsExactly len found s (skipStringTail data len len found pos) := by
  have hl := h.length_add
  refine (skipStringTail_spec len found pos s h (by omega)).exact fun hf a t ha hq hb => ?_
  subst hf ha
  simp only [List.length_append, List.length_cons] at hl
  exact skipStringTail_plain h (by omega) hq hb

theorem SkipString_exact' (A : Arch) (h : Left data len pos s) :
    SkipsExactly len false s (SkipString A data pos len) :=
  (SkipString_spec h).exact fun _ _ _ ha hq hb => SkipString_plain (ha ▸ h) hq hb

/-- Behind bytes without quotes. -/
theorem SkipsExactly.append {w u : Bytes} {found' : Bool} (h : SkipsExactly len found' u r)
    (hs : s = w ++ u) (he : strEnd false s = strEnd false u)
    (hf : found' = true ↔ found = true ∨ Ch.bslash ∈ w) :
    SkipsExactly len found s r := by
  unfold SkipsExactly at h ⊢
  rw [he]
  cases hu : strEnd false u with
  | none =>
    rw [hu] at h
    exact h
  | some t =>
    rw [hu] at h
    obtain ⟨a, rfl, hr⟩ := h
    refine ⟨w ++ a, by rw [hs, List.append_assoc], hr.trans ?_⟩
    have hif : (found' = true ∨ Ch.bslash ∈ a) ↔ (found = true ∨ Ch.bslash ∈ w ++ a) := by
      rw [hf, List.mem_append, or_assoc]
    rw [if_congr hif rfl rfl]

end

/-! ### The ARM scanner finds the same end -/

namespace Arm

variable {data s : Bytes} {len pos : ℕ} {p : UInt8 → Bool}

theorem getLsbD_to_bitmask (i : ℕ) :
    (to_bitmask data pos p).getLsbD i = (decide (i < 64) && p (rd data (pos + i / 4))) := by
  rw [to_bitmask, Bits.getLsbD_ofPred]

/-- The first byte of a block with the property; `16` if there is none. -/
theorem ctz_to_bitmask : (∀ j < Bits.ctz (to_bitmask data pos p) / 4, p (rd data (pos + j)) = false) ∧
    (to_bitmask data pos p ≠ 0 → Bits.ctz (to_bitmask data pos p) / 4 < 16 ∧
      p (rd data (pos + Bits.ctz (to_bitmask data pos p) / 4)) = true) := by
  refine ⟨fun j hj => ?_, fun hne => ?_⟩
  · have hle := Bits.ctz_le (to_bitmask data pos p)
    have h := Bits.getLsbD_of_lt_ctz (to_bitmask data pos p) (show 4 * j < _ by omega)
    rw [getLsbD_to_bitmask, show 4 * j / 4 = j by omega, decide_eq_true (by omega), Bool.true_and] at h
    exact h
  · have h1 := Bits.ctz_lt hne
    have h2 := Bits.getLsbD_ctz hne
    rw [getLsbD_to_bitmask, Bool.and_eq_true] at h2
    exact ⟨by omega, h2.2⟩

theorem le_skipEscapes : ∀ (fuel pos : ℕ), pos ≤ skipEscapes data len fuel pos
  | 0, _ => le_rfl
  | fuel + 1, pos => by
    rw [skipEscapes]
    split_ifs
    · exact (Nat.le_add_right _ _).trans (le_skipEscapes fuel (pos + 2))
    · exact le_rfl
    · exact le_rfl

/-- The escapes that follow one another are no end; at the end of the text the last one may reach
behind it. -/
theorem skipEscapes_spec : ∀ (fuel pos : ℕ) (s : Bytes), Left data len pos s → s.length ≤ fuel →
    (∃ w u, s = w ++ u ∧ Left data len (skipEscapes data len fuel pos) u ∧
    strEnd false s = strEnd false u) ∨
    strEnd false s = none ∧ len < skipEscapes data len fuel pos
  | 0, pos, s, h, hf => .inl ⟨[], s, rfl, h, rfl⟩
  | fuel + 1, pos, [], h, _ => by
    have hl := h.length_add
    rw [List.length_nil] at hl
    rw [skipEscapes, if_neg (by omega)]
    exact .inl ⟨[], [], rfl, h, rfl⟩
  | fuel + 1, pos, b :: s, h, hf => by
    have hl := h.length_add
    rw [List.length_cons] at hl hf
    rw [skipEscapes, if_pos (by omega), h.rd_eq]
    by_cases hb : b = Ch.bslash
    · subst hb
      rw [if_pos rfl]
      cases s with
      | nil =>
        rw [List.length_nil] at hl
        have := @le_skipEscapes data len fuel (pos + 2)
        exact .inr ⟨rfl, by omega⟩
      | cons c s =>
        rw [List.length_cons] at hl hf
        rcases skipEscapes_spec fuel (pos + 2) s h.succ.succ (by omega)
          with ⟨w, u, rfl, h1, h2⟩ | ⟨h1, h2⟩
        · exact .inl ⟨Ch.bslash :: c :: w, u, rfl, h1, h2⟩
        · exact .inr ⟨h1, h2⟩
    · rw [if_neg hb]
      exact .inl ⟨[], b :: s, rfl, h, rfl⟩

theorem skipStringTail_over {found : Bool} (h : len < pos) :
    ∀ fuel, (skipStringTail data len fuel found pos).1 = kUnclosed
  | 0 => rfl
  | fuel + 1 => by rw [skipStringTail, if_neg (by omega)]

theorem skipStringBlocks_over {found : Bool} (h : len < pos) :
    ∀ fuel, (skipStringBlocks data len fuel found pos).1 = kUnclosed
  | 0 => skipStringTail_over h len
  | fuel + 1 => by
    rw [skipStringBlocks, if_neg (by omega)]
    exact skipStringTail_over h len

/-- Bytes none of which is a quote or a backslash. -/
theorem strEnd_skip {w u : Bytes} (hq : Ch.quote ∉ w) (hb : Ch.bslash ∉ w) :
    strEnd false (w ++ u) = strEnd false u := by
  induction w with
  | nil => rfl
  | cons b w ih =>
    simp only [List.mem_cons, not_or] at hq hb
    rw [List.cons_append, strEnd, if_neg (Ne.symm hq.1),
      show (b == Ch.bslash) = false by simpa using Ne.symm hb.1]
    exact ih hq.2 hb.2

theorem skipStringBlocks_exact :
    ∀ (fuel pos : ℕ) (s : Bytes) (escaped : Bool), Left data len pos s → s.length ≤ fuel →
    SkipsExactly len escaped s (skipStringBlocks data len fuel escaped pos)
  | 0, pos, s, escaped, h, _ => skipStringTail_exact h
  | fuel + 1, pos, s, escaped, h, hf => by
    have hl := h.length_add
    rw [skipStringBlocks]
    by_cases hb : pos + VEC_LEN ≤ len
    swap
    · rw [if_neg hb]
      exact skipStringTail_exact h
    have h16 : VEC_LEN = 16 := rfl
    rw [if_pos hb]
    have hbyte : ∀ j < 16, rd data (pos + j) = rd s j := fun j hj => h.rd_add (by omega)
    obtain ⟨hB1, hB2⟩ := @ctz_to_bitmask data pos (· == Ch.bslash)
    obtain ⟨hQ1, hQ2⟩ := @ctz_to_bitmask data pos (· == Ch.quote)
    have hd : ∀ i < 64, (to_bitmask data pos (· == Ch.bslash)).getLsbD i = true →
        (to_bitmask data pos (· == Ch.quote)).getLsbD i = false := by
      intro i hi hbs
      rw [getLsbD_to_bitmask, Bool.and_eq_true, beq_iff_eq] at hbs
      rw [getLsbD_to_bitmask, hbs.2, Bool.and_eq_false_iff]
      exact .inr (by decide)
    have hqf := Bits.sub_one_and_eq_zero _ _ hd
    have hBle := Bits.ctz_le (to_bitmask data pos (· == Ch.bslash))
    have hQle := Bits.ctz_le (to_bitmask data pos (· == Ch.quote))
    dsimp only
    generalize to_bitmask data pos (· == Ch.bslash) = B at *
    generalize to_bitmask data pos (· == Ch.quote) = Q at *
    -- the bytes before the first backslash or quote
    have hpre : ∀ k, k ≤ Bits.ctz B / 4 → k ≤ Bits.ctz Q / 4 → k ≤ 16 → Ch.bslash ∉ s.take k ∧
        Ch.quote ∉ s.take k := by
      intro k h1 h2 h3
      refine ⟨not_mem_take (by omega) fun j hj => ?_, not_mem_take (by omega) fun j hj => ?_⟩
      · have := hB1 j (by omega)
        rw [hbyte j (by omega)] at this
        simpa using this
      · have := hQ1 j (by omega)
        rw [hbyte j (by omega)] at this
        simpa using this
    by_cases hfirst : (B - 1#64) &&& Q = 0
    · have hnq : ∀ i < Bits.ctz B, Q.getLsbD i = false := hqf.mp hfirst
      have hBQ : Bits.ctz B ≤ Bits.ctz Q := by
        by_contra hc
        have hne : Q ≠ 0 := Bits.ne_zero_of_ctz_lt (not_le.mp hc) hBle
        have := hnq _ (not_le.mp hc)
        rw [Bits.getLsbD_ctz hne] at this
        cases this
      rw [if_neg (by simpa using hfirst)]
      by_cases hz : B = 0
      · -- neither in the block
        have hB64 := Bits.ctz_eq_width hz
        obtain ⟨h1, h2⟩ := hpre 16 (by omega) (by omega) le_rfl
        rw [if_neg (by simpa using hz)]
        have ih := skipStringBlocks_exact fuel (pos + 16) (s.drop 16) escaped (h.drop (by omega))
          (by simp; omega)
        have he := strEnd_skip (u := s.drop 16) h2 h1
        rw [List.take_append_drop] at he
        exact ih.append (List.take_append_drop 16 s).symm he (by simp [h1])
      · -- a backslash
        obtain ⟨hB16, hBb⟩ := hB2 hz
        rw [hbyte _ hB16, beq_iff_eq] at hBb
        obtain ⟨h1, h2⟩ := hpre (Bits.ctz B / 4) le_rfl (by omega) (by omega)
        rw [if_pos (by simpa using hz), ← Nat.add_assoc]
        have hcons : s.drop (Bits.ctz B / 4) = Ch.bslash :: s.drop (Bits.ctz B / 4 + 1) := by
          have := (at_cons_rd (show Bits.ctz B / 4 < s.length by omega)).drop
          rwa [hBb] at this
        have he := strEnd_skip (u := s.drop (Bits.ctz B / 4)) h2 h1
        rw [List.take_append_drop, hcons] at he
        have hse : strEnd false s = strEnd true (s.drop (Bits.ctz B / 4 + 1)) := he
        have hmem : Ch.bslash ∈ s.take (Bits.ctz B / 4 + 1) := by
          rw [List.mem_take_iff_getElem]
          refine ⟨Bits.ctz B / 4, by omega, ?_⟩
          rw [← hBb, rd, List.getD_eq_getElem _ _ (by omega)]
        cases hr : s.drop (Bits.ctz B / 4 + 1) with
        | nil =>
          -- the backslash is the last byte
          rw [hr] at hse
          have hlen := congrArg List.length hr
          rw [List.length_drop, List.length_nil] at hlen
          unfold SkipsExactly
          rw [hse]
          refine skipStringBlocks_over ?_ fuel
          have := @le_skipEscapes data len len (pos + Bits.ctz B / 4 + 2)
          omega
        | cons c s' =>
          rw [hr] at hse
          have hse' : strEnd false s = strEnd false s' := hse
          have hsplit : s = (s.take (Bits.ctz B / 4 + 1) ++ [c]) ++ s' := by
            conv_lhs => rw [← List.take_append_drop (Bits.ctz B / 4 + 1) s, hr]
            rw [List.append_assoc]
            rfl
          have hlen := congrArg List.length hr
          rw [List.length_drop, List.length_cons] at hlen
          have hat : Left data len (pos + Bits.ctz B / 4 + 2) s' := by
            have := h.drop (show Bits.ctz B / 4 + 1 ≤ s.length by omega)
            rw [hr] at this
            exact this.succ
          rcases skipEscapes_spec len _ s' hat (by omega) with ⟨w, u, hu, h3, h4⟩ | ⟨h3, h4⟩
          · have hul := congrArg List.length hu
            rw [List.length_append] at hul
            have ih := skipStringBlocks_exact fuel _ u true h3 (by omega)
            refine ih.append (w := s.take (Bits.ctz B / 4 + 1) ++ [c] ++ w) ?_ (hse'.trans h4)
              (iff_of_true rfl (.inr ?_))
            · rw [List.append_assoc, ← hu]
              exact hsplit
            · exact List.mem_append_left _ (List.mem_append_left _ hmem)
          · unfold SkipsExactly
            rw [hse', h3]
            exact skipStringBlocks_over h4 fuel
    · have hex : Bits.ctz Q < Bits.ctz B := by
        by_contra hc
        exact hfirst (hqf.mpr fun i hi => Bits.getLsbD_of_lt_ctz Q (by omega))
      have hne : Q ≠ 0 := Bits.ne_zero_of_ctz_lt hex hBle
      obtain ⟨hQ16, hQq⟩ := hQ2 hne
      rw [hbyte _ hQ16, beq_iff_eq] at hQq
      obtain ⟨h1, h2⟩ := hpre (Bits.ctz Q / 4) (by omega) le_rfl (by omega)
      rw [if_pos (by simpa using hfirst)]
      have hlt : Bits.ctz Q / 4 < s.length := by omega
      have hsplit : s = s.take (Bits.ctz Q / 4) ++ Ch.quote :: s.drop (Bits.ctz Q / 4 + 1) := by
        rw [← hQq, ← (at_cons_rd hlt).drop, List.take_append_drop]
      have he : strEnd false s = some (s.drop (Bits.ctz Q / 4 + 1)) := by
        conv_lhs => rw [hsplit]
        exact strEnd_plain _ h2 h1
      unfold SkipsExactly
      rw [he]
      refine ⟨_, hsplit, ?_⟩
      have hif : (escaped = true ∨ Ch.bslash ∈ s.take (Bits.ctz Q / 4)) ↔ escaped = true :=
        or_iff_left h1
      rw [if_congr hif rfl rfl, List.length_drop]
      congr 1
      omega

theorem SkipString_exact' (h : Left data len pos s) :
    SkipsExactly len false s (SkipString data pos len) := by
  have hl := h.length_add
  exact skipStringBlocks_exact len pos s false h (by omega)

end Arm

/-! ### In terms of positions -/

/-- The byte of `s` at `i` is a quote, and an even number of backslashes stands right before it. -/
def Unescaped (s : Bytes) (i : ℕ) : Prop := i < s.length ∧ rd s i = Ch.quote ∧ escIn s false i = false

/-- The first quote that is not escaped. -/
def ClosingQuote (s : Bytes) (i : ℕ) : Prop := Unescaped s i ∧ ∀ j < i, ¬ Unescaped s j

/-- What a scanner of strings returns from `pos` on, in the words of positions. -/
def FindsStringEnd (data : Bytes) (pos len : ℕ) (r : ℕ × ℕ) : Prop :=
  (r.1 = 0 ↔ ∀ i, ¬ Unescaped (slice data pos len) i) ∧
  ∀ i, ClosingQuote (slice data pos len) i →
    r = (if Ch.bslash ∈ (slice data pos len).take i then 2 else 1, pos + i + 1)

theorem strEnd_closing {s : Bytes} {i : ℕ} (h : ClosingQuote s i) :
    strEnd false s = some (s.drop (i + 1)) := by
  obtain ⟨⟨hi, hq, he⟩, hno⟩ := h
  rw [strEnd_drop hi.le fun j hj hc => hno j hj ⟨by omega, hc⟩, he]
  exact strEnd_quote hi hq

theorem strEnd_none {s : Bytes} (h : ∀ i, ¬ Unescaped s i) : strEnd false s = none := by
  rw [strEnd_drop le_rfl fun j hj hc => h j ⟨hj, hc⟩, List.drop_length]
  exact strEnd_nil _

/-- With a quote that is not escaped there is a first one. -/
theorem exists_closing {s : Bytes} {i : ℕ} (h : Unescaped s i) : ∃ k, ClosingQuote s k := by
  induction i using Nat.strong_induction_on with
  | _ i ih =>
    by_cases hc : ∃ j < i, Unescaped s j
    · obtain ⟨j, hj, hu⟩ := hc
      exact ih j hj hu
    · push Not at hc
      exact ⟨i, h, hc⟩

theorem SkipsExactly.finds {data : Bytes} {pos len : ℕ} {r : ℕ × ℕ}
    (h : Left data len pos (slice data pos len))
    (hr : SkipsExactly len false (slice data pos len) r) : FindsStringEnd data pos len r := by
  have hl := h.length_add
  unfold FindsStringEnd
  generalize slice data pos len = s at *
  have hclose : ∀ i, ClosingQuote s i → r = (if Ch.bslash ∈ s.take i then 2 else 1, pos + i + 1) := by
    intro i hc
    have hi := hc.1.1
    unfold SkipsExactly at hr
    rw [strEnd_closing hc] at hr
    obtain ⟨a, ha, rfl⟩ := hr
    have hal : a.length = i := by
      have := congrArg List.length ha
      simp only [List.length_append, List.length_cons, List.length_drop] at this
      omega
    have hat : a = s.take i := by
      rw [ha, ← hal, List.take_left]
    have hif : (false = true ∨ Ch.bslash ∈ a) ↔ Ch.bslash ∈ s.take i := by simp [hat]
    rw [if_congr hif rfl rfl, List.length_drop]
    refine Prod.ext rfl ?_
    dsimp only
    omega
  refine ⟨⟨fun h0 i hu => ?_, fun hno => ?_⟩, hclose⟩
  · obtain ⟨k, hk⟩ := exists_closing hu
    rw [hclose k hk] at h0
    dsimp only at h0
    split_ifs at h0
  · unfold SkipsExactly at hr
    rwa [strEnd_none hno] at hr

/-- **Skipping a string** is exact on x86, with blocks of 16 and of 32 bytes, and on ARM. -/
theorem SkipString_exact {data : Bytes} {pos len : ℕ} (hdata : len ≤ data.length) (hpos : pos ≤ len) :
    (∀ A, FindsStringEnd data pos len (SkipString A data pos len)) ∧
    FindsStringEnd data pos len (Arm.SkipString data pos len) :=
  ⟨fun A => (SkipString_exact' A (left_slice hdata hpos)).finds (left_slice hdata hpos),
    (Arm.SkipString_exact' (left_slice hdata hpos)).finds (left_slice hdata hpos)⟩

/-- `a\""`. -/
theorem SkipString_exact_escaped :
    (∀ A, FindsStringEnd [97, 92, 34, 34] 0 4 (SkipString A [97, 92, 34, 34] 0 4)) ∧
      FindsStringEnd [97, 92, 34, 34] 0 4 (Arm.SkipString [97, 92, 34, 34] 0 4) :=
  SkipString_exact (by decide) (by decide)

end SonicJson
