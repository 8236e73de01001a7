/-
# Unicode escapes

`handle_unicode_codepoint` and the functions it calls: the hex table gives the
16 bits of four digits, or all ones when one of them is no digit; a high
surrogate must be followed by the escape of a low one; the code point is
written as UTF-8. `unicodeEsc` is the same on the text after the `u`, and
`handle_unicode_codepoint_eq` connects the two.
-/
import SonicJson.Grammar

namespace SonicJson

open Cursor

/-- The entry of one of the table's four copies of the hex digits: the copy at `210 * k` holds them
shifted by `4 * k`, and all other entries are invalid. -/
def hexEntry (i k : ℕ) : Option ℕ :=
  if 210 * k + 48 ≤ i ∧ i ≤ 210 * k + 57 then some ((i - (210 * k + 48)) <<< (4 * k))
  else if 210 * k + 65 ≤ i ∧ i ≤ 210 * k + 70 then some ((i - (210 * k + 65) + 10) <<< (4 * k))
  else if 210 * k + 97 ≤ i ∧ i ≤ 210 * k + 102 then some ((i - (210 * k + 97) + 10) <<< (4 * k))
  else none

/-- The table `digit_to_val32`, by its ranges. -/
def digit_to_val32 (i : ℕ) : ℕ :=
  ((hexEntry i 0 <|> hexEntry i 1) <|> hexEntry i 2 <|> hexEntry i 3).getD 0xFFFFFFFF

def hex_to_u32_nocheck (buf : Bytes) (src : ℕ) : ℕ :=
  let v1 := digit_to_val32 (630 + (rd buf src).toNat)
  let v2 := digit_to_val32 (420 + (rd buf (src + 1)).toNat)
  let v3 := digit_to_val32 (210 + (rd buf (src + 2)).toNat)
  let v4 := digit_to_val32 (0 + (rd buf (src + 3)).toNat)
  v1 ||| v2 ||| v3 ||| v4

/-- The bytes written for a code point; none when it is too large. -/
def codepoint_to_utf8 (cp : ℕ) : Bytes :=
  if cp ≤ 0x7F then [UInt8.ofNat cp]
  else if cp ≤ 0x7FF then [UInt8.ofNat ((cp >>> 6) + 192), UInt8.ofNat ((cp &&& 63) + 128)]
  else if cp ≤ 0xFFFF then
    [UInt8.ofNat ((cp >>> 12) + 224), UInt8.ofNat (((cp >>> 6) &&& 63) + 128),
    UInt8.ofNat ((cp &&& 63) + 128)]
  else if cp ≤ 0x10FFFF then
    [UInt8.ofNat ((cp >>> 18) + 240), UInt8.ofNat (((cp >>> 12) &&& 63) + 128),
      UInt8.ofNat (((cp >>> 6) &&& 63) + 128), UInt8.ofNat ((cp &&& 63) + 128)]
  else []

/-- Whether the code point was valid, the source position after it, and the bytes written. -/
def handle_unicode_codepoint (buf : Bytes) (src : ℕ) : Bool × ℕ × Bytes :=
  let code_point := hex_to_u32_nocheck buf (src + 2)
  let src := src + 6
  if code_point ≥ 0xdc00 ∧ code_point ≤ 0xdfff then (false, src, [])
  else if code_point ≥ 0xd800 ∧ code_point < 0xdc00 then
    if rd buf src ≠ Ch.bslash ∨ rd buf (src + 1) ≠ Ch.u then (false, src, [])
    else
      let code_point_2 := hex_to_u32_nocheck buf (src + 2)
      if (code_point ||| code_point_2) >>> 16 ≠ 0 then (false, src, [])
      else if code_point_2 < 0xdc00 ∨ code_point_2 > 0xdfff then (false, src, [])
      else
        let w := codepoint_to_utf8 ((((code_point - 0xd800) <<< 10) ||| (code_point_2 - 0xdc00)) +
          0x10000)
        (decide (0 < w.length), src + 6, w)
  else
    let w := codepoint_to_utf8 code_point
    (decide (0 < w.length), src, w)

/-! ### Hex digits -/

theorem hexEntry_of_lt {i k : ℕ} (h : i < 210 * k + 48) : hexEntry i k = none := by
  unfold hexEntry
  rw [if_neg (by omega), if_neg (by omega), if_neg (by omega)]

theorem hexEntry_of_gt {i k : ℕ} (h : 210 * k + 102 < i) : hexEntry i k = none := by
  unfold hexEntry
  rw [if_neg (by omega), if_neg (by omega), if_neg (by omega)]

/-- In its own copy of the table a byte has the value of its digit, shifted. -/
theorem hexEntry_byte (b : UInt8) (k : ℕ) :
    hexEntry (210 * k + b.toNat) k = (hexDigit b).map (· <<< (4 * k)) := by
  have hb : ∀ n : ℕ, n < 256 → (UInt8.ofNat n ≤ b ↔ n ≤ b.toNat) ∧
      (b ≤ UInt8.ofNat n ↔ b.toNat ≤ n) := by
    intro n hn
    simp [UInt8.le_iff_toNat_le, Nat.mod_eq_of_lt hn]
  have h48 := (hb 48 (by omega)).1
  have h57 := (hb 57 (by omega)).2
  have h65 := (hb 65 (by omega)).1
  have h70 := (hb 70 (by omega)).2
  have h97 := (hb 97 (by omega)).1
  have h102 := (hb 102 (by omega)).2
  simp only [UInt8.reduceOfNat] at h48 h57 h65 h70 h97 h102
  unfold hexEntry hexDigit
  simp only [h48, h57, h65, h70, h97, h102]
  by_cases h1 : 48 ≤ b.toNat ∧ b.toNat ≤ 57
  · rw [if_pos (by omega), if_pos h1, Option.map_some]
    congr 2
    omega
  rw [if_neg (by omega), if_neg h1]
  by_cases h2 : 65 ≤ b.toNat ∧ b.toNat ≤ 70
  · rw [if_pos (by omega), if_pos h2, Option.map_some]
    congr 2
    omega
  rw [if_neg (by omega), if_neg h2]
  by_cases h3 : 97 ≤ b.toNat ∧ b.toNat ≤ 102
  · rw [if_pos (by omega), if_pos h3, Option.map_some]
    congr 2
    omega
  rw [if_neg (by omega), if_neg h3, Option.map_none]

theorem digit_to_val32_byte (b : UInt8) {k : ℕ} (hk : k < 4) :
    digit_to_val32 (210 * k + b.toNat) = ((hexDigit b).map (· <<< (4 * k))).getD 0xFFFFFFFF := by
  have hb := b.toNat_lt
  have hlo : ∀ j < k, hexEntry (210 * k + b.toNat) j = none ∨ 210 * k + b.toNat < 210 * (j + 1) := by
    intro j hj
    exact .inl (hexEntry_of_gt (by omega))
  have hhi : ∀ j, k < j → hexEntry (210 * k + b.toNat) j = none := fun j hj => hexEntry_of_lt (by omega)
  have hlo' : ∀ j < k, hexEntry (210 * k + b.toNat) j = none := fun j hj => hexEntry_of_gt (by omega)
  rw [digit_to_val32, ← hexEntry_byte]
  have h4 : k = 0 ∨ k = 1 ∨ k = 2 ∨ k = 3 := by omega
  rcases h4 with rfl | rfl | rfl | rfl
  · rw [hhi 1 (by omega), hhi 2 (by omega), hhi 3 (by omega)]
    simp
  · rw [hlo' 0 (by omega), hhi 2 (by omega), hhi 3 (by omega)]
    simp
  · rw [hlo' 0 (by omega), hlo' 1 (by omega), hhi 3 (by omega)]
    simp
  · rw [hlo' 0 (by omega), hlo' 1 (by omega), hlo' 2 (by omega)]
    simp

theorem hexDigit_lt {b : UInt8} {v : ℕ} (h : hexDigit b = some v) : v < 16 := by
  unfold hexDigit at h
  simp only [UInt8.le_iff_toNat_le] at h
  split_ifs at h with h1 h2 h3 <;> simp only [Option.some.injEq] at h <;> simp at * <;> omega

theorem hex4_lt {a b c d : UInt8} {cp : ℕ} (h : hex4 a b c d = some cp) : cp < 65536 := by
  unfold hex4 at h
  split at h
  · rename_i w x y z hw hx hy hz
    simp only [Option.some.injEq] at h
    have := hexDigit_lt hw
    have := hexDigit_lt hx
    have := hexDigit_lt hy
    have := hexDigit_lt hz
    omega
  · simp at h

theorem or_ones {x : ℕ} (h : x < 2 ^ 32) : x ||| 0xFFFFFFFF = 0xFFFFFFFF := by
  apply Nat.eq_of_testBit_eq
  intro i
  rw [Nat.testBit_or, show (0xFFFFFFFF : ℕ) = 2 ^ 32 - 1 by norm_num, Nat.testBit_two_pow_sub_one]
  by_cases hi : i < 32
  · simp [hi]
  · simp [hi,
      Nat.testBit_lt_two_pow (lt_of_lt_of_le h (Nat.pow_le_pow_right (by norm_num) (not_lt.mp hi)))]

/-- The table's value of four bytes: their digits' value, or all ones. -/
theorem hex_to_u32_nocheck_eq (buf : Bytes) (p : ℕ) : hex_to_u32_nocheck buf p =
    (hex4 (rd buf p) (rd buf (p + 1)) (rd buf (p + 2)) (rd buf (p + 3))).getD 0xFFFFFFFF := by
  unfold hex_to_u32_nocheck
  generalize rd buf p = a
  generalize rd buf (p + 1) = b
  generalize rd buf (p + 2) = c
  generalize rd buf (p + 3) = d
  have hv1 := digit_to_val32_byte a (show 3 < 4 by omega)
  have hv2 := digit_to_val32_byte b (show 2 < 4 by omega)
  have hv3 := digit_to_val32_byte c (show 1 < 4 by omega)
  have hv4 := digit_to_val32_byte d (show 0 < 4 by omega)
  simp only [Nat.mul_zero, Nat.reduceMul, Nat.mul_one] at hv1 hv2 hv3 hv4
  simp only [hv1, hv2, hv3, hv4]
  have hlt : ∀ (x : UInt8) (k : ℕ), k < 4 → ((hexDigit x).map (· <<< (4 * k))).getD 0xFFFFFFFF <
      2 ^ 32 := by
    intro x k hk
    cases hx : hexDigit x with
    | none => simp
    | some v =>
      have hv := hexDigit_lt hx
      simp only [Option.map_some, Option.getD_some]
      calc v <<< (4 * k) = v * 2 ^ (4 * k) := Nat.shiftLeft_eq _ _
        _ < 16 * 2 ^ (4 * k) := Nat.mul_lt_mul_of_pos_right hv (by positivity)
        _ = 2 ^ (4 * k + 4) := by rw [pow_add]; ring
        _ ≤ 2 ^ 32 := Nat.pow_le_pow_right (by norm_num) (by omega)
  have hor : ∀ x y : ℕ, x < 2 ^ 32 → y < 2 ^ 32 → x ||| y < 2 ^ 32 :=
    fun x y hx hy => Nat.or_lt_two_pow hx hy
  have l1 := hlt a 3 (by omega)
  have l2 := hlt b 2 (by omega)
  have l3 := hlt c 1 (by omega)
  have l4 := hlt d 0 (by omega)
  simp only [Nat.mul_zero, Nat.reduceMul, Nat.mul_one] at l1 l2 l3 l4
  unfold hex4
  cases ha : hexDigit a with
  | none =>
    rw [ha] at l1
    simp only [Option.map_none, Option.getD_none]
    rw [Nat.or_assoc, Nat.or_assoc, Nat.or_comm, or_ones (hor _ _ l2 (hor _ _ l3 l4))]
  | some w =>
    rw [ha] at l1
    cases hb : hexDigit b with
    | none =>
      simp only [Option.map_none, Option.getD_none]
      rw [or_ones l1, Nat.or_assoc, Nat.or_comm, or_ones (hor _ _ l3 l4)]
    | some x =>
      rw [hb] at l2
      cases hc : hexDigit c with
      | none =>
        simp only [Option.map_none, Option.getD_none]
        rw [or_ones (hor _ _ l1 l2), Nat.or_comm, or_ones l4]
      | some y =>
        rw [hc] at l3
        cases hd : hexDigit d with
        | none =>
          simp only [Option.map_none, Option.getD_none]
          rw [or_ones (hor _ _ (hor _ _ l1 l2) l3)]
        | some z =>
          have hw := hexDigit_lt ha
          have hx := hexDigit_lt hb
          have hy := hexDigit_lt hc
          have hz := hexDigit_lt hd
          simp only [Option.map_some, Option.getD_some, Nat.shiftLeft_eq, pow_zero, Nat.mul_one]
          have e1 : w * 2 ^ 12 ||| x * 2 ^ 8 = (w * 16 + x) * 2 ^ 8 := by
            have := Nat.two_pow_add_eq_or_of_lt (i := 12) (show x * 2 ^ 8 < 2 ^ 12 by omega) w
            rw [Nat.mul_comm w, ← this]
            ring
          have e2 : (w * 16 + x) * 2 ^ 8 ||| y * 2 ^ 4 = ((w * 16 + x) * 16 + y) * 2 ^ 4 := by
            have := Nat.two_pow_add_eq_or_of_lt (i := 8) (show y * 2 ^ 4 < 2 ^ 8 by omega) (w * 16 + x)
            rw [Nat.mul_comm (w * 16 + x), ← this]
            ring
          have e3 : ((w * 16 + x) * 16 + y) * 2 ^ 4 ||| z = ((w * 16 + x) * 16 + y) * 16 + z := by
            have := Nat.two_pow_add_eq_or_of_lt (i := 4) (show z < 2 ^ 4 by omega)
              ((w * 16 + x) * 16 + y)
            rw [Nat.mul_comm ((w * 16 + x) * 16 + y), ← this]
            ring
          rw [e1, e2, e3]
          ring

theorem codepoint_to_utf8_eq {cp : ℕ} (h : cp ≤ 0x10FFFF) : codepoint_to_utf8 cp = utf8 cp := by
  have h63 : ∀ n : ℕ, n &&& 63 = n % 64 := fun n => Nat.and_two_pow_sub_one_eq_mod n 6
  unfold codepoint_to_utf8 utf8
  simp only [h63, Nat.shiftRight_eq_div_pow]
  norm_num [h]

theorem utf8_length (cp : ℕ) : 0 < (utf8 cp).length ∧ (utf8 cp).length ≤ 4 := by
  unfold utf8
  split_ifs <;> simp

/-! ### The escape on the text -/

/-- What the high surrogate `hi` and the text after its escape decode to: that text must begin with the
escape of a low surrogate. -/
def lowEsc (hi : ℕ) : Bytes → Option (Bytes × Bytes)
  | x :: y :: a :: b :: c :: d :: r =>
    if x = Ch.bslash ∧ y = Ch.u then
      match hex4 a b c d with
      | none => none
      | some lo => if IsLow lo then some (utf8 (pairValue hi lo), r) else none
    else none
  | _ => none

/-- What a `\u` escape decodes to, given the text after the `u`, and what is left of the text. -/
def unicodeEsc : Bytes → Option (Bytes × Bytes)
  | a :: b :: c :: d :: r =>
    match hex4 a b c d with
    | none => none
    | some cp =>
      if IsLow cp then none
      else if IsHigh cp then lowEsc cp r
      else some (utf8 cp, r)
  | _ => none

theorem exists_six {r : Bytes} (h : ¬ r.length < 6) :
    ∃ x y a b c d r', r = x :: y :: a :: b :: c :: d :: r' := by
  rcases r with _ | ⟨_, _ | ⟨_, _ | ⟨_, _ | ⟨_, _ | ⟨_, _ | ⟨_, _⟩⟩⟩⟩⟩⟩ <;> simp at h
  exact ⟨_, _, _, _, _, _, _, rfl⟩

theorem lowEsc_short (hi : ℕ) {r : Bytes} (h : r.length < 6) : lowEsc hi r = none := by
  unfold lowEsc
  split
  · simp at h
    omega
  · rfl

theorem lowEsc_length {hi : ℕ} {s w r : Bytes} (h : lowEsc hi s = some (w, r)) :
    (∃ u, s = u ++ r ∧ 4 ≤ u.length) ∧ w.length ≤ 4 := by
  unfold lowEsc at h
  split at h
  · split_ifs at h
    split at h
    · simp at h
    · split_ifs at h
      simp only [Option.some.injEq, Prod.mk.injEq] at h
      obtain ⟨rfl, rfl⟩ := h
      exact ⟨⟨[_, _, _, _, _, _], rfl, by simp⟩, (utf8_length _).2⟩
  · simp at h

theorem unicodeEsc_length {s w r : Bytes} (h : unicodeEsc s = some (w, r)) :
    (∃ u, s = u ++ r ∧ 4 ≤ u.length) ∧ w.length ≤ 4 := by
  unfold unicodeEsc at h
  split at h
  · split at h
    · simp at h
    · split_ifs at h
      · obtain ⟨⟨u, rfl, hu⟩, hw⟩ := lowEsc_length h
        exact ⟨⟨_ :: _ :: _ :: _ :: u, rfl, by simp⟩, hw⟩
      · simp only [Option.some.injEq, Prod.mk.injEq] at h
        obtain ⟨rfl, rfl⟩ := h
        exact ⟨⟨[_, _, _, _], rfl, by simp⟩, (utf8_length _).2⟩
  · simp at h

/-- Too close to the end of the buffer there are no four hex digits. -/
theorem hex4_short {buf s : Bytes} {p : ℕ} (h : At buf p s) (hs : s.length < 4) :
    hex4 (rd buf p) (rd buf (p + 1)) (rd buf (p + 2)) (rd buf (p + 3)) = none := by
  have h0 : hexDigit 0 = none := by decide
  have hk : ∀ k, s.length ≤ k → hexDigit (rd buf (p + k)) = none := fun k hk => by
    rw [rd_at_add h, rd_of_length_le hk, h0]
  have h3 := hk 3 (by omega)
  unfold hex4
  rw [h3]
  cases hexDigit (rd buf p) <;> cases hexDigit (rd buf (p + 1))
    <;> cases hexDigit (rd buf (p + 2)) <;> rfl

theorem hex4_at {buf r : Bytes} {p : ℕ} {a b c d : UInt8} (h : At buf p (a :: b :: c :: d :: r)) :
    hex4 (rd buf p) (rd buf (p + 1)) (rd buf (p + 2)) (rd buf (p + 3)) = hex4 a b c d := by
  rw [rd_at h, rd_at h.succ, rd_at (h.succ.succ : At buf (p + 2) _),
    rd_at (h.succ.succ.succ : At buf (p + 3) _)]

theorem pairValue_eq {hi lo : ℕ} (hl : IsLow lo) :
    (((hi - 0xd800) <<< 10) ||| (lo - 0xdc00)) + 0x10000 = pairValue hi lo := by
  have hlt : lo - 0xdc00 < 2 ^ 10 := by
    have := hl.2
    omega
  have := Nat.two_pow_add_eq_or_of_lt hlt (hi - 0xd800)
  rw [Nat.shiftLeft_eq, Nat.mul_comm, ← this, pairValue]
  ring

theorem pairValue_le {hi lo : ℕ} (hh : IsHigh hi) (hl : IsLow lo) : pairValue hi lo ≤ 0x10FFFF := by
  have := hh.1
  have := hh.2
  have := hl.1
  have := hl.2
  unfold pairValue
  omega

/-- The second half of the decoder, from the position after the escape of the high surrogate `cp` on. -/
theorem handle_low_eq {buf r : Bytes} {src cp : ℕ} (h : At buf src r) (hhigh : IsHigh cp) :
    (if rd buf src ≠ Ch.bslash ∨ rd buf (src + 1) ≠ Ch.u then (false, src, [])
      else
        let code_point_2 := hex_to_u32_nocheck buf (src + 2)
        if (cp ||| code_point_2) >>> 16 ≠ 0 then (false, src, [])
        else if code_point_2 < 0xdc00 ∨ code_point_2 > 0xdfff then (false, src, [])
        else
          let w := codepoint_to_utf8 ((((cp - 0xd800) <<< 10) ||| (code_point_2 - 0xdc00)) + 0x10000)
          (decide (0 < w.length), src + 6, w) : Bool × ℕ × Bytes) =
      match lowEsc cp r with
      | some (w, r') => (true, buf.length - r'.length, w)
      | none => (false, src, []) := by
  have hcp := hhigh.2
  have hor : (cp ||| 0xFFFFFFFF) >>> 16 ≠ 0 := by
    rw [or_ones (by omega)]
    decide
  by_cases hxy : rd buf src ≠ Ch.bslash ∨ rd buf (src + 1) ≠ Ch.u
  · rw [if_pos hxy]
    by_cases hl : r.length < 6
    · rw [lowEsc_short _ hl]
    · obtain ⟨x, y, a, b, c, d, r', rfl⟩ := exists_six hl
      rw [rd_at h, rd_at h.succ] at hxy
      have : ¬ (x = Ch.bslash ∧ y = Ch.u) := by tauto
      rw [lowEsc, if_neg this]
  · rw [if_neg hxy, hex_to_u32_nocheck_eq]
    push Not at hxy
    by_cases hl : r.length < 6
    · have hnone : hex4 (rd buf (src + 2)) (rd buf (src + 3)) (rd buf (src + 4))
          (rd buf (src + 5)) = none := by
        rcases r with _ | ⟨x, _ | ⟨y, s'⟩⟩
        · have := hxy.1
          rw [← Nat.add_zero src, rd_at_add h] at this
          exact absurd this (by decide)
        · have := hxy.2
          rw [rd_at_add h] at this
          exact absurd (show (0 : UInt8) = Ch.u by simpa using this) (by decide)
        · simp at hl
          exact hex4_short (p := src + 2) h.succ.succ (by omega)
      rw [hnone, lowEsc_short _ hl]
      simp only [Option.getD_none, hor, ne_eq, not_false_eq_true, if_true]
    · obtain ⟨x, y, a, b, c, d, r', rfl⟩ := exists_six hl
      have hx : x = Ch.bslash := (rd_at h).symm.trans hxy.1
      have hy : y = Ch.u := (rd_at h.succ).symm.trans hxy.2
      subst hx hy
      have h2 : At buf (src + 2) (a :: b :: c :: d :: r') := h.succ.succ
      have h6 : At buf (src + 6) r' := h2.succ.succ.succ.succ
      rw [hex4_at h2, lowEsc]
      simp only [and_self, if_true]
      cases hlo : hex4 a b c d with
      | none => simp only [Option.getD_none, hor, ne_eq, not_false_eq_true, if_true]
      | some lo =>
        have hlolt := hex4_lt hlo
        have hor : (cp ||| lo) >>> 16 = 0 := by
          rw [Nat.shiftRight_eq_div_pow]
          exact Nat.div_eq_of_lt (Nat.or_lt_two_pow (by omega) (by omega))
        simp only [Option.getD_some, hor, ne_eq, not_true_eq_false, if_false]
        by_cases hl2 : IsLow lo
        · have hl2' : ¬ (lo < 0xdc00 ∨ lo > 0xdfff) := by
            have := hl2.1
            have := hl2.2
            omega
          have hw := codepoint_to_utf8_eq (pairValue_le hhigh hl2)
          have hpos := h6.pos_eq
          have hpair := @pairValue_eq cp lo hl2
          rw [if_neg hl2', if_pos hl2]
          simp only [hpair, hw, (utf8_length (pairValue cp lo)).1, decide_true, ← hpos]
        · have hl2' : lo < 0xdc00 ∨ lo > 0xdfff := by
            by_contra hc
            exact hl2 ⟨by omega, by omega⟩
          rw [if_pos hl2', if_neg hl2]

/-- The decoder of an escape and the same on the text accept the same escapes, and agree on what is
written and on where they stop. -/
theorem handle_unicode_codepoint_eq {buf s : Bytes} {src : ℕ}
    (h : At buf src (Ch.bslash :: Ch.u :: s)) :
    handle_unicode_codepoint buf src =
      match unicodeEsc s with
      | some (w, r) => (true, buf.length - r.length, w)
      | none => (false, src + 6, []) := by
  have h2 : At buf (src + 2) s := h.succ.succ
  unfold handle_unicode_codepoint
  rw [hex_to_u32_nocheck_eq]
  by_cases hs : s.length < 4
  · rw [hex4_short h2 hs]
    have : unicodeEsc s = none := by
      unfold unicodeEsc
      split
      · simp at hs
        omega
      · rfl
    rw [this]
    simp [codepoint_to_utf8]
  obtain ⟨a, b, c, d, r, rfl⟩ : ∃ a b c d r, s = a :: b :: c :: d :: r := by
    rcases s with _ | ⟨_, _ | ⟨_, _ | ⟨_, _ | ⟨_, _⟩⟩⟩⟩ <;> simp at hs
    exact ⟨_, _, _, _, _, rfl⟩
  have h6 : At buf (src + 6) r := h2.succ.succ.succ.succ
  rw [hex4_at h2, unicodeEsc]
  cases hcp : hex4 a b c d with
  | none => simp [codepoint_to_utf8]
  | some cp =>
    have hlt := hex4_lt hcp
    simp only [Option.getD_some]
    by_cases hlow : IsLow cp
    · have : cp ≥ 0xdc00 ∧ cp ≤ 0xdfff := ⟨hlow.1, Nat.le_of_lt_succ hlow.2⟩
      rw [if_pos this, if_pos hlow]
    have hlow' : ¬ (cp ≥ 0xdc00 ∧ cp ≤ 0xdfff) := fun hc => hlow ⟨hc.1, Nat.lt_succ_of_le hc.2⟩
    rw [if_neg hlow', if_neg hlow]
    by_cases hhigh : IsHigh cp
    · have hhigh' : cp ≥ 0xd800 ∧ cp < 0xdc00 := hhigh
      rw [if_pos hhigh, if_pos hhigh', handle_low_eq h6 hhigh]
    · have hhigh' : ¬ (cp ≥ 0xd800 ∧ cp < 0xdc00) := hhigh
      have hw := codepoint_to_utf8_eq (show cp ≤ 0x10FFFF by omega)
      have hpos := h6.pos_eq
      rw [if_neg hhigh', if_neg hhigh]
      simp only [hw, (utf8_length cp).1, decide_true, ← hpos]

end SonicJson
