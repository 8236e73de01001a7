/-
# What a unicode escape denotes

Four hex digits denote a code point that is no surrogate, and two escapes of a high and a
low surrogate together one beyond the first plane (`Denotes`). The decoder succeeds on
these and no others, writes the UTF-8 of the code point, and ends behind the escapes: so
where it writes at or before the place it reads, it stays behind what it has read
(`handle_unicode_codepoint_spec`).
-/
import SonicJson.Unescape

namespace SonicJson

open Cursor

/-- The text after a backslash and `u` begins with the rest of an escape that denotes `cp`, of `n`
bytes with these two. -/
inductive Denotes : Bytes → ℕ → ℕ → Prop
  | unit {a b c d : UInt8} {cp : ℕ} {r : Bytes} : hex4 a b c d = some cp → ¬ IsHigh cp → ¬ IsLow cp →
      Denotes (a :: b :: c :: d :: r) cp 6
  | pair {a b c d a' b' c' d' : UInt8} {hi lo : ℕ} {r : Bytes} : hex4 a b c d = some hi → IsHigh hi →
      hex4 a' b' c' d' = some lo → IsLow lo →
      Denotes (a :: b :: c :: d :: Ch.bslash :: Ch.u :: a' :: b' :: c' :: d' :: r) (pairValue hi lo) 12

section
variable {s w r : Bytes} {cp n : ℕ}

/-- It is a scalar value. -/
theorem Denotes.isValidChar (h : Denotes s cp n) : cp.isValidChar := by
  cases h with
  | unit h hh hl =>
    have hlt := hex4_lt h
    unfold IsHigh at hh
    unfold IsLow at hl
    unfold Nat.isValidChar
    omega
  | @pair _ _ _ _ _ _ _ _ hi lo _ h hh h' hl =>
    have hle := pairValue_le hh hl
    have hge : 0x10000 ≤ pairValue hi lo := Nat.le_add_left _ _
    exact .inr ⟨lt_of_lt_of_le (by decide) hge, Nat.lt_succ_of_le hle⟩

/-- No more bytes than the escape has. -/
theorem Denotes.length (h : Denotes s cp n) :
    (n = 6 ∨ n = 12) ∧ (utf8 cp).length ≤ n ∧ n ≤ s.length + 2 := by
  have hle := (utf8_length cp).2
  cases h with
  | unit => exact ⟨.inl rfl, by omega, by simp⟩
  | pair => exact ⟨.inr rfl, by omega, by simp⟩

theorem Denotes.unicodeEsc (h : Denotes s cp n) : unicodeEsc s = some (utf8 cp, s.drop (n - 2)) := by
  cases h with
  | unit h hh hl => exact unicodeEsc_unit h hl hh
  | pair h hh h' hl => exact unicodeEsc_pair h hh h' hl

/-- The decoder on the text decodes what the escapes denote. -/
theorem unicodeEsc_iff : unicodeEsc s = some (w, r) ↔ ∃ cp n, Denotes s cp n ∧ w = utf8 cp ∧
    r = s.drop (n - 2) := by
  constructor
  · intro h
    unfold SonicJson.unicodeEsc at h
    split at h
    · split at h
      · cases h
      · rename_i cp hcp
        split_ifs at h with hl hh
        · unfold lowEsc at h
          split at h
          · split_ifs at h with hxy
            obtain ⟨rfl, rfl⟩ := hxy
            split at h
            · cases h
            · rename_i lo hlo
              split_ifs at h with hl'
              obtain ⟨rfl, rfl⟩ := Prod.mk.inj (Option.some.inj h)
              exact ⟨_, _, .pair hcp hh hlo hl', rfl, rfl⟩
          · cases h
        · obtain ⟨rfl, rfl⟩ := Prod.mk.inj (Option.some.inj h)
          exact ⟨_, _, .unit hcp hh hl, rfl, rfl⟩
    · cases h
  · rintro ⟨cp, n, h, rfl, rfl⟩
    exact h.unicodeEsc

/-- The encoding of the standard library. -/
theorem utf8_eq (h : cp.isValidChar) : utf8 cp = String.utf8EncodeChar (Char.ofNat cp) := by
  have hval : (Char.ofNat cp).val.toNat = cp := by
    unfold Char.ofNat
    rw [dif_pos h]
    rfl
  have hlt : cp < 0x110000 := by
    unfold Nat.isValidChar at h
    omega
  unfold utf8 String.utf8EncodeChar
  rw [hval]
  dsimp only
  split_ifs with h1 h2 h3
  · rfl
  · rw [Nat.mod_eq_of_lt (show cp / 64 < 32 by omega)]
  · rw [Nat.mod_eq_of_lt (show cp / 4096 < 16 by omega)]
  · rw [Nat.mod_eq_of_lt (show cp / 262144 < 8 by omega)]

/-- **Unicode escapes decode exactly.** -/
theorem handle_unicode_codepoint_spec {buf s : Bytes} {src : ℕ}
    (h : At buf src (Ch.bslash :: Ch.u :: s)) :
    ((handle_unicode_codepoint buf src).1 = true ↔ ∃ cp n, Denotes s cp n) ∧
      ∀ cp n, Denotes s cp n → cp.isValidChar ∧ (n = 6 ∨ n = 12) ∧
        handle_unicode_codepoint buf src = (true, src + n, String.utf8EncodeChar (Char.ofNat cp)) ∧
        ∀ dst ≤ src, dst + (String.utf8EncodeChar (Char.ofNat cp)).length ≤ src + n := by
  have heq := handle_unicode_codepoint_eq h
  constructor
  · cases hesc : unicodeEsc s with
    | none =>
      rw [heq, hesc]
      refine iff_of_false Bool.false_ne_true ?_
      rintro ⟨cp, n, hd⟩
      rw [hd.unicodeEsc] at hesc
      cases hesc
    | some wr =>
      obtain ⟨w, r⟩ := wr
      rw [heq, hesc]
      obtain ⟨cp, n, hd, -, -⟩ := unicodeEsc_iff.mp hesc
      exact iff_of_true rfl ⟨cp, n, hd⟩
  · intro cp n hd
    obtain ⟨hn, hlen, hle⟩ := hd.length
    have hvalid := hd.isValidChar
    have hlength := congrArg List.length h.drop
    rw [List.length_drop, List.length_cons, List.length_cons] at hlength
    have hend : buf.length - (s.drop (n - 2)).length = src + n := by
      rw [List.length_drop]
      omega
    rw [heq, hd.unicodeEsc, ← utf8_eq hvalid]
    refine ⟨hvalid, hn, ?_, fun dst hdst => by omega⟩
    dsimp only
    rw [hend]

/-- The escapes `\ud83d\ude0a`. -/
theorem handle_unicode_codepoint_smile :
    ((handle_unicode_codepoint [92, 117, 100, 56, 51, 100, 92, 117, 100, 101, 48, 97] 0).1 = true ↔
        ∃ cp n, Denotes [100, 56, 51, 100, 92, 117, 100, 101, 48, 97] cp n) ∧
      ∀ cp n, Denotes [100, 56, 51, 100, 92, 117, 100, 101, 48, 97] cp n → cp.isValidChar ∧
        (n = 6 ∨ n = 12) ∧
        handle_unicode_codepoint [92, 117, 100, 56, 51, 100, 92, 117, 100, 101, 48, 97] 0 =
          (true, 0 + n, String.utf8EncodeChar (Char.ofNat cp)) ∧
        ∀ dst ≤ 0, dst + (String.utf8EncodeChar (Char.ofNat cp)).length ≤ 0 + n :=
  handle_unicode_codepoint_spec (at_zero _)

end

end SonicJson
