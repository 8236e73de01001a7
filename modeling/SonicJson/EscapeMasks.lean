/-
# The masks of the escaped bytes, block by block

`GetEscaped` says which bytes of a block are escaped, given whether the first one is, and
passes on whether the byte after the block is. Folded over the blocks of a text this is
the rule for one byte after the other (`escapedMasks_spec`): a byte is escaped if the byte
before is a backslash that is not escaped itself. A block without a backslash needs no call
(`escapedStep_eq`), which `GetStringBits` makes use of.
-/
import SonicJson.SkipContainer

namespace SonicJson

open Cursor

/-- The scalar rule: whether the byte at `i` is escaped. -/
def escaped (data : Bytes) : ℕ → Bool := escAt (fun i => rd data i == Ch.bslash) false

section
variable (n : ℕ) (data : Bytes)

/-- The masks of the escaped bytes of `m` blocks from `pos` on, and the flag after them. -/
def escapedMasks : ℕ → ℕ → BitVec 64 → List (BitVec 64) × BitVec 64
  | 0, _, prev_escaped => ([], prev_escaped)
  | m + 1, pos, prev_escaped =>
    let (mask, prev_escaped) := GetEscaped n prev_escaped (to_bitmask n data pos (· == Ch.bslash))
    let (masks, prev_escaped) := escapedMasks m (pos + n) prev_escaped
    (mask :: masks, prev_escaped)

/-- One block, without the call when it has no backslash. -/
def escapedStep (prev_escaped bs_bits : BitVec 64) : BitVec 64 × BitVec 64 :=
  if bs_bits ≠ 0 then GetEscaped n prev_escaped bs_bits else (prev_escaped, 0)

/-- The masks of `m` blocks, without the calls for blocks that have no backslash. -/
def escapedMasksSkipping : ℕ → ℕ → BitVec 64 → List (BitVec 64) × BitVec 64
  | 0, _, prev_escaped => ([], prev_escaped)
  | m + 1, pos, prev_escaped =>
    let (mask, prev_escaped) := escapedStep n prev_escaped (to_bitmask n data pos (· == Ch.bslash))
    let (masks, prev_escaped) := escapedMasksSkipping m (pos + n) prev_escaped
    (mask :: masks, prev_escaped)

end

section
variable {n m pos i : ℕ} {data : Bytes} {prev : Bool}

/-- The masks that `GetStringBits` takes the quotes out of the text with. -/
theorem GetStringBits_escaped (data : Bytes) (p : ℕ) (prev_instring prev_escaped : BitVec 64) :
    GetStringBits data p prev_instring prev_escaped =
      (let (escaped, next) := escapedStep 64 prev_escaped (to_bitmask 64 data p (· == Ch.bslash))
      let in_string :=
        Bits.prefixXor (to_bitmask 64 data p (· == Ch.quote) &&& ~~~escaped) ^^^ prev_instring
      (in_string, in_string.sshiftRight 63, next)) := rfl

/-- The rule goes on from any place. -/
theorem escAt_add (bs : ℕ → Bool) (prev : Bool) (a : ℕ) :
    ∀ i, escAt bs prev (a + i) = escAt (fun j => bs (a + j)) (escAt bs prev a) i
  | 0 => rfl
  | i + 1 => by
    rw [← Nat.add_assoc, escAt, escAt_add bs prev a i]
    rfl

/-- The backslashes of a block, for the bytes up to the one after it. -/
theorem escAt_to_bitmask (hn : n ≤ 64) (hi : i ≤ n) :
    escAt (to_bitmask n data pos (· == Ch.bslash)).getLsbD prev i =
      escAt (fun j => rd data (pos + j) == Ch.bslash) prev i := by
  apply escAt_congr
  intro j hj
  rw [getLsbD_to_bitmask hn, decide_eq_true (hj.trans_le hi), Bool.true_and]

/-- One block, from the state of the scalar rule to that after it. -/
theorem GetEscaped_block (h0 : 0 < n) (hn : n ≤ 64) :
    (∀ i < n, (GetEscaped n (flag (escaped data pos))
    (to_bitmask n data pos (· == Ch.bslash))).1.getLsbD i = escaped data (pos + i)) ∧
      (GetEscaped n (flag (escaped data pos)) (to_bitmask n data pos (· == Ch.bslash))).2 =
        flag (escaped data (pos + n)) := by
  have hrule : ∀ i ≤ n, escAt (to_bitmask n data pos (· == Ch.bslash)).getLsbD (escaped data pos)
      i = escaped data (pos + i) := by
    intro i hi
    rw [escAt_to_bitmask hn hi, escaped, escAt_add]
  constructor
  · intro i hi
    rw [getLsbD_GetEscaped _ _ (hi.trans_le hn), hrule i hi.le]
  · obtain ⟨k, rfl⟩ : ∃ k, n = k + 1 := ⟨n - 1, by omega⟩
    rw [GetEscaped_next hn, hrule _ le_rfl]

/-- A block without a backslash: only the flag is passed into it, and none on. -/
theorem escapedStep_eq (prev_escaped bs_bits : BitVec 64) :
    escapedStep n prev_escaped bs_bits = GetEscaped n prev_escaped bs_bits := by
  unfold escapedStep
  by_cases hbs : bs_bits = 0
  · rw [if_neg (not_not_intro hbs), hbs]
    have hodd : Bits.oddRunEnds 0#64 = 0#64 := by
      unfold Bits.oddRunEnds
      simp
    unfold GetEscaped
    simp [hodd]
  · rw [if_pos hbs]

theorem escapedMasksSkipping_eq : ∀ (m pos : ℕ)
    (prev : BitVec 64), escapedMasksSkipping n data m pos prev = escapedMasks n data m pos prev
  | 0, _, _ => rfl
  | m + 1, pos, prev => by
    rw [escapedMasksSkipping, escapedMasks, escapedStep_eq]
    dsimp only
    rw [escapedMasksSkipping_eq m]

/-- The blocks from `pos` on, when the flag is that of the scalar rule. -/
theorem escapedMasks_from (h0 : 0 < n) (hn : n ≤ 64) : ∀ m pos : ℕ,
    (∀ i < m * n, ((escapedMasks n data m pos (flag (escaped data pos))).1.getD (i / n) 0).getLsbD
    (i % n) = escaped data (pos + i)) ∧
      (escapedMasks n data m pos (flag (escaped data pos))).1.length = m ∧
      (escapedMasks n data m pos (flag (escaped data pos))).2 = flag (escaped data (pos + m * n)) := by
  intro m
  induction m with
  | zero =>
    intro pos
    rw [Nat.zero_mul]
    exact ⟨fun i hi => absurd hi (Nat.not_lt_zero i), rfl, rfl⟩
  | succ m ih =>
    intro pos
    obtain ⟨hmask, hnext⟩ := @GetEscaped_block n pos data h0 hn
    obtain ⟨h1, h2, h3⟩ := ih (pos + n)
    rw [escapedMasks]
    dsimp only
    rw [hnext]
    refine ⟨fun i hi => ?_, by rw [List.length_cons, h2], ?_⟩
    · rcases Nat.lt_or_ge i n with hlt | hge
      · rw [Nat.div_eq_of_lt hlt, Nat.mod_eq_of_lt hlt, List.getD_cons_zero, hmask i hlt]
      · -- a later block
        obtain ⟨j, rfl⟩ := Nat.exists_eq_add_of_le hge
        rw [Nat.add_div_left j h0, Nat.add_mod_left, List.getD_cons_succ,
          h1 j (by rw [Nat.add_mul, Nat.one_mul] at hi; omega), Nat.add_assoc]
    · rw [h3, Nat.add_mul, Nat.one_mul, Nat.add_assoc, Nat.add_comm n]

/-- **The masks compose**: over all blocks they mark the bytes that the scalar rule marks, what is
passed on is the escape that is pending, and the calls for blocks without backslashes can be left
out. -/
theorem escapedMasks_spec (data : Bytes) (m : ℕ) {n : ℕ} (hn : n = 32 ∨ n = 64) :
    (∀ i < m * n, ((escapedMasks n data m 0 0).1.getD (i / n) 0).getLsbD (i % n) = escaped data i) ∧
      (escapedMasks n data m 0 0).1.length = m ∧
      (escapedMasks n data m 0 0).2 = flag (escaped data (m * n)) ∧
      escapedMasksSkipping n data m 0 0 = escapedMasks n data m 0 0 := by
  obtain ⟨h1, h2, h3⟩ := @escapedMasks_from n data (by omega) (by omega) m 0
  have hzero : flag (escaped data 0) = 0 := rfl
  rw [hzero, Nat.zero_add] at h3
  rw [hzero] at h1 h2
  refine ⟨fun i hi => ?_, h2, h3, escapedMasksSkipping_eq m 0 0⟩
  rw [h1 i hi, Nat.zero_add]

/-- A text of 64 bytes in two blocks of 32. -/
theorem escapedMasks_spec_two :
    (∀ i < 2 * 32, ((escapedMasks 32 (List.replicate 33 92 ++ List.replicate 31 34) 2 0 0).1.getD
    (i / 32) 0).getLsbD (i % 32) =
        escaped (List.replicate 33 92 ++ List.replicate 31 34) i) ∧
      (escapedMasks 32 (List.replicate 33 92 ++ List.replicate 31 34) 2 0 0).1.length = 2 ∧
      (escapedMasks 32 (List.replicate 33 92 ++ List.replicate 31 34) 2 0 0).2 =
        flag (escaped (List.replicate 33 92 ++ List.replicate 31 34) (2 * 32)) ∧
      escapedMasksSkipping 32 (List.replicate 33 92 ++ List.replicate 31 34) 2 0 0 =
        escapedMasks 32 (List.replicate 33 92 ++ List.replicate 31 34) 2 0 0 :=
  escapedMasks_spec _ 2 (.inl rfl)

end

end SonicJson
