/-
# Comparing memory by vectors

`InlinedMemcmpEq` and `InlinedMemcmp` compare 32 bytes at a time. The mask of the lanes that
are equal, plus one, has the first difference as its lowest bit (`Bits.firstFalse`); a short
string is compared by one block whose lanes behind it are cleared, or, where the block would
leave its page, by loads that overlap; the last block of a long one overlaps the block before
it. The results are those of `memcmp` for all lengths and addresses
(`InlinedMemcmp_spec`), and the order of the member map is the lexicographic one
(`Less_iff`).
-/
import SonicJson.Bytes
import SonicJson.Lib.Bits

namespace Bits

/-- Adding one turns the run of set bits at the bottom. -/
theorem getLsbD_add_one {w i : ℕ} (x : BitVec w) (hi : i < w) :
    (x + 1#w).getLsbD i = (!x.getLsbD i ^^ decide (∃ j < i, x.getLsbD j = false)) := by
  have h : x + 1#w = -(~~~x) := by rw [BitVec.neg_eq_not_add, BitVec.not_not]
  have hbit : (∃ j < i, (~~~x).getLsbD j = true) ↔ ∃ j < i, x.getLsbD j = false := by
    refine exists_congr fun j => and_congr_right fun hj => ?_
    rw [BitVec.getLsbD_not, decide_eq_true (hj.trans hi), Bool.true_and, Bool.not_eq_true']
  rw [h, BitVec.getLsbD_neg, BitVec.getLsbD_not, decide_eq_true hi, Bool.true_and, Bool.true_and]
  simp only [hbit]

/-- The first of `s` positions where `p` fails, from a mask that has its bits below `s` from adding
one. -/
theorem firstFalse {w s : ℕ} {x : BitVec w} {p : ℕ → Bool} (hs : s ≤ w)
    (hx : ∀ i < w, x.getLsbD i = (decide (i < s) && (!p i ^^ decide (∃ j < i, p j = false)))) :
    ((∀ i < s, p i = true) → x = 0) ∧ ∀ k < s, (∀ j < k, p j = true) → p k = false → x ≠ 0 ∧
    ctz x = k := by
  constructor
  · intro hall
    refine (eq_zero_iff x).mpr fun i hi => ?_
    rw [hx i hi]
    by_cases h : i < s
    · have hno : ¬ ∃ j < i, p j = false := by
        rintro ⟨j, hj, hf⟩
        rw [hall j (hj.trans h)] at hf
        cases hf
      rw [hall i h, decide_eq_false hno]
      simp
    · rw [decide_eq_false h, Bool.false_and]
  · intro k hk hlt hf
    have hno : ∀ i ≤ k, ¬ ∃ j < i, p j = false := by
      rintro i hi ⟨j, hj, hf⟩
      rw [hlt j (hj.trans_le hi)] at hf
      cases hf
    have hbit : x.getLsbD k = true := by
      rw [hx k (hk.trans_le hs), decide_eq_true hk, hf, decide_eq_false (hno k le_rfl)]
      rfl
    refine ⟨fun h0 => ?_, first_eq (hk.trans_le hs) hbit fun i hi => ?_⟩
    · rw [h0] at hbit
      simp at hbit
    · rw [hx i (hi.trans (hk.trans_le hs)), hlt i hi, decide_eq_false (hno i hi.le)]
      simp

end Bits

namespace SonicJson

namespace Memcmp

/-! ### The comparisons -/

-- memory, and whether the build has a sanitizer
variable (mem : ℕ → UInt8) (sanitize : Bool)

/-- A block of 32 bytes at each of the two addresses is inside of a page. -/
def in_page_32 (a b : ℕ) : Bool := !sanitize && decide ((a ||| b) &&& (4096 - 1) ≤ 4096 - 32)

/-- The lanes in which two blocks of 32 bytes are equal, as `movemask` has them. -/
def cmpeq256 (a b : ℕ) : BitVec 32 := Bits.ofPred 32 fun i => mem (a + i) == mem (b + i)

/-- The same for blocks of 16 bytes. -/
def cmpeq128 (a b : ℕ) : BitVec 32 :=
  Bits.ofPred 32 fun i => decide (i < 16) && mem (a + i) == mem (b + i)

/-- Clears the bits from `index` on. -/
def bzhil (index : ℕ) (mask : BitVec 32) : BitVec 32 :=
  if index % 256 < 32 then mask &&& ((1#32 <<< (index % 256)) - 1#32) else mask

/-- `lhs[i] - rhs[i]`. -/
def byteDiff (l r : ℕ) : ℤ := (mem l).toNat - (mem r).toNat

/-- `std::memcmp`. -/
def memcmp : ℕ → ℕ → ℕ → ℤ
  | _, _, 0 => 0
  | l, r, s + 1 => if mem l = mem r then memcmp (l + 1) (r + 1) s else byteDiff mem l r

def cmp_lt_32 (lhs rhs s : ℕ) : ℤ :=
  if in_page_32 sanitize lhs rhs then
    let mask := bzhil s (cmpeq256 mem rhs lhs + 1)
    if mask ≠ 0 then
      let ne_idx := Bits.ctz mask
      byteDiff mem (lhs + ne_idx) (rhs + ne_idx)
    else 0
  else memcmp mem lhs rhs s

def is_eq_lt_32_cross_page (a b s : ℕ) : Bool :=
  if 16 ≤ s then (cmpeq128 mem a b &&& cmpeq128 mem (a + s - 16) (b + s - 16)) == 0xFFFF#32
  else if 8 ≤ s then memcmp mem a b 8 == 0 && memcmp mem (a + s - 8) (b + s - 8) 8 == 0
  else if 4 ≤ s then memcmp mem a b 4 == 0 && memcmp mem (a + s - 4) (b + s - 4) 4 == 0
  else if 2 ≤ s then memcmp mem a b 2 == 0 && memcmp mem (a + s - 2) (b + s - 2) 2 == 0
  else mem a == mem b

def is_eq_lt_32 (a b s : ℕ) : Bool :=
  if in_page_32 sanitize a b then bzhil s (cmpeq256 mem a b + 1) == 0
    else is_eq_lt_32_cross_page mem a b s

/-- The loop over the blocks in the middle. -/
def eqBlocks (a b avx2_end : ℕ) : ℕ → ℕ → Bool
  | 0, _ => true
  | fuel + 1, i =>
    if i < avx2_end then
      if cmpeq256 mem (a + i) (b + i) + 1 ≠ 0 then false else eqBlocks a b avx2_end fuel (i + 32)
    else true

def InlinedMemcmpEq (a b s : ℕ) : Bool :=
  if s = 0 then true
  else if s < 32 then is_eq_lt_32 mem sanitize a b s
  else
    let avx2_end := s / 32 * 32
    let ans_1 := cmpeq256 mem a b
    if eqBlocks mem a b avx2_end s 32 then
      !decide ((cmpeq256 mem (a + s - 32) (b + s - 32) &&& ans_1) + 1 ≠ 0)
    else false

/-- The loop over the blocks in the middle; `none` where it finds no difference. -/
def cmpBlocks (lhs rhs avx2_end : ℕ) : ℕ → ℕ → Option ℤ
  | 0, _ => none
  | fuel + 1, i =>
    if i < avx2_end then
      let mask := cmpeq256 mem (lhs + i) (rhs + i) + 1
      if mask ≠ 0 then
        let ne_idx := Bits.ctz mask
        some (byteDiff mem (lhs + (i + ne_idx)) (rhs + (i + ne_idx)))
      else cmpBlocks lhs rhs avx2_end fuel (i + 32)
    else none

def InlinedMemcmp (lhs rhs s : ℕ) : ℤ :=
  if s = 0 then 0
  else if s < 32 then cmp_lt_32 mem sanitize lhs rhs s
  else
    let avx2_end := s / 32 * 32
    let mask := cmpeq256 mem lhs rhs + 1
    if mask ≠ 0 then
      let ne_idx := Bits.ctz mask
      byteDiff mem (lhs + ne_idx) (rhs + ne_idx)
    else
      match cmpBlocks mem lhs rhs avx2_end s 32 with
      | some c => c
      | none =>
        let offset := s - 32
        let mask := cmpeq256 mem (lhs + offset) (rhs + offset) + 1
        if mask ≠ 0 then
          let ne_idx := Bits.ctz mask
          byteDiff mem (lhs + (offset + ne_idx)) (rhs + (offset + ne_idx))
        else 0

/-- A view of memory. -/
structure StringView where
  data : ℕ
  size : ℕ

/-- The order of the member map. -/
def Less (s1 s2 : StringView) : Bool :=
  let n1 := s1.size
  let n2 := s2.size
  let len := min n1 n2
  let cmp := InlinedMemcmp mem sanitize s1.data s2.data len
  decide (cmp < 0) || (decide (cmp = 0) && decide (n1 < n2))

/-! ### What they compare -/

/-- The first `s` bytes are the same. -/
def Same (l r s : ℕ) : Prop := ∀ i < s, mem (l + i) = mem (r + i)

/-- `c` is what comparing `s` bytes comes to: the difference of the first two bytes that are not the
same. -/
inductive Compared (l r s : ℕ) : ℤ → Prop
  | same : Same mem l r s → Compared l r s 0
  | diff {k : ℕ} : k < s → Same mem l r k → mem (l + k) ≠ mem (r + k) →
    Compared l r s (byteDiff mem (l + k) (r + k))

section
variable {mem : ℕ → UInt8} {sanitize : Bool} {a b l r s k : ℕ} {c : ℤ}

theorem Same.mono (h : Same mem a b s) (hk : k ≤ s) : Same mem a b k := fun i hi => h i (hi.trans_le hk)

theorem Same.symm (h : Same mem a b s) : Same mem b a s := fun i hi => (h i hi).symm

/-- What is the same up to `i`, and from there on. -/
theorem same_add {i n : ℕ} : Same mem a b (i + n) ↔ Same mem a b i ∧ Same mem (a + i) (b + i) n := by
  constructor
  · intro h
    refine ⟨h.mono (Nat.le_add_right i n), fun j hj => ?_⟩
    have := h (i + j) (by omega)
    rwa [← Nat.add_assoc, ← Nat.add_assoc] at this
  · rintro ⟨h1, h2⟩ j hj
    rcases Nat.lt_or_ge j i with hlt | hge
    · exact h1 j hlt
    · have := h2 (j - i) (by omega)
      rwa [Nat.add_assoc, Nat.add_assoc, Nat.add_sub_cancel' hge] at this

theorem same_or_diff (mem : ℕ → UInt8) (a b : ℕ) :
    ∀ s, Same mem a b s ∨ ∃ k < s, Same mem a b k ∧ mem (a + k) ≠ mem (b + k)
  | 0 => .inl fun _ hi => absurd hi (Nat.not_lt_zero _)
  | s + 1 => by
    rcases same_or_diff mem a b s with h | ⟨k, hk, h⟩
    · by_cases he : mem (a + s) = mem (b + s)
      · refine .inl fun i hi => ?_
        rcases Nat.lt_succ_iff_lt_or_eq.mp hi with hlt | rfl
        · exact h i hlt
        · exact he
      · exact .inr ⟨s, Nat.lt_succ_self s, h, he⟩
    · exact .inr ⟨k, hk.trans (Nat.lt_succ_self s), h⟩

/-- **A mask from adding one**: zero where the bytes below `s` are the same, else its lowest bit is
at the first difference. -/
theorem mask_spec {x : BitVec 32} (hs : s ≤ 32)
    (hx : ∀ i < 32, x.getLsbD i = (decide (i < s) && (cmpeq256 mem a b + 1).getLsbD i)) :
    (Same mem a b s → x = 0) ∧ ∀ k < s, Same mem a b k → mem (a + k) ≠ mem (b + k) → x ≠ 0 ∧
    Bits.ctz x = k := by
  have hbit : ∀ i < 32, (cmpeq256 mem a b).getLsbD i = (mem (a + i) == mem (b + i)) := by
    intro i hi
    rw [cmpeq256, Bits.getLsbD_ofPred, decide_eq_true hi, Bool.true_and]
  obtain ⟨h1, h2⟩ := @Bits.firstFalse 32 s x (fun i => mem (a + i) == mem (b + i)) hs (by
    intro i hi
    have hex : (∃ j < i, (cmpeq256 mem a b).getLsbD j = false) ↔
      ∃ j < i, (mem (a + j) == mem (b + j)) = false :=
      exists_congr fun j => and_congr_right fun hj => by rw [hbit j (hj.trans hi)]
    rw [hx i hi, show (1 : BitVec 32) = 1#32 from rfl, Bits.getLsbD_add_one _ hi, hbit i hi]
    simp only [hex])
  refine ⟨fun h => h1 fun i hi => beq_iff_eq.mpr (h i hi), fun k hk h hne => ?_⟩
  exact h2 k hk (fun j hj => beq_iff_eq.mpr (h j hj)) (beq_eq_false_iff_ne.mpr hne)

/-- A whole block. -/
theorem block_spec (mem : ℕ → UInt8) (a b : ℕ) : (Same mem a b 32 → cmpeq256 mem a b + 1 = 0) ∧
    ∀ k < 32, Same mem a b k → mem (a + k) ≠ mem (b + k) → cmpeq256 mem a b + 1 ≠ 0 ∧
      Bits.ctz (cmpeq256 mem a b + 1) = k :=
  mask_spec le_rfl fun i hi => by rw [decide_eq_true hi, Bool.true_and]

/-- The lanes below `s`. -/
theorem bzhil_spec (mem : ℕ → UInt8) (a b : ℕ) (hs : s < 32) :
    (Same mem a b s → bzhil s (cmpeq256 mem a b + 1) = 0) ∧
    ∀ k < s, Same mem a b k → mem (a + k) ≠ mem (b + k) → bzhil s (cmpeq256 mem a b + 1) ≠ 0 ∧
      Bits.ctz (bzhil s (cmpeq256 mem a b + 1)) = k := by
  refine mask_spec hs.le fun i _ => ?_
  rw [bzhil, Nat.mod_eq_of_lt (by omega), if_pos hs, BitVec.getLsbD_and,
    Bits.getLsbD_shift_sub_one hs, Bool.and_comm]

/-- What a mask that meets the specification of `s` bytes says. -/
theorem mask_ne_zero {x : BitVec 32} (h : (Same mem a b s → x = 0) ∧
    ∀ k < s, Same mem a b k → mem (a + k) ≠ mem (b + k) → x ≠ 0 ∧ Bits.ctz x = k) :
    (x = 0 ↔ Same mem a b s) ∧ (x ≠ 0 → Bits.ctz x < s ∧ Same mem a b (Bits.ctz x) ∧
      mem (a + Bits.ctz x) ≠ mem (b + Bits.ctz x)) := by
  obtain ⟨h1, h2⟩ := h
  rcases same_or_diff mem a b s with hs | ⟨k, hk, hsame, hne⟩
  · exact ⟨iff_of_true (h1 hs) hs, fun hc => absurd (h1 hs) hc⟩
  · obtain ⟨h3, h4⟩ := h2 k hk hsame hne
    refine ⟨iff_of_false h3 fun hs => hne (hs k hk), fun _ => ?_⟩
    rw [h4]
    exact ⟨hk, hsame, hne⟩

theorem memcmp_compared (mem : ℕ → UInt8) : ∀ l r s, Compared mem l r s (memcmp mem l r s)
  | l, r, 0 => .same fun _ hi => absurd hi (Nat.not_lt_zero _)
  | l, r, s + 1 => by
    have hone : ∀ {n}, mem l = mem r → Same mem (l + 1) (r + 1) n → Same mem l r (1 + n) := fun h0 h =>
      same_add.mpr ⟨fun i hi => by obtain rfl := Nat.lt_one_iff.mp hi; exact h0, h⟩
    rw [memcmp]
    by_cases h0 : mem l = mem r
    · rw [if_pos h0]
      have ih := memcmp_compared mem (l + 1) (r + 1) s
      generalize memcmp mem (l + 1) (r + 1) s = c at ih ⊢
      cases ih with
      | same h =>
        refine .same ?_
        rw [Nat.add_comm]
        exact hone h0 h
      | @diff k hk h hne =>
        rw [Nat.add_assoc, Nat.add_assoc] at hne ⊢
        exact .diff (by omega) (hone h0 h) hne
    · rw [if_neg h0]
      exact @Compared.diff _ _ _ _ 0 (Nat.succ_pos s) (fun _ hi => absurd hi (Nat.not_lt_zero _)) h0

theorem cmp_lt_32_compared (hs : s < 32) : Compared mem l r s (cmp_lt_32 mem sanitize l r s) := by
  unfold cmp_lt_32
  split
  · obtain ⟨h1, h2⟩ := mask_ne_zero (bzhil_spec mem r l hs)
    dsimp only
    generalize bzhil s (cmpeq256 mem r l + 1) = x at h1 h2
    by_cases hx : x ≠ 0
    · rw [if_pos hx]
      obtain ⟨h3, h4, h5⟩ := h2 hx
      exact .diff h3 h4.symm h5.symm
    · rw [if_neg hx]
      exact .same (h1.mp (not_not.mp hx)).symm
  · exact memcmp_compared mem l r s

theorem byteDiff_ne_zero (h : mem l ≠ mem r) : byteDiff mem l r ≠ 0 := by
  unfold byteDiff
  intro hc
  exact h (UInt8.toNat_inj.mp (by omega))

theorem Compared.eq_zero_iff (h : Compared mem l r s c) : c = 0 ↔ Same mem l r s := by
  cases h with
  | same h => exact iff_of_true rfl h
  | diff hk _ hne => exact iff_of_false (byteDiff_ne_zero hne) fun hs => hne (hs _ hk)

/-! ### Equality -/

/-- Two loads of `n` bytes that overlap, or meet, at the ends of a string. -/
theorem same_overlap {n : ℕ} (h1 : n ≤ s) (h2 : s ≤ 2 * n) :
    Same mem a b n ∧ Same mem (a + s - n) (b + s - n) n ↔ Same mem a b s := by
  have hsplit : Same mem a b s ↔ Same mem a b (s - n) ∧ Same mem (a + s - n) (b + s - n) n := by
    rw [Nat.add_sub_assoc h1, Nat.add_sub_assoc h1, ← same_add, Nat.sub_add_cancel h1]
  rw [hsplit]
  refine ⟨fun h => ⟨h.1.mono (by omega), h.2⟩, fun h => ⟨?_, h.2⟩⟩
  exact (hsplit.mpr h).mono h1

theorem memcmp_eq_zero : (memcmp mem l r s == 0) = true ↔ Same mem l r s := by
  rw [beq_iff_eq]
  exact (memcmp_compared mem l r s).eq_zero_iff

theorem cmpeq128_spec {a' b' : ℕ} : ((cmpeq128 mem a b &&& cmpeq128 mem a' b') == 0xFFFF#32) = true ↔
    Same mem a b 16 ∧ Same mem a' b' 16 := by
  have hbit : ∀ c d i, i < 32 →
      (cmpeq128 mem c d).getLsbD i = (decide (i < 16) && mem (c + i) == mem (d + i)) := by
    intro c d i hi
    rw [cmpeq128, Bits.getLsbD_ofPred, decide_eq_true hi, Bool.true_and]
  have hones : ∀ i < 32, (0xFFFF#32).getLsbD i = decide (i < 16) := by decide
  rw [beq_iff_eq]
  constructor
  · intro h
    have key : ∀ i < 16, mem (a + i) = mem (b + i) ∧ mem (a' + i) = mem (b' + i) := by
      intro i hi
      have := congrArg (fun x => x.getLsbD i) h
      simp only [BitVec.getLsbD_and] at this
      rw [hbit a b i (by omega), hbit a' b' i (by omega), hones i (by omega), decide_eq_true hi] at this
      simpa using this
    exact ⟨fun i hi => (key i hi).1, fun i hi => (key i hi).2⟩
  · rintro ⟨h1, h2⟩
    refine BitVec.eq_of_getLsbD_eq fun i hi => ?_
    rw [BitVec.getLsbD_and, hbit a b i hi, hbit a' b' i hi, hones i hi]
    by_cases h16 : i < 16
    · rw [beq_iff_eq.mpr (h1 i h16), beq_iff_eq.mpr (h2 i h16), decide_eq_true h16]
      rfl
    · rw [decide_eq_false h16]
      rfl

theorem is_eq_lt_32_cross_page_iff (h0 : 0 < s) (hs : s < 32) :
    is_eq_lt_32_cross_page mem a b s = true ↔ Same mem a b s := by
  have two : ∀ n, n ≤ s → s ≤ 2 * n →
      ((memcmp mem a b n == 0 && memcmp mem (a + s - n) (b + s - n) n == 0) = true ↔
        Same mem a b s) := by
    intro n h1 h2
    rw [Bool.and_eq_true, memcmp_eq_zero, memcmp_eq_zero, same_overlap h1 h2]
  unfold is_eq_lt_32_cross_page
  split_ifs with h16 h8 h4 h2
  · rw [cmpeq128_spec, same_overlap h16 (by omega)]
  · exact two 8 h8 (by omega)
  · exact two 4 h4 (by omega)
  · exact two 2 h2 (by omega)
  · obtain rfl : s = 1 := by omega
    rw [beq_iff_eq]
    exact ⟨fun h i hi => by obtain rfl := Nat.lt_one_iff.mp hi; exact h, fun h => h 0 Nat.one_pos⟩

theorem is_eq_lt_32_iff (h0 : 0 < s) (hs : s < 32) :
    is_eq_lt_32 mem sanitize a b s = true ↔ Same mem a b s := by
  unfold is_eq_lt_32
  split
  · rw [beq_iff_eq]
    exact (mask_ne_zero (bzhil_spec mem a b hs)).1
  · exact is_eq_lt_32_cross_page_iff h0 hs

theorem block_eq_zero : cmpeq256 mem a b + 1 = 0 ↔ Same mem a b 32 :=
  (mask_ne_zero (block_spec mem a b)).1

theorem eqBlocks_iff {e : ℕ} : ∀ fuel i, i ≤ e → 32 ∣ e - i → e ≤ i + 32 * fuel →
    (eqBlocks mem a b e fuel i = true ↔ Same mem (a + i) (b + i) (e - i))
  | 0, i, hi, _, hf => by
    obtain rfl : i = e := by omega
    rw [Nat.sub_self]
    exact iff_of_true rfl fun _ hj => absurd hj (Nat.not_lt_zero _)
  | fuel + 1, i, hi, hd, hf => by
    rw [eqBlocks]
    by_cases hlt : i < e
    · obtain ⟨n, hn⟩ : ∃ n, e - i = 32 + n ∧ n = e - (i + 32) := by
        have := Nat.le_of_dvd (by omega) hd
        exact ⟨_, by omega, rfl⟩
      rw [if_pos hlt, hn.1, same_add, ← block_eq_zero]
      by_cases h0 : cmpeq256 mem (a + i) (b + i) + 1 ≠ 0
      · rw [if_pos h0]
        exact iff_of_false (by decide) fun h => h0 h.1
      · rw [if_neg h0, eqBlocks_iff fuel (i + 32) (by omega) (by omega) (by omega), ← hn.2,
          Nat.add_assoc, Nat.add_assoc]
        exact ⟨fun h => ⟨not_not.mp h0, h⟩, fun h => h.2⟩
    · obtain rfl : i = e := by omega
      rw [if_neg hlt, Nat.sub_self]
      exact iff_of_true rfl fun _ hj => absurd hj (Nat.not_lt_zero _)

/-- The `and` of two masks has all lanes where both have. -/
theorem and_block {a' b' : ℕ} : (cmpeq256 mem a b &&& cmpeq256 mem a' b') + 1 = 0 ↔
    Same mem a b 32 ∧ Same mem a' b' 32 := by
  have hall : ∀ x : BitVec 32, x + 1 = 0 ↔ x = BitVec.allOnes 32 := by
    intro x
    constructor
    · intro h
      have := congrArg (· - (1 : BitVec 32)) h
      simpa using this
    · rintro rfl
      decide
  have hbits : ∀ x : BitVec 32, x = BitVec.allOnes 32 ↔ ∀ i < 32, x.getLsbD i = true := by
    intro x
    constructor
    · rintro rfl i hi
      rw [BitVec.getLsbD_allOnes, decide_eq_true hi]
    · intro h
      refine BitVec.eq_of_getLsbD_eq fun i hi => ?_
      rw [h i hi, BitVec.getLsbD_allOnes, decide_eq_true hi]
  rw [← block_eq_zero, ← block_eq_zero, hall, hall, hall, hbits, hbits, hbits]
  simp only [BitVec.getLsbD_and, Bool.and_eq_true]
  exact forall₂_and

/-- **Equality.** -/
theorem InlinedMemcmpEq_iff : InlinedMemcmpEq mem sanitize a b s = true ↔ Same mem a b s := by
  unfold InlinedMemcmpEq
  split_ifs with h0 hs
  · subst h0
    exact iff_of_true rfl fun _ hi => absurd hi (Nat.not_lt_zero _)
  · exact is_eq_lt_32_iff (by omega) hs
  · dsimp only
    have hblocks := @eqBlocks_iff mem a b (s / 32 * 32) s 32 (by omega) (by omega) (by omega)
    -- the first block and the last one, which may overlap the one before it
    have hlast : (!decide ((cmpeq256 mem (a + s - 32) (b + s - 32) &&& cmpeq256 mem a b) + 1 ≠ 0)) =
        true ↔
        Same mem a b 32 ∧ Same mem (a + s - 32) (b + s - 32) 32 := by
      rw [Bool.not_eq_true', decide_eq_false_iff_not, not_not, and_block, and_comm]
    have hsplit : Same mem a b s ↔ Same mem a b 32 ∧ Same mem (a + 32) (b + 32) (s / 32 * 32 - 32) ∧
        Same mem (a + s - 32) (b + s - 32) 32 := by
      have h1 : Same mem a b s ↔ Same mem a b (s - 32) ∧ Same mem (a + s - 32) (b + s - 32) 32 := by
        rw [Nat.add_sub_assoc (by omega), Nat.add_sub_assoc (by omega), ← same_add,
          Nat.sub_add_cancel (by omega)]
      have h2 : Same mem a b (s / 32 * 32) ↔ Same mem a b 32 ∧
          Same mem (a + 32) (b + 32) (s / 32 * 32 - 32) := by
        rw [← same_add, Nat.add_sub_cancel' (by omega)]
      rw [← and_assoc, ← h2]
      exact ⟨fun h => ⟨h.mono (by omega), (h1.mp h).2⟩, fun h => h1.mpr ⟨h.1.mono (by omega), h.2⟩⟩
    rw [hsplit]
    by_cases hb : eqBlocks mem a b (s / 32 * 32) s 32 = true
    · rw [if_pos hb, hlast]
      exact ⟨fun h => ⟨h.1, hblocks.mp hb, h.2⟩, fun h => ⟨h.1, h.2.2⟩⟩
    · rw [if_neg hb]
      exact iff_of_false (by decide) fun h => hb (hblocks.mpr h.2.1)

/-! ### The order -/

/-- A difference behind bytes that are the same. -/
theorem Compared.shift {i n : ℕ} (h1 : Same mem l r i) (hs : i + n ≤ s) (hk : k < n)
    (h2 : Same mem (l + i) (r + i) k) (hne : mem (l + i + k) ≠ mem (r + i + k)) :
    Compared mem l r s (byteDiff mem (l + (i + k)) (r + (i + k))) := by
  rw [Nat.add_assoc, Nat.add_assoc] at hne
  exact .diff (by omega) (same_add.mpr ⟨h1, h2⟩) hne

theorem cmpBlocks_compared {e : ℕ} (he : e ≤ s) :
    ∀ fuel i, Same mem l r i → i ≤ e → 32 ∣ e - i → e ≤ i + 32 * fuel →
    (∃ c, cmpBlocks mem l r e fuel i = some c ∧ Compared mem l r s c) ∨
    (cmpBlocks mem l r e fuel i = none ∧ Same mem l r e)
  | 0, i, h, hi, _, hf => by
    obtain rfl : i = e := by omega
    exact .inr ⟨rfl, h⟩
  | fuel + 1, i, h, hi, hd, hf => by
    rw [cmpBlocks]
    by_cases hlt : i < e
    · have hle := Nat.le_of_dvd (by omega) hd
      obtain ⟨h1, h2⟩ := mask_ne_zero (block_spec mem (l + i) (r + i))
      rw [if_pos hlt]
      dsimp only
      generalize cmpeq256 mem (l + i) (r + i) + 1 = x at h1 h2 ⊢
      by_cases h0 : x ≠ 0
      · rw [if_pos h0]
        obtain ⟨h3, h4, h5⟩ := h2 h0
        exact .inl ⟨_, rfl, .shift h (show i + 32 ≤ s by omega) h3 h4 h5⟩
      · rw [if_neg h0]
        exact cmpBlocks_compared he fuel (i + 32) (same_add.mpr ⟨h, h1.mp (not_not.mp h0)⟩)
          (by omega) (by omega) (by omega)
    · obtain rfl : i = e := by omega
      rw [if_neg hlt]
      exact .inr ⟨rfl, h⟩

theorem InlinedMemcmp_compared (mem : ℕ → UInt8) (sanitize : Bool) (l r s : ℕ) :
    Compared mem l r s (InlinedMemcmp mem sanitize l r s) := by
  unfold InlinedMemcmp
  split_ifs with h0 hs
  · subst h0
    exact .same fun _ hi => absurd hi (Nat.not_lt_zero _)
  · exact cmp_lt_32_compared hs
  dsimp only
  by_cases hfirst : cmpeq256 mem l r + 1 ≠ 0
  · -- in the first block
    rw [if_pos hfirst]
    obtain ⟨h3, h4, h5⟩ := (mask_ne_zero (block_spec mem l r)).2 hfirst
    exact .diff (by omega) h4 h5
  · rw [if_neg hfirst]
    have hsame := block_eq_zero.mp (not_not.mp hfirst)
    rcases @cmpBlocks_compared mem l r s (s / 32 * 32) (by omega) s 32 hsame (by omega) (by omega)
      (by omega) with
      ⟨c, hc, hcmp⟩ | ⟨hc, hall⟩
    · rw [hc]
      exact hcmp
    · -- in the last block, of which the bytes that the other blocks had are the same
      rw [hc]
      dsimp only
      have hfront : Same mem l r (s - 32) := hall.mono (by omega)
      obtain ⟨h1, h2⟩ := mask_ne_zero (block_spec mem (l + (s - 32)) (r + (s - 32)))
      generalize cmpeq256 mem (l + (s - 32)) (r + (s - 32)) + 1 = x at h1 h2 ⊢
      by_cases h0 : x ≠ 0
      · rw [if_pos h0]
        obtain ⟨h3, h4, h5⟩ := h2 h0
        exact .shift hfront (show s - 32 + 32 ≤ s by omega) h3 h4 h5
      · rw [if_neg h0]
        have := same_add.mpr ⟨hfront, h1.mp (not_not.mp h0)⟩
        rw [Nat.sub_add_cancel (by omega)] at this
        exact .same this

/-- The string of `s` bytes at an address. -/
def str (mem : ℕ → UInt8) (a s : ℕ) : Bytes := (List.range s).map fun i => mem (a + i)

theorem str_length : (str mem a s).length = s := by simp [str]

theorem str_getElem {i : ℕ} (h : i < (str mem a s).length) :
    (str mem a s)[i] = mem (a + i) := by simp [str]

theorem str_eq_iff : str mem l s = str mem r s ↔ Same mem l r s := by
  simp [str, Same, List.map_inj_left]

/-- The order of two strings is that of the first bytes that are not the same. -/
theorem str_lt_iff {m n : ℕ} (hm : k < m) (hn : k < n) (h : Same mem l r k)
    (hne : mem (l + k) ≠ mem (r + k)) :
    str mem l m < str mem r n ↔ mem (l + k) < mem (r + k) := by
  rw [List.lt_iff_exists]
  simp only [str_length, str_getElem]
  constructor
  · rintro (⟨h1, -⟩ | ⟨i, hi, hi', h2, h3⟩)
    · have := List.getElem_of_eq h1 (i := k) (by rw [str_length]; exact hm)
      rw [str_getElem, List.getElem_take, str_getElem] at this
      exact absurd this hne
    · rcases lt_trichotomy i k with hlt | rfl | hgt
      · rw [h i hlt] at h3
        exact absurd h3 (UInt8.lt_irrefl _)
      · exact h3
      · exact absurd (h2 k hgt) hne
  · intro hlt
    exact .inr ⟨k, hm, hn, h, hlt⟩

theorem byteDiff_neg_iff : byteDiff mem l r < 0 ↔ mem l < mem r := by
  rw [byteDiff, UInt8.lt_iff_toNat_lt]
  omega

theorem byteDiff_pos_iff : 0 < byteDiff mem l r ↔ mem r < mem l := by
  rw [byteDiff, UInt8.lt_iff_toNat_lt]
  omega

/-- **The sign of a comparison** is the lexicographic order of the strings. -/
theorem Compared.sign (h : Compared mem l r s c) :
    (c < 0 ↔ str mem l s < str mem r s) ∧ (c = 0 ↔ str mem l s = str mem r s) ∧
    (0 < c ↔ str mem r s < str mem l s) := by
  refine ⟨?_, h.eq_zero_iff.trans str_eq_iff.symm, ?_⟩
  · cases h with
    | same h =>
      rw [str_eq_iff.mpr h]
      exact iff_of_false (lt_irrefl 0) (List.lt_irrefl _)
    | diff hk h hne => rw [byteDiff_neg_iff, str_lt_iff hk hk h hne]
  · cases h with
    | same h =>
      rw [str_eq_iff.mpr h]
      exact iff_of_false (lt_irrefl 0) (List.lt_irrefl _)
    | diff hk h hne => rw [byteDiff_pos_iff, str_lt_iff hk hk h.symm hne.symm]

/-- The text of a view. -/
def StringView.text (mem : ℕ → UInt8) (v : StringView) : Bytes := str mem v.data v.size

/-- A string that the other one begins with is less when it is shorter. -/
theorem str_prefix_lt_iff {m n : ℕ} (h : Same mem l r (min m n)) :
    str mem l m < str mem r n ↔ m < n := by
  rw [List.lt_iff_exists]
  simp only [str_length, str_getElem]
  constructor
  · rintro (⟨-, h2⟩ | ⟨i, hi, hi', -, h3⟩)
    · exact h2
    · rw [h i (by omega)] at h3
      exact absurd h3 (UInt8.lt_irrefl _)
  · intro hlt
    refine .inl ⟨?_, hlt⟩
    refine List.ext_getElem (by simp only [List.length_take, str_length]; omega) fun i hi _ => ?_
    rw [str_length] at hi
    rw [List.getElem_take, str_getElem, str_getElem, h i (by omega)]

/-- **The order of the member map** is that of the strings. -/
theorem Less_iff {x y : StringView} : Less mem sanitize x y = true ↔ x.text mem < y.text mem := by
  have h := InlinedMemcmp_compared mem sanitize x.data y.data (min x.size y.size)
  unfold Less StringView.text
  dsimp only
  generalize InlinedMemcmp mem sanitize x.data y.data (min x.size y.size) = c at h
  simp only [Bool.or_eq_true, Bool.and_eq_true, decide_eq_true_eq]
  cases h with
  | same h =>
    rw [str_prefix_lt_iff h]
    exact ⟨fun hc => hc.elim (fun h0 => absurd h0 (lt_irrefl 0)) fun hc => hc.2,
      fun hc => .inr ⟨rfl, hc⟩⟩
  | diff hk h hne =>
    rw [byteDiff_neg_iff, str_lt_iff (by omega) (by omega) h hne]
    exact ⟨fun hc => hc.elim id fun hc => absurd hc.1 (byteDiff_ne_zero hne), .inl⟩

theorem Less_strictWeakOrder (mem : ℕ → UInt8) (sanitize : Bool) :
    IsStrictWeakOrder StringView fun x y => Less mem sanitize x y = true where
  irrefl x h := List.lt_irrefl _ (Less_iff.mp h)
  trans x y z h1 h2 := Less_iff.mpr (List.lt_trans (Less_iff.mp h1) (Less_iff.mp h2))
  incomp_trans x y z h1 h2 := by
    simp only [Less_iff] at h1 h2 ⊢
    -- what is not comparable has the same text
    have heq : ∀ {u v : Bytes}, ¬ u < v ∧ ¬ v < u → u = v := fun h => List.le_antisymm h.2 h.1
    rw [heq h1, heq h2]
    exact ⟨List.lt_irrefl _, List.lt_irrefl _⟩

end

/-- **Comparing by vectors is `memcmp`**: for all strings, at all addresses, whatever stands behind
them, equality and the sign are those of the strings; and the order of the member map is a strict
weak order. -/
theorem InlinedMemcmp_spec (mem : ℕ → UInt8) (sanitize : Bool) :
    (∀ a b s, (InlinedMemcmpEq mem sanitize a b s = true ↔ str mem a s = str mem b s) ∧
      (InlinedMemcmp mem sanitize a b s < 0 ↔ str mem a s < str mem b s) ∧
      (InlinedMemcmp mem sanitize a b s = 0 ↔ str mem a s = str mem b s) ∧
      (0 < InlinedMemcmp mem sanitize a b s ↔ str mem b s < str mem a s)) ∧
    IsStrictWeakOrder StringView fun x y => Less mem sanitize x y = true :=
  ⟨fun a b s => ⟨InlinedMemcmpEq_iff.trans str_eq_iff.symm,
    (InlinedMemcmp_compared mem sanitize a b s).sign⟩, Less_strictWeakOrder mem sanitize⟩

end Memcmp

end SonicJson
