/-
# Skipping whitespace

`skip_space` and `skip_space_safe` look at two bytes one by one and then at 64
at a time, and keep the mask of the last block they looked at for the next
call (`SpaceBits`). What the mask says is only used from the position on, so
that the string decoder may overwrite what is behind (`SpaceBits.Valid`).
Both find what `dropWhile IsSpace` leaves.
-/
import SonicJson.Lib.Bits
import SonicJson.Bytes

namespace SonicJson

open Cursor

/-- `nonspace_bits_` of a scanner: the mask of the 64 bytes before `nonspace_bits_end_`. -/
structure SpaceBits where
  nonspace_bits_end : ℕ
  nonspace_bits : BitVec 64

/-- A scanner that has seen no block yet. -/
def SpaceBits.init : SpaceBits := ⟨0, 0⟩

def whitespace_table : Bytes := [Ch.space, 100, 100, 100, 17, 100, 113, 2, 100, Ch.tab, Ch.lf, 112,
    100, Ch.cr, 100, 100]

/-- One lane of the byte shuffle of the table by the text. -/
def shuffle_epi8 (table : Bytes) (b : UInt8) : UInt8 := if 128 ≤ b then 0 else rd table (b.toNat % 16)

def GetNonSpaceBits (data : Bytes) (pos : ℕ) : BitVec 64 :=
  Bits.ofPred 64 fun i => !(rd data (pos + i) == shuffle_epi8 whitespace_table (rd data (pos + i)))

/-- The loop at the label `found_space`: one block after the other. -/
def found_space (data : Bytes) : ℕ → ℕ → SpaceBits → UInt8 × ℕ × SpaceBits
  | 0, pos, k => (0, pos, k)
  | fuel + 1, pos, k =>
    let nonspace := GetNonSpaceBits data pos
    if nonspace ≠ 0 then
      let nonspace_bits_end := pos + 64
      let pos := pos + Bits.ctz nonspace
      (rd data pos, pos + 1, ⟨nonspace_bits_end, nonspace⟩)
    else found_space data fuel (pos + 64) k

/-- The part of the remembered mask from `pos` on. -/
def SpaceBits.nonspace (k : SpaceBits) (pos : ℕ) : BitVec 64 :=
  let block_start := k.nonspace_bits_end - 64
  let bit_pos := pos - block_start
  let mask := (1#64 <<< bit_pos) - 1#64
  k.nonspace_bits &&& ~~~mask

def skip_space (data : Bytes) (pos : ℕ) (k : SpaceBits) : UInt8 × ℕ × SpaceBits :=
  if !IsSpace (rd data pos) then (rd data pos, pos + 1, k)
  else if !IsSpace (rd data (pos + 1)) then (rd data (pos + 1), pos + 2, k)
  else
    let pos := pos + 2
    if k.nonspace_bits_end ≤ pos then found_space data (data.length + 1) pos k
    else if k.nonspace pos = 0 then found_space data (data.length + 1) k.nonspace_bits_end k
    else
      let pos := k.nonspace_bits_end - 64 + Bits.ctz (k.nonspace pos)
      (rd data pos, pos + 1, k)

/-- `while (pos < len && IsSpace(data[pos++]));` -/
def space_tail (data : Bytes) (len : ℕ) : ℕ → ℕ → ℕ
  | 0, pos => pos
  | fuel + 1, pos =>
    if pos < len then if IsSpace (rd data pos) then space_tail data len fuel (pos + 1) else pos + 1
      else pos

/-- The label `tail`: the last byte looked at is returned, also when it is a space. -/
def skip_tail (data : Bytes) (len pos : ℕ) (k : SpaceBits) : UInt8 × ℕ × SpaceBits :=
  let pos := space_tail data len len pos
  (rd data (pos - 1), pos, k)

/-- The loop at `found_space`, as long as a block is left. -/
def found_space_safe (data : Bytes) (len : ℕ) : ℕ → ℕ → SpaceBits → UInt8 × ℕ × SpaceBits
  | 0, pos, k => skip_tail data len pos k
  | fuel + 1, pos, k =>
    if pos + 64 ≤ len then
      let nonspace := GetNonSpaceBits data pos
      if nonspace ≠ 0 then
        let nonspace_bits_end := pos + 64
        let pos := pos + Bits.ctz nonspace
        (rd data pos, pos + 1, ⟨nonspace_bits_end, nonspace⟩)
      else found_space_safe data len fuel (pos + 64) k
    else skip_tail data len pos k

def skip_space_safe (data : Bytes) (pos len : ℕ) (k : SpaceBits) : UInt8 × ℕ × SpaceBits :=
  if len < pos + 64 + 2 then skip_tail data len pos k
  else if !IsSpace (rd data pos) then (rd data pos, pos + 1, k)
  else if !IsSpace (rd data (pos + 1)) then (rd data (pos + 1), pos + 2, k)
  else
    let pos := pos + 2
    if k.nonspace_bits_end ≤ pos then found_space_safe data len len pos k
    else if k.nonspace pos = 0 then found_space_safe data len len k.nonspace_bits_end k
    else
      let pos := k.nonspace_bits_end - 64 + Bits.ctz (k.nonspace pos)
      (rd data pos, pos + 1, k)

/-! ### The text within a length -/

/-- `s` is what is left, at `p`, of the first `len` bytes of `data`. -/
structure Left (data : Bytes) (len p : ℕ) (s : Bytes) : Prop where
  at' : At (data.take len) p s
  le : len ≤ data.length

namespace Left

variable {data s t : Bytes} {len p : ℕ} {b : UInt8}

theorem length_add (h : Left data len p s) : p + s.length = len := by
  have := h.at'.length_add
  have := h.le
  simp at *
  omega

theorem rd_add (h : Left data len p s) {i : ℕ} (hi : i < s.length) : rd data (p + i) = rd s i := by
  have hl := h.length_add
  rw [← rd_at_add h.at' i]
  conv_lhs => rw [← List.take_append_drop len data]
  rw [rd_append_left (by have := h.le; simp; omega)]

theorem rd_eq (h : Left data len p (b :: t)) : rd data p = b := by
  have := h.rd_add (show 0 < (b :: t).length by simp)
  simpa using this

theorem append {a : Bytes} (h : Left data len p (a ++ t)) :
    Left data len (p + a.length) t := ⟨h.at'.append, h.le⟩

theorem succ (h : Left data len p (b :: t)) : Left data len (p + 1) t := ⟨h.at'.succ, h.le⟩

theorem drop (h : Left data len p s) {i : ℕ} (hi : i ≤ s.length) : Left data len (p + i) (s.drop i) :=
  ⟨h.at'.drop_at hi, h.le⟩

theorem suffix (h : Left data len p s) (hs : t <:+ s) : Left data len (len - t.length) t := by
  have := h.at'.suffix hs
  have hl : (data.take len).length = len := by simpa using h.le
  rw [hl] at this
  exact ⟨this, h.le⟩

theorem unique {q : ℕ} (h : Left data len p t) (h' : Left data len q t) : p = q := h.at'.unique h'.at'

theorem of_at (h : At data p s) : Left data data.length p s := ⟨by simpa using h, le_rfl⟩

end Left

theorem left_length {data s : Bytes} {p : ℕ} : Left data data.length p s ↔ At data p s :=
  ⟨fun h => by simpa using h.at', Left.of_at⟩

/-! ### What the masks say -/

theorem shuffle_eq_isSpace (b : UInt8) : (b == shuffle_epi8 whitespace_table b) = IsSpace b := by
  have h : ∀ n : Fin 256, (UInt8.ofNat n == shuffle_epi8 whitespace_table (UInt8.ofNat n)) =
      IsSpace (UInt8.ofNat n) := by
    decide +kernel
  have := h ⟨b.toNat, b.toNat_lt⟩
  simpa using this

theorem getLsbD_GetNonSpaceBits (data : Bytes) (pos i : ℕ) :
    (GetNonSpaceBits data pos).getLsbD i = (decide (i < 64) && !IsSpace (rd data (pos + i))) := by
  rw [GetNonSpaceBits, Bits.getLsbD_ofPred, shuffle_eq_isSpace]

/-- The remembered mask is that of the bytes from `pos` on. -/
structure SpaceBits.Covers (k : SpaceBits) (data : Bytes) (pos : ℕ) : Prop where
  block : 0 < k.nonspace_bits_end → 64 ≤ k.nonspace_bits_end
  le : k.nonspace_bits_end ≤ pos + 64
  bit : ∀ i, pos ≤ i → i < k.nonspace_bits_end →
    k.nonspace_bits.getLsbD (i + 64 - k.nonspace_bits_end) = !IsSpace (rd data i)

theorem SpaceBits.covers_block (data : Bytes) (pos : ℕ) {q : ℕ} (hq : pos ≤ q) :
    SpaceBits.Covers ⟨pos + 64, GetNonSpaceBits data pos⟩ data q where
  block _ := Nat.le_add_left _ _
  le := by
    simp only
    omega
  bit i hi hl := by
    simp only at hl ⊢
    rw [show i + 64 - (pos + 64) = i - pos by omega, getLsbD_GetNonSpaceBits,
      show pos + (i - pos) = i by omega]
    simp [show i - pos < 64 by omega]

theorem SpaceBits.Covers.mono {k : SpaceBits} {data : Bytes} {p q : ℕ} (h : k.Covers data p)
    (hpq : p ≤ q) :
    k.Covers data q :=
  ⟨h.block, by have := h.le; omega, fun i hi => h.bit i (by omega)⟩

/-- `q` is the first position from `p` on with a byte that is no space. -/
structure NonSpace (data : Bytes) (p q : ℕ) : Prop where
  le : p ≤ q
  space : ∀ i, p ≤ i → i < q → IsSpace (rd data i) = true
  nonspace : IsSpace (rd data q) = false

theorem NonSpace.cons {data : Bytes} {p r q : ℕ} (h : NonSpace data r q) (hpr : p ≤ r)
    (hs : ∀ i, p ≤ i → i < r → IsSpace (rd data i) = true) : NonSpace data p q where
  le := le_trans hpr h.le
  space i hi hq := by
    rcases lt_or_ge i r with hr | hr
    · exact hs i hi hr
    · exact h.space i hr hq
  nonspace := h.nonspace

theorem block_space {data : Bytes} {pos : ℕ} (h : GetNonSpaceBits data pos = 0) {i : ℕ} (h1 : pos ≤ i)
    (h2 : i < pos + 64) : IsSpace (rd data i) = true := by
  have := (Bits.eq_zero_iff _).mp h (i - pos) (by omega)
  rw [getLsbD_GetNonSpaceBits, show pos + (i - pos) = i by omega] at this
  simpa [show i - pos < 64 by omega] using this

theorem block_nonSpace {data : Bytes} {pos : ℕ} (h : GetNonSpaceBits data pos ≠ 0) :
    NonSpace data pos (pos + Bits.ctz (GetNonSpaceBits data pos)) where
  le := by omega
  space i hi hq := by
    have hlt := Bits.ctz_lt h
    have := Bits.getLsbD_of_lt_ctz (GetNonSpaceBits data pos) (i := i - pos) (by omega)
    rw [getLsbD_GetNonSpaceBits, show pos + (i - pos) = i by omega] at this
    simpa [show i - pos < 64 by omega] using this
  nonspace := by
    have hlt := Bits.ctz_lt h
    have := Bits.getLsbD_ctz h
    rw [getLsbD_GetNonSpaceBits] at this
    simpa [hlt] using this

section
variable {data : Bytes} {pos : ℕ} {k : SpaceBits} (hk : k.Covers data pos)
    (hlt : pos < k.nonspace_bits_end)
include hk hlt

theorem SpaceBits.getLsbD_nonspace {i : ℕ} (hi : i < 64) : (k.nonspace pos).getLsbD i =
    (k.nonspace_bits.getLsbD i && decide (pos ≤ k.nonspace_bits_end - 64 + i)) := by
  have hle := hk.le
  rw [SpaceBits.nonspace, Bits.getLsbD_and_not_below _ (by omega) hi]
  congr 1
  exact decide_eq_decide.mpr (by omega)

/-- No bit of the remembered mask is left: spaces up to the end of the block. -/
theorem SpaceBits.Covers.space (h : k.nonspace pos = 0) {i : ℕ} (h1 : pos ≤ i)
    (h2 : i < k.nonspace_bits_end) :
    IsSpace (rd data i) = true := by
  have h64 := hk.block (by omega)
  have h3 := (Bits.eq_zero_iff _).mp h (i + 64 - k.nonspace_bits_end) (by omega)
  rw [SpaceBits.getLsbD_nonspace hk hlt (by omega), hk.bit i h1 h2] at h3
  have h4 : pos ≤ k.nonspace_bits_end - 64 + (i + 64 - k.nonspace_bits_end) := by omega
  simpa [h4] using h3

theorem SpaceBits.Covers.nonSpace (h : k.nonspace pos ≠ 0) :
    NonSpace data pos (k.nonspace_bits_end - 64 + Bits.ctz (k.nonspace pos)) := by
  have h64 := hk.block (by omega)
  have hle := hk.le
  have hc := Bits.ctz_lt h
  have hb := Bits.getLsbD_ctz h
  rw [SpaceBits.getLsbD_nonspace hk hlt hc, Bool.and_eq_true, decide_eq_true_eq] at hb
  refine ⟨hb.2, fun i hi hq => ?_, ?_⟩
  · have h3 := Bits.getLsbD_of_lt_ctz (k.nonspace pos) (i := i + 64 - k.nonspace_bits_end) (by omega)
    rw [SpaceBits.getLsbD_nonspace hk hlt (by omega), hk.bit i hi (by omega)] at h3
    have h4 : pos ≤ k.nonspace_bits_end - 64 + (i + 64 - k.nonspace_bits_end) := by omega
    simpa [h4] using h3
  · have h3 := hk.bit (k.nonspace_bits_end - 64 + Bits.ctz (k.nonspace pos)) hb.2 (by omega)
    rw [show k.nonspace_bits_end - 64 + Bits.ctz (k.nonspace pos) + 64 - k.nonspace_bits_end =
      Bits.ctz (k.nonspace pos) by omega, hb.1] at h3
    simpa using h3.symm

end

/-- The remembered mask, looked at from `pos` on, leads to the next byte that is no space. -/
structure SpaceBits.Leads (k : SpaceBits) (data : Bytes) (pos : ℕ) : Prop where
  block : 64 ≤ k.nonspace_bits_end
  le : k.nonspace_bits_end ≤ pos + 64
  space : k.nonspace pos = 0 → ∀ i, pos ≤ i → i < k.nonspace_bits_end → IsSpace (rd data i) = true
  nonSpace : k.nonspace pos ≠ 0 →
    NonSpace data pos (k.nonspace_bits_end - 64 + Bits.ctz (k.nonspace pos))

/-- What a scanner remembers is true where it is looked at: after two spaces, before the end of the
remembered block. -/
def SpaceBits.Valid (k : SpaceBits) (data : Bytes) (pos : ℕ) : Prop :=
  ∀ q, pos ≤ q → IsSpace (rd data q) = true → IsSpace (rd data (q + 1)) = true →
    q + 2 < k.nonspace_bits_end →
    k.Leads data (q + 2)

/-- What a scanner remembers is true where a call at `pos` looks at it. -/
def SpaceBits.ValidAt (k : SpaceBits) (data : Bytes) (pos : ℕ) : Prop :=
  IsSpace (rd data pos) = true → IsSpace (rd data (pos + 1)) = true → pos + 2 < k.nonspace_bits_end →
    k.Leads data (pos + 2)

theorem SpaceBits.valid_init (data : Bytes) (pos : ℕ) : SpaceBits.init.Valid data pos :=
  fun _ _ _ _ h => absurd h (Nat.not_lt_zero _)

theorem SpaceBits.Covers.valid {k : SpaceBits} {data : Bytes} {p : ℕ} (h : k.Covers data p) :
    k.Valid data p := by
  intro q hq _ _ hlt
  have h' := h.mono (q := q + 2) (by omega)
  exact ⟨h.block (by omega), h'.le, fun hz i => SpaceBits.Covers.space h' hlt hz,
    SpaceBits.Covers.nonSpace h' hlt⟩

theorem SpaceBits.Valid.mono {k : SpaceBits} {data : Bytes} {p q : ℕ} (h : k.Valid data p)
    (hpq : p ≤ q) :
    k.Valid data q :=
  fun i hi => h i (hpq.trans hi)

/-- Only the bytes from the position on matter. -/
theorem SpaceBits.Valid.congr {k : SpaceBits} {data data' : Bytes} {p : ℕ} (h : k.Valid data p)
    (hd : ∀ i, p ≤ i → rd data' i = rd data i) : k.Valid data' p := by
  intro q hq h1 h2 h3
  rw [hd q hq] at h1
  rw [hd (q + 1) (by omega)] at h2
  have hl := h q hq h1 h2 h3
  refine ⟨hl.block, hl.le, fun hz i hi hlt => ?_, fun hz => ?_⟩
  · rw [hd i (by omega)]
    exact hl.space hz i hi hlt
  · have hn := hl.nonSpace hz
    refine ⟨hn.le, fun i hi hlt => ?_, ?_⟩
    · rw [hd i (by omega)]
      exact hn.space i hi hlt
    · rw [hd _ (by have := hn.le; omega)]
      exact hn.nonspace

theorem NonSpace.unique {data : Bytes} {p q q' : ℕ} (h : NonSpace data p q)
    (h' : NonSpace data p q') : q = q' := by
  rcases lt_trichotomy q q' with hlt | rfl | hlt
  · have := h'.space q h.le hlt
    rw [h.nonspace] at this
    exact absurd this (by decide)
  · rfl
  · have := h.space q' h'.le hlt
    rw [h'.nonspace] at this
    exact absurd this (by decide)

/-- Past spaces the first byte that is none stays the same. -/
theorem NonSpace.skip {data : Bytes} {p r q : ℕ} (h : NonSpace data p q) (hpr : p ≤ r)
    (hs : ∀ i, p ≤ i → i < r → IsSpace (rd data i) = true) : NonSpace data r q where
  le := by
    by_contra hc
    have := hs q h.le (by omega)
    rw [h.nonspace] at this
    exact absurd this (by decide)
  space i hi := h.space i (by omega)
  nonspace := h.nonspace

/-- The two bytes that are looked at first. -/
theorem two_space {data : Bytes} {p : ℕ} (h1 : IsSpace (rd data p) = true)
    (h2 : IsSpace (rd data (p + 1)) = true) :
    ∀ i, p ≤ i → i < p + 2 → IsSpace (rd data i) = true := by
  intro i hi hl
  rcases Nat.lt_or_eq_of_le hi with hi | rfl
  · rwa [show i = p + 1 by omega]
  · exact h1

theorem nonSpace_self {data : Bytes} {p : ℕ} (h : IsSpace (rd data p) = false) : NonSpace data p p :=
  ⟨le_rfl, fun _ hi hl => by omega, h⟩

/-! ### The unbounded version -/

theorem found_space_eq {data : Bytes} {q : ℕ} : ∀ (fuel pos : ℕ) (k : SpaceBits),
    NonSpace data pos q → q < pos + 64 * fuel →
    ∃ k', found_space data fuel pos k = (rd data q, q + 1, k') ∧ k'.Valid data (q + 1)
  | 0, pos, k, h, hf => by
    have := h.le
    omega
  | fuel + 1, pos, k, h, hf => by
    rw [found_space]
    by_cases hz : GetNonSpaceBits data pos = 0
    · have hs : ∀ i, pos ≤ i → i < pos + 64 → IsSpace (rd data i) = true := fun i => block_space hz
      rw [if_neg (by simpa using hz)]
      exact found_space_eq fuel (pos + 64) k (h.skip (by omega) hs) (by omega)
    · have hq := h.unique (block_nonSpace hz)
      simp only [ne_eq, hz, not_false_eq_true, if_true, ← hq]
      exact ⟨_, rfl, (SpaceBits.covers_block data pos (by have := h.le; omega)).valid⟩

/-- A call finds the first byte that is no space, if what it looks at is true. -/
theorem skip_space_at {data : Bytes} {pos q : ℕ} {k : SpaceBits} (hk : k.ValidAt data pos)
    (h : NonSpace data pos q) (hq : q ≤ max pos data.length) :
    ∃ k', skip_space data pos k = (rd data q, q + 1, k') ∧ (k' = k ∨ k'.Valid data (q + 1)) := by
  have found : ∀ {fuel p}, NonSpace data p q → q < p + 64 * fuel →
      ∃ k', found_space data fuel p k = (rd data q, q + 1, k') ∧ (k' = k ∨ k'.Valid data (q + 1)) := by
    intro fuel p hp hf
    obtain ⟨k', h1, h2⟩ := found_space_eq fuel p k hp hf
    exact ⟨k', h1, .inr h2⟩
  unfold skip_space
  by_cases h1 : IsSpace (rd data pos) = true
  swap
  · have := h.unique (nonSpace_self (by simpa using h1))
    subst this
    exact ⟨k, by simp [h1], .inl rfl⟩
  by_cases h2 : IsSpace (rd data (pos + 1)) = true
  swap
  · have h' := h.skip (r := pos + 1) (by omega) fun i hi hl => by rwa [show i = pos by omega]
    have := h'.unique (nonSpace_self (by simpa using h2))
    subst this
    exact ⟨k, by simp [h1, h2], .inl rfl⟩
  have h' := h.skip (r := pos + 2) (by omega) (two_space h1 h2)
  have hk1 := hk h1 h2
  simp only [h1, h2, Bool.not_true, Bool.false_eq_true, if_false]
  by_cases h3 : k.nonspace_bits_end ≤ pos + 2
  · rw [if_pos h3]
    exact found h' (by omega)
  rw [if_neg h3]
  have hk' := hk1 (not_le.mp h3)
  by_cases h4 : k.nonspace (pos + 2) = 0
  · have hs : ∀ i, pos + 2 ≤ i → i < k.nonspace_bits_end → IsSpace (rd data i) = true :=
      hk'.space h4
    rw [if_pos h4]
    exact found (h'.skip (by omega) hs) (by omega)
  · have := h'.unique (hk'.nonSpace h4)
    rw [if_neg h4, ← this]
    exact ⟨k, rfl, .inl rfl⟩

/-- **Skipping whitespace**: the first byte that is no space is returned and the position is after
it. -/
theorem skip_space_eq {data : Bytes} {pos q : ℕ} {k : SpaceBits} (hk : k.Valid data pos)
    (h : NonSpace data pos q) (hq : q ≤ max pos data.length) :
    ∃ k', skip_space data pos k = (rd data q, q + 1, k') ∧ k'.Valid data (q + 1) := by
  have hle := h.le
  obtain ⟨k', h1, rfl | h2⟩ := skip_space_at (hk pos le_rfl) h hq
  exacts [⟨_, h1, hk.mono (by omega)⟩, ⟨k', h1, h2⟩]

/-! ### The bounded version -/

theorem space_tail_eq {data : Bytes} {len : ℕ} : ∀ (fuel pos : ℕ), pos ≤ len → len ≤ pos + fuel →
    (∀ q, NonSpace data pos q → q < len → space_tail data len fuel pos = q + 1) ∧
    ((∀ i, pos ≤ i → i < len → IsSpace (rd data i) = true) → space_tail data len fuel pos = len)
  | 0, pos, hp, hf => by
    refine ⟨fun q h hq => ?_, fun _ => ?_⟩
    · have := h.le
      omega
    · rw [space_tail]
      omega
  | fuel + 1, pos, hp, hf => by
    rw [space_tail]
    by_cases hlt : pos < len
    · rw [if_pos hlt]
      by_cases hs : IsSpace (rd data pos) = true
      · obtain ⟨ih1, ih2⟩ := @space_tail_eq data len fuel (pos + 1) (by omega) (by omega)
        simp only [hs, if_true]
        refine ⟨fun q h hq => ih1 q (h.skip (Nat.le_succ pos) fun i hi hl => ?_) hq,
          fun h => ih2 fun i hi hl => h i (Nat.le_of_succ_le hi) hl⟩
        rwa [show i = pos by omega]
      · rw [if_neg hs]
        refine ⟨fun q h hq => ?_, fun h => absurd (h pos le_rfl hlt) hs⟩
        rw [h.unique (nonSpace_self (by simpa using hs))]
    · rw [if_neg hlt]
      refine ⟨fun q h hq => ?_, fun _ => by omega⟩
      have := h.le
      omega

theorem le_space_tail {data : Bytes} {len : ℕ} : ∀ (fuel pos : ℕ), pos ≤ space_tail data len fuel pos
  | 0, _ => le_rfl
  | fuel + 1, pos => by
    have := @le_space_tail data len fuel (pos + 1)
    rw [space_tail]
    split_ifs <;> omega

/-- Where the bounded version comes to: the first byte that is no space, or the last byte of the
text. -/
structure LandsOn (data : Bytes) (len pos : ℕ) (c : UInt8) (p : ℕ) : Prop where
  found : ∀ q, NonSpace data pos q → q < len → c = rd data q ∧ p = q + 1
  none : (∀ i, pos ≤ i → i < len → IsSpace (rd data i) = true) → c = rd data (len - 1) ∧ p = len

/-- What the bounded version returns. -/
structure SkipsTo (data : Bytes) (len pos : ℕ) (r : UInt8 × ℕ × SpaceBits) : Prop extends
    LandsOn data len pos r.1 r.2.1 where
  valid : r.2.2.Valid data r.2.1

namespace LandsOn

variable {data : Bytes} {len p p' q : ℕ} {c c' : UInt8}

theorem skip (h : LandsOn data len p' c q) (hp : p ≤ p')
    (hs : ∀ i, p ≤ i → i < p' → IsSpace (rd data i) = true) :
    LandsOn data len p c q where
  found r hr := h.found r (hr.skip hp hs)
  none ha := h.none fun i hi => ha i (by omega)

theorem at' (h : NonSpace data p q) (hq : q < len) : LandsOn data len p (rd data q) (q + 1) where
  found q' h' _ := by rw [h.unique h']; exact ⟨rfl, rfl⟩
  none ha := by
    have := ha q h.le hq
    rw [h.nonspace] at this
    exact absurd this (by decide)

/-- A position within the text has one answer. -/
theorem agree (h : LandsOn data len p c q) (h' : LandsOn data len p c' p') : c = c' ∧ q = p' := by
  by_cases hall : ∀ i, p ≤ i → i < len → IsSpace (rd data i) = true
  · rw [(h.none hall).1, (h.none hall).2, (h'.none hall).1, (h'.none hall).2]
    exact ⟨rfl, rfl⟩
  · push Not at hall
    obtain ⟨i, h1, h2, h3⟩ := hall
    obtain ⟨r, hr⟩ : ∃ r, NonSpace data p r ∧ r < len := by
      have hex : ∃ q, p ≤ q ∧ IsSpace (rd data q) = false := ⟨i, h1, by simpa using h3⟩
      refine ⟨Nat.find hex, ⟨(Nat.find_spec hex).1, fun j hj hlt => ?_, (Nat.find_spec hex).2⟩, ?_⟩
      · have hmin := Nat.find_min hex hlt
        rw [not_and] at hmin
        simpa using hmin hj
      · exact (Nat.find_min' hex ⟨h1, by simpa using h3⟩).trans_lt h2
    rw [(h.found r hr.1 hr.2).1, (h.found r hr.1 hr.2).2, (h'.found r hr.1 hr.2).1,
      (h'.found r hr.1 hr.2).2]
    exact ⟨rfl, rfl⟩

end LandsOn

theorem skip_tail_lands {data : Bytes} {len pos : ℕ} (k : SpaceBits) (hp : pos ≤ len) :
    LandsOn data len pos (skip_tail data len pos k).1 (skip_tail data len pos k).2.1 := by
  obtain ⟨h1, h2⟩ := @space_tail_eq data len len pos hp (by omega)
  rw [skip_tail]
  exact ⟨fun q hq hl => by simp [h1 q hq hl], fun ha => by simp [h2 ha]⟩

theorem found_space_safe_lands {data : Bytes} {len : ℕ} : ∀ (fuel pos : ℕ) (k : SpaceBits), pos ≤ len →
    LandsOn data len pos (found_space_safe data len fuel pos k).1
      (found_space_safe data len fuel pos k).2.1
  | 0, pos, k, hp => skip_tail_lands k hp
  | fuel + 1, pos, k, hp => by
    rw [found_space_safe]
    by_cases hb : pos + 64 ≤ len
    · rw [if_pos hb]
      by_cases hz : GetNonSpaceBits data pos = 0
      · rw [if_neg (by simpa using hz)]
        exact (found_space_safe_lands fuel (pos + 64) k hb).skip (by omega) fun i => block_space hz
      · have hlt := Bits.ctz_lt hz
        rw [if_pos (by simpa using hz)]
        exact .at' (block_nonSpace hz) (by omega)
    · rw [if_neg hb]
      exact skip_tail_lands k hp

theorem found_space_safe_valid {data : Bytes} {len : ℕ} :
    ∀ (fuel pos : ℕ) (k : SpaceBits), k.Valid data pos →
    (found_space_safe data len fuel pos k).2.2.Valid data (found_space_safe data len fuel pos k).2.1
  | 0, pos, k, hk => hk.mono (le_space_tail len pos)
  | fuel + 1, pos, k, hk => by
    rw [found_space_safe]
    dsimp only
    split
    swap
    · exact hk.mono (le_space_tail len pos)
    split
    · exact (SpaceBits.covers_block data pos (by dsimp only; omega)).valid
    · exact found_space_safe_valid fuel (pos + 64) k (hk.mono (by omega))

/-- A call finds what there is to find, if what it looks at is true. -/
theorem skip_space_safe_at {data : Bytes} {len pos : ℕ} {k : SpaceBits}
    (hk : pos + 64 + 2 ≤ len → k.ValidAt data pos) (hp : pos ≤ len) :
    LandsOn data len pos (skip_space_safe data pos len k).1
    (skip_space_safe data pos len k).2.1 := by
  unfold skip_space_safe
  by_cases h0 : len < pos + 64 + 2
  · rw [if_pos h0]
    exact skip_tail_lands k hp
  rw [if_neg h0]
  by_cases h1 : IsSpace (rd data pos) = true
  swap
  · rw [if_pos (by simpa using h1)]
    exact .at' (nonSpace_self (by simpa using h1)) (by omega)
  by_cases h2 : IsSpace (rd data (pos + 1)) = true
  swap
  · rw [if_neg (by simpa using h1), if_pos (by simpa using h2)]
    refine .at' ((nonSpace_self (by simpa using h2)).cons (by omega) fun i hi hl => ?_) (by omega)
    rwa [show i = pos by omega]
  have hk1 := hk (not_lt.mp h0) h1 h2
  simp only [h1, h2, Bool.not_true, Bool.false_eq_true, if_false]
  refine LandsOn.skip ?_ (Nat.le_add_right pos 2) (two_space h1 h2)
  by_cases h3 : k.nonspace_bits_end ≤ pos + 2
  · rw [if_pos h3]
    exact found_space_safe_lands _ _ _ (by omega)
  rw [if_neg h3]
  have hk' := hk1 (not_le.mp h3)
  have hle := hk'.le
  by_cases h4 : k.nonspace (pos + 2) = 0
  · rw [if_pos h4]
    exact (found_space_safe_lands _ _ _ (by omega)).skip (by omega) (hk'.space h4)
  · have hc := Bits.ctz_lt h4
    have hb := hk'.block
    rw [if_neg h4]
    exact .at' (hk'.nonSpace h4) (by omega)

theorem skip_space_safe_valid {data : Bytes} {len pos : ℕ} {k : SpaceBits} (hk : k.Valid data pos) :
    (skip_space_safe data pos len k).2.2.Valid data (skip_space_safe data pos len k).2.1 := by
  unfold skip_space_safe
  split
  · exact hk.mono (le_space_tail len pos)
  split
  · exact hk.mono (Nat.le_succ pos)
  split
  · exact hk.mono (Nat.le_add_right pos 2)
  rename_i h1 h2
  dsimp only
  split
  · exact found_space_safe_valid _ _ _ (hk.mono (Nat.le_add_right pos 2))
  rename_i h3
  split
  · exact found_space_safe_valid _ _ _ (hk.mono (by omega))
  rename_i h4
  have hn := (hk pos le_rfl (by simpa using h1) (by simpa using h2) (not_le.mp h3)).nonSpace h4
  exact hk.mono (by have := hn.le; dsimp only; omega)

theorem skip_space_safe_spec {data : Bytes} {len pos : ℕ} {k : SpaceBits} (hk : k.Valid data pos)
    (hp : pos ≤ len) :
    SkipsTo data len pos (skip_space_safe data pos len k) :=
  ⟨skip_space_safe_at (fun _ => hk pos le_rfl) hp, skip_space_safe_valid hk⟩

/-! ### On texts -/

theorem nonSpace_of_dropWhile {data s t : Bytes} {pos : ℕ} {c : UInt8} (h : At data pos s)
    (hs : s.dropWhile IsSpace = c :: t) :
    ∃ q, NonSpace data pos q ∧ q < data.length ∧ rd data q = c ∧ At data (q + 1) t := by
  have hsp := List.takeWhile_append_dropWhile (p := IsSpace) (l := s)
  rw [hs] at hsp
  have hat := hsp ▸ h
  have hq := hat.append
  have hc : IsSpace c = false := by
    by_contra hcon
    have h2 := List.head?_dropWhile_not IsSpace s
    simp [hs] at h2
    simp [h2] at hcon
  refine ⟨_, ⟨Nat.le_add_right _ _, fun i hi hl => ?_, ?_⟩, hq.lt, rd_at hq, hq.succ⟩
  · obtain ⟨j, rfl⟩ := Nat.exists_eq_add_of_le hi
    have hj : j < (s.takeWhile IsSpace).length := by omega
    have := rd_at_add hat j
    rw [this, rd_append_left hj, rd, List.getD_eq_getElem?_getD, List.getElem?_eq_getElem hj]
    exact List.mem_takeWhile_imp (List.getElem_mem hj)
  · rw [rd_at hq]
    exact hc

/-- What is skipped to, on the text that is left. -/
theorem skip_space_text {data s t : Bytes} {pos : ℕ} {c : UInt8} {k : SpaceBits} (hk : k.Valid data pos)
    (h : At data pos s) (hs : s.dropWhile IsSpace = c :: t) :
    ∃ q k', skip_space data pos k = (c, q + 1, k') ∧ At data q (c :: t) ∧ k'.Valid data (q + 1) := by
  obtain ⟨q, hn, hq, rfl, ht⟩ := nonSpace_of_dropWhile h hs
  obtain ⟨k', h1, h2⟩ := skip_space_eq hk hn (le_max_of_le_right hq.le)
  refine ⟨q, k', h1, ?_, h2⟩
  have := at_cons_rd hq
  rwa [ht.drop] at this

end SonicJson
