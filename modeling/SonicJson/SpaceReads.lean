/-
# What the bounded skipping of spaces reads

`skip_space_safe` is told the length, and returns the byte before its last position also
where it has read nothing. `skip_space_safe_reads` lists the positions it reads. A call at
a position within a text that is not empty reads within the text, comes to the first byte
that is no space, and leaves a position that its caller may step back from
(`SpaceCall.skipsSafely`).
-/
import SonicJson.SkipScanner2

namespace SonicJson

/-! ### The positions -/

/-- The positions that `skip_tail` reads, with that of the byte it returns. -/
def space_tail_reads (data : Bytes) (len : ℕ) : ℕ → ℕ → List ℤ
  | 0, pos => [(pos : ℤ) - 1]
  | fuel + 1, pos =>
    if pos < len then
      (pos : ℤ) :: if IsSpace (rd data pos) then space_tail_reads data len fuel (pos + 1)
        else [(pos : ℤ)]
    else [(pos : ℤ) - 1]

/-- The positions of a block. -/
def block_reads (pos : ℕ) : List ℤ := (List.range 64).map fun i => ((pos + i : ℕ) : ℤ)

def found_space_safe_reads (data : Bytes) (len : ℕ) : ℕ → ℕ → List ℤ
  | 0, pos => space_tail_reads data len len pos
  | fuel + 1, pos =>
    if pos + 64 ≤ len then
      let nonspace := GetNonSpaceBits data pos
      block_reads pos ++
        if nonspace ≠ 0 then [((pos + Bits.ctz nonspace : ℕ) : ℤ)]
          else found_space_safe_reads data len fuel (pos + 64)
    else space_tail_reads data len len pos

/-- The positions that a call of `skip_space_safe` reads. -/
def skip_space_safe_reads (data : Bytes) (pos len : ℕ) (k : SpaceBits) : List ℤ :=
  if len < pos + 64 + 2 then space_tail_reads data len len pos
  else if !IsSpace (rd data pos) then [(pos : ℤ)]
  else if !IsSpace (rd data (pos + 1)) then [(pos : ℤ), (pos + 1 : ℕ)]
  else
    (pos : ℤ) :: ((pos + 1 : ℕ) : ℤ) ::
      let pos := pos + 2
      if k.nonspace_bits_end ≤ pos then found_space_safe_reads data len len pos
      else if k.nonspace pos = 0 then found_space_safe_reads data len len k.nonspace_bits_end
      else [((k.nonspace_bits_end - 64 + Bits.ctz (k.nonspace pos) : ℕ) : ℤ)]

/-! ### Nothing else is read -/

section
variable {data data' : Bytes} {len : ℕ}

/-- The bytes at the positions are the same. -/
def SameAt (data data' : Bytes) (reads : List ℤ) : Prop := ∀ i ∈ reads, 0 ≤ i ∧
    rd data' i.toNat = rd data i.toNat

theorem SameAt.head {i : ℕ} {l : List ℤ} (h : SameAt data data' ((i : ℤ) :: l)) :
    rd data' i = rd data i := by
  simpa using (h i List.mem_cons_self).2

theorem SameAt.tail {i : ℤ} {l : List ℤ} (h : SameAt data data' (i :: l)) : SameAt data data' l :=
  fun j hj => h j (List.mem_cons_of_mem _ hj)

theorem SameAt.left {l l' : List ℤ} (h : SameAt data data' (l ++ l')) : SameAt data data' l :=
  fun j hj => h j (List.mem_append_left _ hj)

theorem SameAt.right {l l' : List ℤ} (h : SameAt data data' (l ++ l')) : SameAt data data' l' :=
  fun j hj => h j (List.mem_append_right _ hj)

/-- The byte before a position. -/
theorem SameAt.pred {pos : ℕ} (h : SameAt data data' [(pos : ℤ) - 1]) :
    rd data' (pos - 1) = rd data (pos - 1) := by
  have h1 := (h _ List.mem_cons_self).2
  rwa [show ((pos : ℤ) - 1).toNat = pos - 1 by omega] at h1

theorem space_tail_same : ∀ {fuel pos : ℕ}, SameAt data data' (space_tail_reads data len fuel pos) →
    space_tail data' len fuel pos = space_tail data len fuel pos ∧
      rd data' (space_tail data len fuel pos - 1) = rd data (space_tail data len fuel pos - 1)
  | 0, _, h => ⟨rfl, h.pred⟩
  | fuel + 1, pos, h => by
    rw [space_tail_reads] at h
    rw [space_tail, space_tail]
    split at h
    swap
    · next hlt =>
      rw [if_neg hlt, if_neg hlt]
      exact ⟨rfl, h.pred⟩
    next hlt =>
    rw [if_pos hlt, if_pos hlt, h.head]
    split
    · next hs =>
      rw [if_pos hs] at h
      exact space_tail_same h.tail
    · exact ⟨rfl, h.head⟩

theorem skip_tail_same {pos : ℕ} {k : SpaceBits}
    (h : SameAt data data' (space_tail_reads data len len pos)) :
    skip_tail data' len pos k = skip_tail data len pos k := by
  obtain ⟨h1, h2⟩ := space_tail_same h
  rw [skip_tail, skip_tail, h1, h2]

/-- A block is read as a whole. -/
theorem GetNonSpaceBits_same {pos : ℕ} (h : SameAt data data' (block_reads pos)) :
    GetNonSpaceBits data' pos = GetNonSpaceBits data pos := by
  refine BitVec.eq_of_getLsbD_eq fun i hi => ?_
  have h1 := (h ((pos + i : ℕ) : ℤ) (List.mem_map.mpr ⟨i, List.mem_range.mpr hi, rfl⟩)).2
  rw [Int.toNat_natCast] at h1
  rw [getLsbD_GetNonSpaceBits, getLsbD_GetNonSpaceBits, h1]

theorem found_space_safe_same :
    ∀ {fuel pos : ℕ} {k : SpaceBits}, SameAt data data' (found_space_safe_reads data len fuel pos) →
    found_space_safe data' len fuel pos k = found_space_safe data len fuel pos k
  | 0, _, _, h => skip_tail_same h
  | fuel + 1, pos, k, h => by
    rw [found_space_safe_reads] at h
    rw [found_space_safe, found_space_safe]
    split at h
    swap
    · next hb =>
      rw [if_neg hb, if_neg hb]
      exact skip_tail_same h
    next hb =>
    dsimp only at h ⊢
    rw [if_pos hb, if_pos hb, GetNonSpaceBits_same h.left]
    split
    · next hz =>
      rw [if_pos hz] at h
      rw [h.right.head]
    · next hz =>
      rw [if_neg hz] at h
      exact found_space_safe_same h.right

/-- **The bytes at the positions decide the call.** -/
theorem skip_space_safe_same {pos : ℕ} {k : SpaceBits}
    (h : SameAt data data' (skip_space_safe_reads data pos len k)) :
    skip_space_safe data' pos len k = skip_space_safe data pos len k := by
  unfold skip_space_safe_reads at h
  unfold skip_space_safe
  split at h
  · next h0 =>
    rw [if_pos h0, if_pos h0]
    exact skip_tail_same h
  next h0 =>
  rw [if_neg h0, if_neg h0]
  split at h
  · next h1 => rw [h.head, if_pos h1, if_pos h1]
  next h1 =>
  split at h
  · next h2 => rw [h.head, h.tail.head, if_neg h1, if_neg h1, if_pos h2, if_pos h2]
  next h2 =>
  rw [h.head, h.tail.head, if_neg h1, if_neg h1, if_neg h2, if_neg h2]
  dsimp only at h ⊢
  split
  · next h3 =>
    rw [if_pos h3] at h
    exact found_space_safe_same h.tail.tail
  next h3 =>
  rw [if_neg h3] at h
  split
  · next h4 =>
    rw [if_pos h4] at h
    exact found_space_safe_same h.tail.tail
  · next h4 =>
    rw [if_neg h4] at h
    rw [h.tail.tail.head]

end

/-! ### Within the text -/

/-- The positions are those of bytes of the text. -/
def InBounds (len : ℕ) (reads : List ℤ) : Prop := ∀ i ∈ reads, 0 ≤ i ∧ i < len

section
variable {data : Bytes} {len : ℕ}

theorem InBounds.cons {i : ℕ} {l : List ℤ} (hi : i < len) (h : InBounds len l) :
    InBounds len ((i : ℤ) :: l) := by
  intro j hj
  rcases List.mem_cons.mp hj with rfl | hj
  · omega
  · exact h j hj

theorem InBounds.nil : InBounds len [] := fun _ h => absurd h List.not_mem_nil

theorem inBounds_pred {pos : ℕ} (h0 : 0 < pos) (h1 : pos ≤ len) : InBounds len [(pos : ℤ) - 1] := by
  intro j hj
  obtain rfl := List.mem_singleton.mp hj
  omega

theorem inBounds_tail (hlen : 0 < len) : ∀ {fuel pos : ℕ}, pos ≤ len → 0 < pos + fuel →
    InBounds len (space_tail_reads data len fuel pos)
  | 0, pos, hp, hf => inBounds_pred hf hp
  | fuel + 1, pos, hp, hf => by
    rw [space_tail_reads]
    split
    · next hlt =>
      refine .cons hlt ?_
      split
      · exact inBounds_tail hlen hlt (by omega)
      · exact .cons hlt .nil
    · exact inBounds_pred (by omega) hp

theorem inBounds_block {pos : ℕ} (h : pos + 64 ≤ len) : InBounds len (block_reads pos) := by
  intro j hj
  obtain ⟨i, hi, rfl⟩ := List.mem_map.mp hj
  have := List.mem_range.mp hi
  omega

theorem inBounds_found (hlen : 0 < len) :
    ∀ {fuel pos : ℕ}, pos ≤ len → InBounds len (found_space_safe_reads data len fuel pos)
  | 0, _, hp => inBounds_tail hlen hp (by omega)
  | fuel + 1, pos, hp => by
    rw [found_space_safe_reads]
    split
    swap
    · exact inBounds_tail hlen hp (by omega)
    next hb =>
    intro j hj
    rcases List.mem_append.mp hj with hj | hj
    · exact inBounds_block hb j hj
    split at hj
    · next hz =>
      have := Bits.ctz_lt hz
      exact InBounds.cons (show pos + Bits.ctz (GetNonSpaceBits data pos) < len by omega) .nil j hj
    · exact inBounds_found hlen hb j hj

/-- A call within the text reads within the text, as long as the block that is remembered is one of
the text. -/
theorem inBounds_skip_space_safe (hlen : 0 < len) {pos : ℕ} {k : SpaceBits} (hk : k.Valid data pos)
    (hp : pos ≤ len) (hend : k.nonspace_bits_end ≤ len) :
    InBounds len (skip_space_safe_reads data pos len k) := by
  unfold skip_space_safe_reads
  split
  · exact inBounds_tail hlen hp (by omega)
  split
  · exact .cons (by omega) .nil
  split
  · exact .cons (by omega) (.cons (by omega) .nil)
  next h1 h2 =>
  refine .cons (by omega) (.cons (by omega) ?_)
  dsimp only
  split
  · exact inBounds_found hlen (by omega)
  next h3 =>
  split
  · exact inBounds_found hlen hend
  · next h4 =>
    have hl := hk pos le_rfl (by simpa using h1) (by simpa using h2) (not_le.mp h3)
    have hb := hl.block
    have hc := Bits.ctz_lt h4
    exact .cons (by omega) .nil

theorem found_space_safe_end : ∀ {fuel pos : ℕ} {k : SpaceBits}, k.nonspace_bits_end ≤ len →
    (found_space_safe data len fuel pos k).2.2.nonspace_bits_end ≤ len
  | 0, _, _, h => h
  | fuel + 1, pos, k, h => by
    rw [found_space_safe]
    split
    swap
    · exact h
    next hb =>
    dsimp only
    split
    · exact hb
    · exact found_space_safe_end h

/-- The block that is remembered stays one of the text. -/
theorem skip_space_safe_end {pos : ℕ} {k : SpaceBits} (h : k.nonspace_bits_end ≤ len) :
    (skip_space_safe data pos len k).2.2.nonspace_bits_end ≤ len := by
  unfold skip_space_safe
  dsimp only
  split_ifs
  all_goals first
    | exact h
    | exact found_space_safe_end h

end

/-! ### A call -/

/-- What a call of `skip_space_safe` is to do: read within the text, come to the first byte that is
no space, where there is one, and leave a position that is not zero. -/
structure SpaceCall.SkipsSafely (data : Bytes) (len : ℕ) (q : SpaceCall) : Prop where
  reads : InBounds len (skip_space_safe_reads data q.pos len q.bits)
  first : ∀ p, NonSpace data q.pos p → p < len → (q.skip data len).c = rd data p ∧
    (q.skip data len).pos = p + 1
  step_back : 0 < (q.skip data len).pos

section
variable {data : Bytes} {len : ℕ} {q : SpaceCall}

/-- Where a call comes to, from within a text. -/
structure SpaceCall.Lands (data : Bytes) (len : ℕ) (q : SpaceCall) : Prop where
  le : q.pos ≤ (q.skip data len).pos
  pos : 0 < (q.skip data len).pos
  le_len : (q.skip data len).pos ≤ len
  byte : (q.skip data len).c = rd data ((q.skip data len).pos - 1)
  space : IsSpace (q.skip data len).c = true → (q.skip data len).pos = len
  valid : (q.skip data len).bits.Valid data (q.skip data len).pos
  end_le : (q.skip data len).bits.nonspace_bits_end ≤ len

/-- The first byte of a text from a position on that is no space, or spaces up to the end. -/
theorem nonSpace_or_spaces (data : Bytes) (len pos : ℕ) :
    (∃ p, NonSpace data pos p ∧ p < len) ∨ ∀ i, pos ≤ i → i < len → IsSpace (rd data i) = true := by
  by_cases h : ∃ i, pos ≤ i ∧ i < len ∧ IsSpace (rd data i) = false
  · left
    classical
    obtain ⟨h1, h2, h3⟩ := Nat.find_spec h
    refine ⟨Nat.find h, ⟨h1, fun i hi hl => ?_, h3⟩, h2⟩
    by_contra hc
    exact Nat.find_min h hl ⟨hi, hl.trans h2, by simpa using hc⟩
  · right
    intro i hi hl
    by_contra hc
    exact h ⟨i, hi, hl, by simpa using hc⟩

theorem SpaceCall.lands (hlen : 0 < len) (hk : q.bits.Valid data q.pos) (hp : q.pos ≤ len)
    (hend : q.bits.nonspace_bits_end ≤ len) : q.Lands data len := by
  have h := skip_space_safe_spec hk hp
  have h1 : (q.skip data len).c = (skip_space_safe data q.pos len q.bits).1 := rfl
  have h2 : (q.skip data len).pos = (skip_space_safe data q.pos len q.bits).2.1 := rfl
  have h3 : (q.skip data len).bits = (skip_space_safe data q.pos len q.bits).2.2 := rfl
  have hvalid : (q.skip data len).bits.Valid data (q.skip data len).pos := h3 ▸ h2 ▸ h.valid
  have hend' : (q.skip data len).bits.nonspace_bits_end ≤ len := h3 ▸ skip_space_safe_end hend
  rcases nonSpace_or_spaces data len q.pos with ⟨p, hn, hlt⟩ | hs
  · obtain ⟨e1, e2⟩ := h.found p hn hlt
    rw [← h1] at e1
    rw [← h2] at e2
    have := hn.le
    refine ⟨by omega, by omega, by omega, by rw [e1, e2, Nat.add_sub_cancel], fun hs => ?_,
      hvalid, hend'⟩
    rw [e1, hn.nonspace] at hs
    cases hs
  · obtain ⟨e1, e2⟩ := h.none hs
    rw [← h1] at e1
    rw [← h2] at e2
    exact ⟨by omega, by omega, by omega, by rw [e1, e2], fun _ => e2, hvalid, hend'⟩

/-- **A call within a text that is not empty goes well.** -/
theorem SpaceCall.skipsSafely (hlen : 0 < len) (hk : q.bits.Valid data q.pos) (hp : q.pos ≤ len)
    (hend : q.bits.nonspace_bits_end ≤ len) : q.SkipsSafely data len where
  reads := inBounds_skip_space_safe hlen hk hp hend
  first p hn hlt := (skip_space_safe_spec hk hp).found p hn hlt
  step_back := (SpaceCall.lands hlen hk hp hend).pos

/-- In an empty text a call reads before the text. -/
theorem SpaceCall.not_skipsSafely (hpos : q.pos = 0) : ¬ q.SkipsSafely data 0 := by
  intro h
  have h1 := h.reads (-1)
  rw [hpos] at h1
  have h2 := h1 (by simp [skip_space_safe_reads, space_tail_reads])
  omega

/-- Behind the end of a text a call reads behind the text. -/
theorem SpaceCall.not_skipsSafely_of_lt (hlt : len < q.pos) : ¬ q.SkipsSafely data len := by
  intro h
  have hreads : skip_space_safe_reads data q.pos len q.bits = [(q.pos : ℤ) - 1] := by
    unfold skip_space_safe_reads
    rw [if_pos (show len < q.pos + 64 + 2 by omega)]
    cases len with
    | zero => rfl
    | succ len => rw [space_tail_reads, if_neg (by omega)]
  have h1 := h.reads (q.pos - 1) (hreads ▸ List.mem_singleton.mpr rfl)
  omega

end

end SonicJson
