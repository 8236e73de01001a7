/-
# Looking for a token, and for the end of a string

`GetNextToken` finds the first of a few bytes, `SkipString` the first quote that
is not escaped. Both go by blocks of `VEC_LEN` bytes and end byte by byte.
`GetEscaped` is the mask of the escaped bytes of a block; `escAt` is what it
means, and `strEnd` is the byte automaton `SkipString` computes.
-/
import SonicJson.ParseString
import SonicJson.Space

namespace SonicJson

open Cursor

/-- The mask, in 64 bits, of a comparison of the first `n` bytes at `pos`. -/
def to_bitmask (n : ℕ) (data : Bytes) (pos : ℕ) (p : UInt8 → Bool) : BitVec 64 :=
  Bits.ofPred 64 fun i => decide (i < n) && p (rd data (pos + i))

theorem left_slice {data : Bytes} {pos len : ℕ} (hdata : len ≤ data.length) (hpos : pos ≤ len) :
    Left data len pos (slice data pos len) := by
  refine ⟨⟨?_, ?_⟩, hdata⟩
  · rw [slice, List.drop_take]
  · simpa using ⟨hpos, hpos.trans hdata⟩

variable (A : Arch)

/-! ### `GetNextToken` -/

/-- The bytes after the last whole block. -/
def nextTokenTail (data tokens : Bytes) (len : ℕ) : ℕ → ℕ → UInt8 × ℕ
  | 0, pos => (0, pos)
  | fuel + 1, pos =>
    if pos < len then
      if tokens.contains (rd data pos) then (rd data pos, pos)
        else nextTokenTail data tokens len fuel (pos + 1)
    else (0, pos)

def nextTokenBlocks (data tokens : Bytes) (len : ℕ) : ℕ → ℕ → UInt8 × ℕ
  | 0, pos => nextTokenTail data tokens len len pos
  | fuel + 1, pos =>
    if pos + A.VEC_LEN ≤ len then
      let next := to_bitmask A.VEC_LEN data pos tokens.contains
      if next ≠ 0 then (rd data (pos + Bits.ctz next), pos + Bits.ctz next)
      else nextTokenBlocks data tokens len fuel (pos + A.VEC_LEN)
    else nextTokenTail data tokens len len pos

/-- The first byte from `pos` on that is one of `tokens`, and where it is; 0 at the end when there
is none. -/
def GetNextToken (data : Bytes) (pos len : ℕ) (tokens : Bytes) : UInt8 × ℕ :=
  nextTokenBlocks A data tokens len len pos

/-! ### `SkipString` -/

/-- The mask of the escaped bytes of a block, and whether the byte after the block is one. -/
def GetEscaped (SONIC_BLOCK_SIZE : ℕ) (prev_escaped backslash : BitVec 64) : BitVec 64 × BitVec 64 :=
  let with_prev_backslash := backslash &&& ~~~prev_escaped
  let escaped := Bits.oddRunEnds with_prev_backslash
  let escaped_with_prev := escaped ^^^ (backslash ||| prev_escaped)
  (escaped_with_prev, ((escaped &&& backslash) >>> (SONIC_BLOCK_SIZE - 1)) &&& 1#64)

def kUnclosed : ℕ := 0
def kNormal : ℕ := 1
def kEscaped : ℕ := 2

/-- The bytes after the last whole block. -/
def skipStringTail (data : Bytes) (len : ℕ) : ℕ → Bool → ℕ → ℕ × ℕ
  | 0, _, pos => (kUnclosed, pos)
  | fuel + 1, found, pos =>
    if pos < len then
      if rd data pos = Ch.bslash then
        if len ≤ pos + 1 then (kUnclosed, pos) else skipStringTail data len fuel true (pos + 2)
      else if rd data pos = Ch.quote then (if found then kEscaped else kNormal, pos + 1)
      else skipStringTail data len fuel found (pos + 1)
    else (kUnclosed, pos)

def skipStringBlocks (data : Bytes) (len : ℕ) : ℕ → Bool → BitVec 64 → ℕ → ℕ × ℕ
  | 0, found, _, pos => skipStringTail data len len found pos
  | fuel + 1, found, prev_escaped, pos =>
    if pos + A.VEC_LEN ≤ len then
      let bs_bits := to_bitmask A.VEC_LEN data pos (· == Ch.bslash)
      let quote_bits := to_bitmask A.VEC_LEN data pos (· == Ch.quote)
      let maybe := decide ((quote_bits - 1#64) &&& bs_bits ≠ 0) || decide (prev_escaped ≠ 0)
      let (escaped, next) :=
        if maybe then GetEscaped A.VEC_LEN prev_escaped bs_bits else (0, prev_escaped)
      let found := found || maybe
      let quote_bits := quote_bits &&& ~~~escaped
      if quote_bits ≠ 0 then (if found then kEscaped else kNormal, pos + Bits.ctz quote_bits + 1)
      else skipStringBlocks data len fuel found next (pos + A.VEC_LEN)
    else skipStringTail data len len found (if prev_escaped ≠ 0 then pos + 1 else pos)

/-- Skips to after the closing quote of the string whose opening quote is before `pos`. -/
def SkipString (data : Bytes) (pos len : ℕ) : ℕ × ℕ := skipStringBlocks A data len len false 0 pos

/-! ### The position only moves forward -/

section
variable {A} {data tokens : Bytes} {len : ℕ}

theorem le_nextTokenTail : ∀ (fuel pos : ℕ), pos ≤ (nextTokenTail data tokens len fuel pos).2
  | 0, pos => le_rfl
  | fuel + 1, pos => by
    rw [nextTokenTail]
    split_ifs
    exacts [le_rfl, (Nat.le_succ pos).trans (le_nextTokenTail fuel (pos + 1)), le_rfl]

theorem le_nextTokenBlocks : ∀ (fuel pos : ℕ), pos ≤ (nextTokenBlocks A data tokens len fuel pos).2
  | 0, pos => le_nextTokenTail len pos
  | fuel + 1, pos => by
    rw [nextTokenBlocks]
    dsimp only
    split_ifs
    exacts [Nat.le_add_right _ _,
      (Nat.le_add_right _ _).trans (le_nextTokenBlocks fuel (pos + A.VEC_LEN)),
      le_nextTokenTail len pos]

theorem le_GetNextToken (pos : ℕ) : pos ≤ (GetNextToken A data pos len tokens).2 :=
  le_nextTokenBlocks len pos

theorem nextTokenTail_of_ge :
    ∀ (fuel pos : ℕ), len ≤ pos → nextTokenTail data tokens len fuel pos = (0, pos)
  | 0, _, _ => rfl
  | fuel + 1, pos, h => by rw [nextTokenTail, if_neg (by omega)]

/-- At the end of the text there is no token. -/
theorem GetNextToken_of_ge {pos : ℕ} (h : len ≤ pos) :
    GetNextToken A data pos len tokens = (0, pos) := by
  have hV := A.VEC_LEN_pos
  unfold GetNextToken
  cases len with
  | zero => rw [nextTokenBlocks, nextTokenTail_of_ge _ _ h]
  | succ n => rw [nextTokenBlocks, if_neg (by omega), nextTokenTail_of_ge _ _ h]

theorem le_skipStringTail :
    ∀ (fuel : ℕ) (found : Bool) (pos : ℕ), pos ≤ (skipStringTail data len fuel found pos).2
  | 0, _, _ => le_rfl
  | fuel + 1, found, pos => by
    have h1 := le_skipStringTail fuel true (pos + 2)
    have h2 := le_skipStringTail fuel found (pos + 1)
    rw [skipStringTail]
    split_ifs
    all_goals first | exact le_rfl | exact Nat.le_succ pos | omega

theorem le_skipStringBlocks : ∀ (fuel : ℕ) (found : Bool) (prev : BitVec 64) (pos : ℕ),
    pos ≤ (skipStringBlocks A data len fuel found prev pos).2
  | 0, found, _, pos => le_skipStringTail len found pos
  | fuel + 1, found, prev, pos => by
    have h1 := fun f p => le_skipStringBlocks fuel f p (pos + A.VEC_LEN)
    have h2 := @le_skipStringTail data len len found
    rw [skipStringBlocks]
    dsimp only
    split_ifs
    all_goals first
      | exact (Nat.le_add_right pos _).trans (Nat.le_succ _)
      | exact (Nat.le_add_right pos _).trans (h1 _ _)
      | exact (Nat.le_add_right pos 1).trans (h2 _)
      | exact h2 _

theorem le_SkipString (pos : ℕ) : pos ≤ (SkipString A data pos len).2 :=
  le_skipStringBlocks len false 0 pos

end

/-! ### What the masks say -/

theorem getLsbD_to_bitmask {n : ℕ} (hn : n ≤ 64) (data : Bytes) (pos : ℕ) (p : UInt8 → Bool) (i : ℕ) :
    (to_bitmask n data pos p).getLsbD i = (decide (i < n) && p (rd data (pos + i))) := by
  rw [to_bitmask, Bits.getLsbD_ofPred]
  by_cases h : i < n
  · simp [h, show i < 64 by omega]
  · simp [h]

theorem Arch.VEC_LEN_le_64 : A.VEC_LEN ≤ 64 := A.VEC_LEN_le.trans (by omega)

/-- Whether the byte at `i` is escaped, by the backslashes before it. -/
def escAt (bs : ℕ → Bool) (prev : Bool) : ℕ → Bool
  | 0 => prev
  | i + 1 => bs i && !escAt bs prev i

/-- A flag as the source keeps it, 0 or 1. -/
def flag (b : Bool) : BitVec 64 := if b then 1#64 else 0#64

theorem getLsbD_flag (b : Bool) (i : ℕ) : (flag b).getLsbD i = (b && decide (i = 0)) := by
  cases b <;> simp [flag]

theorem afterOdd_eq_escAt {bs y : ℕ → Bool} {prev : Bool} (h0 : y 0 = (bs 0 && !prev))
    (hy : ∀ i, 0 < i → y i = bs i) :
    ∀ i, Bits.afterOdd y (i + 1) = escAt bs prev (i + 1)
  | 0 => by simp [Bits.afterOdd, escAt, h0]
  | i + 1 => by
    rw [Bits.afterOdd, afterOdd_eq_escAt h0 hy i, hy (i + 1) (by omega)]
    rfl

theorem getLsbD_GetEscaped {n : ℕ} (prev : Bool) (bs : BitVec 64) {i : ℕ} (hi : i < 64) :
    (GetEscaped n (flag prev) bs).1.getLsbD i = escAt bs.getLsbD prev i := by
  set y := bs &&& ~~~flag prev with hy
  have hyb : ∀ j < 64, y.getLsbD j = (bs.getLsbD j && !(prev && decide (j = 0))) := by
    intro j hj
    rw [hy, BitVec.getLsbD_and, BitVec.getLsbD_not, getLsbD_flag]
    simp [hj]
  have h1 : (GetEscaped n (flag prev) bs).1.getLsbD i =
      ((Bits.afterOdd y.getLsbD i ^^ y.getLsbD i) ^^ (bs.getLsbD i || (prev && decide (i = 0)))) := by
    rw [GetEscaped]
    simp only [BitVec.getLsbD_xor, BitVec.getLsbD_or, Bits.getLsbD_oddRunEnds _ hi, getLsbD_flag, ← hy]
  rw [h1, hyb i hi]
  cases i with
  | zero => cases prev <;> cases bs.getLsbD 0 <;> rfl
  | succ i =>
    have h2 : ∀ j, 0 < j → y.getLsbD j = bs.getLsbD j := by
      intro j hj
      by_cases hj64 : j < 64
      · rw [hyb j hj64]
        simp [show j ≠ 0 by omega]
      · rw [BitVec.getLsbD_of_ge _ _ (by omega), BitVec.getLsbD_of_ge _ _ (by omega)]
    rw [@afterOdd_eq_escAt bs.getLsbD _ prev (by rw [hyb 0 (by omega)]; simp) h2 i]
    simp

/-- The flag passed on is that of the byte after the block. -/
theorem GetEscaped_next {n : ℕ} (hn : n + 1 ≤ 64) (prev : Bool) (bs : BitVec 64) :
    (GetEscaped (n + 1) (flag prev) bs).2 = flag (escAt bs.getLsbD prev (n + 1)) := by
  set y := bs &&& ~~~flag prev with hy
  have hyb : ∀ j < 64, y.getLsbD j = (bs.getLsbD j && !(prev && decide (j = 0))) := by
    intro j hj
    rw [hy, BitVec.getLsbD_and, BitVec.getLsbD_not, getLsbD_flag]
    simp [hj]
  have h2 : ∀ j, 0 < j → y.getLsbD j = bs.getLsbD j := by
    intro j hj
    by_cases hj64 : j < 64
    · rw [hyb j hj64]
      simp [show j ≠ 0 by omega]
    · rw [BitVec.getLsbD_of_ge _ _ (by omega), BitVec.getLsbD_of_ge _ _ (by omega)]
  have hbit : (Bits.oddRunEnds y &&& bs).getLsbD n = escAt bs.getLsbD prev (n + 1) := by
    rw [BitVec.getLsbD_and, Bits.getLsbD_oddRunEnds y (by omega), hyb n (by omega)]
    cases n with
    | zero =>
      simp only [escAt, Bits.afterOdd, decide_true]
      cases prev <;> cases bs.getLsbD 0 <;> rfl
    | succ n =>
      rw [@afterOdd_eq_escAt bs.getLsbD _ prev (by rw [hyb 0 (by omega)]; simp) h2 n]
      change _ = (bs.getLsbD (n + 1) && !escAt bs.getLsbD prev (n + 1))
      cases bs.getLsbD (n + 1) <;> simp
  apply BitVec.eq_of_getLsbD_eq
  intro j hj
  rw [GetEscaped]
  simp only [← hy, BitVec.getLsbD_and, BitVec.getLsbD_ushiftRight, Nat.add_sub_cancel, getLsbD_flag]
  rw [← hbit]
  by_cases h0 : j = 0
  · subst h0
    simp
  · simp [h0]

/-! ### The next token -/

theorem dropWhile_first {p : UInt8 → Bool} {s : Bytes} {k : ℕ} (hk : k < s.length)
    (hp : ∀ i < k, p (rd s i) = true) (hn : p (rd s k) = false) :
    s.dropWhile p = rd s k :: s.drop (k + 1) :=
  (at_zero s).dropWhile (Nat.zero_le k) hk (fun i _ hi => hp i hi) hn

theorem dropWhile_block {p : UInt8 → Bool} {s : Bytes} {k : ℕ} (hk : k ≤ s.length)
    (hp : ∀ i < k, p (rd s i) = true) : s.dropWhile p = (s.drop k).dropWhile p := by
  conv_lhs => rw [← List.take_append_drop k s]
  rw [List.dropWhile_append_of_pos]
  refine forall_mem_of_rd fun i hi => ?_
  rw [List.length_take, Nat.min_eq_left hk] at hi
  have := hp i hi
  rwa [← List.take_append_drop k s, rd_append_left (by simp; omega)] at this

/-- What is returned for the text `u` that is left after the bytes that are no token. -/
def tokenAt (len : ℕ) : Bytes → UInt8 × ℕ
  | [] => (0, len)
  | c :: t => (c, len - (t.length + 1))

section
variable {A} {data tokens s : Bytes} {len : ℕ}

theorem nextTokenTail_eq : ∀ (fuel pos : ℕ) (s : Bytes), Left data len pos s → s.length ≤ fuel →
    nextTokenTail data tokens len fuel pos = tokenAt len (s.dropWhile fun b => !tokens.contains b)
  | 0, pos, [], h, _ => by
    have := h.length_add
    rw [nextTokenTail, List.dropWhile_nil, tokenAt]
    simpa using this
  | fuel + 1, pos, [], h, _ => by
    have := h.length_add
    simp only [List.length_nil, Nat.add_zero] at this
    rw [nextTokenTail, if_neg (by omega), List.dropWhile_nil, tokenAt, this]
  | fuel + 1, pos, b :: s, h, hf => by
    have hl := h.length_add
    simp only [List.length_cons] at hl hf
    rw [nextTokenTail, if_pos (by omega), h.rd_eq, List.dropWhile_cons]
    by_cases hb : tokens.contains b = true
    · rw [if_pos hb, if_neg (by simpa using hb), tokenAt]
      congr 1
      omega
    · rw [if_neg hb, if_pos (by simpa using hb)]
      exact nextTokenTail_eq fuel (pos + 1) s h.succ (by omega)

theorem nextTokenBlocks_eq : ∀ (fuel pos : ℕ) (s : Bytes), Left data len pos s →
    nextTokenBlocks A data tokens len fuel pos = tokenAt len (s.dropWhile fun b => !tokens.contains b)
  | 0, pos, s, h => nextTokenTail_eq len pos s h (by have := h.length_add; omega)
  | fuel + 1, pos, s, h => by
    have hl := h.length_add
    rw [nextTokenBlocks]
    by_cases hb : pos + A.VEC_LEN ≤ len
    swap
    · rw [if_neg hb]
      exact nextTokenTail_eq len pos s h (by omega)
    rw [if_pos hb]
    have hbit : ∀ i < s.length, (to_bitmask A.VEC_LEN data pos tokens.contains).getLsbD i =
        (decide (i < A.VEC_LEN) && tokens.contains (rd s i)) := fun i hi => by
      rw [getLsbD_to_bitmask A.VEC_LEN_le_64, h.rd_add hi]
    have hV64 := A.VEC_LEN_le_64
    set next := to_bitmask A.VEC_LEN data pos tokens.contains with hnext
    by_cases hz : next = 0
    · have hnone : ∀ i < A.VEC_LEN, (!tokens.contains (rd s i)) = true := fun i hi => by
        have := (Bits.eq_zero_iff next).mp hz i (by omega)
        rw [hbit i (by omega)] at this
        simpa [hi] using this
      rw [if_neg (by simpa using hz), dropWhile_block (by omega) hnone]
      exact nextTokenBlocks_eq fuel (pos + A.VEC_LEN) (s.drop A.VEC_LEN) (h.drop (by omega))
    · have hlt : Bits.ctz next < A.VEC_LEN := by
        have := Bits.getLsbD_ctz hz
        rw [hnext, getLsbD_to_bitmask A.VEC_LEN_le_64, ← hnext] at this
        simp only [Bool.and_eq_true, decide_eq_true_eq] at this
        exact this.1
      have hhit := Bits.getLsbD_ctz hz
      rw [hbit _ (by omega)] at hhit
      have hbelow : ∀ i < Bits.ctz next, (!tokens.contains (rd s i)) = true := fun i hi => by
        have := Bits.getLsbD_of_lt_ctz next hi
        rw [hbit i (by omega)] at this
        simpa [show i < A.VEC_LEN by omega] using this
      rw [if_pos (by simpa using hz), dropWhile_first (by omega) hbelow (by simpa [hlt] using hhit),
        tokenAt, h.rd_add (by omega), List.length_drop]
      congr 1
      omega

/-- **The next token** is what `dropWhile` comes to. -/
theorem GetNextToken_eq {pos : ℕ} (h : Left data len pos s) :
    GetNextToken A data pos len tokens = tokenAt len (s.dropWhile fun b => !tokens.contains b) :=
  nextTokenBlocks_eq len pos s h

end

/-! ### The end of a string -/

/-- What is left after the first quote that is not escaped; `esc` says that the first byte is. -/
def strEnd : Bool → Bytes → Option Bytes
  | _, [] => none
  | true, _ :: s => strEnd false s
  | false, b :: s => if b = Ch.quote then some s else strEnd (b == Ch.bslash) s

@[simp] theorem strEnd_nil (esc : Bool) : strEnd esc [] = none := by cases esc <;> rfl

/-- Whether the byte of `s` at `i` is escaped. -/
def escIn (s : Bytes) (esc : Bool) : ℕ → Bool := escAt (fun i => rd s i == Ch.bslash) esc

theorem escIn_cons (b : UInt8) (s : Bytes) (esc : Bool) : ∀ i, escIn (b :: s) esc (i + 1) =
    escIn s ((b == Ch.bslash) && !esc) i
  | 0 => rfl
  | i + 1 => by
    have := escIn_cons b s esc i
    unfold escIn at *
    rw [escAt, this, escAt, rd_cons_succ]

/-- Past bytes none of which is a closing quote. -/
theorem strEnd_drop : ∀ {s : Bytes} {esc : Bool} {i : ℕ}, i ≤ s.length →
    (∀ j < i, ¬ (rd s j = Ch.quote ∧ escIn s esc j = false)) → strEnd esc s = strEnd (escIn s esc i)
    (s.drop i)
  | s, esc, 0, _, _ => rfl
  | [], _, i + 1, hi, _ => by simp at hi
  | b :: s, esc, i + 1, hi, h => by
    have h0 : ¬ (b = Ch.quote ∧ esc = false) := h 0 (by omega)
    rw [escIn_cons, List.drop_succ_cons, ← strEnd_drop (by simpa using hi) fun j hj => ?_]
    · cases esc with
      | true => simp [strEnd]
      | false => simp [strEnd, show b ≠ Ch.quote by simpa using h0]
    · have := h (j + 1) (by omega)
      rwa [rd_cons_succ, escIn_cons] at this

theorem strEnd_quote {s : Bytes} {i : ℕ} (hi : i < s.length) (hq : rd s i = Ch.quote) :
    strEnd false (s.drop i) = some (s.drop (i + 1)) := by
  have hat := (at_cons_rd hi).drop
  rw [hat, hq, strEnd, if_pos rfl]

/-- A string without backslash ends at its first quote. -/
theorem strEnd_plain {a : Bytes} (t : Bytes) : ∀ (_ : Ch.quote ∉ a) (_ : Ch.bslash ∉ a),
    strEnd false (a ++ Ch.quote :: t) = some t := by
  induction a with
  | nil => intro _ _; simp [strEnd]
  | cons b a ih =>
    intro hq hb
    simp only [List.mem_cons, not_or] at hq hb
    rw [List.cons_append, strEnd, if_neg (Ne.symm hq.1),
      show (b == Ch.bslash) = false by simpa using Ne.symm hb.1]
    exact ih hq.2 hb.2

/-- What `SkipString` returns: the status, and the position after the closing quote. `kNormal`
promises that there is no backslash. -/
def SkipsString (len : ℕ) (found : Bool) (s : Bytes) (r : ℕ × ℕ) : Option Bytes → Prop
  | none => r.1 = kUnclosed
  | some t =>
    (r.1 = kEscaped ∨ r.1 = kNormal ∧ found = false ∧ ∃ a, s = a ++ Ch.quote :: t ∧ Ch.bslash ∉ a) ∧
      r.2 = len - t.length

section
variable {A} {data : Bytes} {len : ℕ}

theorem SkipsString.status {found : Bool} {s a t : Bytes} (h : s = a ++ Ch.quote :: t)
    (ha : found = false → Ch.bslash ∉ a) {p : ℕ} (hp : p = len - t.length) :
    SkipsString len found s (if found then kEscaped else kNormal, p) (some t) := by
  refine ⟨?_, hp⟩
  cases found with
  | true => exact .inl rfl
  | false => exact .inr ⟨rfl, rfl, a, h, ha rfl⟩

/-- More has been read, with no backslash unless `found` says so. -/
theorem SkipsString.append {found found' : Bool} {s a : Bytes} {r : ℕ × ℕ} {o : Option Bytes}
    (h : SkipsString len found' s r o) (hf : found' = false → found = false ∧ Ch.bslash ∉ a) :
    SkipsString len found (a ++ s) r o := by
  cases o with
  | none => exact h
  | some t =>
    obtain ⟨h1 | ⟨h1, h2, b, rfl, hb⟩, h3⟩ := h
    · exact ⟨.inl h1, h3⟩
    · obtain ⟨h4, h5⟩ := hf h2
      refine ⟨.inr ⟨h1, h4, a ++ b, by simp, ?_⟩, h3⟩
      simp [h5, hb]

theorem skipStringTail_spec : ∀ (fuel : ℕ) (found : Bool) (pos : ℕ) (s : Bytes), Left data len pos s →
    s.length ≤ fuel → SkipsString len found s (skipStringTail data len fuel found pos) (strEnd false s)
  | 0, _, _, [], _, _ => rfl
  | fuel + 1, found, pos, [], h, _ => by
    have := h.length_add
    simp only [List.length_nil, Nat.add_zero] at this
    rw [skipStringTail, if_neg (by omega)]
    rfl
  | fuel + 1, found, pos, b :: s, h, hf => by
    have hl := h.length_add
    simp only [List.length_cons] at hl hf
    rw [skipStringTail, if_pos (by omega), h.rd_eq]
    by_cases hb : b = Ch.bslash
    · subst hb
      have hse : strEnd false (Ch.bslash :: s) = strEnd true s := rfl
      rw [if_pos rfl, hse]
      cases s with
      | nil =>
        rw [if_pos (by simp at hl; omega)]
        rfl
      | cons c s =>
        simp only [List.length_cons] at hl hf
        rw [if_neg (by omega)]
        exact SkipsString.append (a := [Ch.bslash, c])
          (skipStringTail_spec fuel true (pos + 2) s h.succ.succ (by omega))
          fun hc => absurd hc (by decide)
    rw [if_neg hb]
    by_cases hq : b = Ch.quote
    · subst hq
      rw [if_pos rfl, strEnd, if_pos rfl]
      exact .status (a := []) rfl (fun _ => by simp) (by omega)
    · rw [if_neg hq, strEnd, if_neg hq, show (b == Ch.bslash) = false by simpa using hb]
      exact SkipsString.append (a := [b]) (skipStringTail_spec fuel found (pos + 1) s h.succ (by omega))
        fun hc => ⟨hc, by simpa using Ne.symm hb⟩

theorem escAt_congr {f g : ℕ → Bool} {e : Bool} :
    ∀ {n : ℕ}, (∀ i < n, f i = g i) → escAt f e n = escAt g e n
  | 0, _ => rfl
  | n + 1, h => by rw [escAt, escAt, h n (by omega), escAt_congr fun i hi => h i (by omega)]

/-- Without a backslash nothing is escaped. -/
theorem escIn_none {s : Bytes} : ∀ {i : ℕ}, (∀ j < i, rd s j ≠ Ch.bslash) → escIn s false i = false
  | 0, _ => rfl
  | i + 1, h => by
    have := h i (by omega)
    simp [escIn, escAt, this]

theorem not_mem_take {s : Bytes} {k : ℕ} {c : UInt8} (hk : k ≤ s.length) (h : ∀ i < k, rd s i ≠ c) :
    c ∉ s.take k := by
  intro hc
  have := forall_mem_of_rd (a := s.take k) (P := (· ≠ c)) fun i hi => ?_
  · exact this c hc rfl
  · rw [List.length_take, Nat.min_eq_left hk] at hi
    have := h i hi
    rwa [← List.take_append_drop k s, rd_append_left (by simp; omega)] at this

theorem skipStringBlocks_spec :
    ∀ (fuel : ℕ) (found esc : Bool) (pos : ℕ) (s : Bytes), Left data len pos s →
    (esc = true → found = true) → s.length ≤ fuel →
    SkipsString len found s (skipStringBlocks A data len fuel found (flag esc) pos) (strEnd esc s)
  | 0, found, esc, pos, [], h, _, _ => by
    have := h.length_add
    simp only [List.length_nil, Nat.add_zero] at this
    subst this
    have : skipStringTail data pos pos found pos = (kUnclosed, pos) := by
      cases pos <;> simp [skipStringTail]
    rw [skipStringBlocks, strEnd_nil, this]
    rfl
  | fuel + 1, found, esc, pos, s, h, hfe, hf => by
    have hl := h.length_add
    have hV0 := A.VEC_LEN_pos
    have hV64 := A.VEC_LEN_le_64
    rw [skipStringBlocks]
    by_cases hb : pos + A.VEC_LEN ≤ len
    swap
    · -- the bytes after the last block
      rw [if_neg hb]
      cases esc with
      | false =>
        rw [if_neg (by decide)]
        exact skipStringTail_spec len found pos s h (by omega)
      | true =>
        rw [if_pos (by decide), hfe rfl]
        cases s with
        | nil =>
          simp only [List.length_nil, Nat.add_zero] at hl
          subst hl
          have : skipStringTail data pos pos true (pos + 1) = (kUnclosed, pos + 1) := by
            cases pos <;> simp [skipStringTail]
          rw [this]
          rfl
        | cons b s =>
          simp only [List.length_cons] at hl
          exact SkipsString.append (a := [b])
            (skipStringTail_spec len true (pos + 1) s h.succ (by omega))
            fun hc => absurd hc (by decide)
    rw [if_pos hb]
    have hbs : ∀ i < A.VEC_LEN, (to_bitmask A.VEC_LEN data pos (· == Ch.bslash)).getLsbD i =
        (rd s i == Ch.bslash) := fun i hi => by
      rw [getLsbD_to_bitmask hV64, h.rd_add (by omega)]
      simp [hi]
    have hq : ∀ i < A.VEC_LEN, (to_bitmask A.VEC_LEN data pos (· == Ch.quote)).getLsbD i =
        (rd s i == Ch.quote) := fun i hi => by
      rw [getLsbD_to_bitmask hV64, h.rd_add (by omega)]
      simp [hi]
    have hqge : ∀ i, A.VEC_LEN ≤ i → (to_bitmask A.VEC_LEN data pos (· == Ch.quote)).getLsbD i =
        false := fun i hi => by
      rw [getLsbD_to_bitmask hV64]
      simp [not_lt.mpr hi]
    have hdisj : ∀ i < 64, (to_bitmask A.VEC_LEN data pos (· == Ch.quote)).getLsbD i = true →
        (to_bitmask A.VEC_LEN data pos (· == Ch.bslash)).getLsbD i = false := fun i _ hi => by
      rcases lt_or_ge i A.VEC_LEN with hv | hv
      · rw [hq i hv, beq_iff_eq] at hi
        rw [hbs i hv, hi]
        decide
      · rw [hqge i hv] at hi
        exact absurd hi (by decide)
    set bs := to_bitmask A.VEC_LEN data pos (· == Ch.bslash) with hbsdef
    set q := to_bitmask A.VEC_LEN data pos (· == Ch.quote) with hqdef
    have hstep : ∀ {f : Bool}, (f = false → found = false ∧ Ch.bslash ∉ s.take A.VEC_LEN) →
        (escIn s esc A.VEC_LEN = true → f = true) →
        (∀ j < A.VEC_LEN, ¬ (rd s j = Ch.quote ∧ escIn s esc j = false)) →
        SkipsString len found s (skipStringBlocks A data len fuel f (flag (escIn s esc A.VEC_LEN))
          (pos + A.VEC_LEN))
          (strEnd esc s) := by
      intro f hf1 hf2 hno
      have ih :=
        skipStringBlocks_spec fuel f (escIn s esc A.VEC_LEN) (pos + A.VEC_LEN) (s.drop A.VEC_LEN)
        (h.drop (by omega)) hf2 (by simp; omega)
      have := SkipsString.append (a := s.take A.VEC_LEN) ih hf1
      rwa [List.take_append_drop, ← strEnd_drop (by omega) hno] at this
    have hhit : ∀ {k : ℕ}, k < A.VEC_LEN → rd s k = Ch.quote → escIn s esc k = false →
        (∀ j < k, ¬ (rd s j = Ch.quote ∧ escIn s esc j = false)) →
        strEnd esc s = some (s.drop (k + 1)) ∧ pos + k + 1 = len - (s.drop (k + 1)).length ∧
          s = s.take k ++ Ch.quote :: s.drop (k + 1) := by
      intro k hk hkq hke hno
      have hks : k < s.length := by omega
      refine ⟨?_, by simp; omega, ?_⟩
      · rw [strEnd_drop (by omega) hno, hke, strEnd_quote hks hkq]
      · rw [← hkq, ← (at_cons_rd hks).drop, List.take_append_drop]
    by_cases hm : (decide ((q - 1#64) &&& bs ≠ 0) || decide (flag esc ≠ 0)) = true
    · -- escaped bytes are masked out
      simp only [hm, if_true, Bool.or_true]
      obtain ⟨n, hn⟩ : ∃ n, A.VEC_LEN = n + 1 := ⟨A.VEC_LEN - 1, by omega⟩
      have hesc : ∀ i < A.VEC_LEN, (GetEscaped A.VEC_LEN (flag esc) bs).1.getLsbD i =
          escIn s esc i := fun i hi => by
        rw [getLsbD_GetEscaped esc bs (by omega)]
        exact escAt_congr fun j hj => hbs j (by omega)
      have hnext : (GetEscaped A.VEC_LEN (flag esc) bs).2 = flag (escIn s esc A.VEC_LEN) := by
        have h1 : escAt bs.getLsbD esc A.VEC_LEN = escIn s esc A.VEC_LEN :=
          escAt_congr fun j hj => hbs j hj
        rw [← h1, hn]
        exact GetEscaped_next (by omega) esc bs
      set real := q &&& ~~~(GetEscaped A.VEC_LEN (flag esc) bs).1 with hreal
      have hbit : ∀ i < A.VEC_LEN, real.getLsbD i = true ↔ rd s i = Ch.quote ∧
          escIn s esc i = false := fun i hi => by
        rw [hreal, BitVec.getLsbD_and, BitVec.getLsbD_not, hesc i hi, hq i hi]
        simp [show i < 64 by omega]
      by_cases hz : real = 0
      · rw [if_neg (by simpa using hz), hnext]
        refine hstep (fun hc => absurd hc (by decide)) (fun _ => rfl) fun j hj hc => ?_
        have := (Bits.eq_zero_iff real).mp hz j (by omega)
        rw [(hbit j hj).mpr hc] at this
        exact absurd this (by decide)
      · have hk := Bits.getLsbD_ctz hz
        have hkV : Bits.ctz real < A.VEC_LEN := by
          by_contra hc
          rw [hreal, BitVec.getLsbD_and, ← hreal, hqge _ (not_lt.mp hc)] at hk
          simp at hk
        obtain ⟨hkq, hke⟩ := (hbit _ hkV).mp hk
        obtain ⟨h1, h2, -⟩ := hhit hkV hkq hke fun j hj hc => by
          have := Bits.getLsbD_of_lt_ctz real hj
          rw [(hbit j (by omega)).mpr hc] at this
          exact absurd this (by decide)
        rw [if_pos (by simpa using hz), h1]
        exact ⟨.inl rfl, h2⟩
    · -- no backslash before the first quote
      simp only [hm, Bool.or_false]
      simp only [Bool.or_eq_true, decide_eq_true_eq, not_or, not_not] at hm
      obtain ⟨hm1, hm2⟩ := hm
      have hesc : esc = false := by
        cases esc
        · rfl
        · exact absurd hm2 (by decide)
      subst hesc
      rw [Bits.sub_one_and_eq_zero q bs hdisj] at hm1
      simp only [Bool.false_eq_true, if_false]
      have hnot : q &&& ~~~(0 : BitVec 64) = q := by
        rw [show ~~~(0 : BitVec 64) = BitVec.allOnes 64 from rfl, BitVec.and_allOnes]
      rw [hnot]
      have hplain : ∀ i < Bits.ctz q, i < A.VEC_LEN → rd s i ≠ Ch.bslash ∧ rd s i ≠ Ch.quote :=
          fun i hi hv => by
        have h1 := hm1 i hi
        have h2 := Bits.getLsbD_of_lt_ctz q hi
        rw [hbs i hv] at h1
        rw [hq i hv] at h2
        exact ⟨by simpa using h1, by simpa using h2⟩
      by_cases hz : q = 0
      · have h64 := Bits.ctz_eq_width hz
        have hall : ∀ i < A.VEC_LEN, rd s i ≠ Ch.bslash ∧ rd s i ≠ Ch.quote :=
          fun i hi => hplain i (by omega) hi
        have heV : escIn s false A.VEC_LEN = false := escIn_none fun j hj => (hall j hj).1
        rw [if_neg (by simpa using hz)]
        have := hstep (f := found) (fun hc => ⟨hc, not_mem_take (by omega) fun i hi => (hall i hi).1⟩)
          (fun hc => by rw [heV] at hc; exact absurd hc (by decide)) fun j hj hc => (hall j hj).2 hc.1
        rwa [heV] at this
      · have hk := Bits.getLsbD_ctz hz
        have hkV : Bits.ctz q < A.VEC_LEN := by
          by_contra hc
          rw [hqge _ (not_lt.mp hc)] at hk
          exact absurd hk (by decide)
        rw [hq _ hkV, beq_iff_eq] at hk
        obtain ⟨h1, h2, h3⟩ := hhit hkV hk (escIn_none fun j hj => (hplain j hj (by omega)).1)
          fun j hj hc => (hplain j hj (by omega)).2 hc.1
        rw [if_pos (by simpa using hz), h1]
        exact .status h3 (fun _ => not_mem_take (by omega) fun i hi => (hplain i hi (by omega)).1) h2

/-- **The end of a string**: the first quote that no backslash escapes. -/
theorem SkipString_spec {pos : ℕ} {s : Bytes} (h : Left data len pos s) :
    SkipsString len false s (SkipString A data pos len) (strEnd false s) :=
  skipStringBlocks_spec len false false pos s h (fun hc => absurd hc (by decide))
    (by have := h.length_add; omega)

/-! ### Strings without escapes -/

theorem skipStringTail_plain {t : Bytes} :
    ∀ {a : Bytes} {fuel pos : ℕ}, Left data len pos (a ++ Ch.quote :: t) →
    a.length < fuel → Ch.quote ∉ a → Ch.bslash ∉ a →
      (skipStringTail data len fuel false pos).1 = kNormal
  | _, 0, _, _, hf, _, _ => absurd hf (Nat.not_lt_zero _)
  | [], fuel + 1, pos, h, _, _, _ => by
    have hl := h.length_add
    simp only [List.nil_append, List.length_cons] at hl
    have hq : rd data pos = Ch.quote := h.rd_eq
    rw [skipStringTail, if_pos (by omega), hq, if_neg (by decide), if_pos rfl, if_neg (by decide)]
  | b :: a, fuel + 1, pos, h, hf, hq, hb => by
    have hl := h.length_add
    simp only [List.length_append, List.length_cons] at hl hf
    have hrd : rd data pos = b := h.rd_eq
    simp only [List.mem_cons, not_or] at hq hb
    rw [skipStringTail, if_pos (by omega), hrd, if_neg (Ne.symm hb.1), if_neg (Ne.symm hq.1)]
    exact skipStringTail_plain (a := a) h.succ (by omega) hq.2 hb.2

theorem skipStringBlocks_plain {t : Bytes} :
    ∀ {fuel pos : ℕ} {a : Bytes}, Left data len pos (a ++ Ch.quote :: t) →
    a.length < fuel → Ch.quote ∉ a → Ch.bslash ∉ a →
      (skipStringBlocks A data len fuel false 0 pos).1 = kNormal
  | 0, _, _, _, hf, _, _ => absurd hf (Nat.not_lt_zero _)
  | fuel + 1, pos, a, h, hf, hqa, hba => by
    have hl := h.length_add
    simp only [List.length_append, List.length_cons] at hl
    have hV0 := A.VEC_LEN_pos
    have hV64 := A.VEC_LEN_le_64
    rw [skipStringBlocks]
    by_cases hblk : pos + A.VEC_LEN ≤ len
    swap
    · rw [if_neg hblk, if_neg (by decide)]
      exact skipStringTail_plain h (by omega) hqa hba
    rw [if_pos hblk]
    have hin : ∀ i < a.length, rd (a ++ Ch.quote :: t) i ∈ a := fun i hi => by
      rw [rd_append_left hi]
      exact rd_mem hi
    have hbit : ∀ (c : UInt8) (i : ℕ), i < A.VEC_LEN →
        (to_bitmask A.VEC_LEN data pos (· == c)).getLsbD i =
        (rd (a ++ Ch.quote :: t) i == c) := fun c i hi => by
      rw [getLsbD_to_bitmask hV64,
        h.rd_add (by simp only [List.length_append, List.length_cons]; omega)]
      simp [hi]
    have hge : ∀ (c : UInt8) (i : ℕ), A.VEC_LEN ≤ i →
      (to_bitmask A.VEC_LEN data pos (· == c)).getLsbD i = false :=
      fun c i hi => by
        rw [getLsbD_to_bitmask hV64]
        simp [not_lt.mpr hi]
    have hdisj : ∀ i < 64, (to_bitmask A.VEC_LEN data pos (· == Ch.quote)).getLsbD i = true →
        (to_bitmask A.VEC_LEN data pos (· == Ch.bslash)).getLsbD i = false := fun i _ hi => by
      rcases lt_or_ge i A.VEC_LEN with hv | hv
      · rw [hbit _ i hv, beq_iff_eq] at hi
        rw [hbit _ i hv, hi]
        decide
      · exact hge _ i hv
    set bs := to_bitmask A.VEC_LEN data pos (· == Ch.bslash)
    set q := to_bitmask A.VEC_LEN data pos (· == Ch.quote)
    -- no backslash stands before the first quote
    have hquote : a.length < A.VEC_LEN → Bits.ctz q ≤ a.length := fun hlt => by
      by_contra hc
      have h1 := Bits.getLsbD_of_lt_ctz q (not_le.mp hc)
      have h2 : rd (a ++ Ch.quote :: t) a.length = Ch.quote := by simp [rd]
      rw [hbit _ _ hlt, h2] at h1
      exact absurd h1 (by decide)
    have hnone : (q - 1#64) &&& bs = 0 := by
      rw [Bits.sub_one_and_eq_zero q bs hdisj]
      intro i hi
      rcases lt_or_ge i A.VEC_LEN with hv | hv
      · have hia : i < a.length := by
          by_contra hc
          have := hquote (by omega)
          omega
        rw [hbit _ i hv, beq_eq_false_iff_ne]
        exact fun he => hba (he ▸ hin i hia)
      · exact hge _ i hv
    have hmaybe : (decide ((q - 1#64) &&& bs ≠ 0) || decide ((0 : BitVec 64) ≠ 0)) = false := by
      simp [hnone]
    have hnot : q &&& ~~~(0 : BitVec 64) = q := by
      rw [show ~~~(0 : BitVec 64) = BitVec.allOnes 64 from rfl, BitVec.and_allOnes]
    simp only [hmaybe, Bool.or_false, Bool.false_eq_true, if_false, hnot]
    by_cases hz : q = 0
    · rw [if_neg (by simpa using hz)]
      have hle : A.VEC_LEN ≤ a.length := by
        by_contra hc
        have h1 := hquote (not_le.mp hc)
        have h2 := Bits.ctz_eq_width hz
        omega
      have h1 := h.drop (i := A.VEC_LEN) (by simp only [List.length_append]; omega)
      rw [List.drop_append_of_le_length hle] at h1
      exact skipStringBlocks_plain h1 (by simp; omega) (fun hc => hqa (List.mem_of_mem_drop hc))
        fun hc => hba (List.mem_of_mem_drop hc)
    · rw [if_pos (by simpa using hz)]

/-- A string without backslashes is reported as such. -/
theorem SkipString_plain {pos : ℕ} {a t : Bytes} (h : Left data len pos (a ++ Ch.quote :: t))
    (hq : Ch.quote ∉ a) (hb : Ch.bslash ∉ a) : (SkipString A data pos len).1 = kNormal := by
  have hl := h.length_add
  simp only [List.length_append, List.length_cons] at hl
  exact skipStringBlocks_plain h (by omega) hq hb

end

end SonicJson
