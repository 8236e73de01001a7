/-
# The versions for ARM and RISC-V

Their comparisons give masks of four bits a byte (NEON, RISC-V) or the index of the first
byte of a kind (SVE2). What a decoder or a quoter asks of a block has the same answers as
with the masks of 16 bytes of x86, so that they do the same: `parseStringInplace_sse`
says it of every buffer, `Quote_bytewise` of every string, `GetNextToken_sse` of every text.
-/
import SonicJson.Lib.Lanes
import SonicJson.Quote
import SonicJson.StringEnd

namespace SonicJson

open Cursor

namespace Arm

/-! ### The blocks of a string -/

/-- The block of an instruction set, and what `parseStringInplace` asks of it. -/
structure StringBlocks where
  Block : Type
  Find : Bytes → ℕ → Block
  HasQuoteFirst : Bool → Block → Bool
  HasUnescaped : Block → Bool
  HasBackslash : Block → Bool
  QuoteIndex : Block → ℕ
  BsIndex : Block → ℕ

namespace neon

/-- The masks of a block of sixteen bytes, four bits a byte. -/
structure StringBlock where
  bs_bits : BitVec 64
  quote_bits : BitVec 64
  unescaped_bits : BitVec 64

def Find (buf : Bytes) (src : ℕ) : StringBlock where
  bs_bits := to_bitmask buf src (· == Ch.bslash)
  quote_bits := to_bitmask buf src (· == Ch.quote)
  unescaped_bits := to_bitmask buf src fun b => decide (b ≤ 0x1f)

def HasUnescaped (v : StringBlock) : Bool := decide ((v.quote_bits - 1#64) &&& v.unescaped_bits ≠ 0)

def HasQuoteFirst (allow : Bool) (v : StringBlock) : Bool :=
  if allow then decide ((v.bs_bits - 1#64) &&& v.quote_bits ≠ 0)
  else decide ((v.bs_bits - 1#64) &&& v.quote_bits ≠ 0) && !HasUnescaped v

def HasBackslash (v : StringBlock) : Bool := decide ((v.quote_bits - 1#64) &&& v.bs_bits ≠ 0)

def QuoteIndex (v : StringBlock) : ℕ := Bits.ctz v.quote_bits >>> 2

def BsIndex (v : StringBlock) : ℕ := Bits.ctz v.bs_bits >>> 2

end neon

/-- On NEON, and on RISC-V. -/
def neon : StringBlocks :=
  ⟨neon.StringBlock, neon.Find, neon.HasQuoteFirst, neon.HasUnescaped, neon.HasBackslash,
    neon.QuoteIndex, neon.BsIndex⟩

namespace sve2_128

/-- The index of the first byte of a kind, 16 if there is none. -/
structure StringBlock where
  bs_index : ℕ
  quote_index : ℕ
  unescaped_index : ℕ

/-- `LocateToken` and `LocateTokenLe`: the bytes before the first match are counted. -/
def Locate (buf : Bytes) (src : ℕ) (p : UInt8 → Bool) : ℕ :=
  Bits.count (Bits.brkb fun i => p (rd buf (src + i))) 16

def Find (buf : Bytes) (src : ℕ) : StringBlock where
  bs_index := Locate buf src (· == Ch.bslash)
  quote_index := Locate buf src (· == Ch.quote)
  unescaped_index := Locate buf src fun b => decide (b ≤ 0x1f)

def HasUnescaped (v : StringBlock) : Bool := decide (v.unescaped_index < v.quote_index)

def HasQuoteFirst (allow : Bool) (v : StringBlock) : Bool :=
  if allow then decide (v.quote_index < v.bs_index) else decide (v.quote_index < v.bs_index) &&
    !HasUnescaped v

def HasBackslash (v : StringBlock) : Bool := decide (v.bs_index < v.quote_index)

end sve2_128

/-- On SVE2 with vectors of 128 bits. -/
def sve2_128 : StringBlocks :=
  ⟨sve2_128.StringBlock, sve2_128.Find, sve2_128.HasQuoteFirst, sve2_128.HasUnescaped,
    sve2_128.HasBackslash, sve2_128.StringBlock.quote_index, sve2_128.StringBlock.bs_index⟩

section
variable (B : StringBlocks) (allow : Bool)

mutual

/-- From the label `find` on. -/
def find (sdst : ℕ) : ℕ → Bytes → ℕ → StrResult
  | 0, buf, src => ⟨0, src, buf, .kParseErrorEof⟩
  | fuel + 1, buf, src =>
    let block := B.Find buf src
    if B.HasQuoteFirst allow block then
      let src := src + B.QuoteIndex block
      ⟨src + 1 - sdst - 1, src + 1, store buf src [0], .kErrorNone⟩
    else if !allow && B.HasUnescaped block then ⟨0, src, buf, .kParseErrorUnEscaped⟩
    else if !B.HasBackslash block then find sdst fuel buf (src + VEC_LEN)
    else
      let src := src + B.BsIndex block
      cont sdst fuel buf src src

/-- From the label `cont` on. -/
def cont (sdst : ℕ) : ℕ → Bytes → ℕ → ℕ → StrResult
  | 0, buf, src, _ => ⟨0, src, buf, .kParseErrorEof⟩
  | fuel + 1, buf, src, dst =>
    let escape_char := rd buf (src + 1)
    if escape_char = Ch.u then
      let (ok, src, w) := handle_unicode_codepoint buf src
      let buf := store buf dst w
      if !ok then ⟨0, src, buf, .kParseErrorEscapedUnicode⟩
      else if rd buf src = Ch.bslash then cont sdst fuel buf src (dst + w.length)
      else find_and_move sdst fuel buf src (dst + w.length)
    else
      let buf := store buf dst [kEscapedMap escape_char]
      if kEscapedMap escape_char = 0 then ⟨0, src, buf, .kParseErrorEscapedFormat⟩
      else if rd buf (src + 2) = Ch.bslash then cont sdst fuel buf (src + 2) (dst + 1)
      else find_and_move sdst fuel buf (src + 2) (dst + 1)

/-- From the label `find_and_move` on. -/
def find_and_move (sdst : ℕ) : ℕ → Bytes → ℕ → ℕ → StrResult
  | 0, buf, src, _ => ⟨0, src, buf, .kParseErrorEof⟩
  | fuel + 1, buf, src, dst =>
    let block := B.Find buf src
    if B.HasQuoteFirst allow block then
      let (buf, src, dst) := copyUntil Ch.quote 32 buf src dst
      ⟨dst - sdst, src + 1, store buf dst [0], .kErrorNone⟩
    else if !allow && B.HasUnescaped block then ⟨0, src, buf, .kParseErrorUnEscaped⟩
    else if !B.HasBackslash block then
      find_and_move sdst fuel (store buf dst ((buf.drop src).take VEC_LEN)) (src + VEC_LEN)
        (dst + VEC_LEN)
    else
      let (buf, src, dst) := copyUntil Ch.bslash 32 buf src dst
      cont sdst fuel buf src dst

end

def parseStringInplace (buf : Bytes) (src : ℕ) : StrResult :=
  find B allow src (2 * buf.length + 2) buf src

/-- The blocks answer like those of SSE. -/
structure StringBlocks.Agrees : Prop where
  quoteFirst : ∀ allow buf src, B.HasQuoteFirst allow (B.Find buf src) =
    (StringBlock.Find .sse buf src).HasQuoteFirst allow
  unescaped : ∀ buf src, B.HasUnescaped (B.Find buf src) = (StringBlock.Find .sse buf src).HasUnescaped
  backslash : ∀ buf src, B.HasBackslash (B.Find buf src) = (StringBlock.Find .sse buf src).HasBackslash
  quoteIndex : ∀ allow buf src, (StringBlock.Find .sse buf src).HasQuoteFirst allow = true →
    B.QuoteIndex (B.Find buf src) = (StringBlock.Find .sse buf src).QuoteIndex
  bsIndex : ∀ buf src, (StringBlock.Find .sse buf src).HasBackslash = true →
    B.BsIndex (B.Find buf src) = (StringBlock.Find .sse buf src).BsIndex

variable {B}

theorem StringBlocks.Agrees.loops (h : B.Agrees) (sdst : ℕ) : ∀ fuel : ℕ,
    (∀ buf src, find B allow sdst fuel buf src = SonicJson.find .sse allow sdst fuel buf src) ∧
      (∀ buf src dst, cont B allow sdst fuel buf src dst =
        SonicJson.cont .sse allow sdst fuel buf src dst) ∧
      ∀ buf src dst, find_and_move B allow sdst fuel buf src dst =
        SonicJson.find_and_move .sse allow sdst fuel buf src dst
  | 0 => ⟨fun _ _ => rfl, fun _ _ _ => rfl, fun _ _ _ => rfl⟩
  | fuel + 1 => by
    obtain ⟨h1, h2, h3⟩ := h.loops sdst fuel
    refine ⟨fun buf src => ?_, fun buf src dst => ?_, fun buf src dst => ?_⟩
    · rw [find, SonicJson.find, h.quoteFirst, h.unescaped, h.backslash]
      by_cases hq : (StringBlock.Find .sse buf src).HasQuoteFirst allow = true
      · rw [if_pos hq, if_pos hq, h.quoteIndex allow buf src hq]
      rw [if_neg hq, if_neg hq]
      cases hb : (StringBlock.Find .sse buf src).HasBackslash with
      | false =>
        simp only [h1]
        rfl
      | true =>
        simp only [h.bsIndex buf src hb, h2]
        rfl
    · rw [cont, SonicJson.cont]
      simp only [h2, h3]
    · rw [find_and_move, SonicJson.find_and_move, h.quoteFirst, h.unescaped, h.backslash]
      simp only [h2, h3]
      rfl

end

/-- The first of 16 bytes of a kind, 16 if there is none. -/
def firstIn (buf : Bytes) (src : ℕ) (p : UInt8 → Bool) : ℕ :=
  Bits.first (fun i => p (rd buf (src + i))) 16

section
variable {buf : Bytes} {src : ℕ} {p q : UInt8 → Bool}

theorem vecMask_sse (p : UInt8 → Bool) :
    vecMask .sse buf src p = Bits.lanes 32 16 fun i => p (rd buf (src + i)) := rfl

theorem to_bitmask_nibbles (p : UInt8 → Bool) :
    to_bitmask buf src p = Bits.nibbles fun i => p (rd buf (src + i)) := rfl

theorem vecMask_sse_sub_one_and (hd : ∀ b, q b = true → p b = false) :
    (vecMask .sse buf src p - 1#32) &&& vecMask .sse buf src q ≠ 0 ↔
    firstIn buf src q < firstIn buf src p := by
  rw [vecMask_sse, vecMask_sse]
  exact Bits.lanes_sub_one_and (by decide) fun _ => hd _

theorem to_bitmask_sub_one_and (hd : ∀ b, q b = true → p b = false) :
    (to_bitmask buf src p - 1#64) &&& to_bitmask buf src q ≠ 0 ↔
    firstIn buf src q < firstIn buf src p := by
  rw [to_bitmask_nibbles, to_bitmask_nibbles]
  exact Bits.nibbles_sub_one_and fun _ => hd _

theorem ctz_vecMask_sse (h : firstIn buf src p < 16) :
    Bits.ctz (vecMask .sse buf src p) = firstIn buf src p := by
  rw [vecMask_sse]
  exact Bits.ctz_lanes (by decide) h

theorem ctz_to_bitmask_shift : Bits.ctz (to_bitmask buf src p) >>> 2 = firstIn buf src p := by
  rw [to_bitmask_nibbles, Bits.ctz_nibbles, Nat.shiftRight_eq_div_pow,
    Nat.mul_div_cancel_left _ (by decide)]
  rfl

theorem firstIn_le : firstIn buf src p ≤ 16 := Bits.first_le _ _

theorem Locate_eq : sve2_128.Locate buf src p = firstIn buf src p := Bits.count_brkb 16

theorem quote_ne_bslash (b : UInt8) (h : (b == Ch.quote) = true) : (b == Ch.bslash) = false := by
  rw [beq_iff_eq.mp h]
  rfl

theorem bslash_ne_quote (b : UInt8) (h : (b == Ch.bslash) = true) : (b == Ch.quote) = false := by
  rw [beq_iff_eq.mp h]
  rfl

theorem control_ne_quote (b : UInt8) (h : decide (b ≤ 0x1f) = true) : (b == Ch.quote) = false := by
  rw [beq_eq_false_iff_ne]
  rintro rfl
  exact absurd h (by decide)

/-- The answers of a block of SSE. -/
theorem sse_unescaped : (StringBlock.Find .sse buf src).HasUnescaped =
    decide (firstIn buf src (fun b => decide (b ≤ 0x1f)) < firstIn buf src (· == Ch.quote)) := by
  unfold StringBlock.HasUnescaped StringBlock.Find
  dsimp only
  rw [decide_eq_decide]
  exact vecMask_sse_sub_one_and control_ne_quote

theorem sse_backslash : (StringBlock.Find .sse buf src).HasBackslash =
    decide (firstIn buf src (· == Ch.bslash) < firstIn buf src (· == Ch.quote)) := by
  unfold StringBlock.HasBackslash StringBlock.Find
  dsimp only
  rw [decide_eq_decide]
  exact vecMask_sse_sub_one_and bslash_ne_quote

theorem sse_quoteFirst (allow : Bool) : (StringBlock.Find .sse buf src).HasQuoteFirst allow =
    if allow then decide (firstIn buf src (· == Ch.quote) < firstIn buf src (· == Ch.bslash))
    else decide (firstIn buf src (· == Ch.quote) < firstIn buf src (· == Ch.bslash)) &&
      !(StringBlock.Find .sse buf src).HasUnescaped := by
  have hq :
      decide ((StringBlock.Find .sse buf src).bs_bits - 1#32 &&&
      (StringBlock.Find .sse buf src).quote_bits ≠ 0) =
      decide (firstIn buf src (· == Ch.quote) < firstIn buf src (· == Ch.bslash)) := by
    unfold StringBlock.Find
    dsimp only
    rw [decide_eq_decide]
    exact vecMask_sse_sub_one_and quote_ne_bslash
  rw [StringBlock.HasQuoteFirst, hq]

/-- Where a quote comes first, there is one. -/
theorem quote_lt {allow : Bool} (h : (StringBlock.Find .sse buf src).HasQuoteFirst allow = true) :
    firstIn buf src (· == Ch.quote) < 16 := by
  have hle : firstIn buf src (· == Ch.bslash) ≤ 16 := firstIn_le
  have hlt : firstIn buf src (· == Ch.quote) < firstIn buf src (· == Ch.bslash) := by
    rw [sse_quoteFirst] at h
    cases allow
    · exact of_decide_eq_true (Bool.and_eq_true_iff.mp h).1
    · exact of_decide_eq_true h
  omega

theorem bslash_lt (h : (StringBlock.Find .sse buf src).HasBackslash = true) :
    firstIn buf src (· == Ch.bslash) < 16 := by
  have hle : firstIn buf src (· == Ch.quote) ≤ 16 := firstIn_le
  rw [sse_backslash, decide_eq_true_eq] at h
  omega

theorem sse_quoteIndex {allow : Bool} (h : (StringBlock.Find .sse buf src).HasQuoteFirst allow = true) :
    (StringBlock.Find .sse buf src).QuoteIndex = firstIn buf src (· == Ch.quote) := by
  unfold StringBlock.QuoteIndex StringBlock.Find
  dsimp only
  exact ctz_vecMask_sse (quote_lt h)

theorem sse_bsIndex (h : (StringBlock.Find .sse buf src).HasBackslash = true) :
    (StringBlock.Find .sse buf src).BsIndex = firstIn buf src (· == Ch.bslash) := by
  unfold StringBlock.BsIndex StringBlock.Find
  dsimp only
  exact ctz_vecMask_sse (bslash_lt h)

theorem neon_unescaped :
    neon.HasUnescaped (neon.Find buf src) = (StringBlock.Find .sse buf src).HasUnescaped := by
  rw [sse_unescaped]
  unfold neon.HasUnescaped neon.Find
  dsimp only
  rw [decide_eq_decide]
  exact to_bitmask_sub_one_and control_ne_quote

theorem neon_agrees : neon.Agrees := by
  refine ⟨fun allow buf src => ?_, fun _ _ => neon_unescaped, fun buf src => ?_,
    fun allow buf src h => ?_, fun buf src h => ?_⟩
  · have hq : decide ((neon.Find buf src).bs_bits - 1#64 &&& (neon.Find buf src).quote_bits ≠ 0) =
        decide (firstIn buf src (· == Ch.quote) < firstIn buf src (· == Ch.bslash)) := by
      unfold neon.Find
      dsimp only
      rw [decide_eq_decide]
      exact to_bitmask_sub_one_and quote_ne_bslash
    rw [sse_quoteFirst, ← neon_unescaped, ← hq]
    rfl
  · rw [sse_backslash, ← decide_eq_decide.mpr (to_bitmask_sub_one_and bslash_ne_quote)]
    rfl
  · rw [sse_quoteIndex h]
    change Bits.ctz (to_bitmask buf src (· == Ch.quote)) >>> 2 = _
    exact ctz_to_bitmask_shift
  · rw [sse_bsIndex h]
    change Bits.ctz (to_bitmask buf src (· == Ch.bslash)) >>> 2 = _
    exact ctz_to_bitmask_shift

theorem sve2_128_agrees : sve2_128.Agrees := by
  have hunescaped : ∀ buf src, sve2_128.HasUnescaped (sve2_128.Find buf src) =
      (StringBlock.Find .sse buf src).HasUnescaped := by
    intro buf src
    rw [sse_unescaped, ← Locate_eq, ← Locate_eq]
    rfl
  refine ⟨fun allow buf src => ?_, hunescaped, fun buf src => ?_, fun allow buf src h => ?_,
    fun buf src h => ?_⟩
  · rw [sse_quoteFirst, ← hunescaped, ← Locate_eq, ← Locate_eq]
    rfl
  · rw [sse_backslash, ← Locate_eq, ← Locate_eq]
    rfl
  · rw [sse_quoteIndex h]
    change sve2_128.Locate buf src (· == Ch.quote) = _
    exact Locate_eq
  · rw [sse_bsIndex h]
    change sve2_128.Locate buf src (· == Ch.bslash) = _
    exact Locate_eq

end

/-- **The decoders of NEON, RISC-V and SVE2** give the result of the 16-byte decoder of x86 on every
buffer: the same length, position, error and bytes. -/
theorem parseStringInplace_sse (allow : Bool) (buf : Bytes) (src : ℕ) :
    parseStringInplace neon allow buf src = SonicJson.parseStringInplace .sse allow buf src ∧
      parseStringInplace sve2_128 allow buf src = SonicJson.parseStringInplace .sse allow buf src :=
  ⟨(neon_agrees.loops allow src _).1 buf src, (sve2_128_agrees.loops allow src _).1 buf src⟩

/-! ### Quoting -/

section
variable (flags : SerializeFlags) (mem : Bytes)

/-- The mask of `CopyAndGetEscapMask128`. -/
def GetEscapMask (src : ℕ) : BitVec 64 :=
  to_bitmask mem src fun b => b == Ch.bslash || b == Ch.quote || decide (b < 0x20) ||
    (flags.kSerializeEscapeEmoji && decide (0xF0 ≤ b))

/-- The copy of `CopyAndGetEscapMask128`. -/
def copy (st : QuoteState) : QuoteState :=
  { st with buf := store st.buf st.dst (load mem st.src VEC_LEN) }

/-- The loop over whole blocks. -/
def quoteBlocks : ℕ → QuoteState → QuoteState
  | 0, st => st
  | fuel + 1, st =>
    if VEC_LEN ≤ st.nb then
      let mm := GetEscapMask flags mem st.src
      let st := copy mem st
      if mm ≠ 0 then quoteBlocks fuel (DoEscape flags mem st.nb (st.MOVE_N_CHARS (Bits.ctz mm >>> 2)))
      else quoteBlocks fuel (st.MOVE_N_CHARS VEC_LEN)
    else st

/-- The loop over what is left, less than a block. -/
def quoteTail : ℕ → QuoteState → QuoteState
  | 0, st => st
  | fuel + 1, st =>
    if 0 < st.nb then
      let mm := GetEscapMask flags mem st.src &&& (BitVec.allOnes 64 >>> ((VEC_LEN - st.nb) * 4))
      let st := copy mem st
      if mm ≠ 0 then quoteTail fuel (DoEscape flags mem st.nb (st.MOVE_N_CHARS (Bits.ctz mm >>> 2)))
      else { st with dst := st.dst + st.nb, nb := 0 }
    else st

/-- `Quote` of ARM and of RISC-V; `rest` is what stands in `tmp_src` behind the copied bytes. -/
def Quote (direct : ℕ → Bool) (rest : Bytes) (src nb : ℕ) (buf : Bytes) (dst : ℕ) : Bytes × ℕ :=
  let st := quoteBlocks flags mem nb ⟨src, nb, store buf dst [Ch.quote], dst + 1⟩
  let st :=
    if 0 < st.nb then
      if direct st.src then quoteTail flags mem st.nb st
      else
        let tmp_src := slice mem st.src (st.src + st.nb) ++ rest
        quoteTail flags tmp_src st.nb { st with src := 0 }
    else st
  (store st.buf st.dst [Ch.quote], st.dst + 1)

variable {flags mem}

theorem GetEscapMask_nibbles (src : ℕ) : ∃ f : ℕ → Bool,
    GetEscapMask flags mem src = Bits.nibbles f ∧
      SonicJson.GetEscapMask flags mem .sse src = Bits.lanes 32 16 f := by
  unfold GetEscapMask SonicJson.GetEscapMask
  refine ⟨_, to_bitmask_nibbles _, ?_⟩
  rw [vecMask_sse]
  congr 1
  funext i
  generalize rd mem (src + i) = b
  cases decide (b < 0x20) <;> cases b == Ch.bslash <;> cases b == Ch.quote <;> rfl

/-- A mask of the first bytes of a block: there is a hit, or there is none. -/
theorem mask_cases {w : ℕ} (hw : 16 ≤ w) (f : ℕ → Bool) : (Bits.nibbles f = 0 ∧ Bits.lanes w 16 f = 0) ∨
    (Bits.nibbles f ≠ 0 ∧ Bits.lanes w 16 f ≠ 0 ∧
    Bits.ctz (Bits.nibbles f) >>> 2 = Bits.ctz (Bits.lanes w 16 f)) := by
  by_cases h : Bits.first f 16 < 16
  · refine .inr ⟨Bits.nibbles_ne_zero.mpr h, (Bits.lanes_ne_zero hw).mpr h, ?_⟩
    rw [Bits.ctz_lanes hw h, Bits.ctz_nibbles, Nat.shiftRight_eq_div_pow]
    exact Nat.mul_div_cancel_left _ (by decide)
  · exact .inl ⟨not_not.mp (mt Bits.nibbles_ne_zero.mp h), not_not.mp (mt (Bits.lanes_ne_zero hw).mp h)⟩

theorem quoteBlocks_sse : ∀ (fuel : ℕ) (st : QuoteState), quoteBlocks flags mem fuel st =
    SonicJson.quoteBlocks flags mem .sse fuel st
  | 0, _ => rfl
  | fuel + 1, st => by
    obtain ⟨f, h1, h2⟩ := @GetEscapMask_nibbles flags mem st.src
    have hcopy : copy mem st = st.copy mem .sse := rfl
    have hlen : Arch.sse.VEC_LEN = VEC_LEN := rfl
    rw [quoteBlocks, SonicJson.quoteBlocks, h1, h2, hcopy, hlen]
    dsimp only
    rcases mask_cases (show 16 ≤ 32 by decide) f with ⟨h3, h4⟩ | ⟨h3, h4, h5⟩
    · rw [if_neg (not_not.mpr h3), if_neg (not_not.mpr h4), quoteBlocks_sse fuel]
    · rw [if_pos h3, if_pos h4, h5, quoteBlocks_sse fuel]

theorem quoteTail_sse : ∀ (fuel : ℕ) (st : QuoteState), quoteTail flags mem fuel st =
    SonicJson.quoteTail flags mem .sse fuel st
  | 0, _ => rfl
  | fuel + 1, st => by
    obtain ⟨f, h1, h2⟩ := @GetEscapMask_nibbles flags mem st.src
    have hcopy : copy mem st = st.copy mem .sse := rfl
    have hfull : Arch.sse.VEC_FULL_MASK = Bits.lanes 32 16 fun _ => true := by
      unfold Arch.VEC_FULL_MASK Bits.lanes
      simp only [Bool.and_true]
      rfl
    have hlow : GetEscapMask flags mem st.src &&& (BitVec.allOnes 64 >>> ((VEC_LEN - st.nb) * 4)) =
        Bits.nibbles fun i => decide (i < st.nb) && f i := by
      have hV : VEC_LEN = 16 := rfl
      rw [h1, hV, Bits.nibbles_and_shift]
    have hlow' : SonicJson.GetEscapMask flags mem .sse st.src &&&
        (Arch.sse.VEC_FULL_MASK >>> (Arch.sse.VEC_LEN - st.nb)) =
        Bits.lanes 32 16 fun i => decide (i < st.nb) && f i := by
      have hV : Arch.sse.VEC_LEN = 16 := rfl
      rw [h2, hfull, hV, Bits.lanes_and_shift (by decide)]
    rw [quoteTail, SonicJson.quoteTail, hlow, hlow', hcopy]
    dsimp only
    rcases mask_cases (show 16 ≤ 32 by decide) fun i => decide (i < st.nb) && f i
      with ⟨h3, h4⟩ | ⟨h3, h4, h5⟩
    · rw [if_neg (not_not.mpr h3), if_neg (not_not.mpr h4)]
    · rw [if_pos h3, if_pos h4, h5, quoteTail_sse fuel]

end

section
variable (flags : SerializeFlags) (mem : Bytes) (direct : ℕ → Bool) (rest : Bytes)
variable {src nb dst : ℕ} {buf : Bytes}

/-- What is written. -/
theorem Quote_eq (hmem : src + nb ≤ mem.length) (hdst : dst ≤ buf.length) :
    (Quote flags mem direct rest src nb buf dst).2 =
    dst + ((quoted flags (slice mem src (src + nb))).length + 2) ∧
      written dst (Quote flags mem direct rest src nb buf dst) =
        Ch.quote :: (quoted flags (slice mem src (src + nb)) ++ [Ch.quote]) := by
  have h := quoting_start mem hmem hdst
  have hpre : (buf.take dst).length = dst := by simpa using hdst
  obtain ⟨v, s', h1, h2, h3⟩ := @quoteBlocks_spec flags _ .sse _ nb _ _ _ h (h.nb ▸ le_rfl)
  have hclose : ∀ {st}, Written (buf.take dst ++ [Ch.quote] ++ v ++ quoted flags s') st →
      Quote flags mem direct rest src nb buf dst = (store st.buf st.dst [Ch.quote], st.dst + 1) →
      (Quote flags mem direct rest src nb buf dst).2 =
        dst + ((quoted flags (slice mem src (src + nb))).length + 2) ∧
        written dst (Quote flags mem direct rest src nb buf dst) =
          Ch.quote :: (quoted flags (slice mem src (src + nb)) ++ [Ch.quote]) := by
    intro st hw hq
    rw [List.append_assoc, ← h2, List.append_assoc] at hw
    have := Written.close hw hq
    rwa [hpre] at this
  unfold Quote at hclose ⊢
  rw [← quoteBlocks_sse] at h1
  dsimp only at hclose ⊢
  generalize quoteBlocks flags mem nb ⟨src, nb, store buf dst [Ch.quote], dst + 1⟩ = st at h1 hclose ⊢
  have hnb := h1.nb
  by_cases hz : 0 < st.nb
  · by_cases hdir : direct st.src = true
    · exact hclose (quoteTail_spec st.nb _ s' st h1 hnb.ge h3)
        (by rw [if_pos hz, if_pos hdir, quoteTail_sse])
    · -- the copy of the tail, whatever is behind it
      have hs : slice mem st.src (st.src + st.nb) = s' := by
        have hd := h1.left.at'.drop
        rw [List.drop_take] at hd
        have hl := h1.left.length_add
        rw [slice, ← hd]
        congr 1
        omega
      have hleft : Left (slice mem st.src (st.src + st.nb) ++ rest) st.nb 0 s' := by
        rw [hs, hnb]
        refine ⟨⟨?_, Nat.zero_le _⟩, by simp⟩
        rw [List.take_left, List.drop_zero]
      refine hclose (@quoteTail_spec _ (slice mem st.src (st.src + st.nb) ++ rest) .sse st.nb
        st.nb _ s' { st with src := 0 } ⟨hleft, hnb, h1.buf, h1.dst⟩ hnb.ge h3) ?_
      rw [if_pos hz, if_neg hdir, quoteTail_sse]
  · obtain rfl : s' = [] := List.length_eq_zero_iff.mp (by omega)
    rw [quoted, List.append_nil] at hclose
    exact hclose ⟨h1.buf, h1.dst⟩ (by rw [if_neg hz])

/-- **The quoter of ARM and RISC-V** writes what the byte quoter writes, for every string and every
set of flags, wherever the string ends and whatever is behind it. -/
theorem Quote_bytewise (hmem : src + nb ≤ mem.length) (hdst : dst ≤ buf.length) :
    (Quote flags mem direct rest src nb buf dst).2 = (common.Quote flags mem src nb buf dst).2 ∧
      written dst (Quote flags mem direct rest src nb buf dst) =
        written dst (common.Quote flags mem src nb buf dst) := by
  obtain ⟨h1, h2⟩ := Quote_eq flags mem direct rest hmem hdst
  obtain ⟨k1, k2⟩ := common.Quote_eq flags mem hmem hdst
  exact ⟨h1.trans k1.symm, h2.trans k2.symm⟩

/-- `ab"c` between other bytes, at the end of a page. -/
theorem Quote_bytewise_tail :
    (Quote kSerializeDefault [0, 97, 98, 34, 99, 34, 34] (fun _ => false) [34, 34] 1 4 [] 0).2 =
        (common.Quote kSerializeDefault [0, 97, 98, 34, 99, 34, 34] 1 4 [] 0).2 ∧
      written 0 (Quote kSerializeDefault [0, 97, 98, 34, 99, 34, 34] (fun _ => false) [34, 34] 1 4
        [] 0) =
        written 0 (common.Quote kSerializeDefault [0, 97, 98, 34, 99, 34, 34] 1 4 [] 0) :=
  Quote_bytewise kSerializeDefault _ _ _ (by decide) (by decide)

end

/-! ### The next token -/

section
variable (data tokens : Bytes) (len : ℕ)

def nextTokenBlocks : ℕ → ℕ → UInt8 × ℕ
  | 0, pos => nextTokenTail data tokens len len pos
  | fuel + 1, pos =>
    if pos + VEC_LEN ≤ len then
      let next := to_bitmask data pos tokens.contains
      if next ≠ 0 then (rd data (pos + Bits.ctz next >>> 2), pos + Bits.ctz next >>> 2)
      else nextTokenBlocks fuel (pos + VEC_LEN)
    else nextTokenTail data tokens len len pos

def GetNextToken (pos : ℕ) : UInt8 × ℕ := nextTokenBlocks data tokens len len pos

theorem nextTokenBlocks_sse : ∀ fuel pos : ℕ,
    nextTokenBlocks data tokens len fuel pos = SonicJson.nextTokenBlocks .sse data tokens len fuel pos
  | 0, _ => rfl
  | fuel + 1, pos => by
    have hV : Arch.sse.VEC_LEN = 16 := rfl
    have hlanes : SonicJson.to_bitmask 16 data pos tokens.contains = Bits.lanes 64 16 fun i =>
      tokens.contains (rd data (pos + i)) := rfl
    rw [nextTokenBlocks, SonicJson.nextTokenBlocks, hV, hlanes, to_bitmask_nibbles]
    dsimp only
    rcases mask_cases (show 16 ≤ 64 by decide) fun i => tokens.contains (rd data (pos + i))
      with ⟨h3, h4⟩ | ⟨h3, h4, h5⟩
    · rw [if_neg (not_not.mpr h3), if_neg (not_not.mpr h4), nextTokenBlocks_sse fuel]
      rfl
    · rw [if_pos h3, if_pos h4, h5]
      rfl

/-- **The next token** on ARM and RISC-V is that of x86. -/
theorem GetNextToken_sse (pos : ℕ) :
    GetNextToken data tokens len pos = SonicJson.GetNextToken .sse data pos len tokens :=
  nextTokenBlocks_sse data tokens len len pos

end

/-! ### Whitespace -/

/-- Four bits of ones for each byte that is none of the four spaces. -/
def GetNonSpaceBits (data : Bytes) (pos : ℕ) : BitVec 64 :=
  to_bitmask data pos fun b => !(b == Ch.space || b == Ch.tab || (b == Ch.lf || b == Ch.cr))

/-- The loop of `skip_space`: 16 bytes after the others. -/
def found_space (data : Bytes) : ℕ → ℕ → UInt8 × ℕ
  | 0, pos => (0, pos)
  | fuel + 1, pos =>
    let nonspace := GetNonSpaceBits data pos
    if nonspace ≠ 0 then
      let pos := pos + Bits.ctz nonspace >>> 2
      (rd data pos, pos + 1)
    else found_space data fuel (pos + 16)

/-- `skip_space` of neon and riscv, which remembers no block. -/
def skip_space (data : Bytes) (pos : ℕ) : UInt8 × ℕ :=
  if !IsSpace (rd data pos) then (rd data pos, pos + 1)
  else if !IsSpace (rd data (pos + 1)) then (rd data (pos + 1), pos + 2)
  else found_space data (data.length + 1) (pos + 2)

/-- `while (pos < len && IsSpace(data[pos++]));` and no more. -/
def skip_space_safe (data : Bytes) (pos len : ℕ) : UInt8 × ℕ :=
  let pos := space_tail data len len pos
  (rd data (pos - 1), pos)

section
variable {data : Bytes} {pos len q : ℕ}

theorem nonSpaceBits_eq (data : Bytes) (pos : ℕ) :
    GetNonSpaceBits data pos = Bits.nibbles fun i => !IsSpace (rd data (pos + i)) := by
  have hspace : ∀ b : UInt8,
      (!(b == Ch.space || b == Ch.tab || (b == Ch.lf || b == Ch.cr))) = !IsSpace b := by
    intro b
    unfold IsSpace
    cases b == Ch.space <;> cases b == Ch.cr <;> cases b == Ch.lf <;> cases b == Ch.tab <;> rfl
  rw [GetNonSpaceBits, to_bitmask_nibbles]
  exact congrArg Bits.nibbles (funext fun i => hspace _)

/-- A block of spaces, or the first byte that is none. -/
theorem nonSpaceBits_cases (data : Bytes) (pos : ℕ) :
    (GetNonSpaceBits data pos = 0 ∧ ∀ i, pos ≤ i → i < pos + 16 → IsSpace (rd data i) = true) ∨
      (GetNonSpaceBits data pos ≠ 0 ∧
        NonSpace data pos (pos + Bits.ctz (GetNonSpaceBits data pos) >>> 2)) := by
  rw [nonSpaceBits_eq]
  by_cases h : Bits.first (fun i => !IsSpace (rd data (pos + i))) 16 < 16
  · refine .inr ⟨Bits.nibbles_ne_zero.mpr h, ?_⟩
    rw [Bits.ctz_nibbles, Nat.shiftRight_eq_div_pow, Nat.mul_div_cancel_left _ (by decide)]
    have hfirst := Bits.first_spec 16 _ h
    refine ⟨by omega, fun i h1 h2 => ?_, by simpa using hfirst⟩
    have hi := Bits.lt_first 16 (fun i => !IsSpace (rd data (pos + i))) (i - pos) (by omega)
    rw [show pos + (i - pos) = i by omega] at hi
    simpa using hi
  · refine .inl ⟨not_not.mp (mt Bits.nibbles_ne_zero.mp h), fun i h1 h2 => ?_⟩
    by_contra hc
    refine h (Bits.first_lt_iff.mpr ⟨i - pos, by omega, ?_⟩)
    rw [show pos + (i - pos) = i by omega]
    simpa using hc

theorem found_space_eq : ∀ fuel pos : ℕ, NonSpace data pos q → q < pos + 16 * fuel →
    found_space data fuel pos = (rd data q, q + 1)
  | 0, pos, h, hf => by
    have := h.le
    omega
  | fuel + 1, pos, h, hf => by
    rw [found_space]
    rcases nonSpaceBits_cases data pos with ⟨hz, hs⟩ | ⟨hz, hn⟩
    · rw [if_neg (not_not.mpr hz)]
      exact found_space_eq fuel (pos + 16) (h.skip (by omega) hs) (by omega)
    · have hq := h.unique hn
      dsimp only
      rw [if_pos hz, ← hq]

/-- **Skipping whitespace** on NEON and RISC-V ends where x86 with any block that it remembers does. -/
theorem skip_space_sse {k : SpaceBits} (hk : k.Valid data pos) (h : NonSpace data pos q)
    (hq : q ≤ max pos data.length) :
    skip_space data pos =
      ((SonicJson.skip_space data pos k).1, (SonicJson.skip_space data pos k).2.1) := by
  obtain ⟨k', hx86, -⟩ := skip_space_eq hk h hq
  rw [hx86, skip_space]
  by_cases h1 : IsSpace (rd data pos) = true
  swap
  · have hpos := h.unique (nonSpace_self (by simpa using h1))
    rw [if_pos (by simpa using h1), hpos]
  by_cases h2 : IsSpace (rd data (pos + 1)) = true
  swap
  · have h' := h.skip (r := pos + 1) (by omega) fun i hi hl => by rwa [show i = pos by omega]
    have hpos := h'.unique (nonSpace_self (by simpa using h2))
    rw [if_neg (by simpa using h1), if_pos (by simpa using h2), hpos]
  rw [if_neg (by simpa using h1), if_neg (by simpa using h2)]
  exact found_space_eq _ _ (h.skip (r := pos + 2) (by omega) (two_space h1 h2)) (by omega)

/-- Two spaces and a digit, before anything is remembered. -/
theorem skip_space_sse_digit : skip_space [32, 32, 49] 0 =
    ((SonicJson.skip_space [32, 32, 49] 0 SpaceBits.init).1,
      (SonicJson.skip_space [32, 32, 49] 0 SpaceBits.init).2.1) :=
  skip_space_sse (SpaceBits.valid_init _ _) (q := 2)
    ⟨by decide, fun i _ hi => by interval_cases i <;> rfl, rfl⟩ (by decide)

/-- **The bounded skip** on ARM and RISC-V ends where x86 with any block that it remembers does. -/
theorem skip_space_safe_sse {k : SpaceBits} (hk : k.Valid data pos) (hp : pos ≤ len) :
    skip_space_safe data pos len =
      ((SonicJson.skip_space_safe data pos len k).1, (SonicJson.skip_space_safe data pos len k).2.1) :=
  Prod.ext_iff.mpr ((skip_tail_lands k hp).agree (skip_space_safe_spec hk hp).toLandsOn)

/-- A space at the end of a text. -/
theorem skip_space_safe_sse_end : skip_space_safe [49, 32] 1 2 =
    ((SonicJson.skip_space_safe [49, 32] 1 2 SpaceBits.init).1,
      (SonicJson.skip_space_safe [49, 32] 1 2 SpaceBits.init).2.1) :=
  skip_space_safe_sse (SpaceBits.valid_init _ _) (by decide)

end

end Arm

end SonicJson
