/-
# parseStringInplace, block by block

The x86 decoder of strings: it looks at `VEC_LEN` bytes at a time through the
masks of a `StringBlock`, jumps to the first quote or backslash, and once it
has met an escape copies what follows down over the bytes already read, whole
blocks where a block has neither. `parseStringInplace_eq` states what it does:
exactly what `unescape` does on the text from `src` on, with the decoded bytes
left at `src` and the bytes after the closing quote untouched.
-/
import SonicJson.Lib.Bits
import SonicJson.Unescape

namespace SonicJson

open Cursor

/-- The instruction sets with an x86 vector version of the scanners. -/
inductive Arch
  | sse
  | avx2
  deriving DecidableEq

def Arch.VEC_LEN : Arch → ℕ
  | .sse => 16
  | .avx2 => 32

theorem Arch.VEC_LEN_pos (A : Arch) : 0 < A.VEC_LEN := by cases A <;> decide

theorem Arch.VEC_LEN_le (A : Arch) : A.VEC_LEN ≤ 32 := by cases A <;> decide

def kEscapedMap (c : UInt8) : UInt8 :=
  if c = Ch.quote then Ch.quote
  else if c = Ch.slash then Ch.slash
  else if c = Ch.bslash then Ch.bslash
  else if c = 98 then 8
  else if c = Ch.f then 12
  else if c = Ch.n then Ch.lf
  else if c = Ch.r then Ch.cr
  else if c = Ch.t then Ch.tab
  else 0

variable (A : Arch) (allow : Bool)

/-- The mask of a comparison of the block at `src`. -/
def vecMask (buf : Bytes) (src : ℕ) (p : UInt8 → Bool) : BitVec 32 :=
  Bits.ofPred 32 fun i => decide (i < A.VEC_LEN) && p (rd buf (src + i))

structure StringBlock where
  bs_bits : BitVec 32
  quote_bits : BitVec 32
  unescaped_bits : BitVec 32

namespace StringBlock

def Find (buf : Bytes) (src : ℕ) : StringBlock where
  bs_bits := vecMask A buf src (· == Ch.bslash)
  quote_bits := vecMask A buf src (· == Ch.quote)
  unescaped_bits := vecMask A buf src fun b => decide (b ≤ 0x1f)

def HasUnescaped (v : StringBlock) : Bool := decide ((v.quote_bits - 1#32) &&& v.unescaped_bits ≠ 0)

def HasQuoteFirst (v : StringBlock) : Bool :=
  if allow then decide ((v.bs_bits - 1#32) &&& v.quote_bits ≠ 0)
  else decide ((v.bs_bits - 1#32) &&& v.quote_bits ≠ 0) && !v.HasUnescaped

def HasBackslash (v : StringBlock) : Bool := decide ((v.quote_bits - 1#32) &&& v.bs_bits ≠ 0)

def QuoteIndex (v : StringBlock) : ℕ := Bits.ctz v.quote_bits

def BsIndex (v : StringBlock) : ℕ := Bits.ctz v.bs_bits

end StringBlock

/-- What a call returns: the length, the source position, the buffer and the error. -/
structure StrResult where
  n : ℕ
  src : ℕ
  buf : Bytes
  err : SonicError

/-- Byte by byte from `src` down to `dst`, up to the byte `stop`. -/
def copyUntil (stop : UInt8) : ℕ → Bytes → ℕ → ℕ → Bytes × ℕ × ℕ
  | 0, buf, src, dst => (buf, src, dst)
  | fuel + 1, buf, src, dst =>
    if rd buf src = stop then (buf, src, dst)
    else copyUntil stop fuel (store buf dst [rd buf src]) (src + 1) (dst + 1)

mutual

/-- From the label `find` on: nothing has been moved yet. -/
def find (sdst : ℕ) : ℕ → Bytes → ℕ → StrResult
  | 0, buf, src => ⟨0, src, buf, .kParseErrorEof⟩
  | fuel + 1, buf, src =>
    let block := StringBlock.Find A buf src
    if block.HasQuoteFirst allow then
      let src := src + block.QuoteIndex
      ⟨src + 1 - sdst - 1, src + 1, store buf src [0], .kErrorNone⟩
    else if !allow && block.HasUnescaped then ⟨0, src, buf, .kParseErrorUnEscaped⟩
    else if !block.HasBackslash then find sdst fuel buf (src + A.VEC_LEN)
    else
      let src := src + block.BsIndex
      cont sdst fuel buf src src

/-- From the label `cont` on: an escape at `src`. -/
def cont (sdst : ℕ) : ℕ → Bytes → ℕ → ℕ → StrResult
  | 0, buf, src, _ => ⟨0, src, buf, .kParseErrorEof⟩
  | fuel + 1, buf, src, dst =>
    let escape_char := rd buf (src + 1)
    if escape_char = Ch.u then
      let (ok, src, w) := handle_unicode_codepoint buf src
      let buf := store buf dst w
      if !ok then ⟨0, src, buf, .kParseErrorEscapedUnicode⟩
      else if rd buf src = Ch.bslash then cont sdst fuel buf src (dst + w.length)
      else find_and_move sdst fuel buf src (dst + w.length)
    else
      let buf := store buf dst [kEscapedMap escape_char]
      if kEscapedMap escape_char = 0 then ⟨0, src, buf, .kParseErrorEscapedFormat⟩
      else if rd buf (src + 2) = Ch.bslash then cont sdst fuel buf (src + 2) (dst + 1)
      else find_and_move sdst fuel buf (src + 2) (dst + 1)

/-- From the label `find_and_move` on: what follows is moved down to `dst`. -/
def find_and_move (sdst : ℕ) : ℕ → Bytes → ℕ → ℕ → StrResult
  | 0, buf, src, _ => ⟨0, src, buf, .kParseErrorEof⟩
  | fuel + 1, buf, src, dst =>
    let block := StringBlock.Find A buf src
    if block.HasQuoteFirst allow then
      let (buf, src, dst) := copyUntil Ch.quote 32 buf src dst
      ⟨dst - sdst, src + 1, store buf dst [0], .kErrorNone⟩
    else if !allow && block.HasUnescaped then ⟨0, src, buf, .kParseErrorUnEscaped⟩
    else if !block.HasBackslash then
      find_and_move sdst fuel (store buf dst ((buf.drop src).take A.VEC_LEN)) (src + A.VEC_LEN)
        (dst + A.VEC_LEN)
    else
      let (buf, src, dst) := copyUntil Ch.bslash 32 buf src dst
      cont sdst fuel buf src dst

end

/-- Decodes the string after the quote before `src`, in place. Two steps of fuel for each byte: a buffer
without a closing quote is where the code would read past its end. -/
def parseStringInplace (buf : Bytes) (src : ℕ) : StrResult :=
  find A allow src (2 * buf.length + 2) buf src

/-! ### What a block tells -/

theorem kEscapedMap_eq (c : UInt8) : kEscapedMap c = (escChar c).getD 0 := by
  unfold kEscapedMap escChar
  split_ifs <;> simp_all

theorem getLsbD_vecMask (buf : Bytes) (src : ℕ) (p : UInt8 → Bool) (i : ℕ) :
    (vecMask A buf src p).getLsbD i = (decide (i < A.VEC_LEN) && p (rd buf (src + i))) := by
  have := A.VEC_LEN_le
  rw [vecMask, Bits.getLsbD_ofPred]
  by_cases h : i < A.VEC_LEN
  · simp [h, show i < 32 by omega]
  · simp [h]

/-- The first `k` bytes of a text that has the byte `b` at `k`, and what is after it. -/
theorem split_at_byte {s : Bytes} {k : ℕ} {b : UInt8} (h : rd s k = b) (hb : b ≠ 0) :
    ∃ a r, s = a ++ b :: r ∧ a.length = k ∧ ∀ i < k, rd s i ∈ a ∧ rd a i = rd s i := by
  have hk : k < s.length := by
    by_contra hc
    rw [rd_of_length_le (not_lt.mp hc)] at h
    exact hb h.symm
  have hat := at_cons_rd hk
  refine ⟨s.take k, s.drop (k + 1), ?_, by simp; omega, fun i hi => ?_⟩
  · rw [← h, ← hat.drop, List.take_append_drop]
  · have h1 : rd (s.take k) i = rd s i := by
      conv_rhs => rw [← List.take_append_drop k s]
      rw [rd_append_left (by simp; omega)]
    refine ⟨?_, h1⟩
    have hil : i < (s.take k).length := by
      simp
      omega
    rw [← h1, rd, List.getD_eq_getElem?_getD, List.getElem?_eq_getElem hil]
    exact List.getElem_mem hil

theorem forall_mem_of_rd {a : Bytes} {P : UInt8 → Prop} (h : ∀ i < a.length, P (rd a i)) :
    ∀ b ∈ a, P b := by
  intro b hb
  obtain ⟨i, hi, rfl⟩ := List.getElem_of_mem hb
  have := h i hi
  rwa [rd, List.getD_eq_getElem?_getD, List.getElem?_eq_getElem hi] at this

/-- The four outcomes of looking at a block of the text `s`. -/
inductive BlockCase (v : StringBlock) (s : Bytes) : Prop
  | quote (a r : Bytes) : s = a ++ Ch.quote :: r → (∀ b ∈ a, Plain allow b) → a.length < A.VEC_LEN →
      v.HasQuoteFirst allow = true → v.QuoteIndex = a.length → BlockCase v s
  | unescaped : v.HasQuoteFirst allow = false → allow = false → v.HasUnescaped = true →
      (∀ p, unescape allow s ≠ .ok p) → BlockCase v s
  | neither : v.HasQuoteFirst allow = false → (!allow && v.HasUnescaped) = false →
    v.HasBackslash = false →
      (∀ i < A.VEC_LEN, rd s i ≠ Ch.quote ∧ rd s i ≠ Ch.bslash ∧ (allow = true ∨ ¬ rd s i ≤ 0x1f)) →
        BlockCase v s
  | bslash (a r : Bytes) : s = a ++ Ch.bslash :: r → (∀ b ∈ a, Plain allow b) → a.length < A.VEC_LEN →
      v.HasQuoteFirst allow = false → (!allow && v.HasUnescaped) = false → v.HasBackslash = true →
      v.BsIndex = a.length → BlockCase v s

theorem rd_mem {s : Bytes} {i : ℕ} (h : i < s.length) : rd s i ∈ s := by
  rw [rd, List.getD_eq_getElem?_getD, List.getElem?_eq_getElem h]
  exact List.getElem_mem h

/-- A control character before any quote is in no string. -/
theorem unescape_of_control {s : Bytes} {i : ℕ} (hc : rd s i ≤ 0x1f) (hq : ∀ j < i, rd s j ≠ Ch.quote)
    (p : Bytes × Bytes) : unescape false s ≠ .ok p := by
  intro h
  obtain ⟨u, hs, -, hu⟩ := unescape_ok_text h
  rcases lt_or_ge i u.length with hi | hi
  · have h1 := hu rfl _ (rd_mem hi)
    rw [hs, rd_append_left hi] at hc
    exact not_le_of_ge h1 hc
  · rcases Nat.lt_or_eq_of_le hi with hi | rfl
    · refine hq _ hi ?_
      rw [hs, ← Nat.add_zero u.length, rd_append_right]
      rfl
    · rw [hs, ← Nat.add_zero u.length, rd_append_right, rd_cons_zero] at hc
      exact absurd hc (by decide)

theorem block_cases {buf s : Bytes} {src : ℕ} (h : At buf src s) :
    BlockCase A allow (StringBlock.Find A buf src) s := by
  have hq := getLsbD_vecMask A buf src (· == Ch.quote)
  have hb := getLsbD_vecMask A buf src (· == Ch.bslash)
  have hu := getLsbD_vecMask A buf src fun b => decide (b ≤ 0x1f)
  simp only [rd_at_add h] at hq hb hu
  have hqb : ∀ i < 32, (vecMask A buf src (· == Ch.quote)).getLsbD i = true →
      (vecMask A buf src (· == Ch.bslash)).getLsbD i = false := by
    intro i _ hi
    rw [hq] at hi
    rw [hb]
    simp only [Bool.and_eq_true, decide_eq_true_eq, beq_iff_eq] at hi
    rw [hi.2, Bool.and_eq_false_iff]
    exact .inr (by decide)
  have hbq : ∀ i < 32, (vecMask A buf src (· == Ch.bslash)).getLsbD i = true →
      (vecMask A buf src (· == Ch.quote)).getLsbD i = false := by
    intro i _ hi
    rw [hb] at hi
    rw [hq]
    simp only [Bool.and_eq_true, decide_eq_true_eq, beq_iff_eq] at hi
    rw [hi.2, Bool.and_eq_false_iff]
    exact .inr (by decide)
  have hqu : ∀ i < 32, (vecMask A buf src (· == Ch.quote)).getLsbD i = true →
      (vecMask A buf src fun b => decide (b ≤ 0x1f)).getLsbD i = false := by
    intro i _ hi
    rw [hq] at hi
    rw [hu]
    simp only [Bool.and_eq_true, decide_eq_true_eq, beq_iff_eq] at hi
    rw [hi.2, Bool.and_eq_false_iff]
    exact .inr (by decide)
  set Q := vecMask A buf src (· == Ch.quote) with hQ
  set B := vecMask A buf src (· == Ch.bslash) with hB
  set U := vecMask A buf src fun b => decide (b ≤ 0x1f) with hU
  have hv : StringBlock.Find A buf src = ⟨B, Q, U⟩ := rfl
  rw [hv]
  have hqlt : Q ≠ 0 → Bits.ctz Q < A.VEC_LEN ∧ rd s (Bits.ctz Q) = Ch.quote := fun hne => by
    have := Bits.getLsbD_ctz hne
    rw [hq] at this
    simpa using this
  have hblt : B ≠ 0 → Bits.ctz B < A.VEC_LEN ∧ rd s (Bits.ctz B) = Ch.bslash := fun hne => by
    have := Bits.getLsbD_ctz hne
    rw [hb] at this
    simpa using this
  have hbelowQ : ∀ i < Bits.ctz Q, i < A.VEC_LEN → rd s i ≠ Ch.quote := fun i hi hl => by
    have := Bits.getLsbD_of_lt_ctz Q hi
    rw [hq] at this
    simpa [hl] using this
  have hbelowB : ∀ i < Bits.ctz B, i < A.VEC_LEN → rd s i ≠ Ch.bslash := fun i hi hl => by
    have := Bits.getLsbD_of_lt_ctz B hi
    rw [hb] at this
    simpa [hl] using this
  -- the control characters before the first quote
  have hun : (⟨B, Q, U⟩ : StringBlock).HasUnescaped = true ↔
      ∃ i < Bits.ctz Q, i < A.VEC_LEN ∧ rd s i ≤ 0x1f := by
    rw [StringBlock.HasUnescaped, decide_eq_true_eq, ne_eq, Bits.sub_one_and_eq_zero Q U hqu]
    push Not
    constructor
    · rintro ⟨i, hi, hne⟩
      have : U.getLsbD i = true := by simpa using hne
      rw [hu] at this
      simp only [Bool.and_eq_true, decide_eq_true_eq] at this
      exact ⟨i, hi, this.1, this.2⟩
    · rintro ⟨i, hi, hl, hc⟩
      refine ⟨i, hi, ?_⟩
      rw [hu]
      simp [hl, hc]
  have hbs : (⟨B, Q, U⟩ : StringBlock).HasBackslash = true ↔ Bits.ctz B < Bits.ctz Q := by
    rw [StringBlock.HasBackslash, decide_eq_true_eq, ne_eq, Bits.sub_one_and_eq_zero Q B hqb]
    push Not
    constructor
    · rintro ⟨i, hi, hne⟩
      refine lt_of_le_of_lt ?_ hi
      by_contra hc
      exact hne (Bits.getLsbD_of_lt_ctz B (not_le.mp hc))
    · intro hlt
      have hne : B ≠ 0 := Bits.ne_zero_of_ctz_lt hlt (Bits.ctz_le Q)
      exact ⟨_, hlt, by simp [Bits.getLsbD_ctz hne]⟩
  have hqf : (B - 1#32) &&& Q ≠ 0 ↔ Bits.ctz Q < Bits.ctz B := by
    rw [ne_eq, Bits.sub_one_and_eq_zero B Q hbq]
    push Not
    constructor
    · rintro ⟨i, hi, hne⟩
      refine lt_of_le_of_lt ?_ hi
      by_contra hc
      exact hne (Bits.getLsbD_of_lt_ctz Q (not_le.mp hc))
    · intro hlt
      have hne : Q ≠ 0 := Bits.ne_zero_of_ctz_lt hlt (Bits.ctz_le B)
      exact ⟨_, hlt, by simp [Bits.getLsbD_ctz hne]⟩
  have hHQ : (⟨B, Q, U⟩ : StringBlock).HasQuoteFirst allow = true ↔
      Bits.ctz Q < Bits.ctz B ∧ (allow = true ∨ (⟨B, Q, U⟩ : StringBlock).HasUnescaped = false) := by
    unfold StringBlock.HasQuoteFirst
    cases allow
    · simp only [Bool.false_eq_true, if_false, Bool.and_eq_true, decide_eq_true_eq, false_or]
      rw [hqf]
      simp
    · simp only [if_true, decide_eq_true_eq, true_or, and_true]
      exact hqf
  by_cases h1 : (⟨B, Q, U⟩ : StringBlock).HasQuoteFirst allow = true
  · obtain ⟨hlt, hall⟩ := hHQ.mp h1
    have hne : Q ≠ 0 := Bits.ne_zero_of_ctz_lt hlt (Bits.ctz_le B)
    obtain ⟨hl, hr⟩ := hqlt hne
    obtain ⟨a, r, hs, ha, hrd⟩ := split_at_byte hr (by decide)
    refine .quote a r hs (forall_mem_of_rd fun i hi => ?_) (by omega) h1 ha.symm
    rw [(hrd i (by omega)).2]
    refine ⟨hbelowQ i (by omega) (by omega), hbelowB i (by omega) (by omega), ?_⟩
    refine hall.imp_right fun hn hc => ?_
    have := hun.mpr ⟨i, by omega, by omega, hc⟩
    rw [hn] at this
    exact absurd this (by decide)
  · have h1' : (⟨B, Q, U⟩ : StringBlock).HasQuoteFirst allow = false := by simpa using h1
    by_cases h2 : (!allow && (⟨B, Q, U⟩ : StringBlock).HasUnescaped) = true
    · simp only [Bool.and_eq_true, Bool.not_eq_true'] at h2
      obtain ⟨rfl, h2⟩ := h2
      obtain ⟨i, hi, hl, hc⟩ := hun.mp h2
      exact .unescaped h1' rfl h2 (unescape_of_control hc fun j hj => hbelowQ j (by omega) (by omega))
    · have h2' : (!allow && (⟨B, Q, U⟩ : StringBlock).HasUnescaped) = false := by simpa using h2
      have hall : allow = true ∨ (⟨B, Q, U⟩ : StringBlock).HasUnescaped = false := by
        cases allow
        · exact .inr (by simpa using h2')
        · exact .inl rfl
      have hnlt : ¬ Bits.ctz Q < Bits.ctz B := fun hc => h1 (hHQ.mpr ⟨hc, hall⟩)
      by_cases h3 : (⟨B, Q, U⟩ : StringBlock).HasBackslash = true
      · have hlt := hbs.mp h3
        have hne : B ≠ 0 := Bits.ne_zero_of_ctz_lt hlt (Bits.ctz_le Q)
        obtain ⟨hl, hr⟩ := hblt hne
        obtain ⟨a, r, hs, ha, hrd⟩ := split_at_byte hr (by decide)
        refine .bslash a r hs (forall_mem_of_rd fun i hi => ?_) (by omega) h1' h2' h3 ha.symm
        rw [(hrd i (by omega)).2]
        refine ⟨hbelowQ i (by omega) (by omega), hbelowB i (by omega) (by omega), ?_⟩
        refine hall.imp_right fun hn hc => ?_
        have := hun.mpr ⟨i, by omega, by omega, hc⟩
        rw [hn] at this
        exact absurd this (by decide)
      · have heq : Bits.ctz Q = Bits.ctz B := by
          have : ¬ Bits.ctz B < Bits.ctz Q := fun hc => h3 (hbs.mpr hc)
          omega
        have hQ0 : Q = 0 := by
          by_contra hne
          obtain ⟨-, hr⟩ := hqlt hne
          have hB0 : B ≠ 0 := Bits.ne_zero_of_ctz_lt (heq ▸ Bits.ctz_lt hne) le_rfl
          obtain ⟨-, hr'⟩ := hblt hB0
          rw [← heq, hr] at hr'
          exact absurd hr' (by decide)
        have hctz : Bits.ctz Q = 32 := Bits.ctz_eq_width hQ0
        have hV := A.VEC_LEN_le
        refine .neither h1' h2' (by simpa using h3) fun i hi => ?_
        refine ⟨hbelowQ i (by omega) hi, hbelowB i (by omega) hi, ?_⟩
        refine hall.imp_right fun hn hc => ?_
        have := hun.mpr ⟨i, by omega, hi, hc⟩
        rw [hn] at this
        exact absurd this (by decide)

/-! ### The moving loop -/

/-- The buffer while a string is being moved: `out` is decoded, `junk` has been read, `s` is to come. -/
structure Mid (buf : Bytes) (src dst : ℕ) (pre out junk s : Bytes) : Prop where
  buf_eq : buf = pre ++ (out ++ (junk ++ s))
  src_eq : src = pre.length + out.length + junk.length
  dst_eq : dst = pre.length + out.length

theorem Mid.at {buf pre out junk s : Bytes} {src dst : ℕ} (h : Mid buf src dst pre out junk s) :
    At buf src s := by
  have := at_append (pre ++ (out ++ junk)) s
  rw [h.buf_eq, h.src_eq]
  simpa [List.append_assoc, Nat.add_assoc] using this

/-- `used` is read and `bs`, no longer than what has been read, is written. -/
theorem Mid.store {buf pre out junk s : Bytes} {src dst : ℕ} (used bs : Bytes)
    (h : Mid buf src dst pre out junk (used ++ s)) (hl : bs.length ≤ junk.length + used.length) :
    Mid (store buf dst bs) (src + used.length) (dst + bs.length) pre (out ++ bs)
      ((junk ++ used).drop bs.length) s where
  buf_eq := by rw [h.buf_eq, h.dst_eq, store_mid _ _ _ _ _ _ hl]
  src_eq := by
    rw [h.src_eq]
    simp
    omega
  dst_eq := by
    rw [h.dst_eq]
    simp
    omega

theorem Mid.length {buf pre out junk s : Bytes} {src dst : ℕ} (h : Mid buf src dst pre out junk s) :
    buf.length = pre.length + out.length + junk.length + s.length := by
  rw [h.buf_eq]
  simp
  omega

/-- Bytes that stay where they are are read. -/
theorem Mid.advance {buf pre out a r : Bytes} {src : ℕ} (h : Mid buf src src pre out [] (a ++ r)) :
    Mid buf (src + a.length) (src + a.length) pre (out ++ a) [] r := by
  refine ⟨?_, ?_, ?_⟩
  · simpa using h.buf_eq
  · rw [h.dst_eq]
    simp
    omega
  · rw [h.dst_eq]
    simp
    omega

/-- With as much read as before the buffer has the same length. -/
theorem Mid.length_eq {buf buf' pre out out' junk junk' s s' : Bytes} {src dst src' dst' : ℕ}
    (h : Mid buf src dst pre out junk s) (h' : Mid buf' src' dst' pre out' junk' s')
    (hs : src' + s'.length = src + s.length) : buf'.length = buf.length := by
  rw [h'.length, h.length]
  have := h.src_eq
  have := h'.src_eq
  omega

theorem copyUntil_eq {stop : UInt8} {pre r : Bytes} :
    ∀ (fuel : ℕ) (a : Bytes) {buf out junk : Bytes} {src dst : ℕ},
    Mid buf src dst pre out junk (a ++ stop :: r) → stop ∉ a → a.length < fuel →
    ∃ buf' junk', copyUntil stop fuel buf src dst = (buf', src + a.length, dst + a.length) ∧
      Mid buf' (src + a.length) (dst + a.length) pre (out ++ a) junk' (stop :: r)
  | 0, _, _, _, _, _, _, _, _, h => by simp at h
  | fuel + 1, [], buf, out, junk, src, dst, h, _, _ => by
    refine ⟨buf, junk, ?_, by simpa using h⟩
    rw [copyUntil, if_pos (rd_at h.at)]
    rfl
  | fuel + 1, b :: a, buf, out, junk, src, dst, h, hb, hl => by
    have hne : b ≠ stop := fun he => hb (he ▸ List.mem_cons_self)
    have hrd : rd buf src = b := rd_at h.at
    have h' := Mid.store [b] [b] h (by simp)
    obtain ⟨buf', junk', he, hm⟩ := copyUntil_eq fuel a h' (fun hm => hb (List.mem_cons_of_mem _ hm))
      (by simpa using hl)
    simp only [List.length_cons, List.length_nil, Nat.zero_add, List.append_assoc, List.cons_append,
      List.nil_append] at he hm
    rw [copyUntil, hrd, if_neg hne, he]
    refine ⟨buf', junk', ?_, ?_⟩
    · simp only [List.length_cons]
      rw [Nat.add_assoc, Nat.add_comm 1, Nat.add_assoc dst, Nat.add_comm 1]
    · simp only [List.length_cons]
      rw [Nat.add_comm a.length 1, ← Nat.add_assoc, ← Nat.add_assoc]
      exact hm

/-- What a call that has decoded `out` so far, after `pre`, does on the text `s`. -/
structure Decodes (len : ℕ) (pre out s : Bytes) (r : StrResult) : Prop where
  ok : ∀ body t, unescape allow s = .ok (body, t) →
    r.err = .kErrorNone ∧ r.n = out.length + body.length ∧ r.src = len - t.length ∧ r.buf.length = len ∧
      ∃ junk, r.buf = pre ++ ((out ++ body) ++ (junk ++ t))
  error : ∀ e, unescape allow s = .error e → e ≠ .kParseErrorEof → r.err ≠ .kErrorNone

variable {A allow}

theorem Decodes.emit {len : ℕ} {pre out w s s' : Bytes} {r : StrResult}
    (h : Decodes allow len pre (out ++ w) s' r)
    (he : unescape allow s = SonicJson.emit w (unescape allow s')) :
    Decodes allow len pre out s r where
  ok body t hb := by
    rw [he] at hb
    obtain ⟨b, hb', rfl⟩ := emit_eq_ok hb
    obtain ⟨h1, h2, h3, h4, junk, h5⟩ := h.ok b t hb'
    exact ⟨h1, by simpa [Nat.add_assoc] using h2, h3, h4, junk, by simpa using h5⟩
  error e hb := h.error e (emit_eq_error (he ▸ hb))

theorem Decodes.failed {len : ℕ} {pre out s : Bytes} {r : StrResult} (h : ∀ p, unescape allow s ≠ .ok p)
    (hr : r.err ≠ .kErrorNone) : Decodes allow len pre out s r where
  ok _ _ hb := absurd hb (h _)
  error _ _ _ := hr

theorem Decodes.ended {buf pre out junk r : Bytes} {src dst : ℕ}
    (h : Mid buf src dst pre out junk (Ch.quote :: r)) :
    Decodes allow buf.length pre out (Ch.quote :: r)
      ⟨dst - pre.length, src + 1, Cursor.store buf dst [0], .kErrorNone⟩ where
  ok _ _ hb := by
    simp only [unescape_quote, Except.ok.injEq, Prod.mk.injEq] at hb
    obtain ⟨rfl, rfl⟩ := hb
    have h' := Mid.store [Ch.quote] [0] h (by simp)
    have hlen := h.length
    have hlen' := h'.length
    have hsrc := h.src_eq
    have hdst := h.dst_eq
    simp at hlen hlen'
    refine ⟨rfl, by simp; omega, by simp only; omega, ?_, ?_⟩
    · simp only
      omega
    · have heq := h'.buf_eq
      refine ⟨0 :: (junk ++ [Ch.quote]).drop 1, ?_⟩
      simpa using heq
  error e hb := by simp at hb

theorem decodes_eof {len : ℕ} {pre out s : Bytes} {r : StrResult}
    (h : unescape allow s = .error .kParseErrorEof) : Decodes allow len pre out s r where
  ok body t hb := by simp [h] at hb
  error e hb he := by
    rw [h] at hb
    simp only [Except.error.injEq] at hb
    exact absurd hb.symm he

/-- With nothing but plain bytes in reach the text has ended. -/
theorem unescape_short {s : Bytes} {k : ℕ} (hs : s.length < k)
    (h : ∀ i < k, rd s i ≠ Ch.quote ∧ rd s i ≠ Ch.bslash ∧ (allow = true ∨ ¬ rd s i ≤ 0x1f)) :
    unescape allow s = .error .kParseErrorEof := by
  have : ∀ b ∈ s, Plain allow b := forall_mem_of_rd fun i hi => h i (by omega)
  rw [← List.append_nil s, unescape_plain_append this]
  simp

/-- A block without quote and backslash is a run of plain bytes, unless the text ends in it. -/
theorem split_block {s : Bytes} {k : ℕ} (hs : k ≤ s.length)
    (h : ∀ i < k, rd s i ≠ Ch.quote ∧ rd s i ≠ Ch.bslash ∧ (allow = true ∨ ¬ rd s i ≤ 0x1f)) :
    ∀ b ∈ s.take k, Plain allow b := by
  refine forall_mem_of_rd fun i hi => ?_
  rw [List.length_take, Nat.min_eq_left hs] at hi
  have := h i hi
  rwa [← List.take_append_drop k s, rd_append_left (by simp; omega)] at this

/-- What an escape with `c` behind the backslash and `s` behind `c` comes to: the two kinds, each
well formed or not. -/
inductive EscCase (allow : Bool) (buf : Bytes) (src dst : ℕ) (pre out : Bytes) (c : UInt8)
    (s : Bytes) : Prop
  | uni (w r junk' : Bytes) :
    c = Ch.u → handle_unicode_codepoint buf src = (true, buf.length - r.length, w) →
      Mid (store buf dst w) (buf.length - r.length) (dst + w.length) pre (out ++ w) junk' r →
      (store buf dst w).length = buf.length → r.length ≤ s.length →
      unescape allow (Ch.bslash :: c :: s) = emit w (unescape allow r) →
        unicodeEsc s = some (w, r) → EscCase allow buf src dst pre out c s
  | badUni : c = Ch.u → (handle_unicode_codepoint buf src).1 = false → unicodeEsc s = none →
      unescape allow (Ch.bslash :: c :: s) = .error .kParseErrorEscapedUnicode →
        EscCase allow buf src dst pre out c s
  | esc (d : UInt8) (junk' : Bytes) : c ≠ Ch.u → kEscapedMap c = d → d ≠ 0 →
      Mid (store buf dst [d]) (src + 2) (dst + 1) pre (out ++ [d]) junk' s →
        (store buf dst [d]).length = buf.length →
      unescape allow (Ch.bslash :: c :: s) = emit [d] (unescape allow s) →
        EscCase allow buf src dst pre out c s
  | badEsc : c ≠ Ch.u → kEscapedMap c = 0 →
      unescape allow (Ch.bslash :: c :: s) = .error .kParseErrorEscapedFormat →
        EscCase allow buf src dst pre out c s

theorem escape_cases (allow : Bool) {buf pre out junk s : Bytes} {c : UInt8} {src dst : ℕ}
    (h : Mid buf src dst pre out junk (Ch.bslash :: c :: s)) :
    EscCase allow buf src dst pre out c s := by
  by_cases hu : c = Ch.u
  · subst hu
    have hh := handle_unicode_codepoint_eq h.at
    cases he : unicodeEsc s with
    | none =>
      rw [he] at hh
      exact .badUni rfl (by rw [hh]) he (unescape_badUni allow he)
    | some p =>
      obtain ⟨w, r⟩ := p
      rw [he] at hh
      obtain ⟨⟨v, rfl, hv⟩, hw⟩ := unicodeEsc_length he
      have hm := Mid.store (Ch.bslash :: Ch.u :: v) w h (by simp; omega)
      have hpos : src + (Ch.bslash :: Ch.u :: v).length = buf.length - r.length := by
        have := h.length
        have := h.src_eq
        simp at *
        omega
      rw [hpos] at hm
      refine .uni w r _ rfl hh hm (h.length_eq hm ?_) (by simp) (unescape_uni allow he) he
      rw [← hpos]
      simp
      omega
  · cases he : escChar c with
    | none => exact .badEsc hu (by rw [kEscapedMap_eq, he]; rfl) (unescape_badEsc allow hu he)
    | some d =>
      have hm := Mid.store [Ch.bslash, c] [d] h (by simp)
      refine .esc d _ hu (by rw [kEscapedMap_eq, he]; rfl) (escChar_ge he).2.2 hm
        (h.length_eq hm ?_) (unescape_esc allow he)
      simp
      omega

/-- **One decoder step after the other.** From each of the three labels the rest of the text decodes
as `unescape` says, given two steps of fuel for each byte. -/
theorem decodes (A : Arch) (allow : Bool) (pre : Bytes) : ∀ fuel : ℕ,
    (∀ {buf out s : Bytes} {src dst : ℕ}, Mid buf src dst pre out [] s → 2 * s.length + 2 ≤ fuel →
      Decodes allow buf.length pre out s (find A allow pre.length fuel buf src)) ∧
    (∀ {buf out junk s : Bytes} {src dst : ℕ}, Mid buf src dst pre out junk (Ch.bslash :: s) →
      2 * s.length + 3 ≤ fuel → Decodes allow buf.length pre out (Ch.bslash :: s)
        (cont A allow pre.length fuel buf src dst)) ∧
    (∀ {buf out junk s : Bytes} {src dst : ℕ}, Mid buf src dst pre out junk s →
    2 * s.length + 2 ≤ fuel →
      Decodes allow buf.length pre out s (find_and_move A allow pre.length fuel buf src dst)) := by
  intro fuel
  induction fuel with
  | zero => exact ⟨fun _ h => by omega, fun _ h => by omega, fun _ h => by omega⟩
  | succ fuel ih =>
    obtain ⟨ihf, ihc, ihm⟩ := ih
    have hV := A.VEC_LEN_pos
    refine ⟨fun {buf out s src dst} h hf => ?_, fun {buf out junk s src dst} h hf => ?_,
      fun {buf out junk s src dst} h hf => ?_⟩
    · -- `find`
      have hsrc : src = dst := by simpa [h.dst_eq] using h.src_eq
      subst hsrc
      unfold find
      cases block_cases A allow h.at with
      | quote a r hs ha hl h1 h2 =>
        subst hs
        simp only [h1, if_true, h2]
        refine Decodes.emit ?_ (unescape_plain_append ha)
        have : Decodes allow _ _ _ _ _ := Decodes.ended h.advance
        have e : src + a.length + 1 - pre.length - 1 = src + a.length - pre.length := by omega
        rwa [e]
      | unescaped h1 h2 h3 h4 =>
        subst h2
        simp only [h1, h3, Bool.false_eq_true, if_false, Bool.not_false, Bool.and_self, if_true]
        exact .failed h4 (by simp)
      | neither h1 h2 h3 h4 =>
        simp only [h1, h2, h3, Bool.false_eq_true, if_false, Bool.not_false, if_true]
        by_cases hs : s.length < A.VEC_LEN
        · exact decodes_eof (unescape_short hs h4)
        · have hplain := split_block (not_lt.mp hs) h4
          have hsplit := List.take_append_drop A.VEC_LEN s
          have hl : (s.take A.VEC_LEN).length = A.VEC_LEN := by
            simp
            omega
          have hm := Mid.advance (hsplit.symm ▸ h)
          rw [hl] at hm
          have he := @unescape_plain_append allow (s.drop A.VEC_LEN) _ hplain
          rw [hsplit] at he
          refine Decodes.emit (ihf hm ?_) he
          simp
          omega
      | bslash a r hs ha hl h1 h2 h3 h4 =>
        subst hs
        simp only [h1, h2, h3, h4, Bool.false_eq_true, if_false, Bool.not_true]
        refine Decodes.emit (ihc h.advance ?_) (unescape_plain_append ha)
        simp at hf
        omega
    · -- `cont`
      unfold cont
      rcases s with _ | ⟨c, s⟩
      · exact decodes_eof (unescape_bslash_nil allow)
      have hc : rd buf (src + 1) = c := rd_at_succ h.at
      simp only [hc]
      -- after the escape, at `src'`, either label goes on
      have step : ∀ {buf' out' junk' s' : Bytes} {src' dst' : ℕ}, Mid buf' src' dst' pre out' junk' s' →
          s'.length ≤ s.length → Decodes allow buf'.length pre out' s'
            (if rd buf' src' = Ch.bslash then cont A allow pre.length fuel buf' src' dst'
              else find_and_move A allow pre.length fuel buf' src' dst') := by
        intro buf' out' junk' s' src' dst' hm hl
        simp only [List.length_cons] at hf
        split
        · rename_i hb
          rcases s' with _ | ⟨b, s'⟩
          · rw [← Nat.add_zero src', rd_at_add hm.at] at hb
            exact absurd (show (0 : UInt8) = Ch.bslash by simpa using hb) (by decide)
          · have : b = Ch.bslash := (rd_at hm.at).symm.trans hb
            subst this
            simp only [List.length_cons] at hl
            exact ihc hm (by omega)
        · exact ihm hm (by omega)
      cases escape_cases allow h with
      | uni w r junk' hu hh hm hlen hle he hue =>
        rw [if_pos hu, hh]
        simp only [Bool.not_true, Bool.false_eq_true, if_false]
        have := step hm hle
        rw [hlen] at this
        exact .emit this he
      | badUni hu hh hue he =>
        rw [if_pos hu]
        simp only [hh, Bool.not_false, if_true]
        exact .failed (by simp [he]) (by simp)
      | esc d junk' hu hd hd0 hm hlen he =>
        rw [if_neg hu, hd, if_neg hd0]
        have := step hm le_rfl
        rw [hlen] at this
        exact .emit this he
      | badEsc hu hd he =>
        rw [if_neg hu, hd, if_pos rfl]
        exact .failed (by simp [he]) (by simp)
    · -- `find_and_move`
      unfold find_and_move
      have hV32 := A.VEC_LEN_le
      have plain_not : ∀ {a : Bytes} {b : UInt8}, (∀ x ∈ a, Plain allow x) → b = Ch.quote ∨
          b = Ch.bslash → b ∉ a := by
        rintro a b ha (rfl | rfl) hb
        · exact (ha _ hb).1 rfl
        · exact (ha _ hb).2.1 rfl
      cases block_cases A allow h.at with
      | quote a r hs ha hl h1 h2 =>
        subst hs
        obtain ⟨buf', junk', he, hm⟩ := copyUntil_eq 32 a h (plain_not ha (.inl rfl)) (by omega)
        simp only [h1, if_true, he]
        have hlen : buf'.length = buf.length := by
          have e1 := hm.length
          have e2 := h.length
          have e3 := hm.src_eq
          have e4 := h.src_eq
          simp at *
          omega
        refine Decodes.emit ?_ (unescape_plain_append ha)
        rw [← hlen]
        exact Decodes.ended hm
      | unescaped h1 h2 h3 h4 =>
        subst h2
        simp only [h1, h3, Bool.false_eq_true, if_false, Bool.not_false, Bool.and_self, if_true]
        exact .failed h4 (by simp)
      | neither h1 h2 h3 h4 =>
        simp only [h1, h2, h3, Bool.false_eq_true, if_false, Bool.not_false, if_true]
        by_cases hs : s.length < A.VEC_LEN
        · exact decodes_eof (unescape_short hs h4)
        · have hplain := split_block (not_lt.mp hs) h4
          have hsplit := List.take_append_drop A.VEC_LEN s
          have hl : (s.take A.VEC_LEN).length = A.VEC_LEN := by
            simp
            omega
          rw [h.at.drop]
          have hm := Mid.store (s.take A.VEC_LEN) (s.take A.VEC_LEN) (hsplit.symm ▸ h) (by omega)
          rw [hl] at hm
          have hlen : (Cursor.store buf dst (s.take A.VEC_LEN)).length = buf.length := by
            rw [hm.length, h.length]
            simp
            omega
          have := ihm hm (by simp; omega)
          rw [hlen] at this
          have he := @unescape_plain_append allow (s.drop A.VEC_LEN) _ hplain
          rw [hsplit] at he
          exact .emit this he
      | bslash a r hs ha hl h1 h2 h3 h4 =>
        subst hs
        obtain ⟨buf', junk', he, hm⟩ := copyUntil_eq 32 a h (plain_not ha (.inr rfl)) (by omega)
        simp only [h1, h2, h3, he, Bool.false_eq_true, if_false, Bool.not_true]
        have hlen : buf'.length = buf.length := by
          have e1 := hm.length
          have e2 := h.length
          have e3 := hm.src_eq
          have e4 := h.src_eq
          simp at *
          omega
        refine Decodes.emit ?_ (unescape_plain_append ha)
        rw [← hlen]
        refine ihc hm ?_
        simp at hf
        omega

theorem decodes_parse (A : Arch) {buf s : Bytes} {src : ℕ} (h : At buf src s) :
    Decodes allow buf.length (buf.take src) [] s (parseStringInplace A allow buf src) := by
  have hpre : (buf.take src).length = src := by simpa using h.le
  have hm : Mid buf src src (buf.take src) [] [] s := by
    refine ⟨?_, by simp [hpre], by simp [hpre]⟩
    rw [List.nil_append, List.nil_append, ← h.drop, List.take_append_drop]
  have hl := h.length_add
  have := (decodes A allow (buf.take src) (2 * buf.length + 2)).1 hm (by omega)
  rwa [hpre] at this

/-- What has been decoded stands where the string began. -/
theorem Decodes.body {len src : ℕ} {pre s body t : Bytes} {r : StrResult}
    (h : Decodes allow len pre [] s r) (hpre : pre.length = src)
    (hu : unescape allow s = .ok (body, t)) :
    r.err = .kErrorNone ∧ r.n = body.length ∧ r.src = len - t.length ∧
      (r.buf.drop src).take r.n = body := by
  obtain ⟨h1, h2, h3, -, junk, h5⟩ := h.ok body t hu
  rw [List.length_nil, Nat.zero_add] at h2
  refine ⟨h1, h2, h3, ?_⟩
  rw [h2, h5, List.drop_append, hpre]
  simp [List.drop_eq_nil_of_le hpre.le]

/-- A string that `unescape` decodes is decoded in place: the bytes before it and after it stay. -/
theorem parseStringInplace_ok (A : Arch) {buf s body t : Bytes} {src : ℕ} (h : At buf src s)
    (hu : unescape allow s = .ok (body, t)) :
    ∃ buf', parseStringInplace A allow buf src = ⟨body.length, buf.length - t.length, buf',
      .kErrorNone⟩ ∧
      buf'.length = buf.length ∧ At buf' (buf.length - t.length) t ∧
        (buf'.drop src).take body.length = body ∧
      buf'.take src = buf.take src := by
  have hpre : (buf.take src).length = src := by simpa using h.le
  obtain ⟨h1, h2, h3, h4, junk, h5⟩ := (decodes_parse A h).ok body t hu
  generalize parseStringInplace A allow buf src = r at *
  obtain ⟨n, src', buf', err⟩ := r
  simp only at h1 h2 h3 h4 h5
  subst h1 h3
  simp only [List.length_nil, Nat.zero_add] at h2
  subst h2
  refine ⟨buf', rfl, h4, ⟨?_, by omega⟩, ?_, ?_⟩
  · rw [← h4, h5]
    have : (buf.take src ++ ([] ++ body ++ (junk ++ t))).length - t.length
        = (buf.take src ++ ([] ++ body ++ junk)).length := by
      simp
      omega
    rw [this, show buf.take src ++ ([] ++ body ++ (junk ++ t)) =
      (buf.take src ++ ([] ++ body ++ junk)) ++ t by simp, List.drop_left]
  · rw [h5, List.drop_append, hpre]
    simp [List.drop_eq_nil_of_le hpre.le]
  · rw [h5, List.take_append_of_le_length hpre.ge, List.take_of_length_le hpre.le]

/-- What `unescape` rejects within the text is an error here too. -/
theorem parseStringInplace_error (A : Arch) {buf s : Bytes} {src : ℕ} {e : SonicError}
    (h : At buf src s) (hu : unescape allow s = .error e) (he : e ≠ .kParseErrorEof) :
    (parseStringInplace A allow buf src).err ≠ .kErrorNone := (decodes_parse A h).error e hu he

end SonicJson
