/-
# Quoting a string

`common::Quote` escapes a string byte by byte, the vector versions copy it by blocks
and escape where a mask has a bit; both leave the escaping of a run to `DoEscape`. All
write `quoted`, a function of the bytes of the string alone (`Quote_common`), and what
they write is a string token whose decoding is the string again (`Quote_unquote`).
-/
import SonicJson.ScalarString
import SonicJson.Serialize

namespace SonicJson

open Cursor

/-! ### The tables -/

def kNeedEscaped (ch : UInt8) : Bool := decide (ch ≤ 0x1f) || ch == Ch.quote || ch == Ch.bslash

/-- `kHexCharsUpper` and `kHexCharsLower`. -/
def hexChars (UpperCase : Bool) (v : ℕ) : UInt8 :=
  if v < 10 then UInt8.ofNat (48 + v) else if UpperCase then UInt8.ofNat (55 + v)
    else UInt8.ofNat (87 + v)

/-- `kQuoteTabUpperCase` and `kQuoteTabLowerCase`: the length of the escape, and six bytes that
begin with it. -/
def quote_tab (UpperCase : Bool) (ch : UInt8) : ℕ × Bytes :=
  if ch = 8 then (2, [Ch.bslash, 98, 0, 0, 0, 0])
  else if ch = Ch.tab then (2, [Ch.bslash, Ch.t, 0, 0, 0, 0])
  else if ch = Ch.lf then (2, [Ch.bslash, Ch.n, 0, 0, 0, 0])
  else if ch = 12 then (2, [Ch.bslash, Ch.f, 0, 0, 0, 0])
  else if ch = Ch.cr then (2, [Ch.bslash, Ch.r, 0, 0, 0, 0])
  else if ch ≤ 0x1f then (6, [Ch.bslash, Ch.u, Ch.zero, Ch.zero, hexChars UpperCase (ch.toNat / 16),
    hexChars UpperCase (ch.toNat % 16)])
  else if ch = Ch.quote then (2, [Ch.bslash, Ch.quote, 0, 0, 0, 0])
  else if ch = Ch.bslash then (2, [Ch.bslash, Ch.bslash, 0, 0, 0, 0])
  else (0, [])

def writeHex (UpperCase : Bool) (value : ℕ) : Bytes :=
  [Ch.bslash, Ch.u, hexChars UpperCase (value >>> 12 &&& 0xf), hexChars UpperCase (value >>> 8 &&& 0xf),
    hexChars UpperCase (value >>> 4 &&& 0xf), hexChars UpperCase (value &&& 0xf)]

/-- `(ch & 0xf0) == 0xf0`, where such bytes are escaped. -/
def emoji (flags : SerializeFlags) (ch : UInt8) : Bool :=
  flags.kSerializeEscapeEmoji && (ch &&& 0xf0) == 0xf0

/-- The two escapes of a character of four bytes, whatever the bytes are. -/
def surrogates (UpperCase : Bool) (a b c d : UInt8) : Bytes :=
  let unicode := (a.toNat &&& 0x07) <<< 18 ||| (b.toNat &&& 0x3f) <<< 12 ||| (c.toNat &&& 0x3f) <<<
    6 ||| (d.toNat &&& 0x3f)
  let unicode := (unicode + (2 ^ 32 - 0x10000)) % 2 ^ 32
  writeHex UpperCase (0xD800 ||| ((unicode >>> 10) &&& 0x3FF)) ++
    writeHex UpperCase (0xDC00 ||| (unicode &&& 0x3FF))

/-! ### The quoters -/

/-- The string that is left in memory, and where it is written. -/
structure QuoteState where
  src : ℕ
  nb : ℕ
  buf : Bytes
  dst : ℕ

variable (flags : SerializeFlags) (mem : Bytes)

/-- One round of `DoEscape`: a byte of the table, a character of four bytes, or a byte as it is. -/
def escapeOne (st : QuoteState) : QuoteState :=
  let ch := rd mem st.src
  let q := quote_tab flags.kSerializeUnicodeEscapeUppercase ch
  if q.1 ≠ 0 then ⟨st.src + 1, st.nb - 1, store st.buf st.dst q.2, st.dst + q.1⟩
  else if flags.kSerializeEscapeEmoji then
    if st.nb < 4 then ⟨st.src + 1, st.nb - 1, store st.buf st.dst [ch], st.dst + 1⟩
    else ⟨st.src + 4, st.nb - 4,
      store st.buf st.dst
      (surrogates flags.kSerializeUnicodeEscapeUppercase ch (rd mem (st.src + 1))
      (rd mem (st.src + 2)) (rd mem (st.src + 3))), st.dst + 12⟩
  else st

def DoEscape : ℕ → QuoteState → QuoteState
  | 0, st => st
  | fuel + 1, st =>
    let st := escapeOne flags mem st
    if st.nb ≤ 0 then st
    else if emoji flags (rd mem st.src) then DoEscape fuel st
    else if !kNeedEscaped (rd mem st.src) then st
    else DoEscape fuel st

namespace common

def quoteLoop : ℕ → QuoteState → QuoteState
  | 0, st => st
  | fuel + 1, st =>
    if 0 < st.nb then
      let ch := rd mem st.src
      let need_escape := kNeedEscaped ch || emoji flags ch
      if !need_escape then quoteLoop fuel ⟨st.src + 1, st.nb - 1, store st.buf st.dst [ch], st.dst + 1⟩
      else quoteLoop fuel (DoEscape flags mem st.nb st)
    else st

/-- Quotes the `nb` bytes at `src` of the memory to `dst` of the buffer: the buffer, and where it
has been written to. -/
def Quote (src nb : ℕ) (buf : Bytes) (dst : ℕ) : Bytes × ℕ :=
  let st := quoteLoop flags mem nb ⟨src, nb, store buf dst [Ch.quote], dst + 1⟩
  (store st.buf st.dst [Ch.quote], st.dst + 1)

end common

variable (A : Arch)

/-- A vector of memory. -/
def load (src n : ℕ) : Bytes := (List.range n).map fun i => rd mem (src + i)

/-- The mask of `CopyAndGetEscapMask`. -/
def GetEscapMask (src : ℕ) : BitVec 32 :=
  vecMask A mem src fun b => decide (b < 0x20) || b == Ch.bslash || b == Ch.quote ||
    (flags.kSerializeEscapeEmoji && decide (0xF0 ≤ b))

/-- `CopyAndGetEscapMask`, the copy. -/
def QuoteState.copy (st : QuoteState) : QuoteState :=
  { st with buf := store st.buf st.dst (load mem st.src A.VEC_LEN) }

def QuoteState.MOVE_N_CHARS (st : QuoteState) (n : ℕ) : QuoteState :=
  { st with src := st.src + n, nb := st.nb - n, dst := st.dst + n }

/-- The loop over whole blocks. -/
def quoteBlocks : ℕ → QuoteState → QuoteState
  | 0, st => st
  | fuel + 1, st =>
    if A.VEC_LEN ≤ st.nb then
      let mm := GetEscapMask flags mem A st.src
      let st := st.copy mem A
      if mm ≠ 0 then quoteBlocks fuel (DoEscape flags mem st.nb (st.MOVE_N_CHARS (Bits.ctz mm)))
      else quoteBlocks fuel (st.MOVE_N_CHARS A.VEC_LEN)
    else st

/-- `VEC_FULL_MASK`. -/
def Arch.VEC_FULL_MASK (A : Arch) : BitVec 32 := Bits.ofPred 32 fun i => decide (i < A.VEC_LEN)

/-- The loop over what is left, less than a block. -/
def quoteTail : ℕ → QuoteState → QuoteState
  | 0, st => st
  | fuel + 1, st =>
    if 0 < st.nb then
      let mm := GetEscapMask flags mem A st.src &&& (A.VEC_FULL_MASK >>> (A.VEC_LEN - st.nb))
      let st := st.copy mem A
      if mm ≠ 0 then quoteTail fuel (DoEscape flags mem st.nb (st.MOVE_N_CHARS (Bits.ctz mm)))
      else { st with dst := st.dst + st.nb, nb := 0 }
    else st

/-- The vector version; `direct` says where the bytes behind the last block may be read in place
(the block is not at the end of a page, and there is no sanitizer), and else they are copied to
`tmp_src`. -/
def Quote (direct : ℕ → Bool) (src nb : ℕ) (buf : Bytes) (dst : ℕ) : Bytes × ℕ :=
  let st := quoteBlocks flags mem A nb ⟨src, nb, store buf dst [Ch.quote], dst + 1⟩
  let st :=
    if 0 < st.nb then
      if direct st.src then quoteTail flags mem A st.nb st
      else
        let tmp_src := slice mem st.src (st.src + st.nb) ++ List.replicate (A.VEC_LEN * 2 - st.nb) 0
        quoteTail flags tmp_src A st.nb { st with src := 0 }
    else st
  (store st.buf st.dst [Ch.quote], st.dst + 1)

/-! ### What is written for a string -/

/-- What is written for a byte. -/
def quotedByte (a : UInt8) : Bytes :=
  let q := quote_tab flags.kSerializeUnicodeEscapeUppercase a
  if q.1 ≠ 0 then q.2.take q.1 else [a]

/-- What is written between the quotes. -/
def quoted : Bytes → Bytes
  | [] => []
  | a :: b :: c :: d :: s =>
    if emoji flags a then surrogates flags.kSerializeUnicodeEscapeUppercase a b c d ++ quoted s
    else quotedByte flags a ++ quoted (b :: c :: d :: s)
  | a :: s => quotedByte flags a ++ quoted s

section
variable {flags mem A} {a b c d : UInt8} {s : Bytes}

theorem quoted_emoji (h : emoji flags a = true) : quoted flags (a :: b :: c :: d :: s) =
    surrogates flags.kSerializeUnicodeEscapeUppercase a b c d ++ quoted flags s := by
  rw [quoted, if_pos h]

theorem quoted_byte (h : emoji flags a = false ∨ s.length < 3) :
    quoted flags (a :: s) = quotedByte flags a ++ quoted flags s := by
  rcases s with _ | ⟨b, _ | ⟨c, _ | ⟨d, s⟩⟩⟩
  · rfl
  · rfl
  · rfl
  · rw [quoted, if_neg]
    rcases h with h | h
    · rw [h]
      decide
    · simp only [List.length_cons] at h
      omega

/-- A property of bytes, from the 256 of them. -/
theorem forall_byte {P : UInt8 → Prop} (h : ∀ n : Fin 256, P (UInt8.ofNat n)) (a : UInt8) : P a := by
  have := h ⟨a.toNat, a.toNat_lt⟩
  simpa using this

theorem quote_tab_eq_zero (u : Bool) (a : UInt8) : (quote_tab u a).1 = 0 ↔ kNeedEscaped a = false := by
  refine forall_byte (P := fun a => (quote_tab u a).1 = 0 ↔ kNeedEscaped a = false) ?_ a
  cases u <;> decide +kernel

theorem quote_tab_le (u : Bool) (a : UInt8) : (quote_tab u a).1 ≤ (quote_tab u a).2.length := by
  refine forall_byte (P := fun a => (quote_tab u a).1 ≤ (quote_tab u a).2.length) ?_ a
  cases u <;> decide +kernel

theorem emoji_need (h : emoji flags a = true) : kNeedEscaped a = false := by
  have : ∀ a : UInt8, (a &&& 0xf0) == 0xf0 → kNeedEscaped a = false := forall_byte (by decide +kernel)
  rw [emoji, Bool.and_eq_true] at h
  exact this a h.2

/-- A byte that is copied. -/
theorem quoted_plain (h1 : kNeedEscaped a = false) (h2 : emoji flags a = false) :
    quoted flags (a :: s) = a :: quoted flags s := by
  rw [quoted_byte (.inl h2), quotedByte, (quote_tab_eq_zero _ a).mpr h1]
  rfl

theorem quoted_plain_append {w : Bytes} (h : ∀ x ∈ w, kNeedEscaped x = false ∧ emoji flags x = false) :
    quoted flags (w ++ s) = w ++ quoted flags s := by
  induction w with
  | nil => rfl
  | cons x w ih =>
    obtain ⟨h1, h2⟩ := h x List.mem_cons_self
    rw [List.cons_append, quoted_plain h1 h2, ih fun y hy => h y (List.mem_cons_of_mem _ hy),
      List.cons_append]

end

theorem quotedByte_length (flags : SerializeFlags) (a : UInt8) : (quotedByte flags a).length ≤ 6 := by
  unfold quotedByte
  refine forall_byte (P := fun a => (let q := quote_tab flags.kSerializeUnicodeEscapeUppercase a
    if q.1 ≠ 0 then q.2.take q.1 else [a]).length ≤ 6) ?_ a
  cases flags.kSerializeUnicodeEscapeUppercase <;> decide +kernel

/-- What the serializer reserves for a string is enough. -/
theorem quoted_length (flags : SerializeFlags) : ∀ s : Bytes, (quoted flags s).length ≤ 6 * s.length
  | [] => Nat.zero_le _
  | a :: s => by
    have one : emoji flags a = false ∨ s.length < 3 →
        (quoted flags (a :: s)).length ≤ 6 * (a :: s).length := by
      intro h
      have h1 := quotedByte_length flags a
      have h2 := quoted_length flags s
      rw [quoted_byte h, List.length_append, List.length_cons]
      omega
    cases hem : emoji flags a with
    | false => exact one (.inl hem)
    | true =>
      rcases s with _ | ⟨b, _ | ⟨c, _ | ⟨d, s⟩⟩⟩
      · exact one (.inr (by simp))
      · exact one (.inr (by simp))
      · exact one (.inr (by simp))
      · have h2 := quoted_length flags s
        have h12 : ∀ u, (surrogates u a b c d).length = 12 := fun _ => rfl
        rw [quoted_emoji hem, List.length_append, h12]
        simp only [List.length_cons]
        omega

/-! ### The quoters write it -/

/-- `s` is left, `out` is written. -/
structure Quoting (mem : Bytes) (len : ℕ) (out s : Bytes) (st : QuoteState) : Prop where
  left : Left mem len st.src s
  nb : st.nb = s.length
  buf : ∃ junk, st.buf = out ++ junk
  dst : st.dst = out.length

section
variable {flags mem A} {len : ℕ} {out w s : Bytes} {st : QuoteState}

/-- `w` is read, and of the bytes `bs` that are stored `n` count. -/
theorem Quoting.write (h : Quoting mem len out (w ++ s) st) {bs : Bytes} {n : ℕ} (hn : n ≤ bs.length) :
    Quoting mem len (out ++ bs.take n) s ⟨st.src + w.length, st.nb - w.length,
      store st.buf st.dst bs, st.dst + n⟩ := by
  obtain ⟨junk, hj⟩ := h.buf
  refine ⟨h.left.append, ?_, ⟨bs.drop n ++ junk.drop bs.length, ?_⟩, ?_⟩
  · have := h.nb
    rw [List.length_append] at this
    dsimp only
    omega
  · dsimp only
    rw [hj, h.dst, store_append, List.append_assoc, ← List.append_assoc (bs.take n),
      List.take_append_drop]
  · dsimp only
    rw [h.dst, List.length_append, List.length_take, Nat.min_eq_left hn]

/-- A byte to be escaped stands first. -/
def Escapable (flags : SerializeFlags) (s : Bytes) : Prop := ∃ a r, s = a :: r ∧
    (kNeedEscaped a = true ∨ emoji flags a = true)

theorem escapeOne_spec (h : Quoting mem len out s st) (he : Escapable flags s) :
    ∃ v s', Quoting mem len (out ++ v) s' (escapeOne flags mem st) ∧
      quoted flags s = v ++ quoted flags s' ∧ s'.length < s.length := by
  obtain ⟨a, r, rfl, ha⟩ := he
  have hrd : rd mem st.src = a := h.left.rd_eq
  have hnb := h.nb
  have hone : ∀ {bs : Bytes} {n : ℕ}, n ≤ bs.length →
      Quoting mem len (out ++ bs.take n) r ⟨st.src + 1, st.nb - 1, store st.buf st.dst bs,
        st.dst + n⟩ :=
    fun hn => Quoting.write (w := [a]) h hn
  rw [List.length_cons] at hnb
  unfold escapeOne
  dsimp only
  rw [hrd]
  by_cases hq : (quote_tab flags.kSerializeUnicodeEscapeUppercase a).1 = 0
  · have hk := (quote_tab_eq_zero _ a).mp hq
    obtain hem : emoji flags a = true := by
      rcases ha with ha | ha
      · rw [hk] at ha
        cases ha
      · exact ha
    have hf : flags.kSerializeEscapeEmoji = true := (Bool.and_eq_true_iff.mp hem).1
    rw [if_neg (not_not.mpr hq), if_pos hf]
    by_cases h4 : st.nb < 4
    · rw [if_pos h4]
      refine ⟨[a], r, @hone [a] 1 le_rfl, ?_, by simp⟩
      rw [quoted_byte (.inr (by omega)), quotedByte]
      rw [if_neg (not_not.mpr hq)]
    · obtain ⟨b, c, d, t, rfl⟩ : ∃ b c d t, r = b :: c :: d :: t := by
        rcases r with _ | ⟨b, _ | ⟨c, _ | ⟨d, t⟩⟩⟩
        · simp at hnb
          omega
        · simp at hnb
          omega
        · simp at hnb
          omega
        · exact ⟨b, c, d, t, rfl⟩
      have hb : rd mem (st.src + 1) = b := h.left.succ.rd_eq
      have hc : rd mem (st.src + 2) = c := h.left.succ.succ.rd_eq
      have hd : rd mem (st.src + 3) = d := h.left.succ.succ.succ.rd_eq
      have hfour := @Quoting.write _ _ _ [a, b, c, d] t _ h
        (surrogates flags.kSerializeUnicodeEscapeUppercase a b c d) 12 le_rfl
      rw [if_neg h4, hb, hc, hd]
      refine ⟨surrogates flags.kSerializeUnicodeEscapeUppercase a b c d, t, hfour, quoted_emoji hem, ?_⟩
      simp only [List.length_cons]
      omega
  · have hk : kNeedEscaped a = true := by
      by_contra hc
      exact hq ((quote_tab_eq_zero _ a).mpr (by simpa using hc))
    have hne : emoji flags a = false := by
      by_contra hc
      have := emoji_need (by simpa using hc : emoji flags a = true)
      rw [hk] at this
      cases this
    rw [if_pos hq]
    refine ⟨_, r, hone (quote_tab_le _ a), ?_, by simp⟩
    rw [quoted_byte (.inl hne), quotedByte]
    rw [if_pos hq]

/-- What is left before a run of escapes, and after. -/
theorem DoEscape_spec : ∀ (fuel : ℕ) (out s : Bytes) (st : QuoteState), Quoting mem len out s st →
    Escapable flags s → s.length ≤ fuel →
    ∃ v s', Quoting mem len (out ++ v) s' (DoEscape flags mem fuel st) ∧
      quoted flags s = v ++ quoted flags s' ∧ s'.length < s.length
  | 0, out, s, st, _, he, hf => by
    obtain ⟨a, r, rfl, -⟩ := he
    simp at hf
  | fuel + 1, out, s, st, h, he, hf => by
    obtain ⟨v, s', h1, h2, h3⟩ := escapeOne_spec h he
    rw [DoEscape]
    -- from the next byte on
    have again : Escapable flags s' →
        ∃ v s'', Quoting mem len (out ++ v) s'' (DoEscape flags mem fuel (escapeOne flags mem st)) ∧
        quoted flags s = v ++ quoted flags s'' ∧ s''.length < s.length := by
      intro he'
      obtain ⟨w, s'', k1, k2, k3⟩ := DoEscape_spec fuel _ s' _ h1 he' (by omega)
      refine ⟨v ++ w, s'', ?_, ?_, by omega⟩
      · rw [← List.append_assoc]
        exact k1
      · rw [h2, k2, List.append_assoc]
    by_cases hz : (escapeOne flags mem st).nb ≤ 0
    · rw [if_pos hz]
      exact ⟨v, s', h1, h2, h3⟩
    rw [if_neg hz]
    have hnb := h1.nb
    obtain ⟨b, r, rfl⟩ : ∃ b r, s' = b :: r := by
      rcases s' with _ | ⟨b, r⟩
      · rw [List.length_nil] at hnb
        omega
      · exact ⟨b, r, rfl⟩
    rw [h1.left.rd_eq]
    by_cases hem : emoji flags b = true
    · rw [if_pos hem]
      exact again ⟨b, r, rfl, .inr hem⟩
    rw [if_neg hem]
    by_cases hk : kNeedEscaped b = true
    · rw [if_neg (by rw [hk]; decide)]
      exact again ⟨b, r, rfl, .inl hk⟩
    · rw [if_pos (by simpa using hk)]
      exact ⟨v, _, h1, h2, h3⟩

theorem common.quoteLoop_spec :
    ∀ (fuel : ℕ) (out s : Bytes) (st : QuoteState), Quoting mem len out s st → s.length ≤ fuel →
    Quoting mem len (out ++ quoted flags s) [] (common.quoteLoop flags mem fuel st)
  | 0, out, s, st, h, hf => by
    obtain rfl := List.length_eq_zero_iff.mp (Nat.le_zero.mp hf)
    rw [quoted, List.append_nil]
    exact h
  | fuel + 1, out, [], st, h, _ => by
    have hnb : st.nb = 0 := h.nb
    rw [common.quoteLoop, if_neg (by omega), quoted, List.append_nil]
    exact h
  | fuel + 1, out, a :: s, st, h, hf => by
    have hnb := h.nb
    rw [List.length_cons] at hnb hf
    rw [common.quoteLoop, if_pos (by omega), h.left.rd_eq]
    dsimp only
    by_cases hn : (kNeedEscaped a || emoji flags a) = true
    · rw [if_neg (by rw [hn]; decide)]
      obtain ⟨v, s', h1, h2, h3⟩ :=
        DoEscape_spec st.nb out (a :: s) st h ⟨a, s, rfl, Bool.or_eq_true_iff.mp hn⟩
        (by simp; omega)
      rw [List.length_cons] at h3
      rw [h2, ← List.append_assoc]
      exact common.quoteLoop_spec fuel _ s' _ h1 (by omega)
    · rw [if_pos (by simpa using hn)]
      obtain ⟨h1, h2⟩ : kNeedEscaped a = false ∧ emoji flags a = false := by simpa using hn
      have h3 := @Quoting.write _ _ _ [a] s _ h [a] 1 le_rfl
      rw [quoted_plain h1 h2, List.append_cons]
      exact common.quoteLoop_spec fuel _ s _ h3 (by omega)

/-! ### By blocks -/

/-- A byte that is copied as it is. -/
def Copied (flags : SerializeFlags) (a : UInt8) : Prop := kNeedEscaped a = false ∧ emoji flags a = false

theorem escape_byte (a : UInt8) :
    (decide (a < 0x20) || a == Ch.bslash || a == Ch.quote ||
    (flags.kSerializeEscapeEmoji && decide (0xF0 ≤ a))) =
      (kNeedEscaped a || emoji flags a) := by
  unfold emoji
  refine forall_byte (P := fun a => (decide (a < 0x20) || a == Ch.bslash || a == Ch.quote ||
    (flags.kSerializeEscapeEmoji && decide (0xF0 ≤ a))) =
      (kNeedEscaped a || (flags.kSerializeEscapeEmoji && (a &&& 0xf0) == 0xf0))) ?_ a
  cases flags.kSerializeEscapeEmoji <;> decide +kernel

theorem getLsbD_GetEscapMask (h : Left mem len st.src s) {i : ℕ} (hi : i < s.length) :
    (GetEscapMask flags mem A st.src).getLsbD i =
      (decide (i < A.VEC_LEN) && (kNeedEscaped (rd s i) || emoji flags (rd s i))) := by
  rw [GetEscapMask, getLsbD_vecMask, escape_byte, h.rd_add hi]

theorem rd_take {i n : ℕ} (h : i < n) : rd (s.take n) i = rd s i := by
  rw [rd, rd, List.getD_eq_getElem?_getD, List.getD_eq_getElem?_getD, List.getElem?_take_of_lt h]

/-- What a mask says of the first `n` bytes. -/
theorem mask_first {mm : BitVec 32} {n : ℕ} (hn : n ≤ s.length)
    (hin : ∀ i < n, mm.getLsbD i = (kNeedEscaped (rd s i) || emoji flags (rd s i)))
    (hout : ∀ i, n ≤ i → mm.getLsbD i = false) (hmm : mm ≠ 0) :
    ∃ w s', s = w ++ s' ∧ w.length = Bits.ctz mm ∧ Bits.ctz mm < n ∧ (∀ x ∈ w, Copied flags x) ∧
      Escapable flags s' := by
  have hbit := Bits.getLsbD_ctz hmm
  have hc : Bits.ctz mm < n := by
    by_contra hc
    rw [hout _ (by omega)] at hbit
    cases hbit
  rw [hin _ hc] at hbit
  have hlen : (s.take (Bits.ctz mm)).length = Bits.ctz mm := by
    rw [List.length_take]
    omega
  refine ⟨s.take (Bits.ctz mm), s.drop (Bits.ctz mm), (List.take_append_drop _ _).symm, hlen,
    hc, ?_, ?_⟩
  · refine forall_mem_of_rd fun i hi => ?_
    rw [hlen] at hi
    have hb := Bits.getLsbD_of_lt_ctz mm hi
    rw [hin _ (by omega)] at hb
    rw [rd_take hi]
    simpa [Copied] using hb
  · refine ⟨rd s (Bits.ctz mm), s.drop (Bits.ctz mm + 1), ?_, Bool.or_eq_true_iff.mp hbit⟩
    rw [rd, List.getD_eq_getElem _ _ (by omega), List.drop_eq_getElem_cons]

theorem mask_zero {mm : BitVec 32} {n : ℕ} (hn : n ≤ s.length)
    (hin : ∀ i < n, mm.getLsbD i = (kNeedEscaped (rd s i) || emoji flags (rd s i))) (hmm : mm = 0) :
    ∀ x ∈ s.take n, Copied flags x := by
  refine forall_mem_of_rd fun i hi => ?_
  rw [List.length_take, Nat.min_eq_left hn] at hi
  have hb := hin i hi
  have hz : mm.getLsbD i = false := by simp [hmm]
  rw [hz] at hb
  rw [rd_take hi]
  simpa [Copied] using hb.symm

theorem load_take {p n : ℕ} (h : Left mem len p (w ++ s)) (hn : w.length ≤ n) :
    (load mem p n).take w.length = w := by
  refine List.ext_getElem (by simp [load, hn]) fun i hi _ => ?_
  simp only [load, List.length_take, List.length_map, List.length_range] at hi
  have := h.rd_add (i := i) (by rw [List.length_append]; omega)
  rw [rd_append_left (by omega)] at this
  simp only [load, List.getElem_take, List.getElem_map, List.getElem_range, this]
  rw [rd, List.getD_eq_getElem _ _ (by omega)]

/-- The bytes `w` of the block that is copied stay. -/
theorem Quoting.copy (h : Quoting mem len out (w ++ s) st) (hw : w.length ≤ A.VEC_LEN) :
    Quoting mem len (out ++ w) s ((st.copy mem A).MOVE_N_CHARS w.length) := by
  have := @Quoting.write _ _ _ _ _ _ h (load mem st.src A.VEC_LEN) w.length (by simpa [load] using hw)
  rw [load_take h.left hw] at this
  exact this

theorem quoteBlocks_spec :
    ∀ (fuel : ℕ) (out s : Bytes) (st : QuoteState), Quoting mem len out s st → s.length ≤ fuel →
    ∃ v s', Quoting mem len (out ++ v) s' (quoteBlocks flags mem A fuel st) ∧
      quoted flags s = v ++ quoted flags s' ∧
      s'.length < A.VEC_LEN
  | 0, out, s, st, h, hf => by
    obtain rfl := List.length_eq_zero_iff.mp (Nat.le_zero.mp hf)
    refine ⟨[], [], ?_, rfl, A.VEC_LEN_pos⟩
    rw [List.append_nil]
    exact h
  | fuel + 1, out, s, st, h, hf => by
    have hnb := h.nb
    have hV := A.VEC_LEN_pos
    unfold quoteBlocks
    by_cases hlt : A.VEC_LEN ≤ st.nb
    swap
    · rw [if_neg hlt]
      refine ⟨[], s, ?_, rfl, by omega⟩
      rw [List.append_nil]
      exact h
    rw [if_pos hlt]
    dsimp only
    have hin : ∀ i < A.VEC_LEN, (GetEscapMask flags mem A st.src).getLsbD i =
        (kNeedEscaped (rd s i) || emoji flags (rd s i)) := by
      intro i hi
      rw [getLsbD_GetEscapMask h.left (by omega), decide_eq_true hi, Bool.true_and]
    -- the rest of the blocks, when `u` has been written for what came before
    have rest : ∀ {u s' : Bytes} {st' : QuoteState}, Quoting mem len (out ++ u) s' st' →
        quoted flags s = u ++ quoted flags s' →
        s'.length < s.length →
          ∃ v s'', Quoting mem len (out ++ v) s'' (quoteBlocks flags mem A fuel st') ∧
          quoted flags s = v ++ quoted flags s'' ∧ s''.length < A.VEC_LEN := by
      intro u s' st' hq hs hl
      obtain ⟨v, s'', h1, h2, h3⟩ := quoteBlocks_spec fuel _ s' st' hq (by omega)
      refine ⟨u ++ v, s'', ?_, ?_, h3⟩
      · rw [← List.append_assoc]
        exact h1
      · rw [hs, h2, List.append_assoc]
    by_cases hmm : GetEscapMask flags mem A st.src = 0
    · rw [if_neg (not_not.mpr hmm)]
      have hc := mask_zero (by omega) hin hmm
      have hlen : (s.take A.VEC_LEN).length = A.VEC_LEN := by
        rw [List.length_take]
        omega
      have hq : Quoting mem len out (s.take A.VEC_LEN ++ s.drop A.VEC_LEN) st := by
        rw [List.take_append_drop]
        exact h
      have hcopy := hq.copy (A := A) hlen.le
      rw [hlen] at hcopy
      refine rest hcopy ?_ (by rw [List.length_drop]; omega)
      rw [← quoted_plain_append hc, List.take_append_drop]
    · rw [if_pos hmm]
      have hout : ∀ i, A.VEC_LEN ≤ i → (GetEscapMask flags mem A st.src).getLsbD i = false := by
        intro i hi
        rw [GetEscapMask, getLsbD_vecMask, decide_eq_false (by omega), Bool.false_and]
      obtain ⟨w, s', rfl, hw, hlw, hc, he⟩ := mask_first (by omega) hin hout hmm
      have hcopy := Quoting.copy (A := A) h (by omega)
      rw [hw] at hcopy
      rw [List.length_append] at hnb hf
      obtain ⟨v, s'', h1, h2, h3⟩ := DoEscape_spec st.nb _ s' _ hcopy he (by omega)
      rw [List.append_assoc] at h1
      refine rest h1 ?_ (by rw [List.length_append]; omega)
      rw [quoted_plain_append hc, h2, List.append_assoc]

/-- What has been written. -/
def Written (out : Bytes) (st : QuoteState) : Prop := (∃ junk, st.buf = out ++ junk) ∧
    st.dst = out.length

theorem quoteTail_spec : ∀ (fuel : ℕ) (out s : Bytes) (st : QuoteState), Quoting mem len out s st →
    s.length ≤ fuel →
    s.length < A.VEC_LEN → Written (out ++ quoted flags s) (quoteTail flags mem A fuel st)
  | 0, out, s, st, h, hf, _ => by
    obtain rfl := List.length_eq_zero_iff.mp (Nat.le_zero.mp hf)
    rw [quoted, List.append_nil]
    exact ⟨h.buf, h.dst⟩
  | fuel + 1, out, [], st, h, _, _ => by
    have hnb : st.nb = 0 := h.nb
    rw [quoteTail, if_neg (by omega), quoted, List.append_nil]
    exact ⟨h.buf, h.dst⟩
  | fuel + 1, out, a :: s, st, h, hf, hV => by
    have hnb := h.nb
    have h32 := A.VEC_LEN_le
    rw [quoteTail, if_pos (by rw [hnb]; simp)]
    dsimp only
    generalize hs : a :: s = S at *
    have hbit : ∀ i,
        (GetEscapMask flags mem A st.src &&& (A.VEC_FULL_MASK >>> (A.VEC_LEN - st.nb))).getLsbD i =
        ((GetEscapMask flags mem A st.src).getLsbD i && decide (i < S.length)) := by
      intro i
      rw [BitVec.getLsbD_and, BitVec.getLsbD_ushiftRight, Arch.VEC_FULL_MASK, Bits.getLsbD_ofPred]
      congr 1
      rw [Bool.and_eq_decide]
      simp only [decide_eq_true_eq, decide_eq_decide]
      omega
    generalize GetEscapMask flags mem A st.src &&& (A.VEC_FULL_MASK >>> (A.VEC_LEN - st.nb)) = mm
      at hbit ⊢
    have hin : ∀ i < S.length, mm.getLsbD i = (kNeedEscaped (rd S i) || emoji flags (rd S i)) := by
      intro i hi
      rw [hbit, decide_eq_true hi, Bool.and_true, getLsbD_GetEscapMask h.left hi,
        decide_eq_true (by omega), Bool.true_and]
    by_cases hmm : mm = 0
    · rw [if_neg (not_not.mpr hmm)]
      have hc := mask_zero le_rfl hin hmm
      rw [List.take_length] at hc
      have hq : Quoting mem len out (S ++ []) st := by
        rw [List.append_nil]
        exact h
      have hcopy := hq.copy (A := A) hV.le
      have hquoted := quoted_plain_append (s := []) hc
      rw [List.append_nil, quoted, List.append_nil] at hquoted
      rw [hquoted]
      refine ⟨hcopy.buf, ?_⟩
      rw [← hcopy.dst, ← hnb]
      rfl
    · rw [if_pos hmm]
      have hout : ∀ i, S.length ≤ i → mm.getLsbD i = false := by
        intro i hi
        rw [hbit, decide_eq_false (by omega), Bool.and_false]
      obtain ⟨w, s', rfl, hw, hlw, hc, he⟩ := mask_first le_rfl hin hout hmm
      rw [List.length_append] at hlw hf hV hnb
      have hcopy := Quoting.copy (A := A) h (by omega)
      rw [hw] at hcopy
      obtain ⟨v, s'', h1, h2, h3⟩ := DoEscape_spec st.nb _ s' _ hcopy he (by omega)
      rw [quoted_plain_append hc, h2, ← List.append_assoc, ← List.append_assoc]
      exact quoteTail_spec fuel _ s'' _ h1 (by omega) (by omega)


/-! ### What has been quoted is a string token -/

theorem unescape_quotedByte (a : UInt8) (r : Bytes) :
    unescape false (quotedByte flags a ++ r) = emit [a] (unescape false r) := by
  cases hk : kNeedEscaped a with
  | false =>
    have hp : Plain false a := by
      simp only [kNeedEscaped, Bool.or_eq_false_iff, decide_eq_false_iff_not, beq_eq_false_iff_ne] at hk
      exact ⟨hk.1.2, hk.2, .inr hk.1.1⟩
    rw [quotedByte, (quote_tab_eq_zero _ a).mpr hk]
    exact unescape_plain hp
  | true =>
    unfold quotedByte
    dsimp only
    generalize flags.kSerializeUnicodeEscapeUppercase = u
    -- an escape of two bytes or one of six, by the table
    have htab : (∃ c, (quote_tab u a).1 = 2 ∧ (quote_tab u a).2.take 2 = [Ch.bslash, c] ∧
        escChar c = some a) ∨
        (∃ x y, (quote_tab u a).1 = 6 ∧
          (quote_tab u a).2.take 6 = [Ch.bslash, Ch.u, Ch.zero, Ch.zero, x, y] ∧
          hex4 Ch.zero Ch.zero x y = some a.toNat ∧ a.toNat < 0x20) := by
      have := forall_byte (P := fun a => kNeedEscaped a = true →
        ((quote_tab u a).1 = 2 ∧ (quote_tab u a).2.take 2 = [Ch.bslash, rd (quote_tab u a).2 1] ∧
          escChar (rd (quote_tab u a).2 1) = some a) ∨
        ((quote_tab u a).1 = 6 ∧ (quote_tab u a).2.take 6 =
            [Ch.bslash, Ch.u, Ch.zero, Ch.zero, rd (quote_tab u a).2 4, rd (quote_tab u a).2 5] ∧
          hex4 Ch.zero Ch.zero (rd (quote_tab u a).2 4) (rd (quote_tab u a).2 5) = some a.toNat ∧
            a.toNat < 0x20))
        (by cases u <;> decide +kernel) a hk
      rcases this with h | h
      · exact .inl ⟨_, h⟩
      · exact .inr ⟨_, _, h⟩
    rcases htab with ⟨c, h2, hs, hc⟩ | ⟨x, y, h6, hs, hx, hlt⟩
    · rw [h2, if_pos (by decide), hs]
      exact unescape_esc false hc
    · rw [h6, if_pos (by decide), hs]
      refine unescape_uni false ?_
      have hlow : ¬ IsLow a.toNat := fun h => by
        have := h.1
        omega
      have hhigh : ¬ IsHigh a.toNat := fun h => by
        have := h.1
        omega
      change unicodeEsc (Ch.zero :: Ch.zero :: x :: y :: r) = _
      rw [unicodeEsc_unit hx hlow hhigh, utf8, if_pos (by omega), UInt8.ofNat_toNat]

theorem hexDigit_hexChars (u : Bool) {v : ℕ} (hv : v < 16) : hexDigit (hexChars u v) = some v := by
  have : ∀ v : Fin 16, hexDigit (hexChars u v) = some v.val := by cases u <;> decide
  exact this ⟨v, hv⟩

theorem hex4_hexChars (u : Bool) {v : ℕ} (hv : v < 2 ^ 16) :
    hex4 (hexChars u (v >>> 12 &&& 0xf)) (hexChars u (v >>> 8 &&& 0xf)) (hexChars u (v >>> 4 &&& 0xf))
      (hexChars u (v &&& 0xf)) = some v := by
  have h15 : ∀ n : ℕ, n &&& 0xf = n % 16 := fun n => Nat.and_two_pow_sub_one_eq_mod n 4
  have hlt : ∀ n : ℕ, n % 16 < 16 := fun n => Nat.mod_lt n (by decide)
  unfold hex4
  rw [h15, h15, h15, h15, hexDigit_hexChars u (hlt _), hexDigit_hexChars u (hlt _),
    hexDigit_hexChars u (hlt _), hexDigit_hexChars u (hlt _)]
  simp only [Nat.shiftRight_eq_div_pow, Option.some.injEq]
  omega

/-- The bits that are shifted out of a character of four bytes. -/
def fourBytes (a b c d : UInt8) : ℕ :=
  a.toNat % 8 * 2 ^ 18 + b.toNat % 64 * 2 ^ 12 + c.toNat % 64 * 2 ^ 6 + d.toNat % 64

theorem fourBytes_eq (a b c d : UInt8) :
    (a.toNat &&& 0x07) <<< 18 ||| (b.toNat &&& 0x3f) <<< 12 ||| (c.toNat &&& 0x3f) <<< 6 |||
    (d.toNat &&& 0x3f) =
      fourBytes a b c d := by
  have h7 : ∀ n : ℕ, n &&& 0x07 = n % 8 := fun n => Nat.and_two_pow_sub_one_eq_mod n 3
  have h63 : ∀ n : ℕ, n &&& 0x3f = n % 64 := fun n => Nat.and_two_pow_sub_one_eq_mod n 6
  -- one group of six bits after the other
  have step : ∀ x y k : ℕ, y < 64 → x <<< (k + 6) ||| y <<< k = (x * 64 + y) <<< k := by
    intro x y k hy
    rw [Nat.add_comm k 6, Nat.shiftLeft_add, ← Nat.shiftLeft_or_distrib,
      ← Nat.shiftLeft_add_eq_or_of_lt hy, Nat.shiftLeft_eq x]
  have hlt : ∀ n : ℕ, n % 64 < 64 := fun n => Nat.mod_lt n (by decide)
  have h0 := step ((a.toNat % 8 * 64 + b.toNat % 64) * 64 + c.toNat % 64) (d.toNat % 64) 0 (hlt _)
  rw [Nat.shiftLeft_zero, Nat.shiftLeft_zero, Nat.zero_add] at h0
  rw [h7, h63, h63, h63, step _ _ 12 (hlt _), step _ _ 6 (hlt _), h0, fourBytes]
  omega

theorem unescape_surrogates (u : Bool) (a b c d : UInt8) (r : Bytes) :
    unescape false (surrogates u a b c d ++ r) =
      emit (utf8 ((fourBytes a b c d + (2 ^ 32 - 0x10000)) % 2 ^ 20 + 0x10000)) (unescape false r) := by
  have h1023 : ∀ n : ℕ, n &&& 0x3FF = n % 1024 := fun n => Nat.and_two_pow_sub_one_eq_mod n 10
  have hlt : ∀ n : ℕ, n % 1024 < 2 ^ 10 := fun n => Nat.mod_lt n (by decide)
  unfold surrogates
  rw [fourBytes_eq]
  dsimp only
  have hmod : (fourBytes a b c d + (2 ^ 32 - 0x10000)) % 2 ^ 32 % 2 ^ 20 =
    (fourBytes a b c d + (2 ^ 32 - 0x10000)) % 2 ^ 20 :=
    Nat.mod_mod_of_dvd _ (by decide)
  rw [← hmod]
  generalize (fourBytes a b c d + (2 ^ 32 - 0x10000)) % 2 ^ 32 = x
  rw [h1023, h1023, Nat.shiftRight_eq_div_pow,
    show 0xD800 ||| x / 2 ^ 10 % 1024 = 0xD800 + x / 2 ^ 10 % 1024 from
      (Nat.shiftLeft_add_eq_or_of_lt (hlt _) 54).symm,
    show 0xDC00 ||| x % 1024 = 0xDC00 + x % 1024 from (Nat.shiftLeft_add_eq_or_of_lt (hlt _) 55).symm]
  have hhi : IsHigh (0xD800 + x / 2 ^ 10 % 1024) := ⟨by omega, by omega⟩
  have hlo : IsLow (0xDC00 + x % 1024) := ⟨by omega, by omega⟩
  have hpair : pairValue (0xD800 + x / 2 ^ 10 % 1024) (0xDC00 + x % 1024) = x % 2 ^ 20 + 0x10000 := by
    unfold pairValue
    omega
  have hx := hex4_hexChars u (v := 0xD800 + x / 2 ^ 10 % 1024) (by omega)
  have hy := hex4_hexChars u (v := 0xDC00 + x % 1024) (by omega)
  unfold writeHex
  refine unescape_uni false ?_
  change unicodeEsc (_ :: _ :: _ :: _ :: Ch.bslash :: Ch.u :: _ :: _ :: _ :: _ :: r) = _
  rw [unicodeEsc_pair hx hhi hy hlo, hpair]

/-- Whatever is quoted, decodes. -/
theorem unescape_quoted :
    ∀ (s t : Bytes), ∃ body, unescape false (quoted flags s ++ Ch.quote :: t) = .ok (body, t)
  | [], _ => ⟨[], unescape_quote false⟩
  | a :: s, t => by
    -- one byte
    have one : emoji flags a = false ∨ s.length < 3 →
        ∃ body, unescape false (quoted flags (a :: s) ++ Ch.quote :: t) = .ok (body, t) := by
      intro h
      obtain ⟨body, hb⟩ := unescape_quoted s t
      refine ⟨[a] ++ body, ?_⟩
      rw [quoted_byte h, List.append_assoc, unescape_quotedByte, hb]
      rfl
    cases hem : emoji flags a with
    | false => exact one (.inl hem)
    | true =>
      rcases s with _ | ⟨b, _ | ⟨c, _ | ⟨d, s⟩⟩⟩
      · exact one (.inr (by simp))
      · exact one (.inr (by simp))
      · exact one (.inr (by simp))
      · obtain ⟨body, hb⟩ := unescape_quoted s t
        rw [quoted_emoji hem, List.append_assoc, unescape_surrogates, hb]
        exact ⟨_, rfl⟩

/-! ### Both ways -/

/-- The decoder has accepted the whole of `out`, and has `body`. -/
structure DecodesTo (out body : Bytes) (r : StrResult) : Prop where
  err : r.err = .kErrorNone
  n : r.n = body.length
  src : r.src = out.length
  body : (r.buf.drop 1).take r.n = body

/-- `out` is a string token of the text `body`, for every decoder, whatever follows it. -/
def StringToken (out body : Bytes) : Prop :=
  ∀ rest, (∀ A, DecodesTo out body (parseStringInplace A false (out ++ rest) 1)) ∧
    DecodesTo out body (common.parseStringInplace false (out ++ rest) 1)

theorem stringToken {w body : Bytes} (h : unescape false w = .ok (body, [])) :
    StringToken (Ch.quote :: w) body := by
  intro rest
  have hat : At (Ch.quote :: w ++ rest) 1 (w ++ rest) := (at_zero (Ch.quote :: (w ++ rest))).succ
  have hpre : ((Ch.quote :: w ++ rest).take 1).length = 1 := by simp
  have hlen : (Ch.quote :: w ++ rest).length - rest.length = (Ch.quote :: w).length := by
    rw [List.length_append, Nat.add_sub_cancel]
  have hdec : ∀ {r : StrResult}, Decodes false (Ch.quote :: w ++ rest).length
      ((Ch.quote :: w ++ rest).take 1) [] (w ++ rest) r →
      DecodesTo (Ch.quote :: w) body r := by
    intro r hr
    obtain ⟨h1, h2, h3, h4⟩ := hr.body hpre (unescape_append h rest)
    exact ⟨h1, h2, hlen ▸ h3, h4⟩
  exact ⟨fun A => hdec (decodes_parse A hat), hdec (common.decodes_parse hat).1⟩

/-- The bytes from `dst` on that a quoter has written. -/
def written (dst : ℕ) (r : Bytes × ℕ) : Bytes := slice r.1 dst r.2

/-- What a quoter has written, when it has written `out` behind `pre`. -/
theorem Written.close {pre w : Bytes} {r : Bytes × ℕ} (h : Written (pre ++ Ch.quote :: w) st)
    (hr : r = (store st.buf st.dst [Ch.quote], st.dst + 1)) :
    r.2 = pre.length + (w.length + 2) ∧ written pre.length r = Ch.quote :: (w ++ [Ch.quote]) := by
  obtain ⟨⟨junk, hb⟩, hd⟩ := h
  have hlen : st.dst = pre.length + (w.length + 1) := by
    rw [hd, List.length_append, List.length_cons]
  subst hr
  refine ⟨by omega, ?_⟩
  unfold written slice
  dsimp only
  rw [hb, hd, store_append, ← hd]
  rw [List.append_assoc, List.drop_left, hlen, Nat.add_assoc, Nat.add_sub_cancel_left]
  have : w.length + 1 + 1 = (Ch.quote :: (w ++ [Ch.quote])).length := by simp
  rw [this, show Ch.quote :: w ++ ([Ch.quote] ++ junk.drop [Ch.quote].length) =
    Ch.quote :: (w ++ [Ch.quote]) ++ junk.drop [Ch.quote].length by simp, List.take_left]

end

section
variable (flags : SerializeFlags) (mem : Bytes) (A : Arch) (direct : ℕ → Bool)
variable {src nb dst : ℕ} {buf : Bytes}

/-- The opening quote has been written. -/
theorem quoting_start (hmem : src + nb ≤ mem.length) (hdst : dst ≤ buf.length) :
    Quoting mem (src + nb) (buf.take dst ++ [Ch.quote]) (slice mem src (src + nb))
      ⟨src, nb, store buf dst [Ch.quote], dst + 1⟩ := by
  have hl := left_slice hmem (Nat.le_add_right src nb)
  refine ⟨hl, ?_, ⟨buf.drop (dst + 1), rfl⟩, ?_⟩
  · have := hl.length_add
    dsimp only
    omega
  · simp only [List.length_append, List.length_take, List.length_cons, List.length_nil]
    omega

/-- What is written by the byte quoter. -/
theorem common.Quote_eq (hmem : src + nb ≤ mem.length) (hdst : dst ≤ buf.length) :
    (common.Quote flags mem src nb buf dst).2 =
    dst + ((quoted flags (slice mem src (src + nb))).length + 2) ∧
      written dst (common.Quote flags mem src nb buf dst) =
        Ch.quote :: (quoted flags (slice mem src (src + nb)) ++ [Ch.quote]) := by
  have h := quoting_start mem hmem hdst
  have hspec := @common.quoteLoop_spec flags _ _ nb _ _ _ h (h.nb ▸ le_rfl)
  have hpre : (buf.take dst).length = dst := by simpa using hdst
  rw [List.append_assoc] at hspec
  have := Written.close ⟨hspec.buf, hspec.dst⟩ (r := common.Quote flags mem src nb buf dst) rfl
  rwa [hpre] at this

/-- And by the vector one. -/
theorem Quote_eq (hmem : src + nb ≤ mem.length) (hdst : dst ≤ buf.length) :
    (Quote flags mem A direct src nb buf dst).2 =
    dst + ((quoted flags (slice mem src (src + nb))).length + 2) ∧
      written dst (Quote flags mem A direct src nb buf dst) =
        Ch.quote :: (quoted flags (slice mem src (src + nb)) ++ [Ch.quote]) := by
  have h := quoting_start mem hmem hdst
  have hpre : (buf.take dst).length = dst := by simpa using hdst
  obtain ⟨v, s', h1, h2, h3⟩ := @quoteBlocks_spec flags _ A _ nb _ _ _ h (h.nb ▸ le_rfl)
  have hclose : ∀ {st}, Written (buf.take dst ++ [Ch.quote] ++ v ++ quoted flags s') st →
      Quote flags mem A direct src nb buf dst = (store st.buf st.dst [Ch.quote], st.dst + 1) →
      (Quote flags mem A direct src nb buf dst).2 =
        dst + ((quoted flags (slice mem src (src + nb))).length + 2) ∧
      written dst (Quote flags mem A direct src nb buf dst) =
        Ch.quote :: (quoted flags (slice mem src (src + nb)) ++ [Ch.quote]) := by
    intro st hw hq
    rw [List.append_assoc, ← h2, List.append_assoc] at hw
    have := Written.close hw hq
    rwa [hpre] at this
  unfold Quote at hclose ⊢
  dsimp only at hclose ⊢
  generalize quoteBlocks flags mem A nb ⟨src, nb, store buf dst [Ch.quote], dst + 1⟩ = st at h1 hclose ⊢
  have hnb := h1.nb
  by_cases hz : 0 < st.nb
  · by_cases hdir : direct st.src = true
    · exact hclose (quoteTail_spec st.nb _ s' st h1 hnb.ge h3) (by rw [if_pos hz, if_pos hdir])
    · -- the copy of the tail, with zeros behind it
      refine hclose (@quoteTail_spec _ (slice mem st.src (st.src + st.nb) ++
        List.replicate (A.VEC_LEN * 2 - st.nb) 0) _ st.nb
        st.nb _ s' { st with src := 0 } ⟨?_, hnb, h1.buf, h1.dst⟩ hnb.ge h3)
          (by rw [if_pos hz, if_neg hdir])
      have hs : slice mem st.src (st.src + st.nb) = s' := by
        have hl := h1.left.length_add
        have hd := h1.left.at'.drop
        rw [List.drop_take] at hd
        rw [slice, ← hd]
        congr 1
        omega
      rw [hs, hnb]
      refine ⟨⟨?_, Nat.zero_le _⟩, by simp⟩
      rw [List.take_left, List.drop_zero]
  · have hs : s' = [] := List.length_eq_zero_iff.mp (by omega)
    subst hs
    rw [quoted, List.append_nil] at hclose
    exact hclose ⟨h1.buf, h1.dst⟩ (by rw [if_neg hz])

/-- **The vector quoter and the byte quoter** write the same bytes, for every string, wherever it
ends and whatever is behind it, and these are a string token. -/
theorem Quote_common (hmem : src + nb ≤ mem.length) (hdst : dst ≤ buf.length) :
    (Quote flags mem A direct src nb buf dst).2 = (common.Quote flags mem src nb buf dst).2 ∧
      written dst (Quote flags mem A direct src nb buf dst) =
        written dst (common.Quote flags mem src nb buf dst) ∧
      ∃ body, StringToken (written dst (Quote flags mem A direct src nb buf dst)) body := by
  obtain ⟨h1, h2⟩ := Quote_eq flags mem A direct hmem hdst
  obtain ⟨k1, k2⟩ := common.Quote_eq flags mem hmem hdst
  obtain ⟨body, hb⟩ := unescape_quoted (slice mem src (src + nb)) []
  refine ⟨h1.trans k1.symm, h2.trans k2.symm, body, ?_⟩
  rw [h2]
  exact stringToken hb

/-- `ab"c` between other bytes. -/
theorem Quote_common_tail :
    (Quote kSerializeDefault [0, 97, 98, 34, 99, 34, 34] .sse (fun _ => true) 1 4 [] 0).2 =
        (common.Quote kSerializeDefault [0, 97, 98, 34, 99, 34, 34] 1 4 [] 0).2 ∧
      written 0 (Quote kSerializeDefault [0, 97, 98, 34, 99, 34, 34] .sse (fun _ => true) 1 4 [] 0) =
        written 0 (common.Quote kSerializeDefault [0, 97, 98, 34, 99, 34, 34] 1 4 [] 0) ∧
      ∃ body, StringToken (written 0 (Quote kSerializeDefault [0, 97, 98, 34, 99, 34, 34] .sse
        (fun _ => true) 1 4 [] 0)) body :=
  Quote_common kSerializeDefault _ .sse _ (by decide) (by decide)

end

/-! ### And back -/

/-- The bytes of a text. -/
def ValidUtf8 (s : Bytes) : Prop := ∃ cs : List Char, s = cs.flatMap String.utf8EncodeChar

section
variable {flags : SerializeFlags}

/-- With no escapes for emoji every byte comes back. -/
theorem unescape_quoted_bytes (hf : flags.kSerializeEscapeEmoji = false) (t : Bytes) : ∀ s : Bytes,
    unescape false (quoted flags s ++ Ch.quote :: t) = .ok (s, t)
  | [] => unescape_quote false
  | a :: s => by
    have hem : emoji flags a = false := by rw [emoji, hf, Bool.false_and]
    rw [quoted_byte (.inl hem), List.append_assoc, unescape_quotedByte, unescape_quoted_bytes hf t s]
    rfl

/-- Bytes that are no leads of four come back, whatever is behind them. -/
theorem unescape_quoted_append {s r t : Bytes} : ∀ {w : Bytes}, (∀ x ∈ w, x < 0xF0) →
    unescape false (quoted flags s ++ Ch.quote :: t) = .ok (r, t) →
      unescape false (quoted flags (w ++ s) ++ Ch.quote :: t) = .ok (w ++ r, t)
  | [], _, h => h
  | a :: w, hw, h => by
    have hem : emoji flags a = false := by
      have : ∀ a : UInt8, a < 0xF0 → ((a &&& 0xf0) == 0xf0) = false := forall_byte (by decide +kernel)
      rw [emoji, this a (hw a List.mem_cons_self), Bool.and_false]
    have ih := unescape_quoted_append (fun x hx => hw x (List.mem_cons_of_mem _ hx)) h
    rw [List.cons_append, quoted_byte (.inl hem), List.append_assoc, unescape_quotedByte, ih]
    rfl

theorem toNat_ofNat {n : ℕ} (h : n < 256) : (UInt8.ofNat n).toNat = n := by
  rw [UInt8.toNat_ofNat']
  omega

/-- A character: of at most three bytes, or of four whose bits are those of the scalar value. -/
theorem utf8EncodeChar_cases (c : Char) : (∀ x ∈ String.utf8EncodeChar c, x < 0xF0) ∨
    ∃ w x y z, String.utf8EncodeChar c = [w, x, y, z] ∧ (w &&& 0xf0) = 0xf0 ∧
      fourBytes w x y z = c.val.toNat ∧
      0x10000 ≤ c.val.toNat ∧ c.val.toNat ≤ 0x10FFFF ∧ utf8 c.val.toNat = [w, x, y, z] := by
  have hle : c.val.toNat ≤ 0x10FFFF := by
    have := c.valid
    rcases this with h | h <;> omega
  unfold String.utf8EncodeChar
  dsimp only
  generalize c.val.toNat = v at *
  have small : ∀ n : ℕ, n < 240 → UInt8.ofNat n < 0xF0 := by
    intro n hn
    rw [UInt8.lt_iff_toNat_lt, toNat_ofNat (by omega)]
    exact hn
  by_cases h1 : v ≤ 0x7f
  · rw [if_pos h1]
    refine .inl fun x hx => ?_
    rw [List.mem_singleton] at hx
    exact hx ▸ small _ (by omega)
  by_cases h2 : v ≤ 0x7ff
  · rw [if_neg h1, if_pos h2]
    refine .inl fun x hx => ?_
    rw [List.mem_cons, List.mem_singleton] at hx
    rcases hx with rfl | rfl <;> exact small _ (by omega)
  by_cases h3 : v ≤ 0xffff
  · rw [if_neg h1, if_neg h2, if_pos h3]
    refine .inl fun x hx => ?_
    rw [List.mem_cons, List.mem_cons, List.mem_singleton] at hx
    rcases hx with rfl | rfl | rfl <;> exact small _ (by omega)
  · rw [if_neg h1, if_neg h2, if_neg h3]
    refine .inr ⟨_, _, _, _, rfl, ?_, ?_, by omega, hle, ?_⟩
    · have : ∀ k : Fin 8, UInt8.ofNat (k.val + 0xf0) &&& 0xf0 = 0xf0 := by decide
      exact this ⟨v / 262144 % 8, Nat.mod_lt _ (by decide)⟩
    · unfold fourBytes
      rw [toNat_ofNat (by omega), toNat_ofNat (by omega), toNat_ofNat (by omega),
        toNat_ofNat (by omega)]
      omega
    · unfold utf8
      rw [if_neg h1, if_neg h2, if_neg h3, Nat.mod_eq_of_lt (show v / 262144 < 8 by omega)]

/-- A text comes back, its characters of four bytes by their surrogates. -/
theorem unescape_quoted_chars (hf : flags.kSerializeEscapeEmoji = true) (t : Bytes) : ∀ cs : List Char,
    unescape false (quoted flags (cs.flatMap String.utf8EncodeChar) ++ Ch.quote :: t) =
      .ok (cs.flatMap String.utf8EncodeChar, t)
  | [] => unescape_quote false
  | c :: cs => by
    have ih := unescape_quoted_chars hf t cs
    rw [List.flatMap_cons]
    rcases utf8EncodeChar_cases c with hc | ⟨w, x, y, z, hc, hw, hbits, hge, hle, hutf⟩
    · exact unescape_quoted_append hc ih
    · have hem : emoji flags w = true := by
        rw [emoji, hf, hw]
        rfl
      have hcp : (c.val.toNat + (2 ^ 32 - 0x10000)) % 2 ^ 20 + 0x10000 = c.val.toNat := by omega
      rw [hc]
      change unescape false (quoted flags (w :: x :: y :: z :: cs.flatMap String.utf8EncodeChar) ++
        Ch.quote :: t) = _
      rw [quoted_emoji hem, List.append_assoc, unescape_surrogates, hbits, hcp, hutf, ih]
      rfl

theorem stringToken_quoted {s : Bytes} (h : flags.kSerializeEscapeEmoji = true → ValidUtf8 s) :
    StringToken (Ch.quote :: (quoted flags s ++ [Ch.quote])) s := by
  refine stringToken ?_
  cases hf : flags.kSerializeEscapeEmoji with
  | false => exact unescape_quoted_bytes hf [] s
  | true =>
    obtain ⟨cs, rfl⟩ := h hf
    exact unescape_quoted_chars hf [] cs

/-- **What is quoted comes back** from every decoder, byte by byte: all strings when emoji are not
escaped, and all texts when they are. -/
theorem Quote_unquote (flags : SerializeFlags) (mem : Bytes) {src nb dst : ℕ} {buf : Bytes}
    (hmem : src + nb ≤ mem.length) (hdst : dst ≤ buf.length)
    (hs : flags.kSerializeEscapeEmoji = true → ValidUtf8 (slice mem src (src + nb))) :
    StringToken (written dst (common.Quote flags mem src nb buf dst)) (slice mem src (src + nb)) ∧
      ∀ A direct, StringToken (written dst (Quote flags mem A direct src nb buf dst))
        (slice mem src (src + nb)) := by
  have htok := stringToken_quoted hs
  constructor
  · rw [(common.Quote_eq flags mem hmem hdst).2]
    exact htok
  · intro A direct
    rw [(Quote_eq flags mem A direct hmem hdst).2]
    exact htok

/-- `😀` and a quote, with emoji escaped in upper case. -/
theorem Quote_unquote_emoji :
    StringToken
      (written 0 (common.Quote ⟨false, true, false, true, false⟩ [240, 159, 152, 128, 34] 0 5 [] 0))
        [240, 159, 152, 128, 34] ∧
      ∀ A direct,
        StringToken (written 0 (Quote ⟨false, true, false, true, false⟩ [240, 159, 152, 128, 34] A
        direct 0 5 [] 0))
        [240, 159, 152, 128, 34] :=
  Quote_unquote ⟨false, true, false, true, false⟩ [240, 159, 152, 128, 34] (by decide) (by decide)
    fun _ => ⟨['😀', '"'], by decide⟩

end

end SonicJson
