/-
# Strings byte by byte

`common::parseStringInplace`, the decoder of strings for processors without the vector
instructions, against the one that goes by blocks. They accept the same strings and
decode them alike (`parseStringInplace_scalar`). On a string that is rejected the byte
decoder tells the leftmost violation; the other one tells of a control character first,
if a block that it has examined shows one before any quote (`parseStringInplace_code`).
-/
import SonicJson.ParseString
import SonicJson.StringEnd

namespace SonicJson

open Cursor

namespace common

/-- The loop, with `src` where the string is read and `dst` where it is written. -/
def parseStringLoop (allow : Bool) (sdst : ℕ) : ℕ → Bytes → ℕ → ℕ → StrResult
  | 0, buf, src, _ => ⟨0, src, buf, .kParseErrorEof⟩
  | fuel + 1, buf, src, dst =>
    let c := rd buf src
    if c = Ch.quote then ⟨dst - sdst, src + 1, store buf dst [0], .kErrorNone⟩
    else if !allow && decide (c ≤ 0x1f) then ⟨0, src, buf, .kParseErrorUnEscaped⟩
    else if c ≠ Ch.bslash then parseStringLoop allow sdst fuel (store buf dst [c]) (src + 1) (dst + 1)
    else
      let escape_char := rd buf (src + 1)
      if escape_char = Ch.u then
        let (ok, src_ptr, w) := handle_unicode_codepoint buf src
        if !ok then ⟨0, src, store buf dst w, .kParseErrorEscapedUnicode⟩
        else parseStringLoop allow sdst fuel (store buf dst w) src_ptr (dst + w.length)
      else
        let buf := store buf dst [kEscapedMap escape_char]
        if kEscapedMap escape_char = 0 then ⟨0, src, buf, .kParseErrorEscapedFormat⟩
        else parseStringLoop allow sdst fuel buf (src + 2) (dst + 1)

/-- Decodes the string after the quote before `src`, in place, with fuel for each byte. -/
def parseStringInplace (allow : Bool) (buf : Bytes) (src : ℕ) : StrResult :=
  parseStringLoop allow src (buf.length + 1) buf src src

variable {allow : Bool}

/-- The rest of the text decodes as `unescape` says, errors included. -/
theorem parseStringLoop_decodes (pre : Bytes) : ∀ (fuel : ℕ) {buf out junk s : Bytes} {src dst : ℕ},
    Mid buf src dst pre out junk s → s.length < fuel →
    Decodes allow buf.length pre out s (parseStringLoop allow pre.length fuel buf src dst) ∧
      ∀ e, unescape allow s = .error e → e ≠ .kParseErrorEof →
        (parseStringLoop allow pre.length fuel buf src dst).err = e
  | 0, _, _, _, _, _, _, _, hf => absurd hf (Nat.not_lt_zero _)
  | fuel + 1, buf, out, junk, [], src, dst, h, _ => by
    refine ⟨decodes_eof (unescape_nil allow), fun e he hne => ?_⟩
    rw [unescape_nil, Except.error.injEq] at he
    exact absurd he.symm hne
  | fuel + 1, buf, out, junk, b :: s, src, dst, h, hf => by
    rw [List.length_cons] at hf
    -- what the rest does, with `w` written
    have go : ∀ {w r buf' junk' : Bytes} {src' dst' : ℕ},
        Mid buf' src' dst' pre (out ++ w) junk' r → r.length < fuel →
        buf'.length = buf.length → unescape allow (b :: s) = emit w (unescape allow r) →
        Decodes allow buf.length pre out (b :: s)
          (parseStringLoop allow pre.length fuel buf' src' dst') ∧
          ∀ e, unescape allow (b :: s) = .error e → e ≠ .kParseErrorEof →
            (parseStringLoop allow pre.length fuel buf' src' dst').err = e := by
      intro w r buf' junk' src' dst' hm hl hlen he
      obtain ⟨h1, h2⟩ := parseStringLoop_decodes pre fuel hm hl
      rw [hlen] at h1
      exact ⟨.emit h1 he, fun e hb hne => h2 e (emit_eq_error (he ▸ hb)) hne⟩
    -- and what it does at a violation
    have fail : ∀ {e r}, r.err = e → e ≠ .kErrorNone → unescape allow (b :: s) = .error e →
        Decodes allow buf.length pre out (b :: s) r ∧ ∀ e, unescape allow (b :: s) = .error e →
          e ≠ .kParseErrorEof → r.err = e := by
      intro e r hr hne he
      refine ⟨.failed (fun p => by rw [he]; simp) (hr ▸ hne), fun e' he' _ => ?_⟩
      rw [he, Except.error.injEq] at he'
      rw [hr, he']
    unfold parseStringLoop
    dsimp only
    rw [rd_at h.at]
    by_cases hq : b = Ch.quote
    · subst hq
      rw [if_pos rfl]
      refine ⟨.ended h, fun e he => ?_⟩
      simp at he
    rw [if_neg hq]
    by_cases hc : (!allow && decide (b ≤ 0x1f)) = true
    · rw [if_pos hc]
      obtain ⟨ha, hb⟩ : allow = false ∧ b ≤ 0x1f := by simpa using hc
      subst ha
      exact fail rfl (by simp) (unescape_control hq hb)
    rw [if_neg hc]
    by_cases hb : b = Ch.bslash
    swap
    · rw [if_pos hb]
      have hp : Plain allow b := by
        refine ⟨hq, hb, ?_⟩
        cases allow
        · exact .inr (by simpa using hc)
        · exact .inl rfl
      have hm := Mid.store [b] [b] h (by simp)
      refine go hm (by omega) (h.length_eq hm ?_) (unescape_plain hp)
      simp
      omega
    subst hb
    rw [if_neg (not_not.mpr rfl)]
    rcases s with _ | ⟨c, s⟩
    · refine ⟨decodes_eof (unescape_bslash_nil allow), fun e he hne => ?_⟩
      rw [unescape_bslash_nil, Except.error.injEq] at he
      exact absurd he.symm hne
    rw [List.length_cons] at hf
    rw [rd_at_succ h.at]
    cases escape_cases allow h with
    | uni w r junk' hu hh hm hlen hle he _ =>
      rw [if_pos hu, hh]
      exact go hm (by omega) hlen he
    | badUni hu hh _ he =>
      rw [if_pos hu]
      simp only [hh, Bool.not_false, if_true]
      exact fail rfl (by simp) he
    | esc d junk' hu hd hd0 hm hlen he =>
      rw [if_neg hu, hd, if_neg hd0]
      exact go hm (by omega) hlen he
    | badEsc hu hd he =>
      rw [if_neg hu, hd, if_pos rfl]
      exact fail rfl (by simp) he

theorem decodes_parse {buf s : Bytes} {src : ℕ} (h : At buf src s) :
    Decodes allow buf.length (buf.take src) [] s (parseStringInplace allow buf src) ∧
      ∀ e, unescape allow s = .error e → e ≠ .kParseErrorEof →
        (parseStringInplace allow buf src).err = e := by
  have hpre : (buf.take src).length = src := by simpa using h.le
  have hm : Mid buf src src (buf.take src) [] [] s := by
    refine ⟨?_, by simp [hpre], by simp [hpre]⟩
    rw [List.nil_append, List.nil_append, ← h.drop, List.take_append_drop]
  have hl := h.length_add
  have := @parseStringLoop_decodes allow (buf.take src) (buf.length + 1) _ _ _ _ _ _ hm (by omega)
  rwa [hpre] at this

end common

/-! ### The two decoders -/

/-- Hex digits are plain bytes to a scanner for quotes. -/
theorem strEnd_hex4 {a b c d : UInt8} {cp : ℕ} (h : hex4 a b c d = some cp) (r : Bytes) :
    strEnd false (a :: b :: c :: d :: r) = strEnd false r := by
  unfold hex4 at h
  split at h
  · rename_i h1 h2 h3 h4
    have step : ∀ {b : UInt8} {v : ℕ}, hexDigit b = some v →
        ∀ r, strEnd false (b :: r) = strEnd false r := by
      intro b v hb r
      obtain ⟨hq, hs⟩ := hexDigit_plain hb
      rw [strEnd, if_neg hq, show (b == Ch.bslash) = false by simpa using hs]
    rw [step h1, step h2, step h3, step h4]
  · cases h

theorem strEnd_unicodeEsc {r w r' : Bytes} (h : unicodeEsc r = some (w, r')) :
    strEnd false r = strEnd false r' := by
  unfold unicodeEsc at h
  split at h
  · split at h
    · cases h
    · rename_i hcp
      rw [strEnd_hex4 hcp]
      split_ifs at h with hl hh
      · -- the second escape of a pair
        unfold lowEsc at h
        split at h
        · split_ifs at h with hxy
          obtain ⟨rfl, rfl⟩ := hxy
          split at h
          · cases h
          · rename_i hlo
            split_ifs at h with hl'
            obtain ⟨-, rfl⟩ := Prod.mk.inj (Option.some.inj h)
            exact strEnd_hex4 hlo _
        · cases h
      · obtain ⟨-, rfl⟩ := Prod.mk.inj (Option.some.inj h)
        rfl
  · cases h

/-- A text with a quote that is not escaped does not run out. -/
theorem unescape_ne_eof {allow : Bool} :
    ∀ {s : Bytes}, strEnd false s ≠ none → unescape allow s ≠ .error .kParseErrorEof := by
  intro s
  refine unescape_induction
    (P := fun s => strEnd false s ≠ none → unescape allow s ≠ .error .kParseErrorEof) allow ?_ ?_ ?_
    ?_ ?_ ?_ ?_
    ?_ ?_ s
  · intro h
    exact absurd rfl h
  · intro r _
    simp
  · rintro b r rfl hq hc _
    rw [unescape_control hq hc]
    simp
  · intro h
    exact absurd rfl h
  · intro r hr _
    rw [unescape_badUni allow hr]
    simp
  · intro r w r' hr ih h hc
    have hs : strEnd false (Ch.bslash :: Ch.u :: r) = strEnd false r := rfl
    rw [hs, strEnd_unicodeEsc hr] at h
    rw [unescape_uni allow hr] at hc
    exact ih h (emit_eq_error hc)
  · intro c r hu hc _
    rw [unescape_badEsc allow hu hc]
    simp
  · intro c d r hu hc ih h he
    rw [unescape_esc allow hc] at he
    exact ih h (emit_eq_error he)
  · intro b r hb ih h he
    have hs : strEnd false (b :: r) = strEnd false r := by
      rw [strEnd, if_neg hb.1, show (b == Ch.bslash) = false by simpa using hb.2.1]
    rw [hs] at h
    rw [unescape_plain hb] at he
    exact ih h (emit_eq_error he)

section
variable {allow : Bool} {buf : Bytes} {src i : ℕ}

/-- The string ends in the buffer. -/
theorem unescape_closed (hq : Unescaped (buf.drop src) i) :
    unescape allow (buf.drop src) ≠ .error .kParseErrorEof := by
  obtain ⟨k, hk⟩ := exists_closing hq
  refine unescape_ne_eof ?_
  rw [strEnd_closing hk]
  simp

theorem at_of_unescaped (hq : Unescaped (buf.drop src) i) : At buf src (buf.drop src) := by
  have := hq.1
  rw [List.length_drop] at this
  exact ⟨rfl, by omega⟩

/-- **The decoder by blocks and the decoder by bytes** accept the same strings, with the same
length, the same position behind the string and the same decoded bytes. -/
theorem parseStringInplace_scalar (A : Arch) (allow : Bool) (hq : Unescaped (buf.drop src) i) :
    ((parseStringInplace A allow buf src).err = .kErrorNone ↔
    (common.parseStringInplace allow buf src).err = .kErrorNone) ∧
    ((common.parseStringInplace allow buf src).err = .kErrorNone →
      (parseStringInplace A allow buf src).n = (common.parseStringInplace allow buf src).n ∧
      (parseStringInplace A allow buf src).src = (common.parseStringInplace allow buf src).src ∧
      ((parseStringInplace A allow buf src).buf.drop src).take (parseStringInplace A allow buf src).n =
        ((common.parseStringInplace allow buf src).buf.drop src).take
          (common.parseStringInplace allow buf src).n) := by
  have hat := at_of_unescaped hq
  have hv := @decodes_parse allow A _ _ _ hat
  obtain ⟨hc, hce⟩ := common.decodes_parse hat
  have hpre : (buf.take src).length = src := by simpa using hat.le
  cases hu : unescape allow (buf.drop src) with
  | error e =>
    have hne : e ≠ .kParseErrorEof := fun he => unescape_closed hq (he ▸ hu)
    have h1 := hv.error e hu hne
    have h2 := hc.error e hu hne
    exact ⟨iff_of_false h1 h2, fun h => absurd h h2⟩
  | ok p =>
    obtain ⟨body, t⟩ := p
    obtain ⟨v1, v2, v3, v4⟩ := hv.body hpre hu
    obtain ⟨c1, c2, c3, c4⟩ := hc.body hpre hu
    exact ⟨iff_of_true v1 c1, fun _ => ⟨by rw [v2, c2], by rw [v3, c3], by rw [v4, c4]⟩⟩

end

/-- `\\n"` with zeros behind it. -/
theorem parseStringInplace_scalar_escape :
    ((parseStringInplace .sse false ([92, 110, 34] ++ List.replicate 65 0) 0).err = .kErrorNone ↔
      (common.parseStringInplace false ([92, 110, 34] ++ List.replicate 65 0) 0).err = .kErrorNone) ∧
    ((common.parseStringInplace false ([92, 110, 34] ++ List.replicate 65 0) 0).err = .kErrorNone →
      (parseStringInplace .sse false ([92, 110, 34] ++ List.replicate 65 0) 0).n =
        (common.parseStringInplace false ([92, 110, 34] ++ List.replicate 65 0) 0).n ∧
      (parseStringInplace .sse false ([92, 110, 34] ++ List.replicate 65 0) 0).src =
        (common.parseStringInplace false ([92, 110, 34] ++ List.replicate 65 0) 0).src ∧
      ((parseStringInplace .sse false ([92, 110, 34] ++ List.replicate 65 0) 0).buf.drop 0).take
          (parseStringInplace .sse false ([92, 110, 34] ++ List.replicate 65 0) 0).n =
        ((common.parseStringInplace false ([92, 110, 34] ++ List.replicate 65 0) 0).buf.drop 0).take
          (common.parseStringInplace false ([92, 110, 34] ++ List.replicate 65 0) 0).n) :=
  parseStringInplace_scalar (i := 2) .sse false ⟨by decide, by decide, by decide⟩

/-! ### Which violation is told -/

/-- An escape that is well formed, and what is behind it. -/
inductive Esc : Bytes → Bytes → Prop
  | uni {r w r' : Bytes} : unicodeEsc r = some (w, r') → Esc (Ch.bslash :: Ch.u :: r) r'
  | esc {c d : UInt8} {r : Bytes} : escChar c = some d → Esc (Ch.bslash :: c :: r) r

/-- Characters that are well formed, and what is behind them. -/
inductive Chars : Bytes → Bytes → Prop
  | nil (s : Bytes) : Chars s s
  | plain {b : UInt8} {r t : Bytes} : Plain false b → Chars r t → Chars (b :: r) t
  | esc {s r t : Bytes} : Esc s r → Chars r t → Chars s t

/-- The leftmost violation is a control character. -/
def ControlFirst (s : Bytes) : Prop := ∃ b r, Chars s (b :: r) ∧ b ≤ 0x1f

/-- One escape behind the other, up to a byte that is not a backslash. -/
inductive EscRun : Bytes → Bytes → Prop
  | last {s r : Bytes} : Esc s r → rd r 0 ≠ Ch.bslash → EscRun s r
  | more {s r t : Bytes} : Esc s r → rd r 0 = Ch.bslash → EscRun r t → EscRun s t

/-- In the text `s` a block of `V` bytes is examined at the suffix `u`: the next one behind a block
of plain bytes, or behind the escapes that a block has come to. -/
inductive Examined (V : ℕ) : Bytes → Bytes → Prop
  | here (s : Bytes) : Examined V s s
  | next {s u : Bytes} : (∀ i < V, rd s i ≠ Ch.quote ∧ rd s i ≠ Ch.bslash) →
    Examined V (s.drop V) u → Examined V s u
  | escapes {a r t u : Bytes} : a.length < V → Ch.quote ∉ a → Ch.bslash ∉ a → EscRun r t →
    Examined V t u → Examined V (a ++ r) u

/-- The block at the beginning of `u` has a control character before any quote. -/
def Shows (V : ℕ) (u : Bytes) : Prop := ∃ i < V, rd u i ≤ 0x1f ∧ ∀ j < i, rd u j ≠ Ch.quote

/-- A block that is examined shows a control character, whatever is before it. -/
def Masked (V : ℕ) (s : Bytes) : Prop := ∃ u, Examined V s u ∧ Shows V u

theorem Esc.det {s r r' : Bytes} (h : Esc s r) (h' : Esc s r') : r = r' := by
  cases h with
  | uni h =>
    cases h' with
    | uni h' =>
      rw [h] at h'
      exact (Prod.mk.inj (Option.some.inj h')).2
    | esc h' =>
      rw [escChar_u] at h'
      cases h'
  | esc h =>
    cases h' with
    | uni h' =>
      rw [escChar_u] at h
      cases h
    | esc h' => rfl

theorem Esc.head {s r : Bytes} (h : Esc s r) : ∃ s', s = Ch.bslash :: s' := by
  cases h with
  | uni => exact ⟨_, rfl⟩
  | esc => exact ⟨_, rfl⟩

theorem EscRun.head {s r : Bytes} (h : EscRun s r) : ∃ s', s = Ch.bslash :: s' := by
  cases h with
  | last h _ => exact h.head
  | more h _ _ => exact h.head

theorem Esc.unescape {s r : Bytes} (h : Esc s r) :
    ∃ w, unescape false s = emit w (unescape false r) := by
  cases h with
  | uni h => exact ⟨_, unescape_uni false h⟩
  | esc h => exact ⟨_, unescape_esc false h⟩

theorem Chars.unescape {s t : Bytes} (h : Chars s t) :
    ∃ w, unescape false s = emit w (unescape false t) := by
  induction h with
  | nil s => exact ⟨[], (emit_nil _).symm⟩
  | plain hb _ ih =>
    obtain ⟨w, ih⟩ := ih
    exact ⟨_, by rw [unescape_plain hb, ih, emit_emit]⟩
  | esc he _ ih =>
    obtain ⟨w, ih⟩ := ih
    obtain ⟨v, he⟩ := he.unescape
    exact ⟨_, by rw [he, ih, emit_emit]⟩

theorem controlFirst_iff {s : Bytes} :
    ControlFirst s ↔ unescape false s = .error .kParseErrorUnEscaped := by
  constructor
  · rintro ⟨b, r, hc, hb⟩
    obtain ⟨w, hw⟩ := hc.unescape
    have hq : b ≠ Ch.quote := by
      rintro rfl
      exact absurd hb (by decide)
    rw [hw, unescape_control hq hb]
    rfl
  · refine unescape_induction
      (P := fun s => SonicJson.unescape false s = .error .kParseErrorUnEscaped → ControlFirst s)
      false
      ?_ ?_ ?_ ?_ ?_ ?_ ?_ ?_ ?_ s
    · intro h
      rw [unescape_nil] at h
      cases h
    · intro r h
      rw [unescape_quote] at h
      cases h
    · intro b r _ _ hb _
      exact ⟨b, r, .nil _, hb⟩
    · intro h
      rw [unescape_bslash_nil] at h
      cases h
    · intro r hr h
      rw [unescape_badUni false hr] at h
      cases h
    · intro r w r' hr ih h
      rw [unescape_uni false hr] at h
      obtain ⟨b, t, hc, hb⟩ := ih (emit_eq_error h)
      exact ⟨b, t, .esc (.uni hr) hc, hb⟩
    · intro c r hu hc h
      rw [unescape_badEsc false hu hc] at h
      cases h
    · intro c d r _ hc ih h
      rw [unescape_esc false hc] at h
      obtain ⟨b, t, hc', hb⟩ := ih (emit_eq_error h)
      exact ⟨b, t, .esc (.esc hc) hc', hb⟩
    · intro b r hp ih h
      rw [unescape_plain hp] at h
      obtain ⟨c, t, hc, hb⟩ := ih (emit_eq_error h)
      exact ⟨c, t, .plain hp hc, hb⟩

/-- What the mask of a block says of control characters. -/
theorem hasUnescaped_iff (A : Arch) {buf s : Bytes} {src : ℕ} (h : At buf src s) :
    (StringBlock.Find A buf src).HasUnescaped = true ↔ Shows A.VEC_LEN s := by
  have hq := getLsbD_vecMask A buf src (· == Ch.quote)
  have hu := getLsbD_vecMask A buf src fun b => decide (b ≤ 0x1f)
  simp only [rd_at_add h] at hq hu
  have hdis : ∀ i < 32, (vecMask A buf src (· == Ch.quote)).getLsbD i = true →
      (vecMask A buf src fun b => decide (b ≤ 0x1f)).getLsbD i = false := by
    intro i _ hi
    rw [hq] at hi
    rw [hu]
    simp only [Bool.and_eq_true, decide_eq_true_eq, beq_iff_eq] at hi
    rw [hi.2, Bool.and_eq_false_iff]
    exact .inr (by decide)
  have hV := A.VEC_LEN_le
  have hz := Bits.sub_one_and_eq_zero _ _ hdis
  have hle := Bits.ctz_le (vecMask A buf src (· == Ch.quote))
  unfold StringBlock.HasUnescaped StringBlock.Find
  rw [decide_eq_true_eq, ne_eq, hz]
  push Not
  constructor
  · rintro ⟨i, hi, hne⟩
    have h1 : (vecMask A buf src fun b => decide (b ≤ 0x1f)).getLsbD i = true := by simpa using hne
    rw [hu, Bool.and_eq_true, decide_eq_true_eq, decide_eq_true_eq] at h1
    refine ⟨i, h1.1, h1.2, fun j hj => ?_⟩
    have h2 := Bits.getLsbD_of_lt_ctz _ (show j < Bits.ctz (vecMask A buf src (· == Ch.quote)) by omega)
    rw [hq, decide_eq_true (by omega), Bool.true_and] at h2
    simpa using h2
  · rintro ⟨i, hi, hc, hno⟩
    have h1 : (vecMask A buf src fun b => decide (b ≤ 0x1f)).getLsbD i = true := by
      rw [hu, decide_eq_true hi, decide_eq_true hc]
      rfl
    refine ⟨i, ?_, by rw [h1]; simp⟩
    by_contra hcon
    have hne : vecMask A buf src (· == Ch.quote) ≠ 0 :=
      Bits.ne_zero_of_ctz_lt (show _ < i + 1 by omega) (by omega)
    have h2 := Bits.getLsbD_ctz hne
    rw [hq, Bool.and_eq_true, beq_iff_eq] at h2
    rcases Nat.lt_or_eq_of_le (not_lt.mp hcon) with hlt | heq
    · exact hno _ hlt h2.2
    · rw [← heq, h2.2] at hc
      exact absurd hc (by decide)

/-- The same from escapes on. -/
def MaskedRun (V : ℕ) (s : Bytes) : Prop := ∃ t, EscRun s t ∧ Masked V t

section
variable {V : ℕ} {a r s : Bytes}

theorem masked_plain (h : ∀ i < V, rd s i ≠ Ch.quote ∧ rd s i ≠ Ch.bslash) (hno : ¬ Shows V s) :
    Masked V s ↔ Masked V (s.drop V) := by
  constructor
  · rintro ⟨u, hu, hs⟩
    cases hu with
    | here => exact absurd hs hno
    | next _ hu => exact ⟨u, hu, hs⟩
    | @escapes a r t u ha _ _ hr _ =>
      obtain ⟨r, rfl⟩ := hr.head
      have := (h a.length ha).2
      rw [← Nat.add_zero a.length, rd_append_right] at this
      exact absurd rfl this
  · rintro ⟨u, hu, hs⟩
    exact ⟨u, .next h hu, hs⟩

theorem masked_escape (ha : a.length < V) (hq : Ch.quote ∉ a) (hb : Ch.bslash ∉ a)
    (hno : ¬ Shows V (a ++ Ch.bslash :: r)) :
    Masked V (a ++ Ch.bslash :: r) ↔ MaskedRun V (Ch.bslash :: r) := by
  constructor
  · rintro ⟨u, hu, hs⟩
    generalize hs' : a ++ Ch.bslash :: r = s at hu hno
    cases hu with
    | here => exact absurd hs hno
    | next h _ =>
      subst hs'
      have := (h a.length ha).2
      rw [← Nat.add_zero a.length, rd_append_right] at this
      exact absurd rfl this
    | @escapes a' r' t _ _ _ hb' hr hu =>
      obtain ⟨r'', rfl⟩ := hr.head
      have h1 : a = a' := by
        have h2 : ∀ {x y : Bytes}, Ch.bslash ∉ x →
            (x ++ Ch.bslash :: y).takeWhile (· != Ch.bslash) = x := by
          intro x y hx
          rw [List.takeWhile_append_of_pos fun c hc => by
            rw [bne_iff_ne]
            rintro rfl
            exact hx hc]
          simp
        rw [← h2 (y := r) hb, hs', h2 hb']
      subst h1
      have h3 := List.append_cancel_left hs'
      rw [h3]
      exact ⟨t, hr, u, hu, hs⟩
  · rintro ⟨t, hr, u, hu, hs⟩
    exact ⟨u, .escapes ha hq hb hr hu, hs⟩

theorem maskedRun_esc (h : Esc s r) :
    MaskedRun V s ↔ if rd r 0 = Ch.bslash then MaskedRun V r else Masked V r := by
  split
  · rename_i hr
    constructor
    · rintro ⟨t, ht, hm⟩
      cases ht with
      | last h' hr' =>
        obtain rfl := h.det h'
        exact absurd hr hr'
      | more h' _ ht =>
        obtain rfl := h.det h'
        exact ⟨t, ht, hm⟩
    · rintro ⟨t, ht, hm⟩
      exact ⟨t, .more h hr ht, hm⟩
  · rename_i hr
    constructor
    · rintro ⟨t, ht, hm⟩
      cases ht with
      | last h' _ =>
        obtain rfl := h.det h'
        exact hm
      | more h' hr' _ =>
        obtain rfl := h.det h'
        exact absurd hr' hr
    · exact fun hm => ⟨r, .last h hr, hm⟩

theorem not_maskedRun (h : ∀ r, ¬ Esc s r) : ¬ MaskedRun V s := by
  rintro ⟨t, ht, -⟩
  cases ht with
  | last h' _ => exact h _ h'
  | more h' _ _ => exact h _ h'

end

/-- The control character is told if it masks the violation, and else the violation. -/
def Tells (masked : Prop) (e : SonicError) (r : StrResult) : Prop :=
  (masked → r.err = .kParseErrorUnEscaped) ∧ (¬ masked → r.err = e)

theorem Tells.congr {m m' : Prop} {e : SonicError} {r : StrResult} (h : Tells m e r) (hm : m' ↔ m) :
    Tells m' e r :=
  ⟨fun h' => h.1 (hm.mp h'), fun h' => h.2 fun h'' => h' (hm.mpr h'')⟩

theorem not_shows {A : Arch} {buf s : Bytes} {src : ℕ} (h : At buf src s)
    (hn : (!false && (StringBlock.Find A buf src).HasUnescaped) = false) : ¬ Shows A.VEC_LEN s := by
  rw [← hasUnescaped_iff A h]
  simpa using hn

/-- The decoder by blocks, from each of its labels, on a text that is rejected. -/
theorem block_tells (A : Arch) (pre : Bytes) {e : SonicError} (hne : e ≠ .kParseErrorEof) : ∀ fuel : ℕ,
    (∀ {buf out s : Bytes} {src dst : ℕ}, Mid buf src dst pre out [] s → 2 * s.length + 2 ≤ fuel →
    unescape false s = .error e →
      Tells (Masked A.VEC_LEN s) e (find A false pre.length fuel buf src)) ∧
    (∀ {buf out junk s : Bytes} {src dst : ℕ}, Mid buf src dst pre out junk (Ch.bslash :: s) →
    2 * s.length + 3 ≤ fuel →
      unescape false (Ch.bslash :: s) = .error e →
      Tells (MaskedRun A.VEC_LEN (Ch.bslash :: s)) e (cont A false pre.length fuel buf src dst)) ∧
    (∀ {buf out junk s : Bytes} {src dst : ℕ}, Mid buf src dst pre out junk s →
    2 * s.length + 2 ≤ fuel → unescape false s = .error e →
      Tells (Masked A.VEC_LEN s) e (find_and_move A false pre.length fuel buf src dst)) := by
  intro fuel
  have plain_not : ∀ {a : Bytes}, (∀ x ∈ a, Plain false x) → Ch.quote ∉ a ∧ Ch.bslash ∉ a :=
    fun ha => ⟨fun h => (ha _ h).1 rfl, fun h => (ha _ h).2.1 rfl⟩
  have after : ∀ {a r : Bytes}, (∀ x ∈ a, Plain false x) → unescape false (a ++ r) = .error e →
      unescape false r = .error e := by
    intro a r ha h
    rw [unescape_plain_append ha] at h
    exact emit_eq_error h
  have block : ∀ {s : Bytes}, (∀ i < A.VEC_LEN, rd s i ≠ Ch.quote ∧ rd s i ≠ Ch.bslash ∧
      (false = true ∨ ¬ rd s i ≤ 0x1f)) →
      unescape false s = .error e → A.VEC_LEN ≤ s.length ∧
        unescape false (s.drop A.VEC_LEN) = .error e := by
    intro s h he
    have hl : A.VEC_LEN ≤ s.length := by
      by_contra hc
      rw [unescape_short (not_le.mp hc) h, Except.error.injEq] at he
      exact hne he.symm
    refine ⟨hl, after (split_block hl h) ?_⟩
    rw [List.take_append_drop]
    exact he
  induction fuel with
  | zero => exact ⟨fun _ h => by omega, fun _ h => by omega, fun _ h => by omega⟩
  | succ fuel ih =>
    obtain ⟨ihf, ihc, ihm⟩ := ih
    have hV := A.VEC_LEN_pos
    refine ⟨fun {buf out s src dst} h hf he => ?_, fun {buf out junk s src dst} h hf he => ?_,
      fun {buf out junk s src dst} h hf he => ?_⟩
    · -- `find`
      have hsrc : src = dst := by simpa [h.dst_eq] using h.src_eq
      subst hsrc
      unfold find
      cases block_cases A false h.at with
      | quote a r hs ha =>
        subst hs
        have := after ha he
        rw [unescape_quote] at this
        cases this
      | unescaped h1 _ h3 _ =>
        simp only [h1, h3, Bool.false_eq_true, if_false, Bool.not_false, Bool.and_self, if_true]
        exact ⟨fun _ => rfl, fun hn => absurd ⟨s, .here s, (hasUnescaped_iff A h.at).mp h3⟩ hn⟩
      | neither h1 h2 h3 h4 =>
        have h2' : (StringBlock.Find A buf src).HasUnescaped = false := by simpa using h2
        simp only [h1, h2', h3, Bool.false_eq_true, if_false, Bool.and_false, Bool.not_false, if_true]
        obtain ⟨hl, he'⟩ := block h4 he
        have hm :=
          Mid.advance (show Mid buf src src pre out [] (s.take A.VEC_LEN ++ s.drop A.VEC_LEN) by
          rwa [List.take_append_drop])
        rw [List.length_take, Nat.min_eq_left hl] at hm
        refine (ihf hm ?_ he').congr (masked_plain (fun i hi => ⟨(h4 i hi).1, (h4 i hi).2.1⟩)
          (not_shows h.at h2))
        rw [List.length_drop]
        omega
      | bslash a r hs ha hl h1 h2 h3 h4 =>
        subst hs
        simp only [h1, h2, h3, h4, Bool.false_eq_true, if_false, Bool.not_true]
        obtain ⟨hq, hb⟩ := plain_not ha
        refine (ihc h.advance ?_ (after ha he)).congr (masked_escape hl hq hb (not_shows h.at h2))
        simp at hf
        omega
    · -- `cont`
      unfold cont
      rcases s with _ | ⟨c, s⟩
      · rw [unescape_bslash_nil, Except.error.injEq] at he
        exact absurd he.symm hne
      have hc : rd buf (src + 1) = c := rd_at_succ h.at
      rw [List.length_cons] at hf
      simp only [hc]
      -- after an escape either label goes on
      have step : ∀ {buf' out' junk' r : Bytes} {src' dst' : ℕ},
          Mid buf' src' dst' pre out' junk' r → r.length ≤ s.length →
          Esc (Ch.bslash :: c :: s) r →
          Tells (MaskedRun A.VEC_LEN (Ch.bslash :: c :: s)) e
            (if rd buf' src' = Ch.bslash then cont A false pre.length fuel buf' src' dst'
              else find_and_move A false pre.length fuel buf' src' dst') := by
        intro buf' out' junk' r src' dst' hm hl hesc
        obtain ⟨w, hw⟩ := hesc.unescape
        have he' : unescape false r = .error e := emit_eq_error (hw ▸ he)
        have hrd : rd buf' src' = rd r 0 := by rw [← Nat.add_zero src', rd_at_add hm.at]
        refine Tells.congr ?_ (maskedRun_esc hesc)
        rw [hrd]
        split
        · rename_i hb
          rcases r with _ | ⟨b, r⟩
          · exact absurd (show (0 : UInt8) = Ch.bslash by simpa using hb) (by decide)
          · obtain rfl : b = Ch.bslash := hb
            rw [List.length_cons] at hl
            exact ihc hm (by omega) he'
        · exact ihm hm (by omega) he'
      cases escape_cases false h with
      | uni w r junk' hu hh hm _ hle _ hue =>
        rw [if_pos hu, hh]
        simp only [Bool.not_true, Bool.false_eq_true, if_false]
        subst hu
        exact step hm hle (.uni hue)
      | badUni hu hh hue he' =>
        rw [if_pos hu]
        simp only [hh, Bool.not_false, if_true]
        rw [he', Except.error.injEq] at he
        subst hu
        refine ⟨fun hm => absurd hm (not_maskedRun fun r hr => ?_), fun _ => he⟩
        cases hr with
        | uni h' =>
          rw [hue] at h'
          cases h'
        | esc h' =>
          rw [escChar_u] at h'
          cases h'
      | esc d junk' hu hd hd0 hm _ _ =>
        rw [if_neg hu, hd, if_neg hd0]
        refine step hm le_rfl (.esc (d := d) ?_)
        rw [kEscapedMap_eq] at hd
        cases hx : escChar c with
        | none =>
          rw [hx] at hd
          exact absurd hd.symm hd0
        | some x =>
          rw [hx] at hd
          exact congrArg some hd
      | badEsc hu hd he' =>
        rw [if_neg hu, hd, if_pos rfl]
        rw [he', Except.error.injEq] at he
        refine ⟨fun hm => absurd hm (not_maskedRun fun r hr => ?_), fun _ => he⟩
        cases hr with
        | uni h' => exact hu rfl
        | esc h' =>
          rw [kEscapedMap_eq, h'] at hd
          exact (escChar_ge h').2.2 hd
    · -- `find_and_move`
      unfold find_and_move
      have hV32 := A.VEC_LEN_le
      cases block_cases A false h.at with
      | quote a r hs ha =>
        subst hs
        have := after ha he
        rw [unescape_quote] at this
        cases this
      | unescaped h1 _ h3 _ =>
        simp only [h1, h3, Bool.false_eq_true, if_false, Bool.not_false, Bool.and_self, if_true]
        exact ⟨fun _ => rfl, fun hn => absurd ⟨s, .here s, (hasUnescaped_iff A h.at).mp h3⟩ hn⟩
      | neither h1 h2 h3 h4 =>
        have h2' : (StringBlock.Find A buf src).HasUnescaped = false := by simpa using h2
        simp only [h1, h2', h3, Bool.false_eq_true, if_false, Bool.and_false, Bool.not_false, if_true]
        obtain ⟨hl, he'⟩ := block h4 he
        have htl : (s.take A.VEC_LEN).length = A.VEC_LEN := by rw [List.length_take, Nat.min_eq_left hl]
        have hm := Mid.store (s.take A.VEC_LEN) (s.take A.VEC_LEN)
          (show Mid buf src dst pre out junk (s.take A.VEC_LEN ++ s.drop A.VEC_LEN) by
            rwa [List.take_append_drop]) (by omega)
        rw [htl] at hm
        rw [h.at.drop]
        refine (ihm hm ?_ he').congr (masked_plain (fun i hi => ⟨(h4 i hi).1, (h4 i hi).2.1⟩)
          (not_shows h.at h2))
        rw [List.length_drop]
        omega
      | bslash a r hs ha hl h1 h2 h3 h4 =>
        subst hs
        obtain ⟨hq, hb⟩ := plain_not ha
        obtain ⟨buf', junk', hcopy, hm⟩ := copyUntil_eq 32 a h hb (by omega)
        simp only [h1, h2, h3, hcopy, Bool.false_eq_true, if_false, Bool.not_true]
        refine (ihc hm ?_ (after ha he)).congr (masked_escape hl hq hb (not_shows h.at h2))
        simp at hf
        omega

/-- **The error codes** are that of the leftmost violation with each of the three decoders if and
only if that violation is a control character, or no block that is examined shows one. -/
theorem parseStringInplace_code {buf : Bytes} {src i : ℕ} {e : SonicError}
    (hq : Unescaped (buf.drop src) i) (hrej : (common.parseStringInplace false buf src).err = e)
    (he : e ≠ .kErrorNone) :
    (unescape false (buf.drop src) = .error e ∧ ∀ A, (parseStringInplace A false buf src).err = e) ↔
      ControlFirst (buf.drop src) ∨ ∀ A : Arch, ¬ Masked A.VEC_LEN (buf.drop src) := by
  have hat := at_of_unescaped hq
  have hpre : (buf.take src).length = src := by simpa using hat.le
  obtain ⟨hc, hce⟩ := common.decodes_parse hat
  obtain ⟨e', hu⟩ : ∃ e', unescape false (buf.drop src) = .error e' := by
    cases hu : unescape false (buf.drop src) with
    | error e' => exact ⟨e', rfl⟩
    | ok p => exact absurd (hrej.symm.trans (hc.ok p.1 p.2 hu).1) he
  have hne : e' ≠ .kParseErrorEof := fun h => unescape_closed hq (h ▸ hu)
  obtain rfl : e' = e := (hce e' hu hne).symm.trans hrej
  have tells : ∀ A : Arch,
      Tells (Masked A.VEC_LEN (buf.drop src)) e' (parseStringInplace A false buf src) := by
    intro A
    have hm : Mid buf src src (buf.take src) [] [] (buf.drop src) := by
      refine ⟨?_, by simp [hpre], by simp [hpre]⟩
      rw [List.nil_append, List.nil_append, List.take_append_drop]
    have hl := hat.length_add
    have := (block_tells A (buf.take src) hne (2 * buf.length + 2)).1 hm (by omega) hu
    rwa [hpre] at this
  rw [controlFirst_iff, hu]
  constructor
  · rintro ⟨-, hall⟩
    by_cases hctl : e' = .kParseErrorUnEscaped
    · exact .inl (by rw [hctl])
    · exact .inr fun A hm => hctl ((hall A).symm.trans ((tells A).1 hm))
  · intro h
    refine ⟨rfl, fun A => ?_⟩
    rcases h with h | h
    · rw [Except.error.injEq] at h
      subst h
      by_cases hm : Masked A.VEC_LEN (buf.drop src)
      · exact (tells A).1 hm
      · exact (tells A).2 hm
    · exact (tells A).2 (h A)

/-- `a`, and a control character behind it. -/
theorem parseStringInplace_code_control :
    (unescape false (([97, 1, 34] ++ List.replicate 65 0 : Bytes).drop 0) =
    .error .kParseErrorUnEscaped ∧
      ∀ A, (parseStringInplace A false ([97, 1, 34] ++ List.replicate 65 0) 0).err =
        .kParseErrorUnEscaped) ↔
    ControlFirst (([97, 1, 34] ++ List.replicate 65 0 : Bytes).drop 0) ∨
      ∀ A : Arch, ¬ Masked A.VEC_LEN (([97, 1, 34] ++ List.replicate 65 0 : Bytes).drop 0) :=
  parseStringInplace_code (i := 2) ⟨by decide, by decide, by decide⟩ (by decide) (by decide)

/-- `\q`, and a control character behind it: the decoders tell different violations. -/
theorem parseStringInplace_masked :
    (common.parseStringInplace false ([92, 113, 1, 34] ++ List.replicate 65 0) 0).err =
    .kParseErrorEscapedFormat ∧
      (parseStringInplace .sse false ([92, 113, 1, 34] ++ List.replicate 65 0) 0).err =
        .kParseErrorUnEscaped ∧
      (parseStringInplace .avx2 false ([92, 113, 1, 34] ++ List.replicate 65 0) 0).err =
        .kParseErrorUnEscaped := by
  decide

end SonicJson
