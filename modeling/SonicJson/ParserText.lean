/-
# What the parser reads

One lemma for each operation of the parser, on a buffer that holds what is left
of the text (`s`) and the padding (`pad`) after it. A token never reaches into
the padding: `Sentinel` is what the padding begins with, and the bytes of a
token that would cross into it stop there.
-/
import SonicJson.NumberPrefix
import SonicJson.Parser

namespace SonicJson

open Cursor

/-- What is written behind the text before it is parsed. -/
def Sentinel (pad : Bytes) : Prop := ∃ q, pad = Ch.x :: Ch.quote :: Ch.x :: q

/-! ### Texts and padding -/

section
variable {pad s t u r : Bytes}

theorem append_dropWhile {b : UInt8} (h : s.dropWhile IsSpace = b :: r) (pad : Bytes) :
    (s ++ pad).dropWhile IsSpace = b :: (r ++ pad) := by
  rw [List.dropWhile_append, h]
  rfl

theorem append_dropWhile_nil (h : s.dropWhile IsSpace = []) (pad : Bytes) :
    (s ++ pad).dropWhile IsSpace = pad.dropWhile IsSpace := by
  rw [List.dropWhile_append, h]
  rfl

theorem Sentinel.dropWhile (h : Sentinel pad) : ∃ r, pad.dropWhile IsSpace = Ch.x :: r := by
  obtain ⟨q, rfl⟩ := h
  exact ⟨_, by rw [List.dropWhile_cons, if_neg (by decide)]⟩

/-- Bytes before the padding without an `x` are all of the text. -/
theorem Sentinel.split (h : Sentinel pad) (he : u ++ r = s ++ pad) (hu : Ch.x ∉ u) :
    ∃ t, s = u ++ t ∧ r = t ++ pad := by
  obtain ⟨q, rfl⟩ := h
  obtain ⟨t, rfl⟩ := exists_of_append_x he hu
  rw [← List.append_assoc] at he
  exact ⟨t, (List.append_cancel_right he).symm, rfl⟩

theorem numTok_no_x {tok : Bytes} (h : NumTok tok) : Ch.x ∉ tok := by
  intro hx
  exact (h.bytes _ hx).ne Ch.x (by decide) ⟨by decide, by decide, by decide, by decide, by decide⟩ rfl

end

namespace Parser

variable {σ : Type*} {E : Env σ} {p : Parser σ} {pad s t u : Bytes}

@[simp] theorem SkipSpace_depth : p.SkipSpace.depth = p.depth := rfl

@[simp] theorem SkipSpace_sax : p.SkipSpace.sax = p.sax := rfl

@[simp] theorem SkipSpace_err : p.SkipSpace.err_ = p.err_ := rfl

@[simp] theorem SkipSpace_len : p.SkipSpace.len_ = p.len_ := rfl

@[simp] theorem SkipSpace_buf : p.SkipSpace.json_buf_ = p.json_buf_ := rfl

@[simp] theorem setDepth_depth (ds : List ℕ) : (p.setDepth ds).depth = ds := rfl

@[simp] theorem call_depth (f : σ → Bool × σ) : (p.call f).2.depth = p.depth := rfl

/-- No error so far, and `s` is what is left of the buffer. -/
structure Reads (p : Parser σ) (s : Bytes) : Prop where
  at' : At p.json_buf_ p.pos_ s
  valid : p.scan.Valid p.json_buf_ p.pos_
  err : p.err_ = .kErrorNone

/-- No error so far, and `s` is what is left of the text, with `pad` behind it. -/
structure OnText (p : Parser σ) (pad s : Bytes) : Prop extends Reads p (s ++ pad) where
  length : p.json_buf_.length = p.len_ + pad.length

/-- The byte `b` has just been read. -/
structure Got (p : Parser σ) (pad : Bytes) (b : UInt8) (t : Bytes) : Prop extends OnText p pad t where
  c : p.c = b
  byte : At p.json_buf_ (p.pos_ - 1) (b :: (t ++ pad))

namespace Reads

theorem SkipSpace {b : UInt8} (h : Reads p s) (hs : s.dropWhile IsSpace = b :: t) :
    Reads p.SkipSpace t ∧ p.SkipSpace.c = b ∧ At p.json_buf_ (p.SkipSpace.pos_ - 1) (b :: t) := by
  obtain ⟨q, k', hk, ht, hv⟩ := skip_space_text h.valid h.at' hs
  refine ⟨⟨?_, ?_, h.err⟩, ?_, ?_⟩ <;> simp only [Parser.SkipSpace, hk]
  exacts [ht.succ, hv, ht]

/-- Where the bytes before the position are overwritten the rest is read all the same. -/
theorem rewrite {buf : Bytes} (h : Reads p s) (hs : t <:+ s) (hl : buf.length = p.json_buf_.length)
    (ht : At buf (buf.length - t.length) t) :
    Reads { p with json_buf_ := buf, pos_ := buf.length - t.length, err_ := .kErrorNone } t := by
  have h1 := h.at'.suffix hs
  rw [← hl] at h1
  have h2 := h.at'.length_add
  have h3 := hs.length_le
  refine ⟨ht, (h.valid.mono ?_).congr fun i hi => ?_, rfl⟩
  · simp only
    omega
  · obtain ⟨k, rfl⟩ := Nat.exists_eq_add_of_le hi
    rw [rd_at_add ht, rd_at_add h1]

theorem move {q : ℕ} (h : Reads p s) (hq : p.pos_ ≤ q) (ht : At p.json_buf_ q t) :
    Reads { p with pos_ := q } t :=
  ⟨ht, h.valid.mono hq, h.err⟩

theorem call (h : Reads p s) (f : σ → Bool × σ) : Reads (p.call f).2 s := ⟨h.at', h.valid, h.err⟩

end Reads

/-- The buffer from `q` on: what is left of the text, and the padding. -/
structure Buf (p : Parser σ) (q : ℕ) (pad s : Bytes) : Prop where
  at' : At p.json_buf_ q (s ++ pad)
  length : p.json_buf_.length = p.len_ + pad.length

theorem Buf.left {q : ℕ} (h : Buf p q pad s) : Left p.json_buf_ p.len_ q s := by
  have h1 := h.at'.length_add
  have h2 := h.length
  simp only [List.length_append] at h1
  have hle : p.len_ ≤ p.json_buf_.length := by omega
  refine ⟨⟨?_, ?_⟩, hle⟩
  · rw [List.drop_take, h.at'.drop, show p.len_ - q = s.length by omega, List.take_left]
  · simp only [List.length_take]
    omega

namespace OnText

theorem buf (h : OnText p pad s) : Buf p p.pos_ pad s := ⟨h.at', h.length⟩

theorem SkipSpace {b : UInt8} (h : OnText p pad s) (hs : s.dropWhile IsSpace = b :: t) :
    Got p.SkipSpace pad b t := by
  obtain ⟨h1, h2, h3⟩ := h.toReads.SkipSpace (append_dropWhile hs pad)
  exact ⟨⟨h1, h.length⟩, h2, h3⟩

theorem ws {b : UInt8} (h : OnText p pad s) (hs : Ws s (b :: t)) (hb : IsSpace b = false) :
    Got p.SkipSpace pad b t :=
  h.SkipSpace (hs.dropWhile_eq hb)

/-- A byte that was read is one of the text, or the padding's. -/
theorem SkipSpace_inv {b : UInt8} (h : OnText p pad s) (hpad : Sentinel pad)
    (hb : p.SkipSpace.c = b) (hx : b ≠ Ch.x) :
    ∃ t, Ws s (b :: t) ∧ Got p.SkipSpace pad b t := by
  cases hs : s.dropWhile IsSpace with
  | nil =>
    obtain ⟨r, hr⟩ := hpad.dropWhile
    obtain ⟨-, h1, -⟩ := h.toReads.SkipSpace ((append_dropWhile_nil hs pad).trans hr)
    exact absurd (hb.symm.trans h1) hx
  | cons c t =>
    have h1 := h.SkipSpace hs
    obtain rfl : c = b := h1.c.symm.trans hb
    exact ⟨t, hs ▸ ws_dropWhile s, h1⟩

theorem call (h : OnText p pad s) (f : σ → Bool × σ) :
    OnText (p.call f).2 pad s := ⟨h.toReads.call f, h.length⟩

theorem setDepth (h : OnText p pad s) (ds : List ℕ) : OnText (p.setDepth ds) pad s :=
  ⟨⟨h.at', h.valid, h.err⟩, h.length⟩

theorem move {q : ℕ} (h : OnText p pad s) (hq : p.pos_ ≤ q) (ht : At p.json_buf_ q (t ++ pad)) :
    OnText { p with pos_ := q } pad t := ⟨h.toReads.move hq ht, h.length⟩

end OnText

namespace Got

variable {b : UInt8}

theorem buf (h : Got p pad b t) : Buf p (p.pos_ - 1) pad (b :: t) := ⟨h.byte, h.length⟩

theorem setDepth (h : Got p pad b t) (ds : List ℕ) : Got (p.setDepth ds) pad b t :=
  ⟨h.toOnText.setDepth ds, h.c, h.byte⟩

theorem pos (h : Got p pad b t) : p.pos_ - 1 + 1 = p.pos_ := h.byte.succ.unique h.at'

end Got

/-- What is left after more of the text. -/
theorem OnText.suffix (h : OnText p pad s) (hs : t <:+ s) :
    At p.json_buf_ (p.len_ - t.length) (t ++ pad) := by
  obtain ⟨a, rfl⟩ := hs
  have h1 := h.buf.left.length_add
  have h2 := h.at'
  rw [List.append_assoc] at h2
  simp only [List.length_append] at h1
  rw [show p.len_ - t.length = p.pos_ + a.length by omega]
  exact h2.append

/-! ### Strings -/

theorem suffix_of_unescape {allow : Bool} {s k t : Bytes} (h : unescape allow s = .ok (k, t)) :
    t <:+ s := by
  obtain ⟨u, rfl, -⟩ := unescape_ok_text h
  exact ⟨u ++ [Ch.quote], by simp⟩

/-- A string of the text is handed over decoded. -/
theorem OnText.string {k : Bytes} (h : OnText p pad s)
    (hk : unescape E.parseFlags.kParseAllowUnescapedControlChars s = .ok (k, t)) :
    ∃ p', p.parseStringHelper E = (k, p') ∧ OnText p' pad t ∧ p'.depth = p.depth ∧ p'.sax = p.sax := by
  have hk' := unescape_append hk pad
  obtain ⟨buf', h1, h2, h3, h4, -⟩ := parseStringInplace_ok E.A h.at' hk'
  have hr := h.toReads.rewrite (suffix_of_unescape hk') h2 (h2 ▸ h3)
  rw [← h2] at h1
  refine ⟨{ p with
    json_buf_ := buf'
    pos_ := buf'.length - (t ++ pad).length
    err_ := .kErrorNone }, ?_, ⟨hr, ?_⟩,
    rfl, rfl⟩
  · simp only [parseStringHelper, h1, h4]
  · exact h2.trans h.length

/-- A string of the text `s` that is still open at its end: only the quote of the sentinel closes it. -/
def OpenString (allow : Bool) (s k : Bytes) : Prop :=
  unescape allow (s ++ [Ch.x, Ch.quote]) = .ok (k, [])

/-- A string that is open at the end of the text is handed over with the `x` of the padding. -/
theorem OnText.string_over {k : Bytes} (h : OnText p pad s) (hpad : Sentinel pad)
    (hk : OpenString E.parseFlags.kParseAllowUnescapedControlChars s k) :
    ∃ p' q, p.parseStringHelper E = (k, p') ∧ pad = Ch.x :: Ch.quote :: Ch.x :: q ∧
      Reads p' (Ch.x :: q) ∧
      p'.len_ < p'.pos_ ∧ p'.depth = p.depth ∧ p'.sax = p.sax := by
  obtain ⟨q, rfl⟩ := hpad
  have hk' := unescape_append hk (Ch.x :: q)
  rw [List.append_assoc] at hk'
  obtain ⟨buf', h1, h2, h3, h4, -⟩ := parseStringInplace_ok E.A h.at' hk'
  have hr := h.toReads.rewrite (suffix_of_unescape hk') h2 (h2 ▸ h3)
  have hl := h.length
  rw [← h2] at h1
  refine ⟨{ p with
    json_buf_ := buf'
    pos_ := buf'.length - (Ch.x :: q).length
    err_ := .kErrorNone }, q, ?_, rfl, hr, ?_,
    rfl, rfl⟩
  · simp only [parseStringHelper, h1, h4, List.nil_append]
  · simp only [List.length_cons] at hl ⊢
    omega

/-- A scanned string is one of the text, or it is open at its end. -/
theorem OnText.string_cases (h : OnText p pad s) (hpad : Sentinel pad)
    (herr : (p.parseStringHelper E).2.err_ = .kErrorNone) :
    (∃ k t, unescape E.parseFlags.kParseAllowUnescapedControlChars s = .ok (k, t)) ∨
      ∃ k, OpenString E.parseFlags.kParseAllowUnescapedControlChars s k := by
  obtain ⟨q, rfl⟩ := hpad
  unfold parseStringHelper at herr
  generalize E.parseFlags.kParseAllowUnescapedControlChars = allow at *
  have hS := unescape_sentinel allow (s := s ++ (Ch.x :: Ch.quote :: Ch.x :: q)) rfl
  cases hu : unescape allow (s ++ (Ch.x :: Ch.quote :: Ch.x :: q)) with
  | error e =>
    have := @parseStringInplace_error allow E.A _ _ _ e h.at' hu (fun he => hS (he ▸ hu))
    exact absurd herr this
  | ok r =>
    obtain ⟨k, T⟩ := r
    rcases unescape_before hu s rfl with ⟨t, ht, -⟩ | ⟨-, ht⟩
    · exact .inl ⟨k, t, ht⟩
    · exact .inr ⟨k, ht⟩

/-- A scanned string is one of the text, or it ends at the quote of the padding. -/
theorem OnText.string_inv (h : OnText p pad s) (hpad : Sentinel pad)
    (herr : (p.parseStringHelper E).2.err_ = .kErrorNone) :
    (∃ k t, unescape E.parseFlags.kParseAllowUnescapedControlChars s = .ok (k, t)) ∨
      ∃ q, Reads (p.parseStringHelper E).2 (Ch.x :: q) ∧
        (p.parseStringHelper E).2.len_ < (p.parseStringHelper E).2.pos_ := by
  refine (h.string_cases hpad herr).imp_right fun ⟨k, hk⟩ => ?_
  obtain ⟨p', q, e1, -, e2, e3, -⟩ := h.string_over hpad hk
  rw [e1]
  exact ⟨q, e2, e3⟩

/-! ### Literals -/

theorem Buf.eqBytes {lit : Bytes} {q : ℕ} (h : Buf p q pad (lit ++ t)) (hn : lit.length = 4) :
    EqBytes4 p.json_buf_ q lit = true := by
  rw [EqBytes4, slice, h.at'.drop, Nat.add_sub_cancel_left, ← hn, List.append_assoc, List.take_left]
  exact beq_self_eq_true lit

/-- Where the buffer holds a literal the text does. -/
theorem Buf.eqBytes_inv {lit : Bytes} {q : ℕ} (h : Buf p q pad s) (hpad : Sentinel pad)
    (he : EqBytes4 p.json_buf_ q lit = true) (hx : Ch.x ∉ lit) : ∃ t, s = lit ++ t := by
  have he := beq_iff_eq.mp he
  rw [slice, h.at'.drop, Nat.add_sub_cancel_left] at he
  have h1 := List.take_append_drop 4 (s ++ pad)
  rw [he] at h1
  obtain ⟨t, rfl, -⟩ := hpad.split h1 hx
  exact ⟨t, rfl⟩

/-! ### Numbers -/

/-- A number token of the text is what it is alone, unless the slow conversion, which counts in
`int`, is come to with it in a text that is too long. -/
theorem Buf.number {tok : Bytes} {q : ℕ} (h : Buf p q pad (tok ++ t)) (hpad : Sentinel pad)
    (hF : E.F.Local)
    (hsz : (tok ++ t).length < 2 ^ 31 ∨ Fast E.F E.parseFlags tok)
    (hflags : E.parseFlags.kParseOverflowNumAsNumStr = false) (htok : NumTok tok) (ht : NumEnd t) :
    (SonicJson.parseNumber E.F E.parseFlags p.json_buf_ p.len_ (q + 1)).Shift q
    (numRes E.F E.parseFlags tok) := by
  have hstop : NumEnd (t ++ pad) := by
    cases t with
    | nil =>
      obtain ⟨q, rfl⟩ := hpad
      exact ⟨by decide, by decide, by decide⟩
    | cons b t => exact ht
  have hin : InText p.json_buf_ q tok (t ++ pad) := ⟨by simpa using h.at', hstop⟩
  rcases hsz with hlen | hfast
  · rw [List.length_append] at hlen
    refine parseNumber_shift hin hflags htok ?_
    rw [SlowSame, h.left.slice_eq, hF tok t hlen htok ht, slice, List.drop_zero, Nat.sub_zero,
      List.take_length]
  · exact parseNumber_fast hin hflags htok hfast

/-- What is scanned as a number is a number token of the text. -/
theorem Buf.number_inv {q : ℕ} (h : Buf p q pad s) (hpad : Sentinel pad)
    (hflags : E.parseFlags.kParseOverflowNumAsNumStr = false)
    (hok : (SonicJson.parseNumber E.F E.parseFlags p.json_buf_ p.len_ (q + 1)).err = .kErrorNone) :
    ∃ tok t, s = tok ++ t ∧ NumTok tok ∧
      (SonicJson.parseNumber E.F E.parseFlags p.json_buf_ p.len_ (q + 1)).i = q + tok.length := by
  obtain ⟨tok, r, h1, h2, h3⟩ := parseNumber_sound hflags h.at' (.inl hok)
  obtain ⟨t, rfl, -⟩ := hpad.split h1.symm (numTok_no_x h2.numTok)
  exact ⟨tok, t, rfl, h2.numTok, h3⟩

end Parser

end SonicJson
