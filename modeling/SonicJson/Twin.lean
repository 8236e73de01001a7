/-
# Two parsers on one text

Two parsers with the same text in front of them, that may differ in what is behind
the sentinel and in the spaces they remember: every step of the one is a step of the
other, with the same handler in the same state, the same position and the same error.
So the calls of `Parse` return the same.
-/
import SonicJson.Document

namespace SonicJson

open Cursor Machine

namespace Parser

variable {σ : Type*} {E : Env σ} {p p' : Parser σ} {pad pad' r s t : Bytes} {b : UInt8}
    {lbl cont : Label}

/-- What two parsers have in common beside the text. -/
structure Same (p p' : Parser σ) : Prop where
  len : p'.len_ = p.len_
  pos : p'.pos_ = p.pos_
  err : p'.err_ = p.err_
  depth : p'.depth = p.depth
  c : p'.c = p.c
  sax : p'.sax = p.sax

/-- Both have `s` left, with paddings of one length behind it. -/
structure Both (pad pad' s : Bytes) (p p' : Parser σ) : Prop where
  same : Same p p'
  left : OnText p pad s
  right : OnText p' pad' s

/-- Both have just read `b`. -/
structure BothGot (pad pad' : Bytes) (b : UInt8) (t : Bytes) (p p' : Parser σ) : Prop where
  same : Same p p'
  left : Got p pad b t
  right : Got p' pad' b t

/-- Where two parsers are: the run has ended for both, or both have read the `x` behind the text, or
the same byte of it. -/
inductive Twin (pad pad' : Bytes) : Label × Parser σ → Label × Parser σ → Prop
  | ended {p p' : Parser σ} : Same p p' → (p.err_ = .kErrorNone → ∃ s, OnText p pad s ∧
    OnText p' pad' s) →
      Twin pad pad' (.doc_end, p) (.doc_end, p')
  | past {lbl : Label} {p p' : Parser σ} : lbl ≠ .doc_end → Same p p' → p.c = Ch.x →
    Twin pad pad' (lbl, p) (lbl, p')
  | got {lbl : Label} {p p' : Parser σ} {b : UInt8} {t : Bytes} : lbl ≠ .doc_end →
    BothGot pad pad' b t p p' →
      Twin pad pad' (lbl, p) (lbl, p')

namespace Same

variable {f : σ → Bool × σ}

theorem setDepth (h : Same p p') (ds : List ℕ) : Same (p.setDepth ds) (p'.setDepth ds) :=
  ⟨h.len, h.pos, h.err, rfl, h.c, h.sax⟩

theorem call (h : Same p p') (f : σ → Bool × σ) : Same (p.call f).2 (p'.call f).2 :=
  ⟨h.len, h.pos, h.err, h.depth, h.c, congrArg (fun s => (f s).2) h.sax⟩

theorem call_fst (h : Same p p') (f : σ → Bool × σ) :
    (p'.call f).1 = (p.call f).1 := congrArg (fun s => (f s).1) h.sax

theorem setParseError (h : Same p p') (e : SonicError) :
    Same (p.setParseError e) (p'.setParseError e) :=
  ⟨h.len, h.pos, rfl, h.depth, h.c, h.sax⟩

theorem setFirstError (h : Same p p') (e : SonicError) :
    Same (p.setFirstError e) (p'.setFirstError e) :=
  ⟨h.len, h.pos, by simp only [Parser.setFirstError, h.err], h.depth, h.c, h.sax⟩

theorem move (h : Same p p') (q : ℕ) : Same { p with pos_ := q } { p' with pos_ := q } :=
  ⟨h.len, rfl, h.err, h.depth, h.c, h.sax⟩

theorem back (h : Same p p') : p'.back = p.back := by rw [Parser.back, Parser.back, h.depth]

end Same

namespace Both

theorem call (h : Both pad pad' s p p') (f : σ → Bool × σ) :
    Both pad pad' s (p.call f).2 (p'.call f).2 :=
  ⟨h.same.call f, h.left.call f, h.right.call f⟩

theorem setDepth (h : Both pad pad' s p p') (ds : List ℕ) :
    Both pad pad' s (p.setDepth ds) (p'.setDepth ds) :=
  ⟨h.same.setDepth ds, h.left.setDepth ds, h.right.setDepth ds⟩

theorem move {q : ℕ} (h : Both pad pad' s p p') (hq : p.pos_ ≤ q) (ht : At p.json_buf_ q (t ++ pad))
    (ht' : At p'.json_buf_ q (t ++ pad')) : Both pad pad' t { p with pos_ := q }
    { p' with pos_ := q } :=
  ⟨h.same.move q, h.left.move hq ht, h.right.move (h.same.pos ▸ hq) ht'⟩

end Both

theorem setFirstError_ne {e : SonicError} (he : e ≠ .kErrorNone) :
    (p.setFirstError e).err_ ≠ .kErrorNone := by
  rw [setFirstError]
  dsimp only
  split <;> assumption

theorem BothGot.both (h : BothGot pad pad' b t p p') : Both pad pad' t p p' :=
  ⟨h.same, h.left.toOnText, h.right.toOnText⟩

section
variable {pad pad' : Bytes}

/-- The run ends with an error. -/
theorem twin_failed (h : Same p p') (he : p.err_ ≠ .kErrorNone) :
    Twin pad pad' (.doc_end, p) (.doc_end, p') :=
  .ended h fun h0 => absurd h0 he

theorem twin_invalid_char (h : Same p p') : Twin pad pad' p.err_invalid_char p'.err_invalid_char :=
  twin_failed (h.setFirstError _) (setFirstError_ne (by decide))

theorem twin_check_err {f f' : Parser σ → Label × Parser σ} (h : Same p p')
    (hf : p.err_ = .kErrorNone → Twin pad pad' (f p) (f' p')) :
    Twin pad pad' (p.sonic_check_err f) (p'.sonic_check_err f') := by
  rw [sonic_check_err, sonic_check_err, h.err]
  split
  · exact twin_invalid_char h
  · exact hf (not_not.mp ‹_›)

theorem twin_sax_check {f f' : Parser σ → Label × Parser σ} {x x' : Bool × Parser σ} (h1 : x'.1 = x.1)
    (h : Same x.2 x'.2) (hf : Twin pad pad' (f x.2) (f' x'.2)) :
    Twin pad pad' (sonic_sax_check x f) (sonic_sax_check x' f') := by
  rw [sonic_sax_check, sonic_sax_check, h1]
  split
  · exact hf
  · exact twin_failed (h.setFirstError _) (setFirstError_ne (by decide))

variable (hpad : Sentinel pad) (hpad' : Sentinel pad') (hlen : pad'.length = pad.length)
include hpad hpad' hlen

/-- The next byte: the `x` behind the text, or one of it. -/
theorem both_SkipSpace (h : Both pad pad' s p p') : Same p.SkipSpace p'.SkipSpace ∧
    (p.SkipSpace.c = Ch.x ∨ ∃ b t, t.length < s.length ∧
    BothGot pad pad' b t p.SkipSpace p'.SkipSpace) := by
  have hl := h.left.length
  have hl' := h.right.length
  rw [h.same.len] at hl'
  -- the positions, from what is left of buffers of one length
  have pos : ∀ {u u' : Bytes}, Reads p.SkipSpace u → Reads p'.SkipSpace u' → u'.length = u.length →
      p'.SkipSpace.pos_ = p.SkipSpace.pos_ := fun h1 h2 he => by
    have e1 := h1.at'.length_add
    have e2 := h2.at'.length_add
    simp only [SkipSpace_buf] at e1 e2
    omega
  cases hs : s.dropWhile IsSpace with
  | nil =>
    obtain ⟨q, rfl⟩ := hpad
    obtain ⟨q', rfl⟩ := hpad'
    have hx : ∀ u : Bytes, (Ch.x :: u).dropWhile IsSpace = Ch.x :: u := fun u => by
      rw [List.dropWhile_cons, if_neg (by decide)]
    obtain ⟨h1, h2, -⟩ := h.left.toReads.SkipSpace ((append_dropWhile_nil hs _).trans (hx _))
    obtain ⟨h3, h4, -⟩ := h.right.toReads.SkipSpace ((append_dropWhile_nil hs _).trans (hx _))
    exact ⟨⟨h.same.len, pos h1 h3 (by simpa using hlen), h.same.err, h.same.depth, h4.trans h2.symm,
      h.same.sax⟩, .inl h2⟩
  | cons b t =>
    have h1 := h.left.SkipSpace hs
    have h2 := h.right.SkipSpace hs
    have hsame : Same p.SkipSpace p'.SkipSpace :=
      ⟨h.same.len, pos h1.toReads h2.toReads (by simp [hlen]), h.same.err, h.same.depth,
      h2.c.trans h1.c.symm, h.same.sax⟩
    refine ⟨hsame, .inr ⟨b, t, ?_, hsame, h1, h2⟩⟩
    have := (List.dropWhile_suffix IsSpace (l := s)).length_le
    rw [hs, List.length_cons] at this
    omega

theorem twin_SkipSpace (hl : lbl ≠ .doc_end) (h : Both pad pad' s p p') :
    Twin pad pad' (lbl, p.SkipSpace) (lbl, p'.SkipSpace) := by
  obtain ⟨h1, h2 | ⟨b, t, -, h2⟩⟩ := both_SkipSpace hpad hpad' hlen h
  · exact .past hl h1 h2
  · exact .got hl h2

theorem twin_scope_end (h : Both pad pad' s p p') : Twin pad pad' p.scope_end p'.scope_end := by
  refine twin_check_err h.same fun _ => ?_
  have h1 := h.setDepth p.depth.tail
  rw [h.same.depth]
  dsimp only
  rw [setDepth_depth, setDepth_depth]
  by_cases he : p.depth.tail.isEmpty = true
  · rw [if_pos he, if_pos he]
    exact .ended h1.same fun _ => ⟨s, h1.left, h1.right⟩
  · rw [if_neg he, if_neg he]
    have h2 :
      (p'.setDepth p.depth.tail).SkipSpace.back = (p.setDepth p.depth.tail).SkipSpace.back := rfl
    rw [h2]
    refine twin_SkipSpace hpad hpad' hlen ?_ h1
    split <;> exact Label.noConfusion

/-- The end of a container is found at once, or not. -/
theorem twin_first {c : UInt8} {f : σ → Bool × σ} (hl : lbl ≠ .doc_end) (hx : c ≠ Ch.x)
    (h : Both pad pad' s p p') :
    Twin pad pad'
      (if p.SkipSpace.c = c then sonic_sax_check (p.SkipSpace.call f) scope_end else (lbl, p.SkipSpace))
      (if p'.SkipSpace.c = c then sonic_sax_check (p'.SkipSpace.call f) scope_end
        else (lbl, p'.SkipSpace)) := by
  obtain ⟨h1, h2⟩ := both_SkipSpace hpad hpad' hlen h
  rw [h1.c]
  split
  · rename_i hc
    rcases h2 with h2 | ⟨b, t, -, h2⟩
    · exact absurd (hc.symm.trans h2) hx
    · exact twin_sax_check (h1.call_fst f) (h1.call f) (twin_scope_end hpad hpad' hlen (h2.both.call f))
  · rcases h2 with h2 | ⟨b, t, -, h2⟩
    · exact .past hl h1 h2
    · exact .got hl h2

theorem twin_start_object (h : Both pad pad' s p p') :
    Twin pad pad' (p.start_object E) (p'.start_object E) := by
  have h1 := (h.call E.H.StartObject).setDepth (kObjMask :: p.depth)
  refine twin_sax_check (h.same.call_fst _) (h.same.call _) ?_
  have hd : (p'.call E.H.StartObject).2.depth = p.depth := h.same.depth
  rw [hd]
  exact twin_first hpad hpad' hlen Label.noConfusion (by decide) h1

theorem twin_start_array (h : Both pad pad' s p p') :
    Twin pad pad' (p.start_array E) (p'.start_array E) := by
  have h1 := (h.call E.H.StartArray).setDepth (kArrMask :: p.depth)
  refine twin_sax_check (h.same.call_fst _) (h.same.call _) ?_
  have hd : (p'.call E.H.StartArray).2.depth = p.depth := h.same.depth
  rw [hd]
  exact twin_first hpad hpad' hlen Label.noConfusion (by decide) h1

end

/-! ### Tokens -/

/-- What two scans of a token give: the same answer of the handler, the same state, and the text
behind it unless there was an error. -/
structure Scans (pad pad' : Bytes) (x x' : Bool × Parser σ) : Prop where
  ok : x'.1 = x.1
  same : Same x.2 x'.2
  left : x.2.err_ = .kErrorNone → ∃ t, Both pad pad' t x.2 x'.2

section
variable {pad pad' : Bytes} (hpad : Sentinel pad) (hpad' : Sentinel pad')
    (hlen : pad'.length = pad.length)
include hpad hpad'

/-- A literal is on both buffers or on none. -/
theorem BothGot.eqBytes {lit : Bytes} {i : ℕ} {u : Bytes} (h : Buf p i pad u) (h' : Buf p' i pad' u)
    (hn : lit.length = 4) (hx : Ch.x ∉ lit) :
    EqBytes4 p'.json_buf_ i lit = EqBytes4 p.json_buf_ i lit := by
  rw [Bool.eq_iff_iff]
  constructor
  · intro he
    obtain ⟨t, rfl⟩ := h'.eqBytes_inv hpad' he hx
    exact h.eqBytes hn
  · intro he
    obtain ⟨t, rfl⟩ := h.eqBytes_inv hpad he hx
    exact h'.eqBytes hn

/-- A literal of which the first byte has been read; `i` is where it is looked for, `n` how far it
goes on. -/
theorem BothGot.literal {lit u : Bytes} {i i' n : ℕ} {e : Scalar} (h : BothGot pad pad' b t p p')
    (hb : Buf p i pad u) (hb' : Buf p' i' pad' u) (hii : i' = i) (hn : lit.length = 4) (hx : Ch.x ∉ lit)
    (hi : i + 4 = p.pos_ + n) :
    Scans pad pad'
      (if EqBytes4 p.json_buf_ i lit then call { p with pos_ := p.pos_ + n } (E.H.primitive e)
        else (false, p.setParseError .kParseErrorInvalidChar))
      (if EqBytes4 p'.json_buf_ i' lit then call { p' with pos_ := p'.pos_ + n } (E.H.primitive e)
        else (false, p'.setParseError .kParseErrorInvalidChar)) := by
  subst hii
  rw [BothGot.eqBytes hpad hpad' hb hb' hn hx, h.same.pos]
  split
  · rename_i he
    obtain ⟨r, rfl⟩ := hb.eqBytes_inv hpad he hx
    have h1 := hb.at'
    have h2 := hb'.at'
    rw [List.append_assoc] at h1 h2
    have h3 := h1.append
    have h4 := h2.append
    rw [hn, hi] at h3 h4
    have h5 := (h.both.move (Nat.le_add_right _ n) h3 h4).call (E.H.primitive e)
    exact ⟨(h.same.move _).call_fst _, h5.same, fun _ => ⟨r, h5⟩⟩
  · exact ⟨rfl, h.same.setParseError _, fun he => absurd he SonicError.noConfusion⟩

theorem BothGot.parseNull (h : BothGot pad pad' b t p p') :
    Scans pad pad' (p.parseNull E) (p'.parseNull E) :=
  have hpos := h.left.pos
  h.literal hpad hpad' h.left.buf h.right.buf (by rw [h.same.pos]) rfl (by decide) (by omega)

theorem BothGot.parseTrue (h : BothGot pad pad' b t p p') :
    Scans pad pad' (p.parseTrue E) (p'.parseTrue E) :=
  have hpos := h.left.pos
  h.literal hpad hpad' h.left.buf h.right.buf (by rw [h.same.pos]) rfl (by decide) (by omega)

theorem BothGot.parseFalse (h : BothGot pad pad' b t p p') :
    Scans pad pad' (p.parseFalse E) (p'.parseFalse E) :=
  h.literal hpad hpad' h.left.toOnText.buf h.right.toOnText.buf h.same.pos rfl (by decide) rfl

/-- The parser behind a number. -/
theorem BothGot.parseNumber (h : BothGot pad pad' b t p p') (hb : is_digit b = true ∨ b = Ch.minus) :
    Same (p.parseNumber E) (p'.parseNumber E) ∧
      ((p.parseNumber E).err_ = .kErrorNone →
        ∃ u, Both pad pad' u (p.parseNumber E) (p'.parseNumber E)) := by
  have hag := h.left.buf.agree (h.same.pos ▸ h.right.buf) hpad hpad'
  have hnum := @Agree.parseNumber E.F E.parseFlags _ _ _ _ hag
  rw [h.left.pos] at hnum
  obtain ⟨u, hu, hon⟩ := h.left.number (F := E.F) hpad hb
  obtain ⟨u', hu', hon'⟩ := h.right.number (F := E.F) hpad' hb
  rw [h.same.len, h.same.pos, hnum] at hon'
  have hsame : Same (p.parseNumber E) (p'.parseNumber E) := by
    unfold Parser.parseNumber
    rw [h.same.len, h.same.pos, hnum]
    dsimp only
    split
    · exact ⟨rfl, rfl, rfl, h.same.depth, h.same.c, h.same.sax⟩
    · rw [h.same.sax]
      exact ⟨rfl, rfl, rfl, h.same.depth, h.same.c, rfl⟩
  refine ⟨hsame, fun he => ⟨u, hsame, number_onText hon he, ?_⟩⟩
  -- the same text is left on both sides
  have e1 := hon.buf.left.length_add
  have e2 := hon'.buf.left.length_add
  simp only at e1 e2
  have hlen : u'.length = u.length := by omega
  obtain rfl : u' = u :=
    List.IsSuffix.eq_of_length (List.suffix_of_suffix_length_le hu' hu hlen.le) hlen
  refine number_onText (E := E) ?_ (hsame.err.trans he)
  rw [h.same.len, h.same.pos, hnum]
  exact hon'

end

/-- A string has run into the padding: both are behind its quote. -/
structure Overrun (p p' : Parser σ) : Prop where
  same : Same p p'
  reads : ∃ u u', Reads p (Ch.x :: u) ∧ Reads p' (Ch.x :: u') ∧ u'.length = u.length
  past : p.len_ < p.pos_

theorem Overrun.call (h : Overrun p p') (f : σ → Bool × σ) : Overrun (p.call f).2 (p'.call f).2 := by
  obtain ⟨u, u', h1, h2, h3⟩ := h.reads
  exact ⟨h.same.call f, ⟨u, u', h1.call f, h2.call f, h3⟩, h.past⟩

/-- What comes then is the `x`. -/
theorem Overrun.SkipSpace (h : Overrun p p') :
    Same p.SkipSpace p'.SkipSpace ∧ p.SkipSpace.c = Ch.x := by
  have hx : ∀ u : Bytes, (Ch.x :: u).dropWhile IsSpace = Ch.x :: u := fun u => by
    rw [List.dropWhile_cons, if_neg (by decide)]
  obtain ⟨u, u', h1, h2, h3⟩ := h.reads
  obtain ⟨h4, h5, -⟩ := h1.SkipSpace (hx u)
  obtain ⟨h6, h7, -⟩ := h2.SkipSpace (hx u')
  have e1 := h1.at'.length_add
  have e2 := h2.at'.length_add
  have e3 := h4.at'.length_add
  have e4 := h6.at'.length_add
  have e5 := h.same.pos
  simp only [SkipSpace_buf, List.length_cons] at e1 e2 e3 e4
  exact ⟨⟨h.same.len, by omega, h.same.err, h.same.depth, h7.trans h5.symm, h.same.sax⟩, h5⟩

/-- Behind a string: the text, or the quote of the padding. -/
structure Strings (pad pad' : Bytes) (x x' : Bool × Parser σ) : Prop where
  ok : x'.1 = x.1
  same : Same x.2 x'.2
  left : x.2.err_ = .kErrorNone → (∃ t, Both pad pad' t x.2 x'.2) ∨ Overrun x.2 x'.2

section
variable {pad pad' : Bytes} (hpad : Sentinel pad) (hpad' : Sentinel pad')
    (hlen : pad'.length = pad.length)
include hpad hpad' hlen

theorem Both.twins (h : Both pad pad' s p p') :
    ∃ S, Twins p.json_buf_ p'.json_buf_ p.pos_ S ∧ Guarded S := by
  obtain ⟨q, rfl⟩ := hpad
  obtain ⟨q', rfl⟩ := hpad'
  have h1 := h.left.at'
  have h2 := h.right.at'
  have h3 := h.left.length
  have h4 := h.right.length
  rw [h.same.pos] at h2
  rw [h.same.len] at h4
  refine ⟨s ++ [Ch.x, Ch.quote, Ch.x], ⟨⟨q, ?_⟩, ⟨q', ?_⟩, by omega⟩, .inl ⟨s, rfl⟩⟩
  · rwa [List.append_assoc]
  · rwa [List.append_assoc]

theorem Both.parseStringHelper (h : Both pad pad' s p p') :
    Same (p.parseStringHelper E).2 (p'.parseStringHelper E).2 ∧
      ((p.parseStringHelper E).2.err_ = .kErrorNone →
      (p'.parseStringHelper E).1 = (p.parseStringHelper E).1 ∧
        ((∃ t, Both pad pad' t (p.parseStringHelper E).2 (p'.parseStringHelper E).2) ∨
          Overrun (p.parseStringHelper E).2 (p'.parseStringHelper E).2)) := by
  obtain ⟨S, h1, h2⟩ := h.twins hpad hpad' hlen
  have h3 : SameResult _ _ :=
    @Twins.parseStringInplace _ _ _ _ E.A E.parseFlags.kParseAllowUnescapedControlChars h1 h2
  have hsame : Same (p.parseStringHelper E).2 (p'.parseStringHelper E).2 := by
    unfold Parser.parseStringHelper
    rw [h.same.pos]
    exact ⟨h.same.len, h3.src, h3.err, h.same.depth, h.same.c, h.same.sax⟩
  refine ⟨hsame, fun he => ?_⟩
  rcases h.left.string_cases hpad he with ⟨k, t, hk⟩ | ⟨k, hk⟩
  · -- the string ends in the text
    obtain ⟨q, e1, e2, -⟩ := h.left.string hk
    obtain ⟨q', e3, e4, -⟩ := h.right.string hk
    rw [e1, e3] at hsame ⊢
    exact ⟨rfl, .inl ⟨t, hsame, e2, e4⟩⟩
  · -- it runs into the padding
    obtain ⟨q, u, e1, e2, e3, e4, -⟩ := h.left.string_over hpad hk
    obtain ⟨q', u', e5, e6, e7, -⟩ := h.right.string_over hpad' hk
    rw [e1, e5] at hsame ⊢
    refine ⟨rfl, .inr ⟨hsame, ⟨u, u', e3, e7, ?_⟩, e4⟩⟩
    simpa [e2, e6] using hlen

theorem Both.parseStr (h : Both pad pad' s p p') (event : Bytes → σ → Bool × σ) :
    Strings pad pad' (p.parseStr E event) (p'.parseStr E event) := by
  obtain ⟨h1, h2⟩ := h.parseStringHelper hpad hpad' hlen (E := E)
  unfold Parser.parseStr
  generalize p.parseStringHelper E = r at h1 h2 ⊢
  generalize p'.parseStringHelper E = r' at h1 h2 ⊢
  obtain ⟨sv, q⟩ := r
  obtain ⟨sv', q'⟩ := r'
  dsimp only at h1 h2 ⊢
  rw [h1.err]
  by_cases he : q.err_ = .kErrorNone
  · obtain ⟨rfl, h3⟩ := h2 he
    rw [if_neg (not_not.mpr he), if_neg (not_not.mpr he)]
    exact ⟨h1.call_fst _, h1.call _, fun _ => h3.imp (fun ⟨t, ht⟩ => ⟨t, ht.call _⟩) fun ho =>
      ho.call _⟩
  · rw [if_pos he, if_pos he]
    exact ⟨rfl, h1, fun h0 => absurd h0 he⟩

/-! ### Values -/

theorem twin_value_got (hc : cont ≠ .doc_end) (h : BothGot pad pad' b t p p') :
    Twin pad pad' (p.value E cont) (p'.value E cont) := by
  have literal : ∀ {x x' : Bool × Parser σ}, Scans pad pad' x x' → Twin pad pad'
      (x.2.sonic_check_err fun p => if !x.1 then (.doc_end, p.setParseError .kSaxTermination)
        else (cont, p.SkipSpace))
      (x'.2.sonic_check_err fun p => if !x'.1 then (.doc_end, p.setParseError .kSaxTermination)
        else (cont, p.SkipSpace)) := by
    intro x x' hx
    refine twin_check_err hx.same fun he => ?_
    obtain ⟨u, hu⟩ := hx.left he
    rw [hx.ok]
    split
    · exact twin_failed (hx.same.setParseError _) SonicError.noConfusion
    · exact twin_SkipSpace hpad hpad' hlen hc hu
  rw [value, value, h.same.c, h.left.c]
  split
  · exact twin_start_object hpad hpad' hlen h.both
  split
  · exact twin_start_array hpad hpad' hlen h.both
  split
  · rename_i hb
    obtain ⟨h1, h2⟩ := h.parseNumber hpad hpad' (E := E) (by simpa using hb)
    refine twin_check_err h1 fun he => ?_
    obtain ⟨u, hu⟩ := h2 he
    exact twin_SkipSpace hpad hpad' hlen hc hu
  split
  · exact literal (h.parseTrue hpad hpad')
  split
  · exact literal (h.parseFalse hpad hpad')
  split
  · exact literal (h.parseNull hpad hpad')
  split
  · have h1 := h.both.parseStr hpad hpad' hlen (E := E) fun sv => E.H.primitive (.String sv)
    refine twin_sax_check h1.ok h1.same (twin_check_err h1.same fun he => ?_)
    rcases h1.left he with ⟨u, hu⟩ | ho
    · exact twin_SkipSpace hpad hpad' hlen hc hu
    · exact .past hc ho.SkipSpace.1 ho.SkipSpace.2
  · exact twin_invalid_char h.same

theorem twin_value (hc : cont ≠ .doc_end) (h : Both pad pad' s p p') :
    Twin pad pad' (p.SkipSpace.value E cont) (p'.SkipSpace.value E cont) := by
  obtain ⟨h1, h2 | ⟨b, t, -, h2⟩⟩ := both_SkipSpace hpad hpad' hlen h
  · rw [value, value, h1.c, h2]
    exact twin_invalid_char h1
  · exact twin_value_got hpad hpad' hlen hc h2

/-- The end of a container, with what has been counted. -/
theorem twin_end {f : ℕ → σ → Bool × σ} (h : Both pad pad' s p p') :
    Twin pad pad' (sonic_sax_check (p.call (f p.back)) scope_end)
      (sonic_sax_check (p'.call (f p'.back)) scope_end) := by
  rw [h.same.back]
  exact twin_sax_check (h.same.call_fst _) (h.same.call _) (twin_scope_end hpad hpad' hlen (h.call _))

/-- A key that is not wanted, and its value, are skipped alike. -/
theorem twin_skip_key (h : BothGot pad pad' b t p p') :
    Twin pad pad' (p.skip_key E) (p'.skip_key E) := by
  have hl : Scan p.json_buf_ p.len_ p.pos_ p.scan t := ⟨h.left.toOnText.buf.left, h.left.valid⟩
  have hr : Scan p'.json_buf_ p'.len_ p'.pos_ p'.scan t := ⟨h.right.toOnText.buf.left, h.right.valid⟩
  obtain ⟨h1, h2⟩ := @SkipOne_bounds E.A _ _ _ _ _ hl
  obtain ⟨h3, h4⟩ := @SkipOne_bounds E.A _ _ _ _ _ hr
  have hbyte : rd p'.json_buf_ (p.pos_ - 1) = rd p.json_buf_ (p.pos_ - 1) := by
    rw [rd_at h.left.byte, ← h.same.pos, rd_at h.right.byte]
  rw [h.same.len, h.same.pos] at hr h3 h4
  obtain ⟨h5, h6⟩ := @SkipOne_same E.A _ _ _ _ _ _ _ hl hr hbyte
  have hsuf := fun n (hn : n ≤ t.length) => hl.left.drop hn
  have hsuf' := fun n (hn : n ≤ t.length) => hr.left.drop hn
  have hadd := hl.left.length_add
  rw [skip_key, skip_key, h.same.len, h.same.pos]
  generalize SkipOne E.A p.json_buf_ p.pos_ p.len_ p.scan = x at h1 h2 h5 h6 ⊢
  generalize SkipOne E.A p'.json_buf_ p.pos_ p.len_ p'.scan = x' at h3 h4 h5 h6 ⊢
  obtain ⟨start, pos, k⟩ := x
  obtain ⟨start', pos', k'⟩ := x'
  dsimp only at h1 h2 h3 h4 h5 h6 ⊢
  subst h5 h6
  by_cases hs : start' = .ok 0
  · rw [if_pos hs, if_pos hs]
    exact twin_invalid_char ⟨rfl, rfl, h.same.err, h.same.depth, h.same.c, h.same.sax⟩
  rw [if_neg hs, if_neg hs]
  -- the token is the same
  have htok : GetNextToken E.A p'.json_buf_ pos' p.len_ [Ch.quote, Ch.rbrace] =
      GetNextToken E.A p.json_buf_ pos' p.len_ [Ch.quote, Ch.rbrace] := by
    rcases lt_or_ge pos' p.len_ with hlt | hge
    · have e1 := hsuf (pos' - p.pos_) (by omega)
      have e2 := hsuf' (pos' - p.pos_) (by omega)
      rw [show p.pos_ + (pos' - p.pos_) = pos' by omega] at e1 e2
      rw [GetNextToken_eq e1, GetNextToken_eq e2]
    · rw [GetNextToken_of_ge hge, GetNextToken_of_ge hge]
  have hgot := @token_got _ E _ _ _ [Ch.quote, Ch.rbrace] _ _ h.left.toOnText h1 h2
  have hgot' :=
    @token_got _ E _ _ _ [Ch.quote, Ch.rbrace] _ _ h.right.toOnText (h.same.pos.symm ▸ h3) h4
  rw [h.same.len] at hgot'
  rw [htok] at hgot' ⊢
  rcases hgot with ⟨q, hq⟩ | ⟨c, u, hc, hu, hq, hg⟩
  · rw [hq]
    exact twin_invalid_char ⟨rfl, rfl, h.same.err, h.same.depth, rfl, h.same.sax⟩
  rcases hgot' with ⟨q', hq'⟩ | ⟨c', u', hc', hu', hq', hg'⟩
  · rw [hq] at hq'
    rw [(Prod.mk.inj hq').1] at hc
    exact absurd hc (by decide)
  rw [hq] at hq' ⊢
  obtain ⟨rfl, hpos⟩ := Prod.mk.inj hq'
  have e1 := hu.length_le
  have e2 := hu'.length_le
  simp only [List.length_cons] at e1 e2
  have hul : u'.length = u.length := by omega
  obtain rfl : u' = u := by
    have e3 := List.IsSuffix.eq_of_length (List.suffix_of_suffix_length_le hu' hu (by simp [hul]))
      (by simp [hul])
    exact (List.cons.inj e3).2
  have hboth := (BothGot.mk · hg hg') ⟨rfl, rfl, h.same.err, h.same.depth, rfl, h.same.sax⟩
  dsimp only
  split
  · exact .got Label.noConfusion hboth
  split
  · exact twin_end (f := E.H.EndObject) hpad hpad' hlen hboth.both
  · exact twin_invalid_char ⟨rfl, rfl, h.same.err, h.same.depth, rfl, h.same.sax⟩

theorem twin_obj_key (h : BothGot pad pad' b t p p') : Twin pad pad' (p.obj_key E) (p'.obj_key E) := by
  have h1 : Strings pad pad' (p.parseKeyInPlace E) (p'.parseKeyInPlace E) :=
    h.both.parseStr hpad hpad' hlen E.H.Key
  rw [obj_key, obj_key, h.same.c]
  split
  · exact twin_invalid_char h.same
  refine twin_check_err h1.same fun he => ?_
  rcases h1.left he with ⟨u, hu⟩ | ho
  · obtain ⟨h2, h3⟩ := both_SkipSpace hpad hpad' hlen hu
    dsimp only
    rw [h2.c, h1.ok]
    split
    · exact twin_invalid_char h2
    rename_i hc
    rcases h3 with h3 | ⟨c, r, -, h3⟩
    · exact absurd (not_not.mp hc) (by rw [h3]; decide)
    split
    · split
      · exact twin_skip_key hpad hpad' hlen h3
      · exact twin_failed (h2.setFirstError _) (setFirstError_ne SonicError.noConfusion)
    · exact twin_value hpad hpad' hlen Label.noConfusion h3.both
  · obtain ⟨h2, h3⟩ := ho.SkipSpace
    dsimp only
    rw [h2.c, h3, if_pos (by decide), if_pos (by decide)]
    exact twin_invalid_char h2

end

/-- `depth.back()++` on the stack. -/
def counted : List ℕ → List ℕ
  | [] => []
  | d :: ds => (d + 1) % 2 ^ 32 :: ds

theorem count_counted (p : Parser σ) : p.count = p.setDepth (counted p.depth) := by
  unfold count
  split
  · rename_i h
    rw [h, counted, ← h]
    rfl
  · rename_i h
    rw [h, counted]

theorem Same.count (h : Same p p') : Same p.count p'.count := by
  rw [count_counted, count_counted, h.depth]
  exact h.setDepth _

theorem BothGot.count (h : BothGot pad pad' b t p p') : BothGot pad pad' b t p.count p'.count := by
  rw [count_counted, count_counted, h.same.depth]
  exact ⟨h.same.setDepth _, h.left.setDepth _, h.right.setDepth _⟩

section
variable {pad pad' : Bytes} (hpad : Sentinel pad) (hpad' : Sentinel pad')
    (hlen : pad'.length = pad.length)
include hpad hpad' hlen

theorem twin_obj_cont (h : BothGot pad pad' b t p p') :
    Twin pad pad' (p.obj_cont E) (p'.obj_cont E) := by
  have h1 := h.count
  rw [obj_cont, obj_cont, h1.same.c]
  split
  · exact twin_SkipSpace hpad hpad' hlen Label.noConfusion h1.both
  split
  · exact twin_invalid_char h1.same
  · exact twin_end hpad hpad' hlen h1.both

theorem twin_arr_cont (h : BothGot pad pad' b t p p') :
    Twin pad pad' (p.arr_cont E) (p'.arr_cont E) := by
  have h1 := h.count
  rw [arr_cont, arr_cont, h1.same.c]
  split
  · exact twin_SkipSpace hpad hpad' hlen Label.noConfusion h1.both
  split
  · exact twin_end (f := fun n => E.H.EndArray (n &&& (kArrMask - 1))) hpad hpad' hlen h1.both
  · exact twin_invalid_char h1.same

/-- **A step of the one is a step of the other.** -/
theorem twin_step {a a' : Label × Parser σ} (h : Twin pad pad' a a') :
    (step E a = none ∧ step E a' = none) ∨
      ∃ c c', step E a = some c ∧ step E a' = some c' ∧ Twin pad pad' c c' := by
  cases h with
  | ended h1 h2 => exact .inl ⟨rfl, rfl⟩
  | @past lbl p p' hl h1 h2 =>
    have hx : p.count.c = Ch.x := by
      rw [count_counted]
      exact h2
    have h3 := h1.count
    refine .inr ?_
    cases lbl with
    | obj_key => exact ⟨_, _, rfl, rfl, by rw [obj_key, obj_key, h1.c, h2]; exact twin_invalid_char h1⟩
    | obj_cont =>
      refine ⟨_, _, rfl, rfl, ?_⟩
      rw [obj_cont, obj_cont, h3.c, hx]
      exact twin_invalid_char h3
    | arr_val => exact ⟨_, _, rfl, rfl, by rw [value, value, h1.c, h2]; exact twin_invalid_char h1⟩
    | arr_cont =>
      refine ⟨_, _, rfl, rfl, ?_⟩
      rw [arr_cont, arr_cont, h3.c, hx]
      exact twin_invalid_char h3
    | doc_end => exact absurd rfl hl
  | @got lbl p p' b t hl h1 =>
    refine .inr ?_
    cases lbl with
    | obj_key => exact ⟨_, _, rfl, rfl, twin_obj_key hpad hpad' hlen h1⟩
    | obj_cont => exact ⟨_, _, rfl, rfl, twin_obj_cont hpad hpad' hlen h1⟩
    | arr_val => exact ⟨_, _, rfl, rfl, twin_value_got hpad hpad' hlen Label.noConfusion h1⟩
    | arr_cont => exact ⟨_, _, rfl, rfl, twin_arr_cont hpad hpad' hlen h1⟩
    | doc_end => exact absurd rfl hl

theorem twin_parsePrimitives (h : BothGot pad pad' b t p p') :
    Twin pad pad' (.doc_end, p.parsePrimitives E) (.doc_end, p'.parsePrimitives E) := by
  have ended : ∀ {x x' : Bool × Parser σ}, x'.1 = x.1 → Same x.2 x'.2 →
      (x.2.err_ = .kErrorNone → ∃ t, Both pad pad' t x.2 x'.2) → Twin pad pad'
        (.doc_end, if !x.1 then x.2.setFirstError .kSaxTermination else x.2)
        (.doc_end, if !x'.1 then x'.2.setFirstError .kSaxTermination else x'.2) := by
    intro x x' hx hs hl
    rw [hx]
    split
    · exact twin_failed (hs.setFirstError _) (setFirstError_ne SonicError.noConfusion)
    · exact .ended hs fun he => (hl he).imp fun t ht => ⟨ht.left, ht.right⟩
  have literal : ∀ {x x' : Bool × Parser σ}, Scans pad pad' x x' → Twin pad pad'
      (.doc_end, if !x.1 then x.2.setFirstError .kSaxTermination else x.2)
      (.doc_end, if !x'.1 then x'.2.setFirstError .kSaxTermination else x'.2) :=
    fun hx => ended hx.ok hx.same hx.left
  rw [parsePrimitives, parsePrimitives, h.same.c, h.left.c]
  by_cases hd : (is_digit b || b == Ch.minus) = true
  · rw [if_pos hd, if_pos hd]
    obtain ⟨h1, h2⟩ := h.parseNumber hpad hpad' (E := E) (by simpa using hd)
    exact .ended h1 fun he => (h2 he).imp fun u hu => ⟨hu.left, hu.right⟩
  rw [if_neg hd, if_neg hd]
  by_cases hq : b = Ch.quote
  · rw [if_pos hq, if_pos hq]
    have h1 := h.both.parseStr hpad hpad' hlen (E := E) fun sv => E.H.primitive (.String sv)
    change Strings pad pad' (p.parseStrInPlace E) (p'.parseStrInPlace E) at h1
    dsimp only
    rw [h1.same.len, h1.same.pos]
    by_cases hlt : (p.parseStrInPlace E).2.len_ < (p.parseStrInPlace E).2.pos_
    · rw [if_pos hlt, if_pos hlt]
      exact twin_failed (h1.same.setParseError _) SonicError.noConfusion
    · rw [if_neg hlt, if_neg hlt]
      refine ended h1.ok h1.same fun he => ?_
      exact (h1.left he).resolve_right fun ho => hlt ho.past
  rw [if_neg hq, if_neg hq]
  split
  · exact literal (h.parseFalse hpad hpad')
  split
  · exact literal (h.parseTrue hpad hpad')
  split
  · exact literal (h.parseNull hpad hpad')
  · exact twin_failed (h.same.setParseError _) SonicError.noConfusion

theorem twin_start (h : Both pad pad' s p p') : Twin pad pad' (p.start E) (p'.start E) := by
  obtain ⟨h1, h2⟩ := both_SkipSpace hpad hpad' hlen h
  rw [start, start]
  rw [h1.c]
  rcases h2 with h2 | ⟨b, t, -, h2⟩
  · rw [h2, if_neg (by decide), if_neg (by decide), if_neg (by decide), if_neg (by decide)]
    have h3 : ∀ {p : Parser σ}, p.c = Ch.x →
        p.parsePrimitives E = p.setParseError .kParseErrorInvalidChar := by
      intro p hp
      rw [parsePrimitives, hp]
      rfl
    rw [h3 h2, h3 (h1.c.trans h2)]
    exact twin_failed (h1.setParseError _) SonicError.noConfusion
  split
  · exact twin_start_array hpad hpad' hlen h2.both
  split
  · exact twin_start_object hpad hpad' hlen h2.both
  · exact twin_parsePrimitives hpad hpad' hlen h2

/-- **A run of the one is a run of the other**: both end, with the same handler, the same position
and the same error. -/
theorem parseImpl_twin (h : Both pad pad' s p p') :
    ∃ q q', p.parseImpl E = some q ∧ p'.parseImpl E = some q' ∧ Same q q' ∧
      (q.err_ = .kErrorNone → ∃ t, OnText q pad t ∧ OnText q' pad' t) := by
  have hl := h.left.length
  have hl' := h.right.length
  rw [h.same.len] at hl'
  have hfuel : p'.json_buf_.length = p.json_buf_.length := by omega
  obtain ⟨-, q, -, h1⟩ := parseImpl_isSome hpad h.left (E := E)
  rw [parseImpl] at h1 ⊢
  rw [parseImpl, hfuel]
  rcases run_lockstep (fun a a' => twin_step hpad hpad' hlen (E := E)) (p.json_buf_.length + 3)
    (twin_start hpad hpad' hlen h) with ⟨h2, -⟩ | ⟨c, d, h2, h3, h4, h5⟩
  · rw [h2] at h1
    exact absurd h1 (by simp)
  rw [h2, h3]
  cases h5 with
  | ended h6 h7 => exact ⟨_, _, rfl, rfl, h6, h7⟩
  | @past lbl p p' hl h6 h7 =>
    cases lbl <;> first | exact absurd rfl hl | exact absurd h4 (by simp [step])
  | @got lbl p p' b t hl h6 =>
    cases lbl <;> first | exact absurd rfl hl | exact absurd h4 (by simp [step])

/-- **The calls of `Parse` return the same**: the error, the position and the state of the handler. -/
theorem parseAll_twin (h : Both pad pad' s p p') :
    ∃ q q', p.parseAll E = some q ∧ p'.parseAll E = some q' ∧ Same q q' := by
  obtain ⟨q, q', h1, h2, h3, h4⟩ := parseImpl_twin hpad hpad' hlen h (E := E)
  rw [parseAll, parseAll, h1, h2, Option.map_some, Option.map_some, h3.err]
  by_cases he : q.err_ = .kErrorNone
  · obtain ⟨t, h5, h6⟩ := h4 he
    have h7 : q'.hasTrailingChars = q.hasTrailingChars := by
      rw [hasTrailingChars, hasTrailingChars, h5.buf.left.slice_eq, h6.buf.left.slice_eq, h3.pos,
        h3.len]
    rw [if_pos he, if_pos he, h7]
    exact ⟨_, _, rfl, rfl, h3.len, rfl, rfl, h3.depth, h3.c, h3.sax⟩
  · rw [if_neg he, if_neg he]
    exact ⟨_, _, rfl, rfl, h3⟩

end

end Parser

end SonicJson
