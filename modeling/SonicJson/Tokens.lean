/-
# The tokens of the callbacks

What a handler has been told is the tokens of the text that has been read, one behind
the other (`Tokens`): in every state of a run those in front of the position, and at the
end (`Parse_tokens`). No string may be begun that is still open at the end of the text,
which the quote of the padding closes (`Parse_open_string`), and no number that the slow
conversion, which reads on at a second dot and counts in an `int`, does not read alone.
-/
import SonicJson.Document
import SonicJson.Events
import SonicJson.NumberPrefix
import SonicJson.Reuse
import SonicJson.SetDecimal

namespace SonicJson

open Cursor Machine

/-- The text that begins with a token, the event that it stands for, and the text behind it. -/
inductive Token (F : FloatConv) (flags : ParseFlags) : Bytes → Event → Bytes → Prop
  | startObject (t : Bytes) : Token F flags (Ch.lbrace :: t) .StartObject t
  | startArray (t : Bytes) : Token F flags (Ch.lbrack :: t) .StartArray t
  | endObject (n : ℕ) (t : Bytes) : Token F flags (Ch.rbrace :: t) (.EndObject n) t
  | endArray (n : ℕ) (t : Bytes) : Token F flags (Ch.rbrack :: t) (.EndArray n) t
  | null (t : Bytes) : Token F flags (kNull ++ t) (.primitive .Null) t
  | true (t : Bytes) : Token F flags (kTrue ++ t) (.primitive (.Bool true)) t
  | false (t : Bytes) : Token F flags (kFalse ++ t) (.primitive (.Bool false)) t
  | number {tok t : Bytes} {e : Scalar} : NumToken tok t → (numRes F flags tok).ev = some e →
      Token F flags (tok ++ t) (.primitive e) t
  | string {r k t : Bytes} : unescape flags.kParseAllowUnescapedControlChars r = .ok (k, t) →
      Token F flags (Ch.quote :: r) (.primitive (.String k)) t
  | key {r k t : Bytes} : unescape flags.kParseAllowUnescapedControlChars r = .ok (k, t) →
      Token F flags (Ch.quote :: r) (.Key k) t

/-- The tokens of the text `s` in front of `t`, with what the handler answered to each: there is
nothing between them but spaces, commas and colons, and behind a key that was refused what is
skipped. -/
inductive Tokens (F : FloatConv) (flags : ParseFlags) (s : Bytes) : Log → Bytes → Prop
  | nil : Tokens F flags s [] s
  | gap {log : Log} {b : UInt8} {t : Bytes} : IsSpace b = true ∨ b = Ch.comma ∨ b = Ch.colon →
      Tokens F flags s log (b :: t) → Tokens F flags s log t
  | skipped {log : Log} {k t u : Bytes} : Tokens F flags s (log ++ [(.Key k, false)]) t → u <:+ t →
      Tokens F flags s (log ++ [(.Key k, false)]) u
  | token {log : Log} {e : Event} {ok : Bool} {t u : Bytes} : Tokens F flags s log t →
    Token F flags t e u →
      Tokens F flags s (log ++ [(e, ok)]) u

section
variable {F : FloatConv} {flags : ParseFlags} {s t u : Bytes} {e : Event} {log : Log}

theorem Token.suffix (h : Token F flags t e u) : u <:+ t := by
  cases h with
  | startObject => exact List.suffix_cons _ _
  | startArray => exact List.suffix_cons _ _
  | endObject => exact List.suffix_cons _ _
  | endArray => exact List.suffix_cons _ _
  | null => exact List.suffix_append _ _
  | true => exact List.suffix_append _ _
  | false => exact List.suffix_append _ _
  | number => exact List.suffix_append _ _
  | string hk => exact (Parser.suffix_of_unescape hk).trans (List.suffix_cons _ _)
  | key hk => exact (Parser.suffix_of_unescape hk).trans (List.suffix_cons _ _)

theorem Tokens.suffix (h : Tokens F flags s log t) : t <:+ s := by
  induction h with
  | nil => exact List.suffix_rfl
  | gap _ _ ih => exact (List.suffix_cons _ _).trans ih
  | skipped _ hu ih => exact hu.trans ih
  | token _ ht ih => exact ht.suffix.trans ih

/-- An event stands for a token that lies in the text. -/
theorem Tokens.exists_token (h : Tokens F flags s log t) :
    ∀ x ∈ log, ∃ u w, u <:+ s ∧ Token F flags u x.1 w := by
  induction h with
  | nil => exact fun x hx => absurd hx List.not_mem_nil
  | gap _ _ ih => exact ih
  | skipped _ _ ih => exact ih
  | token h ht ih =>
    intro x hx
    rcases List.mem_append.mp hx with hx | hx
    · exact ih x hx
    · obtain rfl := List.mem_singleton.mp hx
      exact ⟨_, _, h.suffix, ht⟩

theorem Tokens.ws (h : Tokens F flags s log t) (hw : Ws t u) : Tokens F flags s log u := by
  induction hw with
  | nil => exact h
  | cons hb _ ih => exact ih (h.gap (.inl hb))

end

namespace Parser

variable {σ : Type*} {E : Env σ} {p q : Parser (σ × Log)} {pad r s t u : Bytes} {b : UInt8}
    {lbl cont : Label}

/-- The handler has been told of the tokens of the text `s` in front of `t`. -/
def Lexed (E : Env σ) (s : Bytes) (p : Parser (σ × Log)) (t : Bytes) : Prop :=
  Tokens E.F E.parseFlags s p.sax.2 t

/-- The tokens in front of what is left of the text, if there is no error. -/
def ReadTo (E : Env σ) (pad s : Bytes) (p : Parser (σ × Log)) : Prop :=
  ∃ t, Lexed E s p t ∧ (p.err_ = .kErrorNone → OnText p pad t)

/-- Where the run is: it is over, or the parser is at the padding, or the handler has been told of
the tokens in front of the byte that has just been read. -/
def Shows (E : Env σ) (pad s : Bytes) (a : Label × Parser (σ × Log)) : Prop :=
  ∃ t, Lexed E s a.2 t ∧ (a.1 = .doc_end ∨ a.2.c = Ch.x ∨ ∃ b r, t = b :: r ∧ Got a.2 pad b r)

/-- A value that begins with `u`: a string is not open at the end of the text, and a number is read
alone if it comes to the slow conversion. -/
structure Begins (E : Env σ) (u : Bytes) : Prop where
  string : ∀ r k, u = Ch.quote :: r → ¬OpenString E.parseFlags.kParseAllowUnescapedControlChars r k
  number : ∀ tok t, u = tok ++ t → NumToken tok t → Alone tok t ∨ Fast E.F E.parseFlags tok

/-- The key and the value that the next step reads. -/
def Sound (E : Env σ) (a : Label × Parser (σ × Log)) : Prop :=
  match a.1 with
  | .arr_val => Begins E (slice a.2.json_buf_ (a.2.pos_ - 1) a.2.len_)
  | .obj_key => a.2.c = Ch.quote →
      let r := slice a.2.json_buf_ a.2.pos_ a.2.len_
      (∀ k, ¬OpenString E.parseFlags.kParseAllowUnescapedControlChars r k) ∧
        ∀ k t t₁ u, unescape E.parseFlags.kParseAllowUnescapedControlChars r = .ok (k, t) →
          (E.H.Key k a.2.sax.1).1 = true → Ws t (Ch.colon :: t₁) → Ws t₁ u → Begins E u
  | _ => True

theorem Lexed.congr (h : Lexed E s p t) (hs : q.sax = p.sax) : Lexed E s q t := by
  unfold Lexed
  rw [hs]
  exact h

theorem Lexed.ws (h : Lexed E s p t) (hw : Ws t u) : Lexed E s p u := Tokens.ws h hw

theorem Lexed.call {e : Event} (h : Lexed E s p t) (he : Token E.F E.parseFlags t e u) :
    Lexed E s (p.call (E.H.told e)).2 u := .token h he

/-! ### Steps -/

theorem shows_doc_end (h : Lexed E s p t) : Shows E pad s (.doc_end, p) := ⟨t, h, .inl rfl⟩

theorem shows_check_err {f : Parser (σ × Log) → Label × Parser (σ × Log)} (h : Lexed E s p t)
    (hf : p.err_ = .kErrorNone → Shows E pad s (f p)) : Shows E pad s (p.sonic_check_err f) := by
  rw [sonic_check_err]
  split
  · exact shows_doc_end (h.congr rfl)
  · exact hf (not_not.mp ‹_›)

theorem shows_sax_check {f : Parser (σ × Log) → Label × Parser (σ × Log)} {x : Bool × Parser (σ × Log)}
    (h : Lexed E s x.2 t) (hf : x.1 = true → Shows E pad s (f x.2)) :
    Shows E pad s (sonic_sax_check x f) := by
  rw [sonic_sax_check]
  split
  · exact hf ‹_›
  · exact shows_doc_end (h.congr rfl)

section
variable (hpad : Sentinel pad)
include hpad

theorem shows_SkipSpace (h : OnText p pad t) (hp : Lexed E s p t) :
    Shows E pad s (lbl, p.SkipSpace) := by
  cases ht : t.dropWhile IsSpace with
  | nil =>
    obtain ⟨r, hr⟩ := hpad.dropWhile
    exact ⟨t, hp.congr rfl,
      .inr (.inl (h.toReads.SkipSpace ((append_dropWhile_nil ht pad).trans hr)).2.1)⟩
  | cons b r =>
    have hw : Ws t (b :: r) := ht ▸ ws_dropWhile t
    exact ⟨b :: r, (hp.ws hw).congr rfl, .inr (.inr ⟨b, r, rfl, h.SkipSpace ht⟩)⟩

/-- Behind a value. -/
theorem shows_next (h : ReadTo E pad s p) :
    Shows E pad s (p.sonic_check_err fun p => (cont, p.SkipSpace)) := by
  obtain ⟨t, hp, hon⟩ := h
  exact shows_check_err hp fun he => shows_SkipSpace hpad (hon he) hp

theorem shows_scope_end (h : OnText p pad t) (hp : Lexed E s p t) : Shows E pad s p.scope_end := by
  refine shows_check_err hp fun _ => ?_
  dsimp only
  split
  · exact shows_doc_end (hp.congr rfl)
  · exact shows_SkipSpace hpad (h.setDepth _) (hp.congr rfl)

/-- The end of a container. -/
theorem shows_end {e : Event} (he : Token E.F E.parseFlags (b :: r) e r) (h : OnText p pad r)
    (hp : Lexed E s p (b :: r)) :
    Shows E pad s (sonic_sax_check (p.call (E.H.told e)) scope_end) :=
  shows_sax_check (hp.call he) fun _ => shows_scope_end hpad (h.call _) (hp.call he)

/-- The end of a container is found at once, or not. -/
theorem shows_first {c : UInt8} {e : Event} (he : ∀ r, Token E.F E.parseFlags (c :: r) e r)
    (h : OnText p pad t) (hp : Lexed E s p t) (hx : c ≠ Ch.x) :
    Shows E pad s (if p.SkipSpace.c = c then sonic_sax_check (p.SkipSpace.call (E.H.told e)) scope_end
      else (lbl, p.SkipSpace)) := by
  split
  · rename_i hc
    obtain ⟨r, hw, hg⟩ := h.SkipSpace_inv hpad hc hx
    exact shows_end hpad (he r) hg.toOnText ((hp.ws hw).congr rfl)
  · exact shows_SkipSpace hpad h hp

theorem shows_start_object (h : OnText p pad r) (hp : Lexed E s p (Ch.lbrace :: r)) :
    Shows E pad s (p.start_object E.logged) := by
  have hp' := hp.call (.startObject r)
  refine shows_sax_check hp' fun _ => ?_
  exact shows_first (e := .EndObject 0) hpad (.endObject 0) ((h.call _).setDepth _) (hp'.congr rfl)
    (by decide)

theorem shows_start_array (h : OnText p pad r) (hp : Lexed E s p (Ch.lbrack :: r)) :
    Shows E pad s (p.start_array E.logged) := by
  have hp' := hp.call (.startArray r)
  refine shows_sax_check hp' fun _ => ?_
  exact shows_first (e := .EndArray 0) hpad (.endArray 0) ((h.call _).setDepth _) (hp'.congr rfl)
    (by decide)

/-- A string that is not open is one of the text, and the handler is told of it. -/
theorem parseStr_closed {e : Bytes → Event} (h : OnText p pad r)
    (hopen : ∀ k, ¬OpenString E.parseFlags.kParseAllowUnescapedControlChars r k) :
    (p.parseStr E.logged fun k => E.H.told (e k)).2.err_ ≠ .kErrorNone ∧
        (p.parseStr E.logged fun k => E.H.told (e k)).2.sax = p.sax ∨
      ∃ k t q, unescape E.parseFlags.kParseAllowUnescapedControlChars r = .ok (k, t) ∧
        OnText q pad t ∧ q.sax = p.sax ∧
        (p.parseStr E.logged fun k => E.H.told (e k)) = q.call (E.H.told (e k)) := by
  rw [parseStr]
  by_cases herr : (p.parseStringHelper E.logged).2.err_ = .kErrorNone
  · rcases h.string_cases hpad herr with ⟨k, t, hk⟩ | ⟨k, hk⟩
    · obtain ⟨q, h1, h2, -, h4⟩ := h.string (E := E.logged) hk
      refine .inr ⟨k, t, q, hk, h2, h4, ?_⟩
      rw [h1]
      dsimp only
      rw [if_neg (not_not.mpr h2.err)]
    · exact absurd hk (hopen k)
  · dsimp only
    rw [if_pos herr]
    exact .inl ⟨herr, rfl⟩

theorem readTo_string (h : OnText p pad r)
    (hopen : ∀ k, ¬OpenString E.parseFlags.kParseAllowUnescapedControlChars r k)
    (hp : Lexed E s p (Ch.quote :: r)) :
    ReadTo E pad s (p.parseStrInPlace E.logged).2 := by
  rcases parseStr_closed (e := fun k => .primitive (.String k)) hpad h hopen
    with ⟨herr, hsax⟩ | ⟨k, t, q, hk, hq, hsax, heq⟩
  · exact ⟨_, hp.congr hsax, fun h0 => absurd h0 herr⟩
  · rw [show p.parseStrInPlace E.logged = q.call (E.H.told (.primitive (.String k))) from heq]
    exact ⟨t, (hp.congr hsax).call (.string hk), fun _ => hq.call _⟩

theorem readTo_number (hF : E.F.Stops) (h : Got p pad b r) (hp : Lexed E s p (b :: r))
    (hal : ∀ tok t, b :: r = tok ++ t → NumToken tok t → Alone tok t ∨ Fast E.F E.parseFlags tok) :
    ReadTo E pad s (p.parseNumber E.logged) := by
  have hev := fun e => @parseNumber_event E.F E.parseFlags p.json_buf_ (b :: r ++ pad) (p.pos_ - 1)
    p.len_ e h.byte
  have htold := @parseNumber_told E.F E.parseFlags p.json_buf_ p.len_ p.pos_
  have hon := @number_onText _ E.logged p pad
  rw [h.pos, h.buf.left.slice_eq] at hev
  unfold Parser.parseNumber at hon ⊢
  dsimp only [Env.logged] at hon ⊢
  generalize SonicJson.parseNumber E.F E.parseFlags p.json_buf_ p.len_ p.pos_ = x at hev htold hon ⊢
  cases hx : x.ev with
  | none =>
    refine ⟨b :: r, hp.congr rfl, fun he => ?_⟩
    exact absurd (htold he) (by rw [hx]; decide)
  | some e =>
    rw [hx] at hon
    obtain ⟨tok, t', htok, h1, h2, h3⟩ := hev e hx
    obtain ⟨t, h4, rfl⟩ := hpad.split htok.symm (numTok_no_x h1.numTok)
    have h1' : NumToken tok t := h1.left
    have hres : (numRes E.F E.parseFlags tok).ev = some e := by
      refine h3 ((hal tok t h4 h1').imp_left fun ha => ?_)
      rw [h4, hF tok t h1' ha]
    rw [h4] at hp
    refine ⟨t, (hp.call (.number h1' hres)).congr rfl, fun he => hon ?_ he⟩
    have h5 := h.byte
    rw [← List.cons_append, h4, List.append_assoc] at h5
    have h6 : 0 < tok.length := by
      obtain ⟨c, u, rfl, -⟩ := h1.numTok.cons_head
      exact Nat.succ_pos _
    have h7 := h.pos
    exact h.toOnText.move (by omega) (h2 ▸ h5.append)

omit hpad in
/-- A literal of the text, if it is one. -/
theorem readTo_literal {lit lit' : Bytes} {i m : ℕ} {e : Scalar} (h : Got p pad b r)
    (hp : Lexed E s p (b :: r)) (he : EqBytes4 p.json_buf_ i lit' = true → ∃ t, b :: r = lit ++ t)
    (hm : lit.length = m + 1) (ht : ∀ t, Token E.F E.parseFlags (lit ++ t) (.primitive e) t) :
    ReadTo E pad s (if EqBytes4 p.json_buf_ i lit'
      then call { p with pos_ := p.pos_ + m } (E.H.told (.primitive e))
      else (false, p.setParseError .kParseErrorInvalidChar)).2 := by
  split
  · obtain ⟨t, hr⟩ := he ‹_›
    have h1 := h.byte
    rw [← List.cons_append, hr, List.append_assoc] at h1
    have h2 := h1.append
    have hpos := h.pos
    rw [hm, show p.pos_ - 1 + (m + 1) = p.pos_ + m by omega] at h2
    rw [hr] at hp
    exact ⟨t, Lexed.call (p := { p with pos_ := p.pos_ + m }) (hp.congr rfl) (ht t),
      fun _ => (h.toOnText.move (Nat.le_add_right _ _) h2).call _⟩
  · exact ⟨b :: r, hp.congr rfl, fun h0 => absurd h0 (by simp [setParseError])⟩

theorem readTo_true (h : Got p pad b r) (hp : Lexed E s p (b :: r)) :
    ReadTo E pad s (p.parseTrue E.logged).2 :=
  readTo_literal h hp (fun he => h.buf.eqBytes_inv hpad he (by decide)) rfl .true

theorem readTo_null (h : Got p pad b r) (hp : Lexed E s p (b :: r)) :
    ReadTo E pad s (p.parseNull E.logged).2 :=
  readTo_literal h hp (fun he => h.buf.eqBytes_inv hpad he (by decide)) rfl .null

theorem readTo_false (h : Got p pad Ch.f r) (hp : Lexed E s p (Ch.f :: r)) :
    ReadTo E pad s (p.parseFalse E.logged).2 := by
  refine readTo_literal h hp (fun he => ?_) rfl .false
  obtain ⟨t, rfl⟩ := h.toOnText.buf.eqBytes_inv hpad he (by decide)
  exact ⟨t, rfl⟩

theorem shows_value (hF : E.F.Stops) (h : Got p pad b r) (hp : Lexed E s p (b :: r))
    (hbeg : Begins E (b :: r)) :
    Shows E pad s (p.value E.logged cont) := by
  have literal : ∀ {x : Bool × Parser (σ × Log)}, ReadTo E pad s x.2 →
      Shows E pad s (x.2.sonic_check_err fun p =>
        if !x.1 then (.doc_end, p.setParseError .kSaxTermination) else (cont, p.SkipSpace)) := by
    rintro x ⟨t, hx, hon⟩
    refine shows_check_err hx fun he => ?_
    split
    · exact shows_doc_end (hx.congr rfl)
    · exact shows_SkipSpace hpad (hon he) hx
  rw [value, h.c]
  split
  · rename_i hb
    subst hb
    exact shows_start_object hpad h.toOnText hp
  split
  · rename_i hb
    subst hb
    exact shows_start_array hpad h.toOnText hp
  split
  · exact shows_next hpad (readTo_number hpad hF h hp hbeg.number)
  split
  · exact literal (readTo_true hpad h hp)
  split
  · rename_i hb
    subst hb
    exact literal (readTo_false hpad h hp)
  split
  · exact literal (readTo_null hpad h hp)
  split
  · rename_i hb
    subst hb
    have hx := readTo_string hpad h.toOnText (fun k => hbeg.string r k rfl) hp
    obtain ⟨t, ht, -⟩ := id hx
    exact shows_sax_check ht fun _ => shows_next hpad hx
  · exact shows_doc_end (hp.congr rfl)

/-- Behind a key that is refused. -/
theorem shows_skip_key (h : OnText p pad t) (hp : ∀ u, u <:+ t → Lexed E s p u) :
    Shows E pad s (p.skip_key E.logged) := by
  obtain ⟨h1, h2⟩ := @SkipOne_bounds E.logged.A _ _ _ _ _ ⟨h.buf.left, h.valid⟩
  rw [skip_key]
  rcases hr : SkipOne E.logged.A p.json_buf_ p.pos_ p.len_ p.scan with ⟨start, pos, k⟩
  rw [hr] at h1 h2
  dsimp only at h1 h2 ⊢
  have hp₀ := hp t List.suffix_rfl
  split
  · exact shows_doc_end (hp₀.congr rfl)
  rcases token_got (E := E.logged) h h1 h2 with ⟨q, hq⟩ | ⟨c, u, htok, hsuf, hq, hg⟩
  · rw [hq]
    exact shows_doc_end (hp₀.congr rfl)
  · rw [hq]
    simp only [List.contains_cons, List.contains_nil, Bool.or_false, Bool.or_eq_true,
      beq_iff_eq] at htok
    have hu := hp (c :: u) hsuf
    rcases htok with rfl | rfl
    · exact ⟨Ch.quote :: u, hu.congr rfl, .inr (.inr ⟨Ch.quote, u, rfl, hg⟩)⟩
    · exact shows_end hpad (.endObject p.back u) hg.toOnText (hu.congr rfl)

theorem shows_obj_key (hF : E.F.Stops) (h : Got p pad b r) (hp : Lexed E s p (b :: r))
    (hsound : Sound E (.obj_key, p)) :
    Shows E pad s (p.obj_key E.logged) := by
  have hsl : slice p.json_buf_ p.pos_ p.len_ = r := h.toOnText.buf.left.slice_eq
  rw [obj_key]
  by_cases hq : p.c = Ch.quote
  swap
  · rw [if_pos hq]
    exact shows_doc_end (hp.congr rfl)
  rw [if_neg (not_not.mpr hq)]
  obtain ⟨hopen, hval⟩ := hsound hq
  dsimp only at hopen hval
  rw [hsl] at hopen hval
  obtain rfl : b = Ch.quote := h.c.symm.trans hq
  rcases parseStr_closed (e := .Key) hpad h.toOnText hopen
    with ⟨herr, hsax⟩ | ⟨k, t, q, hk, hon, hsax, heq⟩
  · refine shows_check_err (hp.congr hsax) fun h0 => absurd h0 herr
  rw [show p.parseKeyInPlace E.logged = q.call (E.H.told (.Key k)) from heq]
  have hx : Lexed E s (q.call (E.H.told (.Key k))).2 t := (hp.congr hsax).call (.key hk)
  refine shows_check_err hx fun _ => ?_
  have ht := hon.call (E.H.told (.Key k))
  by_cases hc : (q.call (E.H.told (.Key k))).2.SkipSpace.c = Ch.colon
  swap
  · rw [if_pos hc]
    exact shows_doc_end (hx.congr rfl)
  rw [if_neg (not_not.mpr hc)]
  obtain ⟨t₁, hw, hg⟩ := ht.SkipSpace_inv hpad hc (by decide)
  have hx₁ : Lexed E s (q.call (E.H.told (.Key k))).2 t₁ := (hx.ws hw).gap (.inr (.inr rfl))
  have hanswer : (q.call (E.H.told (.Key k))).1 = (E.H.Key k p.sax.1).1 := by
    rw [← hsax]
    rfl
  split
  · rename_i hno
    have hfalse : (q.call (E.H.told (.Key k))).1 = false := by simpa using hno
    split
    · refine shows_skip_key hpad hg.toOnText fun u hu => ?_
      -- the answer is in the log
      have hlog : (q.call (E.H.told (.Key k))).2.sax.2 = q.sax.2 ++ [(.Key k, false)] := by
        rw [← hfalse]
        rfl
      unfold Lexed at hx₁ ⊢
      rw [hlog] at hx₁
      exact hlog ▸ hx₁.skipped hu
    · exact shows_doc_end (hx₁.congr rfl)
  rename_i hyes
  have htrue : (E.H.Key k p.sax.1).1 = true := by
    rw [← hanswer]
    simpa using hyes
  cases hd : t₁.dropWhile IsSpace with
  | nil =>
    obtain ⟨u, hu⟩ := hpad.dropWhile
    have hcx := (hg.toOnText.toReads.SkipSpace ((append_dropWhile_nil hd pad).trans hu)).2.1
    rw [value, hcx]
    exact shows_doc_end (hx₁.congr rfl)
  | cons b u =>
    have hw₁ : Ws t₁ (b :: u) := hd ▸ ws_dropWhile t₁
    exact shows_value hpad hF (hg.toOnText.SkipSpace hd) ((hx₁.ws hw₁).congr rfl)
      (hval k t t₁ (b :: u) hk htrue hw hw₁)

/-- **A step tells the handler of the tokens it reads.** -/
theorem shows_step (hF : E.F.Stops) {a a' : Label × Parser (σ × Log)} (h : Shows E pad s a)
    (hsound : Sound E a) (ha : step E.logged a = some a') : Shows E pad s a' := by
  obtain ⟨lbl, p⟩ := a
  obtain ⟨t, hp, hc⟩ := h
  by_cases hl : lbl = .doc_end
  · subst hl
    exact absurd ha (by simp [step])
  have hcount : ∀ {f : Parser (σ × Log) → Label × Parser (σ × Log)},
      (∀ ds, Shows E pad s (f (p.setDepth ds))) →
      Shows E pad s (f p.count) := by
    intro f hf
    unfold count
    split
    · exact hf p.depth
    · exact hf _
  rcases hc with hc | hc | ⟨b, r, rfl, hg⟩
  · exact absurd hc hl
  · obtain ⟨q, h1, h2⟩ := @step_x _ E.logged p lbl hl hc
    obtain rfl := Option.some.inj (h1.symm.trans ha)
    exact shows_doc_end (hp.congr h2)
  cases lbl with
  | obj_key =>
    obtain rfl := Option.some.inj ha
    exact shows_obj_key hpad hF hg hp hsound
  | obj_cont =>
    obtain rfl := Option.some.inj ha
    refine hcount (f := fun p => if p.c = Ch.comma then (.obj_key, p.SkipSpace)
      else if p.c ≠ Ch.rbrace then p.err_invalid_char
      else sonic_sax_check (p.call (E.logged.H.EndObject p.back)) scope_end) fun ds => ?_
    have hg' := hg.setDepth ds
    have hp' : Lexed E s (p.setDepth ds) (b :: r) := hp.congr rfl
    rw [hg'.c]
    split
    · exact shows_SkipSpace hpad hg'.toOnText (hp'.gap (.inr (.inl ‹_›)))
    split
    · exact shows_doc_end (hp'.congr rfl)
    · obtain rfl : b = Ch.rbrace := not_not.mp ‹_›
      exact shows_end hpad (.endObject _ r) hg'.toOnText hp'
  | arr_val =>
    obtain rfl := Option.some.inj ha
    exact shows_value hpad hF hg hp (hg.buf.left.slice_eq ▸ hsound)
  | arr_cont =>
    obtain rfl := Option.some.inj ha
    refine hcount (f := fun p => if p.c = Ch.comma then (.arr_val, p.SkipSpace)
      else if p.c = Ch.rbrack
        then sonic_sax_check (p.call (E.logged.H.EndArray (p.back &&& (kArrMask - 1)))) scope_end
      else p.err_invalid_char) fun ds => ?_
    have hg' := hg.setDepth ds
    have hp' : Lexed E s (p.setDepth ds) (b :: r) := hp.congr rfl
    rw [hg'.c]
    split
    · exact shows_SkipSpace hpad hg'.toOnText (hp'.gap (.inr (.inl ‹_›)))
    split
    · rename_i hb
      subst hb
      exact shows_end hpad (.endArray _ r) hg'.toOnText hp'
    · exact shows_doc_end (hp'.congr rfl)
  | doc_end => exact absurd rfl hl

theorem lexed_parsePrimitives (hF : E.F.Stops) (h : Got p pad b r) (hp : Lexed E s p (b :: r))
    (hbeg : Begins E (b :: r)) :
    ∃ t, Lexed E s (p.parsePrimitives E.logged) t := by
  have ended : ∀ {x : Bool × Parser (σ × Log)}, ReadTo E pad s x.2 →
      ∃ t, Lexed E s (if !x.1 then x.2.setFirstError .kSaxTermination else x.2) t := by
    rintro x ⟨t, hx, -⟩
    refine ⟨t, ?_⟩
    split
    · exact hx.congr rfl
    · exact hx
  rw [parsePrimitives, h.c]
  dsimp only
  split
  · obtain ⟨t, ht, -⟩ := readTo_number hpad hF h hp hbeg.number
    exact ⟨t, ht⟩
  split
  · rename_i hb
    subst hb
    have hx := readTo_string hpad h.toOnText (fun k => hbeg.string r k rfl) hp
    split
    · obtain ⟨t, ht, -⟩ := hx
      exact ⟨t, ht.congr rfl⟩
    · exact ended hx
  split
  · rename_i hb
    subst hb
    exact ended (readTo_false hpad h hp)
  split
  · exact ended (readTo_true hpad h hp)
  split
  · exact ended (readTo_null hpad h hp)
  · exact ⟨b :: r, hp.congr rfl⟩

theorem shows_start (hF : E.F.Stops) (h : OnText p pad s) (hp : Lexed E s p s)
    (hbeg : Begins E (s.dropWhile IsSpace)) :
    Shows E pad s (p.start E.logged) := by
  rw [start]
  cases hd : s.dropWhile IsSpace with
  | nil =>
    obtain ⟨u, hu⟩ := hpad.dropWhile
    have hc := (h.toReads.SkipSpace ((append_dropWhile_nil hd pad).trans hu)).2.1
    rw [hc, parsePrimitives, hc]
    exact shows_doc_end (hp.congr rfl)
  | cons b r =>
    rw [hd] at hbeg
    have hg := h.SkipSpace hd
    have hw : Ws s (b :: r) := hd ▸ ws_dropWhile s
    have hp' : Lexed E s p.SkipSpace (b :: r) := (hp.ws hw).congr rfl
    rw [hg.c]
    split
    · rename_i hb
      subst hb
      exact shows_start_array hpad hg.toOnText hp'
    split
    · rename_i hb
      subst hb
      exact shows_start_object hpad hg.toOnText hp'
    · obtain ⟨t, ht⟩ := lexed_parsePrimitives hpad hF hg hp' hbeg
      exact shows_doc_end ht

/-- **The callbacks of a parse are the tokens of the text**, in front of the position in every state
of the run, and at its end. -/
theorem Parse_tokens (hF : E.F.Stops) (s₀ : σ) (hbeg : Begins E (s.dropWhile IsSpace))
    (hsound : ∀ n a, Steps (step E.logged) n ((logged_reset s pad s₀).start E.logged) a → Sound E a) :
    (∀ n a, Steps (step E.logged) n ((logged_reset s pad s₀).start E.logged) a → Shows E pad s a) ∧
    ∃ q t, Parse E.logged (s ++ pad) s.length (s₀, []) = some q ∧
      Tokens E.F E.parseFlags s q.sax.2 t := by
  have hon : OnText (logged_reset s pad s₀) pad s := onText_reset s pad _
  have hstart : Shows E pad s ((logged_reset s pad s₀).start E.logged) :=
    shows_start hpad hF hon .nil hbeg
  have hrun : ∀ n a, Steps (step E.logged) n ((logged_reset s pad s₀).start E.logged) a →
      Shows E pad s a := by
    intro n a ha
    exact ha.invariant_of (fun a b hinv hgood hs => shows_step hpad hF hinv hgood hs) hsound hstart
  refine ⟨hrun, ?_⟩
  obtain ⟨n, q, h1, h2⟩ := parseImpl_isSome hpad hon (E := E.logged)
  obtain ⟨r, h3, h4, -⟩ := parseAll_eq h2
  obtain ⟨t, ht, -⟩ := hrun n _ h1
  exact ⟨r, t, h3, ht.congr h4⟩

end

/-- The parser with a handler that accepts everything. -/
abbrev acceptingEnv : Env Unit := ⟨.avx2, floatConv, kParseDefault, Object.accepting⟩

/-- The text `[1]`. -/
theorem Parse_tokens_array :
    (∀ n a, Steps (step acceptingEnv.logged) n
      ((logged_reset [91, 49, 93] (Ch.x :: Ch.quote :: Ch.x :: List.replicate 61 0) ()).start
        acceptingEnv.logged) a →
      Shows acceptingEnv (Ch.x :: Ch.quote :: Ch.x :: List.replicate 61 0) [91, 49, 93] a) ∧
    ∃ q t, Parse acceptingEnv.logged ([91, 49, 93] ++ Ch.x :: Ch.quote :: Ch.x ::
      List.replicate 61 0) 3 ((), []) = some q ∧
      Tokens floatConv kParseDefault [91, 49, 93] q.sax.2 t := by
  refine Parse_tokens (E := acceptingEnv) (Document.sentinel (List.replicate 61 0)) floatConv_stops
    () ⟨?_, ?_⟩ fun n a ha => ?_
  · intro r k hr
    exact absurd (List.cons.inj hr).1 (by decide)
  · intro tok t ht htok
    have hhead : List.dropWhile IsSpace [91, 49, 93] = Ch.lbrack :: [49, 93] := by decide
    exact absurd (htok.numTok.head_append (hhead.symm.trans ht)) (by decide)
  · have hmem := @Steps.mem_trace _ _ _ 4 _ _ ha (by decide +kernel)
    obtain ⟨hval, hkey⟩ :=
      (show ∀ a ∈ trace _ 4 _, (a.1 = .arr_val → slice a.2.json_buf_ (a.2.pos_ - 1) a.2.len_ =
      [49, 93]) ∧
      a.1 ≠ .obj_key by decide +kernel) a hmem
    obtain ⟨lbl, p⟩ := a
    cases lbl with
    | arr_val =>
      have hsl : slice p.json_buf_ (p.pos_ - 1) p.len_ = [49, 93] := hval rfl
      show Begins acceptingEnv (slice p.json_buf_ (p.pos_ - 1) p.len_)
      rw [hsl]
      refine ⟨fun r k hr => absurd (List.cons.inj hr).1 (by decide), fun tok t ht htok => .inl ?_⟩
      rcases List.cons_eq_append_iff.mp ht with ⟨rfl, -⟩ | ⟨tok, rfl, h1⟩
      · obtain ⟨b, r, hb, -⟩ := htok.numTok.cons_head
        exact absurd hb (by simp)
      rcases List.cons_eq_append_iff.mp h1 with ⟨rfl, rfl⟩ | ⟨tok, rfl, h2⟩
      · refine ⟨fun b r hb => ?_, by decide⟩
        rw [← (List.cons.inj hb).1]
        exact ⟨by decide, fun hc => absurd hc (by decide)⟩
      · obtain ⟨rfl, rfl⟩ := List.nil_eq_append_iff.mp h2
        exact ⟨fun b r hb => absurd hb (by simp), by decide⟩
    | obj_key => exact absurd rfl hkey
    | _ => trivial

/-- **The sentinel shows** in a string that is open at the end of the text: of `["a` the handler is
told the string `ax`. -/
theorem Parse_open_string : ∃ q,
    Parse acceptingEnv.logged ([91, 34, 97] ++ Ch.x :: Ch.quote :: Ch.x :: List.replicate 61 0) 3
      ((), []) = some q ∧
      ¬∃ t, Tokens floatConv kParseDefault [91, 34, 97] q.sax.2 t := by
  have hev :
      (Parse acceptingEnv.logged ([91, 34, 97] ++ Ch.x :: Ch.quote :: Ch.x :: List.replicate 61 0) 3
      ((), [])).map
      (fun q => q.sax.2) = some [(.StartArray, true), (.primitive (.String [97, Ch.x]), true)] := by
        decide +kernel
  obtain ⟨q, h1, h2⟩ := Option.map_eq_some_iff.mp hev
  refine ⟨q, h1, ?_⟩
  rintro ⟨t, ht⟩
  obtain ⟨u, w, hu, hb⟩ := ht.exists_token (.primitive (.String [97, Ch.x]), true) (by rw [h2]; simp)
  generalize he : Event.primitive (.String [97, Ch.x]) = e at hb
  cases hb with
  | @number tok t e htok _ =>
    obtain ⟨b, r, rfl, hb⟩ := htok.numTok.cons_head
    have hmem : b ∈ [91, 34, 97] := hu.subset List.mem_cons_self
    simp only [List.mem_cons, List.not_mem_nil, or_false] at hmem
    rcases hmem with rfl | rfl | rfl <;> exact absurd hb (by decide)
  | @string r k t hk =>
    obtain ⟨a, ha⟩ := hu
    have hr : r = [97] := by
      match a, ha with
      | [], ha => exact absurd (List.cons.inj ha).1 (by decide)
      | [_], ha => exact (List.cons.inj (List.cons.inj ha).2).2
      | [_, _], ha => exact absurd (List.cons.inj (List.cons.inj (List.cons.inj ha).2).2).1 (by decide)
      | _ :: _ :: _ :: a, ha => simp at ha
    rw [hr, unescape_plain ⟨by decide, by decide, .inr (by decide)⟩, unescape_nil] at hk
    exact absurd hk (by simp [emit])
  | _ => exact absurd he (by simp)

end Parser

end SonicJson
