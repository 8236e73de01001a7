/-
# What a string denotes

`unescape allow s` decodes the text `s` after an opening quote byte by byte, as
the scalar decoder of the library does, and returns the decoded bytes and what
is left after the closing quote, or the code of the leftmost violation. With
`allow` raw control characters are kept. The code `kParseErrorEof` says that
the text ended before the string did; the parser's sentinel excludes it
(`unescape_sentinel`). Without `allow` it decides the grammar of strings
(`unescape_eq_ok_iff`).
-/
import SonicJson.Unicode

namespace SonicJson

/-- A decoded prefix in front of what the rest decodes to. -/
def emit (w : Bytes) : Except SonicError (Bytes × Bytes) → Except SonicError (Bytes × Bytes)
  | .ok (body, t) => .ok (w ++ body, t)
  | .error e => .error e

@[simp] theorem emit_ok (w body t : Bytes) : emit w (.ok (body, t)) = .ok (w ++ body, t) := rfl

@[simp] theorem emit_error (w : Bytes) (e : SonicError) : emit w (.error e) = .error e := rfl

theorem emit_emit (v w : Bytes) (r : Except SonicError (Bytes × Bytes)) :
    emit v (emit w r) = emit (v ++ w) r := by
  cases r with
  | error e => rfl
  | ok p => simp [emit]

theorem emit_nil (r : Except SonicError (Bytes × Bytes)) : emit [] r = r := by
  cases r <;> rfl

theorem emit_eq_ok {w body t : Bytes} {r : Except SonicError (Bytes × Bytes)}
    (h : emit w r = .ok (body, t)) :
    ∃ b, r = .ok (b, t) ∧ body = w ++ b := by
  cases r with
  | error e => simp at h
  | ok p =>
    obtain ⟨b, t'⟩ := p
    simp only [emit_ok, Except.ok.injEq, Prod.mk.injEq] at h
    exact ⟨b, by rw [h.2], h.1.symm⟩

theorem emit_eq_error {w : Bytes} {e : SonicError} {r : Except SonicError (Bytes × Bytes)}
    (h : emit w r = .error e) : r = .error e := by
  cases r with
  | error e => simpa using h
  | ok p => simp [emit] at h

def unescape (allow : Bool) (s : Bytes) : Except SonicError (Bytes × Bytes) :=
  match s with
  | [] => .error .kParseErrorEof
  | b :: r =>
    if b = Ch.quote then .ok ([], r)
    else if allow = false ∧ b ≤ 0x1f then .error .kParseErrorUnEscaped
    else if b = Ch.bslash then
      match r with
      | [] => .error .kParseErrorEof
      | c :: r' =>
        if c = Ch.u then
          match _h : unicodeEsc r' with
          | none => .error .kParseErrorEscapedUnicode
          | some (w, r'') => emit w (unescape allow r'')
        else
          match escChar c with
          | none => .error .kParseErrorEscapedFormat
          | some d => emit [d] (unescape allow r')
    else emit [b] (unescape allow r)
termination_by s.length
decreasing_by
  · obtain ⟨⟨u, rfl, -⟩, -⟩ := unicodeEsc_length _h
    simp
    omega
  · simp
  · simp

section
variable (allow : Bool) {b c d : UInt8} {r w t : Bytes}

@[simp] theorem unescape_nil : unescape allow [] = .error .kParseErrorEof := by rw [unescape]

@[simp] theorem unescape_quote : unescape allow (Ch.quote :: r) = .ok ([], r) := by
  rw [unescape.eq_def]
  simp only [if_true]

theorem unescape_bslash : unescape allow (Ch.bslash :: c :: r) =
    if c = Ch.u then
      match unicodeEsc r with
      | none => .error .kParseErrorEscapedUnicode
      | some (w, r') => emit w (unescape allow r')
    else
      match escChar c with
      | none => .error .kParseErrorEscapedFormat
      | some d => emit [d] (unescape allow r) := by
  have h1 : ¬ Ch.bslash = Ch.quote := by decide
  have h2 : ¬ Ch.bslash ≤ 0x1f := by decide
  rw [unescape.eq_def]
  simp only [h1, h2, and_false, if_false, if_true]
  split_ifs
  · cases unicodeEsc r <;> rfl
  · rfl

theorem unescape_bslash_nil : unescape allow [Ch.bslash] = .error .kParseErrorEof := by
  have h1 : ¬ Ch.bslash = Ch.quote := by decide
  have h2 : ¬ Ch.bslash ≤ 0x1f := by decide
  rw [unescape.eq_def]
  simp only [h1, h2, and_false, if_false, if_true]

/-- A byte that stands for itself. -/
def Plain (allow : Bool) (b : UInt8) : Prop := b ≠ Ch.quote ∧ b ≠ Ch.bslash ∧
    (allow = true ∨ ¬ b ≤ 0x1f)

variable {allow}

theorem unescape_plain (h : Plain allow b) : unescape allow (b :: r) = emit [b] (unescape allow r) := by
  obtain ⟨h1, h2, h3⟩ := h
  have h4 : ¬ (allow = false ∧ b ≤ 0x1f) := by
    rintro ⟨rfl, hb⟩
    simp [hb] at h3
  rw [unescape.eq_def]
  simp only [h1, h2, h4, if_false]

theorem unescape_control (h1 : b ≠ Ch.quote) (h2 : b ≤ 0x1f) :
    unescape false (b :: r) = .error .kParseErrorUnEscaped := by
  rw [unescape.eq_def]
  simp only [h1, h2, and_self, if_true, if_false]

theorem unescape_plain_append {a : Bytes} (h : ∀ b ∈ a, Plain allow b) :
    unescape allow (a ++ r) = emit a (unescape allow r) := by
  induction a with
  | nil => rw [List.nil_append, emit_nil]
  | cons b a ih =>
    rw [List.cons_append, unescape_plain (h b List.mem_cons_self),
      ih fun x hx => h x (List.mem_cons_of_mem _ hx), emit_emit]
    rfl

end

/-- The induction over what the decoder meets. -/
theorem unescape_induction {P : Bytes → Prop} (allow : Bool) (nil : P [])
    (quote : ∀ r, P (Ch.quote :: r))
    (control : ∀ b r, allow = false → b ≠ Ch.quote → b ≤ 0x1f → P (b :: r))
    (bslashNil : P [Ch.bslash]) (badUni : ∀ r, unicodeEsc r = none → P (Ch.bslash :: Ch.u :: r))
    (uni : ∀ r w r', unicodeEsc r = some (w, r') → P r' → P (Ch.bslash :: Ch.u :: r))
    (badEsc : ∀ c r, c ≠ Ch.u → escChar c = none → P (Ch.bslash :: c :: r))
    (esc : ∀ c d r, c ≠ Ch.u → escChar c = some d → P r → P (Ch.bslash :: c :: r))
    (plain : ∀ b r, Plain allow b → P r → P (b :: r)) : ∀ s, P s := by
  suffices ∀ n, ∀ s : Bytes, s.length ≤ n → P s from fun s => this _ s le_rfl
  intro n
  induction n with
  | zero =>
    intro s hs
    rw [List.length_eq_zero_iff.mp (Nat.le_zero.mp hs)]
    exact nil
  | succ n ih =>
    intro s hs
    rcases s with _ | ⟨b, r⟩
    · exact nil
    have hr : r.length ≤ n := by simpa using hs
    by_cases hq : b = Ch.quote
    · subst hq
      exact quote r
    by_cases hc : allow = false ∧ b ≤ 0x1f
    · exact control b r hc.1 hq hc.2
    by_cases hb : b = Ch.bslash
    · subst hb
      rcases r with _ | ⟨c, r⟩
      · exact bslashNil
      have hr' : r.length ≤ n := by
        simp at hr
        omega
      by_cases hu : c = Ch.u
      · subst hu
        cases he : unicodeEsc r with
        | none => exact badUni r he
        | some p =>
          obtain ⟨w, r'⟩ := p
          obtain ⟨⟨u, rfl, -⟩, -⟩ := unicodeEsc_length he
          refine uni _ w r' he (ih r' ?_)
          simp at hr'
          omega
      · cases he : escChar c with
        | none => exact badEsc c r hu he
        | some d => exact esc c d r hu he (ih r hr')
    · refine plain b r ⟨hq, hb, ?_⟩ (ih r hr)
      cases allow
      · exact .inr fun h => hc ⟨rfl, h⟩
      · exact .inl rfl

theorem escChar_u : escChar Ch.u = none := by decide

theorem unescape_esc {c d : UInt8} {r : Bytes} (allow : Bool) (h : escChar c = some d) :
    unescape allow (Ch.bslash :: c :: r) = emit [d] (unescape allow r) := by
  have hu : c ≠ Ch.u := fun he => by simp [he, escChar_u] at h
  rw [unescape_bslash, if_neg hu, h]

theorem unescape_uni {r w r' : Bytes} (allow : Bool) (h : unicodeEsc r = some (w, r')) :
    unescape allow (Ch.bslash :: Ch.u :: r) = emit w (unescape allow r') := by
  rw [unescape_bslash, if_pos rfl, h]

theorem unescape_badUni {r : Bytes} (allow : Bool) (h : unicodeEsc r = none) :
    unescape allow (Ch.bslash :: Ch.u :: r) = .error .kParseErrorEscapedUnicode := by
  rw [unescape_bslash, if_pos rfl, h]

theorem unescape_badEsc {c : UInt8} {r : Bytes} (allow : Bool) (hu : c ≠ Ch.u) (h : escChar c = none) :
    unescape allow (Ch.bslash :: c :: r) = .error .kParseErrorEscapedFormat := by
  rw [unescape_bslash, if_neg hu, h]

theorem not_le_of_ge {b : UInt8} (h : 0x20 ≤ b) : ¬ b ≤ 0x1f := by
  simp only [UInt8.le_iff_toNat_le, UInt8.reduceToNat] at *
  omega

theorem ge_of_not_le {b : UInt8} (h : ¬ b ≤ 0x1f) : 0x20 ≤ b := by
  simp only [UInt8.le_iff_toNat_le, UInt8.reduceToNat] at *
  omega

theorem unicodeEsc_unit {x y z w : UInt8} {cp : ℕ} {r : Bytes} (h : hex4 x y z w = some cp)
    (hl : ¬ IsLow cp) (hh : ¬ IsHigh cp) :
    unicodeEsc (x :: y :: z :: w :: r) = some (utf8 cp, r) := by
  simp only [unicodeEsc, h, hl, hh, if_false]

theorem unicodeEsc_pair {x y z w x' y' z' w' : UInt8} {hi lo : ℕ} {r : Bytes}
    (h : hex4 x y z w = some hi) (hh : IsHigh hi) (h' : hex4 x' y' z' w' = some lo)
    (hl : IsLow lo) :
    unicodeEsc (x :: y :: z :: w :: Ch.bslash :: Ch.u :: x' :: y' :: z' :: w' :: r) =
      some (utf8 (pairValue hi lo), r) := by
  have hn : ¬ IsLow hi := fun h => by
    have := h.1
    have := hh.2
    omega
  simp only [unicodeEsc, lowEsc, h, h', hn, hh, hl, and_self, if_true, if_false]

/-- A string of the grammar decodes to its body, also where control characters are allowed. -/
theorem StrBody.unescape {s body t : Bytes} (h : StrBody s body t) (allow : Bool) :
    unescape allow s = .ok (body, t) := by
  induction h with
  | quote t => simp
  | char h1 h2 h3 _ ih => simp [unescape_plain ⟨h1, h2, .inr (not_le_of_ge h3)⟩, ih]
  | esc h _ ih => simp [unescape_esc allow h, ih]
  | uni h hh hl _ ih =>
    rw [unescape_uni allow (unicodeEsc_unit h hl hh), ih]
    rfl
  | pair h hh h' hl _ ih =>
    rw [unescape_uni allow (unicodeEsc_pair h hh h' hl), ih]
    rfl

/-- What an escape that decodes is: a unit that is no surrogate, or a pair of surrogates. -/
theorem unicodeEsc_cases {s w r : Bytes} (h : unicodeEsc s = some (w, r)) :
    (∃ a b c d cp, s = a :: b :: c :: d :: r ∧ hex4 a b c d = some cp ∧ ¬ IsHigh cp ∧ ¬ IsLow cp ∧
    w = utf8 cp) ∨
    ∃ a b c d a' b' c' d' hi lo, s = a :: b :: c :: d :: Ch.bslash :: Ch.u :: a' :: b' :: c' ::
      d' :: r ∧
      hex4 a b c d = some hi ∧ IsHigh hi ∧ hex4 a' b' c' d' = some lo ∧ IsLow lo ∧
        w = utf8 (pairValue hi lo) := by
  unfold unicodeEsc at h
  split at h
  · split at h
    · simp at h
    · rename_i cp hcp
      split_ifs at h with hl hh
      · unfold lowEsc at h
        split at h
        · split_ifs at h with hxy
          obtain ⟨rfl, rfl⟩ := hxy
          split at h
          · simp at h
          · rename_i lo hlo
            split_ifs at h with hl'
            simp only [Option.some.injEq, Prod.mk.injEq] at h
            obtain ⟨rfl, rfl⟩ := h
            exact .inr ⟨_, _, _, _, _, _, _, _, _, _, rfl, hcp, hh, hlo, hl', rfl⟩
        · simp at h
      · simp only [Option.some.injEq, Prod.mk.injEq] at h
        obtain ⟨rfl, rfl⟩ := h
        exact .inl ⟨_, _, _, _, _, rfl, hcp, hh, hl, rfl⟩
  · simp at h

theorem strBody_of_unicodeEsc {r w r' body t : Bytes} (h : unicodeEsc r = some (w, r'))
    (hb : StrBody r' body t) :
    StrBody (Ch.bslash :: Ch.u :: r) (w ++ body) t := by
  rcases unicodeEsc_cases h with ⟨a, b, c, d, cp, rfl, h1, h2, h3, hw⟩ |
    ⟨a, b, c, d, a', b', c', d', hi, lo, rfl, h1, h2, h3, h4, hw⟩
  · rw [hw]
    exact .uni h1 h2 h3 hb
  · rw [hw]
    exact .pair h1 h2 h3 h4 hb

/-- **The decoder decides the grammar of strings.** -/
theorem unescape_eq_ok_iff {s body t : Bytes} :
    unescape false s = .ok (body, t) ↔ StrBody s body t := by
  refine ⟨?_, fun h => h.unescape false⟩
  revert body
  induction s using unescape_induction false with
  | nil => simp
  | quote r =>
    intro body h
    simp only [unescape_quote, Except.ok.injEq, Prod.mk.injEq] at h
    obtain ⟨rfl, rfl⟩ := h
    exact .quote _
  | control b r _ h1 h2 =>
    intro body h
    simp [unescape_control h1 h2] at h
  | bslashNil =>
    intro body h
    simp [unescape_bslash_nil] at h
  | badUni r h =>
    intro body h'
    simp [unescape_badUni false h] at h'
  | uni r w r' h ih =>
    intro body h'
    rw [unescape_uni false h] at h'
    obtain ⟨b, hb, rfl⟩ := emit_eq_ok h'
    exact strBody_of_unicodeEsc h (ih hb)
  | badEsc c r hu h =>
    intro body h'
    simp [unescape_badEsc false hu h] at h'
  | esc c d r hu h ih =>
    intro body h'
    rw [unescape_esc false h] at h'
    obtain ⟨b, hb, rfl⟩ := emit_eq_ok h'
    exact .esc h (ih hb)
  | plain b r hp ih =>
    intro body h'
    rw [unescape_plain hp] at h'
    obtain ⟨b', hb, rfl⟩ := emit_eq_ok h'
    exact .char hp.1 hp.2.1 (ge_of_not_le (by simpa using hp.2.2)) (ih hb)

theorem StrBody.unique {s b b' t t' : Bytes} (h : StrBody s b t) (h' : StrBody s b' t') :
    b = b' ∧ t = t' := by
  have := (h.unescape false).symm.trans (h'.unescape false)
  simpa using this

/-- What stands before the closing quote decodes to the body, whatever comes after it. -/
theorem StrBody.reopen {s body t : Bytes} (h : StrBody s body t) :
    ∀ {a : Bytes}, s = a ++ Ch.quote :: t → ∀ r : Bytes, SonicJson.unescape false (a ++ r) =
    emit body (SonicJson.unescape false r) := by
  -- an escape that is followed by the end of the string lies before the quote
  have split : ∀ {pre s a t : Bytes}, pre ++ s = a ++ Ch.quote :: t → t.length < s.length →
      ∃ a', a = pre ++ a' ∧ s = a' ++ Ch.quote :: t := by
    intro pre s a t he hlt
    rcases List.append_eq_append_iff.mp he with ⟨a', h1, h2⟩ | ⟨a', h1, h2⟩
    · exact ⟨a', h1, h2⟩
    · have hlen := congrArg List.length h2
      simp only [List.length_append, List.length_cons] at hlen
      obtain rfl := List.length_eq_zero_iff.mp (show a'.length = 0 by omega)
      exact ⟨[], by simpa using h1.symm, by simpa using h2.symm⟩
  induction h with
  | quote t =>
    intro a ha r
    have hlen := congrArg List.length ha
    simp only [List.length_append, List.length_cons] at hlen
    obtain rfl := List.length_eq_zero_iff.mp (show a.length = 0 by omega)
    rw [List.nil_append, emit_nil]
  | @char b s body t h1 h2 h3 hb ih =>
    intro a ha r
    obtain ⟨a', rfl, he⟩ := @split [b] _ _ _ ha hb.suffix.2
    rw [List.append_assoc, List.singleton_append, unescape_plain ⟨h1, h2, .inr (not_le_of_ge h3)⟩,
      ih he, emit_emit]
    rfl
  | @esc c d s body t hc hb ih =>
    intro a ha r
    obtain ⟨a', rfl, he⟩ := @split [Ch.bslash, c] _ _ _ ha hb.suffix.2
    rw [List.append_assoc]
    change SonicJson.unescape false (Ch.bslash :: c :: (a' ++ r)) = _
    rw [unescape_esc false hc, ih he, emit_emit]
    rfl
  | @uni x y z w cp s body t h1 h2 h3 hb ih =>
    intro a ha r
    obtain ⟨a', rfl, he⟩ := @split [Ch.bslash, Ch.u, x, y, z, w] _ _ _ ha hb.suffix.2
    rw [List.append_assoc]
    change SonicJson.unescape false (Ch.bslash :: Ch.u :: x :: y :: z :: w :: (a' ++ r)) = _
    rw [unescape_uni false (w := utf8 cp) (by simp [unicodeEsc, h1, h2, h3]; rfl), ih he, emit_emit]
  | @pair x y z w x' y' z' w' hi lo s body t h1 h2 h3 h4 hb ih =>
    intro a ha r
    have hlow : ¬ IsLow hi := fun hc => by
      have := hc.1
      have := h2.2
      omega
    obtain ⟨a', rfl, he⟩ := @split
      [Ch.bslash, Ch.u, x, y, z, w, Ch.bslash, Ch.u, x', y', z', w'] _ _ _ ha hb.suffix.2
    rw [List.append_assoc]
    change SonicJson.unescape false
      (Ch.bslash :: Ch.u :: x :: y :: z :: w :: Ch.bslash :: Ch.u :: x' :: y' :: z' :: w' ::
        (a' ++ r)) = _
    rw [unescape_uni false (w := utf8 (pairValue hi lo))
      (by simp [unicodeEsc, lowEsc, h1, h2, h3, h4, hlow]; rfl), ih he, emit_emit]

/-! ### The bytes a string takes -/

theorem escChar_ge {c d : UInt8} (h : escChar c = some d) : 0x20 ≤ c ∧ c ≠ Ch.x ∧ d ≠ 0 := by
  unfold escChar at h
  split_ifs at h <;> simp only [Option.some.injEq] at h <;> subst h <;> simp_all <;> decide

theorem hexDigit_ge {b : UInt8} {v : ℕ} (h : hexDigit b = some v) :
    0x20 ≤ b ∧ b ≠ Ch.x ∧ b ≠ Ch.quote := by
  have hne : ∀ c : UInt8, hexDigit c = none → b ≠ c := fun c hc he => by simp [← he, h] at hc
  refine ⟨?_, hne _ (by decide), hne _ (by decide)⟩
  unfold hexDigit at h
  simp only [UInt8.le_iff_toNat_le, UInt8.reduceToNat] at *
  split_ifs at h <;> omega

theorem hex4_ge {a b c d : UInt8} {cp : ℕ} (h : hex4 a b c d = some cp) :
    ∀ x ∈ [a, b, c, d], 0x20 ≤ x ∧ x ≠ Ch.x ∧ x ≠ Ch.quote := by
  unfold hex4 at h
  split at h
  · rename_i ha hb hc hd
    simp only [List.mem_cons, List.not_mem_nil, or_false, forall_eq_or_imp, forall_eq]
    exact ⟨hexDigit_ge ha, hexDigit_ge hb, hexDigit_ge hc, hexDigit_ge hd⟩
  · simp at h

/-- An escape takes no control character, no quote and no `x`. -/
theorem unicodeEsc_ge {s w r : Bytes} (h : unicodeEsc s = some (w, r)) :
    ∃ u, s = u ++ r ∧ ∀ x ∈ u, 0x20 ≤ x ∧ x ≠ Ch.x ∧ x ≠ Ch.quote := by
  unfold unicodeEsc at h
  split at h
  · split at h
    · simp at h
    · rename_i cp hcp
      have h1 := hex4_ge hcp
      split_ifs at h
      · unfold lowEsc at h
        split at h
        · split_ifs at h with hxy
          obtain ⟨rfl, rfl⟩ := hxy
          split at h
          · simp at h
          · rename_i lo hlo
            have h2 := hex4_ge hlo
            split_ifs at h
            simp only [Option.some.injEq, Prod.mk.injEq] at h
            obtain ⟨rfl, rfl⟩ := h
            refine ⟨[_, _, _, _, _, _, _, _, _, _], rfl, ?_⟩
            simp only [List.mem_cons, List.not_mem_nil, or_false, forall_eq_or_imp, forall_eq]
              at h1 h2 ⊢
            exact ⟨h1.1, h1.2.1, h1.2.2.1, h1.2.2.2, by decide, by decide, h2⟩
        · simp at h
      · simp only [Option.some.injEq, Prod.mk.injEq] at h
        obtain ⟨rfl, rfl⟩ := h
        exact ⟨[_, _, _, _], rfl, h1⟩
  · simp at h

/-- A decoded text ends with a quote, and has no raw control character before it unless they are
allowed. -/
theorem unescape_ok_text {allow : Bool} {s body t : Bytes} (h : unescape allow s = .ok (body, t)) :
    ∃ u, s = u ++ Ch.quote :: t ∧ body.length ≤ u.length ∧ (allow = false → ∀ b ∈ u, 0x20 ≤ b) := by
  revert body
  induction s using unescape_induction allow with
  | nil => simp
  | quote r =>
    intro body h
    simp only [unescape_quote, Except.ok.injEq, Prod.mk.injEq] at h
    obtain ⟨rfl, rfl⟩ := h
    exact ⟨[], rfl, by simp, by simp⟩
  | control b r ha h1 h2 =>
    intro body h
    subst ha
    simp [unescape_control h1 h2] at h
  | bslashNil =>
    intro body h
    simp [unescape_bslash_nil] at h
  | badUni r h =>
    intro body h'
    simp [unescape_badUni allow h] at h'
  | uni r w r' h ih =>
    intro body h'
    rw [unescape_uni allow h] at h'
    obtain ⟨b, hb, rfl⟩ := emit_eq_ok h'
    obtain ⟨u, rfl, hl, hu⟩ := ih hb
    obtain ⟨⟨v', hv', hvl⟩, hw⟩ := unicodeEsc_length h
    obtain ⟨v, rfl, hv⟩ := unicodeEsc_ge h
    have : v = v' := List.append_cancel_right hv'
    subst this
    refine ⟨Ch.bslash :: Ch.u :: (v ++ u), by simp, by simp; omega, fun ha b hb => ?_⟩
    simp only [List.mem_cons, List.mem_append] at hb
    rcases hb with rfl | rfl | hb | hb
    · decide
    · decide
    · exact (hv b hb).1
    · exact hu ha b hb
  | badEsc c r hu h =>
    intro body h'
    simp [unescape_badEsc allow hu h] at h'
  | esc c d r hu h ih =>
    intro body h'
    rw [unescape_esc allow h] at h'
    obtain ⟨b, hb, rfl⟩ := emit_eq_ok h'
    obtain ⟨u, rfl, hl, hu⟩ := ih hb
    refine ⟨Ch.bslash :: c :: u, by simp, by simp; omega, fun ha b hb => ?_⟩
    simp only [List.mem_cons] at hb
    rcases hb with rfl | rfl | hb
    · decide
    · exact (escChar_ge h).1
    · exact hu ha b hb
  | plain b r hp ih =>
    intro body h'
    rw [unescape_plain hp] at h'
    obtain ⟨b', hb, rfl⟩ := emit_eq_ok h'
    obtain ⟨u, rfl, hl, hu⟩ := ih hb
    refine ⟨b :: u, by simp, by simp; omega, fun ha c hc => ?_⟩
    simp only [List.mem_cons] at hc
    rcases hc with rfl | hc
    · exact ge_of_not_le (by simpa [ha] using hp.2.2)
    · exact hu ha c hc

theorem exists_of_append_x {u r a q : Bytes} (h : u ++ r = a ++ Ch.x :: q) (hu : Ch.x ∉ u) :
    ∃ a', r = a' ++ Ch.x :: q := by
  induction u generalizing a with
  | nil => exact ⟨a, h⟩
  | cons b u ih =>
    cases a with
    | nil =>
      simp only [List.cons_append, List.nil_append, List.cons.injEq] at h
      exact absurd h.1.symm (fun he => hu (he ▸ List.mem_cons_self))
    | cons c a =>
      simp only [List.cons_append, List.cons.injEq] at h
      exact ih h.2 fun hx => hu (List.mem_cons_of_mem _ hx)

/-- With the sentinel `x"` ahead the decoder never runs off the end of the text. -/
theorem unescape_sentinel (allow : Bool) {s a q : Bytes} (h : s = a ++ Ch.x :: Ch.quote :: q) :
    unescape allow s ≠ .error .kParseErrorEof := by
  revert a
  induction s using unescape_induction allow with
  | nil => simp
  | quote r => simp
  | control b r ha h1 h2 =>
    subst ha
    simp [unescape_control h1 h2]
  | bslashNil =>
    intro a h
    rcases a with _ | ⟨_, _ | ⟨_, _⟩⟩ <;> simp at h
  | badUni r h => simp [unescape_badUni allow h]
  | uni r w r' h ih =>
    intro a hs he
    rw [unescape_uni allow h] at he
    obtain ⟨u, rfl, hu⟩ := unicodeEsc_ge h
    obtain ⟨a', ha'⟩ := exists_of_append_x (u := Ch.bslash :: Ch.u :: u) hs (by
      simp only [List.mem_cons, not_or]
      exact ⟨by decide, by decide, fun hx => (hu _ hx).2.1 rfl⟩)
    exact ih ha' (emit_eq_error he)
  | badEsc c r hu h => simp [unescape_badEsc allow hu h]
  | esc c d r hu h ih =>
    intro a hs he
    rw [unescape_esc allow h] at he
    obtain ⟨a', ha'⟩ := exists_of_append_x (u := [Ch.bslash, c]) hs (by
      simp only [List.mem_cons, List.not_mem_nil, or_false, not_or]
      exact ⟨by decide, fun hx => (escChar_ge h).2.1 hx.symm⟩)
    exact ih ha' (emit_eq_error he)
  | plain b r hp ih =>
    intro a hs he
    rw [unescape_plain hp] at he
    have he' := emit_eq_error he
    cases a with
    | nil =>
      simp only [List.nil_append, List.cons.injEq] at hs
      rw [hs.2] at he'
      simp at he'
    | cons c a =>
      simp only [List.cons_append, List.cons.injEq] at hs
      exact ih hs.2 he'

/-! ### What comes after the string -/

/-- An escape decodes without a look at what follows it. -/
theorem unicodeEsc_local {s w r : Bytes} (h : unicodeEsc s = some (w, r)) :
    ∃ u, s = u ++ r ∧ ∀ z, unicodeEsc (u ++ z) = some (w, z) := by
  unfold unicodeEsc at h
  split at h
  · rename_i a b c d r'
    split at h
    · simp at h
    · rename_i cp hcp
      split_ifs at h with hl hh
      · unfold lowEsc at h
        split at h
        · rename_i x y a' b' c' d' r''
          split_ifs at h with hxy
          obtain ⟨rfl, rfl⟩ := hxy
          split at h
          · simp at h
          · rename_i lo hlo
            split_ifs at h with h2
            simp only [Option.some.injEq, Prod.mk.injEq] at h
            obtain ⟨rfl, rfl⟩ := h
            refine ⟨[a, b, c, d, Ch.bslash, Ch.u, a', b', c', d'], rfl, fun z => ?_⟩
            simp [unicodeEsc, lowEsc, hcp, hl, hh, hlo, h2]
        · simp at h
      · simp only [Option.some.injEq, Prod.mk.injEq] at h
        obtain ⟨rfl, rfl⟩ := h
        exact ⟨[a, b, c, d], rfl, fun z => by simp [unicodeEsc, hcp, hl, hh]⟩
  · simp at h

theorem unescape_append {allow : Bool} {s body t : Bytes} (h : unescape allow s = .ok (body, t))
    (z : Bytes) :
    unescape allow (s ++ z) = .ok (body, t ++ z) := by
  revert body
  induction s using unescape_induction allow with
  | nil => simp
  | quote r =>
    intro body h
    simp only [unescape_quote, Except.ok.injEq, Prod.mk.injEq] at h
    obtain ⟨rfl, rfl⟩ := h
    simp
  | control b r ha h1 h2 =>
    subst ha
    simp [unescape_control h1 h2]
  | bslashNil => simp [unescape_bslash_nil]
  | badUni r h => simp [unescape_badUni allow h]
  | uni r w r' h ih =>
    intro body hb
    rw [unescape_uni allow h] at hb
    obtain ⟨b, hb', rfl⟩ := emit_eq_ok hb
    obtain ⟨u, rfl, hu⟩ := unicodeEsc_local h
    rw [List.cons_append, List.cons_append, List.append_assoc, unescape_uni allow (hu _), ih hb',
      emit_ok]
  | badEsc c r hu h => simp [unescape_badEsc allow hu h]
  | esc c d r hu h ih =>
    intro body hb
    rw [unescape_esc allow h] at hb
    obtain ⟨b, hb', rfl⟩ := emit_eq_ok hb
    rw [List.cons_append, List.cons_append, unescape_esc allow h, ih hb', emit_ok]
  | plain b r hp ih =>
    intro body hb
    rw [unescape_plain hp] at hb
    obtain ⟨c, hb', rfl⟩ := emit_eq_ok hb
    rw [List.cons_append, unescape_plain hp, ih hb', emit_ok]

/-- A string in front of the sentinel ends in the text, or at the quote of the sentinel. -/
theorem unescape_before {allow : Bool} {S body T q : Bytes} (h : unescape allow S = .ok (body, T)) :
    ∀ s, S = s ++ (Ch.x :: Ch.quote :: q) →
      (∃ t, unescape allow s = .ok (body, t) ∧ T = t ++ (Ch.x :: Ch.quote :: q)) ∨
        T = q ∧ unescape allow (s ++ [Ch.x, Ch.quote]) = .ok (body, []) := by
  have split : ∀ {u r s : Bytes}, u ++ r = s ++ (Ch.x :: Ch.quote :: q) → Ch.x ∉ u →
      ∃ t, s = u ++ t ∧ r = t ++ (Ch.x :: Ch.quote :: q) := by
    intro u r s he hu
    obtain ⟨t, rfl⟩ := exists_of_append_x he hu
    rw [← List.append_assoc] at he
    exact ⟨t, (List.append_cancel_right he).symm, rfl⟩
  revert body
  induction S using unescape_induction allow with
  | nil => simp
  | quote r =>
    intro body h s hs
    simp only [unescape_quote, Except.ok.injEq, Prod.mk.injEq] at h
    obtain ⟨rfl, rfl⟩ := h
    obtain ⟨t, rfl, rfl⟩ := split (u := [Ch.quote]) hs (by decide)
    exact .inl ⟨t, by simp, rfl⟩
  | control b r ha h1 h2 =>
    subst ha
    simp [unescape_control h1 h2]
  | bslashNil => simp [unescape_bslash_nil]
  | badUni r h => simp [unescape_badUni allow h]
  | uni r w r' h ih =>
    intro body hb s hs
    rw [unescape_uni allow h] at hb
    obtain ⟨b, hb', rfl⟩ := emit_eq_ok hb
    obtain ⟨u, rfl, hu⟩ := unicodeEsc_local h
    obtain ⟨u', he, hx⟩ := unicodeEsc_ge h
    obtain rfl := List.append_cancel_right he
    obtain ⟨s, rfl, rfl⟩ := split (u := [Ch.bslash, Ch.u] ++ u) hs (by
      simp only [List.mem_append, not_or]
      exact ⟨by decide, fun h => (hx _ h).2.1 rfl⟩)
    rcases ih hb' s rfl with ⟨t, ht, hT⟩ | ⟨hT, ht⟩
    · exact .inl ⟨t,
        by rw [List.append_assoc]; exact (unescape_uni allow (hu s)).trans (by rw [ht, emit_ok]),
        hT⟩
    · refine .inr ⟨hT, ?_⟩
      rw [List.append_assoc, List.append_assoc]
      exact (unescape_uni allow (hu (s ++ [Ch.x, Ch.quote]))).trans (by rw [ht, emit_ok])
  | badEsc c r hu h => simp [unescape_badEsc allow hu h]
  | esc c d r hu h ih =>
    intro body hb s hs
    rw [unescape_esc allow h] at hb
    obtain ⟨b, hb', rfl⟩ := emit_eq_ok hb
    obtain ⟨s, rfl, rfl⟩ := split (u := [Ch.bslash, c]) hs (by
      simp only [List.mem_cons, List.not_mem_nil, or_false, not_or]
      exact ⟨by decide, fun hx => (escChar_ge h).2.1 hx.symm⟩)
    rcases ih hb' s rfl with ⟨t, ht, hT⟩ | ⟨hT, ht⟩
    · exact .inl ⟨t, (unescape_esc allow h : unescape allow (Ch.bslash :: c :: s) = _).trans
        (by rw [ht, emit_ok]), hT⟩
    · refine .inr ⟨hT, ?_⟩
      exact (unescape_esc allow h : unescape allow (Ch.bslash :: c :: (s ++ [Ch.x, Ch.quote])) =
        _).trans
        (by rw [ht, emit_ok])
  | plain b r hp ih =>
    intro body hb s hs
    rw [unescape_plain hp] at hb
    obtain ⟨c, hb', rfl⟩ := emit_eq_ok hb
    rcases s with _ | ⟨b', s⟩
    · obtain ⟨rfl, rfl⟩ := List.cons.inj hs
      simp only [unescape_quote, Except.ok.injEq, Prod.mk.injEq] at hb'
      obtain ⟨rfl, rfl⟩ := hb'
      exact .inr ⟨rfl, by rw [List.nil_append, unescape_plain hp, unescape_quote, emit_ok]⟩
    · obtain ⟨rfl, rfl⟩ := List.cons.inj hs
      rcases ih hb' s rfl with ⟨t, ht, hT⟩ | ⟨hT, ht⟩
      · exact .inl ⟨t, by rw [unescape_plain hp, ht, emit_ok], hT⟩
      · exact .inr ⟨hT, by rw [List.cons_append, unescape_plain hp, ht, emit_ok]⟩

end SonicJson
