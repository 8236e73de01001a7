/-
# The scanner of paths and tuples, on a text

What each step of `SkipScanner2` comes to where the text that is left is known: `On` is
the invariant, a scanner without an error before a text, and each step has one lemma that
says what it answers and what is left after it.
-/
import SonicJson.SkipScanner2

namespace SonicJson

open Prog

namespace SkipScanner2

variable {A : Arch} {data s s₀ t u : Bytes} {len : ℕ} {c d : UInt8} {v : Json} {st : SkipScanner2}

/-- The scanner has no error and is before `s`, what is left of the text. -/
structure On (data : Bytes) (len : ℕ) (st : SkipScanner2) (s : Bytes) : Prop where
  scan : Scan data len st.pos_ st.scanner_ s
  error : st.error_ = .kErrorNone

theorem On.init (json : Bytes) : On json json.length .init json :=
  ⟨⟨left_length.mpr (Cursor.at_zero _), SpaceBits.valid_init _ _⟩, rfl⟩

/-- One step back over a byte that is no space. -/
theorem On.back (h : On data len st t) (hl : ∃ q, Left data len q (c :: t)) (hc : IsSpace c = false) :
    On data len { st with pos_ := st.pos_ - 1 } (c :: t) := by
  obtain ⟨q, hl⟩ := hl
  have hpos : st.pos_ = q + 1 := h.scan.left.unique hl.succ
  refine ⟨⟨?_, fun i hi h1 => ?_⟩, h.error⟩
  · simpa [hpos] using hl
  · -- the byte itself is no space
    dsimp only at hi
    rcases Nat.lt_or_ge i (q + 1) with hlt | hge
    · obtain rfl : i = q := by omega
      rw [hl.rd_eq, hc] at h1
      cases h1
    · exact h.scan.valid i (by omega) h1

theorem not_isSpace_of_dropWhile (hs : s.dropWhile IsSpace = c :: t) : IsSpace c = false := by
  have h := List.head?_dropWhile_not IsSpace s
  rw [hs] at h
  simpa using h

theorem On.lt (h : On data len st s) (hs : s.dropWhile IsSpace = c :: t) : st.pos_ < len := by
  have h1 := h.scan.left.length_add
  have h2 := (ws_dropWhile s).suffix.length_le
  rw [hs, List.length_cons] at h2
  omega

section
variable {caller : Caller}

/-- The next byte that is no space. -/
theorem exec_SkipSpaceSafe (h : On data len st s) (hs : s.dropWhile IsSpace = c :: t) :
    ∃ st', (SkipSpaceSafe caller).exec (SpaceCall.skip data len) st = some (c, st') ∧
      On data len st' t ∧
      On data len { st' with pos_ := st'.pos_ - 1 } (c :: t) := by
  obtain ⟨p, k, h1, h2, -⟩ := h.scan.skip_space hs
  have hws := ws_dropWhile s
  rw [hs] at hws
  have hon : On data len { st with pos_ := p, scanner_ := k } t := ⟨h2, h.error⟩
  refine ⟨_, ?_, hon, hon.back ⟨_, h.scan.left.suffix hws.suffix⟩ (not_isSpace_of_dropWhile hs)⟩
  rw [SkipSpaceSafe, exec_call]
  simp only [SpaceCall.skip, h1]

theorem exec_hasError (h : On data len st s) :
    hasError.exec (SpaceCall.skip data len) st = some (false, st) := by
  rw [hasError, exec_bind, exec_get, Option.bind_some, exec_pure, h.error]
  rfl

/-- A step without an error, and what comes after it. -/
theorem exec_returnIfParseError {α β : Type} {r : α} {x : Scanning β} {k : Scanning α} {b : β}
    {st' : SkipScanner2} (hx : x.exec (SpaceCall.skip data len) st = some (b, st'))
    (h : On data len st' s) :
    (returnIfParseError r x k).exec (SpaceCall.skip data len) st =
    k.exec (SpaceCall.skip data len) st' := by
  rw [returnIfParseError, exec_bind_of hx, exec_bind_of (exec_hasError h)]
  rfl

theorem exec_peek (h : On data len st s) (hs : s.dropWhile IsSpace = c :: t) :
    ∃ st', (peek len).exec (SpaceCall.skip data len) st = some (c, st') ∧ On data len st' (c :: t) := by
  obtain ⟨st', h1, h2, h3⟩ := exec_SkipSpaceSafe h hs
  have hlt : ¬ len ≤ st.pos_ := not_le.mpr (h.lt hs)
  have hc : ¬ (len ≤ st'.pos_ ∧ IsSpace c = true) := by
    rw [not_isSpace_of_dropWhile hs]
    exact fun hc => nomatch hc.2
  refine ⟨_, ?_, h3⟩
  rw [peek, exec_bind, exec_get, Option.bind_some, exec_ite, if_neg hlt, exec_bind_of h1,
    exec_bind, exec_get, Option.bind_some, exec_ite, if_neg hc]
  rfl

theorem exec_advance (h : On data len st s) (hs : s.dropWhile IsSpace = c :: t) :
    ∃ st', advance.exec (SpaceCall.skip data len) st = some (c, st') ∧ On data len st' t ∧
      On data len { st' with pos_ := st'.pos_ - 1 } (c :: t) := exec_SkipSpaceSafe h hs

theorem exec_consume (h : On data len st s) (hs : s.dropWhile IsSpace = c :: t) :
    ∃ st', (consume len c).exec (SpaceCall.skip data len) st = some (true, st') ∧
      On data len st' t := by
  obtain ⟨st', h1, h2, -⟩ := exec_SkipSpaceSafe h hs
  have hlt : ¬ len ≤ st.pos_ := not_le.mpr (h.lt hs)
  refine ⟨st', ?_, h2⟩
  rw [consume, exec_bind, exec_get, Option.bind_some, exec_ite, if_neg hlt, exec_bind_of h1, exec_ite,
    if_neg (not_not.mpr rfl)]
  rfl

/-- What may be there is skipped, where it is. -/
theorem exec_skipIfPresent (h : On data len st s) (hs : s.dropWhile IsSpace = c :: t) :
    ∃ st', (skipIfPresent len d).exec (SpaceCall.skip data len) st = some ((), st') ∧
      On data len st' (if c = d then t else c :: t) := by
  obtain ⟨st₁, h1, h2⟩ := exec_peek h hs
  have hlt : ¬ st.pos_ = len := (h.lt hs).ne
  have hc := not_isSpace_of_dropWhile hs
  unfold skipIfPresent
  rw [exec_bind, exec_get, Option.bind_some, exec_ite, if_neg hlt, exec_bind_of h1, exec_ite]
  split
  · obtain ⟨st₂, h3, h4, -⟩ :=
      exec_advance h2 (t := t) (c := c) (by rw [List.dropWhile_cons, if_neg (by rw [hc]; decide)])
    exact ⟨st₂, by rw [exec_bind_of h3]; rfl, h4⟩
  · exact ⟨st₁, rfl, h2⟩

/-! ### Values and keys -/

/-- **A value is skipped**, and perhaps some of the whitespace behind it. -/
theorem exec_SkipOne (h : On data len st s₀) (hw : Ws s₀ s) (hd : Der s (.val v) t) (hn : Next t u) :
    ∃ start st' t', (SkipOne A data len caller).exec (SpaceCall.skip data len) st =
      some (some start, st') ∧
      On data len st' t' ∧ Ws t t' ∧ Ws t' u ∧ JsonText (slice data start st'.pos_) v := by
  obtain ⟨start, p, k, t', h1, h2, h3, h4, h5⟩ := SkipOne_slice A h.scan hw hd hn
  unfold SonicJson.SkipOne at h1
  rcases hr : skip_space_safe data st.pos_ len st.scanner_ with ⟨c, q, k'⟩
  rcases hv : skipValue A data q len c with ⟨ok, q'⟩
  rw [hr] at h1
  dsimp only at h1
  rw [hv] at h1
  obtain ⟨h6, h7⟩ := Prod.mk.inj h1
  obtain ⟨rfl, rfl⟩ := Prod.mk.inj h7
  cases ok with
  | false => cases h6
  | true =>
    obtain rfl := Except.ok.inj h6
    refine ⟨q - 1, { st with pos_ := q', scanner_ := k' }, t', ?_, ⟨h2, h.error⟩, h3, h4, h5⟩
    have hskip : (SkipSpaceSafe caller).exec (SpaceCall.skip data len) st =
        some (c, { st with pos_ := q, scanner_ := k' }) := by
      rw [SkipSpaceSafe, exec_call]
      simp only [SpaceCall.skip, hr]
    rw [SkipOne, exec_bind_of hskip, exec_bind, exec_get, Option.bind_some]
    dsimp only
    rw [hv]
    rfl

theorem exec_skipOne (h : On data len st s₀) (hw : Ws s₀ s) (hd : Der s (.val v) t) (hn : Next t u) :
    ∃ st' t', (skipOne A data len).exec (SpaceCall.skip data len) st = some ((), st') ∧
      On data len st' t' ∧ Ws t' u := by
  obtain ⟨start, st', t', h1, h2, -, h3, -⟩ := exec_SkipOne (A := A) h hw hd hn
  exact ⟨st', t', by rw [skipOne, exec_bind_of h1]; rfl, h2, h3⟩

/-- The text of a value. -/
theorem exec_getOne (h : On data len st s₀) (hw : Ws s₀ s) (hd : Der s (.val v) t) (hn : Next t u) :
    ∃ raw st' t', (getOne A data len).exec (SpaceCall.skip data len) st = some (raw, st') ∧
      On data len st' t' ∧ Ws t' u ∧
      JsonText raw v ∧ raw.length ≤ data.length := by
  obtain ⟨start, st', t', h1, h2, -, h3, h4⟩ := exec_SkipOne (A := A) h hw hd hn
  exact ⟨_, st', t', by rw [getOne, exec_bind_of h1]; rfl, h2, h3, h4, by simp [slice]⟩

/-- **A key is read**, up to behind its quote. -/
theorem exec_readKey {k : Bytes} (h : On data len st s) (hk : StrBody s k t) :
    ∃ st', (readKey A data len).exec (SpaceCall.skip data len) st = some (some k, st') ∧
      On data len st' t := by
  obtain ⟨kbuf, h1⟩ := keyAt_spec (A := A) h.scan hk
  have h2 := h.scan.left.length_add
  have h3 := hk.suffix.2
  refine ⟨{ st with pos_ := len - t.length, error_ := .kErrorNone, kbuf_ := kbuf }, ?_,
    h.scan.move (h.scan.left.suffix hk.suffix.1) (by dsimp only; omega), rfl⟩
  rw [readKey, exec_bind, exec_get, Option.bind_some]
  dsimp only
  rw [h.error, h1]
  rfl

end

end SkipScanner2

end SonicJson
