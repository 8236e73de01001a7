/-
# The parser accepts nothing but JSON

A run that ends without error went through the text of a value, of elements or
of members, and the handler accepted what it was told. The number of steps that
are left is what the proof is by: from a value the run comes to the label after
it, from the elements or members to `scope_end`, in fewer steps. The handler is
one without `check_key_return`, and control characters are not allowed.
-/
import SonicJson.ParserComplete

namespace SonicJson

open Cursor Machine

namespace Parser

variable {σ : Type*} {E : Env σ} {p q : Parser σ} {pad r s t : Bytes} {b : UInt8} {cont : Label}
    {k d n : ℕ}
  {ds : List ℕ} {a : Label × Parser σ}

/-- `n` steps from `a` end the run in `q`, without error. -/
def Accepts (E : Env σ) (n : ℕ) (a : Label × Parser σ) (q : Parser σ) : Prop :=
  Steps (step E) n a (.doc_end, q) ∧ q.err_ = .kErrorNone

namespace Accepts

theorem halted (h : Accepts E n (.doc_end, p) q) : p = q := (Prod.mk.inj (h.1.halted rfl).2).2

theorem setFirstError {e : SonicError} (he : e ≠ .kErrorNone)
    (h : Accepts E n (.doc_end, p.setFirstError e) q) : False := by
  obtain rfl := h.halted
  have h1 : (if p.err_ = .kErrorNone then e else p.err_) = .kErrorNone := h.2
  split at h1
  · exact he h1
  · contradiction

theorem err_invalid_char (h : Accepts E n p.err_invalid_char q) : False := h.setFirstError (by decide)

theorem sonic_check_err {f : Parser σ → Label × Parser σ} (h : Accepts E n (p.sonic_check_err f) q) :
    p.err_ = .kErrorNone ∧ Accepts E n (f p) q := by
  rw [Parser.sonic_check_err] at h
  split at h
  · exact h.err_invalid_char.elim
  · rename_i hp
    exact ⟨not_not.mp hp, h⟩

theorem sonic_sax_check {f : Parser σ → Label × Parser σ} {x : Bool × Parser σ}
    (h : Accepts E n (Parser.sonic_sax_check x f) q) : x.1 = true ∧ Accepts E n (f x.2) q := by
  rw [Parser.sonic_sax_check] at h
  split at h
  · rename_i hx
    exact ⟨hx, h⟩
  · exact (h.setFirstError (by decide)).elim

/-- A run that has not ended goes on. -/
theorem next {a' : Label × Parser σ} (h : Accepts E n a q) (hs : step E a = some a') :
    ∃ m, n = m + 1 ∧ Accepts E m a' q := by
  obtain ⟨m, h1, h2⟩ := h.1.first (c := (.doc_end, q)) rfl hs
  exact ⟨m, h1, h2, h.2⟩

end Accepts

/-- The byte that closes the container whose values are followed by `cont`. -/
def closing (cont : Label) : UInt8 := if cont = .arr_cont then Ch.rbrack else Ch.rbrace

/-- After a value there is a comma or the closing byte. -/
theorem Accepts.cont_c (h : Accepts E n (cont, p) q) (hc : IsCont cont) :
    p.c = Ch.comma ∨ p.c = closing cont := by
  have hcount : p.count.c = p.c := by
    unfold count
    split <;> rfl
  rcases hc with rfl | rfl
  · obtain ⟨m, -, h⟩ := h.next rfl
    simp only [Parser.arr_cont, hcount] at h
    split at h
    · exact .inl ‹_›
    split at h
    · exact .inr ‹_›
    · exact h.err_invalid_char.elim
  · obtain ⟨m, -, h⟩ := h.next rfl
    simp only [Parser.obj_cont, hcount] at h
    split at h
    · exact .inl ‹_›
    split at h
    · exact h.err_invalid_char.elim
    · rename_i hc
      exact .inr (not_not.mp hc)

theorem closing_ne_x (hc : IsCont cont) {b : UInt8} (h : b = Ch.comma ∨ b = closing cont) :
    b ≠ Ch.x := by
  rcases hc with rfl | rfl <;> rcases h with rfl | rfl <;> decide

theorem follow_closing (hc : IsCont cont) {b : UInt8} (h : b = Ch.comma ∨ b = closing cont)
    (t : Bytes) :
    Follow (b :: t) := by
  rcases h with rfl | rfl
  · exact follow_comma t
  · rcases hc with rfl | rfl
    exacts [follow_rbrack t, follow_rbrace t]

/-! ### Primitive values -/

/-- What a primitive value has left: the text of a value was read, and where the handler accepts it
(`ok`) it has been told of it. -/
def Scanned (E : Env σ) (p : Parser σ) (s pad : Bytes) (ok : Bool) (p₁ : Parser σ) : Prop :=
  ∃ v t, Der s (.val v) t ∧ OnText p₁ pad t ∧
    (ok = true → NumEnd t → (feed E.F E.parseFlags E.H v p.sax).isSome = true)

theorem isSome_accept {x : Bool × σ} (h : x.1 = true) : (accept x).isSome = true := by
  rw [accept, if_pos h]
  rfl

theorem literal_scanned {lit : Bytes} {m : ℕ} {e : Scalar} {v : Json} (h : Got p pad b r)
    (hr : b :: r = lit ++ t) (hm : lit.length = m + 1) (hd : Der (lit ++ t) (.val v) t)
    (hv : feed E.F E.parseFlags E.H v p.sax = accept (E.H.primitive e p.sax)) :
    Scanned E p (b :: r) pad (call { p with pos_ := p.pos_ + m } (E.H.primitive e)).1
      (call { p with pos_ := p.pos_ + m } (E.H.primitive e)).2 := by
  refine ⟨v, t, hr ▸ hd, (h.move (Nat.le_add_right _ _) ?_).call _, fun hok _ => hv ▸ isSome_accept hok⟩
  have h3 := h.byte
  rw [← List.cons_append, hr, List.append_assoc] at h3
  have h4 := h3.append
  have := h.pos
  rwa [hm, show p.pos_ - 1 + (m + 1) = p.pos_ + m by omega] at h4

section
variable (hpad : Sentinel pad)
include hpad

theorem parseNull_scanned (h : Got p pad b r) (herr : (p.parseNull E).2.err_ = .kErrorNone) :
    Scanned E p (b :: r) pad (p.parseNull E).1 (p.parseNull E).2 := by
  rw [parseNull] at *
  split at herr
  · rename_i he
    obtain ⟨t, ht⟩ := h.buf.eqBytes_inv hpad he (by decide)
    rw [if_pos he]
    exact literal_scanned h ht rfl .null rfl
  · exact absurd herr (by simp [setParseError])

theorem parseTrue_scanned (h : Got p pad b r) (herr : (p.parseTrue E).2.err_ = .kErrorNone) :
    Scanned E p (b :: r) pad (p.parseTrue E).1 (p.parseTrue E).2 := by
  rw [parseTrue] at *
  split at herr
  · rename_i he
    obtain ⟨t, ht⟩ := h.buf.eqBytes_inv hpad he (by decide)
    rw [if_pos he]
    exact literal_scanned h ht rfl .true rfl
  · exact absurd herr (by simp [setParseError])

theorem parseFalse_scanned (h : Got p pad Ch.f r) (herr : (p.parseFalse E).2.err_ = .kErrorNone) :
    Scanned E p (Ch.f :: r) pad (p.parseFalse E).1 (p.parseFalse E).2 := by
  rw [parseFalse] at *
  split at herr
  · rename_i he
    obtain ⟨t, rfl⟩ := h.toOnText.buf.eqBytes_inv hpad he (by decide)
    rw [if_pos he]
    have hr : Ch.f :: (kFalse.drop 1 ++ t) = kFalse ++ t := rfl
    exact literal_scanned h hr rfl .false rfl
  · exact absurd herr (by simp [setParseError])

theorem parseNumber_scanned (hF : E.F.Local) (hflags : E.parseFlags.kParseOverflowNumAsNumStr = false)
    (h : Got p pad b r) (hlen : (b :: r).length < 2 ^ 31)
    (herr : (p.parseNumber E).err_ = .kErrorNone) :
    Scanned E p (b :: r) pad true (p.parseNumber E) := by
  have hpos := h.pos
  have htold := @parseNumber_told E.F E.parseFlags p.json_buf_ p.len_ p.pos_
  have hinv := h.buf.number_inv hpad hflags (E := E)
  rw [hpos] at hinv
  rw [Parser.parseNumber] at *
  cases hev : (SonicJson.parseNumber E.F E.parseFlags p.json_buf_ p.len_ p.pos_).ev with
  | none =>
    simp only [hev] at herr
    exact absurd (htold herr) (by rw [hev]; decide)
  | some e =>
    simp only [hev] at herr ⊢
    split at herr
    swap
    · exact absurd herr (by decide)
    rename_i hok
    obtain ⟨tok, t, hs, htok, hi⟩ := hinv herr
    have h3 := h.byte
    rw [← List.cons_append, hs, List.append_assoc] at h3
    have h4 := h3.append
    rw [← hi] at h4
    have h6 : 0 < tok.length := by
      obtain ⟨b, r, rfl, -⟩ := htok.cons_head
      simp
    refine ⟨.num tok, t, hs ▸ .num htok, ⟨⟨h4, h.valid.mono ?_, ?_⟩, h.length⟩, fun _ ht => ?_⟩
    · simp only
      omega
    · simp only [hok, if_true, herr]
    · have hsh := (hs ▸ h.buf).number hpad hF (.inl (hs ▸ hlen)) hflags htok ht
      rw [hpos] at hsh
      rw [feed, numEvent, ← hsh.err, herr, if_pos rfl, ← hsh.ev, hev]
      exact isSome_accept hok

/-- A string ends in the text, or at the quote of the padding. -/
theorem parseStr_inv {event : Bytes → σ → Bool × σ} (h : OnText p pad r)
    (herr : (p.parseStr E event).2.err_ = .kErrorNone) :
    (∃ k t, unescape E.parseFlags.kParseAllowUnescapedControlChars r = .ok (k, t)) ∨
      ∃ u, Reads (p.parseStr E event).2 (Ch.x :: u) ∧
        (p.parseStr E event).2.len_ < (p.parseStr E event).2.pos_ := by
  have hinv := h.string_inv hpad (E := E)
  rw [parseStr] at *
  by_cases he : (p.parseStringHelper E).2.err_ = .kErrorNone
  · dsimp only
    rw [if_neg (not_not.mpr he)]
    rcases hinv he with hk | ⟨u, h1, h2⟩
    exacts [.inl hk, .inr ⟨u, h1.call _, h2⟩]
  · dsimp only at herr
    rw [if_pos he] at herr
    exact absurd herr he

end

/-- A primitive value at the root. -/
theorem parsePrimitives_scanned (hpad : Sentinel pad) (hF : E.F.Local)
    (hflags : E.parseFlags.kParseOverflowNumAsNumStr = false)
    (hallow : E.parseFlags.kParseAllowUnescapedControlChars = false) (h : Got p pad b r)
    (hlen : (b :: r).length < 2 ^ 31) (herr : (p.parsePrimitives E).err_ = .kErrorNone) :
    Scanned E p (b :: r) pad true (p.parsePrimitives E) := by
  have ended : ∀ {x : Bool × Parser σ}, (x.2.err_ = .kErrorNone → Scanned E p (b :: r) pad x.1 x.2) →
      p.parsePrimitives E = (if !x.1 then x.2.setFirstError .kSaxTermination else x.2) →
      Scanned E p (b :: r) pad true (p.parsePrimitives E) := by
    intro x hx he
    rw [he] at herr ⊢
    cases hx1 : x.1 with
    | true =>
      simp only [hx1, Bool.not_true, Bool.false_eq_true, if_false] at herr ⊢
      exact hx1 ▸ hx herr
    | false =>
      simp only [hx1, Bool.not_false, if_true, setFirstError] at herr
      split at herr
      · exact absurd herr (by decide)
      · contradiction
  have hv : p.parsePrimitives E = p.parsePrimitives E := rfl
  conv_rhs at hv => rw [parsePrimitives, h.c]
  split at hv
  · rw [hv] at herr ⊢
    exact parseNumber_scanned hpad hF hflags h hlen herr
  split at hv
  · rename_i hq
    subst hq
    dsimp only at hv
    split at hv
    · rw [hv] at herr
      exact absurd herr (by simp [setParseError])
    rename_i hle
    refine ended (fun he => ?_) hv
    rcases parseStr_inv hpad h.toOnText he with ⟨k, t, hk⟩ | ⟨u, -, hu⟩
    · obtain ⟨p', e1, e2, e3, e4⟩ :=
        @parseStr_done _ E _ _ _ _ _ (fun sv => E.H.primitive (.String sv)) h.toOnText hk
      rw [parseStrInPlace, e1]
      refine ⟨.str k, t, .str (unescape_eq_ok_iff.mp (hallow ▸ hk)), e2.call _, fun hok _ => ?_⟩
      rw [feed, ← e4]
      exact isSome_accept hok
    · exact absurd hu hle
  split at hv
  · rename_i hf
    subst hf
    exact ended (parseFalse_scanned hpad h) hv
  split at hv
  · exact ended (parseTrue_scanned hpad h) hv
  split at hv
  · exact ended (parseNull_scanned hpad h) hv
  · rw [hv] at herr
    exact absurd herr (by simp [setParseError])

/-! ### A value -/

/-- The run goes on from `p` through the text of a value to the label `cont`, in at most `n` steps
to the end. -/
def Passes (E : Env σ) (n : ℕ) (p : Parser σ) (s pad : Bytes) (cont : Label) (q : Parser σ) : Prop :=
  ∃ v t c u s' p' m, Der s (.val v) t ∧ Ws t (c :: u) ∧ (c = Ch.comma ∨ c = closing cont) ∧
    feed E.F E.parseFlags E.H v p.sax = some s' ∧ m ≤ n ∧ Accepts E m (cont, p') q ∧ Got p' pad c u ∧
    p'.depth = p.depth ∧ p'.sax = s'

section
variable (hpad : Sentinel pad) (hF : E.F.Local)
    (hflags : E.parseFlags.kParseOverflowNumAsNumStr = false)
include hpad hF hflags

theorem scanned_passes {p₁ : Parser σ} (h : Got p pad b r) (hlen : (b :: r).length < 2 ^ 31)
    (hb : b ≠ Ch.lbrace ∧ b ≠ Ch.lbrack) (hc : IsCont cont) (hs : Scanned E p (b :: r) pad true p₁)
    (hv : p.value E cont = (cont, p₁.SkipSpace)) (ha : Accepts E n (cont, p₁.SkipSpace) q) :
    Passes E n p (b :: r) pad cont q := by
  obtain ⟨v, t, hd, ht, hf⟩ := hs
  have hcc := ha.cont_c hc
  obtain ⟨u, hw, hg⟩ := ht.SkipSpace_inv hpad rfl (closing_ne_x hc hcc)
  have hnum := (hw.follow (follow_closing hc hcc u)).numEnd
  obtain ⟨s', hs'⟩ := Option.isSome_iff_exists.mp (hf rfl hnum)
  obtain ⟨p₂, h1, h2, -⟩ := scalar_done hpad hF hflags h (.inl hlen) hd hb hnum hs'
  have he : p₁.SkipSpace = p₂.SkipSpace := (Prod.mk.inj (hv.symm.trans (h2 cont))).2
  refine ⟨v, t, _, u, s', p₁.SkipSpace, n, hd, hw, hcc, hs', le_rfl, ha, hg, ?_, ?_⟩
  · rw [he]
    exact h1.depth
  · rw [he]
    exact h1.sax

/-- A value that is no container. -/
theorem scalar_passes (hallow : E.parseFlags.kParseAllowUnescapedControlChars = false)
    (h : Got p pad b r)
    (hlen : (b :: r).length < 2 ^ 31) (hb : b ≠ Ch.lbrace ∧ b ≠ Ch.lbrack) (hc : IsCont cont)
    (ha : Accepts E n (p.value E cont) q) :
    Passes E n p (b :: r) pad cont q := by
  have literal : ∀ x : Bool × Parser σ, (x.2.err_ = .kErrorNone → Scanned E p (b :: r) pad x.1 x.2) →
      p.value E cont = (x.2.sonic_check_err fun p =>
        if !x.1 then (.doc_end, p.setParseError .kSaxTermination) else (cont, p.SkipSpace)) →
      Passes E n p (b :: r) pad cont q := by
    intro x hx hv
    obtain ⟨h1, h2⟩ := (hv ▸ ha).sonic_check_err
    rw [sonic_check_err_ok h1] at hv
    cases hx1 : x.1 with
    | false =>
      simp only [hx1, Bool.not_false, if_true] at h2
      have h3 := h2.halted ▸ h2.2
      exact absurd h3 (by simp [setParseError])
    | true =>
      simp only [hx1, Bool.not_true, Bool.false_eq_true, if_false] at h2 hv
      exact scanned_passes hpad hF hflags h hlen hb hc (hx1 ▸ hx h1) hv h2
  have hv : p.value E cont = p.value E cont := rfl
  conv_rhs at hv => rw [value, h.c, if_neg hb.1, if_neg hb.2]
  split at hv
  · have ha' := hv ▸ ha
    obtain ⟨h1, h2⟩ := ha'.sonic_check_err
    exact scanned_passes hpad hF hflags h hlen hb hc (parseNumber_scanned hpad hF hflags h hlen h1)
      (hv.trans (sonic_check_err_ok h1)) h2
  split at hv
  · exact literal _ (parseTrue_scanned hpad h) hv
  split at hv
  · rename_i hf
    subst hf
    exact literal _ (parseFalse_scanned hpad h) hv
  split at hv
  · exact literal _ (parseNull_scanned hpad h) hv
  split at hv
  · rename_i hq
    subst hq
    have ha' := hv ▸ ha
    obtain ⟨h1, h2⟩ := ha'.sonic_sax_check
    obtain ⟨h3, h4⟩ := h2.sonic_check_err
    rw [sonic_sax_check_ok h1, sonic_check_err_ok h3] at hv
    rcases parseStr_inv hpad h.toOnText h3 with ⟨k, t, hk⟩ | ⟨u, hu, -⟩
    · have hk' := unescape_eq_ok_iff.mp (hallow ▸ hk)
      refine scanned_passes hpad hF hflags h hlen hb hc ⟨.str k, t, .str hk', ?_⟩ hv h4
      obtain ⟨p', e1, e2, e3, e4⟩ :=
        @parseStr_done _ E _ _ _ _ _ (fun sv => E.H.primitive (.String sv)) h.toOnText hk
      rw [parseStrInPlace, e1] at h1 ⊢
      refine ⟨e2.call _, fun _ _ => ?_⟩
      rw [feed, ← e4]
      exact isSome_accept h1
    · have h5 :=
        (hu.SkipSpace (b := Ch.x) (t := u) (by rw [List.dropWhile_cons, if_neg (by decide)])).2.1
      have h6 := h4.cont_c hc
      exact absurd h5 (closing_ne_x hc h6)
  · exact (hv ▸ ha).err_invalid_char.elim

end

/-! ### Containers -/

/-- The run goes on from `p` through the text `s` of a container's inside, which `f` says the
handler accepted, to `scope_end`. -/
def Ends (E : Env σ) (n : ℕ) (pad t : Bytes) (ds : List ℕ) (s' : σ) (q : Parser σ) : Prop :=
  ∃ p' d m, OnText p' pad t ∧ p'.depth = d :: ds ∧ p'.sax = s' ∧ m ≤ n ∧ Accepts E m p'.scope_end q

theorem Ends.mono {m : ℕ} {s' : σ} (h : Ends E m pad t ds s' q) (hm : m ≤ n) :
    Ends E n pad t ds s' q := by
  obtain ⟨p', d, l, h1, h2, h3, h4, h5⟩ := h
  exact ⟨p', d, l, h1, h2, h3, h4.trans hm, h5⟩

/-- The end of a container. -/
theorem ends_call {f : σ → Bool × σ} (h : OnText p pad t) (hd : p.depth = d :: ds)
    (ha : Accepts E n (sonic_sax_check (p.call f) scope_end) q) :
    ∃ s', accept (f p.sax) = some s' ∧ Ends E n pad t ds s' q := by
  obtain ⟨h1, h2⟩ := ha.sonic_sax_check
  exact ⟨_, accept_eq_some.mpr ⟨h1, rfl⟩, _, d, n, h.call f, hd, rfl, le_rfl, h2⟩

/-- A container inside another one has been passed. -/
theorem Ends.passes {v : Json} {s' : σ} (h : Ends E n pad t p.depth s' q) (hpad : Sentinel pad)
    (hd : Der s (.val v) t) (hf : feed E.F E.parseFlags E.H v p.sax = some s') (hc : IsCont cont)
    (hk : k < 2 ^ 31) (hdep : p.depth = word cont k :: ds) : Passes E n p s pad cont q := by
  obtain ⟨p', d, m, h1, h2, h3, h4, h5⟩ := h
  rw [hdep] at h2
  rw [scope_end_inner h1.err hc hk h2] at h5
  have hcc := h5.cont_c hc
  obtain ⟨u, hw, hg⟩ := (h1.setDepth _).SkipSpace_inv hpad rfl (closing_ne_x hc hcc)
  exact ⟨v, t, _, u, s', _, m, hd, hw, hcc, hf, h4, h5, hg, hdep.symm, h3⟩

section
variable (E pad q n)

def ValSound : Prop := ∀ p b r cont k ds, Got p pad b r → IsCont cont → p.depth = word cont k :: ds →
  k + (b :: r).length < 2 ^ 31 → Accepts E n (p.value E cont) q → Passes E n p (b :: r) pad cont q

def ElemsSound : Prop := ∀ p s k ds, OnText p pad s → p.depth = word .arr_cont k :: ds →
    k + s.length < 2 ^ 31 →
  Accepts E n (.arr_val, p.SkipSpace) q →
  ∃ vs t s₁ s₂, Der s (.elems vs) (Ch.rbrack :: t) ∧ feedElems E.F E.parseFlags E.H vs p.sax = some s₁ ∧
    accept (E.H.EndArray (k + vs.length) s₁) = some s₂ ∧ Ends E n pad t ds s₂ q

def MemsSound : Prop := ∀ p s k ds, OnText p pad s → p.depth = word .obj_cont k :: ds →
    k + s.length < 2 ^ 31 →
  Accepts E n (.obj_key, p.SkipSpace) q →
  ∃ ms t m s₁ s₂, Der s (.mems ms) (Ch.rbrace :: t) ∧
    feedMems E.F E.parseFlags E.H ms k p.sax = some (m, s₁) ∧
    accept (E.H.EndObject m s₁) = some s₂ ∧ Ends E n pad t ds s₂ q

end

theorem Accepts.value_c (h : Accepts E n (p.value E cont) q) : p.c ≠ Ch.x := by
  intro hx
  rw [value, hx] at h
  exact h.err_invalid_char

theorem arr_cont_inv (h : Got p pad b t) (hk : k + 1 < 2 ^ 31) (hd : p.depth = word .arr_cont k :: ds)
    (ha : Accepts E n (.arr_cont, p) q) : ∃ m, n = m + 1 ∧
      ((b = Ch.comma ∧
        Accepts E m (.arr_val, (p.setDepth (word .arr_cont (k + 1) :: ds)).SkipSpace) q) ∨
        (b = Ch.rbrack ∧ ∃ s', accept (E.H.EndArray (k + 1) p.sax) = some s' ∧
          Ends E m pad t ds s' q)) := by
  obtain ⟨m, rfl, h1⟩ := ha.next rfl
  have h' := h.setDepth (word .arr_cont (k + 1) :: ds)
  rw [arr_cont, count_eq hk hd] at h1
  refine ⟨m, rfl, ?_⟩
  split at h1
  · exact .inl ⟨h'.c.symm.trans ‹_›, h1⟩
  split at h1
  · have hb : (p.setDepth (word .arr_cont (k + 1) :: ds)).back &&& (kArrMask - 1) = k + 1 :=
      and_kArrMask_sub_one hk
    rw [hb] at h1
    have h2 := ends_call h'.toOnText rfl h1
    exact .inr ⟨h'.c.symm.trans ‹_›, h2⟩
  · exact h1.err_invalid_char.elim

theorem obj_cont_inv (h : Got p pad b t) (hk : k + 1 < 2 ^ 31) (hd : p.depth = word .obj_cont k :: ds)
    (ha : Accepts E n (.obj_cont, p) q) : ∃ m, n = m + 1 ∧
      ((b = Ch.comma ∧
        Accepts E m (.obj_key, (p.setDepth (word .obj_cont (k + 1) :: ds)).SkipSpace) q) ∨
        (b = Ch.rbrace ∧ ∃ s', accept (E.H.EndObject (k + 1) p.sax) = some s' ∧
          Ends E m pad t ds s' q)) := by
  obtain ⟨m, rfl, h1⟩ := ha.next rfl
  have h' := h.setDepth (word .obj_cont (k + 1) :: ds)
  rw [obj_cont, count_eq hk hd] at h1
  refine ⟨m, rfl, ?_⟩
  split at h1
  · exact .inl ⟨h'.c.symm.trans ‹_›, h1⟩
  split at h1
  · exact h1.err_invalid_char.elim
  · rename_i hb
    have h2 := ends_call h'.toOnText rfl h1
    exact .inr ⟨h'.c.symm.trans (not_not.mp hb), h2⟩

/-- A key and its colon, which the handler has accepted. -/
theorem obj_key_inv (hpad : Sentinel pad)
    (hallow : E.parseFlags.kParseAllowUnescapedControlChars = false)
    (hskip : E.H.check_key_return = false) (h : OnText p pad s)
    (ha : Accepts E n (.obj_key, p.SkipSpace) q) :
    ∃ m key s₁ s₂ s₃ p', n = m + 1 ∧ Ws s (Ch.quote :: s₁) ∧ StrBody s₁ key s₂ ∧
      Ws s₂ (Ch.colon :: s₃) ∧
      (E.H.Key key p.sax).1 = true ∧ Got p' pad Ch.colon s₃ ∧ p'.depth = p.depth ∧
        p'.sax = (E.H.Key key p.sax).2 ∧
      Accepts E m (p'.SkipSpace.value E .obj_cont) q := by
  obtain ⟨m, rfl, h1⟩ := ha.next rfl
  have hq : p.SkipSpace.c = Ch.quote := by
    by_contra hc
    rw [obj_key, if_pos hc] at h1
    exact h1.err_invalid_char
  obtain ⟨s₁, hw, hg⟩ := h.SkipSpace_inv hpad hq (by decide)
  have h2 := h1
  rw [obj_key, if_neg (not_not.mpr hq)] at h2
  obtain ⟨h3, h4⟩ := h2.sonic_check_err
  dsimp only at h4
  split at h4
  · exact h4.err_invalid_char.elim
  rename_i hcol
  have hcol := not_not.mp hcol
  rcases parseStr_inv hpad hg.toOnText h3 with ⟨key, s₂, hk⟩ | ⟨u, hu, -⟩
  swap
  · have h5 := (hu.SkipSpace (b := Ch.x) (t := u) (by rw [List.dropWhile_cons, if_neg (by decide)])).2.1
    exact absurd (hcol.symm.trans h5) (by decide)
  obtain ⟨p₂, e1, e2, e3, e4⟩ := @parseStr_done _ E _ _ _ _ _ E.H.Key hg.toOnText hk
  have hk' := unescape_eq_ok_iff.mp (hallow ▸ hk)
  change (p.SkipSpace.parseStr E E.H.Key).2.SkipSpace.c = _ at hcol
  rw [e1] at hcol
  obtain ⟨s₃, hw', -⟩ := (e2.call (E.H.Key key)).SkipSpace_inv hpad hcol (by decide)
  obtain ⟨p', g1, g2, g3, g4⟩ := @obj_key_eq _ E _ _ _ _ _ _ hg hk' hw'
  rw [g4, hskip] at h1
  split at h1
  · rename_i hkey
    exact ⟨m, key, s₁, s₂, s₃, p', rfl, hw, hk', hw', hkey, g1, g2, g3, h1⟩
  · exact (h1.setFirstError (by decide)).elim

section
variable (hpad : Sentinel pad) (hF : E.F.Local)
    (hflags : E.parseFlags.kParseOverflowNumAsNumStr = false)
  (hallow : E.parseFlags.kParseAllowUnescapedControlChars = false)
    (hskip : E.H.check_key_return = false)
include hpad

/-- The elements of an array, given its values. -/
theorem elems_sound (hV : ∀ m < n, ValSound E q pad m) : ElemsSound E q pad n := by
  induction n using Nat.strong_induction_on with
  | _ n ih =>
  intro p s k ds h hd hlen ha
  obtain ⟨m, rfl, h1⟩ := ha.next rfl
  obtain ⟨r, hw, hg⟩ := h.SkipSpace_inv hpad rfl h1.value_c
  have hl := hw.suffix.length_le
  obtain ⟨v, t, c, u, s', p', m', e1, e2, e3, e4, e5, e6, e7, e8, e9⟩ :=
    hV m (by omega) _ _ r .arr_cont k ds hg (.inl rfl) hd (by omega) h1
  have hl1 := e1.suffix.2
  have hl2 := e2.suffix.length_le
  simp only [List.length_cons] at hl hl1 hl2
  obtain ⟨m'', rfl, ⟨rfl, h2⟩ | ⟨rfl, s₂, h2, h3⟩⟩ := arr_cont_inv e7 (by omega) (e8.trans hd) e6
  · obtain ⟨vs, t', s₁, s₂, g1, g2, g3, g4⟩ :=
      ih m'' (by omega) (fun l hl => hV l (by omega)) _ u (k + 1) ds
      (e7.toOnText.setDepth _) rfl (by omega) h2
    refine ⟨v :: vs, t', s₁, s₂, .elemCons hw e1 e2 g1, ?_, ?_, g4.mono (by omega)⟩
    · rw [feedElems]
      exact Option.bind_eq_some_iff.mpr ⟨s', e4, e9 ▸ g2⟩
    · rwa [List.length_cons, Nat.add_comm _ 1, ← Nat.add_assoc]
  · refine ⟨[v], u, s', s₂, .elemLast hw e1 e2, ?_, e9 ▸ h2, h3.mono (by omega)⟩
    rw [feedElems]
    exact Option.bind_eq_some_iff.mpr ⟨s', e4, rfl⟩

include hallow hskip in
/-- The members of an object, given their values. -/
theorem mems_sound (hV : ∀ m < n, ValSound E q pad m) : MemsSound E q pad n := by
  induction n using Nat.strong_induction_on with
  | _ n ih =>
  intro p s k ds h hd hlen ha
  obtain ⟨m, key, s₁, s₂, s₃, p₁, rfl, hw, hk, hcol, hkey, hg, hd1, hs1, h1⟩ :=
    obj_key_inv hpad hallow hskip h ha
  obtain ⟨r, hw', hg'⟩ := hg.toOnText.SkipSpace_inv hpad rfl h1.value_c
  have l1 := hw.suffix.length_le
  have l2 := hk.suffix.2
  have l3 := hcol.suffix.length_le
  have l4 := hw'.suffix.length_le
  simp only [List.length_cons] at l1 l3
  obtain ⟨v, t, c, u, s', p', m', e1, e2, e3, e4, e5, e6, e7, e8, e9⟩ :=
    hV m (by omega) _ _ r .obj_cont k ds hg' (.inr rfl) (hd1.trans hd) (by omega) h1
  have hl1 := e1.suffix.2
  have hl2 := e2.suffix.length_le
  simp only [List.length_cons] at l4 hl1 hl2
  rw [SkipSpace_sax, hs1] at e4
  obtain ⟨m'', rfl, ⟨rfl, h2⟩ | ⟨rfl, s₂', h2, h3⟩⟩ :=
    obj_cont_inv e7 (by omega) (e8.trans (hd1.trans hd)) e6
  · obtain ⟨ms, t', i, s₁', s₂', g1, g2, g3, g4⟩ :=
      ih m'' (by omega) (fun l hl => hV l (by omega)) _ u (k + 1) ds
      (e7.toOnText.setDepth _) rfl (by omega) h2
    refine ⟨(key, v) :: ms, t', i, s₁', s₂', .memCons hw hk hcol hw' e1 e2 g1, ?_, g3,
      g4.mono (by omega)⟩
    rw [feedMems, if_pos hkey]
    exact Option.bind_eq_some_iff.mpr ⟨s', e4, e9 ▸ g2⟩
  · refine ⟨[(key, v)], u, k + 1, s', s₂', .memLast hw hk hcol hw' e1 e2, ?_, e9 ▸ h2,
      h3.mono (by omega)⟩
    rw [feedMems, if_pos hkey]
    exact Option.bind_eq_some_iff.mpr ⟨s', e4, rfl⟩

/-- An array, from its bracket on. -/
theorem start_array_inv (hE : ElemsSound E q pad n) (h : Got p pad Ch.lbrack r)
    (hlen : r.length < 2 ^ 31) (ha : Accepts E n (p.start_array E) q) :
    ∃ v t s', Der (Ch.lbrack :: r) (.val v) t ∧ feed E.F E.parseFlags E.H v p.sax = some s' ∧
      Ends E n pad t p.depth s' q := by
  obtain ⟨h1, h2⟩ := Accepts.sonic_sax_check ha
  have ha0 : accept (E.H.StartArray p.sax) = some (E.H.StartArray p.sax).2 :=
    accept_eq_some.mpr ⟨h1, rfl⟩
  have ht := (h.call E.H.StartArray).setDepth (kArrMask :: (p.call E.H.StartArray).2.depth)
  dsimp only at h2
  split at h2
  · rename_i hc
    obtain ⟨t, hw, hg⟩ := ht.SkipSpace_inv hpad hc (by decide)
    obtain ⟨s', h3, h4⟩ := ends_call hg.toOnText rfl h2
    refine ⟨.arr [], t, s', .arrNil hw, ?_, h4⟩
    rw [feed]
    exact Option.bind_eq_some_iff.mpr ⟨_, ha0, Option.bind_eq_some_iff.mpr ⟨_, rfl, h3⟩⟩
  · obtain ⟨vs, t, s₁, s', g1, g2, g3, g4⟩ := hE _ r 0 p.depth ht rfl (by omega) h2
    refine ⟨.arr vs, t, s', .arr g1, ?_, g4⟩
    rw [Nat.zero_add] at g3
    rw [feed]
    exact Option.bind_eq_some_iff.mpr ⟨_, ha0, Option.bind_eq_some_iff.mpr ⟨_, g2, g3⟩⟩

theorem start_object_inv (hM : MemsSound E q pad n) (h : Got p pad Ch.lbrace r)
    (hlen : r.length < 2 ^ 31) (ha : Accepts E n (p.start_object E) q) :
    ∃ v t s', Der (Ch.lbrace :: r) (.val v) t ∧ feed E.F E.parseFlags E.H v p.sax = some s' ∧
      Ends E n pad t p.depth s' q := by
  obtain ⟨h1, h2⟩ := Accepts.sonic_sax_check ha
  have ha0 : accept (E.H.StartObject p.sax) = some (E.H.StartObject p.sax).2 :=
    accept_eq_some.mpr ⟨h1, rfl⟩
  have ht := (h.call E.H.StartObject).setDepth (kObjMask :: (p.call E.H.StartObject).2.depth)
  dsimp only at h2
  split at h2
  · rename_i hc
    obtain ⟨t, hw, hg⟩ := ht.SkipSpace_inv hpad hc (by decide)
    obtain ⟨s', h3, h4⟩ := ends_call hg.toOnText rfl h2
    refine ⟨.obj [], t, s', .objNil hw, ?_, h4⟩
    rw [feed]
    exact Option.bind_eq_some_iff.mpr ⟨_, ha0, Option.bind_eq_some_iff.mpr ⟨(0, _), rfl, h3⟩⟩
  · obtain ⟨ms, t, m, s₁, s', g1, g2, g3, g4⟩ := hM _ r 0 p.depth ht rfl (by omega) h2
    refine ⟨.obj ms, t, s', .obj g1, ?_, g4⟩
    rw [feed]
    exact Option.bind_eq_some_iff.mpr ⟨_, ha0, Option.bind_eq_some_iff.mpr ⟨(m, s₁), g2, g3⟩⟩

include hF hflags hallow hskip in
/-- **A run without error** passes the text of a value. -/
theorem val_sound : ValSound E q pad n := by
  induction n using Nat.strong_induction_on with
  | _ n ih =>
  intro p b r cont k ds h hc hd hlen ha
  by_cases h1 : b = Ch.lbrace
  · subst h1
    have hv : p.value E cont = p.start_object E := by rw [value, h.c, if_pos rfl]
    simp only [List.length_cons] at hlen
    obtain ⟨v, t, s', g1, g2, g3⟩ :=
      start_object_inv hpad (mems_sound hpad hallow hskip ih) h (by omega) (hv ▸ ha)
    have hk : k < 2 ^ 31 := by omega
    exact g3.passes hpad g1 g2 hc hk hd
  by_cases h2 : b = Ch.lbrack
  · subst h2
    have hv : p.value E cont = p.start_array E := by rw [value, h.c, if_neg h1, if_pos rfl]
    simp only [List.length_cons] at hlen
    obtain ⟨v, t, s', g1, g2, g3⟩ := start_array_inv hpad (elems_sound hpad ih) h (by omega) (hv ▸ ha)
    have hk : k < 2 ^ 31 := by omega
    exact g3.passes hpad g1 g2 hc hk hd
  exact scalar_passes hpad hF hflags hallow h (by omega) ⟨h1, h2⟩ hc ha

end

end Parser

end SonicJson
