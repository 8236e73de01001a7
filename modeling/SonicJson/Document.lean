/-
# Parsing a document

`Document.Parse` on a copy of the text with the padding behind it. A handler is
told of exactly the texts of JSON (`Parse_complete`, `Parse_sound`), and the
document is the denotation of its text (`parse_ok_iff`).
-/
import SonicJson.ParserTotal

namespace SonicJson

open Cursor Machine

namespace Parser

variable {σ : Type*} {E : Env σ} {p q : Parser σ} {pad r s t : Bytes} {b : UInt8} {d n : ℕ} {s' : σ}
    {v : Json}

theorem onText_reset (s pad : Bytes) (sax : σ) : OnText (reset (s ++ pad) s.length sax) pad s :=
  ⟨⟨at_zero _, SpaceBits.valid_init _ _, rfl⟩, by simp [reset]⟩

/-- There are no trailing characters where only whitespace is left. -/
theorem OnText.hasTrailingChars (h : OnText p pad t) : p.hasTrailingChars.1 = false ↔ Ws t [] := by
  have hl := h.buf.left.length_add
  have hsum := congrArg List.length (List.takeWhile_append_dropWhile (p := IsSpace) (l := t))
  rw [List.length_append] at hsum
  simp only [Parser.hasTrailingChars, h.buf.left.slice_eq, decide_eq_false_iff_not, not_lt]
  constructor
  · intro hle
    have h1 : t.dropWhile IsSpace = [] := List.length_eq_zero_iff.mp (by omega)
    have h2 := ws_dropWhile t
    rwa [h1] at h2
  · intro hw
    rw [hw.dropWhile_nil, List.length_nil] at hsum
    omega

section
variable (hpad : Sentinel pad) (hF : E.F.Local)
    (hflags : E.parseFlags.kParseOverflowNumAsNumStr = false)
include hpad hF hflags

/-- The run on a value at the root. -/
theorem start_complete {s₁ : Bytes} (h : OnText p pad s) (hsz : E.F.Sized E.parseFlags s (.val v))
    (hdep : p.depth = []) (hw : Ws s s₁) (hd : Der s₁ (.val v) t) (ht : NumEnd t) (hcnt : v.Counted)
    (ha : feed E.F E.parseFlags E.H v p.sax = some s') :
    ∃ n q, Steps (step E) n (p.start E) (.doc_end, q) ∧ OnText q pad t ∧ q.sax = s' := by
  obtain ⟨b, r, rfl, hst⟩ := hd.starts
  have hg := h.ws hw hst.not_isSpace
  have hsz := hsz.part hw.suffix id
  have closes : ∀ {a : Label × Parser σ}, Closes E a pad t p.depth s' →
      ∃ n q, Steps (step E) n a (.doc_end, q) ∧ OnText q pad t ∧ q.sax = s' := by
    rintro a ⟨n, p', d, h1, h2, h3, h4⟩
    rw [hdep] at h3
    rw [scope_end_outer h2.err h3] at h1
    exact ⟨n, _, h1, h2.setDepth [], h4⟩
  rw [start]
  by_cases h1 : b = Ch.lbrack
  · subst h1
    rw [if_pos hg.c]
    refine closes ?_
    obtain ⟨vs, rfl, hvs | he⟩ := hd.array_inv
    · exact start_array_closes hg (.inl hvs) hcnt ha
    · obtain ⟨c, u, hu, hc⟩ := he.elems_starts
      have hin := complete hpad hF hflags he (hsz.part (List.suffix_cons _ _) id)
      exact start_array_closes hg (.inr ⟨c, u, hu, hc, hin⟩) hcnt ha
  by_cases h2 : b = Ch.lbrace
  · subst h2
    rw [if_neg (hg.c ▸ h1), if_pos hg.c]
    refine closes ?_
    obtain ⟨ms, rfl, hms | he⟩ := hd.object_inv
    · exact start_object_closes hg (.inl hms) hcnt ha
    · obtain ⟨u, hu⟩ := he.mems_starts
      have hin := complete hpad hF hflags he (hsz.part (List.suffix_cons _ _) id)
      exact start_object_closes hg (.inr ⟨Ch.quote, u, hu, by decide, hin⟩) hcnt ha
  obtain ⟨q, h3, -, h4⟩ := scalar_done hpad hF hflags hg hsz hd ⟨h2, h1⟩ ht ha
  rw [if_neg (hg.c ▸ h1), if_neg (hg.c ▸ h2), h4]
  exact ⟨0, q, .refl _, h3.text, h3.sax⟩

/-- A run that ends without error read a value, and the handler accepted it. -/
theorem start_sound (hallow : E.parseFlags.kParseAllowUnescapedControlChars = false)
    (hskip : E.H.check_key_return = false) (h : OnText p pad s) (hdep : p.depth = [])
    (hlen : s.length < 2 ^ 31) (ha : Accepts E n (p.start E) q) :
    ∃ v s₁ t, Ws s s₁ ∧ Der s₁ (.val v) t ∧ OnText q pad t ∧
      (NumEnd t → feed E.F E.parseFlags E.H v p.sax = some q.sax) := by
  have hx : p.SkipSpace.c ≠ Ch.x := by
    intro hx
    rw [start, hx] at ha
    have h1 := ha.halted ▸ ha.2
    rw [parsePrimitives, hx] at h1
    have h2 : SonicError.kParseErrorInvalidChar = .kErrorNone := h1
    exact absurd h2 (by decide)
  obtain ⟨r, hw, hg⟩ := h.SkipSpace_inv hpad rfl hx
  generalize hb : p.SkipSpace.c = b at hw hg
  have hl := hw.suffix.length_le
  have hbr : (b :: r).length < 2 ^ 31 := hl.trans_lt hlen
  simp only [List.length_cons] at hl
  have ends : ∀ {v : Json} {t : Bytes} {s' : σ}, Der (b :: r) (.val v) t →
      feed E.F E.parseFlags E.H v p.sax = some s' → Ends E n pad t p.depth s' q →
      ∃ v s₁ t, Ws s s₁ ∧ Der s₁ (.val v) t ∧ OnText q pad t ∧
        (NumEnd t → feed E.F E.parseFlags E.H v p.sax = some q.sax) := by
    rintro v t s' hd hf ⟨p', d, m, h1, h2, h3, -, h4⟩
    rw [hdep] at h2
    rw [scope_end_outer h1.err h2] at h4
    have h5 := h4.halted
    exact ⟨v, _, t, hw, hd, h5 ▸ h1.setDepth [], fun _ => by rw [hf, ← h3, ← h5]; rfl⟩
  rw [start] at ha
  by_cases h1 : b = Ch.lbrack
  · subst h1
    rw [if_pos hb] at ha
    obtain ⟨v, t, s', e1, e2, e3⟩ := start_array_inv hpad
      (elems_sound hpad fun m _ => val_sound hpad hF hflags hallow hskip) hg (by omega) ha
    exact ends e1 e2 e3
  by_cases h2 : b = Ch.lbrace
  · subst h2
    rw [if_neg (hb ▸ h1), if_pos hb] at ha
    obtain ⟨v, t, s', e1, e2, e3⟩ := start_object_inv hpad
      (mems_sound hpad hallow hskip fun m _ => val_sound hpad hF hflags hallow hskip) hg (by omega) ha
    exact ends e1 e2 e3
  rw [if_neg (hb ▸ h1), if_neg (hb ▸ h2)] at ha
  have hq := ha.halted
  have herr : (p.SkipSpace.parsePrimitives E).err_ = .kErrorNone := hq ▸ ha.2
  obtain ⟨v, t, e1, e2, e3⟩ := parsePrimitives_scanned hpad hF hflags hallow hg hbr herr
  refine ⟨v, _, t, hw, e1, hq ▸ e2, fun ht => ?_⟩
  obtain ⟨s', hs'⟩ := Option.isSome_iff_exists.mp (e3 rfl ht)
  obtain ⟨p₂, g1, -, g2⟩ := scalar_done hpad hF hflags hg (.inl hbr) e1 ⟨h2, h1⟩ ht hs'
  rw [← hq, g2, g1.sax]
  exact hs'

omit hF hflags in
theorem parseImpl_of_steps (h : OnText p pad s) (hs : Steps (step E) n (p.start E) (.doc_end, q)) :
    p.parseImpl E = some q := by
  obtain ⟨m, q', h1, h2⟩ := parseImpl_isSome hpad h
  obtain ⟨k, rfl, h3⟩ := hs.split h1 rfl
  rw [h2, (Prod.mk.inj (h3.halted rfl).2).2]

/-- **A text of JSON** is parsed, where the handler accepts it. -/
theorem Parse_complete (hsz : E.F.Sized E.parseFlags s (.val v)) (hcnt : v.Counted) {s₀ : σ}
    (hd : JsonText s v) (ha : feed E.F E.parseFlags E.H v s₀ = some s') :
    ∃ q, Parse E (s ++ pad) s.length s₀ = some q ∧ q.err_ = .kErrorNone ∧ q.sax = s' := by
  obtain ⟨s₁, t, hw, hd, ht⟩ := hd
  have hr := onText_reset s pad s₀
  obtain ⟨n, q, h1, h2, h3⟩ :=
    start_complete hpad hF hflags hr hsz rfl hw hd (ht.follow trivial).numEnd hcnt ha
  have h4 := h2.hasTrailingChars.mpr ht
  rw [Parse, parseAll, parseImpl_of_steps hpad hr h1, Option.map_some, if_pos h2.err]
  refine ⟨_, rfl, ?_, h3⟩
  simp only [h4, Bool.false_eq_true, if_false]

/-- **What is parsed** without error is a text of JSON, and the handler accepted it. -/
theorem Parse_sound (hallow : E.parseFlags.kParseAllowUnescapedControlChars = false)
    (hskip : E.H.check_key_return = false) (hlen : s.length < 2 ^ 31) {s₀ : σ}
    (h : Parse E (s ++ pad) s.length s₀ = some q) (herr : q.err_ = .kErrorNone) :
    ∃ v, JsonText s v ∧ feed E.F E.parseFlags E.H v s₀ = some q.sax := by
  have hr := onText_reset s pad s₀
  obtain ⟨n, p, h1, h2⟩ := parseImpl_isSome hpad hr
  rw [Parse, parseAll, h2, Option.map_some] at h
  have hq := Option.some.inj h
  split at hq
  swap
  · rename_i hp
    rw [← hq] at herr
    exact absurd herr hp
  rename_i hp
  obtain ⟨v, s₁, t, e1, e2, e3, e4⟩ := start_sound hpad hF hflags hallow hskip hr rfl hlen ⟨h1, hp⟩
  have htr : p.hasTrailingChars.1 = false := by
    rw [← Bool.not_eq_true]
    intro hc
    rw [← hq] at herr
    simp only [hc, if_true] at herr
    exact absurd herr (by decide)
  have ht := e3.hasTrailingChars.mp htr
  refine ⟨v, ⟨s₁, t, e1, e2, ht⟩, ?_⟩
  rw [← hq]
  exact e4 (ht.follow trivial).numEnd

omit hF hflags in
theorem Parse_isSome (s₀ : σ) : (Parse E (s ++ pad) s.length s₀).isSome = true := by
  obtain ⟨-, p, -, h⟩ := parseImpl_isSome hpad (onText_reset s pad s₀)
  rw [Parse, parseAll, h]
  rfl

end

/-- The check of trailing characters tells the handler nothing, and it keeps an error. -/
theorem parseAll_eq {p q : Parser σ} (h : p.parseImpl E = some q) :
    ∃ r, p.parseAll E = some r ∧ r.sax = q.sax ∧ (r.err_ = .kErrorNone → q.err_ = .kErrorNone) := by
  rw [parseAll, h, Option.map_some]
  refine ⟨_, rfl, ?_, fun hr => ?_⟩
  · split <;> rfl
  · by_contra hq
    rw [if_neg hq] at hr
    exact hq hr

end Parser

namespace Document

variable (A : Arch) (F : FloatConv) (parseFlags : ParseFlags)

/-- `allocateStringBuffer`: the text, the mask behind it, and what the allocation held before. -/
def allocateStringBuffer (json rest : Bytes) : Bytes := json ++ (Ch.x :: Ch.quote :: Ch.x :: rest)

theorem sentinel (rest : Bytes) : Sentinel (Ch.x :: Ch.quote :: Ch.x :: rest) := ⟨rest, rfl⟩

/-- `Parse`: the error, or the tree that the document is afterwards. -/
def Parse (json rest : Bytes) : Option (Except SonicError Node) :=
  (Parser.Parse ⟨A, F, parseFlags, SAXHandler⟩ (allocateStringBuffer json rest) json.length
    SAXHandler.init).map fun p =>
    if p.err_ ≠ .kErrorNone then .error p.err_ else .ok (SAXHandler.nodeAt p.sax.st_ 0)

theorem feed_init {F : FloatConv} {flags : ParseFlags} {v : Json} {s : SAXHandler.State} :
    feed F flags SAXHandler v SAXHandler.init = some s ↔
      ∃ n, den F flags v = some n ∧ s = SAXHandler.init.pushes [n] := by
  rw [SAXHandler.feed_eq, Option.map_eq_some_iff]
  exact exists_congr fun n => and_congr_right fun _ => eq_comm

theorem parse_isSome (s rest : Bytes) : (Parse A F parseFlags s rest).isSome = true := by
  rw [Parse, Option.isSome_map]
  exact @Parser.Parse_isSome _ ⟨A, F, parseFlags, SAXHandler⟩ _ s (sentinel rest) _

/-- With any flags that keep numbers numbers, a text of JSON is parsed to its denotation. -/
theorem parse_of_den {parseFlags : ParseFlags}
    (hflags : parseFlags.kParseOverflowNumAsNumStr = false) (hF : F.Local) {s : Bytes}
    (rest : Bytes) {v : Json} {n : Node} (hsz : F.Sized parseFlags s (.val v)) (hcnt : v.Counted)
    (hv : JsonText s v) (hd : den F parseFlags v = some n) :
    Parse A F parseFlags s rest = some (.ok n) := by
  obtain ⟨q, h1, h2, h3⟩ := @Parser.Parse_complete _ ⟨A, F, parseFlags, SAXHandler⟩ _ s _ v
    (sentinel rest) hF hflags hsz hcnt _ hv
    (feed_init.mpr ⟨n, hd, rfl⟩)
  rw [Parse, allocateStringBuffer, h1, Option.map_some, if_neg (not_not.mpr h2), h3]
  rfl

theorem parse_ok_iff (hF : F.Local) {s : Bytes} (hlen : s.length < 2 ^ 31) (rest : Bytes)
    {n : Node} : Parse A F kParseDefault s rest = some (.ok n) ↔ ∃ v, JsonText s v ∧
    den F kParseDefault v = some n := by
  have hpad := sentinel rest
  constructor
  · intro h
    obtain ⟨q, hq, hn⟩ := Option.map_eq_some_iff.mp h
    by_cases herr : q.err_ = .kErrorNone
    swap
    · rw [if_pos herr] at hn
      simp at hn
    rw [if_neg (not_not.mpr herr)] at hn
    obtain ⟨v, hv, hf⟩ := Parser.Parse_sound hpad hF rfl rfl rfl hlen hq herr
    obtain ⟨n', hd, hs⟩ := feed_init.mp hf
    refine ⟨v, hv, ?_⟩
    rw [hd, ← Except.ok.inj hn, hs]
    rfl
  · rintro ⟨v, hv, hd⟩
    exact parse_of_den A F rfl hF rest (.inl hlen) (hv.counted hlen) hv hd

/-- **Acceptance and denotation.** The parser ends; it ends without error on the texts of JSON,
unless a number overflows, and the document is then the denotation of the text. -/
theorem parse_denotation (hF : F.Local) {s : Bytes} (hlen : s.length < 2 ^ 31) (rest : Bytes) :
    ∃ r, Parse A F kParseDefault s rest = some r ∧
      ((∃ n, r = .ok n) ↔ ∃ v, JsonText s v ∧ (den F kParseDefault v).isSome = true) ∧
      ∀ n, r = .ok n → ∃ v, JsonText s v ∧ den F kParseDefault v = some n := by
  obtain ⟨r, hr⟩ := Option.isSome_iff_exists.mp (parse_isSome A F kParseDefault s rest)
  have hiff := fun n => @parse_ok_iff A F hF s hlen rest n
  rw [hr] at hiff
  simp only [Option.some.injEq] at hiff
  refine ⟨r, hr, ⟨?_, ?_⟩, fun n => (hiff n).mp⟩
  · rintro ⟨n, hn⟩
    obtain ⟨v, hv, hd⟩ := (hiff n).mp hn
    exact ⟨v, hv, by rw [hd]; rfl⟩
  · rintro ⟨v, hv, hd⟩
    obtain ⟨n, hn⟩ := Option.isSome_iff_exists.mp hd
    exact ⟨n, (hiff n).mpr ⟨v, hv, hn⟩⟩

/-- Conversions for texts without fractions and exponents. -/
def noFloats : FloatConv := ⟨fun _ => 0, fun _ _ => none, fun _ _ _ => none, fun _ _ _ => none,
    fun _ => 0⟩

/-- The text `[1]`. -/
theorem parse_denotation_array :
    ∃ r, Parse .avx2 noFloats kParseDefault [91, 49, 93] (List.replicate 61 0) = some r ∧
    ((∃ n, r = .ok n) ↔ ∃ v, JsonText [91, 49, 93] v ∧ (den noFloats kParseDefault v).isSome = true) ∧
    ∀ n, r = .ok n → ∃ v, JsonText [91, 49, 93] v ∧ den noFloats kParseDefault v = some n :=
  parse_denotation .avx2 noFloats (fun _ _ _ _ _ => rfl) (by decide) _

end Document

end SonicJson
