/-
# A handler that stops the parser

The runs of two parsers that differ in their handlers, the second of which answers `true`
to everything: they go the same way until the first handler answers `false`, and then the
first run ends with `kSaxTermination`, unless the second ends with an error.
-/
import SonicJson.Discipline
import SonicJson.Twin

namespace SonicJson

open Cursor Machine

namespace Parser

variable {σ τ : Type*} {A : Arch} {F : FloatConv} {parseFlags : ParseFlags} {H : SAX σ} {H' : SAX τ}
    {p : Parser σ}
  {p' : Parser τ} {lbl cont : Label}

/-- A handler that answers `true` to all callbacks. -/
structure Obliging (H : SAX τ) : Prop where
  check_key_return : H.check_key_return = false
  tell : ∀ e s, (H.tell e s).1 = true

theorem SAXHandler_obliging : Obliging SAXHandler := ⟨rfl, fun e s => by cases e <;> rfl⟩

/-- The parsers differ in their handlers alone. -/
structure Alike (p : Parser σ) (p' : Parser τ) : Prop where
  json_buf_ : p'.json_buf_ = p.json_buf_
  len_ : p'.len_ = p.len_
  pos_ : p'.pos_ = p.pos_
  err_ : p'.err_ = p.err_
  scan : p'.scan = p.scan
  depth : p'.depth = p.depth
  c : p'.c = p.c

/-- The same, or the handler of the first has stopped it, or the second has met an error. -/
inductive Tracks : Label × Parser σ → Label × Parser τ → Prop
  | alike {lbl : Label} {p : Parser σ} {p' : Parser τ} : Alike p p' → p.err_ = .kErrorNone →
    Tracks (lbl, p) (lbl, p')
  | ended {p : Parser σ} {p' : Parser τ} : Alike p p' → Tracks (.doc_end, p) (.doc_end, p')
  | terminated {p : Parser σ} {a' : Label × Parser τ} : p.err_ = .kSaxTermination →
    Tracks (.doc_end, p) a'
  | failed {a : Label × Parser σ} {p' : Parser τ} : p'.err_ ≠ .kErrorNone → Tracks a (.doc_end, p')

namespace Alike

theorem SkipSpace (h : Alike p p') : Alike p.SkipSpace p'.SkipSpace := by
  unfold Parser.SkipSpace
  rw [h.json_buf_, h.pos_, h.scan]
  exact ⟨rfl, h.len_, rfl, h.err_, rfl, h.depth, rfl⟩

theorem setDepth (h : Alike p p') (ds : List ℕ) : Alike (p.setDepth ds) (p'.setDepth ds) :=
  ⟨h.json_buf_, h.len_, h.pos_, h.err_, h.scan, rfl, h.c⟩

theorem call (h : Alike p p') (f : σ → Bool × σ) (f' : τ → Bool × τ) :
    Alike (p.call f).2 (p'.call f').2 :=
  ⟨h.json_buf_, h.len_, h.pos_, h.err_, h.scan, h.depth, h.c⟩

theorem setParseError (h : Alike p p') (e : SonicError) :
    Alike (p.setParseError e) (p'.setParseError e) :=
  ⟨h.json_buf_, h.len_, h.pos_, rfl, h.scan, h.depth, h.c⟩

theorem setFirstError (h : Alike p p') (e : SonicError) :
    Alike (p.setFirstError e) (p'.setFirstError e) :=
  ⟨h.json_buf_, h.len_, h.pos_, by simp only [Parser.setFirstError, h.err_], h.scan, h.depth, h.c⟩

theorem move (h : Alike p p') (q : ℕ) : Alike { p with pos_ := q } { p' with pos_ := q } :=
  ⟨h.json_buf_, h.len_, rfl, h.err_, h.scan, h.depth, h.c⟩

theorem count (h : Alike p p') : Alike p.count p'.count := by
  unfold Parser.count
  rw [h.depth]
  split
  · exact h
  · exact h.setDepth _

theorem back (h : Alike p p') : p'.back = p.back := by rw [Parser.back, Parser.back, h.depth]

end Alike

theorem tracks_invalid (h : Alike p p') : Tracks p.err_invalid_char p'.err_invalid_char :=
  .ended (h.setFirstError _)

theorem tracks_check_err {f : Parser σ → Label × Parser σ} {f' : Parser τ → Label × Parser τ}
    (h : Alike p p') (hf : p.err_ = .kErrorNone → Tracks (f p) (f' p')) :
    Tracks (p.sonic_check_err f) (p'.sonic_check_err f') := by
  rw [sonic_check_err, sonic_check_err, h.err_]
  split
  · exact tracks_invalid h
  · exact hf (not_not.mp ‹_›)

/-- The handler stops the parser where there was no error so far. -/
theorem terminated_first {q : Parser σ} {a' : Label × Parser τ} (h : q.err_ = .kErrorNone) :
    Tracks (.doc_end, q.setFirstError .kSaxTermination) a' := by
  refine .terminated ?_
  rw [setFirstError]
  exact if_pos h

theorem tracks_sax_check {f : Parser σ → Label × Parser σ} {f' : Parser τ → Label × Parser τ}
    {x : Bool × Parser σ} {x' : Bool × Parser τ} (he : x.2.err_ = .kErrorNone) (ht : x'.1 = true)
    (hf : Tracks (f x.2) (f' x'.2)) : Tracks (sonic_sax_check x f) (sonic_sax_check x' f') := by
  rw [sonic_sax_check, sonic_sax_check_ok ht]
  split
  · exact hf
  · exact terminated_first he

theorem tracks_scope_end (h : Alike p p') : Tracks p.scope_end p'.scope_end := by
  refine tracks_check_err h fun he => ?_
  have h1 := h.setDepth p.depth.tail
  rw [h.depth]
  dsimp only
  rw [setDepth_depth, setDepth_depth]
  split
  · exact .ended h1
  · rw [h1.SkipSpace.back]
    exact .alike h1.SkipSpace he

variable (hA : Obliging H')
include hA

/-- The end of a container is found at once, or not. -/
theorem tracks_first {b : UInt8} (h : Alike p p') (he : p.err_ = .kErrorNone) (e : Event)
    (f : σ → Bool × σ) :
    Tracks (if p.c = b then sonic_sax_check (p.call f) scope_end else (lbl, p))
      (if p'.c = b then sonic_sax_check (p'.call (H'.tell e)) scope_end else (lbl, p')) := by
  rw [h.c]
  split
  · exact tracks_sax_check he (hA.tell e _) (tracks_scope_end (h.call _ _))
  · exact .alike h he

theorem tracks_start_object (h : Alike p p') (he : p.err_ = .kErrorNone) :
    Tracks (p.start_object ⟨A, F, parseFlags, H⟩) (p'.start_object ⟨A, F, parseFlags, H'⟩) := by
  have h1 := ((h.call H.StartObject H'.StartObject).setDepth (kObjMask :: p.depth)).SkipSpace
  refine tracks_sax_check he (hA.tell .StartObject _) ?_
  have hd : (p'.call H'.StartObject).2.depth = (p.call H.StartObject).2.depth := h.depth
  dsimp only
  rw [hd]
  exact tracks_first hA h1 he (.EndObject 0) _

theorem tracks_start_array (h : Alike p p') (he : p.err_ = .kErrorNone) :
    Tracks (p.start_array ⟨A, F, parseFlags, H⟩) (p'.start_array ⟨A, F, parseFlags, H'⟩) := by
  have h1 := ((h.call H.StartArray H'.StartArray).setDepth (kArrMask :: p.depth)).SkipSpace
  refine tracks_sax_check he (hA.tell .StartArray _) ?_
  have hd : (p'.call H'.StartArray).2.depth = (p.call H.StartArray).2.depth := h.depth
  dsimp only
  rw [hd]
  exact tracks_first hA h1 he (.EndArray 0) _

omit hA in
/-- Two scans of a primitive value: they end alike, and where the answers differ the handler of the
first has stopped it. -/
structure Matches (x : Bool × Parser σ) (x' : Bool × Parser τ) : Prop where
  alike : Alike x.2 x'.2
  ok : x'.1 = x.1 ∨ x.1 = false ∧ x.2.err_ = .kErrorNone

omit hA in
theorem matches_call {f : σ → Bool × σ} {f' : τ → Bool × τ} (h : Alike p p') (he : p.err_ = .kErrorNone)
    (ht : ∀ s, (f' s).1 = true) : Matches (p.call f) (p'.call f') := by
  refine ⟨h.call _ _, ?_⟩
  rw [show (p'.call f').1 = true from ht _]
  cases hb : (p.call f).1 with
  | true => exact .inl rfl
  | false => exact .inr ⟨rfl, he⟩

theorem matches_literal {i n : ℕ} {lit : Bytes} {e : Scalar} (h : Alike p p')
    (he : p.err_ = .kErrorNone) :
    Matches
      (if EqBytes4 p.json_buf_ i lit then call { p with pos_ := n } (H.primitive e)
        else (false, p.setParseError .kParseErrorInvalidChar))
      (if EqBytes4 p'.json_buf_ i lit then call { p' with pos_ := n } (H'.primitive e)
        else (false, p'.setParseError .kParseErrorInvalidChar)) := by
  have hb : EqBytes4 p'.json_buf_ i lit = EqBytes4 p.json_buf_ i lit := by rw [h.json_buf_]
  rw [hb]
  split
  · exact matches_call (h.move n) he (hA.tell (.primitive e))
  · exact ⟨h.setParseError _, .inl rfl⟩

omit hA in
theorem matches_parseStr {event : Bytes → σ → Bool × σ} {event' : Bytes → τ → Bool × τ} (h : Alike p p')
    (ht : ∀ k s, (event' k s).1 = true) :
    Matches (p.parseStr ⟨A, F, parseFlags, H⟩ event) (p'.parseStr ⟨A, F, parseFlags, H'⟩ event') := by
  rw [parseStr, parseStr, parseStringHelper, parseStringHelper, h.json_buf_, h.pos_]
  generalize parseStringInplace _ _ p.json_buf_ p.pos_ = r
  have h1 : Alike { p with pos_ := r.src, json_buf_ := r.buf, err_ := r.err }
      { p' with pos_ := r.src, json_buf_ := r.buf, err_ := r.err } :=
        ⟨rfl, h.len_, rfl, rfl, h.scan, h.depth, h.c⟩
  dsimp only
  split
  · exact ⟨h1, .inl rfl⟩
  · exact matches_call h1 (not_not.mp ‹_›) (ht _)

theorem matches_string (h : Alike p p') :
    Matches (p.parseStrInPlace ⟨A, F, parseFlags, H⟩) (p'.parseStrInPlace ⟨A, F, parseFlags, H'⟩) :=
  matches_parseStr h fun k => hA.tell (.primitive (.String k))

theorem matches_key (h : Alike p p') :
    Matches (p.parseKeyInPlace ⟨A, F, parseFlags, H⟩) (p'.parseKeyInPlace ⟨A, F, parseFlags, H'⟩) :=
  matches_parseStr h fun k => hA.tell (.Key k)

/-- Behind a number the parsers are alike, or the handler of the first has stopped it. -/
theorem number_tracks (h : Alike p p') :
    Alike (p.parseNumber ⟨A, F, parseFlags, H⟩) (p'.parseNumber ⟨A, F, parseFlags, H'⟩) ∨
      (p.parseNumber ⟨A, F, parseFlags, H⟩).err_ = .kSaxTermination := by
  unfold Parser.parseNumber
  rw [h.json_buf_, h.len_, h.pos_]
  generalize SonicJson.parseNumber F parseFlags p.json_buf_ p.len_ p.pos_ = r
  dsimp only
  split
  · exact .inl ⟨rfl, rfl, rfl, rfl, h.scan, h.depth, h.c⟩
  · rename_i e _
    have ht : (H'.primitive e p'.sax).1 = true := hA.tell (.primitive e) _
    cases hb : (H.primitive e p.sax).1 with
    | true => exact .inl ⟨rfl, rfl, rfl, by rw [ht], h.scan, h.depth, h.c⟩
    | false => exact .inr rfl

theorem tracks_value (h : Alike p p') (he : p.err_ = .kErrorNone) :
    Tracks (p.value ⟨A, F, parseFlags, H⟩ cont) (p'.value ⟨A, F, parseFlags, H'⟩ cont) := by
  have literal : ∀ {x : Bool × Parser σ} {x' : Bool × Parser τ}, Matches x x' → Tracks
      (x.2.sonic_check_err fun p => if !x.1 then (.doc_end, p.setParseError .kSaxTermination)
        else (cont, p.SkipSpace))
      (x'.2.sonic_check_err fun p => if !x'.1 then (.doc_end, p.setParseError .kSaxTermination)
        else (cont, p.SkipSpace)) := by
    intro x x' hx
    refine tracks_check_err hx.alike fun he => ?_
    cases hb : x.1 with
    | false => exact .terminated rfl
    | true =>
      rw [hx.ok.resolve_right fun hc => by simp [hb] at hc, hb]
      exact .alike hx.alike.SkipSpace he
  rw [value, value, h.c]
  split
  · exact tracks_start_object hA h he
  split
  · exact tracks_start_array hA h he
  split
  · rcases number_tracks hA h (A := A) (F := F) (H := H) with h1 | h1
    · exact tracks_check_err h1 fun he => .alike h1.SkipSpace he
    · rw [sonic_check_err, if_pos (by rw [h1]; decide)]
      refine .terminated ?_
      rw [setFirstError, if_neg (by rw [h1]; decide)]
      exact h1
  split
  · rw [parseTrue, parseTrue, h.pos_]
    exact literal (matches_literal hA h he)
  split
  · rw [parseFalse, parseFalse, h.pos_]
    exact literal (matches_literal hA h he)
  split
  · rw [parseNull, parseNull, h.pos_]
    exact literal (matches_literal hA h he)
  split
  · have hx := @matches_string _ _ A F parseFlags H _ _ _ hA h
    have hn : Tracks ((p.parseStrInPlace ⟨A, F, parseFlags, H⟩).2.sonic_check_err fun p =>
        (cont, p.SkipSpace))
        ((p'.parseStrInPlace ⟨A, F, parseFlags, H'⟩).2.sonic_check_err fun p => (cont, p.SkipSpace)) :=
      tracks_check_err hx.alike fun he => .alike hx.alike.SkipSpace he
    rw [sonic_sax_check, sonic_sax_check]
    rcases hx.ok with hb | ⟨hb, h0⟩
    · rw [hb]
      split
      · exact hn
      · exact .ended (hx.alike.setFirstError _)
    · rw [if_neg (by rw [hb]; decide)]
      exact terminated_first h0
  · exact tracks_invalid h

theorem tracks_obj_key (hskip : H.check_key_return = false) (h : Alike p p') :
    Tracks (p.obj_key ⟨A, F, parseFlags, H⟩) (p'.obj_key ⟨A, F, parseFlags, H'⟩) := by
  rw [obj_key, obj_key, h.c]
  split
  · exact tracks_invalid h
  have hx := @matches_key _ _ A F parseFlags H _ _ _ hA h
  refine tracks_check_err hx.alike fun he => ?_
  have h1 := hx.alike.SkipSpace
  dsimp only
  rw [h1.c]
  split
  · exact tracks_invalid h1
  rcases hx.ok with hb | ⟨hb, -⟩
  · rw [hb]
    split
    · rw [if_neg (by rw [hskip]; decide), if_neg (by rw [hA.check_key_return]; decide)]
      exact .ended (h1.setFirstError _)
    · exact tracks_value hA h1.SkipSpace he
  · rw [if_pos (by rw [hb]; rfl), if_neg (by rw [hskip]; decide)]
    exact terminated_first he

theorem tracks_obj_cont (h : Alike p p') (he : p.err_ = .kErrorNone) :
    Tracks (p.obj_cont ⟨A, F, parseFlags, H⟩) (p'.obj_cont ⟨A, F, parseFlags, H'⟩) := by
  have h1 := h.count
  have he' : p.count.err_ = .kErrorNone := by
    rw [count_counted]
    exact he
  rw [obj_cont, obj_cont]
  dsimp only
  rw [h1.c, h1.back]
  split
  · exact .alike h1.SkipSpace he'
  split
  · exact tracks_invalid h1
  · exact tracks_sax_check he' (hA.tell (.EndObject _) _) (tracks_scope_end (h1.call _ _))

theorem tracks_arr_cont (h : Alike p p') (he : p.err_ = .kErrorNone) :
    Tracks (p.arr_cont ⟨A, F, parseFlags, H⟩) (p'.arr_cont ⟨A, F, parseFlags, H'⟩) := by
  have h1 := h.count
  have he' : p.count.err_ = .kErrorNone := by
    rw [count_counted]
    exact he
  rw [arr_cont, arr_cont]
  dsimp only
  rw [h1.c, h1.back]
  split
  · exact .alike h1.SkipSpace he'
  split
  · exact tracks_sax_check he' (hA.tell (.EndArray _) _) (tracks_scope_end (h1.call _ _))
  · exact tracks_invalid h1

theorem tracks_parsePrimitives (h : Alike p p') (he : p.err_ = .kErrorNone) :
    Tracks (.doc_end, p.parsePrimitives ⟨A, F, parseFlags, H⟩) (.doc_end,
      p'.parsePrimitives ⟨A, F, parseFlags, H'⟩) := by
  have ended : ∀ {x : Bool × Parser σ} {x' : Bool × Parser τ}, Matches x x' → Tracks
      (.doc_end, if !x.1 then x.2.setFirstError .kSaxTermination else x.2)
      (.doc_end, if !x'.1 then x'.2.setFirstError .kSaxTermination else x'.2) := by
    intro x x' hx
    rcases hx.ok with hb | ⟨hb, h0⟩
    · rw [hb]
      split
      · exact .ended (hx.alike.setFirstError _)
      · exact .ended hx.alike
    · rw [if_pos (by rw [hb]; rfl)]
      exact terminated_first h0
  rw [parsePrimitives, parsePrimitives, h.c]
  dsimp only
  split
  · rcases number_tracks hA h (A := A) (F := F) (H := H) with h1 | h1
    · exact .ended h1
    · exact .terminated h1
  split
  · have hx := @matches_string _ _ A F parseFlags H _ _ _ hA h
    have hlen := hx.alike.len_
    have hpos := hx.alike.pos_
    rw [hlen, hpos]
    split
    · exact .ended (hx.alike.setParseError _)
    · exact ended hx
  split
  · rw [parseFalse, parseFalse, h.pos_]
    exact ended (matches_literal hA h he)
  split
  · rw [parseTrue, parseTrue, h.pos_]
    exact ended (matches_literal hA h he)
  split
  · rw [parseNull, parseNull, h.pos_]
    exact ended (matches_literal hA h he)
  · exact .ended (h.setParseError _)

theorem tracks_start (h : Alike p p') (he : p.err_ = .kErrorNone) :
    Tracks (p.start ⟨A, F, parseFlags, H⟩) (p'.start ⟨A, F, parseFlags, H'⟩) := by
  have h1 := h.SkipSpace
  rw [start, start, h1.c]
  split
  · exact tracks_start_array hA h1 he
  split
  · exact tracks_start_object hA h1 he
  · exact tracks_parsePrimitives hA h1 he

/-- **A step keeps it**, where the second run is not over. -/
theorem tracks_step (hskip : H.check_key_return = false) {a : Label × Parser σ}
    {a' b' : Label × Parser τ} (h : Tracks a a') (hb : step ⟨A, F, parseFlags, H'⟩ a' = some b') :
    (∃ b, step ⟨A, F, parseFlags, H⟩ a = some b ∧ Tracks b b') ∨ a.1 = .doc_end ∧ Tracks a b' := by
  cases h with
  | @alike lbl p p' h he =>
    left
    cases lbl with
    | obj_key =>
      obtain rfl := Option.some.inj hb
      exact ⟨_, rfl, tracks_obj_key hA hskip h⟩
    | obj_cont =>
      obtain rfl := Option.some.inj hb
      exact ⟨_, rfl, tracks_obj_cont hA h he⟩
    | arr_val =>
      obtain rfl := Option.some.inj hb
      exact ⟨_, rfl, tracks_value hA h he⟩
    | arr_cont =>
      obtain rfl := Option.some.inj hb
      exact ⟨_, rfl, tracks_arr_cont hA h he⟩
    | doc_end => exact absurd hb (by simp [step])
  | ended h => exact absurd hb (by simp [step])
  | terminated h => exact .inr ⟨rfl, .terminated h⟩
  | failed h => exact absurd hb (by simp [step])

/-- The first run ends where the second does, or its handler has stopped it, or the second has met
an error. -/
theorem tracks_run (hskip : H.check_key_return = false) {n : ℕ} {a : Label × Parser σ}
    {a' b' : Label × Parser τ} (hs : Steps (step ⟨A, F, parseFlags, H'⟩) n a' b')
    (h : Tracks a a') :
    ∃ m b, Steps (step ⟨A, F, parseFlags, H⟩) m a b ∧ Tracks b b' := by
  induction hs generalizing a with
  | refl => exact ⟨0, a, .refl a, h⟩
  | head hb _ ih =>
    rcases tracks_step hA hskip h hb with ⟨b, h1, h2⟩ | ⟨-, h2⟩
    · obtain ⟨m, c, h3, h4⟩ := ih h2
      exact ⟨m + 1, c, .head h1 h3, h4⟩
    · exact ih h2

theorem parseImpl_terminated {s pad : Bytes} (hpad : Sentinel pad)
    (hskip : H.check_key_return = false) (h : Alike p p') (hon : OnText p pad s)
    (hon' : OnText p' pad s) {q : Parser σ} {q' : Parser τ}
    (hq : p.parseImpl ⟨A, F, parseFlags, H⟩ = some q)
    (hq' : p'.parseImpl ⟨A, F, parseFlags, H'⟩ = some q') (herr : q'.err_ = .kErrorNone) :
    q.err_ = .kSaxTermination ∨ Alike q q' := by
  obtain ⟨n, r', h1, h2⟩ := parseImpl_isSome hpad hon' (E := ⟨A, F, parseFlags, H'⟩)
  obtain rfl := Option.some.inj (hq'.symm.trans h2)
  obtain ⟨m, b, h3, h4⟩ := tracks_run hA hskip h1 (tracks_start hA h hon.err)
  generalize ha : (Label.doc_end, q') = a' at h4
  cases h4 with
  | @alike lbl r r' h5 he =>
    obtain ⟨rfl, rfl⟩ := Prod.mk.inj ha
    rw [parseImpl_of_steps hpad hon h3] at hq
    exact .inr (Option.some.inj hq ▸ h5)
  | @ended r r' h5 =>
    obtain rfl := (Prod.mk.inj ha).2
    rw [parseImpl_of_steps hpad hon h3] at hq
    exact .inr (Option.some.inj hq ▸ h5)
  | @terminated r a' h5 =>
    rw [parseImpl_of_steps hpad hon h3] at hq
    exact .inl (Option.some.inj hq ▸ h5)
  | failed h5 =>
    obtain rfl := (Prod.mk.inj ha).2
    exact absurd herr h5

/-- **Where a parse with an obliging handler succeeds** a parse with another one succeeds or is
stopped by its handler. -/
theorem Parse_terminated {s pad : Bytes} (hpad : Sentinel pad) (hskip : H.check_key_return = false)
    {s₀ : σ} {s₀' : τ} {q : Parser σ} {q' : Parser τ}
    (hq : Parse ⟨A, F, parseFlags, H⟩ (s ++ pad) s.length s₀ = some q)
    (hq' : Parse ⟨A, F, parseFlags, H'⟩ (s ++ pad) s.length s₀' = some q')
    (herr : q'.err_ = .kErrorNone) :
    q.err_ = .kErrorNone ∨ q.err_ = .kSaxTermination := by
  obtain ⟨r, hr, rfl⟩ := Option.map_eq_some_iff.mp hq
  obtain ⟨r', hr', rfl⟩ := Option.map_eq_some_iff.mp hq'
  have hon := onText_reset s pad s₀
  have hon' := onText_reset s pad s₀'
  by_cases he : r'.err_ = .kErrorNone
  swap
  · rw [if_neg he] at herr
    exact absurd herr he
  rcases parseImpl_terminated hA hpad hskip ⟨rfl, rfl, rfl, rfl, rfl, rfl, rfl⟩ hon hon' hr hr' he
    with h1 | h1
  · rw [if_neg (by rw [h1]; exact SonicError.noConfusion)]
    exact .inr h1
  · have htrail : r.hasTrailingChars = r'.hasTrailingChars := by
      rw [hasTrailingChars, hasTrailingChars, h1.json_buf_, h1.pos_, h1.len_]
    rw [if_pos he] at herr
    rw [if_pos (h1.err_ ▸ he), htrail]
    exact .inl herr

end Parser

end SonicJson
