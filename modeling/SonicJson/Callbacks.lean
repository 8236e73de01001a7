/-
# The discipline of the callbacks

A parse tells its handler the events of a value, or a beginning of them, and nothing
after an answer `false`, as long as the words of `depth` are not counted past their
bits (`Parse_disciplined`). An array of so many zeros is told to have ended with none
(`Parse_count_wraps`).
-/
import SonicJson.Reuse
import SonicJson.Termination

namespace SonicJson

open Cursor Machine

namespace Parser

variable {σ : Type*} {E : Env σ} {pad s t : Bytes}

instance (a : Label × Parser σ) : Decidable (Fits E a) :=
  decidable_of_iff ((a.1 = .arr_cont → a.2.back % 2 ^ 31 + 1 < 2 ^ 31) ∧
    (a.1 = .obj_cont → a.2.back + 1 < 2 ^ 32) ∧
      (a.1 = .obj_key → 2 ^ 31 ≤ a.2.back → a.2.memberByte E ≠ Ch.lbrace ∧
        a.2.memberByte E ≠ Ch.lbrack))
    ⟨fun h => ⟨h.1, h.2.1, h.2.2⟩, fun h => ⟨h.elem, h.member, h.value⟩⟩

/-- Where a document is parsed from the text, any handler gets to its end or stops the parser. -/
theorem Parse_after_document {H : SAX σ} {A : Arch} {F : FloatConv} {parseFlags : ParseFlags}
    {s₀ : σ} {q : Parser σ} {rest : Bytes} {n : Node} (hpad : Sentinel pad)
    (hskip : H.check_key_return = false) (hrest : rest.length + 3 = pad.length)
    (hdoc : Document.Parse A F parseFlags s rest = some (.ok n))
    (hq : Parse ⟨A, F, parseFlags, H⟩ (s ++ pad) s.length s₀ = some q) :
    q.err_ = .kErrorNone ∨ q.err_ = .kSaxTermination := by
  obtain ⟨d, h1, h2⟩ := Option.map_eq_some_iff.mp hdoc
  have hd : d.err_ = .kErrorNone := by
    by_contra he
    rw [if_pos he] at h2
    simp at h2
  -- the document's own padding may be another one
  have hlen : (Ch.x :: Ch.quote :: Ch.x :: rest).length = pad.length := hrest
  have hboth : Both (Ch.x :: Ch.quote :: Ch.x :: rest) pad s
      (reset (s ++ (Ch.x :: Ch.quote :: Ch.x :: rest)) s.length SAXHandler.init)
      (reset (s ++ pad) s.length SAXHandler.init) :=
        ⟨⟨rfl, rfl, rfl, rfl, rfl, rfl⟩, onText_reset _ _ _, onText_reset _ _ _⟩
  obtain ⟨d', q', h3, h4, h5⟩ := parseAll_twin (Document.sentinel rest) hpad hlen.symm hboth
    (E := ⟨A, F, parseFlags, SAXHandler⟩)
  obtain rfl := Option.some.inj (h1.symm.trans h3)
  exact Parse_terminated SAXHandler_obliging hpad hskip hq h4 (h5.err.trans hd)

/-- **The callbacks of a parse are those of a value**, or a beginning of them; nothing is told after
an answer `false`, and on a text that a document is parsed from the error is then `kSaxTermination`.
-/
theorem Parse_disciplined (hpad : Sentinel pad) (hskip : E.H.check_key_return = false) (s₀ : σ)
    (hfit : ∀ n a, Steps (step E.logged) n ((logged_reset s pad s₀).start E.logged) a →
    Fits E.logged a) :
    ∃ q, Parse E.logged (s ++ pad) s.length (s₀, []) = some q ∧ Prefix q.sax.2.events ∧
      (q.err_ = .kErrorNone → ∃ t : EventTree, q.sax.2.events = t.events) ∧
      ∀ before e after, q.sax.2 = before ++ (e, false) :: after → after = [] ∧ q.err_ ≠ .kErrorNone ∧
        ∀ rest n, rest.length + 3 = pad.length → Document.Parse E.A E.F E.parseFlags s rest =
          some (.ok n) →
          q.err_ = .kSaxTermination := by
  have hon : OnText (logged_reset s pad s₀) pad s := onText_reset s pad _
  obtain ⟨n, q, h1, h2⟩ := parseImpl_isSome hpad hon (E := E.logged)
  have hstart : Nested ((logged_reset s pad s₀).start E.logged) :=
    nested_start ⟨rfl, rfl, fun x hx => absurd hx List.not_mem_nil⟩ rfl
  have hd :=
    (h1.invariant_of (fun a b ha hf hs => nested_step hskip ha hf hs) hfit hstart).disciplined rfl
  obtain ⟨r, h3, h4, h5⟩ := parseAll_eq h2
  refine ⟨r, h3, h4 ▸ hd.well_nested, fun h0 => h4 ▸ hd.complete (h5 h0), fun before e after hlog => ?_⟩
  obtain ⟨h6, h7⟩ := hd.rejected before e after (h4 ▸ hlog)
  have herr : r.err_ ≠ .kErrorNone := fun h0 => h7 (h5 h0)
  refine ⟨h6, herr, fun rest n hrest hdoc => ?_⟩
  exact (Parse_after_document (H := E.H.logged) hpad hskip hrest hdoc h3).resolve_left herr

/-- The parser of the runs here. -/
abbrev accepted : Env (Unit × Log) := Env.logged ⟨.avx2, Document.noFloats, kParseDefault,
    Object.accepting⟩

/-- The text `[1]`. -/
theorem Parse_disciplined_array :
    ∃ q, Parse (Env.logged ⟨.avx2, Document.noFloats, kParseDefault, Object.accepting⟩)
    ([91, 49, 93] ++ Ch.x :: Ch.quote :: Ch.x :: List.replicate 61 0) 3 ((), []) = some q ∧
    Prefix q.sax.2.events ∧
      (q.err_ = .kErrorNone → ∃ t : EventTree, q.sax.2.events = t.events) ∧
      ∀ before e after, q.sax.2 = before ++ (e, false) :: after → after = [] ∧ q.err_ ≠ .kErrorNone ∧
        ∀ rest n, rest.length + 3 = 64 →
          Document.Parse .avx2 Document.noFloats kParseDefault [91, 49, 93] rest = some (.ok n) →
          q.err_ = .kSaxTermination := by
  refine Parse_disciplined (E := ⟨.avx2, Document.noFloats, kParseDefault, Object.accepting⟩)
    (Document.sentinel (List.replicate 61 0)) rfl () fun n a ha => ?_
  have hmem := @Steps.mem_trace _ _ _ 4 _ _ ha (by decide +kernel)
  exact (show ∀ a ∈ trace _ 4 _, Fits accepted a by decide +kernel) a hmem

/-! ### An array of 2 ^ 31 elements -/

/-- The text behind the bracket of an array of `n + 1` zeros. -/
def zeros : ℕ → Bytes
  | 0 => [48, Ch.rbrack]
  | n + 1 => 48 :: Ch.comma :: zeros n

variable {p : Parser (Unit × Log)} {d : ℕ} {r : Bytes}

theorem numTok_zero : NumTok [48] := .mk (m := []) (i := [48]) (f := []) (e := [])
    (.inl rfl) .zero .none .none

/-- A zero, and the byte after it. -/
theorem zero_value {b : UInt8} (hpad : Sentinel pad) (h : Got p pad 48 (b :: r))
    (hb : b = Ch.comma ∨ b = Ch.rbrack) :
    ∃ q, step accepted (.arr_val, p) = some (.arr_cont, q) ∧ Got q pad b r ∧ q.depth = p.depth ∧
      q.sax.2 = p.sax.2 ++ [(.primitive (.Uint 0), true)] := by
  have hend : NumEnd (b :: r) := by rcases hb with rfl | rfl <;> exact ⟨by decide, by decide, by decide⟩
  have hspace : IsSpace b = false := by rcases hb with rfl | rfl <;> decide
  have hfeed : feed Document.noFloats kParseDefault accepted.H (.num [48]) p.sax =
      some ((), p.sax.2 ++ [(.primitive (.Uint 0), true)]) := rfl
  have hfast : Fast Document.noFloats kParseDefault [48] := fun _ => rfl
  obtain ⟨q, h1, h2, -⟩ :=
    scalar_done (E := accepted) (v := .num [48]) hpad (fun _ _ _ _ _ => rfl) rfl h (.inr hfast)
    (.num numTok_zero) ⟨by decide, by decide⟩ hend hfeed
  refine ⟨q.SkipSpace, congrArg some (h2 .arr_cont), h1.text.SkipSpace ?_, h1.depth, ?_⟩
  · rw [List.dropWhile_cons, if_neg (by rw [hspace]; decide)]
  · exact congrArg Prod.snd h1.sax

theorem count_single (hd : p.depth = [d]) : p.count = p.setDepth [(d + 1) % 2 ^ 32] := by rw [count, hd]

/-- The comma after an element. -/
theorem zeros_comma (h : Got p pad Ch.comma (48 :: r)) (hd : p.depth = [d]) :
    ∃ q, step accepted (.arr_cont, p) = some (.arr_val, q) ∧ Got q pad 48 r ∧
      q.depth = [(d + 1) % 2 ^ 32] ∧ q.sax = p.sax := by
  have h' := (h.setDepth [(d + 1) % 2 ^ 32]).SkipSpace (b := 48) (t := r)
    (by rw [List.dropWhile_cons, if_neg (by decide)])
  refine ⟨_, congrArg some ?_, h', rfl, rfl⟩
  rw [arr_cont, count_single hd]
  exact if_pos h.c

/-- The bracket after the last one. -/
theorem zeros_end (h : Got p pad Ch.rbrack []) (hd : p.depth = [d]) :
    ∃ q, step accepted (.arr_cont, p) = some (.doc_end, q) ∧
    OnText q pad [] ∧
      q.sax.2 = p.sax.2 ++ [(.EndArray ((d + 1) % 2 ^ 32 &&& (kArrMask - 1)), true)] := by
  have h' :=
    (h.setDepth [(d + 1) % 2 ^ 32]).call (accepted.H.EndArray ((d + 1) % 2 ^ 32 &&& (kArrMask - 1)))
  have hc : (p.setDepth [(d + 1) % 2 ^ 32]).c = Ch.rbrack := h.c
  refine ⟨_, congrArg some ?_, h'.setDepth [], rfl⟩
  rw [arr_cont, count_single hd, hc, if_neg (by decide), if_pos rfl]
  exact scope_end_outer h.err rfl

/-- The run on the elements. -/
theorem zeros_run (hpad : Sentinel pad) :
    ∀ (n : ℕ) {p : Parser (Unit × Log)} {d : ℕ}, Got p pad 48 (zeros n).tail →
    p.depth = [d] → ∃ m q, Steps (step accepted) m (.arr_val, p) (.doc_end, q) ∧ OnText q pad [] ∧
      q.sax.2 = p.sax.2 ++ List.replicate (n + 1) (.primitive (.Uint 0), true) ++
        [(.EndArray ((d + (n + 1)) % 2 ^ 32 &&& (kArrMask - 1)), true)]
  | 0, p, d, h, hd => by
    obtain ⟨q, h1, h2, h3, h4⟩ := zero_value hpad h (.inr rfl)
    obtain ⟨q', h5, h6, h7⟩ := zeros_end h2 (h3.trans hd)
    refine ⟨2, q', .head h1 (.one h5), h6, ?_⟩
    rw [h7, h4]
    rfl
  | n + 1, p, d, h, hd => by
    obtain ⟨r, hr⟩ : ∃ r, zeros n = 48 :: r := by cases n <;> exact ⟨_, rfl⟩
    have h' : Got p pad 48 (Ch.comma :: 48 :: r) := by rwa [← hr]
    obtain ⟨q, h1, h2, h3, h4⟩ := zero_value hpad h' (.inl rfl)
    obtain ⟨q', h5, h6, h7, h8⟩ := zeros_comma h2 (h3.trans hd)
    obtain ⟨m, q'', h9, h10, h11⟩ := zeros_run hpad n (p := q') (by rwa [hr]) h7
    refine ⟨m + 2, q'', .head h1 (.head h5 h9), h10, ?_⟩
    rw [h11, h8, h4, show ((d + 1) % 2 ^ 32 + (n + 1)) % 2 ^ 32 = (d + (n + 1 + 1)) % 2 ^ 32 by omega,
      List.replicate_succ (n := n + 1)]
    simp only [List.append_assoc, List.cons_append, List.nil_append]

/-- The bracket before the first one. -/
theorem zeros_start (h : OnText p pad (Ch.lbrack :: 48 :: r)) (hd : p.depth = []) :
    ∃ q, p.start accepted = (.arr_val, q) ∧ Got q pad 48 r ∧ q.depth = [kArrMask] ∧
      q.sax.2 = p.sax.2 ++ [(.StartArray, true)] := by
  have h1 :=
    h.SkipSpace (b := Ch.lbrack) (t := 48 :: r) (by rw [List.dropWhile_cons, if_neg (by decide)])
  have h2 := ((h1.call accepted.H.StartArray).setDepth [kArrMask]).SkipSpace (b := 48) (t := r)
    (by rw [List.dropWhile_cons, if_neg (by decide)])
  refine ⟨_, ?_, h2, rfl, rfl⟩
  rw [start, if_pos h1.c, start_array, sonic_sax_check_ok rfl]
  have hd' : (p.SkipSpace.call accepted.H.StartArray).2.depth = [] := hd
  dsimp only
  rw [hd', if_neg (by rw [h2.c]; decide)]

/-- The parse of an array of `n + 1` zeros. -/
theorem zeros_parse (hpad : Sentinel pad) (n : ℕ) :
    ∃ q, Parse accepted (Ch.lbrack :: zeros n ++ pad) (Ch.lbrack :: zeros n).length ((), []) =
      some q ∧ q.err_ = .kErrorNone ∧
      q.sax.2.events = .StartArray :: List.replicate (n + 1) (.primitive (.Uint 0)) ++
        [.EndArray ((kArrMask + (n + 1)) % 2 ^ 32 &&& (kArrMask - 1))] := by
  obtain ⟨r, hr⟩ : ∃ r, zeros n = 48 :: r := by cases n <;> exact ⟨_, rfl⟩
  have hon := onText_reset (Ch.lbrack :: zeros n) pad ((), ([] : Log))
  obtain ⟨p, h1, h2, h3, h4⟩ := zeros_start (hr ▸ hon) rfl
  obtain ⟨m, q, h5, h6, h7⟩ := zeros_run hpad n (hr ▸ h2) h3
  rw [← h1, ← hr] at h5
  have h8 := h6.hasTrailingChars.mpr (.nil [])
  rw [Parse, parseAll, parseImpl_of_steps hpad hon h5, Option.map_some, if_pos h6.err]
  refine ⟨_, rfl, by simp only [h8, Bool.false_eq_true, if_false], ?_⟩
  rw [show q.sax.2.events = _ from congrArg Log.events h7, h4]
  simp [Log.events, reset]

/-- A value does not begin with the end of an array. -/
theorem events_head (t : EventTree) : ∃ e es, t.events = e :: es ∧ ∀ n, e ≠ .EndArray n := by
  cases t <;> exact ⟨_, _, rfl, fun n => Event.noConfusion⟩

/-- The end of an array of primitive values carries their number. -/
theorem elems_primitive {e : Scalar} : ∀ {n k m : ℕ} {vs : List EventTree} {es es' : List Event},
    List.replicate n (.primitive e) ++ .EndArray k :: es = EventTree.elems vs ++ .EndArray m ::
      es' → vs.length = n ∧ m = k
  | 0, k, m, [], es, es', h => ⟨rfl, by simpa using (List.cons.inj h).1.symm⟩
  | 0, k, m, v :: vs, es, es', h => by
    obtain ⟨a, as, ha, hne⟩ := events_head v
    rw [EventTree.elems, ha] at h
    exact absurd (List.cons.inj h).1.symm (hne k)
  | n + 1, k, m, [], es, es', h => Event.noConfusion (List.cons.inj h).1
  | n + 1, k, m, v :: vs, es, es', h => by
    cases v with
    | leaf e' =>
      obtain ⟨h1, h2⟩ := elems_primitive (List.cons.inj h).2
      exact ⟨by rw [List.length_cons, h1], h2⟩
    | arr us => exact Event.noConfusion (List.cons.inj h).1
    | obj ms => exact Event.noConfusion (List.cons.inj h).1

/-- **The count wraps**: an array of 2 ^ 31 zeros is told to have ended with none. -/
theorem Parse_count_wraps :
    ∃ q, Parse accepted (Ch.lbrack :: zeros (2 ^ 31 - 1) ++ Ch.x :: Ch.quote :: Ch.x ::
    List.replicate 61 0)
    (Ch.lbrack :: zeros (2 ^ 31 - 1)).length ((), []) = some q ∧ q.err_ = .kErrorNone ∧
    ¬Prefix q.sax.2.events := by
  obtain ⟨q, h1, h2, h3⟩ := zeros_parse (Document.sentinel (List.replicate 61 0)) (2 ^ 31 - 1)
  refine ⟨q, h1, h2, ?_⟩
  rintro ⟨t, es, ht⟩
  rw [h3] at ht
  cases t with
  | leaf e => exact Event.noConfusion (List.cons.inj ht).1
  | arr vs =>
    rw [EventTree.events, List.cons_append, List.cons_append, List.append_assoc] at ht
    obtain ⟨h4, h5⟩ := elems_primitive (List.cons.inj ht).2
    rw [h4, kArrMask] at h5
    exact absurd h5 (by decide)
  | obj ms => exact Event.noConfusion (List.cons.inj ht).1

end Parser

end SonicJson
