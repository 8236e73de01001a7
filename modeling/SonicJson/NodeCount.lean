/-
# The nodes that a text is told of

A handler puts a node on its stack for a value or a key at most, and every value and every
key of a text has a byte and a bracket, a comma or a colon of its own: on a text of JSON,
whatever the handler answers, twice the nodes that it is told of are not more than the
bytes and one (`Parse_nodes`). With the counts of `depth` too large for their words the
parser takes an array for an object, and stops at the next token.
-/
import SonicJson.Document
import SonicJson.Events
import SonicJson.IntegerToken

namespace SonicJson

open Cursor Machine

/-! ### The nodes of a log -/

/-- A node is put on the stack for the event, unless the handler has another place for it. -/
def Event.node : Event → Bool
  | .EndObject _ => false
  | .EndArray _ => false
  | _ => true

def Event.isKey : Event → Bool
  | .Key _ => true
  | _ => false

def nodesOf (es : List Event) : ℕ := es.countP Event.node

theorem nodesOf_append (es es' : List Event) : nodesOf (es ++ es') = nodesOf es + nodesOf es' :=
  List.countP_append

theorem nodesOf_end {e : Event} (h : e.node = false) : nodesOf [e] = 0 := by
  rw [nodesOf, List.countP_singleton, if_neg (by rw [h]; decide)]

namespace Parser

variable {σ : Type*} {E : Env σ} {p q : Parser (σ × Log)} {pad r s t u : Bytes} {b c : UInt8}
    {cont lbl : Label} {d m n : ℕ}
  {ds : List ℕ} {e : Event}

/-- The nodes that the handler was told of. -/
def nodes (p : Parser (σ × Log)) : ℕ := nodesOf p.sax.2.events

/-- The handler has stopped the parser only if it answered `false`, and not to a key that is skipped. -/
def Refused (E : Env σ) (p : Parser (σ × Log)) : Prop :=
  p.err_ = .kSaxTermination → ∃ e, (e, false) ∈ p.sax.2 ∧
    ¬(E.H.check_key_return = true ∧ e.isKey = true)

theorem Refused.of_err (h : p.err_ ≠ .kSaxTermination) : Refused E p := fun h' => absurd h' h

theorem nodes_congr (h : q.sax = p.sax) : nodes q = nodes p := by rw [nodes, nodes, h]

@[simp] theorem nodes_SkipSpace : nodes p.SkipSpace = nodes p := rfl

@[simp] theorem nodes_setDepth (ds : List ℕ) : nodes (p.setDepth ds) = nodes p := rfl

theorem nodes_call (e : Event) : nodes (p.call (E.H.told e)).2 = nodes p + nodesOf [e] := by
  rw [nodes, nodes, ← nodesOf_append]
  exact congrArg nodesOf (Log.events_append _ _)

/-- A call after which the handler has refused to go on, or not. -/
theorem told_cases (he : e.isKey = false) {f : Parser (σ × Log) → Label × Parser (σ × Log)} :
    sonic_sax_check (p.call (E.H.told e)) f = f (p.call (E.H.told e)).2 ∨
      ∃ q, sonic_sax_check (p.call (E.H.told e)) f = (.doc_end, q) ∧
        nodes q = nodes p + nodesOf [e] ∧ Refused E q := by
  rw [sonic_sax_check]
  cases hb : (p.call (E.H.told e)).1 with
  | true => exact .inl rfl
  | false =>
    refine .inr ⟨_, rfl, nodes_call e, fun _ => ⟨e, ?_, fun hc => by simp [he] at hc⟩⟩
    show (e, false) ∈ p.sax.2 ++ [(e, (E.H.tell e p.sax.1).1)]
    rw [show (E.H.tell e p.sax.1).1 = false from hb]
    exact List.mem_append_right _ List.mem_cons_self

/-! ### Primitive values -/

/-- A call of the handler for a value that is no container; `t` is left. -/
structure Answered (p : Parser (σ × Log)) (r : Bool × Parser (σ × Log)) (pad t : Bytes) : Prop where
  text : OnText r.2 pad t
  depth : r.2.depth = p.depth
  count : nodes r.2 = nodes p + 1
  refused : r.1 = false → ∃ e, (e, false) ∈ r.2.sax.2 ∧ e.isKey = false

theorem told_call {p' : Parser (σ × Log)} (e : Scalar) (h : OnText p' pad t)
    (hd : p'.depth = p.depth) (hs : p'.sax = p.sax) :
    Answered p (p'.call (E.H.told (.primitive e))) pad t := by
  refine ⟨h.call _, hd, ?_, fun hb => ⟨.primitive e, ?_, rfl⟩⟩
  · rw [nodes_call, nodes_congr hs]
    rfl
  · show (Event.primitive e, false) ∈ p'.sax.2 ++ [(.primitive e, (E.H.tell (.primitive e) p'.sax.1).1)]
    rw [show (E.H.tell (.primitive e) p'.sax.1).1 = false from hb]
    exact List.mem_append_right _ List.mem_cons_self

theorem told_literal {lit : Bytes} (e : Scalar) (h : Got p pad b r) (hr : b :: r = lit ++ t)
    (hn : lit.length = n + 1) :
    Answered p (call { p with pos_ := p.pos_ + n } (E.H.told (.primitive e))) pad t := by
  refine told_call e (h.move (Nat.le_add_right _ _) ?_) rfl rfl
  have h3 := h.byte
  rw [← List.cons_append, hr, List.append_assoc] at h3
  have h4 := h3.append
  have := h.pos
  rwa [hn, show p.pos_ - 1 + (n + 1) = p.pos_ + n by omega] at h4

theorem told_string {body : Bytes} (h : OnText p pad r) (hr : StrBody r body t) :
    Answered p (p.parseStrInPlace E.logged) pad t := by
  obtain ⟨p', h1, h2, h3, h4⟩ :=
    @parseStr_done _ E.logged _ _ _ _ _ (fun sv => E.H.told (.primitive (.String sv))) h
    (hr.unescape _)
  have : p.parseStrInPlace E.logged = p'.call (E.H.told (.primitive (.String body))) := h1
  rw [this]
  exact told_call _ h2 h3 h4

/-- What comes of a primitive value: the parser is over, or it goes on behind the value. -/
def Behind (E : Env σ) (p : Parser (σ × Log)) (cont : Label) (pad t : Bytes)
    (a : Label × Parser (σ × Log)) : Prop :=
  (∃ q, a = (.doc_end, q) ∧ nodes q ≤ nodes p + 1 ∧ Refused E q) ∨
    ∃ q, a = (cont, q.SkipSpace) ∧ OnText q pad t ∧ q.depth = p.depth ∧ nodes q ≤ nodes p + 1

namespace Answered

variable {r : Bool × Parser (σ × Log)} (h : Answered p r pad t)
include h

theorem terminated (hb : r.1 = false) : Refused E (r.2.setFirstError .kSaxTermination) := fun _ => by
  obtain ⟨e, he, hk⟩ := h.refused hb
  exact ⟨e, he, fun hc => by simp [hk] at hc⟩

theorem ended :
    nodes (if (!r.1) = true then r.2.setFirstError .kSaxTermination else r.2) = nodes p + 1 ∧
    Refused E (if (!r.1) = true then r.2.setFirstError .kSaxTermination else r.2) := by
  cases hb : r.1 with
  | true => exact ⟨h.count, .of_err (show r.2.err_ ≠ _ by rw [h.text.err]; decide)⟩
  | false => exact ⟨h.count, h.terminated hb⟩

/-- A literal inside a container. -/
theorem literal : Behind E p cont pad t
    (r.2.sonic_check_err fun p => if !r.1 then (.doc_end, p.setParseError .kSaxTermination)
    else (cont, p.SkipSpace)) := by
  rw [sonic_check_err_ok h.text.err]
  cases hb : r.1 with
  | true => exact .inr ⟨_, rfl, h.text, h.depth, h.count.le⟩
  | false =>
    refine .inl ⟨_, rfl, h.count.le, fun _ => ?_⟩
    obtain ⟨e, he, hk⟩ := h.refused hb
    exact ⟨e, he, fun hc => by simp [hk] at hc⟩

/-- A string inside a container. -/
theorem string : Behind E p cont pad t (sonic_sax_check r fun p => p.sonic_check_err fun p =>
    (cont, p.SkipSpace)) := by
  rw [sonic_sax_check]
  cases hb : r.1 with
  | true =>
    rw [if_pos rfl, sonic_check_err_ok h.text.err]
    exact .inr ⟨_, rfl, h.text, h.depth, h.count.le⟩
  | false => exact .inl ⟨_, rfl, h.count.le, h.terminated hb⟩

end Answered

/-- A number of the text: with an error, or told to the handler. -/
theorem told_number {tok : Bytes} (hpad : Sentinel pad) (h : Got p pad b r) (hr : b :: r = tok ++ t)
    (htok : NumTok tok) (ht : NumEnd t) : nodes (p.parseNumber E.logged) ≤ nodes p + 1 ∧
    Refused E (p.parseNumber E.logged) ∧
      ((p.parseNumber E.logged).err_ = .kErrorNone → OnText (p.parseNumber E.logged) pad t) ∧
      (p.parseNumber E.logged).depth = p.depth := by
  have hstop : NumEnd (t ++ pad) := by
    cases t with
    | nil =>
      obtain ⟨q, rfl⟩ := hpad
      exact ⟨by decide, by decide, by decide⟩
    | cons b t => exact ht
  have hat := h.byte
  rw [← List.cons_append, hr, List.append_assoc] at hat
  obtain ⟨hok, hi⟩ :=
    @parseNumber_i E.F E.parseFlags p.json_buf_ tok (t ++ pad) (p.pos_ - 1) p.len_ ⟨hat, hstop⟩ htok
  rw [h.pos] at hok hi
  have hpos := h.pos
  have hlen : 0 < tok.length := by
    obtain ⟨b, r, rfl, -⟩ := htok.cons_head
    simp
  have hleft : At p.json_buf_ (SonicJson.parseNumber E.F E.parseFlags p.json_buf_ p.len_ p.pos_).i
      (t ++ pad) := by
    rw [hi]
    exact hat.append
  have hvalid :
    p.scan.Valid p.json_buf_ (SonicJson.parseNumber E.F E.parseFlags p.json_buf_ p.len_ p.pos_).i :=
    h.valid.mono (by omega)
  unfold Parser.parseNumber
  dsimp only [Env.logged]
  generalize SonicJson.parseNumber E.F E.parseFlags p.json_buf_ p.len_ p.pos_ = x at hok hleft hvalid ⊢
  have herr : x.err ≠ .kSaxTermination := by
    rcases hok with h0 | h0 <;> rw [h0] <;> decide
  split
  · exact ⟨Nat.le_succ _, .of_err herr, fun h0 => ⟨⟨hleft, hvalid, h0⟩, h.length⟩, rfl⟩
  · rename_i e _
    refine ⟨(nodes_call (E := E) (p := p) (.primitive e)).le, fun hc => ?_,
      fun h0 => ⟨⟨hleft, hvalid, h0⟩, h.length⟩, rfl⟩
    refine ⟨.primitive e, ?_, fun hk => by simp [Event.isKey] at hk⟩
    have hb : (E.H.tell (.primitive e) p.sax.1).1 = false := by
      rw [← Bool.not_eq_true]
      exact fun hb => herr ((if_pos hb).symm.trans hc)
    show (Event.primitive e, false) ∈ p.sax.2 ++ [(.primitive e, (E.H.tell (.primitive e) p.sax.1).1)]
    rw [hb]
    exact List.mem_append_right _ List.mem_cons_self

/-- A value that is no container: the switch inside a container and the one at the root. -/
theorem primitive_behind {v : Json} (hpad : Sentinel pad) (h : Got p pad b r)
    (hd : Der (b :: r) (.val v) t) (hb : b ≠ Ch.lbrace ∧ b ≠ Ch.lbrack) (ht : NumEnd t) :
    (∀ cont, Behind E p cont pad t (p.value E.logged cont)) ∧
    nodes (p.parsePrimitives E.logged) ≤ nodes p + 1 ∧
      Refused E (p.parsePrimitives E.logged) := by
  have hc := h.c
  generalize hs : b :: r = s at hd
  cases hd with
  | null =>
    obtain rfl : b = Ch.n := (List.cons.inj hs).1
    have h1 : Answered p (p.parseNull E.logged) pad t := by
      rw [parseNull, if_pos ((hs ▸ h.buf).eqBytes rfl)]
      exact told_literal .Null h hs rfl
    refine ⟨fun cont => ?_, ?_⟩
    · rw [value, hc]
      exact h1.literal
    · rw [parsePrimitives, hc]
      exact h1.ended.imp_left le_of_eq
  | true =>
    obtain rfl : b = Ch.t := (List.cons.inj hs).1
    have h1 : Answered p (p.parseTrue E.logged) pad t := by
      rw [parseTrue, if_pos ((hs ▸ h.buf).eqBytes rfl)]
      exact told_literal (.Bool true) h hs rfl
    refine ⟨fun cont => ?_, ?_⟩
    · rw [value, hc]
      exact h1.literal
    · rw [parsePrimitives, hc]
      exact h1.ended.imp_left le_of_eq
  | false =>
    obtain rfl : b = Ch.f := (List.cons.inj hs).1
    have h1 : Answered p (p.parseFalse E.logged) pad t := by
      have hr' : r = kFalse.drop 1 ++ t := (List.cons.inj hs).2
      rw [parseFalse, if_pos ((hr' ▸ h.toOnText.buf).eqBytes rfl)]
      exact told_literal (.Bool false) h hs rfl
    refine ⟨fun cont => ?_, ?_⟩
    · rw [value, hc]
      exact h1.literal
    · rw [parsePrimitives, hc]
      exact h1.ended.imp_left le_of_eq
  | @num tok _ htok =>
    obtain ⟨h1, h2, h3, h4⟩ := told_number (E := E) hpad h hs htok ht
    have hdig : (is_digit p.c || p.c == Ch.minus) = true := by
      obtain ⟨b', r', rfl, hb'⟩ := htok.cons_head
      obtain rfl : b = b' := (List.cons.inj hs).1
      rw [hc, Bool.or_eq_true, beq_iff_eq]
      exact hb'.symm
    refine ⟨fun cont => ?_, ?_⟩
    · rw [value, if_neg (hc ▸ hb.1), if_neg (hc ▸ hb.2), if_pos hdig]
      by_cases h0 : (p.parseNumber E.logged).err_ = .kErrorNone
      · rw [sonic_check_err_ok h0]
        exact .inr ⟨_, rfl, h3 h0, h4, h1⟩
      · rw [sonic_check_err, if_pos h0]
        refine .inl ⟨_, rfl, h1, fun hc => h2 ?_⟩
        rwa [show ((p.parseNumber E.logged).setFirstError .kParseErrorInvalidChar).err_ =
          (p.parseNumber E.logged).err_ from
          if_neg h0] at hc
    · rw [parsePrimitives, if_pos hdig]
      exact ⟨h1, h2⟩
  | str hbody =>
    obtain ⟨rfl, rfl⟩ := List.cons.inj hs
    have h1 := told_string (E := E) h.toOnText hbody
    refine ⟨fun cont => ?_, ?_⟩
    · rw [value, hc]
      exact h1.string
    · have h4 := h1.text.buf.left.length_add
      rw [parsePrimitives, hc, if_neg (by decide), if_pos rfl]
      dsimp only
      rw [if_neg (by omega)]
      exact h1.ended.imp_left le_of_eq
  | arrNil _ => exact absurd (List.cons.inj hs).1 hb.2
  | arr _ => exact absurd (List.cons.inj hs).1 hb.2
  | objNil _ => exact absurd (List.cons.inj hs).1 hb.1
  | obj _ => exact absurd (List.cons.inj hs).1 hb.1

/-! ### The run -/

/-- From `a` the parser is over or comes to where `P` holds: twice the nodes told until then, and
`t` which is left, are not more than `m`. -/
def Comes (E : Env σ) (m : ℕ) (t : Bytes) (P : Label × Parser (σ × Log) → Prop)
    (a : Label × Parser (σ × Log)) : Prop :=
  ∃ n a', Steps (step E.logged) n a a' ∧ 2 * nodes a'.2 + t.length ≤ m ∧
    (a'.1 = .doc_end ∧ Refused E a'.2 ∨ P a')

section
variable {P Q : Label × Parser (σ × Log) → Prop} {a a' : Label × Parser (σ × Log)}

theorem Comes.over (hq : Refused E q) (hm : 2 * nodes q + t.length ≤ m) : Comes E m t P (.doc_end, q) :=
  ⟨0, _, .refl _, hm, .inl ⟨rfl, hq⟩⟩

theorem Comes.here (ha : P a) (hm : 2 * nodes a.2 + t.length ≤ m) :
    Comes E m t P a := ⟨0, a, .refl a, hm, .inr ha⟩

theorem Comes.steps (hs : Steps (step E.logged) n a a') (h : Comes E m t P a') : Comes E m t P a := by
  obtain ⟨k, b, h1, h2⟩ := h
  exact ⟨n + k, b, hs.trans h1, h2⟩

/-- One run after another. -/
theorem Comes.bind {m' : ℕ} (h : Comes E m' u P a) (ht : t.length + m' ≤ u.length + m)
    (hP : ∀ b, 2 * nodes b.2 + u.length ≤ m' → P b → Comes E m t Q b) : Comes E m t Q a := by
  obtain ⟨k, b, h1, h2, h3 | h3⟩ := h
  · exact ⟨k, b, h1, by omega, .inl h3⟩
  · exact .steps h1 (hP b h2 h3)

theorem Comes.err_invalid_char (h : p.err_ = .kErrorNone) (hm : 2 * nodes p + t.length ≤ m) :
    Comes E m t P p.err_invalid_char := by
  refine .over (.of_err ?_) hm
  rw [show (p.setFirstError .kParseErrorInvalidChar).err_ = .kParseErrorInvalidChar from if_pos h]
  decide

/-- A call of the handler, and what comes after it. -/
theorem Comes.told {f : Parser (σ × Log) → Label × Parser (σ × Log)} (he : e.isKey = false)
    (hm : 2 * (nodes p + nodesOf [e]) + t.length ≤ m) (h : Comes E m t P (f (p.call (E.H.told e)).2)) :
    Comes E m t P (sonic_sax_check (p.call (E.H.told e)) f) := by
  rcases told_cases he (f := f) (p := p) (E := E) with h1 | ⟨q, h1, h2, h3⟩
  · rwa [h1]
  · rw [h1]
    exact .over h3 (h2 ▸ hm)

/-- Behind a primitive value. -/
theorem Comes.behind (h : Behind E p cont pad u a) (hm : 2 * (nodes p + 1) + t.length ≤ m)
    (hP : ∀ q, OnText q pad u → q.depth = p.depth → nodes q ≤ nodes p + 1 → Comes E m t P (cont,
    q.SkipSpace)) :
    Comes E m t P a := by
  rcases h with ⟨q, rfl, h1, h2⟩ | ⟨q, rfl, h1, h2, h3⟩
  · exact .over h2 (by omega)
  · exact hP q h1 h2 h3

end

/-- The innermost container is over. -/
def Closed (pad t : Bytes) (ds : List ℕ) (a : Label × Parser (σ × Log)) : Prop :=
  ∃ p' d, a = p'.scope_end ∧ OnText p' pad t ∧ p'.depth = d :: ds

/-- The parser is at one of the labels after a value, with the byte `c` read. -/
def After (pad : Bytes) (c : UInt8) (u : Bytes) (depth : List ℕ)
    (a : Label × Parser (σ × Log)) : Prop :=
  IsCont a.1 ∧ Got a.2 pad c u ∧ a.2.depth = depth

theorem scope_end_after (h : OnText p pad t) (hd : p.depth = d :: n :: ds)
    (ht : t.dropWhile IsSpace = c :: u) :
    After pad c u (n :: ds) p.scope_end ∧ nodes p.scope_end.2 = nodes p := by
  rw [scope_end, sonic_check_err_ok h.err]
  simp only [hd, List.tail_cons, setDepth_depth, List.isEmpty_cons, Bool.false_eq_true, if_false]
  refine ⟨⟨?_, (h.setDepth _).SkipSpace ht, rfl⟩, rfl⟩
  dsimp only
  split
  · exact .inl rfl
  · exact .inr rfl

theorem count_depth (hd : p.depth = d :: ds) : ∃ d', p.count = p.setDepth (d' :: ds) := by
  rw [count, hd]
  exact ⟨_, rfl⟩

/-- The end of a container that the handler is told of. -/
theorem comes_end (he : e.isKey = false) (hn : e.node = false) (h : OnText p pad t)
    (hd : p.depth = d :: ds) (hm : 2 * nodes p + t.length ≤ m) : Comes E m t (Closed pad t ds)
    (sonic_sax_check (p.call (E.H.told e)) scope_end) := by
  have hcall : nodes (p.call (E.H.told e)).2 = nodes p := by
    rw [nodes_call, nodesOf_end hn, Nat.add_zero]
  refine .told he (by rwa [nodesOf_end hn, Nat.add_zero]) (.here ⟨_, d, rfl, h.call _, hd⟩ ?_)
  have hs : nodes (p.call (E.H.told e)).2.scope_end.2 = nodes (p.call (E.H.told e)).2 := by
    rw [scope_end, sonic_check_err_ok (h.call _).err]
    dsimp only
    split <;> rfl
  rwa [hs, hcall]

/-! ### Behind a value -/

/-- What the value behind a comma begins with: if it is a string, a comma or a bracket is next. -/
def Ahead (b : UInt8) (r : Bytes) (next : UInt8 → Prop) : Prop :=
  b = Ch.quote → ∃ body t c u, StrBody r body t ∧ Ws t (c :: u) ∧ IsSpace c = false ∧ next c

/-- A string where there is no key. -/
theorem comes_wrong_key {P : Label × Parser (σ × Log) → Prop} (h : Got p pad b r)
    (hr : Ahead b r (· ≠ Ch.colon)) (hm : 2 * (nodes p + 1) + t.length ≤ m) :
    Comes E m t P (.obj_key, p) := by
  refine .steps (.one rfl) ?_
  by_cases hb : b = Ch.quote
  · obtain ⟨body, u, c, v, hk, hw, hc, hne⟩ := hr hb
    obtain ⟨q, h1, h2, h3, h4⟩ :=
      @parseStr_done _ E.logged _ _ _ _ _ (fun k => E.H.told (.Key k)) h.toOnText (hk.unescape _)
    have h5 := (h2.call (E.H.told (.Key body))).ws hw hc
    have hkey : p.parseKeyInPlace E.logged = q.call (E.H.told (.Key body)) := h1
    have hcount : nodes (q.call (E.H.told (.Key body))).2 = nodes p + 1 := by
      rw [nodes_call, nodes_congr h4]
      rfl
    have hbc : p.c = Ch.quote := h.c.trans hb
    rw [obj_key, if_neg (not_not.mpr hbc), hkey]
    dsimp only
    rw [sonic_check_err_ok (h2.call _).err, if_pos (h5.c ▸ hne)]
    exact .err_invalid_char h5.err (by rwa [nodes_SkipSpace, hcount])
  · rw [obj_key, if_pos (h.c ▸ hb)]
    exact .err_invalid_char h.err (by omega)

/-- A comma behind an element. Where the count of the elements has run over, the next one is taken
for a key. -/
theorem comes_elem_comma {a : Label × Parser (σ × Log)} (h : After pad Ch.comma s (d :: ds) a)
    (hs : s.dropWhile IsSpace = b :: r) (hr : Ahead b r (· ≠ Ch.colon))
    (hm : 2 * nodes a.2 + s.length ≤ m) (ht : t.length + 2 ≤ s.length) :
    Comes E m t (fun a' => ∃ p' d', a' = (.arr_val, p') ∧ Got p' pad b r ∧ p'.depth = d' :: ds ∧
      nodes p' = nodes a.2) a := by
  obtain ⟨lbl, q⟩ := a
  obtain ⟨hl, hg, hd⟩ := h
  dsimp only at hl hg hd hm ⊢
  obtain ⟨d', hc⟩ := count_depth hd
  have hg' := (hg.setDepth (d' :: ds)).toOnText.SkipSpace hs
  have hq : (q.setDepth (d' :: ds)).c = Ch.comma := hg.c
  refine .steps (.one (show step E.logged (lbl, q) =
    some (if lbl = .arr_cont then q.arr_cont E.logged else q.obj_cont E.logged) by
    rcases hl with rfl | rfl <;> rfl)) ?_
  rcases hl with rfl | rfl
  · rw [if_pos rfl, arr_cont, hc]
    rw [if_pos hq]
    exact .here ⟨_, d', rfl, hg', rfl, rfl⟩ (by rw [nodes_SkipSpace, nodes_setDepth]; omega)
  · rw [if_neg (by decide), obj_cont, hc]
    rw [if_pos hq]
    exact comes_wrong_key hg' hr (by rw [nodes_SkipSpace, nodes_setDepth]; omega)

/-- The bracket behind the last element. -/
theorem comes_elem_last {a : Label × Parser (σ × Log)} (h : After pad Ch.rbrack t (d :: ds) a)
    (hm : 2 * nodes a.2 + t.length ≤ m) : Comes E m t (Closed pad t ds) a := by
  obtain ⟨lbl, q⟩ := a
  obtain ⟨hl, hg, hd⟩ := h
  dsimp only at hl hg hd hm ⊢
  obtain ⟨d', hc⟩ := count_depth hd
  refine .steps (.one (show step E.logged (lbl, q) =
    some (if lbl = .arr_cont then q.arr_cont E.logged else q.obj_cont E.logged) by
    rcases hl with rfl | rfl <;> rfl)) ?_
  have hq : (q.setDepth (d' :: ds)).c = Ch.rbrack := hg.c
  rcases hl with rfl | rfl
  · rw [if_pos rfl, arr_cont, hc]
    rw [hq, if_neg (by decide), if_pos rfl]
    exact comes_end (e := .EndArray _) rfl rfl (hg.setDepth _).toOnText rfl hm
  · rw [if_neg (by decide), obj_cont, hc]
    rw [hq, if_neg (by decide), if_pos (by decide)]
    exact .err_invalid_char hg.err hm

/-- A comma behind a member. Where the count of the members has run over, the next key is taken for
an element. -/
theorem comes_member_comma {a : Label × Parser (σ × Log)} (h : After pad Ch.comma s (d :: ds) a)
    (hs : s.dropWhile IsSpace = Ch.quote :: r) (hr : Ahead Ch.quote r (· = Ch.colon))
    (hm : 2 * nodes a.2 + s.length ≤ m) (ht : t.length + 2 ≤ s.length) :
    Comes E m t (fun a' => ∃ p' d', a' = (.obj_key, p') ∧ Got p' pad Ch.quote r ∧
      p'.depth = d' :: ds ∧ nodes p' = nodes a.2) a := by
  obtain ⟨lbl, q⟩ := a
  obtain ⟨hl, hg, hd⟩ := h
  dsimp only at hl hg hd hm ⊢
  obtain ⟨d', hc⟩ := count_depth hd
  have hg' := (hg.setDepth (d' :: ds)).toOnText.SkipSpace hs
  have hq : (q.setDepth (d' :: ds)).c = Ch.comma := hg.c
  refine .steps (.one (show step E.logged (lbl, q) =
    some (if lbl = .arr_cont then q.arr_cont E.logged else q.obj_cont E.logged) by
    rcases hl with rfl | rfl <;> rfl)) ?_
  rcases hl with rfl | rfl
  · rw [if_pos rfl, arr_cont, hc]
    rw [if_pos hq]
    obtain ⟨body, u, c, v, hk, hw, hcs, rfl⟩ := hr rfl
    have hval : (q.setDepth (d' :: ds)).SkipSpace.value E.logged .arr_cont =
        sonic_sax_check ((q.setDepth (d' :: ds)).SkipSpace.parseStrInPlace E.logged)
          fun p => p.sonic_check_err fun p => (.arr_cont, p.SkipSpace) := by
      rw [value, hg'.c]
      rfl
    refine .steps (.one rfl) ?_
    rw [hval]
    refine .behind (told_string hg'.toOnText hk).string
      (by rw [nodes_SkipSpace, nodes_setDepth]; omega) fun p₂ h1 h2 h3 => ?_
    have h4 := h1.ws hw hcs
    obtain ⟨d₂, hc₂⟩ := count_depth (p := p₂.SkipSpace) (h2.trans rfl)
    have hcol : (p₂.SkipSpace.setDepth (d₂ :: ds)).c = Ch.colon := h4.c
    refine .steps (.one rfl) ?_
    rw [arr_cont, hc₂, hcol, if_neg (by decide), if_neg (by decide)]
    rw [nodes_SkipSpace, nodes_setDepth] at h3
    exact .err_invalid_char h4.err (by rw [nodes_setDepth, nodes_SkipSpace]; omega)
  · rw [if_neg (by decide), obj_cont, hc]
    rw [if_pos hq]
    exact .here ⟨_, d', rfl, hg', rfl, rfl⟩ (by rw [nodes_SkipSpace, nodes_setDepth]; omega)

/-- The brace behind the last member. -/
theorem comes_member_last {a : Label × Parser (σ × Log)} (h : After pad Ch.rbrace t (d :: ds) a)
    (hm : 2 * nodes a.2 + t.length ≤ m) : Comes E m t (Closed pad t ds) a := by
  obtain ⟨lbl, q⟩ := a
  obtain ⟨hl, hg, hd⟩ := h
  dsimp only at hl hg hd hm ⊢
  obtain ⟨d', hc⟩ := count_depth hd
  refine .steps (.one (show step E.logged (lbl, q) =
    some (if lbl = .arr_cont then q.arr_cont E.logged else q.obj_cont E.logged) by
    rcases hl with rfl | rfl <;> rfl)) ?_
  have hq : (q.setDepth (d' :: ds)).c = Ch.rbrace := hg.c
  rcases hl with rfl | rfl
  · rw [if_pos rfl, arr_cont, hc]
    rw [hq, if_neg (by decide), if_neg (by decide)]
    exact .err_invalid_char hg.err hm
  · rw [if_neg (by decide), obj_cont, hc]
    rw [hq, if_neg (by decide), if_neg (by decide)]
    exact comes_end (e := .EndObject _) rfl rfl (hg.setDepth _).toOnText rfl hm

/-! ### The induction over the text -/

/-- What the parser does on the text of an item: of the bytes between `s` and `t` at least two are
for a node. -/
def Counts (E : Env σ) (pad s t : Bytes) : Item → Prop
  | .val _ =>
    ∀ p b r cont d ds m c u, s = b :: r → Got p pad b r → Follow t → t.dropWhile IsSpace = c :: u →
      IsCont cont →
      p.depth = d :: ds → 2 * nodes p + s.length + 1 ≤ m →
        Comes E m t (After pad c u (d :: ds)) (p.value E.logged cont)
  | .elems _ =>
    ∀ p b r d ds m t', s.dropWhile IsSpace = b :: r → t = Ch.rbrack :: t' → Got p pad b r →
      p.depth = d :: ds →
      2 * nodes p + s.length ≤ m → Comes E m t' (Closed pad t' ds) (.arr_val, p)
  | .mems _ =>
    ∀ p b r d ds m t', s.dropWhile IsSpace = b :: r → t = Ch.rbrace :: t' → Got p pad b r →
      p.depth = d :: ds →
      2 * nodes p + s.length ≤ m → Comes E m t' (Closed pad t' ds) (.obj_key, p)

theorem start_array_counts (vs : List Json) (h : Got p pad b s)
    (hr : Ws s (Ch.rbrack :: t) ∨ ∃ c u, s.dropWhile IsSpace = c :: u ∧ c ≠ Ch.rbrack ∧
      Counts E pad s (Ch.rbrack :: t) (.elems vs)) (hlt : t.length < s.length)
        (hm : 2 * nodes p + s.length + 2 ≤ m) :
    Comes E m t (Closed pad t p.depth) (p.start_array E.logged) := by
  have hone : nodes (p.call (E.H.told .StartArray)).2 = nodes p + 1 := nodes_call _
  refine .told (e := .StartArray) rfl (show 2 * (nodes p + 1) + t.length ≤ m by omega) ?_
  have hd :=
    (h.call (E.H.told .StartArray)).setDepth (kArrMask :: (p.call (E.H.told .StartArray)).2.depth)
  rcases hr with hw | ⟨c, u, hu, hc, he⟩
  · have h5 := hd.ws hw (by decide)
    dsimp only
    rw [if_pos h5.c]
    exact comes_end (e := .EndArray 0) rfl rfl h5.toOnText rfl
      (by rw [nodes_SkipSpace, nodes_setDepth, hone]; omega)
  · have h5 := hd.SkipSpace hu
    dsimp only
    rw [if_neg (h5.c ▸ hc)]
    exact he _ c u _ _ m t hu rfl h5 rfl (by rw [nodes_SkipSpace, nodes_setDepth, hone]; omega)

theorem start_object_counts (ms : List (Bytes × Json)) (h : Got p pad b s)
    (hr : Ws s (Ch.rbrace :: t) ∨ ∃ c u, s.dropWhile IsSpace = c :: u ∧ c ≠ Ch.rbrace ∧
      Counts E pad s (Ch.rbrace :: t) (.mems ms)) (hlt : t.length < s.length)
        (hm : 2 * nodes p + s.length + 2 ≤ m) :
    Comes E m t (Closed pad t p.depth) (p.start_object E.logged) := by
  have hone : nodes (p.call (E.H.told .StartObject)).2 = nodes p + 1 := nodes_call _
  refine .told (e := .StartObject) rfl (show 2 * (nodes p + 1) + t.length ≤ m by omega) ?_
  have hd :=
    (h.call (E.H.told .StartObject)).setDepth (kObjMask :: (p.call (E.H.told .StartObject)).2.depth)
  rcases hr with hw | ⟨c, u, hu, hc, he⟩
  · have h5 := hd.ws hw (by decide)
    dsimp only
    rw [if_pos h5.c]
    exact comes_end (e := .EndObject 0) rfl rfl h5.toOnText rfl
      (by rw [nodes_SkipSpace, nodes_setDepth, hone]; omega)
  · have h5 := hd.SkipSpace hu
    dsimp only
    rw [if_neg (h5.c ▸ hc)]
    exact he _ c u _ _ m t hu rfl h5 rfl (by rw [nodes_SkipSpace, nodes_setDepth, hone]; omega)

/-- A container inside another one. -/
theorem counts_container {v : Json}
    (h : ∀ p b r cont m, s = b :: r → Got p pad b r → 2 * nodes p + s.length + 1 ≤ m →
    Comes E m t (Closed pad t p.depth) (p.value E.logged cont)) : Counts E pad s t (.val v) := by
  intro p b r cont d ds m c u hs hg _ ht _ hdep hm
  refine (h p b r cont m hs hg hm).bind le_rfl fun a ha hcl => ?_
  obtain ⟨p', d', rfl, h1, h2⟩ := hcl
  obtain ⟨h3, h4⟩ := scope_end_after h1 (h2.trans (congrArg _ hdep)) ht
  exact .here h3 (by rwa [h4] at ha ⊢)

/-- A value inside an array. -/
theorem counts_elem {s₁ s₂ : Bytes} {v : Json} (hw : Ws s s₁) (hd : Der s₁ (.val v) s₂)
    (h : Counts E pad s₁ s₂ (.val v)) (hc : Ws s₂ (c :: t)) (hfol : Follow (c :: t))
    (hcs : IsSpace c = false) (hs : s.dropWhile IsSpace = b :: r) (hg : Got p pad b r)
    (hdep : p.depth = d :: ds) (hm : 2 * nodes p + s.length + 1 ≤ m) :
    Comes E m s₂ (After pad c t (d :: ds)) (.arr_val, p) := by
  obtain ⟨b', r', rfl, hst⟩ := hd.starts
  obtain ⟨rfl, rfl⟩ := List.cons.inj ((hw.dropWhile_eq hst.not_isSpace).symm.trans hs)
  have hl := hw.suffix.length_le
  exact .steps (.one rfl)
    (h p b' r' .arr_cont d ds m c t rfl hg (hc.follow hfol) (hc.dropWhile_eq hcs) (.inl rfl) hdep
    (by omega))

/-- A key, and what the handler answers to it: its value, or what is behind it, or the end. -/
theorem counts_key {s₁ s₂ s₃ s₄ s₅ u key : Bytes} {v : Json} {c' : UInt8}
    (hw : Ws s (Ch.quote :: s₁)) (hk : StrBody s₁ key s₂) (hcol : Ws s₂ (Ch.colon :: s₃))
    (hv : Ws s₃ s₄) (hd : Der s₄ (.val v) s₅) (h : Counts E pad s₄ s₅ (.val v))
    (hc : Ws s₅ (c :: t)) (hfol : Follow (c :: t)) (hcs : IsSpace c = false) (hn : Next s₅ (c :: t))
    (hu : ((c :: t).dropWhile fun b => !([Ch.quote, Ch.rbrace] : Bytes).contains b) = c' :: u)
    (hs : s.dropWhile IsSpace = b :: r) (hg : Got p pad b r) (hdep : p.depth = d :: ds)
    (hm : 2 * nodes p + s.length ≤ m) :
    Comes E m s₅ (After pad c t (d :: ds)) (.obj_key, p) ∨
      ∃ p', Got p' pad c' u ∧ p'.depth = d :: ds ∧ nodes p' = nodes p + 1 ∧
        (c' = Ch.quote → step E.logged (.obj_key, p) = some (.obj_key, p')) ∧
        (c' = Ch.rbrace → step E.logged (.obj_key, p) =
          some (sonic_sax_check (p'.call (E.H.told (.EndObject p'.back))) scope_end)) := by
  have hl1 := hw.suffix.length_le
  have hl2 := hk.suffix.2
  have hl3 := hcol.suffix.length_le
  have hl4 := hv.suffix.length_le
  have hl5 := hd.suffix.2
  simp only [List.length_cons] at hl1 hl3
  have hone : ∀ q : Parser (σ × Log), q.sax = (E.H.told (.Key key) p.sax).2 →
    nodes q = nodes p + 1 := fun q hq =>
    (nodes_congr (p := (p.call (E.H.told (.Key key))).2) hq).trans (nodes_call _)
  by_cases hans : (E.H.told (.Key key) p.sax).1 = true
  · left
    have hg' := hg
    obtain ⟨rfl, rfl⟩ := List.cons.inj ((hw.dropWhile_eq (by decide)).symm.trans hs)
    obtain ⟨p₁, h1, h2, h3, h4⟩ := @obj_key_eq _ E.logged _ _ _ _ _ _ hg' hk hcol
    rw [show (E.logged.H.Key key p.sax).1 = true from hans, if_pos rfl] at h4
    obtain ⟨b', r', rfl, hst⟩ := hd.starts
    have h5 := h1.toOnText.ws hv hst.not_isSpace
    refine .steps (.one (show step E.logged (.obj_key, p) = _ from congrArg some h4)) ?_
    exact h p₁.SkipSpace b' r' .obj_cont d ds m c t rfl h5 (hc.follow hfol) (hc.dropWhile_eq hcs)
      (.inr rfl)
      (h2.trans hdep) (by rw [nodes_SkipSpace, hone _ h3]; omega)
  · have hans := Bool.not_eq_true _ ▸ hans
    by_cases hskip : E.H.check_key_return = true
    · right
      obtain ⟨p', h1, h2, h3, h4, h5⟩ := @skipped_member _ E.logged _ _ _ _ _ _ _ _ _ _ _ _ _ _ _ hw
        hk hcol hv hd hn hu hs hg hans hskip
      exact ⟨p', h1, h2.trans hdep, hone _ h3, h4, h5⟩
    · left
      obtain ⟨rfl, rfl⟩ := List.cons.inj ((hw.dropWhile_eq (by decide)).symm.trans hs)
      obtain ⟨p₁, h1, h2, h3, h4⟩ := @obj_key_eq _ E.logged _ _ _ _ _ _ hg hk hcol
      rw [show (E.logged.H.Key key p.sax).1 = false from hans, if_neg (by decide),
        if_neg (show ¬E.logged.H.check_key_return = true from hskip)] at h4
      refine .steps (.one (show step E.logged (.obj_key, p) = _ from congrArg some h4))
        (.over (fun _ => ⟨.Key key, ?_, fun hc => hskip hc.1⟩) ?_)
      · show (Event.Key key, false) ∈ p₁.sax.2
        have hlog : p₁.sax.2 = p.sax.2 ++ [(.Key key, (E.H.told (.Key key) p.sax).1)] :=
          congrArg Prod.snd h3
        rw [hlog, hans]
        exact List.mem_append_right _ List.mem_cons_self
      · have : nodes (p₁.setFirstError .kSaxTermination) = nodes p + 1 := hone _ h3
        omega

theorem counts_primitive {v : Json} (hpad : Sentinel pad) (hd : Der s (.val v) t)
    (hb : ∀ b r, s = b :: r → b ≠ Ch.lbrace ∧ b ≠ Ch.lbrack) : Counts E pad s t (.val v) := by
  intro p b r cont d ds m c u hs hg hfol ht hcont hdep hm
  subst hs
  have hlt := hd.suffix.2
  refine .behind ((primitive_behind hpad hg hd (hb b r rfl) hfol.numEnd).1 cont) (by omega)
    fun q h1 h2 h3 => ?_
  exact .here ⟨hcont, h1.SkipSpace ht, h2.trans hdep⟩ (by rw [nodes_SkipSpace]; omega)

/-- What comes behind a comma in an array. -/
theorem elems_ahead {vs : List Json} (h : Der s (.elems vs) t) (hs : s.dropWhile IsSpace = b :: r) :
    Ahead b r (· ≠ Ch.colon) := by
  have ahead : ∀ {s₁ s₂ t : Bytes} {v : Json} {c : UInt8}, Ws s s₁ → Der s₁ (.val v) s₂ →
      Ws s₂ (c :: t) → IsSpace c = false →
      c ≠ Ch.colon → Ahead b r (· ≠ Ch.colon) := by
    intro s₁ s₂ t v c hw hd hc hcs hne hb
    obtain ⟨b', r', rfl, hst⟩ := hd.starts
    obtain ⟨rfl, rfl⟩ := List.cons.inj ((hw.dropWhile_eq hst.not_isSpace).symm.trans hs)
    subst hb
    generalize hq : Ch.quote :: r' = q at hd
    cases hd with
    | str hbody =>
      obtain ⟨-, rfl⟩ := List.cons.inj hq
      exact ⟨_, _, c, t, hbody, hc, hcs, hne⟩
    | num htok => exact absurd (NumTok.head_append htok hq) (by decide)
    | _ => exact absurd (List.cons.inj hq).1 (by decide)
  cases h with
  | elemLast h1 h2 h3 => exact ahead h1 h2 h3 (by decide) (by decide)
  | elemCons h1 h2 h3 _ => exact ahead h1 h2 h3 (by decide) (by decide)

/-- What comes behind a comma in an object. -/
theorem mems_ahead {ms : List (Bytes × Json)} (h : Der s (.mems ms) t)
    (hs : s.dropWhile IsSpace = Ch.quote :: r) :
    Ahead Ch.quote r (· = Ch.colon) := by
  intro _
  cases h with
  | memLast h1 hk h2 _ _ _ =>
    obtain ⟨-, rfl⟩ := List.cons.inj ((h1.dropWhile_eq (by decide)).symm.trans hs)
    exact ⟨_, _, _, _, hk, h2, by decide, rfl⟩
  | memCons h1 hk h2 _ _ _ _ =>
    obtain ⟨-, rfl⟩ := List.cons.inj ((h1.dropWhile_eq (by decide)).symm.trans hs)
    exact ⟨_, _, _, _, hk, h2, by decide, rfl⟩

/-- **The run on the text of an item.** -/
theorem counts (hpad : Sentinel pad) {it : Item} (hd : Der s it t) : Counts E pad s t it := by
  have hlit : ∀ {c : UInt8} {s : Bytes}, (c ≠ Ch.lbrace ∧ c ≠ Ch.lbrack) → ∀ b r, c :: s = b :: r →
      b ≠ Ch.lbrace ∧ b ≠ Ch.lbrack := fun hc b r h => (List.cons.inj h).1 ▸ hc
  induction hd with
  | null => exact counts_primitive hpad .null (hlit (by decide))
  | true => exact counts_primitive hpad .true (hlit (by decide))
  | false => exact counts_primitive hpad .false (hlit (by decide))
  | num htok =>
    refine counts_primitive hpad (.num htok) fun b r h => ?_
    obtain ⟨b', r', rfl, hb'⟩ := htok.cons_head
    obtain ⟨rfl, -⟩ := List.cons.inj h
    constructor <;> rintro rfl <;> exact absurd hb' (by decide)
  | str hbody => exact counts_primitive hpad (.str hbody) (hlit (by decide))
  | arrNil hw =>
    refine counts_container fun p b r cont m hs hg hm => ?_
    obtain ⟨rfl, rfl⟩ := List.cons.inj hs
    have hl := hw.suffix.length_le
    simp only [List.length_cons] at hl hm
    rw [value, hg.c]
    exact start_array_counts [] hg (.inl hw) (by omega) (by omega)
  | arr he ih =>
    refine counts_container fun p b r cont m hs hg hm => ?_
    obtain ⟨rfl, rfl⟩ := List.cons.inj hs
    obtain ⟨c, u, hu, hc⟩ := he.elems_starts
    have hl := he.suffix.2
    simp only [List.length_cons] at hl hm
    rw [value, hg.c]
    exact start_array_counts _ hg (.inr ⟨c, u, hu, hc, ih⟩) (by omega) (by omega)
  | objNil hw =>
    refine counts_container fun p b r cont m hs hg hm => ?_
    obtain ⟨rfl, rfl⟩ := List.cons.inj hs
    have hl := hw.suffix.length_le
    simp only [List.length_cons] at hl hm
    rw [value, hg.c]
    exact start_object_counts [] hg (.inl hw) (by omega) (by omega)
  | obj he ih =>
    refine counts_container fun p b r cont m hs hg hm => ?_
    obtain ⟨rfl, rfl⟩ := List.cons.inj hs
    obtain ⟨u, hu⟩ := he.mems_starts
    have hl := he.suffix.2
    simp only [List.length_cons] at hl hm
    rw [value, hg.c]
    exact start_object_counts _ hg (.inr ⟨Ch.quote, u, hu, by decide, ih⟩) (by omega) (by omega)
  | elemLast h1 h2 h3 ih =>
    intro p b r d ds m t' hs ht hg hdep hm
    obtain ⟨-, rfl⟩ := List.cons.inj ht
    have l3 := h3.suffix.length_le
    simp only [List.length_cons] at l3
    refine (counts_elem (m := m + 1) h1 h2 ih h3 (follow_rbrack _) (by decide) hs hg hdep
      (by omega)).bind (by omega)
      fun a ha haf => ?_
    exact comes_elem_last haf (by omega)
  | elemCons h1 h2 h3 h4 ih1 ih2 =>
    intro p b r d ds m t' hs ht hg hdep hm
    subst ht
    have l3 := h3.suffix.length_le
    have l4 := h4.suffix.2
    obtain ⟨c, u, hu, -⟩ := h4.elems_starts
    simp only [List.length_cons] at l3 l4
    refine (counts_elem (m := m + 1) h1 h2 ih1 h3 (follow_comma _) (by decide) hs hg hdep
      (by omega)).bind (by omega)
      fun a ha haf => ?_
    refine (comes_elem_comma (t := t') (m := m) haf hu (elems_ahead h4 hu) (by omega)
      (by omega)).bind le_rfl fun a' ha' hb => ?_
    obtain ⟨p', d', rfl, e1, e2, e3⟩ := hb
    exact ih2 p' c u d' ds m t' hu rfl e1 e2 (by omega)
  | memLast h1 hk h2 h3 h4 h5 ih =>
    intro p b r d ds m t' hs ht hg hdep hm
    obtain ⟨-, rfl⟩ := List.cons.inj ht
    have l5 := h5.suffix.length_le
    simp only [List.length_cons] at l5
    have hl1 := h1.suffix.length_le
    have hl2 := hk.suffix.2
    have hl3 := h2.suffix.length_le
    have hl4 := h3.suffix.length_le
    have hl5 := h4.suffix.2
    simp only [List.length_cons] at hl1 hl3
    rcases counts_key (m := m) h1 hk h2 h3 h4 ih h5 (follow_rbrace _) (by decide)
      ⟨h5, .inr ⟨_, _, rfl, .inr (.inr rfl)⟩⟩
      (by rw [List.dropWhile_cons, if_neg (by decide)]) hs hg hdep hm
        with hcome | ⟨p', e1, e2, e3, -, e5⟩
    · exact hcome.bind (by omega) fun a ha haf => comes_member_last haf (by omega)
    · refine .steps (.one (e5 rfl)) ?_
      exact comes_end (e := .EndObject _) rfl rfl e1.toOnText e2 (by omega)
  | @memCons _ _ _ _ _ _ s₆ _ _ _ _ h1 hk h2 h3 h4 h5 h6 ih1 ih2 =>
    intro p b r d ds m t' hs ht hg hdep hm
    subst ht
    have l5 := h5.suffix.length_le
    have l6 := h6.suffix.2
    simp only [List.length_cons] at l5 l6
    have hl1 := h1.suffix.length_le
    have hl2 := hk.suffix.2
    have hl3 := h2.suffix.length_le
    have hl4 := h3.suffix.length_le
    have hl5 := h4.suffix.2
    simp only [List.length_cons] at hl1 hl3
    obtain ⟨u, hu⟩ := h6.mems_starts
    have hnext : ((Ch.comma :: s₆).dropWhile fun b => !([Ch.quote, Ch.rbrace] : Bytes).contains b) =
        Ch.quote :: u := by
      rw [List.dropWhile_cons, if_pos (by decide), dropWhile_token (ws_dropWhile _), hu,
        List.dropWhile_cons, if_neg (by decide)]
    rcases counts_key (m := m) h1 hk h2 h3 h4 ih1 h5 (follow_comma _) (by decide)
      ⟨h5, .inr ⟨_, _, rfl, .inl rfl⟩⟩ hnext hs hg
      hdep hm with hcome | ⟨p', e1, e2, e3, e4, -⟩
    · refine hcome.bind (by omega) fun a ha haf => ?_
      refine (comes_member_comma (t := t') (m := m) haf hu (mems_ahead h6 hu) (by omega)
        (by omega)).bind le_rfl fun a' ha' hb => ?_
      obtain ⟨p', d', rfl, e1, e2, e3⟩ := hb
      exact ih2 p' _ u d' ds m t' hu rfl e1 e2 (by omega)
    · refine .steps (.one (e4 rfl)) ?_
      exact ih2 p' _ u d ds m t' hu rfl e1 e2 (by omega)

/-- The run on a value at the root. -/
theorem start_counts {s₁ : Bytes} {v : Json} (hpad : Sentinel pad) (h : OnText p pad s)
    (hdep : p.depth = []) (hw : Ws s s₁) (hd : Der s₁ (.val v) t) (ht : NumEnd t)
    (hm : 2 * nodes p + s₁.length + 1 ≤ m) :
    ∃ n q, Steps (step E.logged) n (p.start E.logged) (.doc_end, q) ∧ 2 * nodes q ≤ m ∧
      Refused E q := by
  obtain ⟨b, r, rfl, hst⟩ := hd.starts
  have hg := h.ws hw hst.not_isSpace
  have hlt := hd.suffix.2
  simp only [List.length_cons] at hlt hm
  have closed : ∀ {a : Label × Parser (σ × Log)}, Comes E m t (Closed pad t p.SkipSpace.depth) a →
      ∃ n q, Steps (step E.logged) n a (.doc_end, q) ∧ 2 * nodes q ≤ m ∧ Refused E q := by
    rintro a ⟨n, ⟨lbl, q⟩, h1, h2, ⟨rfl, h3⟩ | ⟨p', d, h3, h4, h5⟩⟩
    · exact ⟨n, q, h1, by dsimp only at h2; omega, h3⟩
    · rw [SkipSpace_depth, hdep] at h5
      rw [scope_end_outer h4.err h5] at h3
      obtain ⟨rfl, rfl⟩ := Prod.mk.inj h3
      refine ⟨n, _, h1, by dsimp only at h2; omega, .of_err ?_⟩
      rw [show (p'.setDepth []).err_ = _ from h4.err]
      decide
  rw [start]
  by_cases h1 : b = Ch.lbrack
  · subst h1
    rw [if_pos hg.c]
    refine closed ?_
    obtain ⟨vs, rfl, ⟨-, hvs⟩ | he⟩ := hd.array_inv
    · have hl := hvs.suffix.length_le
      rw [List.length_cons] at hl
      exact start_array_counts [] hg (.inl hvs) (by omega) (by rw [nodes_SkipSpace]; omega)
    · obtain ⟨c, u, hu, hc⟩ := he.elems_starts
      have hl := he.suffix.2
      rw [List.length_cons] at hl
      exact start_array_counts _ hg (.inr ⟨c, u, hu, hc, counts hpad he⟩) (by omega)
        (by rw [nodes_SkipSpace]; omega)
  by_cases h2 : b = Ch.lbrace
  · subst h2
    rw [if_neg (hg.c ▸ h1), if_pos hg.c]
    refine closed ?_
    obtain ⟨ms, rfl, ⟨-, hms⟩ | he⟩ := hd.object_inv
    · have hl := hms.suffix.length_le
      rw [List.length_cons] at hl
      exact start_object_counts [] hg (.inl hms) (by omega) (by rw [nodes_SkipSpace]; omega)
    · obtain ⟨u, hu⟩ := he.mems_starts
      have hl := he.suffix.2
      rw [List.length_cons] at hl
      exact start_object_counts _ hg (.inr ⟨Ch.quote, u, hu, by decide, counts hpad he⟩) (by omega)
        (by rw [nodes_SkipSpace]; omega)
  obtain ⟨-, h3, h4⟩ := primitive_behind (E := E) hpad hg hd ⟨h2, h1⟩ ht
  rw [if_neg (hg.c ▸ h1), if_neg (hg.c ▸ h2)]
  rw [nodes_SkipSpace] at h3
  exact ⟨0, _, .refl _, by omega, h4⟩

/-- **The nodes of a text**: on a text of JSON, whatever the handler answers, the parser tells it of
half as many nodes as the text has bytes, and of a half at most. The handler stops the parser only
by an answer `false`, and not to a key that is skipped. -/
theorem Parse_nodes {v : Json} (hpad : Sentinel pad) (hs : JsonText s v) (s₀ : σ) :
    ∃ q, Parse E.logged (s ++ pad) s.length (s₀, []) = some q ∧
      2 * nodesOf q.sax.2.events ≤ s.length + 1 ∧
      (q.err_ = .kSaxTermination → ∃ e, (e, false) ∈ q.sax.2 ∧
        ¬(E.H.check_key_return = true ∧ e.isKey = true)) := by
  obtain ⟨s₁, t, hw, hd, ht⟩ := hs
  have hon : OnText (logged_reset s pad s₀) pad s := onText_reset s pad _
  have hl := hw.suffix.length_le
  have h0 : nodes (logged_reset s pad s₀) = 0 := rfl
  obtain ⟨n, q, h1, h2, h3⟩ := start_counts (E := E) (m := s.length + 1) hpad hon rfl hw hd
    (ht.follow trivial).numEnd (by omega)
  have himpl := parseImpl_of_steps hpad hon h1
  refine ⟨_, (congrArg (Option.map _) himpl), ?_, fun hc => ?_⟩
  · dsimp only
    split <;> exact h2
  · dsimp only at hc ⊢
    by_cases hq : q.err_ = .kErrorNone
    · rw [if_pos hq] at hc
      dsimp only at hc
      split at hc <;> exact absurd hc (by decide)
    · rw [if_neg hq] at hc ⊢
      exact h3 hc

end Parser

end SonicJson
