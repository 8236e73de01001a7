/-
# The parser accepts JSON

On a value of the text the parser goes to the label after it, and the handler is
told of the value as `feed` says; on the elements of an array or the members of
an object it goes to `scope_end`, with the count in the back of `depth`
(`Der.complete`). A key that the handler answers `false` to is skipped with its
value where `check_key_return` says so.
-/
import SonicJson.ParserText

namespace SonicJson

open Cursor Machine

theorem accept_eq_some {σ : Type*} {r : Bool × σ} {s : σ} :
    accept r = some s ↔ r.1 = true ∧ r.2 = s := by
  unfold accept
  split <;> simp_all

/-! ### The words of `depth` -/

/-- The back of `depth` in a container with `k` elements so far, whose values are followed by `cont`. -/
def word (cont : Label) (k : ℕ) : ℕ := if cont = .arr_cont then kArrMask + k else k

theorem and_kArrMask {k : ℕ} (hk : k < 2 ^ 31) : k &&& kArrMask = 0 := by
  refine Nat.eq_of_testBit_eq fun i => ?_
  rw [Nat.testBit_and, kArrMask, Nat.testBit_two_pow, Nat.zero_testBit]
  by_cases hi : 31 = i
  · subst hi
    rw [Nat.testBit_lt_two_pow hk, Bool.false_and]
  · simp [hi]

theorem add_kArrMask {k : ℕ} (hk : k < 2 ^ 31) : (kArrMask + k) &&& kArrMask ≠ 0 := by
  intro h
  have h1 : ((kArrMask + k) &&& kArrMask).testBit 31 = true := by
    rw [Nat.testBit_and, kArrMask, Nat.testBit_two_pow_add_eq, Nat.testBit_lt_two_pow hk,
      Nat.testBit_two_pow_self]
    rfl
  rw [h, Nat.zero_testBit] at h1
  exact absurd h1 (by decide)

theorem and_kArrMask_sub_one {k : ℕ} (hk : k < 2 ^ 31) : (kArrMask + k) &&& (kArrMask - 1) = k := by
  rw [kArrMask, Nat.and_two_pow_sub_one_eq_mod, Nat.add_mod_left, Nat.mod_eq_of_lt hk]

/-- The label is one that follows values in a container. -/
def IsCont (cont : Label) : Prop := cont = .arr_cont ∨ cont = .obj_cont

theorem word_label {cont : Label} (hc : IsCont cont) {k : ℕ} (hk : k < 2 ^ 31) :
    (if word cont k &&& kArrMask ≠ 0 then Label.arr_cont else .obj_cont) = cont := by
  rcases hc with rfl | rfl
  · exact if_pos (add_kArrMask hk)
  · exact if_neg (not_not.mpr (and_kArrMask hk))

theorem word_succ {cont : Label} {k : ℕ} (hk : k + 1 < 2 ^ 31) :
    (word cont k + 1) % 2 ^ 32 = word cont (k + 1) := by
  unfold word kArrMask
  split <;> omega

/-! ### What the words can count -/

mutual

/-- Every container has fewer children than a word of `depth` can count. -/
def Json.Counted : Json → Prop
  | .arr vs => vs.length < 2 ^ 31 ∧ Json.ElemsCounted vs
  | .obj ms => ms.length < 2 ^ 31 ∧ Json.MemsCounted ms
  | _ => True

def Json.ElemsCounted : List Json → Prop
  | [] => True
  | v :: vs => v.Counted ∧ Json.ElemsCounted vs

def Json.MemsCounted : List (Bytes × Json) → Prop
  | [] => True
  | (_, v) :: ms => v.Counted ∧ Json.MemsCounted ms

end

/-- The number of values that an item lists. -/
def Item.size : Item → ℕ
  | .val _ => 0
  | .elems vs => vs.length
  | .mems ms => ms.length

def Item.Counted : Item → Prop
  | .val v => v.Counted
  | .elems vs => Json.ElemsCounted vs
  | .mems ms => Json.MemsCounted ms

mutual

/-- All number tokens of a value are such. -/
def Json.AllNums (P : Bytes → Prop) : Json → Prop
  | .num tok => P tok
  | .arr vs => Json.ElemsAllNums P vs
  | .obj ms => Json.MemsAllNums P ms
  | _ => True

def Json.ElemsAllNums (P : Bytes → Prop) : List Json → Prop
  | [] => True
  | v :: vs => v.AllNums P ∧ Json.ElemsAllNums P vs

def Json.MemsAllNums (P : Bytes → Prop) : List (Bytes × Json) → Prop
  | [] => True
  | (_, v) :: ms => v.AllNums P ∧ Json.MemsAllNums P ms

end

def Item.AllNums (P : Bytes → Prop) : Item → Prop
  | .val v => v.AllNums P
  | .elems vs => Json.ElemsAllNums P vs
  | .mems ms => Json.MemsAllNums P ms

/-- In a text that is longer than an `int` can count the slow conversion is not come to. -/
def FloatConv.Sized (F : FloatConv) (flags : ParseFlags) (s : Bytes) (it : Item) : Prop :=
  s.length < 2 ^ 31 ∨ it.AllNums (Fast F flags)

theorem FloatConv.Sized.part {F : FloatConv} {flags : ParseFlags} {s s' : Bytes} {it it' : Item}
    (h : F.Sized flags s it) (hs : s' <:+ s)
    (hit : it.AllNums (Fast F flags) → it'.AllNums (Fast F flags)) : F.Sized flags s' it' :=
  h.imp (fun hlen => hs.length_le.trans_lt hlen) hit

/-- Each value in a list has a byte of its own. -/
theorem Der.size_le {s t : Bytes} {it : Item} (hd : Der s it t) : it.size + t.length ≤ s.length := by
  have hval : ∀ {s t : Bytes} {v : Json}, Der s (.val v) t →
    (Item.val v).size + t.length ≤ s.length := fun h =>
    (Nat.zero_add _).trans_le h.suffix.1.length_le
  induction hd with
  | null => exact hval .null
  | true => exact hval .true
  | false => exact hval .false
  | num h => exact hval (.num h)
  | str h => exact hval (.str h)
  | arrNil h => exact hval (.arrNil h)
  | arr h _ => exact hval (.arr h)
  | objNil h => exact hval (.objNil h)
  | obj h _ => exact hval (.obj h)
  | elemLast h1 h2 h3 =>
    have l1 := h1.suffix.length_le
    have l2 := h2.suffix.2
    have l3 := h3.suffix.length_le
    simp only [Item.size, List.length_cons, List.length_nil] at *
    omega
  | elemCons h1 h2 h3 _ _ ih =>
    have l1 := h1.suffix.length_le
    have l2 := h2.suffix.2
    have l3 := h3.suffix.length_le
    simp only [Item.size, List.length_cons] at *
    omega
  | memLast h1 hk h2 h3 h4 h5 =>
    have l1 := h1.suffix.length_le
    have l2 := hk.suffix.2
    have l3 := h2.suffix.length_le
    have l4 := h3.suffix.length_le
    have l5 := h4.suffix.2
    have l6 := h5.suffix.length_le
    simp only [Item.size, List.length_cons, List.length_nil] at *
    omega
  | memCons h1 hk h2 h3 h4 h5 _ _ ih =>
    have l1 := h1.suffix.length_le
    have l2 := hk.suffix.2
    have l3 := h2.suffix.length_le
    have l4 := h3.suffix.length_le
    have l5 := h4.suffix.2
    have l6 := h5.suffix.length_le
    simp only [Item.size, List.length_cons] at *
    omega

/-- A text of fewer bytes than a word counts. -/
theorem Der.counted {s t : Bytes} {it : Item} (hd : Der s it t) (hlen : s.length < 2 ^ 31) :
    it.Counted := by
  induction hd with
  | null | true | false | num _ | str _ => exact trivial
  | arrNil _ => exact ⟨by decide, trivial⟩
  | objNil _ => exact ⟨by decide, trivial⟩
  | arr he ih =>
    have hs := he.size_le
    simp only [Item.size, List.length_cons] at hs hlen
    exact ⟨by omega, ih (by omega)⟩
  | obj he ih =>
    have hs := he.size_le
    simp only [Item.size, List.length_cons] at hs hlen
    exact ⟨by omega, ih (by omega)⟩
  | elemLast h1 _ _ ih => exact ⟨ih (h1.suffix.length_le.trans_lt hlen), trivial⟩
  | elemCons h1 h2 h3 _ ih1 ih2 =>
    have l1 := h1.suffix.length_le
    have l2 := h2.suffix.2
    have l3 := h3.suffix.length_le
    simp only [List.length_cons] at l3
    exact ⟨ih1 (by omega), ih2 (by omega)⟩
  | memLast h1 hk h2 h3 _ _ ih =>
    have l1 := h1.suffix.length_le
    have l2 := hk.suffix.2
    have l3 := h2.suffix.length_le
    have l4 := h3.suffix.length_le
    simp only [List.length_cons] at l1 l3
    exact ⟨ih (by omega), trivial⟩
  | memCons h1 hk h2 h3 h4 h5 _ ih1 ih2 =>
    have l1 := h1.suffix.length_le
    have l2 := hk.suffix.2
    have l3 := h2.suffix.length_le
    have l4 := h3.suffix.length_le
    have l5 := h4.suffix.2
    have l6 := h5.suffix.length_le
    simp only [List.length_cons] at l1 l3 l6
    exact ⟨ih1 (by omega), ih2 (by omega)⟩

theorem JsonText.counted {s : Bytes} {v : Json} (h : JsonText s v) (hlen : s.length < 2 ^ 31) :
    v.Counted := by
  obtain ⟨s₁, s₂, hw, hd, -⟩ := h
  exact hd.counted (hw.suffix.length_le.trans_lt hlen)

namespace Parser

variable {σ : Type*} {E : Env σ} {p : Parser σ} {pad r s t : Bytes} {b : UInt8} {cont : Label}
    {k d : ℕ} {ds : List ℕ}
  {s' : σ}

/-! ### Between the labels -/

theorem sonic_check_err_ok {f : Parser σ → Label × Parser σ} (h : p.err_ = .kErrorNone) :
    p.sonic_check_err f = f p := by
  rw [sonic_check_err, if_neg (not_not.mpr h)]

theorem sonic_sax_check_ok {f : Parser σ → Label × Parser σ} {r : Bool × Parser σ} (h : r.1 = true) :
    sonic_sax_check r f = f r.2 := by rw [sonic_sax_check, if_pos h]

/-- A container inside another one is closed. -/
theorem scope_end_inner (h : p.err_ = .kErrorNone) (hc : IsCont cont) (hk : k < 2 ^ 31)
    (hd : p.depth = d :: word cont k :: ds) :
    p.scope_end = (cont, (p.setDepth (word cont k :: ds)).SkipSpace) := by
  rw [scope_end, sonic_check_err_ok h]
  simp only [hd, List.tail_cons, setDepth_depth, List.isEmpty_cons, Bool.false_eq_true, if_false, back,
    SkipSpace_depth, List.headD_cons]
  rw [word_label hc hk]

/-- The outermost container is closed. -/
theorem scope_end_outer (h : p.err_ = .kErrorNone) (hd : p.depth = [d]) :
    p.scope_end = (.doc_end, p.setDepth []) := by
  rw [scope_end, sonic_check_err_ok h]
  simp only [hd, List.tail_cons, setDepth_depth, List.isEmpty_nil, if_true]

theorem count_eq (hk : k + 1 < 2 ^ 31) (hd : p.depth = word cont k :: ds) :
    p.count = p.setDepth (word cont (k + 1) :: ds) := by
  rw [count, hd]
  simp only [word_succ hk]

/-! ### Primitive values -/

/-- A call that went well: `t` is left, and the handler is in state `s'`. -/
structure Done (p : Parser σ) (r : Bool × Parser σ) (pad t : Bytes) (s' : σ) : Prop where
  ok : r.1 = true
  text : OnText r.2 pad t
  depth : r.2.depth = p.depth
  sax : r.2.sax = s'

theorem done_literal {lit : Bytes} {n : ℕ} {e : Scalar} (h : Got p pad b r) (hr : b :: r = lit ++ t)
    (hn : lit.length = n + 1) (ha : accept (E.H.primitive e p.sax) = some s') :
    Done p (call { p with pos_ := p.pos_ + n } (E.H.primitive e)) pad t s' := by
  obtain ⟨h1, h2⟩ := accept_eq_some.mp ha
  refine ⟨h1, (h.move (Nat.le_add_right _ _) ?_).call _, rfl, h2⟩
  have h3 := h.byte
  rw [← List.cons_append, hr, List.append_assoc] at h3
  have h4 := h3.append
  have := h.pos
  rwa [hn, show p.pos_ - 1 + (n + 1) = p.pos_ + n by omega] at h4

theorem parseNull_done (h : Got p pad b r) (hr : b :: r = kNull ++ t)
    (ha : accept (E.H.primitive .Null p.sax) = some s') : Done p (p.parseNull E) pad t s' := by
  rw [parseNull, if_pos ((hr ▸ h.buf).eqBytes rfl)]
  exact done_literal h hr rfl ha

theorem parseTrue_done (h : Got p pad b r) (hr : b :: r = kTrue ++ t)
    (ha : accept (E.H.primitive (.Bool true) p.sax) = some s') : Done p (p.parseTrue E) pad t s' := by
  rw [parseTrue, if_pos ((hr ▸ h.buf).eqBytes rfl)]
  exact done_literal h hr rfl ha

theorem parseFalse_done (h : Got p pad b r) (hr : b :: r = kFalse ++ t)
    (ha : accept (E.H.primitive (.Bool false) p.sax) = some s') : Done p (p.parseFalse E) pad t s' := by
  have hr' : r = kFalse.drop 1 ++ t := (List.cons.inj hr).2
  rw [parseFalse, if_pos ((hr' ▸ h.toOnText.buf).eqBytes rfl)]
  exact done_literal h hr rfl ha

theorem parseStr_done {body : Bytes} {event : Bytes → σ → Bool × σ} (h : OnText p pad r)
    (hr : unescape E.parseFlags.kParseAllowUnescapedControlChars r = .ok (body, t)) :
    ∃ p', p.parseStr E event = p'.call (event body) ∧ OnText p' pad t ∧ p'.depth = p.depth ∧
      p'.sax = p.sax := by
  obtain ⟨p', h1, h2, h3, h4⟩ := h.string hr
  refine ⟨p', ?_, h2, h3, h4⟩
  rw [parseStr, h1]
  exact if_neg (not_not.mpr h2.err)

theorem parseStrInPlace_done {body : Bytes} (h : OnText p pad r)
    (hr : unescape E.parseFlags.kParseAllowUnescapedControlChars r = .ok (body, t))
    (ha : accept (E.H.primitive (.String body) p.sax) = some s') :
    Done p (p.parseStrInPlace E) pad t s' := by
  obtain ⟨p', h1, h2, h3, h4⟩ :=
    @parseStr_done _ E _ _ _ _ _ (fun sv => E.H.primitive (.String sv)) h hr
  rw [parseStrInPlace, h1]
  rw [← h4] at ha
  obtain ⟨h5, h6⟩ := accept_eq_some.mp ha
  exact ⟨h5, h2.call _, h3, h6⟩

section
variable (hpad : Sentinel pad) (hF : E.F.Local)
    (hflags : E.parseFlags.kParseOverflowNumAsNumStr = false)
include hpad hF hflags

theorem parseNumber_done {tok : Bytes} {e : Scalar} (h : Got p pad b r)
    (hsz : (b :: r).length < 2 ^ 31 ∨ Fast E.F E.parseFlags tok) (hr : b :: r = tok ++ t)
    (htok : NumTok tok) (ht : NumEnd t) (he : numEvent E.F E.parseFlags tok = some e)
    (ha : accept (E.H.primitive e p.sax) = some s') :
    Done p (true, p.parseNumber E) pad t s' := by
  have hs := (hr ▸ h.buf).number hpad hF (hr ▸ hsz) hflags htok ht
  rw [h.pos] at hs
  obtain ⟨h1, h2⟩ := accept_eq_some.mp ha
  have hi := (@parseNumber_token E.F E.parseFlags tok.length hflags tok htok).2
  unfold numEvent at he
  split at he
  swap
  · simp at he
  rename_i herr
  rw [Parser.parseNumber, hs.ev, he]
  simp only [h1, if_true, hs.err, herr, hs.i]
  have h3 := h.byte
  rw [← List.cons_append, hr, List.append_assoc] at h3
  have h4 := h3.append
  have h5 := h.pos
  have h6 : 0 < tok.length := by
    obtain ⟨b, r, rfl, -⟩ := htok.cons_head
    simp
  refine ⟨rfl, ⟨⟨?_, h.valid.mono ?_, rfl⟩, h.length⟩, rfl, h2⟩
  · rw [numRes, hi]
    exact h4
  · simp only [numRes, hi]
    omega

/-- A value that is no container: the switch inside a container and the one at the root. -/
theorem scalar_done {v : Json} (h : Got p pad b r) (hsz : E.F.Sized E.parseFlags (b :: r) (.val v))
    (hd : Der (b :: r) (.val v) t)
    (hb : b ≠ Ch.lbrace ∧ b ≠ Ch.lbrack) (ht : NumEnd t)
    (ha : feed E.F E.parseFlags E.H v p.sax = some s') :
    ∃ q, Done p (true, q) pad t s' ∧ (∀ cont, p.value E cont = (cont, q.SkipSpace)) ∧
      p.parsePrimitives E = q := by
  have hc := h.c
  have literal : ∀ q : Bool × Parser σ, Done p q pad t s' → Done p (true, q.2) pad t s' ∧
      (∀ cont, (q.2.sonic_check_err fun p => if !q.1
        then (.doc_end, p.setParseError .kSaxTermination) else (cont, p.SkipSpace)) =
        (cont, q.2.SkipSpace)) ∧ (if !q.1 then q.2.setFirstError .kSaxTermination else q.2) = q.2 := by
    intro q hq
    refine ⟨⟨rfl, hq.text, hq.depth, hq.sax⟩, fun cont => ?_, ?_⟩
    · rw [sonic_check_err_ok hq.text.err, hq.ok]
      rfl
    · rw [hq.ok]
      rfl
  generalize hs : b :: r = s at hd hsz
  cases hd with
  | null =>
    obtain ⟨h1, h2, h3⟩ := literal _ (parseNull_done h hs ha)
    obtain rfl : b = Ch.n := (List.cons.inj hs).1
    refine ⟨_, h1, fun cont => ?_, ?_⟩
    · rw [value, hc]
      exact h2 cont
    · rw [parsePrimitives, hc]
      exact h3
  | true =>
    obtain ⟨h1, h2, h3⟩ := literal _ (parseTrue_done h hs ha)
    obtain rfl : b = Ch.t := (List.cons.inj hs).1
    refine ⟨_, h1, fun cont => ?_, ?_⟩
    · rw [value, hc]
      exact h2 cont
    · rw [parsePrimitives, hc]
      exact h3
  | false =>
    obtain ⟨h1, h2, h3⟩ := literal _ (parseFalse_done h hs ha)
    obtain rfl : b = Ch.f := (List.cons.inj hs).1
    refine ⟨_, h1, fun cont => ?_, ?_⟩
    · rw [value, hc]
      exact h2 cont
    · rw [parsePrimitives, hc]
      exact h3
  | @num tok _ htok =>
    rw [feed, Option.bind_eq_some_iff] at ha
    obtain ⟨e, he, ha⟩ := ha
    have h1 := parseNumber_done hpad hF hflags h (hs ▸ hsz) hs htok ht he ha
    have hdig : (is_digit p.c || p.c == Ch.minus) = true := by
      obtain ⟨b', r', rfl, hb'⟩ := htok.cons_head
      obtain rfl : b = b' := (List.cons.inj hs).1
      rw [hc, Bool.or_eq_true, beq_iff_eq]
      exact hb'.symm
    refine ⟨_, h1, fun cont => ?_, ?_⟩
    · rw [value, if_neg (hc ▸ hb.1), if_neg (hc ▸ hb.2), if_pos hdig]
      exact sonic_check_err_ok h1.text.err
    · rw [parsePrimitives, if_pos hdig]
  | str hbody =>
    obtain ⟨rfl, rfl⟩ := List.cons.inj hs
    have h1 := parseStrInPlace_done h.toOnText (hbody.unescape _) ha
    obtain ⟨h2, -, h3⟩ := literal _ h1
    refine ⟨_, h2, fun cont => ?_, ?_⟩
    · rw [value, hc]
      show sonic_sax_check (p.parseStrInPlace E) (fun p => p.sonic_check_err fun p =>
        (cont, p.SkipSpace)) = _
      rw [sonic_sax_check_ok h1.ok]
      exact sonic_check_err_ok h1.text.err
    · have h4 := h1.text.buf.left.length_add
      rw [parsePrimitives, hc, if_neg (by decide), if_pos rfl]
      refine (if_neg ?_).trans h3
      omega
  | arrNil _ => exact absurd (List.cons.inj hs).1 hb.2
  | arr _ => exact absurd (List.cons.inj hs).1 hb.2
  | objNil _ => exact absurd (List.cons.inj hs).1 hb.1
  | obj _ => exact absurd (List.cons.inj hs).1 hb.1

end

/-! ### Containers -/

/-- From `a` the parser goes to the end of a container, with `t` left, and the handler in state `s'`. -/
def Closes (E : Env σ) (a : Label × Parser σ) (pad t : Bytes) (ds : List ℕ) (s' : σ) : Prop :=
  ∃ n p' d, Steps (step E) n a p'.scope_end ∧ OnText p' pad t ∧ p'.depth = d :: ds ∧ p'.sax = s'

theorem Closes.steps {a a' : Label × Parser σ} {n : ℕ} (h : Steps (step E) n a a')
    (hc : Closes E a' pad t ds s') :
    Closes E a pad t ds s' := by
  obtain ⟨m, p', d, h1, h2⟩ := hc
  exact ⟨n + m, p', d, h.trans h1, h2⟩

/-- An end of a container that the handler accepts. -/
theorem closes_end {f : σ → Bool × σ} (h : OnText p pad t) (hd : p.depth = d :: ds)
    (ha : accept (f p.sax) = some s') :
    Closes E (sonic_sax_check (p.call f) scope_end) pad t ds s' := by
  obtain ⟨h1, h2⟩ := accept_eq_some.mp ha
  refine ⟨0, (p.call f).2, d, ?_, h.call f, hd, h2⟩
  rw [sonic_sax_check_ok h1]
  exact .refl _

/-- The parser goes to the label `cont`, where the byte after the whitespace in `t` has been read. -/
def Continues (E : Env σ) (a : Label × Parser σ) (cont : Label) (pad t : Bytes) (depth : List ℕ)
    (s' : σ) : Prop :=
  ∀ c u, t.dropWhile IsSpace = c :: u →
    ∃ n p', Steps (step E) n a (cont, p') ∧ Got p' pad c u ∧ p'.depth = depth ∧ p'.sax = s'

theorem Closes.continues {a : Label × Parser σ} (h : Closes E a pad t (word cont k :: ds) s')
    (hc : IsCont cont) (hk : k < 2 ^ 31) : Continues E a cont pad t (word cont k :: ds) s' := by
  intro c u ht
  obtain ⟨n, p', d, h1, h2, h3, h4⟩ := h
  rw [scope_end_inner h2.err hc hk h3] at h1
  exact ⟨n, _, h1, (h2.setDepth _).SkipSpace ht, rfl, h4⟩

/-- What the parser does on the text of an item, with `k` elements or kept members before it. -/
def Completes (E : Env σ) (pad s : Bytes) (t : Bytes) : Item → Prop
  | .val v => ∀ p b r s' cont k ds, s = b :: r → Got p pad b r → v.Counted → Follow t →
      feed E.F E.parseFlags E.H v p.sax = some s' → IsCont cont → k < 2 ^ 31 →
        p.depth = word cont k :: ds →
      Continues E (p.value E cont) cont pad t p.depth s'
  | .elems vs =>
    ∀ p b r k ds s₁ s₂ t', s.dropWhile IsSpace = b :: r → t = Ch.rbrack :: t' → Got p pad b r →
      k + vs.length < 2 ^ 31 → Json.ElemsCounted vs → p.depth = word .arr_cont k :: ds →
      feedElems E.F E.parseFlags E.H vs p.sax = some s₁ → accept (E.H.EndArray (k + vs.length) s₁) =
        some s₂ →
      Closes E (.arr_val, p) pad t' ds s₂
  | .mems ms =>
    ∀ p b r k m ds s₁ s₂ t', s.dropWhile IsSpace = b :: r → t = Ch.rbrace :: t' → Got p pad b r →
      k + ms.length < 2 ^ 31 → Json.MemsCounted ms → p.depth = word .obj_cont k :: ds →
      feedMems E.F E.parseFlags E.H ms k p.sax = some (m, s₁) → accept (E.H.EndObject m s₁) = some s₂ →
      Closes E (.obj_key, p) pad t' ds s₂

/-- An array whose elements the parser handles is handled. -/
theorem start_array_closes {vs : List Json} (h : Got p pad b r)
    (hr : vs = [] ∧ Ws r (Ch.rbrack :: t) ∨ ∃ c u, r.dropWhile IsSpace = c :: u ∧ c ≠ Ch.rbrack ∧
      Completes E pad r (Ch.rbrack :: t) (.elems vs)) (hlen : (Json.arr vs).Counted)
    (ha : feed E.F E.parseFlags E.H (.arr vs) p.sax = some s') :
    Closes E (p.start_array E) pad t p.depth s' := by
  simp only [feed, Option.bind_eq_some_iff] at ha
  obtain ⟨s₀, h0, s₁, h1, h2⟩ := ha
  obtain ⟨h3, rfl⟩ := accept_eq_some.mp h0
  rw [start_array, sonic_sax_check_ok h3]
  have hd := (h.call E.H.StartArray).setDepth (kArrMask :: (p.call E.H.StartArray).2.depth)
  rcases hr with ⟨rfl, hw⟩ | ⟨c, u, hu, hc, he⟩
  · have h5 := hd.ws hw (by decide)
    obtain rfl := Option.some.inj h1
    dsimp only
    rw [if_pos h5.c]
    exact closes_end h5.toOnText rfl h2
  · have h5 := hd.SkipSpace hu
    dsimp only
    rw [if_neg (h5.c ▸ hc)]
    exact he _ c u 0 p.depth s₁ s' t hu rfl h5 (by rw [Nat.zero_add]; exact hlen.1) hlen.2 rfl h1
      (by rwa [Nat.zero_add])

theorem start_object_closes {ms : List (Bytes × Json)} (h : Got p pad b r)
    (hr : ms = [] ∧ Ws r (Ch.rbrace :: t) ∨ ∃ c u, r.dropWhile IsSpace = c :: u ∧ c ≠ Ch.rbrace ∧
      Completes E pad r (Ch.rbrace :: t) (.mems ms)) (hlen : (Json.obj ms).Counted)
    (ha : feed E.F E.parseFlags E.H (.obj ms) p.sax = some s') :
    Closes E (p.start_object E) pad t p.depth s' := by
  simp only [feed, Option.bind_eq_some_iff] at ha
  obtain ⟨s₀, h0, ⟨m, s₁⟩, h1, h2⟩ := ha
  obtain ⟨h3, rfl⟩ := accept_eq_some.mp h0
  rw [start_object, sonic_sax_check_ok h3]
  have hd := (h.call E.H.StartObject).setDepth (kObjMask :: (p.call E.H.StartObject).2.depth)
  rcases hr with ⟨rfl, hw⟩ | ⟨c, u, hu, hc, he⟩
  · have h5 := hd.ws hw (by decide)
    obtain ⟨rfl, rfl⟩ := Prod.mk.inj (Option.some.inj h1)
    dsimp only
    rw [if_pos h5.c]
    exact closes_end h5.toOnText rfl h2
  · have h5 := hd.SkipSpace hu
    dsimp only
    rw [if_neg (h5.c ▸ hc)]
    exact he _ c u 0 m p.depth s₁ s' t hu rfl h5 (by rw [Nat.zero_add]; exact hlen.1) hlen.2 rfl h1 h2

/-- After an element. -/
theorem arr_cont_last (h : Got p pad Ch.rbrack t) (hk : k + 1 < 2 ^ 31)
    (hd : p.depth = word .arr_cont k :: ds) (ha : accept (E.H.EndArray (k + 1) p.sax) = some s') :
    Closes E (.arr_cont, p) pad t ds s' := by
  refine Closes.steps (.one rfl) ?_
  rw [arr_cont, count_eq hk hd]
  have h' := h.setDepth (word .arr_cont (k + 1) :: ds)
  have hc : (p.setDepth (word .arr_cont (k + 1) :: ds)).c ≠ Ch.comma := by
    rw [h'.c]
    decide
  rw [if_neg hc, if_pos h'.c]
  have hb : (p.setDepth (word .arr_cont (k + 1) :: ds)).back &&& (kArrMask - 1) = k + 1 :=
    and_kArrMask_sub_one hk
  rw [hb]
  exact closes_end h'.toOnText rfl ha

theorem arr_cont_comma (h : Got p pad Ch.comma t) (hk : k + 1 < 2 ^ 31)
    (hd : p.depth = word .arr_cont k :: ds) :
    step E (.arr_cont, p) = some (.arr_val, (p.setDepth (word .arr_cont (k + 1) :: ds)).SkipSpace) := by
  show some (p.arr_cont E) = _
  rw [arr_cont, count_eq hk hd]
  exact congrArg some (if_pos h.c)

theorem obj_cont_last (h : Got p pad Ch.rbrace t) (hk : k + 1 < 2 ^ 31)
    (hd : p.depth = word .obj_cont k :: ds) (ha : accept (E.H.EndObject (k + 1) p.sax) = some s') :
    Closes E (.obj_cont, p) pad t ds s' := by
  refine Closes.steps (.one rfl) ?_
  rw [obj_cont, count_eq hk hd]
  have h' := h.setDepth (word .obj_cont (k + 1) :: ds)
  have hc : (p.setDepth (word .obj_cont (k + 1) :: ds)).c ≠ Ch.comma := by
    rw [h'.c]
    decide
  rw [if_neg hc, if_neg (not_not.mpr h'.c)]
  exact closes_end h'.toOnText rfl ha

theorem obj_cont_comma (h : Got p pad Ch.comma t) (hk : k + 1 < 2 ^ 31)
    (hd : p.depth = word .obj_cont k :: ds) :
    step E (.obj_cont, p) = some (.obj_key, (p.setDepth (word .obj_cont (k + 1) :: ds)).SkipSpace) := by
  show some (p.obj_cont E) = _
  rw [obj_cont, count_eq hk hd]
  exact congrArg some (if_pos h.c)

/-! ### Members -/

theorem dropWhile_token {t u : Bytes} (h : Ws t u) :
    t.dropWhile (fun b => !([Ch.quote, Ch.rbrace] : Bytes).contains b) =
    u.dropWhile fun b => !([Ch.quote, Ch.rbrace] : Bytes).contains b := by
  induction h with
  | nil => rfl
  | @cons b _ _ hb _ ih =>
    have hn : ([Ch.quote, Ch.rbrace] : Bytes).contains b = false := by
      simp only [IsSpace, Bool.or_eq_true, beq_iff_eq] at hb
      rcases hb with ((rfl | rfl) | rfl) | rfl <;> decide
    rw [List.dropWhile_cons, hn, if_pos (by decide), ih]

/-- A skipped value of the text: the parser goes on at the next token, which is `c`. -/
theorem skip_key_eq {s₄ s₅ u : Bytes} {v : Json} {c : UInt8} (h : OnText p pad s)
    (hpos : 0 < p.pos_) (hw : Ws s s₄) (hd : Der s₄ (.val v) s₅) (hn : Next s₅ u)
    (hu : (u.dropWhile fun b => !([Ch.quote, Ch.rbrace] : Bytes).contains b) = c :: t) :
    ∃ p', Got p' pad c t ∧ p'.depth = p.depth ∧ p'.sax = p.sax ∧
      (c = Ch.quote → p.skip_key E = (.obj_key, p')) ∧
      (c = Ch.rbrace → p.skip_key E = sonic_sax_check (p'.call (E.H.EndObject p'.back)) scope_end) := by
  obtain ⟨q, k', t', h1, h2, h3, h4, -⟩ := SkipOne_value E.A ⟨h.buf.left, h.valid⟩ hw hd hn
  have htu : c :: t <:+ u := hu ▸ List.dropWhile_suffix _
  have hst : c :: t <:+ s := ((htu.trans h4.suffix).trans (h3.suffix.trans hd.suffix.1)).trans hw.suffix
  have htok : GetNextToken E.A p.json_buf_ q p.len_ [Ch.quote, Ch.rbrace] =
      (c, p.len_ - (t.length + 1)) := by
    rw [GetNextToken_eq h2.left, dropWhile_token h4, hu]
    rfl
  have hl := h.buf.left.length_add
  have hlw := hw.suffix.length_le
  have hlt := hst.length_le
  have hlq := h2.left.length_add
  have htl := (htu.trans h4.suffix).length_le
  simp only [List.length_cons] at hlt htl
  have hbyte := h.suffix hst
  have hstart : (Except.ok (p.len_ - s₄.length) : Except SonicError ℕ) ≠ .ok 0 := by
    simp only [ne_eq, Except.ok.injEq]
    omega
  refine ⟨{ p with pos_ := p.len_ - (t.length + 1) + 1, scan := k', c := c },
    ⟨⟨⟨?_, ?_, h.err⟩, h.length⟩, rfl, ?_⟩, rfl, rfl, ?_, ?_⟩
  · exact hbyte.succ
  · refine h2.valid.mono ?_
    simp only
    omega
  · exact hbyte
  · rintro rfl
    simp only [skip_key, h1, hstart, if_false, htok, if_true]
  · rintro rfl
    simp only [skip_key, h1, hstart, if_false, htok, if_true, show Ch.rbrace ≠ Ch.quote by decide]
    rfl

/-- A key of the text, with its colon: what the handler answers decides. -/
theorem obj_key_eq {s₁ s₂ s₃ key : Bytes} (h : Got p pad Ch.quote s₁) (hk : StrBody s₁ key s₂)
    (hc : Ws s₂ (Ch.colon :: s₃)) :
    ∃ p', Got p' pad Ch.colon s₃ ∧ p'.depth = p.depth ∧ p'.sax = (E.H.Key key p.sax).2 ∧ p.obj_key E =
      if (E.H.Key key p.sax).1 then p'.SkipSpace.value E .obj_cont
      else if E.H.check_key_return then p'.skip_key E
      else (.doc_end, p'.setFirstError .kSaxTermination) := by
  obtain ⟨q, h1, h2, h3, h4⟩ := @parseStr_done _ E _ _ _ _ _ E.H.Key h.toOnText (hk.unescape _)
  have h5 := (h2.call (E.H.Key key)).ws hc (by decide)
  refine ⟨_, h5, h3, ?_, ?_⟩
  · show (E.H.Key key q.sax).2 = _
    rw [h4]
  · have he : (q.call (E.H.Key key)).2.err_ = .kErrorNone := h2.err
    rw [obj_key, if_neg (not_not.mpr h.c), parseKeyInPlace, h1]
    dsimp only
    rw [sonic_check_err_ok he, if_neg (not_not.mpr h5.c),
      show (q.call (E.H.Key key)).1 = (E.H.Key key p.sax).1 by
      rw [← h4]; rfl]
    cases (E.H.Key key p.sax).1 <;> rfl

/-! ### The run on a derivation -/

/-- A container inside another one. -/
theorem completes_container {v : Json} {c : UInt8}
    (h : ∀ p r s', s = c :: r → Got p pad c r → v.Counted →
    feed E.F E.parseFlags E.H v p.sax = some s' →
      ∀ cont, Closes E (p.value E cont) pad t p.depth s') (hs : ∃ r, s = c :: r) :
        Completes E pad s t (.val v) := by
  intro p b r s' cont k ds hs' hg hlen _ ha hcont hk hdep
  obtain ⟨r', rfl⟩ := hs
  obtain ⟨rfl, rfl⟩ := List.cons.inj hs'
  have h1 := h p r' s' rfl hg hlen ha cont
  rw [hdep] at h1 ⊢
  exact h1.continues hcont hk

theorem completes_array {vs : List Json} (hr : vs = [] ∧ Ws s (Ch.rbrack :: t) ∨
    ∃ c u, s.dropWhile IsSpace = c :: u ∧ c ≠ Ch.rbrack ∧
      Completes E pad s (Ch.rbrack :: t) (.elems vs)) :
    Completes E pad (Ch.lbrack :: s) t (.val (.arr vs)) := by
  refine completes_container (c := Ch.lbrack) (fun p r s' hs hg hlen ha cont => ?_) ⟨s, rfl⟩
  obtain ⟨-, rfl⟩ := List.cons.inj hs
  have := start_array_closes hg hr hlen ha
  rwa [value, hg.c]

theorem completes_object {ms : List (Bytes × Json)} (hr : ms = [] ∧ Ws s (Ch.rbrace :: t) ∨
    ∃ c u, s.dropWhile IsSpace = c :: u ∧ c ≠ Ch.rbrace ∧
      Completes E pad s (Ch.rbrace :: t) (.mems ms)) :
    Completes E pad (Ch.lbrace :: s) t (.val (.obj ms)) := by
  refine completes_container (c := Ch.lbrace) (fun p r s' hs hg hlen ha cont => ?_) ⟨s, rfl⟩
  obtain ⟨-, rfl⟩ := List.cons.inj hs
  have := start_object_closes hg hr hlen ha
  rwa [value, hg.c]

/-- The value of a member stands behind its key and the colon. -/
theorem value_suffix {s₁ s₂ s₃ s₄ key : Bytes} (hw : Ws s (Ch.quote :: s₁)) (hk : StrBody s₁ key s₂)
    (hcol : Ws s₂ (Ch.colon :: s₃)) (hv : Ws s₃ s₄) : s₄ <:+ s :=
  hv.suffix.trans ((List.suffix_cons _ _).trans (hcol.suffix.trans
    (hk.suffix.1.trans ((List.suffix_cons _ _).trans hw.suffix))))

/-- A value inside an array. -/
theorem completes_elem {s₁ s₂ : Bytes} {v : Json} {c : UInt8} (hw : Ws s s₁) (hd : Der s₁ (.val v) s₂)
    (h : Completes E pad s₁ s₂ (.val v)) (hc : Ws s₂ (c :: t)) (hfol : Follow (c :: t))
    (hcs : IsSpace c = false) (hs : s.dropWhile IsSpace = b :: r) (hg : Got p pad b r)
    (hk : k < 2 ^ 31) (hv : v.Counted) (hdep : p.depth = word .arr_cont k :: ds)
    (ha : feed E.F E.parseFlags E.H v p.sax = some s') :
    ∃ n p', Steps (step E) n (.arr_val, p) (.arr_cont, p') ∧ Got p' pad c t ∧
      p'.depth = word .arr_cont k :: ds ∧
      p'.sax = s' := by
  obtain ⟨b', r', rfl, hst⟩ := hd.starts
  have hs' := hw.dropWhile_eq hst.not_isSpace
  obtain ⟨rfl, rfl⟩ := List.cons.inj (hs'.symm.trans hs)
  obtain ⟨n, p', h1, h2, h3, h4⟩ := h p b' r' s' .arr_cont k ds rfl hg hv (hc.follow hfol) ha (.inl rfl)
    hk hdep c t (hc.dropWhile_eq hcs)
  exact ⟨1 + n, p', (Steps.one (show step E (.arr_val, p) = _ from rfl)).trans h1, h2,
    h3.trans hdep, h4⟩

/-- A member whose key the handler keeps. -/
theorem completes_member {s₁ s₂ s₃ s₄ s₅ key : Bytes} {v : Json} {c : UInt8}
    (hw : Ws s (Ch.quote :: s₁)) (hk : StrBody s₁ key s₂) (hcol : Ws s₂ (Ch.colon :: s₃))
    (hv : Ws s₃ s₄) (hd : Der s₄ (.val v) s₅) (h : Completes E pad s₄ s₅ (.val v))
    (hc : Ws s₅ (c :: t)) (hfol : Follow (c :: t)) (hcs : IsSpace c = false)
    (hs : s.dropWhile IsSpace = b :: r) (hg : Got p pad b r) (hlen : k < 2 ^ 31) (hcnt : v.Counted)
    (hdep : p.depth = word .obj_cont k :: ds) (hkey : (E.H.Key key p.sax).1 = true)
    (ha : feed E.F E.parseFlags E.H v (E.H.Key key p.sax).2 = some s') :
    ∃ n p', Steps (step E) n (.obj_key, p) (.obj_cont, p') ∧ Got p' pad c t ∧
      p'.depth = word .obj_cont k :: ds ∧
      p'.sax = s' := by
  obtain ⟨rfl, rfl⟩ := List.cons.inj ((hw.dropWhile_eq (by decide)).symm.trans hs)
  obtain ⟨p₁, h1, h2, h3, h4⟩ := @obj_key_eq _ E _ _ _ _ _ _ hg hk hcol
  rw [if_pos hkey] at h4
  obtain ⟨b', r', rfl, hst⟩ := hd.starts
  have h5 := h1.toOnText.ws hv hst.not_isSpace
  obtain ⟨n, p', h6, h7, h8, h9⟩ := h p₁.SkipSpace b' r' s' .obj_cont k ds rfl h5 hcnt (hc.follow hfol)
    (by rw [SkipSpace_sax, h3]; exact ha) (.inr rfl) hlen (h2.trans hdep) c t (hc.dropWhile_eq hcs)
  refine ⟨1 + n, p', (Steps.one ?_).trans h6, h7, h8.trans (h2.trans hdep), h9⟩
  show some (p.obj_key E) = _
  rw [h4]

/-- A member that is skipped: the next token decides. -/
theorem skipped_member {s₁ s₂ s₃ s₄ s₅ u key : Bytes} {v : Json} {c : UInt8}
    (hw : Ws s (Ch.quote :: s₁)) (hk : StrBody s₁ key s₂) (hcol : Ws s₂ (Ch.colon :: s₃))
    (hv : Ws s₃ s₄) (hd : Der s₄ (.val v) s₅) (hn : Next s₅ u)
    (hu : (u.dropWhile fun b => !([Ch.quote, Ch.rbrace] : Bytes).contains b) = c :: t)
    (hs : s.dropWhile IsSpace = b :: r) (hg : Got p pad b r) (hkey : (E.H.Key key p.sax).1 = false)
    (hskip : E.H.check_key_return = true) :
    ∃ p', Got p' pad c t ∧ p'.depth = p.depth ∧ p'.sax = (E.H.Key key p.sax).2 ∧
      (c = Ch.quote → step E (.obj_key, p) = some (.obj_key, p')) ∧
      (c = Ch.rbrace → step E (.obj_key, p) =
        some (sonic_sax_check (p'.call (E.H.EndObject p'.back)) scope_end)) := by
  obtain ⟨rfl, rfl⟩ := List.cons.inj ((hw.dropWhile_eq (by decide)).symm.trans hs)
  obtain ⟨p₁, h1, h2, h3, h4⟩ := @obj_key_eq _ E _ _ _ _ _ _ hg hk hcol
  rw [hkey, hskip, if_neg (by decide), if_pos rfl] at h4
  have hpos := h1.pos
  obtain ⟨p', h5, h6, h7, h8, h9⟩ :=
    @skip_key_eq _ E _ _ _ _ _ _ _ _ _ h1.toOnText (by omega) hv hd hn hu
  refine ⟨p', h5, h6.trans h2, h7.trans h3, fun hc => ?_, fun hc => ?_⟩
  · show some (p.obj_key E) = _
    rw [h4, h8 hc]
  · show some (p.obj_key E) = _
    rw [h4, h9 hc]

section
variable (hpad : Sentinel pad) (hF : E.F.Local)
    (hflags : E.parseFlags.kParseOverflowNumAsNumStr = false)
include hpad hF hflags

theorem completes_scalar {v : Json} (hsz : E.F.Sized E.parseFlags s (.val v)) (hd : Der s (.val v) t)
    (hb : ∀ b r, s = b :: r → b ≠ Ch.lbrace ∧ b ≠ Ch.lbrack) : Completes E pad s t (.val v) := by
  intro p b r s' cont k ds hs h _ hfol ha _ _ _ c u ht
  subst hs
  obtain ⟨q, h1, h2, -⟩ := scalar_done hpad hF hflags h hsz hd (hb b r rfl) hfol.numEnd ha
  exact ⟨0, _, h2 cont ▸ .refl _, h1.text.SkipSpace ht, h1.depth, h1.sax⟩

/-- **A run on JSON**: what the parser does on the text of a value, of elements or of members. -/
theorem complete {it : Item} (hd : Der s it t) (hsz : E.F.Sized E.parseFlags s it) :
    Completes E pad s t it := by
  have hlit : ∀ {c : UInt8} {s : Bytes}, (c ≠ Ch.lbrace ∧ c ≠ Ch.lbrack) → ∀ b r, c :: s = b :: r →
      b ≠ Ch.lbrace ∧ b ≠ Ch.lbrack := fun hc b r h => (List.cons.inj h).1 ▸ hc
  induction hd with
  | null => exact completes_scalar hpad hF hflags hsz .null (hlit (by decide))
  | true => exact completes_scalar hpad hF hflags hsz .true (hlit (by decide))
  | false => exact completes_scalar hpad hF hflags hsz .false (hlit (by decide))
  | num htok =>
    refine completes_scalar hpad hF hflags hsz (.num htok) fun b r h => ?_
    obtain ⟨b', r', rfl, hb'⟩ := htok.cons_head
    obtain ⟨rfl, -⟩ := List.cons.inj h
    constructor <;> rintro rfl <;> exact absurd hb' (by decide)
  | str hbody => exact completes_scalar hpad hF hflags hsz (.str hbody) (hlit (by decide))
  | arrNil hw => exact completes_array (.inl ⟨rfl, hw⟩)
  | arr he ih =>
    obtain ⟨c, u, hu, hc⟩ := he.elems_starts
    exact completes_array (.inr ⟨c, u, hu, hc, ih (hsz.part (List.suffix_cons _ _) id)⟩)
  | objNil hw => exact completes_object (.inl ⟨rfl, hw⟩)
  | obj he ih =>
    obtain ⟨u, hu⟩ := he.mems_starts
    exact completes_object (.inr ⟨Ch.quote, u, hu, by decide, ih (hsz.part (List.suffix_cons _ _) id)⟩)
  | elemLast h1 h2 h3 ih =>
    intro p b r k ds s₁ s₂ t' hs ht hg hlen hcnt hdep ha hend
    obtain ⟨-, rfl⟩ := List.cons.inj ht
    simp only [feedElems, Option.bind_eq_some_iff] at ha
    obtain ⟨s', ha, hs'⟩ := ha
    obtain rfl := Option.some.inj hs'
    obtain ⟨n, p', e1, e2, e3, rfl⟩ :=
      completes_elem h1 h2 (ih (hsz.part h1.suffix And.left)) h3 (follow_rbrack _)
      (by decide) hs hg
      (Nat.lt_of_succ_lt hlen) hcnt.1 hdep ha
    exact .steps e1 (arr_cont_last e2 hlen e3 hend)
  | elemCons h1 h2 h3 h4 ih1 ih2 =>
    intro p b r k ds s₁ s₂ t' hs ht hg hlen hcnt hdep ha hend
    rw [List.length_cons] at hlen
    simp only [feedElems, Option.bind_eq_some_iff] at ha
    obtain ⟨s', ha, ha'⟩ := ha
    have htl := (List.suffix_cons _ _).trans (h3.suffix.trans (h2.suffix.1.trans h1.suffix))
    obtain ⟨n, p', e1, e2, e3, rfl⟩ :=
      completes_elem h1 h2 (ih1 (hsz.part h1.suffix And.left)) h3 (follow_comma _)
      (by decide) hs hg (by omega) hcnt.1 hdep ha
    obtain ⟨c, u, hu, -⟩ := h4.elems_starts
    rw [List.length_cons, Nat.add_comm _ 1, ← Nat.add_assoc] at hend
    refine .steps (e1.trans (.one (arr_cont_comma e2 (by omega) e3))) ?_
    exact ih2 (hsz.part htl And.right) _ c u (k + 1) ds s₁ s₂ t' hu ht
      ((e2.toOnText.setDepth _).SkipSpace hu) (by omega)
      hcnt.2 rfl ha' hend
  | memLast h1 hk h2 h3 h4 h5 ih =>
    intro p b r k m ds s₁ s₂ t' hs ht hg hlen hcnt hdep ha hend
    obtain ⟨-, rfl⟩ := List.cons.inj ht
    rw [feedMems] at ha
    split at ha
    · rename_i hkey
      simp only [feedMems, Option.bind_eq_some_iff, Option.some.injEq, Prod.mk.injEq] at ha
      obtain ⟨s', ha, rfl, rfl⟩ := ha
      obtain ⟨n, p', e1, e2, e3, rfl⟩ := completes_member h1 hk h2 h3 h4
        (ih (hsz.part (value_suffix h1 hk h2 h3) And.left)) h5 (follow_rbrace _) (by decide) hs hg
        (Nat.lt_of_succ_lt hlen) hcnt.1 hdep hkey ha
      exact .steps e1 (obj_cont_last e2 hlen e3 hend)
    · rename_i hkey
      split at ha
      · rename_i hskip
        obtain ⟨rfl, rfl⟩ := Prod.mk.inj (Option.some.inj ha)
        obtain ⟨p', e1, e2, e3, -, e5⟩ := skipped_member h1 hk h2 h3 h4
          ⟨h5, .inr ⟨_, _, rfl, .inr (.inr rfl)⟩⟩ (by rw [List.dropWhile_cons, if_neg (by decide)])
            hs hg
          (by simpa using hkey) hskip
        rw [hdep] at e2
        refine .steps (.one (e5 rfl)) ?_
        have hb : p'.back = k := by rw [back, e2]; rfl
        rw [hb]
        exact closes_end e1.toOnText e2 (e3 ▸ hend)
      · simp at ha
  | @memCons _ _ _ _ _ _ s₆ _ _ _ _ h1 hk h2 h3 h4 h5 h6 ih1 ih2 =>
    intro p b r k m ds s₁ s₂ t' hs ht hg hlen hcnt hdep ha hend
    have htl :=
      (List.suffix_cons _ _).trans (h5.suffix.trans (h4.suffix.1.trans (value_suffix h1 hk h2 h3)))
    rw [List.length_cons] at hlen
    obtain ⟨u, hu⟩ := h6.mems_starts
    rw [feedMems] at ha
    split at ha
    · rename_i hkey
      simp only [Option.bind_eq_some_iff] at ha
      obtain ⟨s', ha, ha'⟩ := ha
      obtain ⟨n, p', e1, e2, e3, rfl⟩ := completes_member h1 hk h2 h3 h4
        (ih1 (hsz.part (value_suffix h1 hk h2 h3) And.left)) h5 (follow_comma _) (by decide) hs hg
        (by omega) hcnt.1 hdep hkey ha
      refine .steps (e1.trans (.one (obj_cont_comma e2 (by omega) e3))) ?_
      exact ih2 (hsz.part htl And.right) _ _ u (k + 1) m ds s₁ s₂ t' hu ht
        ((e2.toOnText.setDepth _).SkipSpace hu) (by omega) hcnt.2 rfl ha' hend
    · rename_i hkey
      split at ha
      · rename_i hskip
        have hnext : ((Ch.comma :: s₆).dropWhile fun b =>
            !([Ch.quote, Ch.rbrace] : Bytes).contains b) = Ch.quote :: u := by
          rw [List.dropWhile_cons, if_pos (by decide), dropWhile_token (ws_dropWhile _), hu,
            List.dropWhile_cons, if_neg (by decide)]
        obtain ⟨p', e1, e2, e3, e4, -⟩ :=
          skipped_member h1 hk h2 h3 h4 ⟨h5, .inr ⟨_, _, rfl, .inl rfl⟩⟩ hnext hs hg
          (by simpa using hkey) hskip
        refine .steps (.one (e4 rfl)) ?_
        exact ih2 (hsz.part htl And.right) p' _ u k m ds s₁ s₂ t' hu ht e1 (by omega) hcnt.2
          (e2.trans hdep) (e3 ▸ ha) hend
      · simp at ha

end

end Parser

end SonicJson
