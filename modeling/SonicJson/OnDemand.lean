/-
# Looking up a pointer on demand

`SkipScanner::GetOnDemand` follows a JSON pointer through a text without parsing
it: siblings are skipped, keys are compared raw, or decoded in a side buffer
where they have escapes. `atPointerImpl` follows the pointer through the tree of a
document. The two find the same value unless an array without elements is asked for
an element after the first (`GetOnDemand_agrees`).
-/
import SonicJson.Document

namespace SonicJson

open Cursor

/-- A step of a JSON pointer. -/
inductive PointerNode
  | str (s : Bytes)
  | num (i : ℤ)
  deriving DecidableEq

/-! ### The tree -/

/-- `name.GetStringView() == key`. -/
def Node.isName (key : Bytes) : Node → Bool
  | .str s => s == key
  | _ => false

@[simp] theorem Node.isName_str (key s : Bytes) : Node.isName key (.str s) = (s == key) := rfl

/-- The value of the first member with that name. -/
def FindMember (ms : List (Node × Node)) (key : Bytes) : Option Node :=
  (ms.find? fun m => m.1.isName key).map Prod.snd

/-- The node that a pointer leads to; `none` is the null pointer. -/
def Node.atPointerImpl : List PointerNode → Node → Option Node
  | [], re => some re
  | .str key :: path, .obj ms => (FindMember ms key).bind (atPointerImpl path)
  | .num idx :: path, .arr vs =>
    if 0 ≤ idx ∧ idx < toInt32 vs.length then vs[idx.toNat]?.bind (atPointerImpl path) else none
  | _ :: _, _ => none

/-! ### The scanner -/

variable (A : Arch)

/-- The position of a scanner and what it remembers: the bits of a block of spaces, and the buffer
for keys. -/
structure SkipScanner where
  pos : ℕ
  bits : SpaceBits
  kbuf : Bytes

/-- The switch on the first byte of a value that is skipped before a search for a token: a primitive
is left to the search. -/
def skipComposite (data : Bytes) (pos len : ℕ) (c : UInt8) : Bool × ℕ :=
  if c = Ch.lbrace then SkipObject data pos len
  else if c = Ch.lbrack then SkipArray data pos len
  else if c = Ch.quote then
    let r := SkipString A data pos len
    (decide (r.1 ≠ kUnclosed), r.2)
  else (true, pos)

/-- The loop of `GetArrayElem`. -/
def getArrayElemLoop (data : Bytes) (len : ℕ) : ℕ → SkipScanner → SonicError × SkipScanner
  | 0, st => (.kErrorNone, st)
  | index + 1, st =>
    if st.pos < len then
      let (c, pos, bits) := skip_space_safe data st.pos len st.bits
      let (ok, pos) := skipComposite A data pos len c
      if !ok then (.kParseErrorInvalidChar, { st with pos := pos, bits := bits })
      else
        let (c, pos) := GetNextToken A data pos len [Ch.comma, Ch.rbrack]
        if c ≠ Ch.comma then (.kParseErrorArrIndexOutOfRange, { st with pos := pos, bits := bits })
        else getArrayElemLoop data len index { st with pos := pos + 1, bits := bits }
    else (.kParseErrorInvalidChar, st)

/-- From behind the bracket to the element: a negative index leaves the loop at once. -/
def GetArrayElem (data : Bytes) (len : ℕ) (index : ℤ) (st : SkipScanner) : SonicError × SkipScanner :=
  if index < 0 then (.kParseErrorInvalidChar, st) else getArrayElemLoop A data len index.toNat st

/-- `std::vector::resize`. -/
def resize (v : Bytes) (n : ℕ) : Bytes := v.take n ++ List.replicate (n - v.length) 0

/-- The key at `pos`, compared with `key`; it is decoded in `kbuf` where it has escapes. -/
def matchKey (data : Bytes) (len : ℕ) (key : Bytes) (st : SkipScanner) :
    Bool × SonicError × SkipScanner :=
  let start := st.pos
  let (status, pos) := SkipString A data start len
  if status = kUnclosed then (false, .kParseErrorInvalidChar, { st with pos := pos })
  else
    let slen := pos - 1 - start
    if status = kEscaped then
      let kbuf := store (resize st.kbuf (slen + 32)) 0 (slice data start (start + (slen + 1)))
      let r := parseStringInplace A false kbuf 0
      if r.err ≠ .kErrorNone then (false, r.err, { st with pos := start + r.src, kbuf := r.buf })
      else (r.buf.take r.n == key, .kErrorNone, { st with pos := pos, kbuf := r.buf })
    else (slice data start (start + slen) == key, .kErrorNone, { st with pos := pos })

/-- The key at `pos`, decoded in `kbuf` where it has escapes; `none` where it cannot be read. An
error that there was before is kept, and is looked at after a decoding. -/
def keyAt (data : Bytes) (len : ℕ) (err : SonicError) (st : SkipScanner) :
    Option Bytes × SonicError × SkipScanner :=
  let start := st.pos
  let (status, pos) := SkipString A data start len
  if status = kUnclosed then (none, .kParseErrorInvalidChar, { st with pos := pos })
  else
    let slen := pos - 1 - start
    if status = kEscaped then
      let kbuf := store (resize st.kbuf (slen + 32)) 0 (slice data start (start + (slen + 1)))
      let r := parseStringInplace A false kbuf 0
      let err := if r.err ≠ .kErrorNone then r.err else err
      if err ≠ .kErrorNone then (none, err, { st with pos := start + r.src, kbuf := r.buf })
      else (some (r.buf.take r.n), err, { st with pos := pos, kbuf := r.buf })
    else (some (slice data start (start + slen)), err, { st with pos := pos })

theorem matchKey_eq (data : Bytes) (len : ℕ) (key : Bytes) (st : SkipScanner) :
    matchKey A data len key st =
      ((keyAt A data len .kErrorNone st).1 == some key, (keyAt A data len .kErrorNone st).2) := by
  unfold matchKey keyAt
  dsimp only
  split
  · rfl
  split
  · split <;> simp
  · simp

/-- From `obj_key` on, at the quote of a key, to the value of the key. The loop reads a key in each
round: it does not run out (`none`) if it may run as often as there are bytes. -/
def objKeyLoop (data : Bytes) (len : ℕ) (key : Bytes) : ℕ → SkipScanner →
    Option (SonicError × SkipScanner)
  | 0, _ => none
  | fuel + 1, st =>
    let (matched, err, st) := matchKey A data len key { st with pos := st.pos + 1 }
    if err ≠ .kErrorNone then some (err, st)
    else
      let (c, pos, bits) := skip_space_safe data st.pos len st.bits
      let st := { st with pos := pos, bits := bits }
      if c ≠ Ch.colon then some (.kParseErrorInvalidChar, { st with pos := st.pos - 1 })
      else if matched then some (.kErrorNone, st)
      else
        let (c, pos, bits) := skip_space_safe data st.pos len st.bits
        let (ok, pos) := skipComposite A data pos len c
        let st := { st with pos := pos, bits := bits }
        if !ok then some (.kParseErrorInvalidChar, { st with pos := st.pos - 1 })
        else
          let (c, pos) := GetNextToken A data st.pos len [Ch.quote, Ch.rbrace]
          let st := { st with pos := pos }
          if c ≠ Ch.quote then some (.kParseErrorUnknownObjKey, st) else objKeyLoop data len key fuel st

/-- From `query` on: where the value begins, or the error that the source returns negated. -/
def query (data : Bytes) (len : ℕ) : List PointerNode → SkipScanner → Option (Except SonicError ℕ × ℕ)
  | [], st =>
    let r := SkipOne A data st.pos len st.bits
    some (r.1, r.2.1)
  | .str key :: path, st =>
    let (c, pos, bits) := skip_space_safe data st.pos len st.bits
    if c ≠ Ch.lbrace then some (.error .kParseErrorMismatchType, pos - 1)
    else
      let (c, pos) := GetNextToken A data pos len [Ch.quote, Ch.rbrace]
      if c ≠ Ch.quote then some (.error .kParseErrorUnknownObjKey, pos)
      else
        (objKeyLoop A data len key (len + 1) { st with pos := pos, bits := bits }).bind fun r =>
          if r.1 ≠ .kErrorNone then some (.error r.1, r.2.pos) else query data len path r.2
  | .num idx :: path, st =>
    let (c, pos, bits) := skip_space_safe data st.pos len st.bits
    if c ≠ Ch.lbrack then some (.error .kParseErrorMismatchType, pos - 1)
    else
      let r := GetArrayElem A data len idx { st with pos := pos, bits := bits }
      if r.1 ≠ .kErrorNone then some (.error r.1, r.2.pos) else query data len path r.2

/-- The error, the offset and the target. -/
structure OnDemand where
  err : SonicError
  offset : ℕ
  target : Bytes

def GetOnDemand (json : Bytes) (path : List PointerNode) : Option OnDemand :=
  (query A json json.length path ⟨0, .init, List.replicate 32 0⟩).map fun r =>
    match r.1 with
    | .ok start => ⟨.kErrorNone, r.2, slice json start r.2⟩
    | .error e => ⟨e, r.2, []⟩

/-! ### The text under the scanner -/

section
variable {A} {data s₀ s t u : Bytes} {len pos : ℕ} {k : SpaceBits} {v : Json}

/-- Tokens that are not found inside primitives or between values. -/
structure Quiet (tokens : Bytes) : Prop where
  space : ∀ b, IsSpace b = true → tokens.contains b = false
  num : ∀ b, NumByte b → tokens.contains b = false
  literal : ∀ b ∈ kNull ++ kTrue ++ kFalse, tokens.contains b = false

theorem quiet_of {x y : UInt8}
    (hx : is_digit x = false ∧ x ≠ Ch.minus ∧ x ≠ Ch.plus ∧ x ≠ Ch.dot ∧ x ≠ Ch.e ∧ x ≠ Ch.upE)
    (hy : is_digit y = false ∧ y ≠ Ch.minus ∧ y ≠ Ch.plus ∧ y ≠ Ch.dot ∧ y ≠ Ch.e ∧ y ≠ Ch.upE)
    (hs : IsSpace x = false ∧ IsSpace y = false)
    (hl : ∀ b ∈ kNull ++ kTrue ++ kFalse, ([x, y] : Bytes).contains b = false) : Quiet [x, y] where
  space b hb := by
    have h1 : b ≠ x := fun h => by simp [h, hs.1] at hb
    have h2 : b ≠ y := fun h => by simp [h, hs.2] at hb
    simp [h1, h2]
  num b hb := by
    have h1 := hb.ne x hx.1 hx.2
    have h2 := hb.ne y hy.1 hy.2
    simp [h1, h2]
  literal := hl

theorem quiet_elem : Quiet [Ch.comma, Ch.rbrack] := quiet_of (by decide) (by decide) (by decide)
    (by decide +kernel)

theorem quiet_key : Quiet [Ch.quote, Ch.rbrace] := quiet_of (by decide) (by decide) (by decide)
    (by decide +kernel)

theorem Quiet.dropWhile_append {tokens : Bytes} {a : Bytes}
    (ha : ∀ b ∈ a, tokens.contains b = false) (t : Bytes) :
    (a ++ t).dropWhile (fun b => !tokens.contains b) = t.dropWhile fun b => !tokens.contains b :=
  List.dropWhile_append_of_pos fun b hb => by rw [ha b hb]; rfl

theorem Quiet.dropWhile_ws {tokens : Bytes} (hq : Quiet tokens) (h : Ws s t) :
    s.dropWhile (fun b => !tokens.contains b) = t.dropWhile fun b => !tokens.contains b := by
  induction h with
  | nil => rfl
  | cons hb _ ih => rw [List.dropWhile_cons, if_pos (by rw [hq.space _ hb]; rfl), ih]

/-- What is left of a primitive behind its first byte has no tokens. -/
theorem Quiet.primitive {tokens : Bytes} (hq : Quiet tokens) {c : UInt8} {r : Bytes}
    (hd : Der (c :: r) (.val v) t) (h1 : c ≠ Ch.lbrace) (h2 : c ≠ Ch.lbrack) (h3 : c ≠ Ch.quote) :
    r.dropWhile (fun b => !tokens.contains b) = t.dropWhile fun b => !tokens.contains b := by
  have tail : ∀ {a : Bytes}, (∀ b ∈ a, tokens.contains b = false) → c :: r = a ++ t → a ≠ [] →
      r.dropWhile (fun b => !tokens.contains b) = t.dropWhile fun b => !tokens.contains b := by
    intro a ha he hne
    obtain ⟨b, a', rfl⟩ := List.exists_cons_of_ne_nil hne
    obtain ⟨-, rfl⟩ := List.cons.inj he
    exact dropWhile_append (fun b hb => ha b (List.mem_cons_of_mem _ hb)) t
  generalize hs : c :: r = s at hd
  cases hd with
  | null => exact tail (a := kNull) (fun b hb => hq.literal b (by simp [hb])) hs (by decide)
  | true => exact tail (a := kTrue) (fun b hb => hq.literal b (by simp [hb])) hs (by decide)
  | false => exact tail (a := kFalse) (fun b hb => hq.literal b (by simp [hb])) hs (by decide)
  | num h =>
    refine tail (fun b hb => hq.num b (h.bytes b hb)) hs ?_
    obtain ⟨b, r, rfl, -⟩ := h.cons_head
    simp
  | str _ => exact absurd (List.cons.inj hs).1 h3
  | arrNil _ => exact absurd (List.cons.inj hs).1 h2
  | arr _ => exact absurd (List.cons.inj hs).1 h2
  | objNil _ => exact absurd (List.cons.inj hs).1 h1
  | obj _ => exact absurd (List.cons.inj hs).1 h1

theorem skipComposite_eq {c : UInt8} (h : c = Ch.lbrace ∨ c = Ch.lbrack ∨ c = Ch.quote) :
    skipComposite A data pos len c = skipValue A data pos len c := by
  unfold skipComposite skipValue
  rcases h with rfl | rfl | rfl
  · rw [if_pos rfl, if_neg (by decide), if_pos rfl]
  · rw [if_neg (by decide), if_pos rfl, if_neg (by decide), if_neg (by decide), if_pos rfl]
  · rw [if_neg (by decide), if_neg (by decide), if_pos rfl, if_pos rfl]

theorem skipComposite_other {c : UInt8} (h1 : c ≠ Ch.lbrace) (h2 : c ≠ Ch.lbrack) (h3 : c ≠ Ch.quote) :
    skipComposite A data pos len c = (true, pos) := by
  rw [skipComposite, if_neg h1, if_neg h2, if_neg h3]

/-- **A value is passed over**: the search for a token comes to the first token behind the value. -/
theorem Scan.pass {tokens : Bytes} (hq : Quiet tokens) (h : Scan data len pos k s₀) (hw : Ws s₀ s)
    (hd : Der s (.val v) t) (hn : Next t u) :
    ∃ c p k' p', skip_space_safe data pos len k = (c, p, k') ∧
      skipComposite A data p len c = (true, p') ∧
      k'.Valid data p' ∧ GetNextToken A data p' len tokens =
        tokenAt len (t.dropWhile fun b => !tokens.contains b) := by
  obtain ⟨c, r, p, k', rfl, hst, h1, h2, h3⟩ := h.value hw hd
  by_cases hc : c = Ch.lbrace ∨ c = Ch.lbrack ∨ c = Ch.quote
  · obtain ⟨t', h4, h5, h6⟩ := skipValue_eq A h3 hd hn
    have hnum : ¬ ∃ tok, v = .num tok := by
      rintro ⟨tok, rfl⟩
      rcases hc with rfl | rfl | rfl <;> revert hst <;> simp only [Json.Starts] <;> decide
    obtain rfl := h6.resolve_right fun hx => hnum hx.1
    refine ⟨c, p + 1, k', _, h1, (skipComposite_eq hc).trans h4, h2.valid.mono ?_, ?_⟩
    · have := h5.length_le
      have := h2.left.length_add
      omega
    · exact GetNextToken_eq (h2.left.suffix h5)
  · push Not at hc
    obtain ⟨c1, c2, c3⟩ := hc
    refine ⟨c, p + 1, k', p + 1, h1, skipComposite_other c1 c2 c3, h2.valid, ?_⟩
    rw [GetNextToken_eq h2.left, hq.primitive hd c1 c2 c3]

/-- A token behind whitespace. -/
theorem Quiet.token {tokens : Bytes} (hq : Quiet tokens) {c : UInt8} {r : Bytes} (h : Ws t (c :: r))
    (hc : tokens.contains c = true) : t.dropWhile (fun b => !tokens.contains b) = c :: r := by
  rw [hq.dropWhile_ws h, List.dropWhile_cons, if_neg (by rw [hc]; decide)]

/-! ### Keys -/

/-- A string that is copied with its quote to the front of a buffer is decoded there. -/
theorem StrBody.copied (A : Arch) {a body : Bytes} (buf : Bytes)
    (h : StrBody (a ++ Ch.quote :: t) body t) :
    let r := parseStringInplace A false (store buf 0 (a ++ [Ch.quote])) 0
    r.err = .kErrorNone ∧ r.buf.take r.n = body := by
  intro r
  have h1 : StrBody (a ++ [Ch.quote]) body [] := by
    have := h.cut (n := t.length) le_rfl
    rwa [cut_append (by simp), cut_cons le_rfl, cut_length] at this
  have h2 := unescape_append (h1.unescape false) (buf.drop (a.length + 1))
  have h3 : store buf 0 (a ++ [Ch.quote]) = (a ++ [Ch.quote]) ++ buf.drop (a.length + 1) := by
    simp [store]
  have h4 := at_zero (store buf 0 (a ++ [Ch.quote]))
  conv at h4 => rhs; rw [h3]
  obtain ⟨buf', e, -, -, e2, -⟩ := parseStringInplace_ok A h4 h2
  have hr : r = ⟨body.length,
      (store buf 0 (a ++ [Ch.quote])).length - ([] ++ buf.drop (a.length + 1)).length, buf',
    .kErrorNone⟩ := e
  rw [hr]
  exact ⟨rfl, e2⟩

/-- **A key is decoded**, and the scanner stops behind its quote. -/
theorem keyAt_spec {body kbuf : Bytes} (h : Scan data len pos k s) (hb : StrBody s body t) :
    ∃ kbuf', keyAt A data len .kErrorNone ⟨pos, k, kbuf⟩ = (some body, .kErrorNone,
      ⟨len - t.length, k, kbuf'⟩) := by
  have hspec := @SkipString_spec A data len pos s h.left
  rw [strEnd_strBody hb] at hspec
  obtain ⟨hst, hpos⟩ := hspec
  obtain ⟨a, rfl⟩ := hb.ends
  have hl := h.left.length_add
  simp only [List.length_append, List.length_cons] at hl
  rcases hr : SkipString A data pos len with ⟨status, p⟩
  rw [hr] at hst hpos
  dsimp only at hst hpos
  subst hpos
  have hslen : len - t.length - 1 - pos = a.length := by omega
  unfold keyAt
  simp only [hr, hslen]
  rcases hst with hst | ⟨hst, -, b, heq, hbs⟩
  · subst hst
    have hslice : slice data pos (pos + (a.length + 1)) = a ++ [Ch.quote] := by
      have := slice_of_left (a := a ++ [Ch.quote]) (t := t) (by simpa using h.left)
      simpa using this
    obtain ⟨e1, e2⟩ := hb.copied A (resize kbuf (a.length + 32))
    rw [if_neg (by decide), if_pos rfl, hslice, e1, e2, if_neg (by simp), if_neg (by simp)]
    exact ⟨_, rfl⟩
  · subst hst
    obtain rfl := List.append_cancel_right heq
    have hslice : slice data pos (pos + a.length) = a := slice_of_left h.left
    rw [if_neg (by decide), if_neg (by decide), hslice, (hb.plain rfl hbs).1]
    exact ⟨_, rfl⟩

/-- **A key is matched by its decoding**, and the scanner stops behind its quote. -/
theorem matchKey_spec {body key kbuf : Bytes} (h : Scan data len pos k s) (hb : StrBody s body t) :
    ∃ kbuf', matchKey A data len key ⟨pos, k, kbuf⟩ = (body == key, .kErrorNone,
      ⟨len - t.length, k, kbuf'⟩) := by
  obtain ⟨kbuf', h1⟩ := keyAt_spec (A := A) h hb
  exact ⟨kbuf', by rw [matchKey_eq, h1]; rfl⟩

/-! ### Siblings -/

/-- The value that a loop has come to: the scanner stands before it. -/
structure SkipScanner.At (data : Bytes) (len : ℕ) (st : SkipScanner) (v : Json) (n : ℕ) : Prop where
  text : ∃ s₀ s t u, Scan data len st.pos st.bits s₀ ∧ Ws s₀ s ∧ Der s (.val v) t ∧ Next t u ∧
    s₀.length ≤ n

theorem SkipScanner.At.mono {st : SkipScanner} {n m : ℕ} (h : st.At data len v n) (hle : n ≤ m) :
    st.At data len v m := by
  obtain ⟨s₀, s, t, u, h1, h2, h3, h4, h5⟩ := h
  exact ⟨s₀, s, t, u, h1, h2, h3, h4, h5.trans hle⟩

/-- **The element of an array**, behind its bracket: the loop comes to the element, or fails where
there is none. -/
theorem getArrayElemLoop_spec : ∀ (i : ℕ) {st : SkipScanner} {s t : Bytes} {vs : List Json},
    Scan data len st.pos st.bits s → Der s (.elems vs) (Ch.rbrack :: t) →
    match vs[i]? with
    | some v =>
      ∃ st', getArrayElemLoop A data len i st = (.kErrorNone, st') ∧ st'.At data len v s.length
    | none => (getArrayElemLoop A data len i st).1 ≠ .kErrorNone
  | 0, st, s, t, vs, h, hd => by
    rw [getArrayElemLoop]
    cases hd with
    | elemLast hw hd hw' => exact ⟨st, rfl, _, _, _, _, h, hw, hd, next_rbrack hw', le_rfl⟩
    | elemCons hw hd hw' _ => exact ⟨st, rfl, _, _, _, _, h, hw, hd, next_comma hw', le_rfl⟩
  | i + 1, st, s, t, vs, h, hd => by
    have hlt : st.pos < len := by
      have h1 := h.left.length_add
      have h2 := hd.suffix.2
      omega
    cases hd with
    | elemLast hw hd hw' =>
      show (getArrayElemLoop A data len (i + 1) st).1 ≠ .kErrorNone
      obtain ⟨c, p, k', p', h1, h2, -, h4⟩ := h.pass quiet_elem (A := A) hw hd (next_rbrack hw')
      rw [quiet_elem.token hw' (by decide), tokenAt] at h4
      rw [getArrayElemLoop, if_pos hlt]
      simp only [h1, h2, h4]
      rw [if_neg (by decide), if_pos (by decide)]
      simp
    | @elemCons _ _ _ s₃ _ vs _ hw hd hw' hr =>
      obtain ⟨c, p, k', p', h1, h2, h3, h4⟩ := h.pass quiet_elem (A := A) hw hd (next_comma hw')
      rw [quiet_elem.token hw' (by decide), tokenAt] at h4
      have hl := h.left.length_add
      have hsuf : (Ch.comma :: s₃) <:+ s := hw'.suffix.trans (hd.suffix.1.trans hw.suffix)
      have hlen := hsuf.length_le
      simp only [List.length_cons] at hlen
      have hle : p' ≤ len - (s₃.length + 1) + 1 := by
        have := @le_GetNextToken A data [Ch.comma, Ch.rbrack] len p'
        rw [h4] at this
        dsimp only at this
        omega
      have hleft : Left data len (len - (s₃.length + 1) + 1) s₃ := by
        have := h.left.suffix hsuf
        exact this.succ
      have ih := @getArrayElemLoop_spec i ⟨len - (s₃.length + 1) + 1, k', st.kbuf⟩ _ _ _
        ⟨hleft, h3.mono hle⟩ hr
      rw [getArrayElemLoop, if_pos hlt]
      simp only [h1, h2, h4]
      rw [List.getElem?_cons_succ]
      simp only [Bool.not_true, Bool.false_eq_true, if_false, ne_eq, not_true_eq_false]
      cases hv : vs[i]? with
      | none =>
        rw [hv] at ih
        exact ih
      | some v =>
        rw [hv] at ih
        obtain ⟨st', e1, e2⟩ := ih
        exact ⟨st', e1, e2.mono (by omega)⟩

/-- What `find?` comes to on the members of an object. -/
def Json.member (ms : List (Bytes × Json)) (key : Bytes) : Option Json :=
  (ms.find? fun m => m.1 == key).map Prod.snd

section
variable {key k kv s₂ s₃ s₄ s₅ : Bytes} {fuel : ℕ} {st : SkipScanner}

/-- A round of the loop on the key that is looked for. -/
theorem objKeyLoop_match (h : Scan data len st.pos st.bits (Ch.quote :: s)) (hk : StrBody s key s₂)
    (h2 : Ws s₂ (Ch.colon :: s₃)) :
    ∃ st', objKeyLoop A data len key (fuel + 1) st = some (.kErrorNone, st') ∧
      Scan data len st'.pos st'.bits s₃ := by
  obtain ⟨kbuf', e1⟩ :=
    @matchKey_spec A _ _ _ _ _ _ _ key st.kbuf (h.move h.left.succ (Nat.le_succ _)) hk
  have hsc := h.move (h.left.succ.suffix hk.suffix.1) (by
    have := hk.suffix.2
    have := h.left.succ.length_add
    omega)
  obtain ⟨p, k', e2, hsc', -⟩ := hsc.skip_space (h2.dropWhile_eq (by decide))
  refine ⟨⟨p, k', kbuf'⟩, ?_, hsc'⟩
  unfold objKeyLoop
  simp only [e1, e2]
  rw [if_neg (by decide), if_neg (by decide), if_pos (by simp)]

/-- A round of the loop on another key: its value is passed over, up to a quote or a brace. -/
theorem objKeyLoop_pass (h : Scan data len st.pos st.bits (Ch.quote :: s)) (hk : StrBody s kv s₂)
    (hne : kv ≠ key) (h2 : Ws s₂ (Ch.colon :: s₃)) (h3 : Ws s₃ s₄) (hd : Der s₄ (.val v) s₅)
    (hn : Next s₅ u) {c : UInt8} {r : Bytes}
    (hr : s₅.dropWhile (fun b => !([Ch.quote, Ch.rbrace] : Bytes).contains b) = c :: r) :
    ∃ k' kbuf', objKeyLoop A data len key (fuel + 1) st =
        (if c ≠ Ch.quote then some (.kParseErrorUnknownObjKey, ⟨len - (r.length + 1), k', kbuf'⟩)
        else objKeyLoop A data len key fuel ⟨len - (r.length + 1), k', kbuf'⟩) ∧
      Scan data len (len - (r.length + 1)) k' (c :: r) := by
  obtain ⟨kbuf', e1⟩ :=
    @matchKey_spec A _ _ _ _ _ _ _ key st.kbuf (h.move h.left.succ (Nat.le_succ _)) hk
  have hsc := h.move (h.left.succ.suffix hk.suffix.1) (by
    have := hk.suffix.2
    have := h.left.succ.length_add
    omega)
  obtain ⟨p, k₁, e2, hsc', -⟩ := hsc.skip_space (h2.dropWhile_eq (by decide))
  obtain ⟨c', p₁, k', p', e3, e4, hv, e5⟩ := hsc'.pass quiet_key (A := A) h3 hd hn
  rw [hr, tokenAt] at e5
  have hle := @le_GetNextToken A data [Ch.quote, Ch.rbrace] len p'
  rw [e5] at hle
  have hsuf : (c :: r) <:+ Ch.quote :: s := by
    rw [← hr]
    exact (List.dropWhile_suffix _).trans
      (hd.suffix.1.trans (h3.suffix.trans ((List.suffix_cons _ _).trans
      (h2.suffix.trans (hk.suffix.1.trans (List.suffix_cons _ _))))))
  refine ⟨k', kbuf', ?_, ⟨h.left.suffix hsuf, hv.mono hle⟩⟩
  conv_lhs => unfold objKeyLoop
  simp only [e1, e2, e3, e4, e5]
  rw [if_neg (by decide), if_neg (by decide), if_neg (by simpa using hne), if_neg (by decide)]

end

/-- **The member of an object**, from the quote of its first key on: the loop comes to the value of
the first member of that name, or fails where there is none. -/
theorem objKeyLoop_spec {key : Bytes} : ∀ {ms : List (Bytes × Json)} {fuel : ℕ} {st : SkipScanner}
    {s₀ s t : Bytes}, ms.length ≤ fuel → Scan data len st.pos st.bits (Ch.quote :: s) →
    Ws s₀ (Ch.quote :: s) →
    Der s₀ (.mems ms) (Ch.rbrace :: t) →
    match Json.member ms key with
    | some v =>
      ∃ st', objKeyLoop A data len key fuel st = some (.kErrorNone, st') ∧
        st'.At data len v s.length
    | none => ∃ e st', objKeyLoop A data len key fuel st = some (e, st') ∧ e ≠ .kErrorNone
  | [], _, _, _, _, _, _, _, _, hd => by cases hd
  | (k, v) :: ms, 0, _, _, _, _, hf, _, _, _ => absurd hf (by simp)
  | (k, v) :: ms, fuel + 1, st, s₀, s, t, hf, h, hws, hd => by
    -- the member begins at the quote, whatever comes after it
    have first : ∀ {s₁ s₂ s₃ s₄ s₅ u : Bytes}, Ws s₀ (Ch.quote :: s₁) → StrBody s₁ k s₂ →
        Ws s₂ (Ch.colon :: s₃) →
        Ws s₃ s₄ → Der s₄ (.val v) s₅ → Next s₅ u → k = key →
        ∃ st', objKeyLoop A data len key (fuel + 1) st = some (.kErrorNone, st') ∧
          st'.At data len v s.length := by
      rintro s₁ s₂ s₃ s₄ s₅ u hw hk h2 h3 hd hn rfl
      obtain rfl :=
        (List.cons.inj ((hw.dropWhile_eq (by decide)).symm.trans (hws.dropWhile_eq (by decide)))).2
      obtain ⟨st', e1, e2⟩ := objKeyLoop_match (A := A) h hk h2
      have h4 := h2.suffix.length_le
      have h5 := hk.suffix.2
      simp only [List.length_cons] at h4
      exact ⟨st', e1, _, _, _, _, e2, h3, hd, hn, by omega⟩
    by_cases hkey : k = key
    · have hm : Json.member ((k, v) :: ms) key = some v := by
        simp [Json.member, hkey]
      rw [hm]
      cases hd with
      | memLast hw hk h2 h3 hd h4 => exact first hw hk h2 h3 hd (next_rbrace h4) hkey
      | memCons hw hk h2 h3 hd h4 _ => exact first hw hk h2 h3 hd (next_comma h4) hkey
    · have hm : Json.member ((k, v) :: ms) key = Json.member ms key := by
        simp [Json.member, hkey]
      rw [hm]
      cases hd with
      | memLast hw hk h2 h3 hd h4 =>
        obtain rfl :=
          (List.cons.inj
          ((hw.dropWhile_eq (by decide)).symm.trans (hws.dropWhile_eq (by decide)))).2
        obtain ⟨k', kbuf', e1, -⟩ := objKeyLoop_pass (A := A) h hk hkey h2 h3 hd (next_rbrace h4)
          (quiet_key.token h4 (by decide))
        rw [if_pos (by decide)] at e1
        exact ⟨_, _, e1, by simp⟩
      | @memCons _ _ _ _ _ _ s₆ _ _ _ _ hw hk h2 h3 hd h4 hr =>
        obtain rfl :=
          (List.cons.inj
          ((hw.dropWhile_eq (by decide)).symm.trans (hws.dropWhile_eq (by decide)))).2
        obtain ⟨u, hu⟩ := hr.mems_starts
        have hw₆ := ws_dropWhile s₆
        rw [hu] at hw₆
        -- the token after the value is the quote of the next key, past the comma
        have htok : (Ch.comma :: s₆).dropWhile (fun b =>
            !([Ch.quote, Ch.rbrace] : Bytes).contains b) = Ch.quote :: u := by
          rw [List.dropWhile_cons, if_pos (by decide)]
          exact quiet_key.token hw₆ (by decide)
        obtain ⟨k', kbuf', e1, e2⟩ := objKeyLoop_pass (A := A) h hk hkey h2 h3 hd (next_comma h4)
          ((quiet_key.dropWhile_ws h4).trans htok)
        rw [if_neg (by decide)] at e1
        have hlen := h2.suffix.length_le
        have hlen₁ := hk.suffix.2
        have hlen₂ := h3.suffix.length_le
        have hlen₃ := hd.suffix.2
        have hlen₄ := h4.suffix.length_le
        have hlen₅ := hw₆.suffix.length_le
        simp only [List.length_cons] at hlen hlen₄ hlen₅
        have ih := @objKeyLoop_spec key _ _ ⟨_, k', kbuf'⟩ _ _ _ (by simpa using hf) e2 hw₆ hr
        rw [e1]
        cases hv : Json.member ms key with
        | none =>
          rw [hv] at ih
          exact ih
        | some v =>
          rw [hv] at ih
          obtain ⟨st', e3, e4⟩ := ih
          exact ⟨st', e3, e4.mono (by omega)⟩

/-! ### Agreement -/

/-- The pointer asks an array without elements for an element after the first. -/
def Node.AsksEmpty (n : Node) (path : List PointerNode) : Prop :=
  ∃ (pre : List PointerNode) (i : ℤ) (post : List PointerNode), path = pre ++ .num i :: post ∧ 1 ≤ i ∧
    n.atPointerImpl pre = some (.arr [])

theorem Node.AsksEmpty.member {ms : List (Node × Node)} {key : Bytes} {m : Node}
    {path : List PointerNode} (hm : FindMember ms key = some m) (h : m.AsksEmpty path) :
    (Node.obj ms).AsksEmpty (.str key :: path) := by
  obtain ⟨pre, i, post, rfl, hi, hp⟩ := h
  refine ⟨.str key :: pre, i, post, rfl, hi, ?_⟩
  rw [atPointerImpl, hm]
  exact hp

theorem Node.AsksEmpty.elem {vs : List Node} {idx : ℤ} {m : Node} {path : List PointerNode}
    (hidx : 0 ≤ idx ∧ idx < toInt32 vs.length) (hm : vs[idx.toNat]? = some m) (h : m.AsksEmpty path) :
    (Node.arr vs).AsksEmpty (.num idx :: path) := by
  obtain ⟨pre, i, post, rfl, hi, hp⟩ := h
  refine ⟨.num idx :: pre, i, post, rfl, hi, ?_⟩
  rw [atPointerImpl, if_pos hidx, hm]
  exact hp

section
variable {F : FloatConv} {flags : ParseFlags}

theorem denElems_getElem? :
    ∀ {vs : List Json} {ns : List Node}, denElems F flags vs = some ns → ∀ i : ℕ,
    ns[i]? = vs[i]?.bind (den F flags)
  | [], ns, h, i => by
    obtain rfl := Option.some.inj h
    simp
  | v :: vs, ns, h, i => by
    simp only [denElems, Option.bind_eq_some_iff, Option.map_eq_some_iff] at h
    obtain ⟨n, hn, ns, hns, rfl⟩ := h
    cases i with
    | zero => simp [hn]
    | succ i => simpa using denElems_getElem? hns i

theorem FindMember_denMems {key : Bytes} {ms : List (Bytes × Json)} {ns : List (Node × Node)}
    (h : denMems F flags ms = some ns) :
    FindMember ns key = (Json.member ms key).bind (den F flags) := by
  induction ms generalizing ns with
  | nil =>
    obtain rfl := Option.some.inj h
    rfl
  | cons m ms ih =>
    obtain ⟨k, v⟩ := m
    simp only [denMems, Option.bind_eq_some_iff, Option.map_eq_some_iff] at h
    obtain ⟨n, hn, ns, hns, rfl⟩ := h
    have ih := ih hns
    simp only [FindMember, Json.member] at ih
    by_cases hk : k = key
    · simp [FindMember, Json.member, hk, hn]
    · simp [FindMember, Json.member, hk, ih]

/-- In a text with a denotation the elements have one. -/
theorem den_of_mem : ∀ {vs : List Json} {ns : List Node}, denElems F flags vs = some ns → ∀ v ∈ vs,
    ∃ n, den F flags v = some n
  | [], _, _, _, hv => absurd hv List.not_mem_nil
  | v :: vs, ns, h, w, hw => by
    simp only [denElems, Option.bind_eq_some_iff, Option.map_eq_some_iff] at h
    obtain ⟨n, hn, ns, hns, -⟩ := h
    rcases List.mem_cons.mp hw with rfl | hw
    · exact ⟨n, hn⟩
    · exact den_of_mem hns w hw

theorem den_of_mem_mems :
    ∀ {ms : List (Bytes × Json)} {ns : List (Node × Node)}, denMems F flags ms = some ns →
    ∀ m ∈ ms, ∃ n, den F flags m.2 = some n
  | [], _, _, _, hv => absurd hv List.not_mem_nil
  | (k, v) :: ms, ns, h, w, hw => by
    simp only [denMems, Option.bind_eq_some_iff, Option.map_eq_some_iff] at h
    obtain ⟨n, hn, ns, hns, -⟩ := h
    rcases List.mem_cons.mp hw with rfl | hw
    · exact ⟨n, hn⟩
    · exact den_of_mem_mems hns w hw

theorem Json.mem_of_member {ms : List (Bytes × Json)} {key : Bytes} {v : Json}
    (h : Json.member ms key = some v) :
    (key, v) ∈ ms := by
  obtain ⟨⟨k, v'⟩, hf, rfl⟩ := Option.map_eq_some_iff.mp h
  have hk : k = key := by simpa using List.find?_some hf
  exact hk ▸ List.mem_of_find?_eq_some hf

/-- What `query` comes to, where the tree has `o` at the path. -/
def Finds (F : FloatConv) (flags : ParseFlags) (data : Bytes)
    (r : Option (Except SonicError ℕ × ℕ)) : Option Node → Prop
  | some m =>
    ∃ start p w, r = some (.ok start, p) ∧ JsonText (slice data start p) w ∧ den F flags w = some m
  | none => ∃ e p, r = some (.error e, p) ∧ e ≠ .kErrorNone

/-- The bracket of the values that a step enters. -/
def PointerNode.opening : PointerNode → UInt8
  | .str _ => Ch.lbrace
  | .num _ => Ch.lbrack

/-- A value that is not of the kind a step enters. -/
theorem query_mismatch {st : SkipScanner} {step : PointerNode} {path : List PointerNode} {c : UInt8}
    {r : Bytes} (h : Scan data len st.pos st.bits s₀) (hw : Ws s₀ (c :: r)) (hc : IsSpace c = false)
    (hstep : c ≠ step.opening) :
    Finds F flags data (query A data len (step :: path) st) none := by
  obtain ⟨p, k', h1, -, -⟩ := h.skip_space (hw.dropWhile_eq hc)
  cases step with
  | str key =>
    refine ⟨.kParseErrorMismatchType, p - 1, ?_, by decide⟩
    simp only [query, h1]
    rw [if_pos (show c ≠ Ch.lbrace from hstep)]
  | num idx =>
    refine ⟨.kParseErrorMismatchType, p - 1, ?_, by decide⟩
    simp only [query, h1]
    rw [if_pos (show c ≠ Ch.lbrack from hstep)]

/-- The pointer is followed into what is no value: a closing bracket. -/
theorem query_rbrack {st : SkipScanner} {path : List PointerNode} {r : Bytes}
    (h : Scan data len st.pos st.bits s₀) (hw : Ws s₀ (Ch.rbrack :: r)) :
    Finds F flags data (query A data len path st) none := by
  cases path with
  | nil =>
    obtain ⟨p, k', h1, -, -⟩ := h.skip_space (hw.dropWhile_eq (by decide))
    refine ⟨.kParseErrorInvalidChar, p, ?_, by decide⟩
    simp only [query, SkipOne, h1]
    rfl
  | cons step path =>
    apply query_mismatch h hw (by decide)
    cases step with
    | str key => exact show Ch.rbrack ≠ Ch.lbrace by decide
    | num idx => exact show Ch.rbrack ≠ Ch.lbrack by decide

theorem atPointerImpl_mismatch {n : Node} {step : PointerNode} {path : List PointerNode} {c : UInt8}
    (hden : den F flags v = some n) (hst : v.Starts c) (hc : c ≠ step.opening) :
    n.atPointerImpl (step :: path) = none := by
  cases v with
  | null =>
    obtain rfl := Option.some.inj hden
    cases step <;> rfl
  | bool b =>
    obtain rfl := Option.some.inj hden
    cases step <;> rfl
  | num tok =>
    obtain ⟨e, -, rfl⟩ := Option.map_eq_some_iff.mp hden
    cases step <;> cases e <;> rfl
  | str b =>
    obtain rfl := Option.some.inj hden
    cases step <;> rfl
  | arr vs =>
    obtain ⟨ns, -, rfl⟩ := Option.map_eq_some_iff.mp hden
    cases step with
    | str key => rfl
    | num idx => exact absurd hst hc
  | obj ms =>
    obtain ⟨ns, -, rfl⟩ := Option.map_eq_some_iff.mp hden
    cases step with
    | str key => exact absurd hst hc
    | num idx => rfl

/-- **A step by name**: the scanner comes to the value of the first member of that name, or fails
where there is none. -/
theorem query_member {st : SkipScanner} {ms : List (Bytes × Json)} (key : Bytes)
    (path : List PointerNode) (h : Scan data len st.pos st.bits s₀) (hw : Ws s₀ s)
    (hd : Der s (.val (.obj ms)) t) :
    match Json.member ms key with
    | some v =>
      ∃ st', query A data len (.str key :: path) st = query A data len path st' ∧
        st'.At data len v s₀.length
    | none => ∃ e p, query A data len (.str key :: path) st = some (.error e, p) ∧ e ≠ .kErrorNone := by
  obtain ⟨c, r, p, k', rfl, hst, h1, h2, -⟩ := h.value hw hd
  obtain rfl : c = Ch.lbrace := hst
  have hl := hw.suffix.length_le
  rw [List.length_cons] at hl
  obtain ⟨ms, hms', hms⟩ := hd.object_inv
  obtain rfl := Json.obj.inj hms'
  have htok := @GetNextToken_eq A _ [Ch.quote, Ch.rbrace] _ _ _ h2.left
  rw [query]
  simp only [h1]
  rw [if_neg (by decide)]
  rcases hms with ⟨rfl, hr⟩ | hr
  · rw [quiet_key.token hr (by decide), tokenAt] at htok
    simp only [htok]
    rw [if_pos (by decide)]
    exact ⟨_, _, rfl, by decide⟩
  obtain ⟨q, hq⟩ := hr.mems_starts
  have hws := ws_dropWhile r
  rw [hq] at hws
  rw [quiet_key.token hws (by decide), tokenAt] at htok
  simp only [htok]
  rw [if_neg (by decide)]
  have h5 := h2.left.length_add
  have h6 := hws.suffix.length_le
  rw [List.length_cons] at h6
  have h4 : Scan data len (len - (q.length + 1)) k' (Ch.quote :: q) :=
    h2.move (h2.left.suffix hws.suffix) (by omega)
  have hspec := @objKeyLoop_spec A _ _ key _ (len + 1) ⟨_, k', st.kbuf⟩ _ _ _
    (by have := hr.mems_length; omega) h4 hws hr
  cases hm : Json.member ms key with
  | none =>
    rw [hm] at hspec
    obtain ⟨e, st', e1, e2⟩ := hspec
    rw [e1, Option.bind_some, if_pos e2]
    exact ⟨_, _, rfl, e2⟩
  | some w =>
    rw [hm] at hspec
    obtain ⟨st', e1, e2⟩ := hspec
    rw [e1, Option.bind_some, if_neg (by simp)]
    exact ⟨st', rfl, e2.mono (by omega)⟩

/-- **A step by position**, in an array with elements. -/
theorem query_elem {st : SkipScanner} {vs : List Json} {idx : ℤ} (path : List PointerNode)
    (hidx : 0 ≤ idx) (h : Scan data len st.pos st.bits s₀) (hw : Ws s₀ s)
    (hd : Der s (.val (.arr vs)) t) (hne : vs ≠ []) :
    match vs[idx.toNat]? with
    | some v =>
      ∃ st', query A data len (.num idx :: path) st = query A data len path st' ∧
        st'.At data len v s₀.length
    | none => ∃ e p, query A data len (.num idx :: path) st = some (.error e, p) ∧ e ≠ .kErrorNone := by
  obtain ⟨c, r, p, k', rfl, hst, h1, h2, -⟩ := h.value hw hd
  obtain rfl : c = Ch.lbrack := hst
  have hl := hw.suffix.length_le
  rw [List.length_cons] at hl
  obtain ⟨vs, hvs', hvs⟩ := hd.array_inv
  obtain rfl := Json.arr.inj hvs'
  have hr := hvs.resolve_left fun h => hne h.1
  rw [query]
  simp only [h1]
  rw [if_neg (by decide), GetArrayElem, if_neg (Int.not_lt.mpr hidx)]
  have hspec := @getArrayElemLoop_spec A _ _ idx.toNat ⟨_, k', st.kbuf⟩ _ _ _ h2 hr
  cases hv : vs[idx.toNat]? with
  | none =>
    rw [hv] at hspec
    have herr : (getArrayElemLoop A data len idx.toNat ⟨p + 1, k', st.kbuf⟩).1 ≠ .kErrorNone := hspec
    rw [if_pos herr]
    exact ⟨_, _, rfl, herr⟩
  | some w =>
    rw [hv] at hspec
    obtain ⟨st', e1, e2⟩ := hspec
    rw [e1, if_neg (by simp)]
    exact ⟨st', rfl, e2.mono (by omega)⟩

/-- **The scanner finds what the tree has**, at a value of a text. -/
theorem query_spec : ∀ (path : List PointerNode) {st : SkipScanner} {s₀ s t u : Bytes} {v : Json}
    {n : Node}, Scan data len st.pos st.bits s₀ → Ws s₀ s → Der s (.val v) t → Next t u →
    s₀.length < 2 ^ 31 →
    den F flags v = some n → ¬ n.AsksEmpty path →
    Finds F flags data (query A data len path st) (n.atPointerImpl path)
  | [], st, s₀, s, t, u, v, n, h, hw, hd, hn, _, hden, _ => by
    obtain ⟨start, p, k', t', h1, -, -, -, h2⟩ := SkipOne_slice A h hw hd hn
    refine ⟨start, p, v, ?_, h2, hden⟩
    rw [query, h1]
  | .str key :: path, st, s₀, s, t, u, v, n, h, hw, hd, hn, hlen, hden, hask => by
    obtain ⟨c, r, p, k', rfl, hst, -, -, -⟩ := h.value hw hd
    by_cases hc : c = Ch.lbrace
    swap
    · rw [atPointerImpl_mismatch hden hst (show c ≠ (PointerNode.str key).opening from hc)]
      exact query_mismatch h hw hst.not_isSpace hc
    subst hc
    obtain ⟨ms, rfl, -⟩ := hd.object_inv
    obtain ⟨ns, hns, rfl⟩ := Option.map_eq_some_iff.mp hden
    have hfind := @FindMember_denMems _ _ key _ _ hns
    have hspec := query_member (A := A) key path h hw hd
    rw [Node.atPointerImpl, hfind]
    cases hm : Json.member ms key with
    | none =>
      rw [hm] at hspec
      exact hspec
    | some w =>
      rw [hm] at hspec hfind
      obtain ⟨st', e1, a₀, a, b, u', e2, e3, e4, e5, e6⟩ := hspec
      obtain ⟨m, hm'⟩ := den_of_mem_mems hns _ (Json.mem_of_member hm)
      rw [Option.bind_some, hm'] at hfind ⊢
      rw [e1, Option.bind_some]
      exact query_spec path e2 e3 e4 e5 (by omega) hm' fun hx => hask (.member hfind hx)
  | .num idx :: path, st, s₀, s, t, u, v, n, h, hw, hd, hn, hlen, hden, hask => by
    obtain ⟨c, r, p, k', rfl, hst, h1, h2, -⟩ := h.value hw hd
    by_cases hc : c = Ch.lbrack
    swap
    · rw [atPointerImpl_mismatch hden hst (show c ≠ (PointerNode.num idx).opening from hc)]
      exact query_mismatch h hw hst.not_isSpace hc
    subst hc
    have hl := hw.suffix.length_le
    rw [List.length_cons] at hl
    obtain ⟨vs, rfl, hvs⟩ := hd.array_inv
    obtain ⟨ns, hns, rfl⟩ := Option.map_eq_some_iff.mp hden
    by_cases hidx : idx < 0
    · unfold query
      simp only [h1]
      rw [if_neg (by decide), GetArrayElem, if_pos hidx, if_pos (by simp), Node.atPointerImpl,
        if_neg (by omega)]
      exact ⟨_, _, rfl, by simp⟩
    rcases hvs with ⟨rfl, hr⟩ | hr
    · -- the first element of an array without elements
      have h0 : idx = 0 := by
        by_contra h0
        refine hask ⟨[], idx, path, rfl, by omega, ?_⟩
        obtain rfl := Option.some.inj hns
        rfl
      obtain rfl := Option.some.inj hns
      subst h0
      have h3 : ¬ (getArrayElemLoop A data len (0 : ℤ).toNat ⟨p + 1, k', st.kbuf⟩).1 ≠
        .kErrorNone := not_not.mpr rfl
      unfold query
      simp only [h1]
      rw [if_neg (by decide), GetArrayElem, if_neg hidx, if_neg h3, Node.atPointerImpl,
        if_neg (by decide)]
      exact query_rbrack h2 hr
    have hlen' : ns.length < 2 ^ 31 := by
      have h3 := hr.elems_length
      have h4 := SAXHandler.denElems_length F flags vs hns
      omega
    have hspec :=
      query_elem (A := A) path (by omega : 0 ≤ idx) h hw hd (fun h => by rw [h] at hr; cases hr)
    have hget := denElems_getElem? hns idx.toNat
    rw [Node.atPointerImpl, toInt32_eq hlen']
    cases hv : vs[idx.toNat]? with
    | none =>
      rw [hv] at hspec hget
      have hge : ns.length ≤ idx.toNat := by simpa using hget
      rw [if_neg (by omega)]
      exact hspec
    | some w =>
      rw [hv] at hspec hget
      obtain ⟨st', e1, a₀, a, b, u', e2, e3, e4, e5, e6⟩ := hspec
      obtain ⟨m, hm⟩ := den_of_mem hns w (List.mem_of_getElem? hv)
      rw [Option.bind_some, hm] at hget
      have hlt : idx.toNat < ns.length := (List.getElem?_eq_some_iff.mp hget).1
      have hrange : 0 ≤ idx ∧ idx < (ns.length : ℤ) := by omega
      rw [e1, if_pos hrange, hget, Option.bind_some]
      refine query_spec path e2 e3 e4 e5 (by omega) hm fun hx => hask (.elem ?_ hget hx)
      rwa [toInt32_eq hlen']

end

end

/-- **On-demand lookup agrees with parsing**, unless an array without elements is asked for an
element after the first: the scanner reports no error exactly where the tree has a node, and parsing
the slice gives that node. -/
theorem GetOnDemand_agrees (F : FloatConv) (hF : F.Local) {json : Bytes}
    (hlen : json.length < 2 ^ 31) {rest : Bytes} {n : Node}
    (hparse : Document.Parse A F kParseDefault json rest = some (.ok n)) (path : List PointerNode)
    (hask : ¬ n.AsksEmpty path) :
    ∃ r, GetOnDemand A json path = some r ∧
      (r.err = .kErrorNone ↔ (n.atPointerImpl path).isSome = true) ∧
      ∀ m, n.atPointerImpl path = some m →
        ∀ rest', Document.Parse A F kParseDefault r.target rest' = some (.ok m) := by
  obtain ⟨v, ⟨s₁, t, hw, hd, ht⟩, hden⟩ := (Document.parse_ok_iff A F hF hlen rest).mp hparse
  have h : Scan json json.length 0 .init json := ⟨left_length.mpr (at_zero _), SpaceBits.valid_init _ _⟩
  have hspec := @query_spec A _ _ _ _ path ⟨0, .init, List.replicate 32 0⟩ _ _ _ _ _ _ h hw hd
    ⟨ht, .inl rfl⟩ hlen hden hask
  unfold GetOnDemand
  cases hm : n.atPointerImpl path with
  | none =>
    rw [hm] at hspec
    obtain ⟨e, p, e1, e2⟩ := hspec
    rw [e1]
    refine ⟨_, rfl, iff_of_false e2 (by simp), fun m hm' => by simp at hm'⟩
  | some m =>
    rw [hm] at hspec
    obtain ⟨start, p, w, e1, e2, e3⟩ := hspec
    rw [e1]
    refine ⟨_, rfl, iff_of_true rfl rfl, fun m' hm' rest' => ?_⟩
    obtain rfl := Option.some.inj hm'
    have hle : (slice json start p).length ≤ json.length := by simp [slice]
    exact (Document.parse_ok_iff A F hF (hle.trans_lt hlen) rest').mpr ⟨w, e2, e3⟩

/-- The text `[7,8]` and its element 1. -/
theorem GetOnDemand_agrees_second : ∃ r, GetOnDemand .avx2 [91, 55, 44, 56, 93] [.num 1] = some r ∧
    (r.err = .kErrorNone ↔ ((Node.arr [.uint 7, .uint 8]).atPointerImpl [.num 1]).isSome = true) ∧
    ∀ m, (Node.arr [.uint 7, .uint 8]).atPointerImpl [.num 1] = some m →
      ∀ rest', Document.Parse .avx2 Document.noFloats kParseDefault r.target rest' = some (.ok m) := by
  refine @GetOnDemand_agrees .avx2 Document.noFloats (fun _ _ _ _ _ => rfl) _ (by decide)
    (List.replicate 61 0) _ rfl _ ?_
  rintro ⟨pre, i, post, h, -, hp⟩
  cases pre with
  | nil => simp [Node.atPointerImpl] at hp
  | cons => simp at h

/-- The second element of `[]` in `[[],5]`: the scanner returns the text after the empty array. -/
theorem GetOnDemand_disagrees : ∃ (json : Bytes) (path : List PointerNode) (rest : Bytes) (n : Node)
    (r : OnDemand), Document.Parse .avx2 Document.noFloats kParseDefault json rest = some (.ok n) ∧
    n.atPointerImpl path = none ∧
    GetOnDemand .avx2 json path = some r ∧ r.err = .kErrorNone :=
  ⟨[91, 91, 93, 44, 53, 93], [.num 0, .num 1], List.replicate 61 0, .arr [.arr [], .uint 5],
    ⟨.kErrorNone, 5, [53]⟩, rfl, rfl, rfl, rfl⟩

end SonicJson
