/-
# Reading a path

`JsonPath::Parse` reads a path in a copy of it that has eight bytes of padding, and
decodes the names where they stand: a node holds a view of the buffer. Reads behind the
path are checked against the padding (`none`). What is accepted is the grammar
`PathText`, and the nodes are the steps of the text with the names as they decode
(`Parse_iff`); every name can be reached by its quoted form (`Parse_quoted`).
-/
import SonicJson.JsonPath
import SonicJson.NumberValue
import SonicJson.Quote

namespace SonicJson

open Cursor

namespace JsonPath

def ROOT : UInt8 := 36

def WILDCARD : UInt8 := Ch.star

/-- A node while the buffer is still being written to: a name is a view of the buffer. -/
inductive NodeView
  | token (c : UInt8)
  | key (start len : ℕ)
  | index (i : ℤ)

/-- What a node is on a buffer. -/
def NodeView.node (buf : Bytes) : NodeView → JsonPathNode
  | .token c => if c = WILDCARD then .wildcard else .root
  | .key start len => .key (slice buf start (start + len))
  | .index i => .index i

def paddingJsonPath (path : Bytes) : Bytes := path ++ List.replicate 8 0

/-! ### Names -/

/-- The end of what `handle_unicode_codepoint` reads from `src` on. -/
def codepointEnd (buf : Bytes) (src : ℕ) : ℕ :=
  let code_point := hex_to_u32_nocheck buf (src + 2)
  if code_point ≥ 0xd800 ∧ code_point < 0xdc00 then
    if rd buf (src + 6) ≠ Ch.bslash then src + 7 else if rd buf (src + 7) ≠ Ch.u then src + 8
      else src + 12
  else src + 6

/-- Whether the escape at `src` is one, and the buffer and the positions behind it. -/
def unescape_with_padding (buf : Bytes) (src dst : ℕ) : Option (Bool × Bytes × ℕ × ℕ) :=
  if buf.length < src + 2 then none
  else
    let escape_char := rd buf (src + 1)
    if escape_char = Ch.u then
      if buf.length < codepointEnd buf src then none
      else
        let (ok, src, w) := handle_unicode_codepoint buf src
        some (ok, store buf dst w, src, dst + w.length)
    else
      let buf := store buf dst [kEscapedMap escape_char]
      if kEscapedMap escape_char = 0 then some (false, buf, src, dst)
        else some (true, buf, src + 2, dst + 1)

/-- The loop of `parseQuotedName`, with fuel for each byte. -/
def nameLoop (quote : UInt8) (stop : ℕ) : ℕ → Bytes → ℕ → ℕ → Option (Bool × Bytes × ℕ × ℕ)
  | 0, _, _, _ => none
  | fuel + 1, buf, src, dst =>
    if src < stop ∧ rd buf src ≠ quote then
      if rd buf src = Ch.bslash then
        if buf.length < src + 2 then none
        else if rd buf (src + 1) = Ch.apos
          then nameLoop quote stop fuel (store buf dst [Ch.apos]) (src + 2) (dst + 1)
        else
          (unescape_with_padding buf src dst).bind fun (ok, buf, src, dst) =>
            if ok then nameLoop quote stop fuel buf src dst else some (false, buf, src, dst)
      else nameLoop quote stop fuel (store buf dst [rd buf src]) (src + 1) (dst + 1)
    else some (true, buf, src, dst)

variable (buf : Bytes) (n : ℕ)

/-- The case `['abc']` or `["abc"]`: the node and the index behind it, where there is one, and the
buffer. -/
def parseQuotedName (index : ℕ) : Option (Option (NodeView × ℕ) × Bytes) :=
  if n ≤ index then some (none, buf)
  else if rd buf index ≠ Ch.apos ∧ rd buf index ≠ Ch.quote then some (none, buf)
  else
    let quote := rd buf index
    let start := index + 1
    if n ≤ start then some (none, buf)
    else
      (nameLoop quote n (n + 1) buf start start).map fun (ok, buf, src, dst) =>
        if !ok then (none, buf)
        else if n ≤ src then (none, buf)
        else
          let len := dst - start
          let quote_pos := src
          if n ≤ quote_pos + 1 ∨ rd buf (quote_pos + 1) ≠ Ch.rbrack then (none, buf)
          else (some (.key start len, quote_pos + 2), buf)

/-- The case `.abc`. -/
def parseUnquotedKey (index : ℕ) : Option (NodeView × ℕ) :=
  let len := ((slice buf index n).takeWhile fun b => b != Ch.dot && b != Ch.lbrack).length
  if len = 0 then none else some (.key index len, index + len)

/-! ### Indices -/

def kInt64Max : ℕ := 2 ^ 63 - 1

/-- The loop of `parseNumber` on what is left of the path. -/
def numberLoop : Bytes → ℕ → ℕ → Option (ℕ × ℕ)
  | [], index, sum => some (index, sum)
  | b :: r, index, sum =>
    if is_digit b then
      let digit := b.toNat - 48
      if (kInt64Max - digit) / 10 < sum then none else numberLoop r (index + 1) (sum * 10 + digit)
    else some (index, sum)

/-- The index behind the number, and its value. -/
def parseNumber (index sum : ℕ) : Option (ℕ × ℕ) :=
  let start := index
  if index < n ∧ rd buf index = Ch.zero then some (index + 1, sum)
  else (numberLoop (slice buf index n) index sum).bind fun (index, sum) => if index ≠ start
    then some (index, sum) else none

/-- The case `[123]` or `[-123]`. -/
def parseBracketedIndex (index : ℕ) : Option (NodeView × ℕ) :=
  let negative := decide (index < n) && rd buf index == Ch.minus
  let sign : ℤ := if negative then -1 else 1
  (parseNumber buf n (if negative then index + 1 else index) 0).bind fun (index, sum) =>
    if n ≤ index ∨ rd buf index ≠ Ch.rbrack then none else some (.index (sum * sign), index + 1)

/-! ### Paths -/

/-- The loop of `ParsePaddedInternal`, with fuel for each byte: the answer, the buffer and the nodes. -/
def pathLoop : ℕ → Bytes → ℕ → List NodeView → Option (Bool × Bytes × List NodeView)
  | 0, _, _, _ => none
  | fuel + 1, buf, i, nodes =>
    let emplace_back (buf : Bytes) : Option (NodeView × ℕ) → Option (Bool × Bytes × List NodeView)
      | some (node, i) => pathLoop fuel buf i (nodes ++ [node])
      | none => some (false, buf, [])
    if i < n then
      if i + 2 < n ∧ rd buf i = Ch.dot ∧ rd buf (i + 1) = Ch.dot then some (false, buf, nodes)
      else if rd buf i = Ch.dot then
        if n ≤ i + 1 then some (false, buf, nodes)
        else if rd buf (i + 1) = Ch.star then pathLoop fuel buf (i + 2) (nodes ++ [.token WILDCARD])
        else emplace_back buf (parseUnquotedKey buf n (i + 1))
      else if rd buf i = Ch.lbrack then
        if n ≤ i + 1 then some (false, buf, nodes)
        else if rd buf (i + 1) = Ch.star then
          if i + 2 < n ∧
            rd buf (i + 2) = Ch.rbrack then pathLoop fuel buf (i + 3) (nodes ++ [.token WILDCARD])
          else some (false, buf, nodes)
        else if rd buf (i + 1) = Ch.apos ∨ rd buf (i + 1) = Ch.quote then
          (parseQuotedName buf n (i + 1)).bind fun (r, buf) => emplace_back buf r
        else if is_digit (rd buf (i + 1)) ∨
          rd buf (i + 1) = Ch.minus then emplace_back buf (parseBracketedIndex buf n (i + 1))
        else some (false, buf, [])
      else some (false, buf, nodes)
    else some (true, buf, nodes)

/-- On a buffer that has eight bytes behind `logical_len`. -/
def ParsePaddedInternal (padded : Bytes) (logical_len : ℕ) : Option (Bool × Bytes × List NodeView) :=
  if logical_len = 0 ∨ rd padded 0 ≠ ROOT then some (false, padded, [])
  else pathLoop logical_len (logical_len + 1) padded 1 [.token ROOT]

/-- `Parse`: what it answers, and the nodes. It is `none` where a byte outside of the buffer is read
or the fuel is not enough, which does not happen. -/
def Parse (path : Bytes) : Option (Bool × JsonPath) :=
  (ParsePaddedInternal (paddingJsonPath path) path.length).map fun (ok, buf, nodes) =>
    (ok, nodes.map (·.node buf))

example : Parse [36, 46, 97, 91, 34, 92, 34, 34, 93, 91, 45, 49, 50, 93] =
    some (true, [.root, .key [97], .key [34], .index (-12)]) := by decide


/-! ### The grammar -/

/-- Behind the quote `q`, the text begins with the name `k` and its closing quote. -/
inductive NameBody (q : UInt8) : Bytes → Bytes → Bytes → Prop
  | quote (t : Bytes) : NameBody q (q :: t) [] t
  | char {b : UInt8} {s k t : Bytes} : b ≠ q → b ≠ Ch.bslash → NameBody q s k t →
    NameBody q (b :: s) (b :: k) t
  | apos {s k t : Bytes} : NameBody q s k t → NameBody q (Ch.bslash :: Ch.apos :: s) (Ch.apos :: k) t
  | esc {c d : UInt8} {s k t : Bytes} : escChar c = some d → NameBody q s k t →
      NameBody q (Ch.bslash :: c :: s) (d :: k) t
  | uni {a b c d : UInt8} {cp : ℕ} {s k t : Bytes} : hex4 a b c d = some cp → ¬ IsHigh cp → ¬ IsLow cp →
      NameBody q s k t → NameBody q (Ch.bslash :: Ch.u :: a :: b :: c :: d :: s) (utf8 cp ++ k) t
  | pair {a b c d a' b' c' d' : UInt8} {hi lo : ℕ} {s k t : Bytes} :
      hex4 a b c d = some hi → IsHigh hi → hex4 a' b' c' d' = some lo → IsLow lo → NameBody q s k t →
      NameBody q (Ch.bslash :: Ch.u :: a :: b :: c :: d :: Ch.bslash :: Ch.u :: a' :: b' :: c' ::
        d' :: s)
        (utf8 (pairValue hi lo) ++ k) t

/-- The text of a step. -/
inductive StepText : Bytes → JsonPathNode → Prop
  | dotWildcard : StepText [Ch.dot, Ch.star] .wildcard
  | name {b : UInt8} {r : Bytes} : b ≠ Ch.star → (∀ x ∈ b :: r, x ≠ Ch.dot ∧ x ≠ Ch.lbrack) →
      StepText (Ch.dot :: b :: r) (.key (b :: r))
  | wildcard : StepText [Ch.lbrack, Ch.star, Ch.rbrack] .wildcard
  | index {ds : Bytes} : IntPart ds → decimal ds ≤ kInt64Max →
      StepText (Ch.lbrack :: (ds ++ [Ch.rbrack])) (.index (decimal ds))
  | negative {ds : Bytes} : IntPart ds → decimal ds ≤ kInt64Max →
      StepText (Ch.lbrack :: Ch.minus :: (ds ++ [Ch.rbrack])) (.index (-(decimal ds : ℤ)))
  | quoted {q : UInt8} {s k : Bytes} : q = Ch.apos ∨ q = Ch.quote → NameBody q s k [] →
      StepText (Ch.lbrack :: q :: (s ++ [Ch.rbrack])) (.key k)

/-- The text of a sequence of steps. -/
inductive PathText : Bytes → JsonPath → Prop
  | nil : PathText [] []
  | cons {a s : Bytes} {node : JsonPathNode} {steps : JsonPath} : StepText a node → PathText s steps →
      PathText (a ++ s) (node :: steps)

/-! ### Names -/

section
variable {q b c d : UInt8} {s k r w : Bytes}

theorem escChar_apos : escChar Ch.apos = none := by decide

theorem nameBody_nil : ¬ NameBody q [] k r := nofun

theorem nameBody_quote (hq : q ≠ Ch.bslash) : NameBody q (q :: s) k r ↔ k = [] ∧ r = s := by
  constructor
  · intro h
    cases h with
    | quote => exact ⟨rfl, rfl⟩
    | char h1 _ _ => exact absurd rfl h1
    | apos _ | esc _ _ | uni _ _ _ _ | pair _ _ _ _ _ => exact absurd rfl hq
  · rintro ⟨rfl, rfl⟩
    exact .quote _

theorem nameBody_char (h1 : b ≠ q) (h2 : b ≠ Ch.bslash) :
    NameBody q (b :: s) k r ↔ ∃ k', k = b :: k' ∧ NameBody q s k' r := by
  constructor
  · intro h
    cases h with
    | quote => exact absurd rfl h1
    | char _ _ h => exact ⟨_, rfl, h⟩
    | apos _ | esc _ _ | uni _ _ _ _ | pair _ _ _ _ _ => exact absurd rfl h2
  · rintro ⟨k', rfl, h⟩
    exact .char h1 h2 h

theorem nameBody_bslash (hq : q ≠ Ch.bslash) : ¬ NameBody q [Ch.bslash] k r := by
  intro h
  cases h with
  | quote => exact hq rfl
  | char _ h _ => exact h rfl

theorem nameBody_apos (hq : q ≠ Ch.bslash) :
    NameBody q (Ch.bslash :: Ch.apos :: s) k r ↔ ∃ k', k = Ch.apos :: k' ∧ NameBody q s k' r := by
  constructor
  · intro h
    cases h with
    | quote => exact absurd rfl hq
    | char _ h _ => exact absurd rfl h
    | apos h => exact ⟨_, rfl, h⟩
    | esc h _ => simp [escChar_apos] at h
  · rintro ⟨k', rfl, h⟩
    exact .apos h

theorem nameBody_esc (hq : q ≠ Ch.bslash) (h1 : c ≠ Ch.apos) (h2 : c ≠ Ch.u) :
    NameBody q (Ch.bslash :: c :: s) k r ↔ ∃ d k', escChar c = some d ∧ k = d :: k' ∧
      NameBody q s k' r := by
  constructor
  · intro h
    cases h with
    | quote => exact absurd rfl hq
    | char _ h _ => exact absurd rfl h
    | apos _ => exact absurd rfl h1
    | esc h h' => exact ⟨_, _, h, rfl, h'⟩
    | uni _ _ _ _ | pair _ _ _ _ _ => exact absurd rfl h2
  · rintro ⟨d, k', hd, rfl, h⟩
    exact .esc hd h

theorem nameBody_uni (hq : q ≠ Ch.bslash) : NameBody q (Ch.bslash :: Ch.u :: s) k r ↔
    ∃ w s' k', unicodeEsc s = some (w, s') ∧ k = w ++ k' ∧ NameBody q s' k' r := by
  constructor
  · intro h
    cases h with
    | quote => exact absurd rfl hq
    | char _ h _ => exact absurd rfl h
    | esc h _ => simp [escChar_u] at h
    | uni h1 h2 h3 h => exact ⟨_, _, _, unicodeEsc_unit h1 h3 h2, rfl, h⟩
    | pair h1 h2 h3 h4 h => exact ⟨_, _, _, unicodeEsc_pair h1 h2 h3 h4, rfl, h⟩
  · rintro ⟨w, s', k', hu, rfl, h⟩
    rcases unicodeEsc_cases hu with ⟨a, b, c, d, cp, rfl, h1, h2, h3, hw⟩ |
      ⟨a, b, c, d, a', b', c', d', hi, lo, rfl, h1, h2, h3, h4, hw⟩
    · rw [hw]
      exact .uni h1 h2 h3 h
    · rw [hw]
      exact .pair h1 h2 h3 h4 h

theorem NameBody.append (h : NameBody q s k r) (u : Bytes) : NameBody q (s ++ u) k (r ++ u) := by
  induction h with
  | quote t => exact .quote _
  | char h1 h2 _ ih => exact .char h1 h2 ih
  | apos _ ih => exact .apos ih
  | esc h _ ih => exact .esc h ih
  | uni h1 h2 h3 _ ih => exact .uni h1 h2 h3 ih
  | pair h1 h2 h3 h4 _ ih => exact .pair h1 h2 h3 h4 ih

theorem NameBody.split (h : NameBody q s k r) : ∃ a, s = a ++ q :: r ∧ NameBody q (a ++ [q]) k [] := by
  induction h with
  | quote t => exact ⟨[], rfl, .quote []⟩
  | char h1 h2 _ ih =>
    obtain ⟨a, rfl, h⟩ := ih
    exact ⟨_ :: a, rfl, .char h1 h2 h⟩
  | apos _ ih =>
    obtain ⟨a, rfl, h⟩ := ih
    exact ⟨_ :: _ :: a, rfl, .apos h⟩
  | esc he _ ih =>
    obtain ⟨a, rfl, h⟩ := ih
    exact ⟨_ :: _ :: a, rfl, .esc he h⟩
  | uni h1 h2 h3 _ ih =>
    obtain ⟨a, rfl, h⟩ := ih
    exact ⟨_ :: _ :: _ :: _ :: _ :: _ :: a, rfl, .uni h1 h2 h3 h⟩
  | pair h1 h2 h3 h4 _ ih =>
    obtain ⟨a, rfl, h⟩ := ih
    exact ⟨_ :: _ :: _ :: _ :: _ :: _ :: _ :: _ :: _ :: _ :: _ :: _ :: a, rfl, .pair h1 h2 h3 h4 h⟩

/-- A string of JSON is a name in double quotes. -/
theorem nameBody_of_strBody (h : StrBody s k r) : NameBody Ch.quote s k r := by
  induction h with
  | quote t => exact .quote _
  | char h1 h2 _ _ ih => exact .char h1 h2 ih
  | esc h _ ih => exact .esc h ih
  | uni h1 h2 h3 _ ih => exact .uni h1 h2 h3 ih
  | pair h1 h2 h3 h4 _ ih => exact .pair h1 h2 h3 h4 ih

/-- The padding is in no escape. -/
theorem unicodeEsc_padded (s : Bytes) (m : ℕ) :
    unicodeEsc (s ++ List.replicate m 0) = (unicodeEsc s).map fun (w, r) =>
      (w, r ++ List.replicate m 0) := by
  cases h : unicodeEsc (s ++ List.replicate m 0) with
  | some p =>
    obtain ⟨w, r⟩ := p
    obtain ⟨u, hu, hloc⟩ := unicodeEsc_local h
    obtain ⟨u', hu', hge⟩ := unicodeEsc_ge h
    obtain rfl : u = u' := List.append_cancel_right (hu.symm.trans hu')
    -- a byte of the escape is no zero
    have hle : u.length ≤ s.length := by
      by_contra hc
      push Not at hc
      have h1 : rd (u ++ r) s.length ∈ u := by
        rw [rd_append_left hc]
        exact rd_mem hc
      have h0 : rd (s ++ List.replicate m 0) (s.length + 0) = 0 := by
        rw [rd_append_right]
        cases m <;> rfl
      rw [← hu, ← Nat.add_zero s.length, h0] at h1
      exact absurd (hge 0 h1).1 (by decide)
    obtain ⟨v, rfl, hv⟩ : ∃ v, s = u ++ v ∧ r = v ++ List.replicate m 0 := by
      rcases List.append_eq_append_iff.mp hu with ⟨a, ha, hb⟩ | ⟨a, ha, hb⟩
      · have : a = [] := by
          have := congrArg List.length ha
          rw [List.length_append] at this
          exact List.length_eq_zero_iff.mp (by omega)
        subst this
        exact ⟨[], by simpa using ha.symm, by simpa using hb.symm⟩
      · exact ⟨a, ha, hb⟩
    rw [hloc v, hv]
    rfl
  | none =>
    cases h' : unicodeEsc s with
    | none => rfl
    | some p =>
      obtain ⟨w, r⟩ := p
      obtain ⟨u, rfl, hloc⟩ := unicodeEsc_local h'
      rw [List.append_assoc, hloc] at h
      simp at h

/-- An escape is read inside of the padding. -/
theorem codepointEnd_le {buf : Bytes} {src : ℕ}
    (h : At buf src (Ch.bslash :: Ch.u :: (s ++ List.replicate 8 0))) :
    codepointEnd buf src ≤ buf.length := by
  have hl := h.length_add
  simp only [List.length_cons, List.length_append, List.length_replicate] at hl
  have hrd : ∀ i, rd buf (src + (i + 2)) = rd s i := fun i => by
    rw [rd_at_add h, rd_cons_succ, rd_cons_succ, rd_append_zeros]
  have hlt : ∀ {i}, rd s i ≠ 0 → i < s.length := fun hne => by
    by_contra hc
    exact hne (rd_of_length_le (Nat.not_lt.mp hc))
  unfold codepointEnd
  dsimp only
  split
  · split
    · omega
    · split
      · omega
      · rename_i h2
        have := hlt (i := 5) (by rw [← hrd, not_not.mp h2]; decide)
        omega
  · omega

end

/-- What the loop of `parseQuotedName` comes to on the text `t` before the padding, with `out`
decoded behind `pre`: the name that the text begins with, or a failure. -/
def NameRead (q : UInt8) (stop : ℕ) (pre out t : Bytes) (r : Option (Bool × Bytes × ℕ × ℕ)) : Prop :=
  ∃ ok buf src dst, r = some (ok, buf, src, dst) ∧
    ((∃ k u junk, (∀ k' u', NameBody q t k' u' ↔ k' = k ∧ u' = u) ∧ ok = true ∧
    src + u.length + 1 = stop ∧
        Mid buf src dst pre (out ++ k) junk (q :: (u ++ List.replicate 8 0))) ∨
      (∀ k u, ¬ NameBody q t k u) ∧ (ok = true → stop ≤ src))

section
variable {q : UInt8} {stop src dst : ℕ} {pre out junk t t' w buf : Bytes}
    {r : Option (Bool × Bytes × ℕ × ℕ)}

/-- A step of the loop, which decodes `w`. -/
theorem NameRead.step (h : NameRead q stop pre (out ++ w) t' r)
    (hiff : ∀ k u, NameBody q t k u ↔ ∃ k', k = w ++ k' ∧ NameBody q t' k' u) :
    NameRead q stop pre out t r := by
  obtain ⟨ok, buf, src, dst, rfl, h⟩ := h
  refine ⟨ok, buf, src, dst, rfl, ?_⟩
  rcases h with ⟨k, u, junk, h1, h2, h3, h4⟩ | ⟨h1, h2⟩
  · refine .inl ⟨w ++ k, u, junk, fun k' u' => ?_, h2, h3, by rwa [← List.append_assoc]⟩
    rw [hiff]
    constructor
    · rintro ⟨k'', rfl, h⟩
      obtain ⟨rfl, rfl⟩ := (h1 _ _).mp h
      exact ⟨rfl, rfl⟩
    · rintro ⟨rfl, rfl⟩
      exact ⟨k, rfl, (h1 _ _).mpr ⟨rfl, rfl⟩⟩
  · refine .inr ⟨fun k u hk => ?_, h2⟩
    obtain ⟨k', -, h⟩ := (hiff k u).mp hk
    exact h1 _ _ h

theorem NameRead.failed {buf : Bytes} (h : ∀ k u, ¬ NameBody q t k u) :
    NameRead q stop pre out t (some (false, buf, src, dst)) :=
  ⟨_, _, _, _, rfl, .inr ⟨h, nofun⟩⟩

/-- **A name is read** as the grammar has it, by induction on what the loop has left. -/
theorem nameLoop_spec (hq : q = Ch.apos ∨ q = Ch.quote) :
    ∀ (fuel : ℕ) {buf out junk t : Bytes} {src dst : ℕ}, Mid buf src dst pre out junk
    (t ++ List.replicate 8 0) → t.length < fuel → stop = src + t.length →
    NameRead q stop pre out t (nameLoop q stop fuel buf src dst)
  | 0, _, _, _, _, _, _, _, hf, _ => absurd hf (Nat.not_lt_zero _)
  | fuel + 1, buf, out, junk, [], src, dst, h, _, hstop => by
    rw [nameLoop, if_neg (by simp [hstop])]
    exact ⟨_, _, _, _, rfl, .inr ⟨fun _ _ => nameBody_nil, fun _ => by simp [hstop]⟩⟩
  | fuel + 1, buf, out, junk, b :: s, src, dst, h, hf, hstop => by
    have hqb : q ≠ Ch.bslash := by rcases hq with rfl | rfl <;> decide
    have hb : rd buf src = b := rd_at h.at
    have hlen := h.length
    have hsrc := h.src_eq
    simp only [List.length_cons, List.length_append, List.length_replicate] at hf hstop hlen
    rw [nameLoop, hb]
    by_cases hbq : b = q
    · subst hbq
      rw [if_neg (by simp)]
      refine ⟨_, _, _, _, rfl, .inl ⟨[], s, junk, fun _ _ => nameBody_quote hqb, rfl, by omega, ?_⟩⟩
      rwa [List.append_nil]
    rw [if_pos ⟨by omega, hbq⟩]
    by_cases hbs : b = Ch.bslash
    swap
    · rw [if_neg hbs]
      have hm := Mid.store [b] [b] (s := s ++ List.replicate 8 0) h (by simp)
      exact (nameLoop_spec hq fuel hm (by omega) (by simp; omega)).step fun k u => nameBody_char hbq hbs
    subst hbs
    rw [if_pos rfl, if_neg (by omega)]
    cases s with
    | nil =>
      -- the byte behind the backslash is padding
      have h0 : rd buf (src + 1) = 0 := rd_at_succ h.at
      rw [h0, if_neg (by decide), unescape_with_padding, if_neg (by omega)]
      simp only [h0]
      rw [if_neg (by decide), if_pos (by decide)]
      exact .failed fun _ _ => nameBody_bslash hqb
    | cons c s =>
      have hc : rd buf (src + 1) = c := rd_at_succ h.at
      simp only [List.length_cons] at hf hstop hlen
      rw [hc]
      by_cases hca : c = Ch.apos
      · subst hca
        rw [if_pos rfl]
        have hm := Mid.store [Ch.bslash, Ch.apos] [Ch.apos] (s := s ++ List.replicate 8 0) h (by simp)
        exact (nameLoop_spec hq fuel hm (by omega) (by simp; omega)).step fun k u => nameBody_apos hqb
      rw [if_neg hca, unescape_with_padding, if_neg (by omega)]
      simp only [hc]
      have hesc : Mid buf src dst pre out junk (Ch.bslash :: c :: (s ++ List.replicate 8 0)) := h
      cases escape_cases false hesc with
      | uni w r junk' hu hh hm hl hle _ he =>
        subst hu
        rw [unicodeEsc_padded] at he
        obtain ⟨⟨w', r'⟩, hu, hwr⟩ := Option.map_eq_some_iff.mp he
        obtain ⟨rfl, rfl⟩ := Prod.mk.inj hwr
        obtain ⟨v, rfl, -⟩ := unicodeEsc_local hu
        simp only [List.length_append, List.length_replicate] at hle hlen hf hstop hm hh
        rw [if_pos rfl, if_neg (Nat.not_lt.mpr (codepointEnd_le h.at))]
        simp only [hh, Option.bind_some, if_true]
        refine (nameLoop_spec hq fuel hm (by omega) (by omega)).step fun k u => ?_
        rw [nameBody_uni hqb]
        constructor
        · rintro ⟨w, s', k', hu', rfl, hk⟩
          obtain ⟨rfl, rfl⟩ := Prod.mk.inj (Option.some_inj.mp (hu.symm.trans hu'))
          exact ⟨k', rfl, hk⟩
        · rintro ⟨k', rfl, hk⟩
          exact ⟨_, _, k', hu, rfl, hk⟩
      | badUni hu hh he _ =>
        subst hu
        rw [unicodeEsc_padded, Option.map_eq_none_iff] at he
        rw [if_pos rfl, if_neg (Nat.not_lt.mpr (codepointEnd_le h.at))]
        simp only [hh, Option.bind_some, Bool.false_eq_true, if_false]
        refine .failed fun k u hk => ?_
        obtain ⟨w, s', k', hu, -⟩ := (nameBody_uni hqb).mp hk
        rw [he] at hu
        exact Option.some_ne_none _ hu.symm
      | esc d junk' hu hd hd0 hm hl _ =>
        rw [if_neg hu, hd, if_neg hd0]
        simp only [Option.bind_some, if_true]
        have he : escChar c = some d := by
          rw [kEscapedMap_eq] at hd
          cases hc : escChar c with
          | none =>
            rw [hc] at hd
            exact absurd hd.symm hd0
          | some d' =>
            rw [hc] at hd
            exact congrArg some hd
        refine (nameLoop_spec hq fuel hm (by omega) (by omega)).step fun k u => ?_
        rw [nameBody_esc hqb hca hu, he]
        constructor
        · rintro ⟨d', k', hd', rfl, hk⟩
          obtain rfl := Option.some_inj.mp hd'
          exact ⟨k', rfl, hk⟩
        · rintro ⟨k', rfl, hk⟩
          exact ⟨d, k', rfl, rfl, hk⟩
      | badEsc hu hd _ =>
        rw [if_neg hu, hd, if_pos rfl]
        simp only [Option.bind_some, Bool.false_eq_true, if_false]
        refine .failed fun k u hk => ?_
        obtain ⟨d, k', hd', -⟩ := (nameBody_esc hqb hca hu).mp hk
        rw [kEscapedMap_eq, hd'] at hd
        exact (escChar_ge hd').2.2 hd

end

/-! ### What is left of the path -/

/-- `t` is what is left of the path at `i`, before the padding. -/
structure On (buf : Bytes) (n i : ℕ) (t : Bytes) : Prop where
  at' : At buf i (t ++ List.replicate 8 0)
  len : i + t.length = n

section
variable {buf a s t : Bytes} {n i : ℕ} {b c : UInt8}

theorem On.rd (h : On buf n i (b :: t)) : rd buf i = b := rd_at h.at'

theorem On.lt (h : On buf n i (b :: t)) : i < n := by
  have := h.len
  rw [List.length_cons] at this
  omega

theorem On.append (h : On buf n i (a ++ t)) : On buf n (i + a.length) t := by
  have hat := h.at'
  rw [List.append_assoc] at hat
  refine ⟨hat.append, ?_⟩
  have := h.len
  rw [List.length_append] at this
  omega

theorem On.succ (h : On buf n i (b :: t)) : On buf n (i + 1) t := On.append (a := [b]) h

theorem On.slice (h : On buf n i t) : slice buf i n = t := by
  have hl : n - i = t.length := by
    have := h.len
    omega
  rw [SonicJson.slice, h.at'.drop, hl, List.take_left]

/-- The byte at the position, where there is one, is a given one. -/
theorem On.ne_iff (h : On buf n i t) : (n ≤ i ∨ SonicJson.rd buf i ≠ b) ↔ ¬ ∃ r, t = b :: r := by
  cases t with
  | nil =>
    have := h.len
    simp only [List.length_nil] at this
    exact iff_of_true (.inl (by omega)) (by simp)
  | cons c t =>
    have := h.lt
    rw [h.rd]
    constructor
    · rintro (h1 | h1) ⟨r, h2⟩
      · omega
      · exact h1 (List.cons.inj h2).1
    · intro h1
      exact .inr fun hc => h1 ⟨t, by rw [hc]⟩

/-! ### Indices -/

/-- The digits of a number are read while their value fits. -/
theorem numberLoop_eq (ht : ∀ b r, t = b :: r → is_digit b = false) : ∀ (ds : Bytes) (index sum : ℕ),
    (∀ d ∈ ds, is_digit d = true) → sum ≤ kInt64Max →
    numberLoop (ds ++ t) index sum =
      (if ds.foldl (fun n d => n * 10 + (d.toNat - 48)) sum ≤ kInt64Max then
        some (index + ds.length, ds.foldl (fun n d => n * 10 + (d.toNat - 48)) sum) else none)
  | [], index, sum, _, hs => by
    rw [List.nil_append, List.foldl_nil, if_pos hs]
    cases t with
    | nil => rfl
    | cons b r => rw [numberLoop, if_neg (by simp [ht b r rfl])]; rfl
  | d :: ds, index, sum, hd, hs => by
    have hdig := hd d List.mem_cons_self
    have h9 := digit_le hdig
    rw [List.cons_append, numberLoop, if_pos hdig, List.foldl_cons]
    dsimp only
    by_cases hov : (kInt64Max - (d.toNat - 48)) / 10 < sum
    · -- with the next digit the value is too large already
      rw [if_pos hov, if_neg]
      rw [foldl_decimal]
      have hpow : 1 ≤ 10 ^ ds.length := Nat.one_le_pow _ _ (by decide)
      have hge : (sum * 10 + (d.toNat - 48)) * 1 ≤ (sum * 10 + (d.toNat - 48)) * 10 ^ ds.length :=
        Nat.mul_le_mul_left _ hpow
      simp only [kInt64Max] at hov ⊢
      omega
    · rw [if_neg hov, numberLoop_eq ht ds _ _ (fun x hx => hd x (List.mem_cons_of_mem _ hx)) (by
        simp only [kInt64Max] at hov ⊢
        omega), List.length_cons, Nat.add_assoc, Nat.add_comm 1]

theorem intPart_ne_nil {ds : Bytes} (h : IntPart ds) : ds ≠ [] := by
  cases h <;> exact List.cons_ne_nil _ _

/-- A number and the bracket behind it. -/
theorem parseNumber_iff (h : On buf n i t) {sum j : ℕ} :
    (∃ index, parseNumber buf n i 0 = some (index, sum) ∧
    ¬ (n ≤ index ∨ SonicJson.rd buf index ≠ Ch.rbrack) ∧ j = index + 1) ↔
      ∃ ds r, t = ds ++ Ch.rbrack :: r ∧ IntPart ds ∧ decimal ds ≤ kInt64Max ∧ sum = decimal ds ∧
        On buf n j r := by
  have hbrack : ∀ {u : Bytes} (b : UInt8) (r : Bytes), Ch.rbrack :: u = b :: r →
      is_digit b = false := by
    intro u b r hb
    obtain rfl := (List.cons.inj hb).1
    decide
  constructor
  · rintro ⟨index, h1, h2, rfl⟩
    unfold parseNumber at h1
    dsimp only at h1
    split at h1
    · rename_i hz
      obtain ⟨rfl, rfl⟩ := Prod.mk.inj (Option.some_inj.mp h1)
      cases t with
      | nil =>
        have := h.len
        simp only [List.length_nil] at this
        omega
      | cons b t =>
        rw [h.rd] at hz
        obtain rfl := hz.2
        obtain ⟨r, rfl⟩ := not_not.mp ((On.ne_iff h.succ).not.mp h2)
        exact ⟨[Ch.zero], r, rfl, .zero, by decide, by decide, h.succ.succ⟩
    · rename_i hz
      obtain ⟨⟨index', sum'⟩, h3, h4⟩ := Option.bind_eq_some_iff.mp h1
      have hdig : ∀ d ∈ t.takeWhile is_digit, is_digit d = true := fun d hd => List.mem_takeWhile_imp hd
      have hnext : ∀ b r, t.dropWhile is_digit = b :: r → is_digit b = false := by
        intro b r hb
        have := List.head_dropWhile_not is_digit (l := t) (by rw [hb]; exact List.cons_ne_nil _ _)
        simpa [hb] using this
      rw [h.slice, ← List.takeWhile_append_dropWhile (p := is_digit) (l := t),
        numberLoop_eq hnext _ _ _ hdig (Nat.zero_le _)] at h3
      dsimp only at h4
      split at h3
      swap
      · exact absurd h3.symm (Option.some_ne_none _)
      rename_i hmax
      obtain ⟨rfl, rfl⟩ := Prod.mk.inj (Option.some_inj.mp h3)
      split at h4
      swap
      · exact absurd h4.symm (Option.some_ne_none _)
      rename_i hne
      obtain ⟨rfl, rfl⟩ := Prod.mk.inj (Option.some_inj.mp h4)
      have hon : On buf n (i + (t.takeWhile is_digit).length) (t.dropWhile is_digit) :=
        On.append (by rwa [List.takeWhile_append_dropWhile])
      obtain ⟨r, hr⟩ := not_not.mp (hon.ne_iff.not.mp h2)
      refine ⟨t.takeWhile is_digit, r, ?_, ?_, hmax, rfl, ?_⟩
      · rw [← hr, List.takeWhile_append_dropWhile]
      · cases hd : t.takeWhile is_digit with
        | nil =>
          rw [hd] at hne
          exact absurd rfl hne
        | cons d ds =>
          rw [hd] at hdig
          refine .pos (hdig d List.mem_cons_self) (fun hd0 => hz ?_) fun x hx =>
            hdig x (List.mem_cons_of_mem _ hx)
          have ht : t = d :: (ds ++ t.dropWhile is_digit) := by
            rw [← List.cons_append, ← hd, List.takeWhile_append_dropWhile]
          rw [ht] at h
          exact ⟨h.lt, h.rd.trans hd0⟩
      · rw [hr] at hon
        exact hon.succ
  · rintro ⟨ds, r, rfl, hint, hmax, rfl, hj⟩
    have hon : On buf n (i + ds.length) (Ch.rbrack :: r) := h.append
    have hjn : j = i + ds.length + 1 := by
      have h1 := hj.len
      have h2 := hon.succ.len
      omega
    refine ⟨i + ds.length, ?_, fun hc => hon.ne_iff.mp hc ⟨r, rfl⟩, hjn⟩
    unfold parseNumber
    dsimp only
    have hd := hint.digits
    cases hint with
    | zero =>
      have h' : On buf n i (Ch.zero :: Ch.rbrack :: r) := h
      rw [if_pos ⟨h'.lt, h'.rd⟩]
      rfl
    | @pos d ds h1 h2 h3 =>
      have h' : On buf n i (d :: (ds ++ Ch.rbrack :: r)) := h
      rw [if_neg (fun hc => h2 (h'.rd ▸ hc.2)), h.slice, numberLoop_eq hbrack _ _ _ hd (Nat.zero_le _)]
      rw [if_pos (show List.foldl _ 0 (d :: ds) ≤ kInt64Max from hmax), Option.bind_some]
      dsimp only
      rw [if_pos (by simp)]
      rfl

/-- What `parseBracketedIndex` reads: an index and its bracket. -/
theorem parseBracketedIndex_iff (h : On buf n i t) {v : NodeView} {j : ℕ} :
    parseBracketedIndex buf n i = some (v, j) ↔
      ∃ ds r, IntPart ds ∧ decimal ds ≤ kInt64Max ∧ On buf n j r ∧
        ((t = ds ++ Ch.rbrack :: r ∧ v = .index (decimal ds)) ∨
          (t = Ch.minus :: (ds ++ Ch.rbrack :: r) ∧ v = .index (-(decimal ds : ℤ)))) := by
  -- the number stands at the index or behind a minus
  have hread : ∀ {k : ℕ} {u : Bytes} (sign : ℤ), On buf n k u →
      (((parseNumber buf n k 0).bind fun (index, sum) =>
        if n ≤ index ∨ SonicJson.rd buf index ≠ Ch.rbrack then none
          else some (NodeView.index (sum * sign), index + 1)) = some (v, j) ↔
      ∃ ds r, u = ds ++ Ch.rbrack :: r ∧ IntPart ds ∧ decimal ds ≤ kInt64Max ∧ On buf n j r ∧
        v = .index (decimal ds * sign)) := by
    intro k u sign hu
    rw [Option.bind_eq_some_iff]
    constructor
    · rintro ⟨⟨index, sum⟩, h1, h2⟩
      dsimp only at h2
      split at h2
      · exact absurd h2.symm (Option.some_ne_none _)
      rename_i h3
      obtain ⟨rfl, rfl⟩ := Prod.mk.inj (Option.some_inj.mp h2)
      obtain ⟨ds, r, e1, e2, e3, rfl, e5⟩ := (parseNumber_iff hu).mp ⟨index, h1, h3, rfl⟩
      exact ⟨ds, r, e1, e2, e3, e5, rfl⟩
    · rintro ⟨ds, r, e1, e2, e3, e4, rfl⟩
      obtain ⟨index, h1, h2, rfl⟩ := (parseNumber_iff hu).mpr ⟨ds, r, e1, e2, e3, rfl, e4⟩
      exact ⟨(index, decimal ds), h1, by dsimp only; rw [if_neg h2]⟩
  unfold parseBracketedIndex
  dsimp only
  by_cases hneg : ∃ u, t = Ch.minus :: u
  · obtain ⟨u, rfl⟩ := hneg
    rw [h.rd]
    simp only [h.lt, decide_true, Bool.true_and, beq_self_eq_true, if_true]
    rw [hread _ h.succ]
    constructor
    · rintro ⟨ds, r, rfl, e2, e3, e4, rfl⟩
      exact ⟨ds, r, e2, e3, e4, .inr ⟨rfl, by rw [mul_neg_one]⟩⟩
    · rintro ⟨ds, r, e2, e3, e4, ⟨e5, rfl⟩ | ⟨e5, rfl⟩⟩
      · -- a digit is no minus
        obtain ⟨d, ds, rfl⟩ := List.exists_cons_of_ne_nil (intPart_ne_nil e2)
        have := e2.digits d List.mem_cons_self
        rw [← (List.cons.inj e5).1] at this
        exact absurd this (by decide)
      · exact ⟨ds, r, (List.cons.inj e5).2, e2, e3, e4, by rw [mul_neg_one]⟩
  · have hfalse : (decide (i < n) && SonicJson.rd buf i == Ch.minus) = false := by
      have := h.ne_iff.mpr hneg
      rw [← Bool.not_eq_true, Bool.and_eq_true, decide_eq_true_eq, beq_iff_eq]
      rintro ⟨h1, h2⟩
      rcases this with h3 | h3
      · omega
      · exact h3 h2
    simp only [hfalse, Bool.false_eq_true, if_false]
    rw [hread _ h]
    constructor
    · rintro ⟨ds, r, rfl, e2, e3, e4, rfl⟩
      exact ⟨ds, r, e2, e3, e4, .inl ⟨rfl, by rw [mul_one]⟩⟩
    · rintro ⟨ds, r, e2, e3, e4, ⟨rfl, rfl⟩ | ⟨rfl, rfl⟩⟩
      · exact ⟨ds, r, rfl, e2, e3, e4, by rw [mul_one]⟩
      · exact absurd ⟨_, rfl⟩ hneg

end

/-- An index that stands there is read. -/
theorem parseBracketedIndex_of {buf t ds r : Bytes} {n i : ℕ} {v : ℤ} (h : On buf n i t)
    (h1 : IntPart ds) (h2 : decimal ds ≤ kInt64Max)
    (h3 : (t = ds ++ Ch.rbrack :: r ∧ v = decimal ds) ∨ (t = Ch.minus :: (ds ++ Ch.rbrack :: r) ∧
    v = -(decimal ds : ℤ))) :
    ∃ j, On buf n j r ∧ parseBracketedIndex buf n i = some (.index v, j) := by
  rcases h3 with ⟨rfl, rfl⟩ | ⟨rfl, rfl⟩
  · exact ⟨_, h.append.succ, (parseBracketedIndex_iff h).mpr ⟨ds, r, h1, h2, h.append.succ,
      .inl ⟨rfl, rfl⟩⟩⟩
  · exact ⟨_, h.succ.append.succ, (parseBracketedIndex_iff h).mpr ⟨ds, r, h1, h2,
      h.succ.append.succ, .inr ⟨rfl, rfl⟩⟩⟩

/-! ### Steps -/

section
variable {t u a : Bytes} {b : UInt8} {steps : JsonPath}

theorem pathText_nil : PathText [] steps ↔ steps = [] := by
  constructor
  · intro h
    generalize ht : ([] : Bytes) = t at h
    cases h with
    | nil => rfl
    | cons h _ => cases h <;> simp at ht
  · rintro rfl
    exact .nil

theorem PathText.inv (h : PathText (b :: t) steps) :
    ∃ a s node steps', b :: t = a ++ s ∧ StepText a node ∧ PathText s steps' ∧
      steps = node :: steps' := by
  generalize ht : b :: t = u at h
  cases h with
  | nil => simp at ht
  | cons h h' => exact ⟨_, _, _, _, rfl, h, h', rfl⟩

/-- What follows a step begins with a dot or a bracket. -/
theorem PathText.head (h : PathText (b :: t) steps) : b = Ch.dot ∨ b = Ch.lbrack := by
  obtain ⟨a, s, node, steps', he, hs, -, -⟩ := h.inv
  cases hs with
  | dotWildcard | name _ _ => exact .inl (List.cons.inj he).1
  | wildcard | index _ _ | negative _ _ | quoted _ _ => exact .inr (List.cons.inj he).1

theorem pathText_dotWildcard : PathText (Ch.dot :: Ch.star :: t) steps ↔
    ∃ steps', steps = .wildcard :: steps' ∧ PathText t steps' := by
  constructor
  · intro h
    obtain ⟨a, s, node, steps', he, hs, h', rfl⟩ := h.inv
    cases hs with
    | dotWildcard =>
      obtain rfl : t = s := by simpa using he
      exact ⟨_, rfl, h'⟩
    | name h1 _ => exact absurd (by simpa using he : Ch.star = _ ∧ t = _).1.symm h1
    | wildcard | index _ _ | negative _ _ | quoted _ _ => exact absurd (List.cons.inj he).1 (by decide)
  · rintro ⟨steps', rfl, h⟩
    exact .cons (a := [Ch.dot, Ch.star]) .dotWildcard h

/-- A name goes on to the next dot or bracket. -/
theorem pathText_name (hb : ∀ r, t ≠ Ch.star :: r) : PathText (Ch.dot :: t) steps ↔
    t.takeWhile (fun b => b != Ch.dot && b != Ch.lbrack) ≠ [] ∧
      ∃ steps', steps = .key (t.takeWhile fun b => b != Ch.dot && b != Ch.lbrack) :: steps' ∧
        PathText (t.dropWhile fun b => b != Ch.dot && b != Ch.lbrack) steps' := by
  constructor
  · intro h
    obtain ⟨a, s, node, steps', he, hs, h', rfl⟩ := h.inv
    cases hs with
    | dotWildcard => exact absurd (by simpa using he) (hb s)
    | @name c r h1 h2 =>
      obtain rfl : t = (c :: r) ++ s := by simpa using he
      have hall : ∀ x ∈ c :: r, (x != Ch.dot && x != Ch.lbrack) = true :=
        fun x hx => by simpa using h2 x hx
      have hstop : s.takeWhile (fun b => b != Ch.dot && b != Ch.lbrack) = [] ∧
          s.dropWhile (fun b => b != Ch.dot && b != Ch.lbrack) = s := by
        cases s with
        | nil => exact ⟨rfl, rfl⟩
        | cons d s =>
          have hd : (d != Ch.dot && d != Ch.lbrack) = false := by
            rcases h'.head with rfl | rfl <;> decide
          exact ⟨by rw [List.takeWhile_cons, if_neg (by simp [hd])],
            by rw [List.dropWhile_cons, if_neg (by simp [hd])]⟩
      rw [List.takeWhile_append_of_pos hall, List.dropWhile_append_of_pos hall, hstop.1, hstop.2,
        List.append_nil]
      exact ⟨List.cons_ne_nil _ _, steps', rfl, h'⟩
    | wildcard | index _ _ | negative _ _ | quoted _ _ => exact absurd (List.cons.inj he).1 (by decide)
  · rintro ⟨hne, steps', rfl, h⟩
    have hsplit :=
      List.takeWhile_append_dropWhile (p := fun b => b != Ch.dot && b != Ch.lbrack) (l := t)
    have hall : ∀ x ∈ t.takeWhile (fun b => b != Ch.dot && b != Ch.lbrack), x ≠ Ch.dot ∧
        x ≠ Ch.lbrack := fun x hx => by
      simpa using List.mem_takeWhile_imp hx
    obtain ⟨c, r, hcr⟩ := List.exists_cons_of_ne_nil hne
    rw [hcr] at hsplit hall ⊢
    have hstar : c ≠ Ch.star := fun hc => hb _ (by rw [← hsplit, hc, List.cons_append])
    have := PathText.cons (.name hstar hall) h
    rwa [List.cons_append, hsplit] at this

theorem pathText_wildcard : PathText (Ch.lbrack :: Ch.star :: t) steps ↔
    ∃ r steps', t = Ch.rbrack :: r ∧ steps = .wildcard :: steps' ∧ PathText r steps' := by
  constructor
  · intro h
    obtain ⟨a, s, node, steps', he, hs, h', rfl⟩ := h.inv
    cases hs with
    | dotWildcard | name _ _ => exact absurd (List.cons.inj he).1 (by decide)
    | wildcard => exact ⟨s, _, by simpa using he, rfl, h'⟩
    | index h1 _ =>
      -- a digit is no star
      obtain ⟨d, ds, rfl⟩ := List.exists_cons_of_ne_nil (intPart_ne_nil h1)
      have := h1.digits d List.mem_cons_self
      rw [← (List.cons.inj (List.cons.inj he).2).1] at this
      exact absurd this (by decide)
    | negative _ _ => exact absurd (List.cons.inj (List.cons.inj he).2).1 (by decide)
    | quoted h1 _ =>
      rw [← (List.cons.inj (List.cons.inj he).2).1] at h1
      exact absurd h1 (by decide)
  · rintro ⟨r, steps', rfl, rfl, h⟩
    exact .cons (a := [Ch.lbrack, Ch.star, Ch.rbrack]) .wildcard h

theorem pathText_quoted {q : UInt8} (hq : q = Ch.apos ∨ q = Ch.quote) :
    PathText (Ch.lbrack :: q :: t) steps ↔
    ∃ k r steps', NameBody q t k (Ch.rbrack :: r) ∧ steps = .key k :: steps' ∧ PathText r steps' := by
  constructor
  · intro h
    obtain ⟨a, s, node, steps', he, hs, h', rfl⟩ := h.inv
    cases hs with
    | dotWildcard | name _ _ => exact absurd (List.cons.inj he).1 (by decide)
    | wildcard =>
      rw [(List.cons.inj (List.cons.inj he).2).1] at hq
      exact absurd hq (by decide)
    | index h1 _ =>
      obtain ⟨d, ds, rfl⟩ := List.exists_cons_of_ne_nil (intPart_ne_nil h1)
      have := h1.digits d List.mem_cons_self
      rw [← (List.cons.inj (List.cons.inj he).2).1] at this
      rcases hq with rfl | rfl <;> exact absurd this (by decide)
    | negative _ _ =>
      rw [(List.cons.inj (List.cons.inj he).2).1] at hq
      exact absurd hq (by decide)
    | @quoted q' body k h1 h2 =>
      obtain ⟨rfl, rfl⟩ : q = q' ∧ t = body ++ (Ch.rbrack :: s) := by simpa using he
      exact ⟨k, s, steps', by simpa using h2.append (Ch.rbrack :: s), rfl, h'⟩
  · rintro ⟨k, r, steps', h1, rfl, h⟩
    obtain ⟨body, rfl, h2⟩ := h1.split
    have := PathText.cons (.quoted hq h2) h
    simpa using this

theorem pathText_index (hb : is_digit b = true ∨ b = Ch.minus) : PathText (Ch.lbrack :: b :: t) steps ↔
    ∃ ds r steps' i, IntPart ds ∧ decimal ds ≤ kInt64Max ∧ steps = .index i :: steps' ∧
      PathText r steps' ∧
      ((b :: t = ds ++ Ch.rbrack :: r ∧ i = decimal ds) ∨
        (b :: t = Ch.minus :: (ds ++ Ch.rbrack :: r) ∧ i = -(decimal ds : ℤ))) := by
  constructor
  · intro h
    obtain ⟨a, s, node, steps', he, hs, h', rfl⟩ := h.inv
    cases hs with
    | dotWildcard | name _ _ => exact absurd (List.cons.inj he).1 (by decide)
    | wildcard =>
      rw [(List.cons.inj (List.cons.inj he).2).1] at hb
      exact absurd hb (by decide)
    | @index ds h1 h2 => exact ⟨ds, s, steps', _, h1, h2, rfl, h', .inl ⟨by simpa using he, rfl⟩⟩
    | @negative ds h1 h2 => exact ⟨ds, s, steps', _, h1, h2, rfl, h', .inr ⟨by simpa using he, rfl⟩⟩
    | quoted h1 _ =>
      rw [← (List.cons.inj (List.cons.inj he).2).1] at h1
      rcases h1 with rfl | rfl <;> exact absurd hb (by decide)
  · rintro ⟨ds, r, steps', i, h1, h2, rfl, h, ⟨he, rfl⟩ | ⟨he, rfl⟩⟩
    · rw [he]
      simpa using PathText.cons (.index h1 h2) h
    · rw [he]
      simpa using PathText.cons (.negative h1 h2) h

/-- No other steps are in brackets. -/
theorem not_pathText_bracket (h1 : b ≠ Ch.star) (h2 : ¬ (b = Ch.apos ∨ b = Ch.quote))
    (h3 : ¬ (is_digit b = true ∨ b = Ch.minus)) :
    ¬ PathText (Ch.lbrack :: b :: t) steps := by
  intro h
  obtain ⟨a, s, node, steps', he, hs, -, -⟩ := h.inv
  cases hs with
  | dotWildcard | name _ _ => exact absurd (List.cons.inj he).1 (by decide)
  | wildcard => exact h1 (List.cons.inj (List.cons.inj he).2).1
  | index h4 _ =>
    obtain ⟨d, ds, rfl⟩ := List.exists_cons_of_ne_nil (intPart_ne_nil h4)
    have := h4.digits d List.mem_cons_self
    rw [← (List.cons.inj (List.cons.inj he).2).1] at this
    exact h3 (.inl this)
  | negative _ _ => exact h3 (.inr (List.cons.inj (List.cons.inj he).2).1)
  | quoted h4 _ =>
    rw [← (List.cons.inj (List.cons.inj he).2).1] at h4
    exact h2 h4

theorem not_pathText_lbrack : ¬ PathText [Ch.lbrack] steps := by
  intro h
  obtain ⟨a, s, node, steps', he, hs, -, -⟩ := h.inv
  cases hs <;> simp at he

end

/-! ### The loop -/

/-- What the loop comes to at `i`, where the path has `t` left: it accepts the sequences of steps,
and the views of their nodes come behind those there were. -/
def Walked (i : ℕ) (buf : Bytes) (nodes : List NodeView) (t : Bytes)
    (r : Option (Bool × Bytes × List NodeView)) : Prop :=
  ∃ ok buf' nodes', r = some (ok, buf', nodes') ∧ (ok = true ↔ ∃ steps, PathText t steps) ∧
    (ok = true → buf'.take i = buf.take i) ∧
    ∀ steps, PathText t steps → ∃ views, nodes' = nodes ++ views ∧ views.map (·.node buf') = steps

section
variable {i j n : ℕ} {buf buf₁ t t' : Bytes} {nodes : List NodeView}
    {r : Option (Bool × Bytes × List NodeView)}

/-- A step that is read, its view being behind the others. -/
theorem Walked.step {v : NodeView} {node : JsonPathNode} (h : Walked j buf₁ (nodes ++ [v]) t' r)
    (hij : i ≤ j) (hbuf : buf₁.take i = buf.take i)
    (hv : ∀ buf', buf'.take j = buf₁.take j → v.node buf' = node)
    (hiff : ∀ steps, PathText t steps ↔ ∃ steps', steps = node :: steps' ∧ PathText t' steps') :
    Walked i buf nodes t r := by
  obtain ⟨ok, buf', nodes', rfl, h1, h2, h3⟩ := h
  have hok : ok = true ↔ ∃ steps, PathText t steps := by
    rw [h1]
    constructor
    · rintro ⟨steps, h⟩
      exact ⟨_, (hiff _).mpr ⟨steps, rfl, h⟩⟩
    · rintro ⟨steps, h⟩
      obtain ⟨steps', -, h⟩ := (hiff _).mp h
      exact ⟨_, h⟩
  refine ⟨ok, buf', nodes', rfl, hok, fun ho => ?_, fun steps h => ?_⟩
  · calc buf'.take i = (buf'.take j).take i := by rw [List.take_take, Nat.min_eq_left hij]
      _ = (buf₁.take j).take i := by rw [h2 ho]
      _ = buf.take i := by rw [List.take_take, Nat.min_eq_left hij, hbuf]
  · obtain ⟨steps', rfl, h'⟩ := (hiff _).mp h
    obtain ⟨views, rfl, h4⟩ := h3 _ h'
    exact ⟨v :: views, by simp, by rw [List.map_cons, h4, hv _ (h2 (hok.mpr ⟨_, h⟩))]⟩

theorem Walked.failed {nodes' : List NodeView} (h : ∀ steps, ¬ PathText t steps) :
    Walked i buf nodes t (some (false, buf₁, nodes')) :=
  ⟨_, _, _, rfl, iff_of_false (by decide) (fun ⟨_, hs⟩ => h _ hs), nofun, fun _ hs => absurd hs (h _)⟩

/-- A view below a position is what it was, where the buffer is. -/
theorem node_key {buf buf' k : Bytes} {start j : ℕ} (hk : slice buf start (start + k.length) = k)
    (hj : start + k.length ≤ j) (h : buf'.take j = buf.take j) :
    (NodeView.key start k.length).node buf' = .key k := by
  have hcut : ∀ d : Bytes, slice d start (start + k.length) =
      slice (d.take j) start (start + k.length) := fun d => by
    rw [slice, slice, List.drop_take, List.take_take]
    congr 1
    omega
  rw [NodeView.node, hcut, h, ← hcut, hk]

/-- What `parseQuotedName` reads: a name, its quote and a bracket. -/
theorem parseQuotedName_spec {q : UInt8} (hq : q = Ch.apos ∨ q = Ch.quote) (h : On buf n i (q :: t)) :
    ∃ r buf₁, parseQuotedName buf n i = some (r, buf₁) ∧
      ((r = none ∧ ∀ k u, ¬ NameBody q t k (Ch.rbrack :: u)) ∨
        ∃ k u j, r = some (.key (i + 1) k.length, j) ∧ On buf₁ n j u ∧
          slice buf₁ (i + 1) (i + 1 + k.length) = k ∧
          i + 1 + k.length ≤ j ∧ buf₁.take i = buf.take i ∧
            ∀ k' u', NameBody q t k' (Ch.rbrack :: u') ↔ k' = k ∧ u' = u) := by
  have hlen := h.len
  simp only [List.length_cons] at hlen
  rw [parseQuotedName, if_neg (by have := h.lt; omega), h.rd, if_neg (by
    push Not
    exact fun h1 => hq.resolve_left h1)]
  dsimp only
  cases t with
  | nil =>
    rw [if_pos (by simp only [List.length_nil] at hlen; omega)]
    exact ⟨_, _, rfl, .inl ⟨rfl, fun _ _ => nameBody_nil⟩⟩
  | cons c s =>
    rw [if_neg (by simp only [List.length_cons] at hlen; omega)]
    have hat := h.succ.at'
    have hpre : (buf.take (i + 1)).length = i + 1 := List.length_take_of_le hat.le
    have hm : Mid buf (i + 1) (i + 1) (buf.take (i + 1)) [] [] ((c :: s) ++ List.replicate 8 0) := by
      refine ⟨?_, by simp [hpre], by simp [hpre]⟩
      rw [List.nil_append, List.nil_append, ← hat.drop, List.take_append_drop]
    obtain ⟨ok, buf₁, src, dst, he, hcase⟩ := nameLoop_spec hq (n + 1) hm (by omega)
      (show n = i + 1 + (c :: s).length by omega)
    rw [he, Option.map_some]
    dsimp only
    rcases hcase with ⟨k, u, junk, h1, rfl, h3, h4⟩ | ⟨h1, h2⟩
    · have hdst := h4.dst_eq
      have hsrc := h4.src_eq
      rw [List.nil_append, hpre] at hdst hsrc
      have hon : On buf₁ n (src + 1) u := ⟨h4.at.succ, by omega⟩
      have htake : buf₁.take (i + 1) = buf.take (i + 1) := by
        have := congrArg (List.take (buf.take (i + 1)).length) h4.buf_eq
        rwa [List.take_left, hpre] at this
      have hk : slice buf₁ (i + 1) (i + 1 + k.length) = k := by
        have := congrArg (fun l => (l.drop (buf.take (i + 1)).length).take k.length) h4.buf_eq
        simp only [List.drop_left, List.nil_append, List.take_left] at this
        rwa [hpre, show k.length = i + 1 + k.length - (i + 1) by omega] at this
      simp only [Bool.not_true, Bool.false_eq_true, if_false]
      rw [if_neg (by omega)]
      by_cases hu : ∃ v, u = Ch.rbrack :: v
      · obtain ⟨v, rfl⟩ := hu
        rw [if_neg (fun hc => (hon.ne_iff.mp hc) ⟨v, rfl⟩), show dst - (i + 1) = k.length by omega]
        refine ⟨_, _, rfl, .inr ⟨k, v, src + 2, rfl, hon.succ, hk, by omega, ?_, fun k' u' => ?_⟩⟩
        · have := congrArg (List.take i) htake
          simpa [List.take_take] using this
        · rw [h1, List.cons.injEq]
          simp
      · rw [if_pos (hon.ne_iff.mpr hu)]
        exact ⟨_, _, rfl, .inl ⟨rfl, fun k' u' hn => hu ⟨u', ((h1 _ _).mp hn).2.symm⟩⟩⟩
    · cases ok with
      | false => exact ⟨_, _, rfl, .inl ⟨rfl, fun k u => h1 k _⟩⟩
      | true =>
        simp only [Bool.not_true, Bool.false_eq_true, if_false]
        rw [if_pos (h2 rfl)]
        exact ⟨_, _, rfl, .inl ⟨rfl, fun k u => h1 k _⟩⟩

/-- **A path is read** as the grammar has it, by induction on what the loop has left. -/
theorem pathLoop_spec : ∀ (fuel : ℕ) {buf t : Bytes} {i : ℕ} {nodes : List NodeView}, On buf n i t →
    t.length < fuel →
    Walked i buf nodes t (pathLoop n fuel buf i nodes)
  | 0, _, _, _, _, _, hf => absurd hf (Nat.not_lt_zero _)
  | fuel + 1, buf, [], i, nodes, h, _ => by
    have hlen := h.len
    simp only [List.length_nil] at hlen
    rw [pathLoop, if_neg (by omega)]
    refine ⟨_, _, _, rfl, iff_of_true rfl ⟨[], .nil⟩, fun _ => rfl, fun steps hs => ⟨[], by simp, ?_⟩⟩
    rw [pathText_nil.mp hs]
    rfl
  | fuel + 1, buf, b :: t, i, nodes, h, hf => by
    have hlen := h.len
    simp only [List.length_cons] at hf hlen
    rw [pathLoop, if_pos h.lt, h.rd]
    dsimp only
    by_cases hdot : b = Ch.dot
    · subst hdot
      cases t with
      | nil =>
        simp only [List.length_nil] at hlen
        rw [if_neg (by omega), if_pos rfl, if_pos (by omega)]
        exact .failed fun steps hs => ((pathText_name (by simp)).mp hs).1 rfl
      | cons c t =>
        simp only [List.length_cons] at hlen hf
        have hc : rd buf (i + 1) = c := h.succ.rd
        rw [hc]
        by_cases hdd : c = Ch.dot
        · -- two dots
          subst hdd
          have hno : ∀ steps, ¬ PathText (Ch.dot :: Ch.dot :: t) steps := fun steps hs =>
            ((pathText_name (fun r hr => absurd (List.cons.inj hr).1 (by decide))).mp hs).1 rfl
          split
          · exact .failed hno
          have hnil :
            (List.takeWhile (fun b => b != Ch.dot && b != Ch.lbrack) (Ch.dot :: t)).length = 0 :=
            rfl
          rw [if_pos rfl, if_neg (by omega), if_neg (by decide), parseUnquotedKey, h.succ.slice,
            if_pos hnil]
          exact .failed hno
        rw [if_neg (fun hx => hdd hx.2.2), if_pos rfl, if_neg (by omega)]
        by_cases hstar : c = Ch.star
        · subst hstar
          rw [if_pos rfl]
          have hw : Walked _ _ (nodes ++ [.token WILDCARD]) _ _ :=
            pathLoop_spec fuel h.succ.succ (by omega)
          exact hw.step (by omega) rfl (fun _ _ => rfl) fun steps => pathText_dotWildcard
        rw [if_neg hstar, parseUnquotedKey, h.succ.slice]
        have hiff := fun steps => @pathText_name (c :: t) steps fun r hr => hstar (List.cons.inj hr).1
        by_cases hname : (c :: t).takeWhile (fun b => b != Ch.dot && b != Ch.lbrack) = []
        · rw [hname, if_pos List.length_nil]
          exact .failed fun steps hs => ((hiff steps).mp hs).1 hname
        · rw [if_neg (by simpa using hname)]
          have hsplit :=
            List.takeWhile_append_dropWhile (p := fun b => b != Ch.dot && b != Ch.lbrack)
            (l := c :: t)
          have hpos := List.length_pos_iff.mpr hname
          have hlen' := congrArg List.length hsplit
          generalize hk : (c :: t).takeWhile (fun b => b != Ch.dot && b != Ch.lbrack) = k at *
          generalize (c :: t).dropWhile (fun b => b != Ch.dot && b != Ch.lbrack) = u at *
          simp only [List.length_append, List.length_cons] at hlen'
          have hon : On buf n (i + 1 + k.length) u := On.append (by rw [hsplit]; exact h.succ)
          have hslice : slice buf (i + 1) (i + 1 + k.length) = k := by
            have hat := h.succ.at'
            rw [← hsplit, List.append_assoc] at hat
            rw [slice, hat.drop, Nat.add_sub_cancel_left, List.take_left]
          have hw : Walked _ _ (nodes ++ [.key (i + 1) k.length]) _ _ :=
            pathLoop_spec fuel hon (by omega)
          refine hw.step (by omega) rfl (fun buf' hb => node_key hslice le_rfl hb) fun steps => ?_
          rw [hiff]
          exact ⟨fun hs => hs.2, fun hs => ⟨hname, hs⟩⟩
    rw [if_neg (fun hx => hdot hx.2.1), if_neg hdot]
    by_cases hbrack : b = Ch.lbrack
    swap
    · rw [if_neg hbrack]
      exact .failed fun steps hs => hs.head.elim hdot hbrack
    subst hbrack
    rw [if_pos rfl]
    cases t with
    | nil =>
      simp only [List.length_nil] at hlen
      rw [if_pos (by omega)]
      exact .failed fun _ => not_pathText_lbrack
    | cons c t =>
      simp only [List.length_cons] at hlen hf
      have hc : rd buf (i + 1) = c := h.succ.rd
      rw [if_neg (by omega), hc]
      by_cases hstar : c = Ch.star
      · subst hstar
        rw [if_pos rfl]
        by_cases hclose : ∃ r, t = Ch.rbrack :: r
        · obtain ⟨r, rfl⟩ := hclose
          simp only [List.length_cons] at hlen hf
          rw [if_pos ⟨by omega, h.succ.succ.rd⟩]
          have hw : Walked _ _ (nodes ++ [.token WILDCARD]) _ _ :=
            pathLoop_spec fuel h.succ.succ.succ (by omega)
          refine hw.step (by omega) rfl (fun _ _ => rfl) fun steps => ?_
          rw [pathText_wildcard]
          constructor
          · rintro ⟨r', steps', hr, rfl, hs⟩
            obtain rfl := (List.cons.inj hr).2
            exact ⟨_, rfl, hs⟩
          · rintro ⟨steps', rfl, hs⟩
            exact ⟨r, steps', rfl, rfl, hs⟩
        · have hne := h.succ.succ.ne_iff.mpr hclose
          rw [if_neg (fun hx => hne.elim (fun h1 => by omega) fun h1 => h1 hx.2)]
          exact .failed fun steps hs => by
            obtain ⟨r, -, hr, -⟩ := pathText_wildcard.mp hs
            exact hclose ⟨r, hr⟩
      rw [if_neg hstar]
      by_cases hq : c = Ch.apos ∨ c = Ch.quote
      · rw [if_pos hq]
        obtain ⟨r, buf₁, he, hcase⟩ := parseQuotedName_spec hq h.succ
        rw [he, Option.bind_some]
        rcases hcase with ⟨rfl, hno⟩ | ⟨k, u, j, rfl, hon, hslice, hj, htake, hyes⟩
        · exact .failed fun steps hs => by
            obtain ⟨k, r, -, hk, -⟩ := (pathText_quoted hq).mp hs
            exact hno k r hk
        · have hu := hon.len
          have hw : Walked _ _ (nodes ++ [.key (i + 1 + 1) k.length]) _ _ :=
            pathLoop_spec fuel hon (by omega)
          have htake' : buf₁.take i = buf.take i := by
            have := congrArg (List.take i) htake
            simpa [List.take_take] using this
          refine hw.step (by omega) htake' (fun buf' hb => node_key hslice hj hb) fun steps => ?_
          rw [pathText_quoted hq]
          constructor
          · rintro ⟨k', r', steps', hk, rfl, hs⟩
            obtain ⟨rfl, rfl⟩ := (hyes _ _).mp hk
            exact ⟨_, rfl, hs⟩
          · rintro ⟨steps', rfl, hs⟩
            exact ⟨k, u, steps', (hyes _ _).mpr ⟨rfl, rfl⟩, rfl, hs⟩
      rw [if_neg hq]
      by_cases hd : is_digit c = true ∨ c = Ch.minus
      · rw [if_pos hd]
        have hiff := fun steps => @pathText_index t c steps hd
        cases hr : parseBracketedIndex buf n (i + 1) with
        | none =>
          refine .failed fun steps hs => ?_
          obtain ⟨ds, r, steps', v, h1, h2, -, -, h3⟩ := (hiff steps).mp hs
          obtain ⟨j, -, h4⟩ := parseBracketedIndex_of h.succ h1 h2 h3
          rw [hr] at h4
          exact Option.some_ne_none _ h4.symm
        | some p =>
          obtain ⟨v, j⟩ := p
          obtain ⟨ds, r, h1, h2, hon, h3⟩ := (parseBracketedIndex_iff h.succ).mp hr
          obtain ⟨v, rfl⟩ : ∃ v', v = .index v' := by
            rcases h3 with ⟨-, rfl⟩ | ⟨-, rfl⟩ <;> exact ⟨_, rfl⟩
          simp only [NodeView.index.injEq] at h3
          have hle : i ≤ j ∧ r.length < fuel := by
            have e1 := hon.len
            rcases h3 with ⟨h3, -⟩ | ⟨h3, -⟩ <;>
            · have e2 := congrArg List.length h3
              simp only [List.length_append, List.length_cons] at e2
              omega
          have hw : Walked _ _ (nodes ++ [.index v]) _ _ := pathLoop_spec fuel hon hle.2
          refine hw.step hle.1 rfl (fun _ _ => rfl) fun steps => ?_
          rw [hiff]
          constructor
          · rintro ⟨ds', r', steps', v', e1, e2, rfl, e3, e4⟩
            obtain ⟨j', hon', e5⟩ := parseBracketedIndex_of h.succ e1 e2 e4
            rw [hr, Option.some.injEq, Prod.mk.injEq, NodeView.index.injEq] at e5
            obtain ⟨rfl, rfl⟩ := e5
            obtain rfl : r = r' := by rw [← hon.slice, hon'.slice]
            exact ⟨_, rfl, e3⟩
          · rintro ⟨steps', rfl, e3⟩
            exact ⟨ds, r, steps', v, h1, h2, rfl, e3, h3⟩
      · rw [if_neg hd]
        exact .failed fun steps => not_pathText_bracket hstar hq hd

end

/-- What `Parse` comes to: an answer, and the root with the steps where it accepts. -/
theorem Parse_spec (path : Bytes) : ∃ ok nodes, Parse path = some (ok, nodes) ∧
    (ok = true ↔ ∃ t steps, path = ROOT :: t ∧ PathText t steps) ∧
    ∀ t steps, path = ROOT :: t → PathText t steps → nodes = .root :: steps := by
  unfold Parse ParsePaddedInternal
  cases path with
  | nil =>
    rw [if_pos (.inl rfl)]
    exact ⟨_, _, rfl, iff_of_false (by decide) (by rintro ⟨t, steps, h, -⟩; simp at h),
      fun t steps h => by simp at h⟩
  | cons b t =>
    have hon : On (paddingJsonPath (b :: t)) (b :: t).length 0 (b :: t) := ⟨at_zero _, Nat.zero_add _⟩
    by_cases hb : b = ROOT
    · subst hb
      rw [if_neg (by simp [hon.rd])]
      have hw : Walked _ _ [.token ROOT] _ _ :=
        pathLoop_spec ((ROOT :: t).length + 1) hon.succ (by simp only [List.length_cons]; omega)
      obtain ⟨ok, buf', nodes', he, h1, -, h2⟩ := hw
      rw [he]
      refine ⟨_, _, rfl, ?_, fun u steps hu hs => ?_⟩
      · rw [h1]
        constructor
        · rintro ⟨steps, hs⟩
          exact ⟨t, steps, rfl, hs⟩
        · rintro ⟨u, steps, hu, hs⟩
          obtain rfl := (List.cons.inj hu).2
          exact ⟨steps, hs⟩
      · obtain rfl := (List.cons.inj hu).2
        obtain ⟨views, rfl, hv⟩ := h2 steps hs
        rw [List.map_append, hv]
        rfl
    · rw [if_pos (.inr (by rw [hon.rd]; exact hb))]
      refine ⟨_, _, rfl, iff_of_false (by decide) ?_, fun u steps hu => absurd (List.cons.inj hu).1 hb⟩
      rintro ⟨u, steps, hu, -⟩
      exact hb (List.cons.inj hu).1

/-- **The parser of paths accepts its grammar.** On every text it comes to an answer without a read
outside of the text and its padding; it accepts the texts that are a `$` before steps of the
grammar, and its nodes are the root and those steps. -/
theorem Parse_iff (path : Bytes) : ∃ ok nodes, Parse path = some (ok, nodes) ∧
    (ok = true ↔ ∃ t steps, path = ROOT :: t ∧ PathText t steps) ∧
    ∀ t steps, path = ROOT :: t → PathText t steps → nodes = .root :: steps :=
  Parse_spec path

/-- The path of one step in brackets. -/
def bracketed (quoted : Bytes) : Bytes := ROOT :: Ch.lbrack :: (quoted ++ [Ch.rbrack])

/-- A string token in brackets is the step of its name. -/
theorem Parse_bracketed {w k : Bytes} (h : StrBody (w ++ [Ch.quote]) k []) :
    Parse (bracketed (Ch.quote :: (w ++ [Ch.quote]))) = some (true, [.root, .key k]) := by
  have hstep : PathText (Ch.lbrack :: (Ch.quote :: (w ++ [Ch.quote]) ++ [Ch.rbrack])) [.key k] := by
    simpa using PathText.cons (.quoted (.inr rfl) (nameBody_of_strBody h)) .nil
  obtain ⟨ok, nodes, he, h1, h2⟩ := Parse_spec (bracketed (Ch.quote :: (w ++ [Ch.quote])))
  rw [he, h1.mpr ⟨_, _, rfl, hstep⟩, h2 _ _ rfl hstep]

/-- **Every name can be addressed** by its quoted form, whichever quoter has written it behind what
the buffer holds. -/
theorem Parse_quoted (A : Arch) (direct : ℕ → Bool) (pre k post buf : Bytes) :
    Parse (bracketed (written buf.length
        (common.Quote kSerializeDefault (pre ++ (k ++ post)) pre.length k.length buf buf.length))) =
        some (true, [.root, .key k]) ∧
      Parse (bracketed (written buf.length
        (Quote kSerializeDefault (pre ++ (k ++ post)) A direct pre.length k.length buf buf.length))) =
        some (true, [.root, .key k]) := by
  have hmem : pre.length + k.length ≤ (pre ++ (k ++ post)).length := by
    simp only [List.length_append]
    omega
  have hk : slice (pre ++ (k ++ post)) pre.length (pre.length + k.length) = k := by
    rw [slice, List.drop_left, Nat.add_sub_cancel_left, List.take_left]
  have hbody : StrBody (quoted kSerializeDefault k ++ [Ch.quote]) k [] :=
    unescape_eq_ok_iff.mp (unescape_quoted_bytes rfl [] k)
  rw [(common.Quote_eq kSerializeDefault _ hmem le_rfl).2,
    (Quote_eq kSerializeDefault _ A direct hmem le_rfl).2, hk]
  exact ⟨Parse_bracketed hbody, Parse_bracketed hbody⟩

end JsonPath

end SonicJson
