/-
# Lazy parsing

`Parser::ParseLazy` reads one level of a text: the values are skipped, and the
handler gets their text (`Raw`). A name with escapes is copied to an allocated
buffer and decoded there, but without its closing quote: the decoder reads on in
what the allocation held before. So the handler gets the names of an object
whatever the allocations held exactly where no name has an escape
(`ParseLazy_decodes`).
-/
import SonicJson.Document
import SonicJson.Unambiguous

namespace SonicJson

open Cursor

/-- A handler of lazy parsing: what it answers and its next state. `Key` is told whether the name is
in an allocated buffer. -/
structure LazySAX (σ : Type*) where
  StartArray : σ → Bool × σ
  StartObject : σ → Bool × σ
  EndArray : ℕ → σ → Bool × σ
  EndObject : ℕ → σ → Bool × σ
  Key : Bytes → Bool → σ → Bool × σ
  Raw : Bytes → σ → Bool × σ

/-- An error and an offset. -/
structure ParseResult where
  err_ : SonicError
  off_ : ℕ
  deriving DecidableEq

/-- The locals of `parseLazyImpl`: the position, what the scanner remembers, how often `Malloc` was
called, the handler. -/
structure Lazy (σ : Type*) where
  pos : ℕ
  scan : SpaceBits
  mallocs : ℕ
  sax : σ

section
variable {σ : Type*} (A : Arch) (parseFlags : ParseFlags) (H : LazySAX σ)
    (Malloc : ℕ → Option (ℕ → UInt8)) (data : Bytes)
  (len : ℕ)

def Lazy.SkipSpaceSafe (st : Lazy σ) : UInt8 × Lazy σ :=
  let (c, pos, scan) := skip_space_safe data st.pos len st.scan
  (c, { st with pos := pos, scan := scan })

/-- `SkipOne` and `Raw` of what is skipped, or `skip_error` or the end of the parse by the handler. -/
def lazyRaw (st : Lazy σ) : Except ParseResult (Lazy σ) × σ :=
  match SkipOne A data st.pos len st.scan with
  | (.error e, pos, _) => (.error ⟨e, pos - 1⟩, st.sax)
  | (.ok start, pos, scan) =>
    let (ok, sax) := H.Raw (slice data start pos) st.sax
    if !ok then (.error ⟨.kSaxTermination, pos⟩, sax) else (.ok ⟨pos, scan, st.mallocs, sax⟩, sax)

/-- The name at `pos`, and whether it was allocated. The `n`-th call of `Malloc` returns null or the
address of a buffer that holds `Malloc n`. -/
def lazyKey (st : Lazy σ) : Except ParseResult (Bytes × Bool × Lazy σ) :=
  let src := st.pos
  let (skips, pos) := SkipString A data src len
  let sn := pos - 1 - src
  if skips = kUnclosed then .error ⟨.kParseErrorInvalidChar, 0⟩
  else if skips = kEscaped then
    match Malloc st.mallocs with
    | none => .error ⟨.kErrorNoMem, pos⟩
    | some garbage =>
      let dst := store ((List.range (sn + 32)).map garbage) 0 (slice data src (src + sn))
      let r := parseStringInplace A parseFlags.kParseAllowUnescapedControlChars dst 0
      if r.err ≠ .kErrorNone then .error ⟨r.err, 0⟩
      else .ok (r.buf.take r.n, true, { st with pos := pos, mallocs := st.mallocs + 1 })
  else .ok (slice data src (src + sn), false, { st with pos := pos })

/-- The end of the parse: what it returns, and the handler. -/
abbrev LazyEnd (σ : Type*) := ParseResult × σ

/-- The label `obj_key`, after `cnt` members, with the byte before `pos`. The loop reads a byte in
each round: it does not run out (`none`) if it may run as often as there are bytes. -/
def lazyObjKey : ℕ → UInt8 → ℕ → Lazy σ → Option (LazyEnd σ)
  | 0, _, _, _ => none
  | fuel + 1, c, cnt, st =>
    if c ≠ Ch.quote then some (⟨.kParseErrorInvalidChar, st.pos - 1⟩, st.sax)
    else match lazyKey A parseFlags Malloc data len st with
    | .error e => some (e, st.sax)
    | .ok (key, allocated, st) =>
      let (ok, sax) := H.Key key allocated st.sax
      if !ok then some (⟨.kSaxTermination, st.pos⟩, sax)
      else
        let (c, st) := Lazy.SkipSpaceSafe data len { st with sax := sax }
        if c ≠ Ch.colon then some (⟨.kParseErrorInvalidChar, st.pos - 1⟩, st.sax)
        else match lazyRaw A H data len st with
        | (.error e, sax) => some (e, sax)
        | (.ok st, _) =>
          let (c, st) := Lazy.SkipSpaceSafe data len st
          if c = Ch.comma then
            let (c, st) := Lazy.SkipSpaceSafe data len st
            lazyObjKey fuel c (cnt + 1) st
          else if c ≠ Ch.rbrace then some (⟨.kParseErrorInvalidChar, st.pos - 1⟩, st.sax)
          else
            let (ok, sax) := H.EndObject (cnt + 1) st.sax
            some (if !ok then ⟨.kSaxTermination, st.pos⟩ else ⟨.kErrorNone, 0⟩, sax)

/-- The label `arr_val`, after `cnt` elements. -/
def lazyArrVal : ℕ → ℕ → Lazy σ → Option (LazyEnd σ)
  | 0, _, _ => none
  | fuel + 1, cnt, st =>
    match lazyRaw A H data len st with
    | (.error e, sax) => some (e, sax)
    | (.ok st, _) =>
      let (c, st) := Lazy.SkipSpaceSafe data len st
      if c = Ch.comma then lazyArrVal fuel (cnt + 1) st
      else if c ≠ Ch.rbrack then some (⟨.kParseErrorInvalidChar, st.pos - 1⟩, st.sax)
      else
        let (ok, sax) := H.EndArray (cnt + 1) st.sax
        some (if !ok then ⟨.kSaxTermination, st.pos⟩ else ⟨.kErrorNone, 0⟩, sax)

/-- `ParseLazy` with the scanner of a new parser. -/
def ParseLazy (sax : σ) : Option (LazyEnd σ) :=
  let (c, st) := Lazy.SkipSpaceSafe data len ⟨0, .init, 0, sax⟩
  if c = Ch.lbrack then
    let (ok, sax) := H.StartArray st.sax
    if !ok then some (⟨.kSaxTermination, st.pos⟩, sax)
    else
      let (c, st) := Lazy.SkipSpaceSafe data len { st with sax := sax }
      if c = Ch.rbrack then
        let (ok, sax) := H.EndArray 0 st.sax
        some (if !ok then ⟨.kSaxTermination, st.pos⟩ else ⟨.kErrorNone, 0⟩, sax)
      else lazyArrVal A H data len (len + 1) 0 { st with pos := st.pos - 1 }
  else if c = Ch.lbrace then
    let (ok, sax) := H.StartObject st.sax
    if !ok then some (⟨.kSaxTermination, st.pos⟩, sax)
    else
      let (c, st) := Lazy.SkipSpaceSafe data len { st with sax := sax }
      if c = Ch.rbrace then
        let (ok, sax) := H.EndObject 0 st.sax
        some (if !ok then ⟨.kSaxTermination, st.pos⟩ else ⟨.kErrorNone, 0⟩, sax)
      else lazyObjKey A parseFlags H Malloc data len (len + 1) c 0 st
  else
    some (match lazyRaw A H data len { st with pos := st.pos - 1 } with
      | (.error e, sax) => (e, sax)
      | (.ok st, _) => (⟨.kErrorNone, 0⟩, st.sax))

end

/-! ### What the handler is told -/

inductive LazyEvent
  | StartArray
  | StartObject
  | EndArray (count : ℕ)
  | EndObject (pairs : ℕ)
  | Key (key : Bytes) (allocated : Bool)
  | Raw (json : Bytes)
  deriving DecidableEq

/-- A handler that accepts everything and keeps what it is told. -/
def lazyRecorder : LazySAX (List LazyEvent) where
  StartArray es := (true, es ++ [.StartArray])
  StartObject es := (true, es ++ [.StartObject])
  EndArray n es := (true, es ++ [.EndArray n])
  EndObject n es := (true, es ++ [.EndObject n])
  Key k a es := (true, es ++ [.Key k a])
  Raw s es := (true, es ++ [.Raw s])

/-! ### Members with their names as written -/

/-- The members of an object with the text of their names, up to the closing brace before `t`. -/
inductive Named : Bytes → List (Bytes × Bytes × Json) → Bytes → Prop
  | last {s a k s₂ s₃ s₄ s₅ v t} : Ws s (Ch.quote :: (a ++ Ch.quote :: s₂)) →
    StrBody (a ++ Ch.quote :: s₂) k s₂ →
      Ws s₂ (Ch.colon :: s₃) → Ws s₃ s₄ → Der s₄ (.val v) s₅ → Ws s₅ (Ch.rbrace :: t) →
        Named s [(a, k, v)] t
  | cons {s a k s₂ s₃ s₄ s₅ s₆ v l t} : Ws s (Ch.quote :: (a ++ Ch.quote :: s₂)) →
    StrBody (a ++ Ch.quote :: s₂) k s₂ →
      Ws s₂ (Ch.colon :: s₃) → Ws s₃ s₄ → Der s₄ (.val v) s₅ → Ws s₅ (Ch.comma :: s₆) → Named s₆ l t →
      Named s ((a, k, v) :: l) t

theorem Named.der {s t : Bytes} {l : List (Bytes × Bytes × Json)} (h : Named s l t) :
    Der s (.mems (l.map Prod.snd)) (Ch.rbrace :: t) := by
  induction h with
  | last hw hk h2 h3 hd h4 => exact .memLast hw hk h2 h3 hd h4
  | cons hw hk h2 h3 hd h4 _ ih => exact .memCons hw hk h2 h3 hd h4 ih

theorem Der.named : ∀ {ms : List (Bytes × Json)} {s t : Bytes}, Der s (.mems ms) (Ch.rbrace :: t) →
    ∃ l, Named s l t ∧ l.map Prod.snd = ms
  | [], _, _, h => by cases h
  | _ :: ms, s, t, h => by
    cases h with
    | memLast hw hk h2 h3 hd h4 =>
      obtain ⟨a, rfl⟩ := hk.ends
      exact ⟨_, .last hw hk h2 h3 hd h4, rfl⟩
    | memCons hw hk h2 h3 hd h4 hr =>
      obtain ⟨a, rfl⟩ := hk.ends
      obtain ⟨l, hl, rfl⟩ := hr.named
      exact ⟨_, .cons hw hk h2 h3 hd h4 hl, rfl⟩

/-- No name of an object text has an escape. -/
def PlainNames (json : Bytes) : Prop :=
  ∀ s l t, Ws json (Ch.lbrace :: s) → Named s l t → ∀ m ∈ l, Ch.bslash ∉ m.1

/-- `raw` is the text of an object that is the value of a member. -/
inductive ValueIn : Bytes → Bytes → Prop
  | here {s s₁ s₂ s₃ raw k ms t} : Ws s (Ch.quote :: s₁) → StrBody s₁ k s₂ →
    Ws s₂ (Ch.colon :: s₃) → Ws s₃ (raw ++ t) →
      Der (raw ++ t) (.val (.obj ms)) t → ValueIn s raw
  | later {s s₁ s₂ s₃ s₄ s₅ s₆ raw k v} : Ws s (Ch.quote :: s₁) → StrBody s₁ k s₂ →
    Ws s₂ (Ch.colon :: s₃) → Ws s₃ s₄ →
      Der s₄ (.val v) s₅ → Ws s₅ (Ch.comma :: s₆) → ValueIn s₆ raw → ValueIn s raw

/-- `raw` is the text of an object in a member of an object text. -/
def MemberText (json raw : Bytes) : Prop := ∃ s, Ws json (Ch.lbrace :: s) ∧ ValueIn s raw

/-! ### A level of a text -/

/-- An event for a handler. -/
def LazySAX.tell {σ : Type*} (H : LazySAX σ) : LazyEvent → σ → Option σ
  | .StartArray, s => accept (H.StartArray s)
  | .StartObject, s => accept (H.StartObject s)
  | .EndArray n, s => accept (H.EndArray n s)
  | .EndObject n, s => accept (H.EndObject n s)
  | .Key k a, s => accept (H.Key k a s)
  | .Raw r, s => accept (H.Raw r s)

/-- The state of a handler that accepts the events; `none` where it does not. -/
def LazySAX.tells {σ : Type*} (H : LazySAX σ) : List LazyEvent → σ → Option σ
  | [], s => some s
  | e :: es, s => (H.tell e s).bind (tells H es)

theorem LazySAX.tells_cons {σ : Type*} {H : LazySAX σ} {e : LazyEvent} {es : List LazyEvent} {s s' : σ}
    (h : H.tells (e :: es) s = some s') : ∃ s₁, H.tell e s = some s₁ ∧ H.tells es s₁ = some s' :=
  Option.bind_eq_some_iff.mp h

theorem accept_pair {σ : Type*} {r : Bool × σ} {s : σ} (h : accept r = some s) : r = (true, s) :=
  Prod.ext (accept_eq_some.mp h).1 (accept_eq_some.mp h).2

theorem lazyRecorder_tells : ∀ es es₀ : List LazyEvent, lazyRecorder.tells es es₀ = some (es₀ ++ es)
  | [], es₀ => by rw [LazySAX.tells, List.append_nil]
  | e :: es, es₀ => by
    have h : lazyRecorder.tell e es₀ = some (es₀ ++ [e]) := by cases e <;> rfl
    rw [LazySAX.tells, h, Option.bind_some, lazyRecorder_tells es, List.append_assoc,
      List.singleton_append]

/-- The events of members without escapes in their names: the name and the text of the value. -/
def memberEvents (ms : List (Bytes × Bytes)) : List LazyEvent :=
  ms.flatMap fun m => [.Key m.1 false, .Raw m.2]

section
variable {σ : Type*} {A : Arch} {parseFlags : ParseFlags} {H : LazySAX σ}
    {Malloc : ℕ → Option (ℕ → UInt8)} {data : Bytes}
  {len : ℕ} {s s₀ t u : Bytes} {st : Lazy σ}

theorem Lazy.SkipSpaceSafe_eq {pos : ℕ} {k : SpaceBits} {b : UInt8} (h : Scan data len pos k s)
    (hs : Ws s (b :: t)) (hb : IsSpace b = false) :
    ∃ p k', Scan data len p k' t ∧ ∀ n (sax : σ), Lazy.SkipSpaceSafe data len ⟨pos, k, n, sax⟩ =
      (b, ⟨p, k', n, sax⟩) := by
  obtain ⟨p, k', h1, h2, -⟩ := h.skip_space (hs.dropWhile_eq hb)
  refine ⟨p, k', h2, fun n sax => ?_⟩
  simp only [Lazy.SkipSpaceSafe, h1]

/-- The text of a value, with whitespace behind it, that is no longer than what it comes from. -/
def RawOf (s raw : Bytes) (v : Json) : Prop := (∃ w, Der raw (.val v) w ∧ Ws w []) ∧
    raw.length ≤ s.length

/-- No byte of a name is one that is escaped. -/
def Verbatim (name : Bytes) : Prop := ∀ b ∈ name, 0x20 ≤ b ∧ b ≠ Ch.quote ∧ b ≠ Ch.bslash

/-- The bytes of a member whose name is written as it is, with the byte that ends the member. -/
def memberSize (e : Bytes × Bytes) : ℕ := e.1.length + e.2.length + 4

/-- What the handler is told of a member behind `s`. -/
structure MemberOf (s k : Bytes) (v : Json) (e : Bytes × Bytes) : Prop where
  name : e.1 = k
  verbatim : Verbatim e.1
  raw : RawOf s e.2 v
  value : ∀ ms, v = .obj ms → ValueIn s e.2

theorem MemberOf.later {s s₁ s₂ s₃ s₄ s₅ s₆ k k' : Bytes} {v v' : Json} {e : Bytes × Bytes}
    (hw : Ws s (Ch.quote :: s₁)) (hk : StrBody s₁ k s₂) (h2 : Ws s₂ (Ch.colon :: s₃))
    (h3 : Ws s₃ s₄) (hd : Der s₄ (.val v) s₅) (h4 : Ws s₅ (Ch.comma :: s₆))
    (h : MemberOf s₆ k' v' e) : MemberOf s k' v' e := by
  refine ⟨h.name, h.verbatim, ⟨h.raw.1, h.raw.2.trans ?_⟩,
    fun ms hv => .later hw hk h2 h3 hd h4 (h.value ms hv)⟩
  have l1 := hw.suffix.length_le
  have l2 := hk.suffix.2
  have l3 := h2.suffix.length_le
  have l4 := h3.suffix.length_le
  have l5 := hd.suffix.2
  have l6 := h4.suffix.length_le
  simp only [List.length_cons] at l1 l3 l6
  omega

/-- A value is skipped, and the handler gets its text. -/
theorem lazyRaw_eq {pos : ℕ} {k : SpaceBits} {v : Json} (h : Scan data len pos k s₀) (hw : Ws s₀ s)
    (hd : Der s (.val v) t) (hn : Next t u) :
    ∃ raw p k' t', (RawOf s raw v ∧ ∀ ms, v = .obj ms → s = raw ++ t) ∧ Scan data len p k' t' ∧
      Ws t' u ∧
      raw.length + t'.length = s.length ∧ ∀ n sax sax', H.tell (.Raw raw) sax = some sax' →
        lazyRaw A H data len ⟨pos, k, n, sax⟩ = (.ok ⟨p, k', n, sax'⟩, sax') := by
  obtain ⟨start, p, k', t', h1, h2, -, h3, hs, ht', h4⟩ := SkipOne_raw A h hw hd hn
  have hle : (slice data start p).length ≤ s.length := by
    rw [hs, List.length_append]
    exact Nat.le_add_right _ _
  refine ⟨_, p, k', t', ⟨⟨h4, hle⟩, fun ms hv => ?_⟩, h2, h3, by rw [← List.length_append, ← hs],
    fun n sax sax' hr => ?_⟩
  · rcases ht' with rfl | ⟨tok, htok⟩
    · exact hs
    · rw [hv] at htok
      cases htok
  have hraw : H.Raw (slice data start p) sax = (true, sax') := accept_pair hr
  simp only [lazyRaw, h1, hraw]
  rfl

/-- A name without escapes. -/
theorem lazyKey_plain {a k : Bytes} (h : Scan data len st.pos st.scan (a ++ Ch.quote :: t))
    (hk : StrBody (a ++ Ch.quote :: t) k t) (ha : Ch.bslash ∉ a) :
    lazyKey A parseFlags Malloc data len st = .ok (k, false, { st with pos := len - t.length }) := by
  obtain ⟨rfl, hq⟩ := hk.plain rfl ha
  have hl := h.left.length_add
  simp only [List.length_append, List.length_cons] at hl
  have hspec := @SkipString_spec A data len st.pos _ h.left
  rw [strEnd_strBody hk] at hspec
  have hst := SkipString_plain (A := A) h.left hq ha
  have hsn : len - t.length - 1 - st.pos = k.length := by omega
  unfold lazyKey
  simp only [hst, hspec.2, hsn]
  rw [if_neg (by decide), if_neg (by decide), slice_of_left h.left]

/-- A name with escapes, where the allocation held zeros: the decoder does not find the end. -/
theorem lazyKey_escaped {a k : Bytes} (h : Scan data len st.pos st.scan (a ++ Ch.quote :: t))
    (hk : StrBody (a ++ Ch.quote :: t) k t) (ha : Ch.bslash ∈ a) :
    ∃ e, lazyKey A kParseDefault (fun _ => some fun _ => 0) data len st = .error e ∧
      e.err_ ≠ .kErrorNone := by
  have hl := h.left.length_add
  simp only [List.length_append, List.length_cons] at hl
  have hspec := @SkipString_spec A data len st.pos _ h.left
  rw [strEnd_strBody hk] at hspec
  obtain ⟨hst, hpos⟩ := hspec
  have hst : (SkipString A data st.pos len).1 = kEscaped := by
    rcases hst with hst | ⟨-, -, b, he, hb⟩
    · exact hst
    · obtain rfl := List.append_cancel_right he
      exact absurd ha hb
  have hsn : len - t.length - 1 - st.pos = a.length := by omega
  have hdst : store ((List.range (a.length + 32)).map fun _ => (0 : UInt8)) 0 a =
      a ++ 0 :: List.replicate 31 0 := by
    simp only [List.map_const', List.length_range, store, List.take_zero, List.nil_append, Nat.zero_add,
      List.drop_replicate]
    rw [show a.length + 32 - a.length = 31 + 1 by omega, List.replicate_succ]
  have hbad : unescape false (a ++ 0 :: List.replicate 31 0) = .error .kParseErrorUnEscaped := by
    rw [hk.reopen rfl, unescape_control (by decide) (by decide)]
    rfl
  have herr := parseStringInplace_error A (at_zero _) hbad (by decide)
  rw [← hdst] at herr
  refine ⟨⟨_, 0⟩, ?_, herr⟩
  unfold lazyKey
  simp only [hst, hpos, hsn, slice_of_left h.left]
  rw [if_neg (by decide), if_pos trivial]
  exact if_pos herr

/-- A round of the loop on a name without escapes. -/
theorem lazyObjKey_round {a k s₂ s₃ s₄ s₅ : Bytes} {v : Json} {fuel cnt pos : ℕ} {scan : SpaceBits}
    (h : Scan data len pos scan (a ++ Ch.quote :: s₂)) (hk : StrBody (a ++ Ch.quote :: s₂) k s₂)
    (ha : Ch.bslash ∉ a) (h2 : Ws s₂ (Ch.colon :: s₃)) (h3 : Ws s₃ s₄) (hd : Der s₄ (.val v) s₅)
    (hn : Next s₅ u) :
    ∃ raw p b t', (∀ s, Ws s (Ch.quote :: (a ++ Ch.quote :: s₂)) → MemberOf s k v (k, raw) ∧
        memberSize (k, raw) + u.length ≤ s.length + 1) ∧ Scan data len p b t' ∧ Ws t' u ∧
      ∀ n sax sax₁ sax₂, H.tell (.Key k false) sax = some sax₁ → H.tell (.Raw raw) sax₁ = some sax₂ →
        lazyObjKey A parseFlags H Malloc data len (fuel + 1) Ch.quote cnt ⟨pos, scan, n, sax⟩ =
          let (c, st) := Lazy.SkipSpaceSafe data len ⟨p, b, n, sax₂⟩
          if c = Ch.comma then
            let (c, st) := Lazy.SkipSpaceSafe data len st
            lazyObjKey A parseFlags H Malloc data len fuel c (cnt + 1) st
          else if c ≠ Ch.rbrace then some (⟨.kParseErrorInvalidChar, st.pos - 1⟩, st.sax)
          else
            let (ok, sax) := H.EndObject (cnt + 1) st.sax
            some (if !ok then ⟨.kSaxTermination, st.pos⟩ else ⟨.kErrorNone, 0⟩, sax) := by
  have hkey := fun n sax => @lazyKey_plain σ A parseFlags Malloc _ _ _ ⟨pos, scan, n, sax⟩ _ _ h hk ha
  have h' : Scan data len (len - s₂.length) scan s₂ := h.move (h.left.suffix hk.suffix.1) (by
    have h5 := h.left.length_add
    have h6 := hk.suffix.2
    omega)
  obtain ⟨p₁, b₁, h', e2⟩ := Lazy.SkipSpaceSafe_eq (σ := σ) h' h2 (by decide)
  obtain ⟨raw, p, b, t', ⟨h5, hobj⟩, h6, h7, hsum, e3⟩ := lazyRaw_eq (A := A) (H := H) h' h3 hd hn
  obtain ⟨rfl, hq⟩ := hk.plain rfl ha
  have hname : Verbatim k := fun b hb =>
    ⟨hk.no_control rfl ha b hb, fun hc => hq (hc ▸ hb), fun hc => ha (hc ▸ hb)⟩
  have hmember : ∀ s, Ws s (Ch.quote :: (k ++ Ch.quote :: s₂)) → MemberOf s k v (k, raw) ∧
      memberSize (k, raw) + u.length ≤ s.length + 1 := by
    intro s hw
    have l1 := hw.suffix.length_le
    have l3 := h2.suffix.length_le
    have l4 := h3.suffix.length_le
    have l5 := h7.suffix.length_le
    simp only [List.length_cons, List.length_append] at l1 l3
    refine ⟨⟨rfl, hname, ⟨h5.1, h5.2.trans (by omega)⟩, fun ms hv => ?_⟩,
      by simp only [memberSize]; omega⟩
    · subst hv
      rw [hobj ms rfl] at h3 hd
      exact .here hw hk h2 h3 hd
  refine ⟨raw, p, b, t', hmember, h6, h7, fun n sax sax₁ sax₂ hk₁ hraw => ?_⟩
  have hk₁ : H.Key k false sax = (true, sax₁) := accept_pair hk₁
  rw [lazyObjKey, if_neg (by decide), hkey]
  simp only [hk₁, e2, e3 _ _ _ hraw]
  rfl

/-- **The members of an object**, without escapes in their names: each name and each value is told
in order. -/
theorem lazyObjKey_plain {l : List (Bytes × Bytes × Json)} (hN : Named s l t) :
    ∀ {fuel cnt pos : ℕ} {scan : SpaceBits}
    {r : Bytes}, l.length ≤ fuel → Ws s (Ch.quote :: r) → Scan data len pos scan r →
    (∀ m ∈ l, Ch.bslash ∉ m.1) →
    ∃ ms : List (Bytes × Bytes), List.Forall₂ (fun m e => MemberOf s m.2.1 m.2.2 e) l ms ∧
      (ms.map memberSize).sum + t.length ≤ s.length ∧
        ∀ n sax sax', H.tells (memberEvents ms ++ [.EndObject (cnt + l.length)]) sax = some sax' →
        lazyObjKey A parseFlags H Malloc data len fuel Ch.quote cnt ⟨pos, scan, n, sax⟩ =
          some (⟨.kErrorNone, 0⟩, sax') := by
  induction hN with
  | @last s a k s₂ s₃ s₄ s₅ v t hw hk h2 h3 hd h4 =>
    rintro (_ | fuel) cnt pos scan r hf hr h hplain
    · exact absurd hf (by simp)
    obtain ⟨-, rfl⟩ := hw.unique hr (by decide) (by decide)
    obtain ⟨raw, p, b, t', h5, h6, h7, e1⟩ := lazyObjKey_round (A := A) (H := H)
      h hk (hplain _ List.mem_cons_self) h2 h3 hd (next_rbrace h4)
    obtain ⟨p', b', -, e2⟩ := Lazy.SkipSpaceSafe_eq (σ := σ) h6 h7 (by decide)
    obtain ⟨hmember, hsize⟩ := h5 s hw
    refine ⟨[(k, raw)], .cons hmember .nil, ?_, fun n sax sax' ht => ?_⟩
    · simp only [List.map_cons, List.map_nil, List.sum_cons, List.sum_nil, List.length_cons] at hsize ⊢
      omega
    obtain ⟨sax₁, ht1, ht⟩ := LazySAX.tells_cons ht
    obtain ⟨sax₂, ht2, ht⟩ := LazySAX.tells_cons ht
    obtain ⟨sax₃, ht3, ht⟩ := LazySAX.tells_cons ht
    obtain rfl := Option.some.inj ht
    have hend : H.EndObject (cnt + 1) sax₂ = (true, sax₃) := accept_pair ht3
    rw [e1 _ _ _ _ ht1 ht2]
    simp only [e2, hend]
    rw [if_neg (by decide), if_neg (by decide)]
    rfl
  | @cons s a k s₂ s₃ s₄ s₅ s₆ v l t hw hk h2 h3 hd h4 hN ih =>
    rintro (_ | fuel) cnt pos scan r hf hr h hplain
    · exact absurd hf (by simp)
    obtain ⟨-, rfl⟩ := hw.unique hr (by decide) (by decide)
    obtain ⟨raw, p, b, t', h5, h6, h7, e1⟩ := lazyObjKey_round (A := A) (H := H)
      h hk (hplain _ List.mem_cons_self) h2 h3 hd (next_comma h4)
    obtain ⟨p₁, b₁, h8, e2⟩ := Lazy.SkipSpaceSafe_eq (σ := σ) h6 h7 (by decide)
    obtain ⟨w, hw'⟩ := hN.der.mems_starts
    have hws := ws_dropWhile s₆
    rw [hw'] at hws
    obtain ⟨p₂, b₂, h9, e3⟩ := Lazy.SkipSpaceSafe_eq (σ := σ) h8 hws (by decide)
    obtain ⟨ms, hms, hsum, e4⟩ := ih (by simpa using hf) hws h9
      fun m hm => hplain m (List.mem_cons_of_mem _ hm)
    obtain ⟨hmember, hsize⟩ := h5 s hw
    refine ⟨(k, raw) :: ms, .cons hmember (hms.imp fun _ _ h => h.later hw hk h2 h3 hd h4), ?_,
      fun n sax sax' ht => ?_⟩
    · simp only [List.map_cons, List.sum_cons, List.length_cons] at hsize ⊢
      omega
    obtain ⟨sax₁, ht1, ht⟩ := LazySAX.tells_cons ht
    obtain ⟨sax₂, ht2, ht⟩ := LazySAX.tells_cons ht
    rw [e1 _ _ _ _ ht1 ht2]
    simp only [e2, e3]
    rw [if_pos trivial]
    refine e4 n sax₂ sax' ?_
    rw [Nat.add_right_comm, Nat.add_assoc]
    exact ht

/-- An escape in a name, where the allocations hold zeros: the parse fails. -/
theorem lazyObjKey_escaped {l : List (Bytes × Bytes × Json)} (hN : Named s l t) :
    ∀ {fuel cnt pos : ℕ} {scan : SpaceBits}
    {r : Bytes}, l.length ≤ fuel → Ws s (Ch.quote :: r) → Scan data len pos scan r →
    (∃ m ∈ l, Ch.bslash ∈ m.1) →
    ∀ n es, ∃ e es', lazyObjKey A kParseDefault lazyRecorder (fun _ => some fun _ => 0) data len
      fuel Ch.quote cnt
      ⟨pos, scan, n, es⟩ = some (e, es') ∧ e.err_ ≠ .kErrorNone := by
  induction hN with
  | @last s a k s₂ s₃ s₄ s₅ v t hw hk h2 h3 hd h4 =>
    rintro (_ | fuel) cnt pos scan r hf hr h ⟨m, hm, hb⟩ n es
    · exact absurd hf (by simp)
    obtain ⟨-, rfl⟩ := hw.unique hr (by decide) (by decide)
    obtain rfl := List.mem_singleton.mp hm
    obtain ⟨e, e1, e2⟩ :=
      @lazyKey_escaped _ A _ _ _ (⟨pos, scan, n, es⟩ : Lazy (List LazyEvent)) _ _ h hk hb
    refine ⟨e, es, ?_, e2⟩
    rw [lazyObjKey, if_neg (by decide), e1]
  | @cons s a k s₂ s₃ s₄ s₅ s₆ v l t hw hk h2 h3 hd h4 hN ih =>
    rintro (_ | fuel) cnt pos scan r hf hr h ⟨m, hm, hb⟩ n es
    · exact absurd hf (by simp)
    obtain ⟨-, rfl⟩ := hw.unique hr (by decide) (by decide)
    by_cases ha : Ch.bslash ∈ a
    · obtain ⟨e, e1, e2⟩ :=
        @lazyKey_escaped _ A _ _ _ (⟨pos, scan, n, es⟩ : Lazy (List LazyEvent)) _ _ h hk ha
      refine ⟨e, es, ?_, e2⟩
      rw [lazyObjKey, if_neg (by decide), e1]
    · have hm : m ∈ l := (List.mem_cons.mp hm).resolve_left fun he => ha (by rwa [he] at hb)
      obtain ⟨raw, p, b, t', h5, h6, h7, e1⟩ := lazyObjKey_round (A := A)
        (H := lazyRecorder) h hk ha h2 h3 hd
        (next_comma h4)
      obtain ⟨p₁, b₁, h8, e2⟩ := Lazy.SkipSpaceSafe_eq (σ := List LazyEvent) h6 h7 (by decide)
      obtain ⟨w, hw'⟩ := hN.der.mems_starts
      have hws := ws_dropWhile s₆
      rw [hw'] at hws
      obtain ⟨p₂, b₂, h9, e3⟩ := Lazy.SkipSpaceSafe_eq (σ := List LazyEvent) h8 hws (by decide)
      rw [e1 n es _ _ rfl rfl]
      simp only [e2, e3]
      rw [if_pos trivial]
      exact ih (by simpa using hf) hws h9 ⟨m, hm, hb⟩ n _

/-- A member that is told of is in a text: its value is shorter, and an object in it is one of the
text. -/
structure LazyMember (json : Bytes) (m : Bytes × Json) (e : Bytes × Bytes) : Prop where
  name : e.1 = m.1
  verbatim : Verbatim e.1
  raw : ∃ w, Der e.2 (.val m.2) w ∧ Ws w []
  shorter : e.2.length < json.length
  value : ∀ ms, m.2 = .obj ms → MemberText json e.2

/-- **An object text** without escapes in its names, whatever the allocations hold. -/
theorem ParseLazy_object {json : Bytes} {ms : List (Bytes × Json)} (h : JsonText json (.obj ms))
    (hp : PlainNames json) :
    ∃ es : List (Bytes × Bytes), List.Forall₂ (LazyMember json) ms es ∧
      (2 ≤ json.length ∧ (es.map memberSize).sum + 1 ≤ json.length) ∧ ∀ sax sax',
        H.tells (.StartObject :: (memberEvents es ++ [.EndObject ms.length])) sax = some sax' →
        ParseLazy A parseFlags H Malloc json json.length sax = some (⟨.kErrorNone, 0⟩, sax') := by
  obtain ⟨s, t, hw, hd, ht⟩ := h
  have hsc : Scan json json.length 0 .init json :=
    ⟨left_length.mpr (at_zero _), SpaceBits.valid_init _ _⟩
  obtain ⟨c, r, rfl, hst⟩ := hd.starts
  obtain rfl : c = Ch.lbrace := hst
  obtain ⟨p₁, b₁, h1, e1⟩ := Lazy.SkipSpaceSafe_eq (σ := σ) hsc hw (by decide)
  obtain ⟨ms', hms', ⟨rfl, hr⟩ | hr⟩ := hd.object_inv
  · obtain rfl := Json.obj.inj hms'
    obtain ⟨p₂, b₂, -, e2⟩ := Lazy.SkipSpaceSafe_eq (σ := σ) h1 hr (by decide)
    have hlen : 2 ≤ json.length := by
      have l1 := hw.suffix.length_le
      have l2 := hr.suffix.length_le
      simp only [List.length_cons] at l1 l2
      omega
    refine ⟨[], .nil, ⟨hlen, by simpa using hlen.trans' one_le_two⟩, fun sax sax' ht => ?_⟩
    obtain ⟨sax₁, ht1, ht⟩ := LazySAX.tells_cons ht
    obtain ⟨sax₂, ht2, ht⟩ := LazySAX.tells_cons ht
    obtain rfl := Option.some.inj ht
    have hstart : H.StartObject sax = (true, sax₁) := accept_pair ht1
    have hend : H.EndObject 0 sax₁ = (true, sax₂) := accept_pair ht2
    unfold ParseLazy
    simp only [e1, hstart, e2, hend]
    rw [if_neg (by decide), if_pos trivial]
    rfl
  · obtain rfl := Json.obj.inj hms'
    obtain ⟨l, hl, rfl⟩ := hr.named
    obtain ⟨w, hw'⟩ := hr.mems_starts
    have hws := ws_dropWhile r
    rw [hw'] at hws
    obtain ⟨p₂, b₂, h2, e2⟩ := Lazy.SkipSpaceSafe_eq (σ := σ) h1 hws (by decide)
    have hfuel : l.length ≤ json.length + 1 := by
      have h3 := hr.mems_length
      have h4 := hw.suffix.length_le
      simp only [List.length_map, List.length_cons] at h3 h4
      omega
    obtain ⟨es, hes, hsum, e3⟩ := lazyObjKey_plain (A := A) (H := H) hl
      hfuel hws h2 (hp r l t hw hl)
    have hclose : t.length < r.length := by
      have := hr.suffix.1.length_le
      rwa [List.length_cons] at this
    have hshort : r.length < json.length := by
      have := hw.suffix.length_le
      rwa [List.length_cons] at this
    refine ⟨es, List.forall₂_map_left_iff.mpr (hes.imp fun m e h => ⟨h.name, h.verbatim, h.raw.1,
      h.raw.2.trans_lt hshort, fun ms hv => ⟨r, hw, h.value ms hv⟩⟩), ⟨by omega, by omega⟩,
      fun sax sax' ht => ?_⟩
    obtain ⟨sax₁, ht1, ht⟩ := LazySAX.tells_cons ht
    have hstart : H.StartObject sax = (true, sax₁) := accept_pair ht1
    unfold ParseLazy
    simp only [e1, hstart, e2]
    rw [if_neg (by decide), if_pos trivial]
    refine e3 0 sax₁ sax' ?_
    rw [Nat.zero_add]
    rwa [List.length_map] at ht

/-- An object text with an escape in a name, where the allocations hold zeros. -/
theorem ParseLazy_escaped {json : Bytes} (hp : ¬ PlainNames json) :
    ∃ e es, ParseLazy A kParseDefault lazyRecorder (fun _ => some fun _ => 0) json json.length [] =
      some (e, es) ∧
      e.err_ ≠ .kErrorNone := by
  unfold PlainNames at hp
  push Not at hp
  obtain ⟨r, l, t, hw, hl, m, hm, hb⟩ := hp
  have hsc : Scan json json.length 0 .init json :=
    ⟨left_length.mpr (at_zero _), SpaceBits.valid_init _ _⟩
  obtain ⟨p₁, b₁, h1, e1⟩ := Lazy.SkipSpaceSafe_eq (σ := List LazyEvent) hsc hw (by decide)
  obtain ⟨w, hw'⟩ := hl.der.mems_starts
  have hws := ws_dropWhile r
  rw [hw'] at hws
  obtain ⟨p₂, b₂, h2, e2⟩ := Lazy.SkipSpaceSafe_eq (σ := List LazyEvent) h1 hws (by decide)
  have hfuel : l.length ≤ json.length + 1 := by
    have h3 := hl.der.mems_length
    have h4 := hw.suffix.length_le
    simp only [List.length_map, List.length_cons] at h3 h4
    omega
  obtain ⟨e, es, e3, e4⟩ := lazyObjKey_escaped (A := A) hl hfuel hws h2 ⟨m, hm, hb⟩ 0 [.StartObject]
  refine ⟨e, es, ?_, e4⟩
  unfold ParseLazy
  simp only [e1, e2]
  rw [if_neg (by decide), if_pos trivial]
  exact e3

end

/-! ### Names as the full parser delivers them -/

/-- `ParseLazy` succeeds, and tells the names of the members `ms` in order, each with a text that is
parsed to its value. -/
def DecodesLike (A : Arch) (F : FloatConv) (Malloc : ℕ → Option (ℕ → UInt8)) (json : Bytes)
    (ms : List (Node × Node)) :
    Prop :=
  ∃ es : List (Bytes × Bool × Bytes),
    ParseLazy A kParseDefault lazyRecorder Malloc json json.length [] =
      some (⟨.kErrorNone, 0⟩, .StartObject :: (es.flatMap fun e => [.Key e.1 e.2.1, .Raw e.2.2]) ++
        [.EndObject ms.length]) ∧
    List.Forall₂ (fun e m => m.1 = .str e.1 ∧ ∀ rest, Document.Parse A F kParseDefault e.2.2 rest =
      some (.ok m.2)) es ms

theorem den_obj_inv {F : FloatConv} {flags : ParseFlags} {v : Json} {ns : List (Node × Node)}
    (h : den F flags v = some (.obj ns)) : ∃ ms, v = .obj ms ∧ denMems F flags ms = some ns := by
  cases v with
  | obj ms =>
    obtain ⟨ns', h1, h2⟩ := Option.map_eq_some_iff.mp h
    exact ⟨ms, rfl, by rw [h1, Node.obj.inj h2]⟩
  | arr vs =>
    obtain ⟨ns', -, h2⟩ := Option.map_eq_some_iff.mp h
    exact absurd h2 (by simp)
  | num tok =>
    obtain ⟨e, -, h2⟩ := Option.map_eq_some_iff.mp h
    cases e <;> exact absurd h2 (by simp [Scalar.node])
  | null => exact absurd (Option.some.inj h) (by simp)
  | bool b => exact absurd (Option.some.inj h) (by simp)
  | str b => exact absurd (Option.some.inj h) (by simp)

/-- The names and texts of members are those of their denotation. -/
theorem told_members (A : Arch) (F : FloatConv) (hF : F.Local) {json : Bytes}
    (hlen : json.length < 2 ^ 31) {ms : List (Bytes × Json)} {es : List (Bytes × Bytes)}
    (h : List.Forall₂ (LazyMember json) ms es) : ∀ {ns : List (Node × Node)},
    denMems F kParseDefault ms = some ns →
    List.Forall₂ (fun e n => n.1 = .str e.1 ∧ ∀ rest, Document.Parse A F kParseDefault e.2 rest =
      some (.ok n.2)) es ns := by
  induction h with
  | nil =>
    intro ns hns
    obtain rfl := Option.some.inj hns
    exact .nil
  | @cons m e ms es he _ ih =>
    intro ns hns
    simp only [denMems, Option.bind_eq_some_iff, Option.map_eq_some_iff] at hns
    obtain ⟨n, hn, ns, hns, rfl⟩ := hns
    refine .cons ⟨by rw [he.name], fun rest => ?_⟩ (ih hns)
    obtain ⟨w, hd, hw⟩ := he.raw
    exact (Document.parse_ok_iff A F hF (he.shorter.trans hlen) rest).mpr
      ⟨_, ⟨_, w, .nil _, hd, hw⟩, hn⟩

/-- **Lazy parsing tells the names that the full parser tells**, whatever the allocations held,
exactly where no name has an escape. -/
theorem ParseLazy_decodes (A : Arch) (F : FloatConv) (hF : F.Local) {json : Bytes}
    (hlen : json.length < 2 ^ 31) {rest : Bytes} {ms : List (Node × Node)}
    (hparse : Document.Parse A F kParseDefault json rest = some (.ok (.obj ms))) :
    (∀ Malloc : ℕ → Option (ℕ → UInt8), (∀ n, (Malloc n).isSome = true) →
    DecodesLike A F Malloc json ms) ↔
      PlainNames json := by
  constructor
  · intro h
    by_contra hp
    obtain ⟨es, h1, -⟩ := h (fun _ => some fun _ => 0) fun _ => rfl
    obtain ⟨e, es', h2, h3⟩ := ParseLazy_escaped (A := A) hp
    rw [h2] at h1
    exact h3 (congrArg ParseResult.err_ (Prod.mk.inj (Option.some.inj h1)).1)
  · intro hp Malloc _
    obtain ⟨v, hv, hden⟩ := (Document.parse_ok_iff A F hF hlen rest).mp hparse
    obtain ⟨js, rfl, hjs⟩ := den_obj_inv hden
    obtain ⟨es, hes, -, h⟩ := ParseLazy_object (A := A) (H := lazyRecorder) hv hp
    refine ⟨es.map fun e => (e.1, false, e.2), ?_, ?_⟩
    · rw [h [] _ (lazyRecorder_tells _ _), SAXHandler.denMems_length F _ js hjs, List.flatMap_map]
      rfl
    · rw [List.forall₂_map_left_iff]
      exact told_members A F hF hlen hes hjs

/-- The text `{"a":1}`. -/
theorem ParseLazy_decodes_plain :
    (∀ Malloc : ℕ → Option (ℕ → UInt8), (∀ n, (Malloc n).isSome = true) →
      DecodesLike .avx2 Document.noFloats Malloc [123, 34, 97, 34, 58, 49, 125]
        [(.str [97], .uint 1)]) ↔
      PlainNames [123, 34, 97, 34, 58, 49, 125] :=
  @ParseLazy_decodes .avx2 Document.noFloats (fun _ _ _ _ _ => rfl) _ (by decide)
    (List.replicate 61 0) _ rfl

/-- The name of `{"\n":1}` in an allocation of zeros: the decoder runs into a control character. -/
theorem ParseLazy_reads_garbage : ∃ (json rest : Bytes) (ms : List (Node × Node)),
    Document.Parse .avx2 Document.noFloats kParseDefault json rest = some (.ok (.obj ms)) ∧
    ParseLazy .avx2 kParseDefault lazyRecorder (fun _ => some fun _ => 0) json json.length [] =
      some (⟨.kParseErrorUnEscaped, 0⟩, [.StartObject]) ∧
    ¬ DecodesLike .avx2 Document.noFloats (fun _ => some fun _ => 0) json ms := by
  refine ⟨[123, 34, 92, 110, 34, 58, 49, 125], List.replicate 61 0, [(.str [10], .uint 1)],
    rfl, rfl, ?_⟩
  rintro ⟨es, h, -⟩
  have h' := (Prod.mk.inj (Option.some.inj h)).1
  exact absurd (congrArg ParseResult.err_ h') (by decide)

end SonicJson
