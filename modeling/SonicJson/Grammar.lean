/-
# JSON texts

The grammar of RFC 8259 over bytes, read by suffixes: `Der s item t` says that
`s` begins with a text of `item` and that `t` is what is left after it. A value
keeps the text of its number tokens (what a number denotes is decided by the
parser's conversions), and the decoded bytes of its strings. Bytes from 0x80 on
are not checked inside strings; an escaped surrogate must be half of a pair.

`JsonText s v`: `s` is one value `v` between whitespace.
-/
import SonicJson.Bytes

namespace SonicJson

/-- A JSON value. A number is its token, an object keeps its members in order and with
duplicates. -/
inductive Json
  | null
  | bool (b : Bool)
  | num (tok : Bytes)
  | str (s : Bytes)
  | arr (vs : List Json)
  | obj (ms : List (Bytes × Json))

/-! ### Whitespace -/

/-- `s` is whitespace followed by `t`. -/
inductive Ws : Bytes → Bytes → Prop
  | nil (s : Bytes) : Ws s s
  | cons {b : UInt8} {s t : Bytes} : IsSpace b = true → Ws s t → Ws (b :: s) t

theorem Ws.suffix {s t : Bytes} (h : Ws s t) : t <:+ s := by
  induction h with
  | nil => exact List.suffix_rfl
  | cons _ _ ih => exact ih.trans (List.suffix_cons _ _)

theorem Ws.trans {s t u : Bytes} (h : Ws s t) (h' : Ws t u) : Ws s u := by
  induction h with
  | nil => exact h'
  | cons hb _ ih => exact .cons hb (ih h')

theorem ws_dropWhile : ∀ s : Bytes, Ws s (s.dropWhile IsSpace)
  | [] => .nil _
  | b :: s => by
    rw [List.dropWhile_cons]
    split
    · rename_i h
      exact .cons h (ws_dropWhile s)
    · exact .nil _

/-- Whitespace before a byte that is none is all the whitespace there is. -/
theorem Ws.dropWhile_eq {s t : Bytes} {b : UInt8} (h : Ws s (b :: t)) (hb : IsSpace b = false) :
    s.dropWhile IsSpace = b :: t := by
  generalize hu : b :: t = u at h
  induction h with
  | nil => simp [← hu, hb]
  | cons hc _ ih => simp [hc, ih hu]

theorem Ws.dropWhile_nil {s : Bytes} (h : Ws s []) : s.dropWhile IsSpace = [] := by
  generalize hu : ([] : Bytes) = u at h
  induction h with
  | nil => simp [← hu]
  | cons hc _ ih => simp [hc, ih hu]

/-! ### Numbers -/

inductive IntPart : Bytes → Prop
  | zero : IntPart [Ch.zero]
  | pos {d : UInt8} {ds : Bytes} : is_digit d = true → d ≠ Ch.zero → (∀ x ∈ ds, is_digit x = true) →
      IntPart (d :: ds)

inductive FracPart : Bytes → Prop
  | none : FracPart []
  | some {d : UInt8} {ds : Bytes} : is_digit d = true → (∀ x ∈ ds, is_digit x = true) →
      FracPart (Ch.dot :: d :: ds)

inductive ExpPart : Bytes → Prop
  | none : ExpPart []
  | some {e d : UInt8} {sg ds : Bytes} : e = Ch.e ∨ e = Ch.upE →
      sg = [] ∨ sg = [Ch.plus] ∨ sg = [Ch.minus] → is_digit d = true → (∀ x ∈ ds, is_digit x = true) →
      ExpPart (e :: (sg ++ d :: ds))

/-- A number token: an optional minus, an integer without leading zeros, a fraction, an exponent. -/
inductive NumTok : Bytes → Prop
  | mk {m i f e : Bytes} : m = [] ∨ m = [Ch.minus] → IntPart i → FracPart f → ExpPart e →
      NumTok (m ++ i ++ f ++ e)

/-! ### Strings -/

/-- The byte a one-letter escape stands for. -/
def escChar (c : UInt8) : Option UInt8 :=
  if c = Ch.quote then some Ch.quote
  else if c = Ch.bslash then some Ch.bslash
  else if c = Ch.slash then some Ch.slash
  else if c = 98 then some 8
  else if c = Ch.f then some 12
  else if c = Ch.n then some Ch.lf
  else if c = Ch.r then some Ch.cr
  else if c = Ch.t then some Ch.tab
  else none

def hexDigit (b : UInt8) : Option ℕ :=
  if 48 ≤ b ∧ b ≤ 57 then some (b.toNat - 48)
  else if 65 ≤ b ∧ b ≤ 70 then some (b.toNat - 55)
  else if 97 ≤ b ∧ b ≤ 102 then some (b.toNat - 87)
  else none

/-- No hex digit is a quote or a backslash. -/
theorem hexDigit_plain {b : UInt8} {v : ℕ} (h : hexDigit b = some v) :
    b ≠ Ch.quote ∧ b ≠ Ch.bslash := by
  have hq : hexDigit Ch.quote = none := by decide
  have hb : hexDigit Ch.bslash = none := by decide
  refine ⟨?_, ?_⟩
  · rintro rfl
    simp [hq] at h
  · rintro rfl
    simp [hb] at h

/-- The code unit four hex digits denote. -/
def hex4 (a b c d : UInt8) : Option ℕ :=
  match hexDigit a, hexDigit b, hexDigit c, hexDigit d with
  | some w, some x, some y, some z => some (w * 4096 + x * 256 + y * 16 + z)
  | _, _, _, _ => none

def IsHigh (cp : ℕ) : Prop := 0xd800 ≤ cp ∧ cp < 0xdc00

def IsLow (cp : ℕ) : Prop := 0xdc00 ≤ cp ∧ cp < 0xe000

instance (cp : ℕ) : Decidable (IsHigh cp) := inferInstanceAs (Decidable (_ ∧ _))

instance (cp : ℕ) : Decidable (IsLow cp) := inferInstanceAs (Decidable (_ ∧ _))

/-- The scalar value of a surrogate pair. -/
def pairValue (hi lo : ℕ) : ℕ := (hi - 0xd800) * 1024 + (lo - 0xdc00) + 0x10000

/-- The UTF-8 encoding of a scalar value. -/
def utf8 (cp : ℕ) : Bytes :=
  if cp ≤ 0x7f then [UInt8.ofNat cp]
  else if cp ≤ 0x7ff then [UInt8.ofNat (cp / 64 + 192), UInt8.ofNat (cp % 64 + 128)]
  else if cp ≤ 0xffff then
    [UInt8.ofNat (cp / 4096 + 224), UInt8.ofNat (cp / 64 % 64 + 128), UInt8.ofNat (cp % 64 + 128)]
  else
    [UInt8.ofNat (cp / 262144 + 240), UInt8.ofNat (cp / 4096 % 64 + 128),
    UInt8.ofNat (cp / 64 % 64 + 128),
      UInt8.ofNat (cp % 64 + 128)]

/-- `s` is what stands between the quotes of a string, and the closing quote, before `t`; `body` is
its decoding. -/
inductive StrBody : Bytes → Bytes → Bytes → Prop
  | quote (t : Bytes) : StrBody (Ch.quote :: t) [] t
  | char {b : UInt8} {s body t : Bytes} : b ≠ Ch.quote → b ≠ Ch.bslash → 0x20 ≤ b →
      StrBody s body t → StrBody (b :: s) (b :: body) t
  | esc {c d : UInt8} {s body t : Bytes} : escChar c = some d →
      StrBody s body t → StrBody (Ch.bslash :: c :: s) (d :: body) t
  | uni {a b c d : UInt8} {cp : ℕ} {s body t : Bytes} : hex4 a b c d = some cp → ¬ IsHigh cp →
    ¬ IsLow cp →
      StrBody s body t → StrBody (Ch.bslash :: Ch.u :: a :: b :: c :: d :: s) (utf8 cp ++ body) t
  | pair {a b c d a' b' c' d' : UInt8} {hi lo : ℕ} {s body t : Bytes} :
      hex4 a b c d = some hi → IsHigh hi → hex4 a' b' c' d' = some lo → IsLow lo → StrBody s body t →
      StrBody (Ch.bslash :: Ch.u :: a :: b :: c :: d :: Ch.bslash :: Ch.u :: a' :: b' :: c' :: d' :: s)
        (utf8 (pairValue hi lo) ++ body) t

theorem StrBody.suffix {s body t : Bytes} (h : StrBody s body t) : t <:+ s ∧ t.length < s.length := by
  induction h with
  | quote t => exact ⟨List.suffix_cons _ _, by simp⟩
  | char _ _ _ _ ih => exact ⟨ih.1.trans (List.suffix_cons _ _), by simp; omega⟩
  | esc _ _ ih =>
    exact ⟨ih.1.trans ⟨[_, _], rfl⟩, by simp; omega⟩
  | uni _ _ _ _ ih =>
    exact ⟨ih.1.trans ⟨[_, _, _, _, _, _], rfl⟩, by simp; omega⟩
  | pair _ _ _ _ _ ih =>
    exact ⟨ih.1.trans ⟨[_, _, _, _, _, _, _, _, _, _, _, _], rfl⟩, by simp; omega⟩

/-- A string without backslashes is its own decoding, and ends at its first quote. -/
theorem StrBody.plain {s t a body : Bytes} (h : StrBody s body t) (hs : s = a ++ Ch.quote :: t)
    (ha : Ch.bslash ∉ a) :
    body = a ∧ Ch.quote ∉ a := by
  -- an escape would put a backslash in `a`
  have esc : ∀ {r a t : Bytes}, Ch.bslash :: r = a ++ Ch.quote :: t → Ch.bslash ∉ a → False := by
    rintro r (_ | ⟨b, a⟩) t he ha
    · exact absurd (List.cons.inj he).1 (by decide)
    · exact ha ((List.cons.inj he).1 ▸ List.mem_cons_self)
  induction h generalizing a with
  | quote t =>
    have := congrArg List.length hs
    simp only [List.length_append, List.length_cons] at this
    rw [List.length_eq_zero_iff.mp (show a.length = 0 by omega)]
    exact ⟨rfl, List.not_mem_nil⟩
  | char h1 _ _ _ ih =>
    cases a with
    | nil => exact absurd (List.cons.inj hs).1 h1
    | cons b a =>
      obtain ⟨rfl, he⟩ := List.cons.inj hs
      rw [List.mem_cons, not_or] at ha ⊢
      obtain ⟨rfl, h2⟩ := ih he ha.2
      exact ⟨rfl, Ne.symm h1, h2⟩
  | esc _ _ _ => exact absurd ha (esc hs)
  | uni _ _ _ _ _ => exact absurd ha (esc hs)
  | pair _ _ _ _ _ _ => exact absurd ha (esc hs)

/-- A string body without escapes has no control characters. -/
theorem StrBody.no_control {s t a body : Bytes} (h : StrBody s body t) (hs : s = a ++ Ch.quote :: t)
    (ha : Ch.bslash ∉ a) :
    ∀ b ∈ a, 0x20 ≤ b := by
  induction h generalizing a with
  | quote t =>
    have hlen := congrArg List.length hs
    simp only [List.length_append, List.length_cons] at hlen
    rw [List.length_eq_zero_iff.mp (show a.length = 0 by omega)]
    exact List.forall_mem_nil _
  | char h1 _ h3 _ ih =>
    cases a with
    | nil => exact absurd (List.cons.inj hs).1 h1
    | cons b a =>
      obtain ⟨rfl, he⟩ := List.cons.inj hs
      rw [List.mem_cons, not_or] at ha
      exact List.forall_mem_cons.mpr ⟨h3, ih he ha.2⟩
  | esc _ _ _ | uni _ _ _ _ _ | pair _ _ _ _ _ _ =>
    -- an escape would put a backslash in `a`
    cases a with
    | nil => exact absurd (List.cons.inj hs).1 (by decide)
    | cons b a => exact absurd ((List.cons.inj hs).1 ▸ List.mem_cons_self) ha

/-- A string ends with its quote. -/
theorem StrBody.ends {s t body : Bytes} (h : StrBody s body t) : ∃ a, s = a ++ Ch.quote :: t := by
  induction h with
  | quote t => exact ⟨[], rfl⟩
  | char _ _ _ _ ih =>
    obtain ⟨a, rfl⟩ := ih
    exact ⟨_ :: a, rfl⟩
  | esc _ _ ih =>
    obtain ⟨a, rfl⟩ := ih
    exact ⟨_ :: _ :: a, rfl⟩
  | uni _ _ _ _ ih =>
    obtain ⟨a, rfl⟩ := ih
    exact ⟨_ :: _ :: _ :: _ :: _ :: _ :: a, rfl⟩
  | pair _ _ _ _ _ ih =>
    obtain ⟨a, rfl⟩ := ih
    exact ⟨_ :: _ :: _ :: _ :: _ :: _ :: _ :: _ :: _ :: _ :: _ :: _ :: a, rfl⟩

/-! ### Values -/

def kNull : Bytes := [Ch.n, Ch.u, Ch.l, Ch.l]
def kTrue : Bytes := [Ch.t, Ch.r, Ch.u, Ch.e]
def kFalse : Bytes := [Ch.f, Ch.a, Ch.l, Ch.s, Ch.e]

/-- What a derivation is of: a value, the elements of an array or the members of an object, up to the
closing bracket. -/
inductive Item
  | val (v : Json)
  | elems (vs : List Json)
  | mems (ms : List (Bytes × Json))

inductive Der : Bytes → Item → Bytes → Prop
  | null {t} : Der (kNull ++ t) (.val .null) t
  | true {t} : Der (kTrue ++ t) (.val (.bool true)) t
  | false {t} : Der (kFalse ++ t) (.val (.bool false)) t
  | num {tok t} : NumTok tok → Der (tok ++ t) (.val (.num tok)) t
  | str {s body t} : StrBody s body t → Der (Ch.quote :: s) (.val (.str body)) t
  | arrNil {s t} : Ws s (Ch.rbrack :: t) → Der (Ch.lbrack :: s) (.val (.arr [])) t
  | arr {s vs t} : Der s (.elems vs) (Ch.rbrack :: t) → Der (Ch.lbrack :: s) (.val (.arr vs)) t
  | objNil {s t} : Ws s (Ch.rbrace :: t) → Der (Ch.lbrace :: s) (.val (.obj [])) t
  | obj {s ms t} : Der s (.mems ms) (Ch.rbrace :: t) → Der (Ch.lbrace :: s) (.val (.obj ms)) t
  | elemLast {s s₁ s₂ v t} : Ws s s₁ → Der s₁ (.val v) s₂ → Ws s₂ (Ch.rbrack :: t) →
      Der s (.elems [v]) (Ch.rbrack :: t)
  | elemCons {s s₁ s₂ s₃ v vs t} : Ws s s₁ → Der s₁ (.val v) s₂ → Ws s₂ (Ch.comma :: s₃) →
      Der s₃ (.elems vs) t → Der s (.elems (v :: vs)) t
  | memLast {s s₁ s₂ s₃ s₄ s₅ k v t} : Ws s (Ch.quote :: s₁) → StrBody s₁ k s₂ →
    Ws s₂ (Ch.colon :: s₃) →
      Ws s₃ s₄ → Der s₄ (.val v) s₅ → Ws s₅ (Ch.rbrace :: t) → Der s (.mems [(k, v)]) (Ch.rbrace :: t)
  | memCons {s s₁ s₂ s₃ s₄ s₅ s₆ k v ms t} : Ws s (Ch.quote :: s₁) → StrBody s₁ k s₂ →
      Ws s₂ (Ch.colon :: s₃) → Ws s₃ s₄ → Der s₄ (.val v) s₅ → Ws s₅ (Ch.comma :: s₆) →
      Der s₆ (.mems ms) t → Der s (.mems ((k, v) :: ms)) t

/-- `s` is one JSON text for `v` between whitespace. -/
def JsonText (s : Bytes) (v : Json) : Prop :=
  ∃ s₁ s₂, Ws s s₁ ∧ Der s₁ (.val v) s₂ ∧ Ws s₂ []

theorem NumTok.cons_head {tok : Bytes} (h : NumTok tok) :
    ∃ b r, tok = b :: r ∧ (b = Ch.minus ∨ is_digit b = true) := by
  obtain ⟨hm, hi, -, -⟩ := h
  rcases hm with rfl | rfl
  · cases hi with
    | zero => exact ⟨_, _, rfl, .inr rfl⟩
    | pos hd _ _ => exact ⟨_, _, rfl, .inr hd⟩
  · exact ⟨_, _, rfl, .inl rfl⟩

theorem Der.suffix {s t : Bytes} {it : Item} (h : Der s it t) : t <:+ s ∧ t.length < s.length := by
  have cons : ∀ {b : UInt8} {s t : Bytes}, t <:+ s → t <:+ b :: s :=
    fun h => h.trans (List.suffix_cons _ _)
  have len : ∀ {s t : Bytes}, t <:+ s → t.length ≤ s.length := fun h => h.length_le
  induction h with
  | null => exact ⟨List.suffix_append _ _, by simp [kNull]; omega⟩
  | true => exact ⟨List.suffix_append _ _, by simp [kTrue]; omega⟩
  | false => exact ⟨List.suffix_append _ _, by simp [kFalse]; omega⟩
  | num h =>
    obtain ⟨b, r, rfl, -⟩ := h.cons_head
    exact ⟨List.suffix_append _ _, by simp⟩
  | str h => exact ⟨cons h.suffix.1, by have := h.suffix.2; simp; omega⟩
  | arrNil h =>
    exact ⟨cons ((List.suffix_cons _ _).trans h.suffix), by have := len h.suffix; simp at *; omega⟩
  | arr _ ih => exact ⟨cons ((List.suffix_cons _ _).trans ih.1), by have := ih.2; simp at *; omega⟩
  | objNil h =>
    exact ⟨cons ((List.suffix_cons _ _).trans h.suffix), by have := len h.suffix; simp at *; omega⟩
  | obj _ ih => exact ⟨cons ((List.suffix_cons _ _).trans ih.1), by have := ih.2; simp at *; omega⟩
  | elemLast h₁ _ h₂ ih =>
    have l₁ := len h₁.suffix
    have l₂ := len h₂.suffix
    exact ⟨(h₂.suffix.trans ih.1).trans h₁.suffix, by have := ih.2; omega⟩
  | elemCons h₁ _ h₂ _ ih₁ ih₂ =>
    have l₁ := len h₁.suffix
    have l₂ := len h₂.suffix
    simp only [List.length_cons] at l₂
    exact ⟨((ih₂.1.trans ((List.suffix_cons _ _).trans h₂.suffix)).trans ih₁.1).trans h₁.suffix,
      by omega⟩
  | memLast h₁ hk h₂ h₃ _ h₄ ih =>
    have l₁ := len h₁.suffix
    have l₂ := len h₂.suffix
    have l₃ := len h₃.suffix
    have l₄ := len h₄.suffix
    have lk := hk.suffix.2
    simp only [List.length_cons] at *
    exact ⟨((((h₄.suffix.trans ih.1).trans h₃.suffix).trans
      ((List.suffix_cons _ _).trans h₂.suffix)).trans
      hk.suffix.1).trans ((List.suffix_cons _ _).trans h₁.suffix), by omega⟩
  | memCons h₁ hk h₂ h₃ _ h₄ _ ih₁ ih₂ =>
    have l₁ := len h₁.suffix
    have l₂ := len h₂.suffix
    have l₃ := len h₃.suffix
    have l₄ := len h₄.suffix
    have lk := hk.suffix.2
    simp only [List.length_cons] at *
    exact ⟨((((((ih₂.1.trans ((List.suffix_cons _ _).trans h₄.suffix)).trans ih₁.1).trans
      h₃.suffix)).trans
      ((List.suffix_cons _ _).trans h₂.suffix)).trans hk.suffix.1).trans
        ((List.suffix_cons _ _).trans h₁.suffix),
      by omega⟩

/-- Members are shorter than their text. -/
theorem Der.mems_length : ∀ {ms : List (Bytes × Json)} {s t : Bytes}, Der s (.mems ms) t →
    ms.length ≤ s.length
  | [], _, _, _ => Nat.zero_le _
  | _ :: ms, s, t, h => by
    cases h with
    | memLast hw hk _ _ _ _ =>
      have h1 := hw.suffix.length_le
      simp only [List.length_cons, List.length_nil] at *
      omega
    | memCons hw hk h2 h3 hd h4 hr =>
      have h5 := hr.mems_length
      have h6 := hw.suffix.length_le
      have h7 := hk.suffix.2
      have h8 := h2.suffix.length_le
      have h9 := h3.suffix.length_le
      have h10 := hd.suffix.2
      have h11 := h4.suffix.length_le
      simp only [List.length_cons] at *
      omega

/-- Elements are fewer than the bytes of their text. -/
theorem Der.elems_length : ∀ {vs : List Json} {s t : Bytes}, Der s (.elems vs) t → vs.length ≤ s.length
  | [], _, _, _ => Nat.zero_le _
  | _ :: vs, s, t, h => by
    cases h with
    | elemLast hw hd _ =>
      have h1 := hw.suffix.length_le
      have h2 := hd.suffix.2
      simp only [List.length_cons, List.length_nil]
      omega
    | elemCons hw hd hw' hr =>
      have h1 := hr.elems_length
      have h2 := hw.suffix.length_le
      have h3 := hd.suffix.2
      have h4 := hw'.suffix.length_le
      simp only [List.length_cons] at *
      omega

/-! ### What follows a value -/

/-- The end of the text, whitespace, a comma or a closing bracket. -/
def Follow : Bytes → Prop
  | [] => True
  | b :: _ => IsSpace b = true ∨ b = Ch.comma ∨ b = Ch.rbrack ∨ b = Ch.rbrace

theorem Ws.follow {s t : Bytes} (h : Ws s t) (ht : Follow t) : Follow s := by
  cases h with
  | nil => exact ht
  | cons hb _ => exact .inl hb

theorem follow_comma (t : Bytes) : Follow (Ch.comma :: t) := .inr (.inl rfl)

theorem follow_rbrack (t : Bytes) : Follow (Ch.rbrack :: t) := .inr (.inr (.inl rfl))

theorem follow_rbrace (t : Bytes) : Follow (Ch.rbrace :: t) := .inr (.inr (.inr rfl))

/-- The byte a value begins with. -/
def Json.Starts : Json → UInt8 → Prop
  | .null, b => b = Ch.n
  | .bool true, b => b = Ch.t
  | .bool false, b => b = Ch.f
  | .num _, b => b = Ch.minus ∨ is_digit b = true
  | .str _, b => b = Ch.quote
  | .arr _, b => b = Ch.lbrack
  | .obj _, b => b = Ch.lbrace

theorem Der.starts {s t : Bytes} {v : Json} (h : Der s (.val v) t) :
    ∃ b r, s = b :: r ∧ v.Starts b := by
  cases h with
  | null => exact ⟨_, _, rfl, rfl⟩
  | true => exact ⟨_, _, rfl, rfl⟩
  | false => exact ⟨_, _, rfl, rfl⟩
  | num h =>
    obtain ⟨b, r, rfl, hb⟩ := h.cons_head
    exact ⟨b, _, rfl, hb⟩
  | str _ => exact ⟨_, _, rfl, rfl⟩
  | arrNil _ => exact ⟨_, _, rfl, rfl⟩
  | arr _ => exact ⟨_, _, rfl, rfl⟩
  | objNil _ => exact ⟨_, _, rfl, rfl⟩
  | obj _ => exact ⟨_, _, rfl, rfl⟩

theorem not_isSpace_of_digit {b : UInt8} (h : is_digit b = true) : IsSpace b = false := by
  simp only [is_digit, Bool.and_eq_true, decide_eq_true_eq] at h
  by_contra hc
  simp only [IsSpace, Bool.not_eq_false, Bool.or_eq_true, beq_iff_eq] at hc
  rcases hc with ((rfl | rfl) | rfl) | rfl <;> revert h <;> decide

theorem Json.Starts.not_isSpace {v : Json} {b : UInt8} (h : v.Starts b) : IsSpace b = false := by
  cases v with
  | null => simp [Json.Starts] at h; subst h; decide
  | bool x => cases x <;> simp [Json.Starts] at h <;> subst h <;> decide
  | num _ =>
    rcases h with rfl | h
    · decide
    · exact not_isSpace_of_digit h
  | str _ => simp [Json.Starts] at h; subst h; decide
  | arr _ => simp [Json.Starts] at h; subst h; decide
  | obj _ => simp [Json.Starts] at h; subst h; decide

theorem Json.not_starts_rbrack (v : Json) : ¬ v.Starts Ch.rbrack := by
  cases v with
  | bool b => cases b <;> simp only [Json.Starts] <;> decide
  | _ => simp only [Json.Starts]; decide

/-- Elements begin with a value. -/
theorem Der.elems_starts {s t : Bytes} {vs : List Json} (h : Der s (.elems vs) t) :
    ∃ c u, s.dropWhile IsSpace = c :: u ∧ c ≠ Ch.rbrack := by
  have start : ∀ {s₁ s₂ : Bytes} {v : Json}, Ws s s₁ → Der s₁ (.val v) s₂ →
      ∃ c u, s.dropWhile IsSpace = c :: u ∧ c ≠ Ch.rbrack := by
    intro s₁ s₂ v hw hd
    obtain ⟨c, u, rfl, hc⟩ := hd.starts
    exact ⟨c, u, hw.dropWhile_eq hc.not_isSpace, fun h => v.not_starts_rbrack (h ▸ hc)⟩
  cases h with
  | elemLast hw hd _ => exact start hw hd
  | elemCons hw hd _ _ => exact start hw hd

/-- Members begin with a quote. -/
theorem Der.mems_starts {s t : Bytes} {ms : List (Bytes × Json)} (h : Der s (.mems ms) t) :
    ∃ u, s.dropWhile IsSpace = Ch.quote :: u := by
  cases h with
  | memLast hw _ _ _ _ _ => exact ⟨_, hw.dropWhile_eq (by decide)⟩
  | memCons hw _ _ _ _ _ _ => exact ⟨_, hw.dropWhile_eq (by decide)⟩

/-- Whitespace before elements. -/
theorem Ws.elems {s s' t : Bytes} {vs : List Json} (h : Ws s s') (hd : Der s' (.elems vs) t) :
    Der s (.elems vs) t := by
  cases hd with
  | elemLast h1 h2 h3 => exact .elemLast (h.trans h1) h2 h3
  | elemCons h1 h2 h3 h4 => exact .elemCons (h.trans h1) h2 h3 h4

theorem NumTok.head_append {b : UInt8} {tok r t : Bytes} (h : NumTok tok) (he : b :: r = tok ++ t) :
    b = Ch.minus ∨ is_digit b = true := by
  obtain ⟨c, u, rfl, hc⟩ := h.cons_head
  exact (List.cons.inj he).1 ▸ hc

/-- A value that begins with a bracket is an array. -/
theorem Der.array_inv {r t : Bytes} {v : Json} (h : Der (Ch.lbrack :: r) (.val v) t) :
    ∃ vs, v = .arr vs ∧ (vs = [] ∧ Ws r (Ch.rbrack :: t) ∨ Der r (.elems vs) (Ch.rbrack :: t)) := by
  generalize hs : Ch.lbrack :: r = s at h
  cases h with
  | arrNil hw =>
    obtain ⟨-, rfl⟩ := List.cons.inj hs
    exact ⟨[], rfl, .inl ⟨rfl, hw⟩⟩
  | arr he =>
    obtain ⟨-, rfl⟩ := List.cons.inj hs
    exact ⟨_, rfl, .inr he⟩
  | num htok => exact absurd (NumTok.head_append htok hs) (by decide)
  | _ => exact absurd (List.cons.inj hs).1 (by decide)

/-- A value that begins with a brace is an object. -/
theorem Der.object_inv {r t : Bytes} {v : Json} (h : Der (Ch.lbrace :: r) (.val v) t) :
    ∃ ms, v = .obj ms ∧ (ms = [] ∧ Ws r (Ch.rbrace :: t) ∨ Der r (.mems ms) (Ch.rbrace :: t)) := by
  generalize hs : Ch.lbrace :: r = s at h
  cases h with
  | objNil hw =>
    obtain ⟨-, rfl⟩ := List.cons.inj hs
    exact ⟨[], rfl, .inl ⟨rfl, hw⟩⟩
  | obj he =>
    obtain ⟨-, rfl⟩ := List.cons.inj hs
    exact ⟨_, rfl, .inr he⟩
  | num htok => exact absurd (NumTok.head_append htok hs) (by decide)
  | _ => exact absurd (List.cons.inj hs).1 (by decide)

/-! ### Cutting the end off -/

/-- `s` without its last `n` bytes. -/
def cut (n : ℕ) (s : Bytes) : Bytes := s.take (s.length - n)

theorem cut_cons {n : ℕ} {b : UInt8} {s : Bytes} (h : n ≤ s.length) :
    cut n (b :: s) = b :: cut n s := by
  rw [cut, List.length_cons, Nat.succ_sub h, List.take_succ_cons, cut]

theorem cut_append {n : ℕ} {t : Bytes} (h : n ≤ t.length) : ∀ a : Bytes, cut n (a ++ t) = a ++ cut n t
  | [] => rfl
  | b :: a => by
    rw [List.cons_append, cut_cons (by simp; omega), cut_append h a, List.cons_append]

theorem cut_length (t : Bytes) : cut t.length t = [] := by simp [cut]

theorem Ws.cut {s t : Bytes} (h : Ws s t) {n : ℕ} (hn : n ≤ t.length) : Ws (cut n s) (cut n t) := by
  induction h with
  | nil => exact .nil _
  | cons hb hw ih =>
    rw [cut_cons (hn.trans hw.suffix.length_le)]
    exact .cons hb (ih hn)

theorem StrBody.cut {s body t : Bytes} (h : StrBody s body t) {n : ℕ} (hn : n ≤ t.length) :
    StrBody (cut n s) body (cut n t) := by
  have le : ∀ {s body t : Bytes}, StrBody s body t → n ≤ t.length → n ≤ s.length :=
    fun h hn => hn.trans h.suffix.2.le
  induction h with
  | quote t =>
    rw [cut_cons hn]
    exact .quote _
  | char h1 h2 h3 hb ih =>
    rw [cut_cons (le hb hn)]
    exact .char h1 h2 h3 (ih hn)
  | esc h1 hb ih =>
    change StrBody (SonicJson.cut n ([_, _] ++ _)) _ _
    rw [cut_append (le hb hn)]
    exact .esc h1 (ih hn)
  | uni h1 h2 h3 hb ih =>
    change StrBody (SonicJson.cut n ([_, _, _, _, _, _] ++ _)) _ _
    rw [cut_append (le hb hn)]
    exact .uni h1 h2 h3 (ih hn)
  | pair h1 h2 h3 h4 hb ih =>
    change StrBody (SonicJson.cut n ([_, _, _, _, _, _, _, _, _, _, _, _] ++ _)) _ _
    rw [cut_append (le hb hn)]
    exact .pair h1 h2 h3 h4 (ih hn)

/-- What stays after the cut: the bracket after elements and members. -/
def Item.closing : Item → ℕ
  | .val _ => 0
  | _ => 1

/-- What is read of a text does not depend on what comes after it. -/
theorem Der.cut {s t : Bytes} {it : Item} (h : Der s it t) {n : ℕ} (hn : n + it.closing ≤ t.length) :
    Der (cut n s) it (cut n t) := by
  have le : ∀ {s t : Bytes} {it : Item}, Der s it t → n ≤ t.length → n ≤ s.length :=
    fun h hn => hn.trans h.suffix.2.le
  have lew : ∀ {b : UInt8} {s t : Bytes}, Ws s (b :: t) → n ≤ t.length → n ≤ s.length := fun h hn => by
    have := h.suffix.length_le
    rw [List.length_cons] at this
    omega
  have les : ∀ {s b t : Bytes}, StrBody s b t → n ≤ t.length → n ≤ s.length :=
    fun h hn => hn.trans h.suffix.2.le
  -- whitespace before a byte that stays
  have ws : ∀ {b : UInt8} {s t : Bytes}, Ws s (b :: t) → n ≤ t.length →
      Ws (SonicJson.cut n s) (b :: SonicJson.cut n t) := fun h hn => by
    have := h.cut (n := n) (by rw [List.length_cons]; omega)
    rwa [cut_cons hn] at this
  induction h with
  | null =>
    rw [cut_append (n := n) hn]
    exact .null
  | true =>
    rw [cut_append (n := n) hn]
    exact .true
  | false =>
    rw [cut_append (n := n) hn]
    exact .false
  | num h =>
    rw [cut_append (n := n) hn]
    exact .num h
  | str h =>
    rw [cut_cons (les h hn)]
    exact .str (h.cut hn)
  | arrNil h =>
    rw [cut_cons (lew h hn)]
    exact .arrNil (ws h hn)
  | @arr s vs t h ih =>
    have := ih (by rw [List.length_cons]; exact Nat.add_le_add_right hn 1)
    rw [cut_cons (n := n) hn] at this
    rw [cut_cons (le h (by rw [List.length_cons]; exact hn.trans (Nat.le_succ _)))]
    exact .arr this
  | objNil h =>
    rw [cut_cons (lew h hn)]
    exact .objNil (ws h hn)
  | @obj s ms t h ih =>
    have := ih (by rw [List.length_cons]; exact Nat.add_le_add_right hn 1)
    rw [cut_cons (n := n) hn] at this
    rw [cut_cons (le h (by rw [List.length_cons]; exact hn.trans (Nat.le_succ _)))]
    exact .obj this
  | @elemLast s s₁ s₂ v t h₁ hd h₂ ih =>
    have hn : n ≤ t.length := Nat.le_of_succ_le_succ hn
    have h₃ := lew h₂ hn
    rw [cut_cons hn]
    exact .elemLast (h₁.cut (le hd h₃)) (ih h₃) (ws h₂ hn)
  | @elemCons s s₁ s₂ s₃ v vs t h₁ hd h₂ hr ih₁ ih₂ =>
    have h₃ : n ≤ s₃.length := le hr (Nat.le_of_succ_le hn)
    have h₄ := lew h₂ h₃
    exact .elemCons (h₁.cut (le hd h₄)) (ih₁ h₄) (ws h₂ h₃) (ih₂ hn)
  | @memLast s s₁ s₂ s₃ s₄ s₅ k v t h₁ hk h₂ h₃ hd h₄ ih =>
    have hn : n ≤ t.length := Nat.le_of_succ_le_succ hn
    have h₅ := lew h₄ hn
    have h₆ := (le hd h₅).trans h₃.suffix.length_le
    have h₇ := lew h₂ h₆
    rw [cut_cons hn]
    exact .memLast (ws h₁ (les hk h₇)) (hk.cut h₇) (ws h₂ h₆) (h₃.cut (le hd h₅)) (ih h₅) (ws h₄ hn)
  | @memCons s s₁ s₂ s₃ s₄ s₅ s₆ k v ms t h₁ hk h₂ h₃ hd h₄ hr ih₁ ih₂ =>
    have h₀ : n ≤ s₆.length := le hr (Nat.le_of_succ_le hn)
    have h₅ := lew h₄ h₀
    have h₆ := (le hd h₅).trans h₃.suffix.length_le
    have h₇ := lew h₂ h₆
    exact .memCons (ws h₁ (les hk h₇)) (hk.cut h₇) (ws h₂ h₆) (h₃.cut (le hd h₅)) (ih₁ h₅)
      (ws h₄ h₀) (ih₂ hn)

/-- The text of a value, cut out of a longer one. -/
theorem Der.slice {a t : Bytes} {v : Json} (h : Der (a ++ t) (.val v) t) : Der a (.val v) [] := by
  have := h.cut (n := t.length) le_rfl
  rwa [cut_append le_rfl, cut_length, List.append_nil] at this

/-! ### Bytes behind a text -/

theorem Ws.append {s t : Bytes} (h : Ws s t) (u : Bytes) : Ws (s ++ u) (t ++ u) := by
  induction h with
  | nil => exact .nil _
  | cons hb _ ih => exact .cons hb ih

theorem StrBody.append {s body t : Bytes} (h : StrBody s body t) (u : Bytes) :
    StrBody (s ++ u) body (t ++ u) := by
  induction h with
  | quote t => exact .quote _
  | char h1 h2 h3 _ ih => exact .char h1 h2 h3 ih
  | esc h1 _ ih => exact .esc h1 ih
  | uni h1 h2 h3 _ ih => exact .uni h1 h2 h3 ih
  | pair h1 h2 h3 h4 _ ih => exact .pair h1 h2 h3 h4 ih

/-- More bytes behind what is left. -/
theorem Der.append {s t : Bytes} {it : Item} (h : Der s it t) (u : Bytes) :
    Der (s ++ u) it (t ++ u) := by
  induction h with
  | null =>
    rw [List.append_assoc]
    exact .null
  | true =>
    rw [List.append_assoc]
    exact .true
  | false =>
    rw [List.append_assoc]
    exact .false
  | num h =>
    rw [List.append_assoc]
    exact .num h
  | str h => exact .str (h.append u)
  | arrNil h => exact .arrNil (h.append u)
  | arr _ ih => exact .arr ih
  | objNil h => exact .objNil (h.append u)
  | obj _ ih => exact .obj ih
  | elemLast h1 _ h2 ih => exact .elemLast (h1.append u) ih (h2.append u)
  | elemCons h1 _ h2 _ ih ihs => exact .elemCons (h1.append u) ih (h2.append u) ihs
  | memLast h1 hk h2 h3 _ h4 ih =>
    exact .memLast (h1.append u) (hk.append u) (h2.append u) (h3.append u) ih (h4.append u)
  | memCons h1 hk h2 h3 _ h4 _ ih ihs =>
    exact .memCons (h1.append u) (hk.append u) (h2.append u) (h3.append u) ih (h4.append u) ihs

end SonicJson
