/-
# Skipping one value

`SkipOne` skips a value by its first byte alone: a string, a container or a
literal to its end, a number to the next bracket or comma. On JSON it stops
after the value, or past some of the whitespace there (`SkipOne_value`).
-/
import SonicJson.Grammar
import SonicJson.SkipContainer

namespace SonicJson

open Cursor

variable (A : Arch)

def IsValidSeparator (c : UInt8) : Bool :=
  c == 0 || c == Ch.tab || c == Ch.lf || c == Ch.cr || c == Ch.space || c == Ch.comma ||
    c == Ch.rbrack ||
    c == Ch.rbrace

def EqBytes4 (data : Bytes) (src : ℕ) (target : Bytes) : Bool := slice data src (src + 4) == target

/-- The literal whose first byte `token` is before `pos`. -/
def SkipLiteral (data : Bytes) (pos len : ℕ) (token : UInt8) : Bool × ℕ :=
  let start := pos - 1
  if token = Ch.t then
    if start + 4 ≤ len && EqBytes4 data start kTrue &&
      (start + 4 == len || IsValidSeparator (rd data (start + 4))) then
      (true, pos + 3)
    else (false, pos)
  else if token = Ch.n then
    if start + 4 ≤ len && EqBytes4 data start kNull &&
      (start + 4 == len || IsValidSeparator (rd data (start + 4))) then
      (true, pos + 3)
    else (false, pos)
  else if token = Ch.f then
    if start + 5 ≤ len && EqBytes4 data (start + 1) (kFalse.drop 1) &&
        (start + 5 == len || IsValidSeparator (rd data (start + 5))) then (true, pos + 4)
    else (false, pos)
  else (false, pos)

def SkipNumber (data : Bytes) (pos len : ℕ) : ℕ :=
  (GetNextToken A data pos len [Ch.rbrack, Ch.rbrace, Ch.comma]).2

/-- The body of a value whose first byte `c` is before `pos`: whether it is skipped, and to where. -/
def skipValue (data : Bytes) (pos len : ℕ) (c : UInt8) : Bool × ℕ :=
  if c = Ch.quote then
    let r := SkipString A data pos len
    (decide (r.1 ≠ kUnclosed), r.2)
  else if c = Ch.lbrace then SkipObject data pos len
  else if c = Ch.lbrack then SkipArray data pos len
  else if c = Ch.t ∨ c = Ch.n ∨ c = Ch.f then SkipLiteral data pos len c
  else if is_digit c || c == Ch.minus then (true, SkipNumber A data pos len)
  else (false, pos)

/-- Skips one value: where it begins, or the error that the source returns negated. -/
def SkipOne (data : Bytes) (pos len : ℕ) (k : SpaceBits) : Except SonicError ℕ × ℕ × SpaceBits :=
  let (c, pos, k) := skip_space_safe data pos len k
  let start := pos - 1
  let (ok, pos) := skipValue A data pos len c
  (if ok then .ok start else .error .kParseErrorInvalidChar, pos, k)

theorem le_skipValue (data : Bytes) (pos len : ℕ) (c : UInt8) :
    pos ≤ (skipValue A data pos len c).2 := by
  unfold skipValue SkipLiteral SkipNumber SkipObject SkipArray SkipContainer
  dsimp only
  split_ifs
  all_goals first
    | exact le_SkipString pos
    | exact le_GetNextToken pos
    | exact le_skipContainerBlocks _ _ _
    | exact Nat.le_add_right _ _
    | exact le_rfl

/-! ### The end of a string, on strings -/

theorem hex4_plain {a b c d : UInt8} {cp : ℕ} (h : hex4 a b c d = some cp) :
    ∀ x ∈ [a, b, c, d], x ≠ Ch.quote ∧ x ≠ Ch.bslash := by
  unfold hex4 at h
  split at h
  · rename_i h1 h2 h3 h4
    simp only [List.mem_cons, List.not_mem_nil, or_false]
    rintro x (rfl | rfl | rfl | rfl)
    exacts [hexDigit_plain h1, hexDigit_plain h2, hexDigit_plain h3, hexDigit_plain h4]
  · simp at h

theorem strEnd_cons_plain {b : UInt8} {s : Bytes} (h : b ≠ Ch.quote ∧ b ≠ Ch.bslash) :
    strEnd false (b :: s) = strEnd false s := by
  rw [strEnd, if_neg h.1, show (b == Ch.bslash) = false by simpa using h.2]

theorem strEnd_append_plain {s : Bytes} : ∀ {a : Bytes}, (∀ x ∈ a, x ≠ Ch.quote ∧ x ≠ Ch.bslash) →
    strEnd false (a ++ s) = strEnd false s
  | [], _ => rfl
  | b :: a, h => by
    rw [List.cons_append, strEnd_cons_plain (h b List.mem_cons_self),
      strEnd_append_plain fun x hx => h x (List.mem_cons_of_mem _ hx)]

theorem strEnd_bslash (c : UInt8) (s : Bytes) :
    strEnd false (Ch.bslash :: c :: s) = strEnd false s := by
  rw [strEnd, if_neg (by decide), show (Ch.bslash == Ch.bslash) = true by decide, strEnd]

theorem strEnd_strBody {s body t : Bytes} (h : StrBody s body t) : strEnd false s = some t := by
  induction h with
  | quote t => rw [strEnd, if_pos rfl]
  | char h1 h2 _ _ ih => rw [strEnd_cons_plain ⟨h1, h2⟩, ih]
  | esc _ _ ih => rw [strEnd_bslash, ih]
  | @uni a b c d cp s body t hx _ _ _ ih =>
    rw [strEnd_bslash, show a :: b :: c :: d :: s = [a, b, c, d] ++ s from rfl,
      strEnd_append_plain (hex4_plain hx), ih]
  | @pair a b c d a' b' c' d' hi lo s body t hx _ hx' _ _ ih =>
    rw [strEnd_bslash, show a :: b :: c :: d :: Ch.bslash :: Ch.u :: a' :: b' :: c' :: d' :: s =
      [a, b, c, d] ++ (Ch.bslash :: Ch.u :: ([a', b', c', d'] ++ s)) from rfl,
        strEnd_append_plain (hex4_plain hx),
      strEnd_bslash, strEnd_append_plain (hex4_plain hx'), ih]

/-! ### The end of a container, on JSON -/

section
variable {left right : UInt8} {d : ℕ} {s : Bytes}

/-- A byte that is neither a quote, a backslash nor one of the brackets. -/
def Neutral (left right b : UInt8) : Prop := b ≠ Ch.quote ∧ b ≠ Ch.bslash ∧ b ≠ left ∧ b ≠ right

theorem contEnd_neutral {b : UInt8} (h : Neutral left right b) :
    contEnd left right false false d (b :: s) = contEnd left right false false d s := by
  obtain ⟨h1, h2, h3, h4⟩ := h
  simp [contEnd, beq_false_of_ne h1, beq_false_of_ne h2, h3, h4]

theorem contEnd_neutral_append : ∀ {a : Bytes}, (∀ b ∈ a, Neutral left right b) →
    contEnd left right false false d (a ++ s) = contEnd left right false false d s
  | [], _ => rfl
  | b :: a, h => by
    rw [List.cons_append, contEnd_neutral (h b List.mem_cons_self),
      contEnd_neutral_append fun x hx => h x (List.mem_cons_of_mem _ hx)]

/-- Inside a string only quotes and backslashes count. -/
theorem contEnd_inString {b : UInt8} (h : b ≠ Ch.quote ∧ b ≠ Ch.bslash) :
    contEnd left right true false d (b :: s) = contEnd left right true false d s := by
  simp [contEnd, beq_false_of_ne h.1, beq_false_of_ne h.2]

theorem contEnd_inString_append : ∀ {a : Bytes}, (∀ b ∈ a, b ≠ Ch.quote ∧ b ≠ Ch.bslash) →
    contEnd left right true false d (a ++ s) = contEnd left right true false d s
  | [], _ => rfl
  | b :: a, h => by
    rw [List.cons_append, contEnd_inString (h b List.mem_cons_self),
      contEnd_inString_append fun x hx => h x (List.mem_cons_of_mem _ hx)]

theorem contEnd_bslash (c : UInt8) :
    contEnd left right true false d (Ch.bslash :: c :: s) = contEnd left right true false d s := by
  simp [contEnd, show (Ch.bslash == Ch.quote) = false by decide]

variable (hl : left ≠ Ch.quote) (hr : right ≠ Ch.quote)
include hl hr

theorem contEnd_quote (ins : Bool) :
    contEnd left right ins false d (Ch.quote :: s) = contEnd left right (!ins) false d s := by
  have hqb : (Ch.quote == Ch.bslash) = false := by decide
  cases ins <;> simp [contEnd, Ne.symm hl, Ne.symm hr, hqb]

theorem contEnd_strBody {body t : Bytes} (h : StrBody s body t) :
    contEnd left right true false d s = contEnd left right false false d t := by
  induction h with
  | quote t => exact contEnd_quote hl hr true
  | char h1 h2 _ _ ih => rw [contEnd_inString ⟨h1, h2⟩, ih]
  | esc _ _ ih => rw [contEnd_bslash, ih]
  | @uni a b c d' cp s body t hx _ _ _ ih =>
    rw [contEnd_bslash, show a :: b :: c :: d' :: s = [a, b, c, d'] ++ s from rfl,
      contEnd_inString_append (hex4_plain hx), ih]
  | @pair a b c d' a' b' c' d'' hi lo s body t hx _ hx' _ _ ih =>
    rw [contEnd_bslash, show a :: b :: c :: d' :: Ch.bslash :: Ch.u :: a' :: b' :: c' :: d'' :: s =
      [a, b, c, d'] ++ (Ch.bslash :: Ch.u :: ([a', b', c', d''] ++ s)) from rfl,
      contEnd_inString_append (hex4_plain hx), contEnd_bslash,
      contEnd_inString_append (hex4_plain hx'), ih]

end

/-- The brackets of one of the two kinds of container. -/
def Brackets (left right : UInt8) : Prop :=
  left = Ch.lbrack ∧ right = Ch.rbrack ∨ left = Ch.lbrace ∧ right = Ch.rbrace

/-- The bytes of a number. -/
def NumByte (b : UInt8) : Prop :=
  is_digit b = true ∨ b = Ch.minus ∨ b = Ch.plus ∨ b = Ch.dot ∨ b = Ch.e ∨ b = Ch.upE

theorem NumTok.bytes {tok : Bytes} (h : NumTok tok) : ∀ b ∈ tok, NumByte b := by
  obtain @⟨m, i, f, e, hm, hi, hf, he⟩ := h
  intro b hb
  simp only [List.mem_append] at hb
  rcases hb with ((hb | hb) | hb) | hb
  · rcases hm with rfl | rfl
    · simp at hb
    · simp only [List.mem_singleton] at hb
      exact .inr (.inl hb)
  · cases hi with
    | zero =>
      simp only [List.mem_singleton] at hb
      subst hb
      exact .inl (by decide)
    | pos hd _ hds =>
      rcases List.mem_cons.mp hb with rfl | hb
      exacts [.inl hd, .inl (hds b hb)]
  · cases hf with
    | none => simp at hb
    | some hd hds =>
      simp only [List.mem_cons] at hb
      rcases hb with rfl | rfl | hb
      exacts [.inr (.inr (.inr (.inl rfl))), .inl hd, .inl (hds b hb)]
  · cases he with
    | none => simp at hb
    | some hexp hsg hd hds =>
      simp only [List.mem_cons, List.mem_append] at hb
      rcases hb with rfl | hb | rfl | hb
      · rcases hexp with rfl | rfl
        exacts [.inr (.inr (.inr (.inr (.inl rfl)))), .inr (.inr (.inr (.inr (.inr rfl))))]
      · rcases hsg with rfl | rfl | rfl
        · simp at hb
        · simp only [List.mem_singleton] at hb
          exact .inr (.inr (.inl hb))
        · simp only [List.mem_singleton] at hb
          exact .inr (.inl hb)
      · exact .inl hd
      · exact .inl (hds b hb)

theorem ne_of_digit {b : UInt8} (c : UInt8) (h : is_digit b = true) (hc : is_digit c = false) :
    b ≠ c := by
  rintro rfl
  rw [h] at hc
  exact absurd hc (by decide)

theorem NumByte.ne {b : UInt8} (h : NumByte b) (c : UInt8) (hd : is_digit c = false)
    (hc : c ≠ Ch.minus ∧ c ≠ Ch.plus ∧ c ≠ Ch.dot ∧ c ≠ Ch.e ∧ c ≠ Ch.upE) : b ≠ c := by
  obtain ⟨h1, h2, h3, h4, h5⟩ := hc
  rcases h with h | rfl | rfl | rfl | rfl | rfl
  · exact ne_of_digit c h hd
  all_goals exact Ne.symm (by assumption)

section
variable {left right : UInt8} (hb : Brackets left right)
include hb

theorem Brackets.ne : left ≠ right := by rcases hb with ⟨rfl, rfl⟩ | ⟨rfl, rfl⟩ <;> decide

theorem Brackets.right_ne_zero : right ≠ 0 := by rcases hb with ⟨rfl, rfl⟩ | ⟨rfl, rfl⟩ <;> decide

theorem Brackets.left_ne_quote : left ≠ Ch.quote := by rcases hb with ⟨rfl, rfl⟩ | ⟨rfl, rfl⟩ <;> decide

theorem Brackets.right_ne_quote :
    right ≠ Ch.quote := by rcases hb with ⟨rfl, rfl⟩ | ⟨rfl, rfl⟩ <;> decide

theorem Brackets.neutral_space {b : UInt8} (h : IsSpace b = true) : Neutral left right b := by
  simp only [IsSpace, Bool.or_eq_true, beq_iff_eq] at h
  rcases hb with ⟨rfl, rfl⟩ | ⟨rfl, rfl⟩ <;> rcases h with ((rfl | rfl) | rfl) | rfl <;>
    exact ⟨by decide, by decide, by decide, by decide⟩

theorem Brackets.neutral_num {b : UInt8} (h : NumByte b) : Neutral left right b := by
  have hq := h.ne Ch.quote (by decide) ⟨by decide, by decide, by decide, by decide, by decide⟩
  have hs := h.ne Ch.bslash (by decide) ⟨by decide, by decide, by decide, by decide, by decide⟩
  rcases hb with ⟨rfl, rfl⟩ | ⟨rfl, rfl⟩
  · exact ⟨hq, hs, h.ne _ (by decide) ⟨by decide, by decide, by decide, by decide, by decide⟩,
      h.ne _ (by decide) ⟨by decide, by decide, by decide, by decide, by decide⟩⟩
  · exact ⟨hq, hs, h.ne _ (by decide) ⟨by decide, by decide, by decide, by decide, by decide⟩,
      h.ne _ (by decide) ⟨by decide, by decide, by decide, by decide, by decide⟩⟩

theorem Brackets.neutral_literal {lit : Bytes} (h : lit = kNull ∨ lit = kTrue ∨ lit = kFalse) :
    ∀ b ∈ lit, Neutral left right b := by
  have : ∀ b ∈ kNull ++ kTrue ++ kFalse, Neutral left right b := by
    simp only [kNull, kTrue, kFalse, List.mem_append, List.mem_cons, List.not_mem_nil, or_false]
    rcases hb with ⟨rfl, rfl⟩ | ⟨rfl, rfl⟩ <;>
      rintro b (((rfl | rfl | rfl | rfl) | (rfl | rfl | rfl | rfl)) | (rfl | rfl | rfl | rfl | rfl)) <;>
      exact ⟨by decide, by decide, by decide, by decide⟩
  intro b hm
  apply this
  rcases h with rfl | rfl | rfl <;> simp [hm]

variable {d : ℕ}

theorem contEnd_ws {s t : Bytes} (h : Ws s t) :
    contEnd left right false false d s = contEnd left right false false d t := by
  induction h with
  | nil => rfl
  | cons hs _ ih => rw [contEnd_neutral (hb.neutral_space hs), ih]

theorem contEnd_left {s : Bytes} :
    contEnd left right false false d (left :: s) = contEnd left right false false (d + 1) s := by
  have hqb : ∀ c : UInt8, c = Ch.lbrack ∨ c = Ch.lbrace → (c == Ch.quote) = false ∧
      (c == Ch.bslash) = false := by
    rintro c (rfl | rfl) <;> decide
  obtain ⟨h1, h2⟩ := hqb left (by rcases hb with ⟨rfl, rfl⟩ | ⟨rfl, rfl⟩ <;> simp)
  simp [contEnd, h1, h2, hb.ne]

theorem contEnd_right {s : Bytes} : contEnd left right false false d (right :: s) =
    if d = 0 then some s else contEnd left right false false (d - 1) s := by
  have hqb : ∀ c : UInt8, c = Ch.rbrack ∨ c = Ch.rbrace → (c == Ch.quote) = false ∧
      (c == Ch.bslash) = false := by
    rintro c (rfl | rfl) <;> decide
  obtain ⟨h1, h2⟩ := hqb right (by rcases hb with ⟨rfl, rfl⟩ | ⟨rfl, rfl⟩ <;> simp)
  simp [contEnd, h1, h2]

theorem contEnd_other {l r : UInt8} (hp : Brackets l r) (hne : l ≠ left) :
    Neutral left right l ∧ Neutral left right r := by
  rcases hb with ⟨rfl, rfl⟩ | ⟨rfl, rfl⟩ <;> rcases hp with ⟨rfl, rfl⟩ | ⟨rfl, rfl⟩
  · exact absurd rfl hne
  · exact ⟨⟨by decide, by decide, by decide, by decide⟩, ⟨by decide, by decide, by decide, by decide⟩⟩
  · exact ⟨⟨by decide, by decide, by decide, by decide⟩, ⟨by decide, by decide, by decide, by decide⟩⟩
  · exact absurd rfl hne

theorem Brackets.right_eq {r : UInt8} (hp : Brackets left r) : r = right := by
  rcases hb with ⟨rfl, rfl⟩ | ⟨rfl, rfl⟩ <;> rcases hp with ⟨h, rfl⟩ | ⟨h, rfl⟩ <;>
    first | rfl | exact absurd h (by decide)

/-- An opening and a closing bracket of either kind, with something balanced between. -/
theorem contEnd_pair {l r : UInt8} (hp : Brackets l r) {s t : Bytes}
    (h : ∀ d, contEnd left right false false d s = contEnd left right false false d (r :: t)) :
    contEnd left right false false d (l :: s) = contEnd left right false false d t := by
  by_cases hne : l = left
  · subst hne
    obtain rfl := hb.right_eq hp
    rw [contEnd_left hb, h, contEnd_right hb, if_neg (by omega), Nat.add_sub_cancel]
  · obtain ⟨h1, h2⟩ := contEnd_other hb hp hne
    rw [contEnd_neutral h1, h, contEnd_neutral h2]

/-- **Values are balanced**: what is skipped to the end of a container may begin with any value. -/
theorem contEnd_der {s t : Bytes} {it : Item} (h : Der s it t) : ∀ d,
    contEnd left right false false d s = contEnd left right false false d t := by
  have comma : ∀ {d s}, contEnd left right false false d (Ch.comma :: s) =
      contEnd left right false false d s := fun {d s} => contEnd_neutral (by
    rcases hb with ⟨rfl, rfl⟩ | ⟨rfl, rfl⟩ <;> exact ⟨by decide, by decide, by decide, by decide⟩)
  have colon : ∀ {d s}, contEnd left right false false d (Ch.colon :: s) =
      contEnd left right false false d s := fun {d s} => contEnd_neutral (by
    rcases hb with ⟨rfl, rfl⟩ | ⟨rfl, rfl⟩ <;> exact ⟨by decide, by decide, by decide, by decide⟩)
  have str : ∀ {s body t d}, StrBody s body t → contEnd left right false false d (Ch.quote :: s) =
      contEnd left right false false d t := fun {s body t d} hs => by
    rw [contEnd_quote hb.left_ne_quote hb.right_ne_quote]
    exact contEnd_strBody hb.left_ne_quote hb.right_ne_quote hs
  induction h with
  | null => exact fun d => contEnd_neutral_append (hb.neutral_literal (.inl rfl))
  | true => exact fun d => contEnd_neutral_append (hb.neutral_literal (.inr (.inl rfl)))
  | false => exact fun d => contEnd_neutral_append (hb.neutral_literal (.inr (.inr rfl)))
  | num h => exact fun d => contEnd_neutral_append fun b hm => hb.neutral_num (h.bytes b hm)
  | str h => exact fun d => str h
  | arrNil h => exact fun d => contEnd_pair hb (.inl ⟨rfl, rfl⟩) fun d => contEnd_ws hb h
  | arr _ ih => exact fun d => contEnd_pair hb (.inl ⟨rfl, rfl⟩) ih
  | objNil h => exact fun d => contEnd_pair hb (.inr ⟨rfl, rfl⟩) fun d => contEnd_ws hb h
  | obj _ ih => exact fun d => contEnd_pair hb (.inr ⟨rfl, rfl⟩) ih
  | elemLast h₁ _ h₂ ih => exact fun d => by rw [contEnd_ws hb h₁, ih, contEnd_ws hb h₂]
  | elemCons h₁ _ h₂ _ ih ih' =>
    exact fun d => by rw [contEnd_ws hb h₁, ih, contEnd_ws hb h₂, comma, ih']
  | memLast h₁ hk h₂ h₃ _ h₄ ih =>
    exact fun d => by
      rw [contEnd_ws hb h₁, str hk, contEnd_ws hb h₂, colon, contEnd_ws hb h₃, ih, contEnd_ws hb h₄]
  | memCons h₁ hk h₂ h₃ _ h₄ _ ih ih' =>
    exact fun d => by
      rw [contEnd_ws hb h₁, str hk, contEnd_ws hb h₂, colon, contEnd_ws hb h₃, ih,
        contEnd_ws hb h₄, comma, ih']

end

theorem brackets_array : Brackets Ch.lbrack Ch.rbrack := .inl ⟨rfl, rfl⟩

theorem brackets_object : Brackets Ch.lbrace Ch.rbrace := .inr ⟨rfl, rfl⟩

theorem contEnd_array {s t : Bytes}
    (h : Ws s (Ch.rbrack :: t) ∨ ∃ vs, Der s (.elems vs) (Ch.rbrack :: t)) :
    contEnd Ch.lbrack Ch.rbrack false false 0 s = some t := by
  have : contEnd Ch.lbrack Ch.rbrack false false 0 s =
      contEnd Ch.lbrack Ch.rbrack false false 0 (Ch.rbrack :: t) := by
    rcases h with h | ⟨_, h⟩
    exacts [contEnd_ws brackets_array h, contEnd_der brackets_array h 0]
  rw [this, contEnd_right brackets_array, if_pos rfl]

theorem contEnd_object {s t : Bytes}
    (h : Ws s (Ch.rbrace :: t) ∨ ∃ ms, Der s (.mems ms) (Ch.rbrace :: t)) :
    contEnd Ch.lbrace Ch.rbrace false false 0 s = some t := by
  have : contEnd Ch.lbrace Ch.rbrace false false 0 s =
      contEnd Ch.lbrace Ch.rbrace false false 0 (Ch.rbrace :: t) := by
    rcases h with h | ⟨_, h⟩
    exacts [contEnd_ws brackets_object h, contEnd_der brackets_object h 0]
  rw [this, contEnd_right brackets_object, if_pos rfl]

/-! ### A scanner on a text -/

/-- A scanner at `pos`, with `s` left of the text of length `len`. -/
structure Scan (data : Bytes) (len pos : ℕ) (k : SpaceBits) (s : Bytes) : Prop where
  left : Left data len pos s
  valid : k.Valid data pos

theorem Ws.dropWhile {s t : Bytes} (h : Ws s t) : s.dropWhile IsSpace = t.dropWhile IsSpace := by
  induction h with
  | nil => rfl
  | cons hb _ ih => rw [List.dropWhile_cons, if_pos hb, ih]

section
variable {data : Bytes} {len pos : ℕ} {k : SpaceBits} {s t u : Bytes}

theorem Scan.move {p : ℕ} (h : Scan data len pos k s) (hp : Left data len p t) (hle : pos ≤ p) :
    Scan data len p k t :=
  ⟨hp, h.valid.mono hle⟩

/-- The next byte that is no space. -/
theorem Scan.skip_space {c : UInt8} (h : Scan data len pos k s) (hs : s.dropWhile IsSpace = c :: t) :
    ∃ p' k', skip_space_safe data pos len k = (c, p', k') ∧ Scan data len p' k' t ∧ pos < p' := by
  have hl := h.left.length_add
  have hlt : (data.take len).length = len := by
    have := h.left.le
    simp
    omega
  obtain ⟨q, hn, hq, hc, ht⟩ := nonSpace_of_dropWhile h.left.at' hs
  rw [hlt] at hq
  have hrd : ∀ i, i < len → rd (data.take len) i = rd data i := fun i hi => by
    conv_rhs => rw [← List.take_append_drop len data]
    rw [rd_append_left (by omega)]
  have hn' : NonSpace data pos q := by
    refine ⟨hn.le, fun i hi hiq => ?_, ?_⟩
    · rw [← hrd i (by omega)]
      exact hn.space i hi hiq
    · rw [← hrd q hq]
      exact hn.nonspace
  have hspec := skip_space_safe_spec h.valid (show pos ≤ len by omega)
  obtain ⟨h1, h2⟩ := hspec.found q hn' hq
  have h3 := hspec.valid
  rcases hr : skip_space_safe data pos len k with ⟨c', p', k'⟩
  rw [hr] at h1 h2 h3
  simp only at h1 h2 h3
  subst h1 h2
  have hle := hn.le
  rw [hrd q hq] at hc
  exact ⟨_, _, by rw [hc], ⟨⟨ht, h.left.le⟩, h3⟩, by omega⟩

/-- Nothing but spaces: the last byte of the text comes again. -/
theorem Scan.skip_space_end (h : Scan data len pos k s) (hs : s.dropWhile IsSpace = []) :
    ∃ k', skip_space_safe data pos len k = (rd data (len - 1), len, k') ∧ Scan data len len k' [] := by
  have hl := h.left.length_add
  have hle := h.left.le
  have hall : ∀ i, pos ≤ i → i < len → IsSpace (rd data i) = true := fun i hi hil => by
    obtain ⟨j, rfl⟩ := Nat.exists_eq_add_of_le hi
    rw [h.left.rd_add (by omega), ← Bool.not_eq_false]
    intro hc
    have hj : j < s.length := by omega
    have := (List.dropWhile_eq_nil_iff.mp hs) _ (rd_mem hj)
    rw [hc] at this
    exact absurd this (by decide)
  have hspec := skip_space_safe_spec h.valid (show pos ≤ len by omega)
  obtain ⟨h1, h2⟩ := hspec.none hall
  have h3 := hspec.valid
  rcases hr : skip_space_safe data pos len k with ⟨c', p', k'⟩
  rw [hr] at h1 h2 h3
  simp only at h1 h2 h3
  subst h1 h2
  refine ⟨k', rfl, ⟨⟨⟨?_, by simp; omega⟩, hle⟩, h3⟩⟩
  simp

/-- The first byte of a value is read. -/
theorem Scan.value {s₀ : Bytes} {v : Json} (h : Scan data len pos k s₀) (hw : Ws s₀ s)
    (hd : Der s (.val v) t) :
    ∃ c r p k', s = c :: r ∧ v.Starts c ∧ skip_space_safe data pos len k = (c, p + 1, k') ∧
      Scan data len (p + 1) k' r ∧ Left data len p s := by
  obtain ⟨c, r, rfl, hst⟩ := hd.starts
  obtain ⟨p, k', h1, h2, h3⟩ := h.skip_space (hw.dropWhile_eq hst.not_isSpace)
  have hl := h.left.suffix hw.suffix
  have hp := h2.left.unique hl.succ
  rw [hp] at h1 h2
  exact ⟨c, r, _, k', rfl, hst, h1, h2, hl⟩

end

/-! ### On JSON -/

/-- After whitespace, `u` is the end of the text, a comma or a closing bracket. -/
def Next (t u : Bytes) : Prop :=
  Ws t u ∧ (u = [] ∨ ∃ c r, u = c :: r ∧ (c = Ch.comma ∨ c = Ch.rbrack ∨ c = Ch.rbrace))

theorem next_comma {t r : Bytes} (h : Ws t (Ch.comma :: r)) :
    Next t (Ch.comma :: r) := ⟨h, .inr ⟨_, _, rfl, .inl rfl⟩⟩

theorem next_rbrack {t r : Bytes} (h : Ws t (Ch.rbrack :: r)) : Next t (Ch.rbrack :: r) :=
  ⟨h, .inr ⟨_, _, rfl, .inr (.inl rfl)⟩⟩

theorem next_rbrace {t r : Bytes} (h : Ws t (Ch.rbrace :: r)) : Next t (Ch.rbrace :: r) :=
  ⟨h, .inr ⟨_, _, rfl, .inr (.inr rfl)⟩⟩

theorem Next.follow {t u : Bytes} (h : Next t u) : Follow t := by
  refine h.1.follow ?_
  rcases h.2 with rfl | ⟨c, r, rfl, rfl | rfl | rfl⟩
  exacts [trivial, follow_comma r, follow_rbrack r, follow_rbrace r]

theorem tokens_space {b : UInt8} (h : IsSpace b = true) :
    ([Ch.rbrack, Ch.rbrace, Ch.comma] : Bytes).contains b = false := by
  simp only [IsSpace, Bool.or_eq_true, beq_iff_eq] at h
  rcases h with ((rfl | rfl) | rfl) | rfl <;> decide

theorem tokens_num {b : UInt8} (h : NumByte b) :
    ([Ch.rbrack, Ch.rbrace, Ch.comma] : Bytes).contains b = false := by
  have h1 := h.ne Ch.rbrack (by decide) ⟨by decide, by decide, by decide, by decide, by decide⟩
  have h2 := h.ne Ch.rbrace (by decide) ⟨by decide, by decide, by decide, by decide, by decide⟩
  have h3 := h.ne Ch.comma (by decide) ⟨by decide, by decide, by decide, by decide, by decide⟩
  simp [h1, h2, h3]

theorem dropWhile_tokens_ws {t u : Bytes} (h : Ws t u) :
    t.dropWhile (fun b => !([Ch.rbrack, Ch.rbrace, Ch.comma] : Bytes).contains b) =
      u.dropWhile (fun b => !([Ch.rbrack, Ch.rbrace, Ch.comma] : Bytes).contains b) := by
  induction h with
  | nil => rfl
  | cons hb _ ih => rw [List.dropWhile_cons, if_pos (by rw [tokens_space hb]; rfl), ih]

theorem Next.dropWhile {t u : Bytes} (h : Next t u) :
    t.dropWhile (fun b => !([Ch.rbrack, Ch.rbrace, Ch.comma] : Bytes).contains b) = u := by
  rw [dropWhile_tokens_ws h.1]
  rcases h.2 with rfl | ⟨c, r, rfl, rfl | rfl | rfl⟩
  · rfl
  all_goals rw [List.dropWhile_cons, if_neg (by decide)]

/-- Where a number is skipped to: the next bracket or comma. -/
theorem SkipNumber_eq {data : Bytes} {len pos : ℕ} {a t u : Bytes} (h : Left data len pos (a ++ t))
    (ha : ∀ b ∈ a, NumByte b) (hn : Next t u) : SkipNumber A data pos len = len - u.length := by
  rw [SkipNumber, GetNextToken_eq h,
    List.dropWhile_append_of_pos fun b hb => by rw [tokens_num (ha b hb)]; rfl, hn.dropWhile]
  cases u with
  | nil => simp [tokenAt]
  | cons c r => rfl

theorem slice_of_left {data : Bytes} {len pos : ℕ} {a t : Bytes} (h : Left data len pos (a ++ t)) :
    slice data pos (pos + a.length) = a := by
  have hl := h.length_add
  simp only [List.length_append] at hl
  have h1 := h.slice_eq
  rw [slice] at h1 ⊢
  rw [Nat.add_sub_cancel_left]
  have h2 : ((data.drop pos).take (len - pos)).take a.length = a := by
    rw [h1, List.take_left]
  rwa [List.take_take, Nat.min_eq_left (by omega)] at h2

theorem separator_of_follow {data : Bytes} {len p : ℕ} {t : Bytes} (h : Left data len p t)
    (hf : Follow t) :
    (p == len || IsValidSeparator (rd data p)) = true := by
  cases t with
  | nil =>
    have := h.length_add
    simp only [List.length_nil, Nat.add_zero] at this
    simp [this]
  | cons b t =>
    rw [h.rd_eq, Bool.or_eq_true]
    right
    rcases hf with hs | rfl | rfl | rfl
    · simp only [IsSpace, Bool.or_eq_true, beq_iff_eq] at hs
      rcases hs with ((rfl | rfl) | rfl) | rfl <;> decide
    all_goals decide

/-- The value whose first byte has been read: skipped to its end, a number to `u`. -/
theorem skipValue_eq {data : Bytes} {len p : ℕ} {c : UInt8} {r t u : Bytes} {v : Json}
    (h : Left data len p (c :: r)) (hd : Der (c :: r) (.val v) t) (hn : Next t u) :
    ∃ t', skipValue A data (p + 1) len c = (true, len - t'.length) ∧ t' <:+ r ∧
      (t' = t ∨ (∃ tok, v = .num tok) ∧ t' = u) := by
  have hl := h.length_add
  have hsuf := hd.suffix
  simp only [List.length_cons] at hl hsuf
  have hts : t <:+ r := by
    rcases List.suffix_cons_iff.mp hsuf.1 with rfl | h
    · simp at hsuf
    · exact h
  have literal : ∀ {lit : Bytes} {n : ℕ}, c :: r = lit ++ t → lit.length = n + 1 →
      p + lit.length ≤ len ∧ slice data p (p + lit.length) = lit ∧ p + 1 + n = len - t.length ∧
      (p + lit.length == len || IsValidSeparator (rd data (p + lit.length))) = true := by
    intro lit n he hlit
    have h' := he ▸ h
    have hl' := h'.length_add
    simp only [List.length_append] at hl'
    exact ⟨by omega, slice_of_left h', by omega, separator_of_follow h'.append hn.follow⟩
  generalize hs : c :: r = s at hd h
  cases hd with
  | null =>
    obtain ⟨h1, h2, h3, h4⟩ := literal hs (n := 3) rfl
    obtain ⟨rfl, rfl⟩ := List.cons.inj hs
    refine ⟨t, ?_, hts, .inl rfl⟩
    have e : SkipLiteral data (p + 1) len Ch.n = (true, p + 1 + 3) := by
      rw [SkipLiteral, if_neg (by decide), if_pos rfl, Nat.add_sub_cancel]
      have h4' : (p + 4 == len || IsValidSeparator (rd data (p + 4))) = true := h4
      have h2' : EqBytes4 data p kNull = true := beq_iff_eq.mpr h2
      rw [h4', h2', show decide (p + 4 ≤ len) = true from decide_eq_true h1]
      rfl
    rw [skipValue, if_neg (by decide), if_neg (by decide), if_neg (by decide), if_pos (by decide),
      e, ← h3]
  | true =>
    obtain ⟨h1, h2, h3, h4⟩ := literal hs (n := 3) rfl
    obtain ⟨rfl, rfl⟩ := List.cons.inj hs
    refine ⟨t, ?_, hts, .inl rfl⟩
    have e : SkipLiteral data (p + 1) len Ch.t = (true, p + 1 + 3) := by
      rw [SkipLiteral, if_pos rfl, Nat.add_sub_cancel]
      have h4' : (p + 4 == len || IsValidSeparator (rd data (p + 4))) = true := h4
      have h2' : EqBytes4 data p kTrue = true := beq_iff_eq.mpr h2
      rw [h4', h2', show decide (p + 4 ≤ len) = true from decide_eq_true h1]
      rfl
    rw [skipValue, if_neg (by decide), if_neg (by decide), if_neg (by decide), if_pos (by decide),
      e, ← h3]
  | false =>
    obtain ⟨h1, h2, h3, h4⟩ := literal hs (n := 4) rfl
    have h5 := (h.succ (b := Ch.f) (t := kFalse.drop 1 ++ t))
    obtain ⟨rfl, rfl⟩ := List.cons.inj hs
    refine ⟨t, ?_, hts, .inl rfl⟩
    have e : SkipLiteral data (p + 1) len Ch.f = (true, p + 1 + 4) := by
      rw [SkipLiteral, if_neg (by decide), if_neg (by decide), if_pos rfl, Nat.add_sub_cancel]
      have h4' : (p + 5 == len || IsValidSeparator (rd data (p + 5))) = true := h4
      have h2' : EqBytes4 data (p + 1) (kFalse.drop 1) = true := beq_iff_eq.mpr (slice_of_left h5)
      rw [h4', h2', show decide (p + 5 ≤ len) = true from decide_eq_true h1]
      rfl
    rw [skipValue, if_neg (by decide), if_neg (by decide), if_neg (by decide), if_pos (by decide),
      e, ← h3]
  | @num tok _ hnum =>
    obtain ⟨b, tl, rfl, hb⟩ := hnum.cons_head
    obtain ⟨rfl, rfl⟩ := List.cons.inj hs
    have hbytes := hnum.bytes
    have hc := hbytes c List.mem_cons_self
    have hsn := @SkipNumber_eq A data len (p + 1) tl t u h.succ (fun b hb =>
      hbytes b (List.mem_cons_of_mem _ hb)) hn
    refine ⟨u, ?_, hn.1.suffix.trans (List.suffix_append tl t), .inr ⟨⟨_, rfl⟩, rfl⟩⟩
    have hlit : ¬ (c = Ch.t ∨ c = Ch.n ∨ c = Ch.f) := by
      rintro (rfl | rfl | rfl) <;> revert hb <;> decide
    have hdig : (is_digit c || c == Ch.minus) = true := by
      rw [Bool.or_eq_true, beq_iff_eq]
      exact hb.symm
    rw [skipValue, if_neg (hc.ne _ (by decide) ⟨by decide, by decide, by decide, by decide, by decide⟩),
      if_neg (hc.ne _ (by decide) ⟨by decide, by decide, by decide, by decide, by decide⟩),
      if_neg (hc.ne _ (by decide) ⟨by decide, by decide, by decide, by decide, by decide⟩), if_neg hlit,
      if_pos hdig, hsn]
  | str hb =>
    obtain ⟨rfl, rfl⟩ := List.cons.inj hs
    have hspec := @SkipString_spec A data len (p + 1) r h.succ
    rw [strEnd_strBody hb] at hspec
    refine ⟨t, ?_, hts, .inl rfl⟩
    rw [skipValue, if_pos rfl]
    obtain ⟨h1, h2⟩ := hspec
    have : (SkipString A data (p + 1) len).1 ≠ kUnclosed := by
      rcases h1 with h1 | ⟨h1, -⟩ <;> rw [h1] <;> decide
    simp only [this, ne_eq, not_false_eq_true, decide_true, h2]
  | arrNil hw =>
    obtain ⟨rfl, rfl⟩ := List.cons.inj hs
    have hspec := SkipContainer_spec brackets_array.ne brackets_array.right_ne_zero h.succ
    rw [contEnd_array (.inl hw)] at hspec
    refine ⟨t, ?_, hts, .inl rfl⟩
    rw [skipValue, if_neg (by decide), if_neg (by decide), if_pos rfl]
    exact hspec
  | arr he =>
    obtain ⟨rfl, rfl⟩ := List.cons.inj hs
    have hspec := SkipContainer_spec brackets_array.ne brackets_array.right_ne_zero h.succ
    rw [contEnd_array (.inr ⟨_, he⟩)] at hspec
    refine ⟨t, ?_, hts, .inl rfl⟩
    rw [skipValue, if_neg (by decide), if_neg (by decide), if_pos rfl]
    exact hspec
  | objNil hw =>
    obtain ⟨rfl, rfl⟩ := List.cons.inj hs
    have hspec := SkipContainer_spec brackets_object.ne brackets_object.right_ne_zero h.succ
    rw [contEnd_object (.inl hw)] at hspec
    refine ⟨t, ?_, hts, .inl rfl⟩
    rw [skipValue, if_neg (by decide), if_pos rfl]
    exact hspec
  | obj he =>
    obtain ⟨rfl, rfl⟩ := List.cons.inj hs
    have hspec := SkipContainer_spec brackets_object.ne brackets_object.right_ne_zero h.succ
    rw [contEnd_object (.inr ⟨_, he⟩)] at hspec
    refine ⟨t, ?_, hts, .inl rfl⟩
    rw [skipValue, if_neg (by decide), if_pos rfl]
    exact hspec

/-- **Skipping a value of a JSON text**: the scanner lands after it, or, after a number, past the
whitespace too. -/
theorem SkipOne_value {data : Bytes} {len pos : ℕ} {k : SpaceBits} {s₀ s t u : Bytes} {v : Json}
    (h : Scan data len pos k s₀) (hw : Ws s₀ s) (hd : Der s (.val v) t) (hn : Next t u) :
    ∃ p k' t', SkipOne A data pos len k = (.ok (len - s.length), p, k') ∧ Scan data len p k' t' ∧
      Ws t t' ∧ Ws t' u ∧
      (t' = t ∨ (∃ tok, v = .num tok) ∧ t' = u) := by
  obtain ⟨c, r, rfl, hst⟩ := hd.starts
  have hdw := hw.dropWhile_eq hst.not_isSpace
  obtain ⟨p, k', hsk, hsc, -⟩ := h.skip_space hdw
  have hleft : Left data len (p - 1) (c :: r) ∧ 0 < p := by
    have h1 := h.left.suffix hw.suffix
    have h2 := h1.succ.unique hsc.left
    have : p - 1 = len - (c :: r).length := by omega
    rw [this]
    exact ⟨h1, by omega⟩
  obtain ⟨hleft, hp0⟩ := hleft
  have hp : p - 1 + 1 = p := by omega
  obtain ⟨t', hv, hts, ht'⟩ := skipValue_eq A hleft hd hn
  rw [hp] at hv
  refine ⟨len - t'.length, k', t', ?_, ?_, ?_, ?_, ht'⟩
  · rw [SkipOne, hsk]
    simp only [hv, if_true]
    have := hleft.length_add
    congr 2
    omega
  · have hl := hsc.left.length_add
    have := hts.length_le
    exact hsc.move (hsc.left.suffix hts) (by omega)
  · rcases ht' with rfl | ⟨-, rfl⟩
    exacts [.nil _, hn.1]
  · rcases ht' with rfl | ⟨-, rfl⟩
    exacts [hn.1, .nil _]

/-- The bytes that are passed over are those of the value, with whitespace behind a number. -/
theorem SkipOne_raw {data : Bytes} {len pos : ℕ} {k : SpaceBits} {s₀ s t u : Bytes} {v : Json}
    (h : Scan data len pos k s₀) (hw : Ws s₀ s) (hd : Der s (.val v) t) (hn : Next t u) :
    ∃ start p k' t', SkipOne A data pos len k = (.ok start, p, k') ∧ Scan data len p k' t' ∧
      Ws t t' ∧ Ws t' u ∧
      s = slice data start p ++ t' ∧ (t' = t ∨ ∃ tok, v = .num tok) ∧
        ∃ w, Der (slice data start p) (.val v) w ∧ Ws w [] := by
  obtain ⟨p, k', t', h1, h2, h3, h4, h5⟩ := SkipOne_value A h hw hd hn
  refine ⟨_, p, k', t', h1, h2, h3, h4, ?_⟩
  have hl := h.left.suffix hw.suffix
  obtain ⟨a, rfl⟩ := h3.suffix.trans hd.suffix.1
  have hp : p = len - (a ++ t').length + a.length := by
    have h6 := h2.left.length_add
    have h7 := hl.length_add
    simp only [List.length_append] at h7 ⊢
    omega
  rw [hp, slice_of_left hl]
  refine ⟨rfl, h5.imp_right fun h => h.1, ?_⟩
  rcases h5 with rfl | ⟨⟨tok, rfl⟩, -⟩
  · exact ⟨[], hd.slice, .nil _⟩
  · generalize hs : a ++ t' = s at hd
    cases hd with
    | num htok =>
      have h6 := h3.cut (n := t'.length) le_rfl
      rw [cut_length] at h6
      refine ⟨cut t'.length t, ?_, h6⟩
      have h7 := cut_append (n := t'.length) le_rfl a
      rw [cut_length, List.append_nil, hs, cut_append h3.suffix.length_le] at h7
      rw [← h7]
      exact .num htok

/-- The bytes that are passed over are a text of the value, with whitespace behind a number. -/
theorem SkipOne_slice {data : Bytes} {len pos : ℕ} {k : SpaceBits} {s₀ s t u : Bytes} {v : Json}
    (h : Scan data len pos k s₀) (hw : Ws s₀ s) (hd : Der s (.val v) t) (hn : Next t u) :
    ∃ start p k' t', SkipOne A data pos len k = (.ok start, p, k') ∧ Scan data len p k' t' ∧
      Ws t t' ∧ Ws t' u ∧
      JsonText (slice data start p) v := by
  obtain ⟨start, p, k', t', h1, h2, h3, h4, -, -, w, h5, h6⟩ := SkipOne_raw A h hw hd hn
  exact ⟨start, p, k', t', h1, h2, h3, h4, _, w, .nil _, h5, h6⟩

end SonicJson
