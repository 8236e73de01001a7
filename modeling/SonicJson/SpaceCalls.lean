/-
# The remembered mask is never stale

A mask of 64 bytes is read once and used for the calls of `skip_space` that follow,
while the strings between them are decoded in place. `Skips` is the parser as a program
that calls `skip_space` (`step_eq`, `start_eq`: with `skip_space` put in it is the
parser), so that the states in which it calls are there to be spoken of. In each of them
the mask is that of the buffer as it is, and the call does what a loop over the bytes
does (`skip_space_faithful`).
-/
import SonicJson.Lib.Calls
import SonicJson.Document

namespace SonicJson

open Cursor Machine

/-! ### Byte by byte -/

/-- Skips spaces one byte at a time: the first byte that is none, and the position behind it. -/
def skip_bytes (data : Bytes) : ℕ → ℕ → UInt8 × ℕ
  | 0, pos => (rd data pos, pos + 1)
  | fuel + 1, pos =>
    if IsSpace (rd data pos) then skip_bytes data fuel (pos + 1) else (rd data pos, pos + 1)

section
variable {data data' : Bytes} {pos q : ℕ} {k : SpaceBits}

theorem skip_bytes_eq (h : NonSpace data pos q) : ∀ fuel p, pos ≤ p → p ≤ q → q ≤ p + fuel →
    skip_bytes data fuel p = (rd data q, q + 1)
  | 0, p, _, hp, hf => by
    obtain rfl : p = q := by omega
    rfl
  | fuel + 1, p, hpos, hp, hf => by
    rw [skip_bytes]
    rcases Nat.lt_or_eq_of_le hp with hlt | rfl
    · rw [if_pos (h.space p hpos hlt)]
      exact skip_bytes_eq h fuel (p + 1) (by omega) (by omega) (by omega)
    · rw [if_neg (by rw [h.nonspace]; decide)]

/-- A byte that is no space comes, behind the end if not before. -/
theorem exists_nonSpace (data : Bytes) (pos : ℕ) :
    ∃ q, NonSpace data pos q ∧ q ≤ max pos data.length := by
  have hex : ∃ q, pos ≤ q ∧ IsSpace (rd data q) = false := by
    refine ⟨max pos data.length, le_max_left _ _, ?_⟩
    rw [rd_of_length_le (le_max_right _ _)]
    decide
  classical
  have hmin := fun q (h : q < Nat.find hex) => Nat.find_min hex h
  refine ⟨Nat.find hex, ⟨(Nat.find_spec hex).1, fun i hi hl => ?_, (Nat.find_spec hex).2⟩,
    Nat.find_min' hex ⟨le_max_left _ _, ?_⟩⟩
  · by_contra hc
    exact hmin i hl ⟨hi, by simpa using hc⟩
  · rw [rd_of_length_le (le_max_right _ _)]
    decide

/-! ### What is remembered -/

theorem SpaceBits.covers_init (data : Bytes) (pos : ℕ) : SpaceBits.init.Covers data pos where
  block h := absurd h (Nat.lt_irrefl 0)
  le := Nat.zero_le _
  bit _ _ h := absurd h (Nat.not_lt_zero _)

/-- Only the bytes from the position on matter. -/
theorem SpaceBits.Covers.congr (h : k.Covers data pos)
    (hd : ∀ i, pos ≤ i → rd data' i = rd data i) : k.Covers data' pos where
  block := h.block
  le := h.le
  bit i hi hl := by
    rw [hd i hi]
    exact h.bit i hi hl

theorem found_space_covers : ∀ (fuel pos : ℕ) (k : SpaceBits), k.Covers data pos →
    pos ≤ (found_space data fuel pos k).2.1 ∧
      (found_space data fuel pos k).2.2.Covers data (found_space data fuel pos k).2.1
  | 0, _, _, h => ⟨le_rfl, h⟩
  | fuel + 1, pos, k, h => by
    rw [found_space]
    dsimp only
    split
    · dsimp only
      exact ⟨by omega, SpaceBits.covers_block data pos (by omega)⟩
    · obtain ⟨h1, h2⟩ := found_space_covers fuel (pos + 64) k (h.mono (by omega))
      exact ⟨by omega, h2⟩

theorem skip_space_covers (h : k.Covers data pos) :
    (skip_space data pos k).2.2.Covers data (skip_space data pos k).2.1 := by
  unfold skip_space
  split
  · exact h.mono (Nat.le_succ pos)
  split
  · exact h.mono (Nat.le_add_right pos 2)
  dsimp only
  split
  · exact (found_space_covers _ _ _ (h.mono (by omega))).2
  rename_i hlt
  have h' := h.mono (q := pos + 2) (by omega)
  split
  · exact (found_space_covers _ _ _ (h.mono (by omega))).2
  · rename_i hz
    have := (h'.nonSpace (not_le.mp hlt) hz).le
    exact h.mono (by dsimp only; omega)

theorem skip_tail_covers {len : ℕ} (h : k.Covers data pos) :
    pos ≤ (skip_tail data len pos k).2.1 ∧
      (skip_tail data len pos k).2.2.Covers data (skip_tail data len pos k).2.1 := by
  exact ⟨le_space_tail len pos, h.mono (le_space_tail len pos)⟩

theorem found_space_safe_covers {len : ℕ} : ∀ (fuel pos : ℕ) (k : SpaceBits), k.Covers data pos →
    pos ≤ (found_space_safe data len fuel pos k).2.1 ∧
      (found_space_safe data len fuel pos k).2.2.Covers data (found_space_safe data len fuel pos k).2.1
  | 0, _, _, h => skip_tail_covers h
  | fuel + 1, pos, k, h => by
    rw [found_space_safe]
    dsimp only
    split
    swap
    · exact skip_tail_covers h
    split
    · dsimp only
      exact ⟨by omega, SpaceBits.covers_block data pos (by omega)⟩
    · obtain ⟨h1, h2⟩ := found_space_safe_covers fuel (pos + 64) k (h.mono (by omega))
      exact ⟨by omega, h2⟩

theorem skip_space_safe_covers {len : ℕ} (h : k.Covers data pos) :
    pos ≤ (skip_space_safe data pos len k).2.1 ∧
      (skip_space_safe data pos len k).2.2.Covers data (skip_space_safe data pos len k).2.1 := by
  unfold skip_space_safe
  split
  · exact skip_tail_covers h
  split
  · exact ⟨Nat.le_succ pos, h.mono (Nat.le_succ pos)⟩
  split
  · exact ⟨by dsimp only; omega, h.mono (by dsimp only; omega)⟩
  dsimp only
  split
  · obtain ⟨h1, h2⟩ := found_space_safe_covers len (pos + 2) k (h.mono (by omega))
    exact ⟨by omega, h2⟩
  rename_i hlt
  have h' := h.mono (q := pos + 2) (by omega)
  split
  · obtain ⟨h1, h2⟩ := found_space_safe_covers len k.nonspace_bits_end k (h.mono (by omega))
    exact ⟨by omega, h2⟩
  · rename_i hz
    have := (h'.nonSpace (not_le.mp hlt) hz).le
    exact ⟨by dsimp only; omega, h.mono (by dsimp only; omega)⟩

/-- What a call of `skip_space` finds: the mask is true from the position on, the assertions hold,
and the call does what the loop over the bytes does. -/
structure SkipsFaithfully (data : Bytes) (pos : ℕ) (k : SpaceBits) : Prop where
  same : ((skip_space data pos k).1, (skip_space data pos k).2.1) = skip_bytes data data.length pos
  bits : ∀ i, pos ≤ i → i < k.nonspace_bits_end →
    k.nonspace_bits.getLsbD (i + 64 - k.nonspace_bits_end) = !IsSpace (rd data i)
  asserts : IsSpace (rd data pos) = true → IsSpace (rd data (pos + 1)) = true →
    pos + 2 < k.nonspace_bits_end →
    k.nonspace_bits_end < pos + 2 + 64 ∧ 64 ≤ k.nonspace_bits_end ∧ k.nonspace_bits_end - 64 ≤ pos + 2

theorem SpaceBits.Covers.faithful (h : k.Covers data pos) : SkipsFaithfully data pos k where
  same := by
    obtain ⟨q, hq, hle⟩ := exists_nonSpace data pos
    obtain ⟨k', hk', -⟩ := skip_space_eq h.valid hq hle
    rw [hk', skip_bytes_eq hq data.length pos le_rfl hq.le (by omega)]
  bits := h.bit
  asserts _ _ hlt := by
    have h1 := h.block (by omega)
    have h2 := h.le
    omega

end

/-! ### The parser as a program that calls `skip_space` -/

namespace Parser

variable {σ : Type*}

/-- What is left of a passage from a label to the next: calls of `SkipSpace`, and where they lead. -/
abbrev Skips (σ : Type*) := Calls (Parser σ) (Label × Parser σ)

namespace Skips

variable (E : Env σ) (p : Parser σ)

def sonic_check_err (k : Parser σ → Skips σ) : Skips σ :=
  if p.err_ ≠ .kErrorNone then .ret p.err_invalid_char else k p

def sonic_sax_check (r : Bool × Parser σ) (k : Parser σ → Skips σ) : Skips σ :=
  if r.1 then k r.2 else .ret (.doc_end, r.2.setFirstError .kSaxTermination)

def scope_end : Skips σ :=
  sonic_check_err p fun p =>
    let p := p.setDepth p.depth.tail
    if p.depth.isEmpty then .ret (.doc_end, p)
    else .call p fun p => .ret (if p.back &&& kArrMask ≠ 0 then .arr_cont else .obj_cont, p)

def start_object : Skips σ :=
  sonic_sax_check (p.call E.H.StartObject) fun p =>
    .call (p.setDepth (kObjMask :: p.depth)) fun p =>
      if p.c = Ch.rbrace then sonic_sax_check (p.call (E.H.EndObject 0)) scope_end
        else .ret (.obj_key, p)

def start_array : Skips σ :=
  sonic_sax_check (p.call E.H.StartArray) fun p =>
    .call (p.setDepth (kArrMask :: p.depth)) fun p =>
      if p.c = Ch.rbrack then sonic_sax_check (p.call (E.H.EndArray 0)) scope_end
        else .ret (.arr_val, p)

def value (cont : Label) : Skips σ :=
  let next (p : Parser σ) : Skips σ := .call p fun p => .ret (cont, p)
  let literal (r : Bool × Parser σ) : Skips σ :=
    sonic_check_err r.2 fun p => if !r.1 then .ret (.doc_end, p.setParseError .kSaxTermination)
      else next p
  if p.c = Ch.lbrace then start_object E p
  else if p.c = Ch.lbrack then start_array E p
  else if is_digit p.c || p.c == Ch.minus then sonic_check_err (p.parseNumber E) next
  else if p.c = Ch.t then literal (p.parseTrue E)
  else if p.c = Ch.f then literal (p.parseFalse E)
  else if p.c = Ch.n then literal (p.parseNull E)
  else if p.c = Ch.quote then sonic_sax_check (p.parseStrInPlace E) fun p => sonic_check_err p next
  else .ret p.err_invalid_char

/-- `Parser.skip_key` with its calls. -/
def skip_key : Skips σ :=
  let (start, pos, k) := SkipOne E.A p.json_buf_ p.pos_ p.len_ p.scan
  let p := { p with pos_ := pos, scan := k }
  if start = .ok 0 then .ret p.err_invalid_char
  else
    let (c, pos) := GetNextToken E.A p.json_buf_ p.pos_ p.len_ [Ch.quote, Ch.rbrace]
    let p := { p with c := c, pos_ := pos }
    if p.c = Ch.quote then .ret (.obj_key, { p with pos_ := p.pos_ + 1 })
    else if p.c = Ch.rbrace then
      sonic_sax_check (Parser.call { p with pos_ := p.pos_ + 1 } (E.H.EndObject p.back)) scope_end
    else .ret p.err_invalid_char

def obj_key : Skips σ :=
  if p.c ≠ Ch.quote then .ret p.err_invalid_char
  else
    let key := p.parseKeyInPlace E
    let found := key.1
    sonic_check_err key.2 fun p =>
      .call p fun p =>
        if p.c ≠ Ch.colon then .ret p.err_invalid_char
        else if !found then
          if E.H.check_key_return then skip_key E p
            else .ret (.doc_end, p.setFirstError .kSaxTermination)
        else .call p fun p => value E p .obj_cont

def obj_cont : Skips σ :=
  let p := p.count
  if p.c = Ch.comma then .call p fun p => .ret (.obj_key, p)
  else if p.c ≠ Ch.rbrace then .ret p.err_invalid_char
  else sonic_sax_check (p.call (E.H.EndObject p.back)) scope_end

def arr_cont : Skips σ :=
  let p := p.count
  if p.c = Ch.comma then .call p fun p => .ret (.arr_val, p)
  else if p.c = Ch.rbrack
    then sonic_sax_check (p.call (E.H.EndArray (p.back &&& (kArrMask - 1)))) scope_end
  else .ret p.err_invalid_char

def step : Label × Parser σ → Option (Skips σ)
  | (.obj_key, p) => some (obj_key E p)
  | (.obj_cont, p) => some (obj_cont E p)
  | (.arr_val, p) => some (value E p .arr_cont)
  | (.arr_cont, p) => some (arr_cont E p)
  | (.doc_end, _) => none

def start : Skips σ :=
  .call p fun p =>
    if p.c = Ch.lbrack then start_array E p
    else if p.c = Ch.lbrace then start_object E p
    else .ret (.doc_end, p.parsePrimitives E)

/-! It is the parser. -/

variable {E p}

theorem run_check_err (k : Parser σ → Skips σ) :
    (sonic_check_err p k).run SkipSpace = p.sonic_check_err fun p => (k p).run SkipSpace := by
  unfold sonic_check_err Parser.sonic_check_err
  split <;> rfl

theorem run_sax_check (r : Bool × Parser σ) (k : Parser σ → Skips σ) :
    (sonic_sax_check r k).run SkipSpace = Parser.sonic_sax_check r fun p => (k p).run SkipSpace := by
  unfold sonic_sax_check Parser.sonic_sax_check
  split <;> rfl

theorem run_scope_end : (scope_end p).run SkipSpace = p.scope_end := by
  rw [scope_end, run_check_err, Parser.scope_end]
  congr 1
  funext p
  dsimp only
  split <;> rfl

theorem run_start_object : (start_object E p).run SkipSpace = p.start_object E := by
  rw [start_object, run_sax_check, Parser.start_object]
  congr 1
  funext p
  dsimp only [Calls.run]
  split
  · rw [run_sax_check, funext fun p => run_scope_end]
  · rfl

theorem run_start_array : (start_array E p).run SkipSpace = p.start_array E := by
  rw [start_array, run_sax_check, Parser.start_array]
  congr 1
  funext p
  dsimp only [Calls.run]
  split
  · rw [run_sax_check, funext fun p => run_scope_end]
  · rfl

theorem run_value (cont : Label) : (value E p cont).run SkipSpace = p.value E cont := by
  unfold value Parser.value
  dsimp only
  split
  · exact run_start_object
  split
  · exact run_start_array
  split
  · rw [run_check_err]
    rfl
  have literal : ∀ r : Bool × Parser σ, (sonic_check_err r.2 fun p => if (!r.1) = true
      then .ret (.doc_end, p.setParseError .kSaxTermination)
      else .call p fun p => .ret (cont, p)).run SkipSpace = r.2.sonic_check_err fun p =>
        if (!r.1) = true then (.doc_end, p.setParseError .kSaxTermination)
          else (cont, p.SkipSpace) := by
    intro r
    rw [run_check_err]
    congr 1
    funext p
    split <;> rfl
  split
  · exact literal _
  split
  · exact literal _
  split
  · exact literal _
  split
  · rw [run_sax_check]
    congr 1
    funext p
    rw [run_check_err]
    rfl
  · rfl

theorem run_skip_key : (skip_key E p).run SkipSpace = p.skip_key E := by
  unfold skip_key Parser.skip_key
  dsimp only
  split
  · rfl
  split
  · rfl
  split
  · rw [run_sax_check, funext fun p => run_scope_end]
  · rfl

theorem run_obj_key : (obj_key E p).run SkipSpace = p.obj_key E := by
  unfold obj_key Parser.obj_key
  dsimp only
  split
  · rfl
  rw [run_check_err]
  congr 1
  funext p
  dsimp only [Calls.run]
  split
  · rfl
  split
  · split
    · exact run_skip_key
    · rfl
  · exact run_value _

/-- A step of the parser is the program with `skip_space` put in. -/
theorem step_eq (a : Label × Parser σ) : (step E a).map (Calls.run SkipSpace) = Parser.step E a := by
  obtain ⟨lbl, p⟩ := a
  cases lbl with
  | obj_key => exact congrArg some run_obj_key
  | obj_cont =>
    refine congrArg some ?_
    unfold obj_cont Parser.obj_cont
    dsimp only
    split
    · rfl
    split
    · rfl
    · rw [run_sax_check, funext fun p => run_scope_end]
  | arr_val => exact congrArg some (run_value _)
  | arr_cont =>
    refine congrArg some ?_
    unfold arr_cont Parser.arr_cont
    dsimp only
    split
    · rfl
    split
    · rw [run_sax_check, funext fun p => run_scope_end]
    · rfl
  | doc_end => rfl

theorem start_eq : (start E p).run SkipSpace = p.start E := by
  unfold start Parser.start
  dsimp only [Calls.run]
  split
  · exact run_start_array
  split
  · exact run_start_object
  · rfl

end Skips

/-! ### The mask along a run -/

variable {E : Env σ} {p : Parser σ} {pad r s : Bytes} {b : UInt8} {cont lbl : Label} {m : ℕ}

/-- What the parser remembers is true from its position on. -/
def Remembers (p : Parser σ) : Prop := p.scan.Covers p.json_buf_ p.pos_

theorem Remembers.SkipSpace (h : Remembers p) : Remembers p.SkipSpace := skip_space_covers h

theorem Remembers.move {q : ℕ} (h : Remembers p) (hq : p.pos_ ≤ q) :
    Remembers { p with pos_ := q } := h.mono hq

/-- `skip_space` is called where what is remembered is true, and so it is at the end, if the run
goes on. -/
def Keeps (c : Skips σ) : Prop := c.All Parser.SkipSpace Remembers fun a => a.1 = .doc_end ∨
    Remembers a.2

namespace Skips

theorem keeps_check_err {k : Parser σ → Skips σ} (h : p.err_ = .kErrorNone → Keeps (k p)) :
    Keeps (sonic_check_err p k) := by
  rw [sonic_check_err]
  split
  · exact .inl rfl
  · exact h (not_not.mp ‹_›)

theorem keeps_sax_check {k : Parser σ → Skips σ} {x : Bool × Parser σ} (h : Keeps (k x.2)) :
    Keeps (sonic_sax_check x k) := by
  rw [sonic_sax_check]
  split
  · exact h
  · exact .inl rfl

/-- One call, and on to a label. -/
theorem keeps_call {f : Parser σ → Label} (h : Remembers p) : Keeps (.call p fun p => .ret (f p, p)) :=
  ⟨h, .inr h.SkipSpace⟩

theorem keeps_scope_end (h : Remembers p) : Keeps (scope_end p) := by
  refine keeps_check_err fun _ => ?_
  dsimp only
  split
  · exact .inl rfl
  · exact keeps_call (f := fun p => if p.back &&& kArrMask ≠ 0 then .arr_cont else .obj_cont) h

/-- The first byte inside a container, which may end it. -/
theorem keeps_first {close : UInt8} {f : σ → Bool × σ} (h : Remembers p) :
    Keeps (.call p fun p => if p.c = close then sonic_sax_check (p.call f) scope_end
      else .ret (lbl, p)) := by
  have h' := h.SkipSpace
  refine ⟨h, ?_⟩
  dsimp only
  split
  · exact keeps_sax_check (keeps_scope_end h')
  · exact .inr h'

theorem keeps_start_object (h : Remembers p) :
    Keeps (start_object E p) := keeps_sax_check (keeps_first h)

theorem keeps_start_array (h : Remembers p) : Keeps (start_array E p) := keeps_sax_check (keeps_first h)

theorem keeps_skip_key (h : Remembers p) : Keeps (skip_key E p) := by
  obtain ⟨h1, h2⟩ := skip_space_safe_covers h
  have h3 := le_skipValue E.A p.json_buf_ (skip_space_safe p.json_buf_ p.pos_ p.len_ p.scan).2.1 p.len_
    (skip_space_safe p.json_buf_ p.pos_ p.len_ p.scan).1
  have hskip : (SkipOne E.A p.json_buf_ p.pos_ p.len_ p.scan).2.2.Covers p.json_buf_
      (SkipOne E.A p.json_buf_ p.pos_ p.len_ p.scan).2.1 := h2.mono h3
  unfold skip_key
  generalize SkipOne E.A p.json_buf_ p.pos_ p.len_ p.scan = x at hskip ⊢
  dsimp only
  split
  · exact .inl rfl
  have h4 := @le_GetNextToken E.A p.json_buf_ [Ch.quote, Ch.rbrace] p.len_ x.2.1
  generalize GetNextToken E.A p.json_buf_ x.2.1 p.len_ [Ch.quote, Ch.rbrace] = y at h4 ⊢
  have hnext : x.2.2.Covers p.json_buf_ (y.2 + 1) := hskip.mono (Nat.le_succ_of_le h4)
  split
  · exact .inr hnext
  split
  · exact keeps_sax_check (keeps_scope_end hnext)
  · exact .inl rfl

/-- A literal is behind the position. -/
theorem remembers_literal (h : Remembers p) :
    Remembers (p.parseTrue E).2 ∧ Remembers (p.parseFalse E).2 ∧ Remembers (p.parseNull E).2 := by
  unfold Parser.parseTrue Parser.parseFalse Parser.parseNull
  refine ⟨?_, ?_, ?_⟩
  · split
    exacts [h.move (Nat.le_add_right _ 3), h]
  · split
    exacts [h.move (Nat.le_add_right _ 4), h]
  · split
    exacts [h.move (Nat.le_add_right _ 3), h]

section
variable (hpad : Sentinel pad)
include hpad

/-- A string is decoded before the position behind it. -/
theorem remembers_parseStr {event : Bytes → σ → Bool × σ} (h : OnText p pad s) (hr : Remembers p)
    (he : (p.parseStr E event).2.err_ = .kErrorNone) : Remembers (p.parseStr E event).2 := by
  have herr : (p.parseStringHelper E).2.err_ = .kErrorNone := by
    by_contra hc
    rw [parseStr] at he
    dsimp only at he
    rw [if_pos hc] at he
    exact hc he
  -- the string ends in the text or in the padding
  obtain ⟨k, t, hk⟩ : ∃ k t, unescape E.parseFlags.kParseAllowUnescapedControlChars (s ++ pad) =
      .ok (k, t) := by
    rcases h.string_cases hpad herr with ⟨k, t, hk⟩ | ⟨k, hk⟩
    · exact ⟨k, _, unescape_append hk pad⟩
    · obtain ⟨q, rfl⟩ := hpad
      have := unescape_append hk (Ch.x :: q)
      rw [List.append_assoc] at this
      exact ⟨k, _, this⟩
  obtain ⟨buf', h1, h2, h3, -, -⟩ := parseStringInplace_ok E.A h.at' hk
  have h4 := h.at'.suffix (suffix_of_unescape hk)
  have h5 := (suffix_of_unescape hk).length_le
  have h6 := h.at'.length_add
  have hcov : p.scan.Covers buf' (p.json_buf_.length - t.length) := by
    refine SpaceBits.Covers.congr (hr.mono (by omega)) fun i hi => ?_
    obtain ⟨j, rfl⟩ := Nat.exists_eq_add_of_le hi
    rw [rd_at_add h3, rd_at_add h4]
  unfold parseStr parseStringHelper
  rw [h1]
  exact hcov

theorem remembers_parseNumber (h : Got p pad b r) (hr : Remembers p)
    (hb : is_digit b = true ∨ b = Ch.minus) :
    Remembers (p.parseNumber E) := by
  obtain ⟨t, ht, hon⟩ := @Got.number _ _ _ _ _ E.parseFlags E.F h hpad hb
  have h1 := hon.buf.left.length_add
  have h2 := h.toOnText.buf.left.length_add
  have h3 := ht.length_le
  dsimp only at h1
  have hle : p.pos_ ≤ (SonicJson.parseNumber E.F E.parseFlags p.json_buf_ p.len_ p.pos_).i := by omega
  unfold Parser.parseNumber
  dsimp only
  split <;> exact hr.mono hle

theorem keeps_value (h : Got p pad b r) (hr : Remembers p) : Keeps (value E p cont) := by
  have literal : ∀ {x : Bool × Parser σ}, Remembers x.2 → Keeps (sonic_check_err x.2 fun p =>
      if (!x.1) = true then .ret (.doc_end, p.setParseError .kSaxTermination) else .call p fun p =>
        .ret (cont, p)) := by
    intro x hx
    refine keeps_check_err fun _ => ?_
    split
    · exact .inl rfl
    · exact keeps_call (f := fun _ => cont) hx
  obtain ⟨htrue, hfalse, hnull⟩ := remembers_literal (E := E) hr
  unfold value
  dsimp only
  split
  · exact keeps_start_object hr
  split
  · exact keeps_start_array hr
  split
  · rename_i hd
    rw [h.c] at hd
    exact keeps_check_err fun _ =>
      keeps_call (f := fun _ => cont) (remembers_parseNumber hpad h hr (by simpa using hd))
  split
  · exact literal htrue
  split
  · exact literal hfalse
  split
  · exact literal hnull
  split
  · refine keeps_sax_check (keeps_check_err fun he => keeps_call (f := fun _ => cont) ?_)
    exact remembers_parseStr hpad h.toOnText hr he
  · exact .inl rfl

/-- A value after spaces; in the padding there is none. -/
theorem keeps_call_value (h : OnText p pad s) (hr : Remembers p) :
    Keeps (.call p fun p => value E p cont) := by
  refine ⟨hr, ?_⟩
  have hg : Goes pad s.length (Label.arr_val, p.SkipSpace) := goes_SkipSpace hpad h le_rfl
  rcases hg with h1 | h1 | ⟨b, r, h1, -⟩
  · cases h1
  · dsimp only at h1 ⊢
    rw [value, h1]
    exact .inl rfl
  · exact keeps_value hpad h1 hr.SkipSpace

theorem keeps_obj_key (h : Got p pad b r) (hr : Remembers p) : Keeps (obj_key E p) := by
  unfold obj_key
  dsimp only
  split
  · exact .inl rfl
  refine keeps_check_err fun he => ?_
  have hk : Remembers (p.parseKeyInPlace E).2 := remembers_parseStr hpad h.toOnText hr he
  refine ⟨hk, ?_⟩
  dsimp only
  split
  · exact .inl rfl
  rename_i hc
  split
  · split
    · exact keeps_skip_key hk.SkipSpace
    · exact .inl rfl
  rcases parseStr_inv hpad h.toOnText he with ⟨key, t, hk'⟩ | ⟨u, hu, -⟩
  · obtain ⟨p', e1, e2, -⟩ := @parseStr_done _ E _ _ _ _ _ E.H.Key h.toOnText hk'
    have e3 : p.parseKeyInPlace E = p'.call (E.H.Key key) := e1
    rw [e3] at hc hk ⊢
    obtain ⟨s₃, -, hg⟩ := (e2.call (E.H.Key key)).SkipSpace_inv hpad (not_not.mp hc) (by decide)
    exact keeps_call_value hpad hg.toOnText hk.SkipSpace
  · -- in the padding there is no colon
    have h5 : (p.parseKeyInPlace E).2.SkipSpace.c = Ch.x :=
      (hu.SkipSpace (b := Ch.x) (t := u) (by rw [List.dropWhile_cons, if_neg (by decide)])).2.1
    rw [h5] at hc
    exact absurd (by decide) hc

omit hpad in
theorem remembers_count (h : Remembers p) : Remembers p.count := by
  unfold Parser.count
  split <;> exact h

/-- One step, from a state on the text or from one that has read the padding. -/
theorem keeps_step {a : Label × Parser σ} {c : Skips σ} (hg : Goes pad m a) (hr : Remembers a.2)
    (hc : step E a = some c) :
    Keeps c := by
  obtain ⟨lbl, p⟩ := a
  have hcount := remembers_count hr
  cases lbl with
  | doc_end => cases hc
  | obj_key =>
    obtain rfl := Option.some.inj hc
    rcases hg with h | h | ⟨b, r, h, -⟩
    · cases h
    · dsimp only at h
      rw [obj_key, h]
      exact .inl rfl
    · exact keeps_obj_key hpad h hr
  | obj_cont =>
    obtain rfl := Option.some.inj hc
    unfold obj_cont
    dsimp only
    split
    · exact keeps_call (f := fun _ => .obj_key) hcount
    split
    · exact .inl rfl
    · exact keeps_sax_check (keeps_scope_end hcount)
  | arr_val =>
    obtain rfl := Option.some.inj hc
    rcases hg with h | h | ⟨b, r, h, -⟩
    · cases h
    · dsimp only at h
      rw [value, h]
      exact .inl rfl
    · exact keeps_value hpad h hr
  | arr_cont =>
    obtain rfl := Option.some.inj hc
    unfold arr_cont
    dsimp only
    split
    · exact keeps_call (f := fun _ => .arr_val) hcount
    split
    · exact keeps_sax_check (keeps_scope_end hcount)
    · exact .inl rfl

omit hpad in
theorem keeps_start (hr : Remembers p) : Keeps (start E p) := by
  refine ⟨hr, ?_⟩
  have h' := hr.SkipSpace
  dsimp only
  split
  · exact keeps_start_array h'
  split
  · exact keeps_start_object h'
  · exact .inl rfl

end

end Skips

/-! ### Runs -/

/-- On the text or at its end, and what is remembered is true. -/
structure Remembering (pad : Bytes) (a : Label × Parser σ) : Prop where
  goes : ∃ m, Goes pad m a
  remembers : a.1 = .doc_end ∨ Remembers a.2

theorem Remembering.step {a a' : Label × Parser σ} (hpad : Sentinel pad) (h : Remembering pad a)
    (hs : Parser.step E a = some a') : Remembering pad a' := by
  obtain ⟨lbl, p⟩ := a
  obtain ⟨m, hg⟩ := h.goes
  have hl : lbl ≠ .doc_end := by
    rintro rfl
    cases hs
  have hr : Remembers p := h.remembers.resolve_left hl
  -- the program of the step, and what it ends with
  obtain ⟨c, hc, rfl⟩ : ∃ c, Skips.step E (lbl, p) = some c ∧ c.run SkipSpace = a' := by
    rw [← Skips.step_eq, Option.map_eq_some_iff] at hs
    exact hs
  refine ⟨?_, (Skips.keeps_step hpad hg hr hc).run⟩
  rcases hg with h1 | h1 | ⟨b, r, h1, -⟩
  · exact absurd h1 hl
  · obtain ⟨q, hq, -⟩ := step_x (E := E) hl h1
    rw [← Option.some.inj (hq.symm.trans hs)]
    exact ⟨0, .inl rfl⟩
  · obtain ⟨a, ha, hg'⟩ := goes_step (E := E) hpad hl h1
    rw [← Option.some.inj (ha.symm.trans hs)]
    exact ⟨_, hg'⟩

theorem Remembering.steps {n : ℕ} {a a' : Label × Parser σ} (hpad : Sentinel pad)
    (h : Remembering pad a) (hs : Steps (Parser.step E) n a a') : Remembering pad a' := by
  induction hs with
  | refl => exact h
  | head h1 _ ih => exact ih (h.step hpad h1)

/-- In the run from `p`, `skip_space` is called in the state `q`. -/
inductive SkipsIn (E : Env σ) (p : Parser σ) : Parser σ → Prop
  | start {q : Parser σ} (h : q ∈ (Skips.start E p).states SkipSpace) : SkipsIn E p q
  | step {n : ℕ} {a : Label × Parser σ} {c : Skips σ} {q : Parser σ}
    (hs : Steps (Parser.step E) n (p.start E) a)
      (hc : Skips.step E a = some c) (h : q ∈ c.states SkipSpace) : SkipsIn E p q

/-- In a run of a new parser `skip_space` is called where what is remembered is true. -/
theorem SkipsIn.remembers (hpad : Sentinel pad) (s₀ : σ) {q : Parser σ}
    (h : SkipsIn E (reset (s ++ pad) s.length s₀) q) :
    Remembers q := by
  have h₀ : Remembers (reset (s ++ pad) s.length s₀) := SpaceBits.covers_init _ _
  have hkeeps := Skips.keeps_start (E := E) h₀
  cases h with
  | start h => exact hkeeps.states q h
  | step hs hc h =>
    rename_i a c
    have hstart : Remembering pad ((reset (s ++ pad) s.length s₀).start E) := by
      refine ⟨⟨_, goes_start hpad (onText_reset s pad s₀)⟩, ?_⟩
      rw [← Skips.start_eq]
      exact hkeeps.run
    obtain ⟨⟨m, hg⟩, hr⟩ := hstart.steps hpad hs
    have hl : a.1 ≠ .doc_end := by
      obtain ⟨lbl, p⟩ := a
      rintro rfl
      cases hc
    exact (Skips.keeps_step hpad hg (hr.resolve_left hl) hc).states q h

/-- **The remembered mask is never stale**: in a run of a new parser, whatever the text and the
handler, each call of `skip_space` finds a mask that is that of the buffer, meets the assertions,
and does what the loop over bytes does. -/
theorem skip_space_faithful (hpad : Sentinel pad) (s₀ : σ) {q : Parser σ}
    (h : SkipsIn E (reset (s ++ pad) s.length s₀) q) :
    SkipsFaithfully q.json_buf_ q.pos_ q.scan := (h.remembers hpad s₀).faithful

/-- The parser of documents on the text `[   "\n" ,1]`, with zeros behind the sentinel. -/
abbrev newlineParser : Parser SAXHandler.State :=
  reset (Document.allocateStringBuffer [91, 32, 32, 32, 34, 92, 110, 34, 32, 44, 49,
    93] (List.replicate 61 0)) 12 SAXHandler.init

/-- The call behind the string, which has been decoded in place: the block of the first byte is
remembered. -/
theorem skip_space_faithful_decoded :
    ∃ q, SkipsIn ⟨.avx2, Document.noFloats, kParseDefault, SAXHandler⟩ newlineParser q ∧
    q.pos_ = 8 ∧ q.scan.nonspace_bits_end = 67 ∧ rd q.json_buf_ 5 = Ch.lf ∧
      SkipsFaithfully q.json_buf_ q.pos_ q.scan := by
  have hcalls : (Skips.step ⟨.avx2, Document.noFloats, kParseDefault, SAXHandler⟩
      (newlineParser.start ⟨.avx2, Document.noFloats, kParseDefault, SAXHandler⟩)).map
        (fun c => (c.states SkipSpace).map fun q => (q.pos_, q.scan.nonspace_bits_end,
          rd q.json_buf_ 5)) =
      some [(8, 67, Ch.lf)] := by decide +kernel
  obtain ⟨c, hc, hstates⟩ := Option.map_eq_some_iff.mp hcalls
  obtain ⟨q, hq, hval⟩ := List.mem_map.mp (hstates ▸ List.mem_singleton_self (8, 67, Ch.lf))
  obtain ⟨hpos, hend, hbyte⟩ := by simpa only [Prod.mk.injEq] using hval
  have hin : SkipsIn ⟨.avx2, Document.noFloats, kParseDefault, SAXHandler⟩ newlineParser q :=
    .step (.refl _) hc hq
  exact ⟨q, hin, hpos, hend, hbyte,
    skip_space_faithful (s := [91, 32, 32, 32, 34, 92, 110, 34, 32, 44, 49, 93])
    (Document.sentinel (List.replicate 61 0)) SAXHandler.init hin⟩

end Parser

end SonicJson
