/-
# Two parsers that remember different spaces

Of what a scanner remembers a call looks at what is behind two spaces, before the end
of the remembered block. Two parsers that differ in nothing else go on step by step
together as long as what they remember is true where they look at it (`Undisturbed`),
so their calls of `Parse` return the same (`parseAll_rescanned`). For a new parser it always
is (`undisturbed_reset`).
-/
import SonicJson.SpaceCalls

namespace SonicJson

open Cursor Machine

section
variable {data : Bytes} {pos len : ℕ} {k k' : SpaceBits}

/-- What is remembered does not matter where it is true. -/
theorem skip_space_agree (hk : k.ValidAt data pos) (hk' : k'.ValidAt data pos) :
    (skip_space data pos k').1 = (skip_space data pos k).1 ∧
    (skip_space data pos k').2.1 = (skip_space data pos k).2.1 := by
  obtain ⟨q, hq, hle⟩ := exists_nonSpace data pos
  obtain ⟨k₁, h1, -⟩ := skip_space_at hk hq hle
  obtain ⟨k₂, h2, -⟩ := skip_space_at hk' hq hle
  rw [h1, h2]
  exact ⟨rfl, rfl⟩

theorem skip_space_safe_agree (hk : pos + 64 + 2 ≤ len → k.ValidAt data pos)
    (hk' : pos + 64 + 2 ≤ len → k'.ValidAt data pos) :
    (skip_space_safe data pos len k').1 = (skip_space_safe data pos len k).1 ∧
      (skip_space_safe data pos len k').2.1 = (skip_space_safe data pos len k).2.1 := by
  by_cases hlen : len < pos + 64 + 2
  · -- no block is left to look at
    rw [skip_space_safe, skip_space_safe, if_pos hlen, if_pos hlen]
    exact ⟨rfl, rfl⟩
  · exact (skip_space_safe_at hk' (by omega)).agree (skip_space_safe_at hk (by omega))

end

namespace Parser

variable {σ : Type*} {E : Env σ} {p p' : Parser σ} {k : SpaceBits} {cont : Label}

/-- The parser with other remembered spaces. -/
abbrev rescan (p : Parser σ) (k : SpaceBits) : Parser σ := { p with scan := k }

/-- The two differ in the remembered spaces only. -/
def Rescanned (p p' : Parser σ) : Prop := ∃ k, p' = p.rescan k

/-- The same label, and parsers that differ in the remembered spaces only. -/
def RescannedAt (a a' : Label × Parser σ) : Prop := a'.1 = a.1 ∧ Rescanned a.2 a'.2

/-- What is remembered is true where `skip_space` looks at it. -/
def FitsHere (p : Parser σ) : Prop := p.scan.ValidAt p.json_buf_ p.pos_

/-- What is remembered is true where `skip_space_safe` looks at it: not at all where no block is
left. -/
def FitsSafe (p : Parser σ) : Prop := p.pos_ + 64 + 2 ≤ p.len_ → p.FitsHere

/-- The parser in front of the value that it skips, as the handler has refused its key. -/
def refused (E : Env σ) (p : Parser σ) : Option (Parser σ) :=
  let key := p.parseKeyInPlace E
  let q := key.2.SkipSpace
  if p.c = Ch.quote ∧ key.2.err_ = .kErrorNone ∧ q.c = Ch.colon ∧ key.1 = false ∧
    E.H.check_key_return = true then some q
  else none

/-- Wherever the run from `p` looks at what is remembered, it is true. -/
structure Undisturbed (E : Env σ) (p : Parser σ) : Prop where
  skips : ∀ q, SkipsIn E p q → q.FitsHere
  skip_key : ∀ n q r, Steps (step E) n (p.start E) (.obj_key, q) → q.refused E = some r → r.FitsSafe

/-! ### One call -/

theorem Rescanned.SkipSpace (h : Rescanned p p') (hp : p.FitsHere) (hp' : p'.FitsHere) :
    Rescanned p.SkipSpace p'.SkipSpace := by
  obtain ⟨k, rfl⟩ := h
  obtain ⟨h1, h2⟩ := skip_space_agree hp hp'
  refine ⟨(skip_space p.json_buf_ p.pos_ k).2.2, ?_⟩
  unfold Parser.SkipSpace rescan
  dsimp only [rescan] at h1 h2 ⊢
  rw [h1, h2]

theorem parseNumber_rescan : (p.rescan k).parseNumber E = (p.parseNumber E).rescan k := by
  unfold Parser.parseNumber
  dsimp only [rescan]
  split <;> rfl

theorem parseTrue_rescan :
    (p.rescan k).parseTrue E = ((p.parseTrue E).1, (p.parseTrue E).2.rescan k) := by
  by_cases h : EqBytes4 p.json_buf_ (p.pos_ - 1) kTrue = true
  · rw [parseTrue, parseTrue, if_pos h, if_pos h]
    rfl
  · rw [parseTrue, parseTrue, if_neg h, if_neg h]
    rfl

theorem parseFalse_rescan :
    (p.rescan k).parseFalse E = ((p.parseFalse E).1, (p.parseFalse E).2.rescan k) := by
  by_cases h : EqBytes4 p.json_buf_ p.pos_ (kFalse.drop 1) = true
  · rw [parseFalse, parseFalse, if_pos h, if_pos h]
    rfl
  · rw [parseFalse, parseFalse, if_neg h, if_neg h]
    rfl

theorem parseNull_rescan :
    (p.rescan k).parseNull E = ((p.parseNull E).1, (p.parseNull E).2.rescan k) := by
  by_cases h : EqBytes4 p.json_buf_ (p.pos_ - 1) kNull = true
  · rw [parseNull, parseNull, if_pos h, if_pos h]
    rfl
  · rw [parseNull, parseNull, if_neg h, if_neg h]
    rfl

theorem parseStr_rescan (event : Bytes → σ → Bool × σ) :
    (p.rescan k).parseStr E event = ((p.parseStr E event).1, (p.parseStr E event).2.rescan k) := by
  have hstr : (p.rescan k).parseStringHelper E = ((p.parseStringHelper E).1,
    (p.parseStringHelper E).2.rescan k) := rfl
  rw [parseStr, parseStr, hstr]
  dsimp only
  by_cases h : (p.parseStringHelper E).2.err_ ≠ .kErrorNone
  · rw [if_pos h, if_pos h]
  · rw [if_neg h, if_neg h]
    rfl

theorem parseStrInPlace_rescan :
    (p.rescan k).parseStrInPlace E = ((p.parseStrInPlace E).1, (p.parseStrInPlace E).2.rescan k) :=
    parseStr_rescan _

theorem parseKeyInPlace_rescan :
    (p.rescan k).parseKeyInPlace E = ((p.parseKeyInPlace E).1, (p.parseKeyInPlace E).2.rescan k) :=
    parseStr_rescan _

theorem parsePrimitives_rescan : (p.rescan k).parsePrimitives E = (p.parsePrimitives E).rescan k := by
  have ended : ∀ r : Bool × Parser σ, (if !r.1 then (r.2.rescan k).setFirstError .kSaxTermination
      else r.2.rescan k) =
      (if !r.1 then r.2.setFirstError .kSaxTermination else r.2).rescan k := by
    intro r
    split <;> rfl
  rw [parsePrimitives, parsePrimitives, parseNumber_rescan (p := p), parseStrInPlace_rescan (p := p),
    parseTrue_rescan (p := p), parseFalse_rescan (p := p), parseNull_rescan (p := p)]
  beta_reduce
  by_cases h1 : (is_digit p.c || p.c == Ch.minus) = true
  · rw [if_pos h1, if_pos h1]
  rw [if_neg h1, if_neg h1]
  by_cases h2 : p.c = Ch.quote
  · rw [if_pos h2, if_pos h2]
    dsimp only
    by_cases h3 : (p.parseStrInPlace E).2.len_ < (p.parseStrInPlace E).2.pos_
    · rw [if_pos h3, if_pos h3]
      rfl
    · rw [if_neg h3, if_neg h3]
      exact ended (p.parseStrInPlace E)
  rw [if_neg h2, if_neg h2]
  by_cases h4 : p.c = Ch.f
  · rw [if_pos h4, if_pos h4]
    exact ended (p.parseFalse E)
  rw [if_neg h4, if_neg h4]
  by_cases h5 : p.c = Ch.t
  · rw [if_pos h5, if_pos h5]
    exact ended (p.parseTrue E)
  rw [if_neg h5, if_neg h5]
  by_cases h6 : p.c = Ch.n
  · rw [if_pos h6, if_pos h6]
    exact ended (p.parseNull E)
  · rw [if_neg h6, if_neg h6]
    rfl

namespace Skips

/-- The programs of two parsers go on alike. -/
def Together (c d : Skips σ) : Prop := c.Rel Parser.SkipSpace Rescanned RescannedAt d

theorem together_ret {lbl : Label} (h : Rescanned p p') :
    Together (.ret (lbl, p)) (.ret (lbl, p')) := ⟨rfl, h⟩

theorem together_check_err {f f' : Parser σ → Skips σ} (h : Rescanned p p')
    (hf : Together (f p) (f' p')) :
    Together (sonic_check_err p f) (sonic_check_err p' f') := by
  obtain ⟨k, rfl⟩ := h
  have herr : (p.rescan k).err_ = p.err_ := rfl
  rw [sonic_check_err, sonic_check_err, herr]
  split
  · exact together_ret ⟨k, rfl⟩
  · exact hf

theorem together_sax_check {f f' : Parser σ → Skips σ} {x x' : Bool × Parser σ} (h1 : x'.1 = x.1)
    (h : Rescanned x.2 x'.2) (hf : Together (f x.2) (f' x'.2)) : Together (sonic_sax_check x f)
    (sonic_sax_check x' f') := by
  obtain ⟨k, hk⟩ := h
  rw [sonic_sax_check, sonic_sax_check, h1]
  split
  · exact hf
  · exact together_ret ⟨k, by rw [hk]; rfl⟩

/-- One call, and on to a label. -/
theorem together_call (lbl : Label) (h : Rescanned p p') :
    Together (.call p fun p => .ret (lbl, p)) (.call p' fun p => .ret (lbl, p)) := ⟨h, together_ret⟩

theorem together_scope_end (h : Rescanned p p') : Together (scope_end p) (scope_end p') := by
  refine together_check_err h ?_
  obtain ⟨k, rfl⟩ := h
  dsimp only [rescan, setDepth]
  split
  · exact together_ret ⟨k, rfl⟩
  · refine ⟨⟨k, rfl⟩, ?_⟩
    rintro ⟨k', hk'⟩
    rw [hk']
    exact together_ret ⟨k', rfl⟩

/-- The end of a container. -/
theorem together_end (h : Rescanned p p') (f : ℕ → σ → Bool × σ) :
    Together (sonic_sax_check (p.call (f p.back)) scope_end)
      (sonic_sax_check (p'.call (f p'.back)) scope_end) := by
  obtain ⟨k, rfl⟩ := h
  exact together_sax_check rfl ⟨k, rfl⟩ (together_scope_end ⟨k, rfl⟩)

/-- The first byte inside a container, which may end it. -/
theorem together_first {close : UInt8} {f : σ → Bool × σ} (lbl : Label) (h : Rescanned p p') :
    Together (.call p fun p => if p.c = close then sonic_sax_check (p.call f) scope_end
      else .ret (lbl, p))
      (.call p' fun p => if p.c = close then sonic_sax_check (p.call f) scope_end
        else .ret (lbl, p)) := by
  refine ⟨h, ?_⟩
  rintro ⟨k, hk⟩
  rw [hk]
  dsimp only [rescan]
  split
  · exact together_sax_check rfl ⟨k, rfl⟩ (together_scope_end ⟨k, rfl⟩)
  · exact together_ret ⟨k, rfl⟩

theorem together_start_object (h : Rescanned p p') :
    Together (start_object E p) (start_object E p') := by
  obtain ⟨k, rfl⟩ := h
  exact together_sax_check rfl ⟨k, rfl⟩ (together_first .obj_key ⟨k, rfl⟩)

theorem together_start_array (h : Rescanned p p') : Together (start_array E p) (start_array E p') := by
  obtain ⟨k, rfl⟩ := h
  exact together_sax_check rfl ⟨k, rfl⟩ (together_first .arr_val ⟨k, rfl⟩)

theorem together_value (h : Rescanned p p') : Together (value E p cont) (value E p' cont) := by
  obtain ⟨k, rfl⟩ := h
  have literal : ∀ {x : Bool × Parser σ}, Together
      (sonic_check_err x.2 fun p => if !x.1 then .ret (.doc_end, p.setParseError .kSaxTermination)
        else .call p fun p => .ret (cont, p))
      (sonic_check_err (x.2.rescan k) fun p =>
        if !x.1 then .ret (.doc_end, p.setParseError .kSaxTermination) else .call p fun p =>
          .ret (cont, p)) := by
    intro x
    refine together_check_err ⟨k, rfl⟩ ?_
    split
    · exact together_ret ⟨k, rfl⟩
    · exact together_call cont ⟨k, rfl⟩
  rw [value, value, parseNumber_rescan (p := p) (k := k), parseStrInPlace_rescan (p := p) (k := k),
    parseTrue_rescan (p := p) (k := k), parseFalse_rescan (p := p) (k := k),
    parseNull_rescan (p := p) (k := k)]
  dsimp only
  rw [show (p.rescan k).c = p.c from rfl]
  split
  · exact together_start_object ⟨k, rfl⟩
  split
  · exact together_start_array ⟨k, rfl⟩
  split
  · exact together_check_err ⟨k, rfl⟩ (together_call cont ⟨k, rfl⟩)
  split
  · exact literal
  split
  · exact literal
  split
  · exact literal
  split
  · exact together_sax_check rfl ⟨k, rfl⟩ (together_check_err ⟨k, rfl⟩ (together_call cont ⟨k, rfl⟩))
  · exact together_ret ⟨k, rfl⟩

theorem together_skip_key (h : Rescanned p p') (hp : p.FitsSafe) (hp' : p'.FitsSafe) :
    Together (skip_key E p) (skip_key E p') := by
  obtain ⟨k, rfl⟩ := h
  obtain ⟨h1, h2⟩ := skip_space_safe_agree hp hp'
  dsimp only [rescan] at h1 h2
  have hskip :
      SkipOne E.A (p.rescan k).json_buf_ (p.rescan k).pos_ (p.rescan k).len_ (p.rescan k).scan =
      ((SkipOne E.A p.json_buf_ p.pos_ p.len_ p.scan).1,
        (SkipOne E.A p.json_buf_ p.pos_ p.len_ p.scan).2.1,
        (skip_space_safe p.json_buf_ p.pos_ p.len_ k).2.2) := by
    unfold SkipOne
    dsimp only [rescan]
    rw [h1, h2]
  unfold skip_key
  rw [hskip]
  generalize SkipOne E.A p.json_buf_ p.pos_ p.len_ p.scan = x
  dsimp only [rescan]
  split
  · exact together_ret ⟨_, rfl⟩
  generalize GetNextToken E.A p.json_buf_ x.2.1 p.len_ [Ch.quote, Ch.rbrace] = y
  split
  · exact together_ret ⟨_, rfl⟩
  split
  · exact together_sax_check rfl ⟨_, rfl⟩ (together_scope_end ⟨_, rfl⟩)
  · exact together_ret ⟨_, rfl⟩

theorem together_obj_key (h : Rescanned p p') (hp : ∀ r, p.refused E = some r → r.FitsSafe)
    (hp' : ∀ r, p'.refused E = some r → r.FitsSafe) : Together (obj_key E p) (obj_key E p') := by
  obtain ⟨k, rfl⟩ := h
  unfold refused at hp hp'
  unfold obj_key
  rw [parseKeyInPlace_rescan (p := p) (k := k)] at hp' ⊢
  rw [show (p.rescan k).c = p.c from rfl] at hp' ⊢
  generalize p.parseKeyInPlace E = key at hp hp' ⊢
  dsimp only at hp hp' ⊢
  split
  · exact together_ret ⟨k, rfl⟩
  rename_i hq
  by_cases herr : key.2.err_ = .kErrorNone
  swap
  · rw [sonic_check_err, sonic_check_err, show (key.2.rescan k).err_ = key.2.err_ from rfl,
      if_pos herr, if_pos herr]
    exact together_ret ⟨k, rfl⟩
  refine together_check_err ⟨k, rfl⟩ ⟨⟨k, rfl⟩, ?_⟩
  rintro ⟨k', hk'⟩
  beta_reduce
  have hc : (key.2.rescan k).SkipSpace.c = key.2.SkipSpace.c := by rw [hk']
  rw [hc]
  split
  · rw [hk']
    exact together_ret ⟨k', rfl⟩
  rename_i hcolon
  split
  · rename_i hfound
    split
    · rename_i hcheck
      have hcond : p.c = Ch.quote ∧ key.2.err_ = .kErrorNone ∧ key.2.SkipSpace.c = Ch.colon ∧
          key.1 = false ∧
          E.H.check_key_return = true :=
            ⟨not_not.mp hq, herr, not_not.mp hcolon, by simpa using hfound, hcheck⟩
      refine together_skip_key ⟨k', hk'⟩ (hp _ (if_pos hcond)) (hp' _ (if_pos ?_))
      rw [hc]
      exact hcond
    · rw [hk']
      exact together_ret ⟨k', rfl⟩
  · exact ⟨⟨k', hk'⟩, together_value⟩

theorem together_count (h : Rescanned p p') : Rescanned p.count p'.count := by
  obtain ⟨k, rfl⟩ := h
  unfold count
  dsimp only [rescan]
  split <;> exact ⟨k, rfl⟩

/-- **A step of two parsers that are alike.** -/
theorem together_step {a a' : Label × Parser σ} (h : RescannedAt a a')
    (ha : ∀ r, a.1 = .obj_key → a.2.refused E = some r → r.FitsSafe)
    (ha' : ∀ r, a'.1 = .obj_key → a'.2.refused E = some r → r.FitsSafe) :
    (step E a = none ∧ step E a' = none) ∨ ∃ c d, step E a = some c ∧ step E a' = some d ∧
    Together c d := by
  obtain ⟨lbl, p⟩ := a
  obtain ⟨lbl', p'⟩ := a'
  obtain ⟨rfl, h⟩ : lbl' = lbl ∧ Rescanned p p' := h
  have hcount := together_count h
  cases lbl' with
  | doc_end => exact .inl ⟨rfl, rfl⟩
  | obj_key => exact .inr ⟨_, _, rfl, rfl, together_obj_key h (fun r => ha r rfl) fun r => ha' r rfl⟩
  | obj_cont =>
    refine .inr ⟨_, _, rfl, rfl, ?_⟩
    unfold obj_cont
    dsimp only
    obtain ⟨k, hk⟩ := hcount
    rw [hk, show (p.count.rescan k).c = p.count.c from rfl]
    split
    · exact together_call .obj_key ⟨k, rfl⟩
    split
    · exact together_ret ⟨k, rfl⟩
    · exact together_end ⟨k, rfl⟩ E.H.EndObject
  | arr_val => exact .inr ⟨_, _, rfl, rfl, together_value h⟩
  | arr_cont =>
    refine .inr ⟨_, _, rfl, rfl, ?_⟩
    unfold arr_cont
    dsimp only
    obtain ⟨k, hk⟩ := hcount
    rw [hk, show (p.count.rescan k).c = p.count.c from rfl]
    split
    · exact together_call .arr_val ⟨k, rfl⟩
    split
    · exact together_end ⟨k, rfl⟩ fun n => E.H.EndArray (n &&& (kArrMask - 1))
    · exact together_ret ⟨k, rfl⟩

theorem together_start (h : Rescanned p p') : Together (start E p) (start E p') := by
  refine ⟨h, ?_⟩
  rintro ⟨k, hk⟩
  rw [hk]
  beta_reduce
  rw [parsePrimitives_rescan (p := p.SkipSpace) (k := k),
    show (p.SkipSpace.rescan k).c = p.SkipSpace.c from rfl]
  split
  · exact together_start_array ⟨k, rfl⟩
  split
  · exact together_start_object ⟨k, rfl⟩
  · exact together_ret ⟨k, rfl⟩

end Skips

/-! ### Runs -/

theorem rescanned_run {c d : Skips σ} (h : c.Together d) (hc : ∀ q ∈ c.states SkipSpace, q.FitsHere)
    (hd : ∀ q ∈ d.states SkipSpace, q.FitsHere) : RescannedAt (c.run SkipSpace) (d.run SkipSpace) :=
  h.run fun s hs t ht hst => hst.SkipSpace (hc s hs) (hd t ht)

/-- **The calls of `Parse` return the same** where neither is disturbed. -/
theorem parseAll_rescanned (h : Rescanned p p') (hp : p.Undisturbed E) (hp' : p'.Undisturbed E) :
    p.parseAll E = none ∧ p'.parseAll E = none ∨
      ∃ q q', p.parseAll E = some q ∧ p'.parseAll E = some q' ∧ Rescanned q q' := by
  -- the states that both runs come to
  have hstart : RescannedAt (p.start E) (p'.start E) := by
    rw [← Skips.start_eq, ← Skips.start_eq]
    exact rescanned_run (Skips.together_start h) (fun q hq => hp.skips q (.start hq)) fun q hq =>
      hp'.skips q (.start hq)
  have hstep : ∀ a a', (RescannedAt a a' ∧ (∃ n, Steps (step E) n (p.start E) a) ∧
      ∃ n, Steps (step E) n (p'.start E) a') →
      (step E a = none ∧ step E a' = none) ∨ ∃ b b', step E a = some b ∧ step E a' = some b' ∧
        (RescannedAt b b' ∧ (∃ n, Steps (step E) n (p.start E) b) ∧
          ∃ n, Steps (step E) n (p'.start E) b') := by
    rintro a a' ⟨haa, ⟨n, hn⟩, m, hm⟩
    have hkey : ∀ r, a.1 = .obj_key → a.2.refused E = some r → r.FitsSafe := by
      obtain ⟨lbl, q⟩ := a
      rintro r rfl hr
      exact hp.skip_key n q r hn hr
    have hkey' : ∀ r, a'.1 = .obj_key → a'.2.refused E = some r → r.FitsSafe := by
      obtain ⟨lbl, q⟩ := a'
      rintro r rfl hr
      exact hp'.skip_key m q r hm hr
    rw [← Skips.step_eq, ← Skips.step_eq]
    rcases Skips.together_step haa hkey hkey' with ⟨h1, h2⟩ | ⟨c, d, h1, h2, h3⟩
    · rw [h1, h2]
      exact .inl ⟨rfl, rfl⟩
    · have hb : step E a = some (c.run SkipSpace) := by rw [← Skips.step_eq, h1, Option.map_some]
      have hb' : step E a' = some (d.run SkipSpace) := by rw [← Skips.step_eq, h2, Option.map_some]
      rw [h1, h2]
      refine .inr ⟨_, _, rfl, rfl, ?_, ⟨_, hn.trans (.one hb)⟩, _, hm.trans (.one hb')⟩
      exact rescanned_run h3 (fun q hq => hp.skips q (.step hn h1 hq)) fun q hq =>
        hp'.skips q (.step hm h2 hq)
  have hbuf : p'.json_buf_ = p.json_buf_ := by
    obtain ⟨k, rfl⟩ := h
    rfl
  rw [parseAll, parseAll, parseImpl, parseImpl, hbuf]
  rcases run_lockstep hstep (p.json_buf_.length + 3) ⟨hstart, ⟨0, .refl _⟩, 0, .refl _⟩ with
    ⟨h1, h2⟩ | ⟨c, d, h1, h2, -, hcd, -⟩
  · rw [h1, h2]
    exact .inl ⟨rfl, rfl⟩
  · obtain ⟨k, hk⟩ := hcd.2
    rw [h1, h2, Option.map_some, Option.map_some, Option.map_some, Option.map_some, hk]
    refine .inr ⟨_, _, rfl, rfl, ?_⟩
    have htrail : (c.2.rescan k).hasTrailingChars = c.2.hasTrailingChars := rfl
    rw [htrail]
    by_cases he : c.2.err_ = .kErrorNone
    · rw [if_pos he, if_pos he]
      exact ⟨k, rfl⟩
    · rw [if_neg he, if_neg he]
      exact ⟨k, rfl⟩

/-- What a value is skipped from comes behind a call of the step. -/
theorem refused_states {r : Parser σ} (h : p.refused E = some r) :
    ∃ q ∈ (Skips.obj_key E p).states SkipSpace, r = q.SkipSpace := by
  unfold refused at h
  dsimp only at h
  split at h
  swap
  · cases h
  rename_i hcond
  refine ⟨(p.parseKeyInPlace E).2, ?_, (Option.some.inj h).symm⟩
  unfold Skips.obj_key
  rw [if_neg (not_not.mpr hcond.1), Skips.sonic_check_err, if_neg (not_not.mpr hcond.2.1)]
  exact List.mem_cons_self

theorem Remembers.fitsHere (h : Remembers p) : p.FitsHere := h.valid p.pos_ le_rfl

/-- A new parser is not disturbed, whatever the text and the handler. -/
theorem undisturbed_reset {s pad : Bytes} (hpad : Sentinel pad) (s₀ : σ) :
    Undisturbed E (reset (s ++ pad) s.length s₀) where
  skips _ h := (h.remembers hpad s₀).fitsHere
  skip_key n q r hs hr := by
    obtain ⟨q', hq', rfl⟩ := refused_states hr
    have hin : SkipsIn E (reset (s ++ pad) s.length s₀) q' := .step hs rfl hq'
    exact fun _ => (hin.remembers hpad s₀).SkipSpace.fitsHere

end Parser

end SonicJson
