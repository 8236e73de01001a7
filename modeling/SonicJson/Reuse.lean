/-
# One parser, many texts

A `Parser` object keeps its members from one call of `Parse` to the next, and `reset`
clears all of them but the scanner. What the scanner remembers of the spaces of an
earlier text is looked at again where a call for spaces stands before two of them and
before the end of the remembered block: as long as it is true of the new buffer where
it is looked at, the calls return what a new parser returns (`Parse_reused`), and where
it is not they may not (`Parse_stale`).
-/
import SonicJson.Events
import SonicJson.Remembered

namespace SonicJson

open Cursor

/-- A call of `Parse`: the handler and its state, the buffer and the length of the text in it. -/
structure Call where
  {σ : Type}
  H : SAX σ
  sax : σ
  data : Bytes
  len : ℕ

/-- The text of a call has the sentinel behind it. -/
def Call.Padded (c : Call) : Prop := ∃ s pad, c.data = s ++ pad ∧ c.len = s.length ∧ Sentinel pad

/-- The members of a `Parser` object. -/
structure Object where
  json_buf_ : Bytes
  len_ : ℕ
  pos_ : ℕ
  err_ : SonicError
  scan : SpaceBits

namespace Object

/-- A new object. -/
def new : Object := ⟨[], 0, 0, .kErrorNone, .init⟩

def reset (o : Object) : Object := { o with pos_ := 0, err_ := .kErrorNone, len_ := 0 }

variable (A : Arch) (F : FloatConv) (parseFlags : ParseFlags)

def env (c : Call) : Env (c.σ × Log) := ⟨A, F, parseFlags, c.H.logged⟩

/-- The parser at the beginning of a call, with the handler's state and what it was told. -/
def begin (o : Object) (c : Call) : Parser (c.σ × Log) :=
  let o := o.reset
  let o := { o with json_buf_ := c.data, len_ := c.len }
  ⟨o.json_buf_, o.len_, o.pos_, o.err_, o.scan, [], 0, c.sax, []⟩

/-- `Parse`: where the parser stands at the end of the call. -/
def Parse (o : Object) (c : Call) : Option (Parser (c.σ × Log)) :=
  (o.begin c).parseAll (env A F parseFlags c)

/-- The members after a call. -/
def next (o : Object) (c : Call) : Option Object :=
  (o.Parse A F parseFlags c).map fun p => ⟨p.json_buf_, p.len_, p.pos_, p.err_, p.scan⟩

/-- The members after a sequence of calls. -/
def after (o : Object) : List Call → Option Object
  | [] => some o
  | c :: cs => (o.next A F parseFlags c).bind fun o => o.after cs

/-- What a call is known by: the result code, the offset, the handler's state and the events. -/
def result (o : Object) (c : Call) : Option (SonicError × ℕ × c.σ × Log) :=
  (o.Parse A F parseFlags c).map fun p => (p.err_, p.pos_, p.sax)

/-- Wherever a call looks at what the scanner remembers, it is true of the new buffer. -/
def Undisturbed (o : Object) : List Call → Prop
  | [] => True
  | c :: cs =>
    (o.begin c).Undisturbed (env A F parseFlags c) ∧ ∀ o', o.next A F parseFlags c = some o' →
      Undisturbed o' cs

variable {A F parseFlags} {o o' : Object} {c : Call} {cs : List Call}

/-- A call that is not disturbed returns what it returns on a new object. -/
theorem result_eq (hc : c.Padded) (hu : (o.begin c).Undisturbed (env A F parseFlags c)) :
    (∃ o', o.next A F parseFlags c = some o') ∧
      o.result A F parseFlags c = new.result A F parseFlags c ∧
        (new.result A F parseFlags c).isSome = true := by
  obtain ⟨s, pad, h1, h2, hpad⟩ := hc
  have hnew : new.begin c = Parser.reset (s ++ pad) s.length (c.sax, []) := by
    rw [← h1, ← h2]
    rfl
  have hon : Parser.OnText (new.begin c) pad s := hnew ▸ Parser.onText_reset s pad _
  obtain ⟨-, q', -, h3⟩ := Parser.parseImpl_isSome hpad hon (E := env A F parseFlags c)
  have hsome : new.Parse A F parseFlags c ≠ none := by
    rw [Parse, Parser.parseAll, h3]
    exact Option.some_ne_none _
  have hu' : (new.begin c).Undisturbed (env A F parseFlags c) := hnew ▸ Parser.undisturbed_reset hpad _
  rcases Parser.parseAll_rescanned ⟨.init, rfl⟩ hu hu' with ⟨-, h4⟩ | ⟨q, q', h4, h5, k, rfl⟩
  · exact absurd h4 hsome
  have e1 : o.Parse A F parseFlags c = some q := h4
  have e2 : new.Parse A F parseFlags c = some (q.rescan k) := h5
  refine ⟨⟨_, by rw [next, e1, Option.map_some]⟩, ?_, ?_⟩
  · rw [result, result, e1, e2, Option.map_some, Option.map_some]
  · rw [result, e2, Option.map_some]
    rfl

/-- **A parser can be reused** where what it remembers does not disturb: in every sequence of calls,
on padded buffers and with any handlers, every call returns what it returns on a new parser. -/
theorem Parse_reused (cs : List Call) (hcs : ∀ c ∈ cs, c.Padded)
    (h : Undisturbed A F parseFlags new cs) :
    ∀ before c rest, cs = before ++ c :: rest → ∃ o, new.after A F parseFlags before = some o ∧
      o.result A F parseFlags c = new.result A F parseFlags c ∧
        (new.result A F parseFlags c).isSome = true := by
  -- over the calls, from the object they are made on
  suffices ∀ (before : List Call) (o : Object) (c : Call) (rest : List Call),
    (∀ d ∈ before ++ c :: rest, d.Padded) →
      Undisturbed A F parseFlags o (before ++ c :: rest) → ∃ o', o.after A F parseFlags before =
        some o' ∧
        o'.result A F parseFlags c = new.result A F parseFlags c ∧
          (new.result A F parseFlags c).isSome = true by
    rintro before c rest rfl
    exact this before new c rest hcs h
  intro before
  induction before with
  | nil =>
    intro o c rest hp hu
    exact ⟨o, rfl, (result_eq (hp c List.mem_cons_self) hu.1).2⟩
  | cons d before ih =>
    intro o c rest hp hu
    obtain ⟨⟨o₁, h1⟩, -⟩ := result_eq (hp d List.mem_cons_self) hu.1 (A := A) (F := F)
    obtain ⟨o', h2, h3⟩ := ih o₁ c rest (fun e he => hp e (List.mem_cons_of_mem _ he)) (hu.2 o₁ h1)
    exact ⟨o', by rw [after, h1, Option.bind_some, h2], h3⟩

/-- A handler that accepts everything. -/
def accepting : SAX Unit where
  primitive _ := fun s => (true, s)
  Key _ := fun s => (true, s)
  StartObject s := (true, s)
  StartArray s := (true, s)
  EndObject _ := fun s => (true, s)
  EndArray _ := fun s => (true, s)
  check_key_return := false

/-- A call on a text in a buffer with 64 bytes of padding. -/
abbrev padded (s : Bytes) : Call :=
  ⟨accepting, (), s ++ (Ch.x :: Ch.quote :: Ch.x :: List.replicate 61 0), s.length⟩

theorem padded_padded (s : Bytes) : (padded s).Padded := ⟨s, _, rfl, rfl, _, rfl⟩

/-- After three spaces and a 1, five spaces and a 1: the block remembered of the first text is
looked at in the second. -/
theorem Parse_stale : (∀ c ∈ [padded [32, 32, 32, 49], padded [32, 32, 32, 32, 32, 49]], c.Padded) ∧
    ((new.after .avx2 Document.noFloats kParseDefault [padded [32, 32, 32, 49]]).bind fun o =>
        o.result .avx2 Document.noFloats kParseDefault (padded [32, 32, 32, 32, 32, 49])) =
      some (.kParseErrorInvalidChar, 4, (), []) ∧
    new.result .avx2 Document.noFloats kParseDefault (padded [32, 32, 32, 32, 32, 49]) =
      some (.kErrorNone, 6, (), [(.primitive (.Uint 1), true)]) := by
  refine ⟨?_, ?_, ?_⟩
  · simp only [List.mem_cons, List.not_mem_nil, or_false]
    rintro c (rfl | rfl) <;> exact padded_padded _
  · decide +kernel
  · decide +kernel

/-- A text that is one string: its first byte is the only place where spaces are looked for. -/
theorem undisturbed_string (o : Object) (s : Bytes) :
    (o.begin (padded (Ch.quote :: s))).Undisturbed (env A F parseFlags (padded (Ch.quote :: s))) := by
  have hstart :
    ((o.begin (padded (Ch.quote :: s))).start (env A F parseFlags (padded (Ch.quote :: s)))).1 =
    .doc_end := rfl
  have hhalt : ∀ {n a}, Machine.Steps (Parser.step (env A F parseFlags (padded (Ch.quote :: s)))) n
      ((o.begin (padded (Ch.quote :: s))).start (env A F parseFlags (padded (Ch.quote :: s)))) a →
        a.1 = .doc_end := by
    intro n a h
    obtain ⟨-, rfl⟩ := h.halted rfl
    exact hstart
  refine ⟨fun q h => ?_, fun n q r h => Label.noConfusion (hhalt h)⟩
  cases h with
  | start h =>
    obtain rfl := List.mem_singleton.mp h
    intro hsp
    have hquote : IsSpace Ch.quote = true := hsp
    exact absurd hquote (by decide)
  | step hs hc h =>
    rename_i n a c
    obtain ⟨lbl, p⟩ := a
    obtain rfl : lbl = .doc_end := hhalt hs
    cases hc

/-- A text with three spaces, and then a string with three spaces, at which nobody looks for spaces. -/
theorem Parse_reused_string :
    ∃ o, new.after .avx2 Document.noFloats kParseDefault [padded [32, 32, 32, 49]] = some o ∧
      o.result .avx2 Document.noFloats kParseDefault (padded [34, 97, 32, 32, 32, 98, 34]) =
        new.result .avx2 Document.noFloats kParseDefault (padded [34, 97, 32, 32, 32, 98, 34]) ∧
      (new.result .avx2 Document.noFloats kParseDefault
        (padded [34, 97, 32, 32, 32, 98, 34])).isSome = true := by
  refine Parse_reused [padded [32, 32, 32, 49],
    padded [34, 97, 32, 32, 32, 98, 34]] ?_ ?_ [padded [32, 32, 32, 49]]
    (padded [34, 97, 32, 32, 32, 98, 34]) [] rfl
  · simp only [List.mem_cons, List.not_mem_nil, or_false]
    rintro c (rfl | rfl) <;> exact padded_padded _
  · refine ⟨Parser.undisturbed_reset (s := [32, 32, 32, 49])
      (Document.sentinel (List.replicate 61 0)) _, fun o _ => ?_⟩
    exact ⟨undisturbed_string o _, fun _ _ => trivial⟩

end Object

end SonicJson
