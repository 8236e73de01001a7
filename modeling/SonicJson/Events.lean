/-
# What a handler is told

The callbacks of a parse as a list of events. `logged` records beside the state of any
handler the events it is told and what it answers, and changes nothing else, so that
what is proved of a parse with a logged handler is proved of its callbacks.
-/
import SonicJson.Parser

namespace SonicJson

inductive Event
  | StartObject
  | StartArray
  | EndObject (pairs : ℕ)
  | EndArray (count : ℕ)
  | Key (key : Bytes)
  | primitive (e : Scalar)
  deriving DecidableEq

/-- The events a handler was told, the first one first, each with its answer. -/
abbrev Log := List (Event × Bool)

def Log.events (log : Log) : List Event := log.map Prod.fst

variable {σ : Type*}

/-- The callback of an event. -/
def SAX.tell (H : SAX σ) : Event → σ → Bool × σ
  | .StartObject => H.StartObject
  | .StartArray => H.StartArray
  | .EndObject n => H.EndObject n
  | .EndArray n => H.EndArray n
  | .Key k => H.Key k
  | .primitive e => H.primitive e

/-- A callback that is recorded. -/
def SAX.told (H : SAX σ) (e : Event) (s : σ × Log) : Bool × (σ × Log) :=
  ((H.tell e s.1).1, (H.tell e s.1).2, s.2 ++ [(e, (H.tell e s.1).1)])

def SAX.logged (H : SAX σ) : SAX (σ × Log) where
  primitive e := H.told (.primitive e)
  Key k := H.told (.Key k)
  StartObject := H.told .StartObject
  StartArray := H.told .StartArray
  EndObject n := H.told (.EndObject n)
  EndArray n := H.told (.EndArray n)
  check_key_return := H.check_key_return

@[simp] theorem Log.events_nil : Log.events [] = [] := rfl

@[simp] theorem Log.events_append (l l' : Log) : Log.events (l ++ l') = l.events ++ l'.events :=
  List.map_append

@[simp] theorem Log.events_single (e : Event) (b : Bool) : Log.events [(e, b)] = [e] := rfl

@[simp] theorem SAX.told_fst (H : SAX σ) (e : Event) (s : σ × Log) :
    (H.told e s).1 = (H.tell e s.1).1 := rfl

@[simp] theorem SAX.told_log (H : SAX σ) (e : Event) (s : σ × Log) :
    (H.told e s).2.2 = s.2 ++ [(e, (H.told e s).1)] := rfl

/-- The parser's environment with a logged handler. -/
def Env.logged (E : Env σ) : Env (σ × Log) := { E with H := E.H.logged }

namespace Parser

/-- Where a call of `Parse` begins, with a handler that has been told nothing. -/
def logged_reset (s pad : Bytes) (s₀ : σ) : Parser (σ × Log) := reset (s ++ pad) s.length (s₀, [])

end Parser

/-! ### What a handler comes to -/

section
variable {σ : Type*} (H : SAX σ)

/-- The state after the events `es`. -/
def SAX.after (es : List Event) (s : σ) : σ := es.foldl (fun s e => (H.tell e s).2) s

@[simp] theorem SAX.after_nil (s : σ) : H.after [] s = s := rfl

theorem SAX.after_concat (es : List Event) (e : Event) (s : σ) :
    H.after (es ++ [e]) s = (H.tell e (H.after es s)).2 := by
  simp [SAX.after]

end

namespace Parser

variable {σ : Type*} {E : Env σ} {p : Parser σ} {I : σ → Prop} {cont : Label}

section
variable (hI : ∀ e s, I s → I (E.H.tell e s).2)

theorem keeps_sax_check {r : Bool × Parser σ} {f : Parser σ → Label × Parser σ} (hr : I r.2.sax)
    (hf : I (f r.2).2.sax) :
    I (sonic_sax_check r f).2.sax := by
  rw [sonic_sax_check]
  split
  · exact hf
  · exact hr

theorem keeps_check_err {f : Parser σ → Label × Parser σ} (hp : I p.sax) (hf : I (f p).2.sax) :
    I (p.sonic_check_err f).2.sax := by
  rw [sonic_check_err]
  split
  · exact hp
  · exact hf

theorem keeps_scope_end (hp : I p.sax) : I p.scope_end.2.sax := by
  refine keeps_check_err hp ?_
  dsimp only
  split <;> exact hp

include hI

theorem keeps_literal {i n : ℕ} {lit : Bytes} (e : Scalar) (hp : I p.sax) :
    I (if EqBytes4 p.json_buf_ i lit then call { p with pos_ := n } (E.H.primitive e)
      else (false, p.setParseError .kParseErrorInvalidChar)).2.sax := by
  split
  · exact hI (.primitive e) _ hp
  · exact hp

theorem keeps_parseStr (event : Bytes → Event) (hp : I p.sax) :
    I (p.parseStr E fun k => E.H.tell (event k)).2.sax := by
  rw [parseStr]
  dsimp only
  split
  · exact hp
  · exact hI (event _) _ hp

theorem keeps_parseNumber (hp : I p.sax) : I (p.parseNumber E).sax := by
  rw [Parser.parseNumber]
  dsimp only
  split
  · exact hp
  · exact hI (.primitive _) _ hp

theorem keeps_end {e : Event} (hp : I p.sax) :
    I (sonic_sax_check (p.call (E.H.tell e)) scope_end).2.sax :=
  keeps_sax_check (hI e _ hp) (keeps_scope_end (p := (p.call (E.H.tell e)).2) (hI e _ hp))

theorem keeps_start_object (hp : I p.sax) : I (p.start_object E).2.sax := by
  have h1 : I (p.call E.H.StartObject).2.sax := hI .StartObject _ hp
  refine keeps_sax_check h1 ?_
  dsimp only
  split
  · exact keeps_end hI (e := .EndObject 0) h1
  · exact h1

theorem keeps_start_array (hp : I p.sax) : I (p.start_array E).2.sax := by
  have h1 : I (p.call E.H.StartArray).2.sax := hI .StartArray _ hp
  refine keeps_sax_check h1 ?_
  dsimp only
  split
  · exact keeps_end hI (e := .EndArray 0) h1
  · exact h1

theorem keeps_value (hp : I p.sax) : I (p.value E cont).2.sax := by
  have literal : ∀ r : Bool × Parser σ, I r.2.sax →
      I (r.2.sonic_check_err fun p => if !r.1 then (.doc_end, p.setParseError .kSaxTermination)
        else (cont, p.SkipSpace)).2.sax := by
    intro r hr
    refine keeps_check_err hr ?_
    split <;> exact hr
  rw [value]
  dsimp only
  split
  · exact keeps_start_object hI hp
  split
  · exact keeps_start_array hI hp
  split
  · have h1 := keeps_parseNumber hI hp
    exact keeps_check_err h1 h1
  split
  · exact literal _ (keeps_literal hI (.Bool true) hp)
  split
  · exact literal _ (keeps_literal hI (.Bool false) hp)
  split
  · exact literal _ (keeps_literal hI .Null hp)
  split
  · have h1 := keeps_parseStr hI (fun k => .primitive (.String k)) hp
    exact keeps_sax_check h1 (keeps_check_err h1 h1)
  · exact hp

theorem keeps_skip_key (hp : I p.sax) : I (p.skip_key E).2.sax := by
  rw [skip_key]
  dsimp only
  split
  · exact hp
  split
  · exact hp
  split
  · exact keeps_end hI (e := .EndObject _) hp
  · exact hp

theorem keeps_obj_key (hp : I p.sax) : I (p.obj_key E).2.sax := by
  rw [obj_key]
  split
  · exact hp
  have h1 := keeps_parseStr hI .Key hp
  refine keeps_check_err h1 ?_
  dsimp only
  split
  · exact h1
  split
  · split
    · exact keeps_skip_key hI h1
    · exact h1
  · exact keeps_value hI h1

omit hI in
theorem count_sax : p.count.sax = p.sax := by
  rw [count]
  split <;> rfl

theorem keeps_step {a b : Label × Parser σ} (ha : I a.2.sax) (hs : step E a = some b) : I b.2.sax := by
  obtain ⟨lbl, p⟩ := a
  cases lbl with
  | obj_key =>
    obtain rfl := Option.some.inj hs
    exact keeps_obj_key hI ha
  | obj_cont =>
    obtain rfl := Option.some.inj hs
    have hc : I p.count.sax := count_sax.symm ▸ ha
    rw [obj_cont]
    split
    · exact hc
    split
    · exact hc
    · exact keeps_end hI (e := .EndObject _) hc
  | arr_val =>
    obtain rfl := Option.some.inj hs
    exact keeps_value hI ha
  | arr_cont =>
    obtain rfl := Option.some.inj hs
    have hc : I p.count.sax := count_sax.symm ▸ ha
    rw [arr_cont]
    split
    · exact hc
    split
    · exact keeps_end hI (e := .EndArray _) hc
    · exact hc
  | doc_end => exact absurd hs (by simp [step])

theorem keeps_parsePrimitives (hp : I p.sax) : I (p.parsePrimitives E).sax := by
  have ended : ∀ r : Bool × Parser σ, I r.2.sax →
      I (if !r.1 then r.2.setFirstError .kSaxTermination else r.2).sax := by
    intro r hr
    split <;> exact hr
  rw [parsePrimitives]
  dsimp only
  split
  · exact keeps_parseNumber hI hp
  split
  · have h1 := keeps_parseStr hI (fun k => .primitive (.String k)) hp
    split
    · exact h1
    · exact ended _ h1
  split
  · exact ended _ (keeps_literal hI (.Bool false) hp)
  split
  · exact ended _ (keeps_literal hI (.Bool true) hp)
  split
  · exact ended _ (keeps_literal hI .Null hp)
  · exact hp

theorem keeps_start (hp : I p.sax) : I (p.start E).2.sax := by
  rw [start]
  split
  · exact keeps_start_array hI hp
  split
  · exact keeps_start_object hI hp
  · exact keeps_parsePrimitives hI hp

/-- **What every callback keeps** holds at the end of a parse. -/
theorem Parse_keeps {data : Bytes} {len : ℕ} {s₀ : σ} {q : Parser σ} (h₀ : I s₀)
    (hq : Parse E data len s₀ = some q) : I q.sax := by
  obtain ⟨r, hr, rfl⟩ := Option.map_eq_some_iff.mp hq
  obtain ⟨a, ha, rfl⟩ := Option.map_eq_some_iff.mp hr
  obtain ⟨n, hn, -⟩ := Machine.steps_of_run ha
  have h1 : I a.2.sax :=
    hn.invariant (P := fun a => I a.2.sax) (fun a b ha hs => keeps_step hI ha hs)
    (keeps_start hI h₀)
  split <;> exact h1

end

/-- A log that the handler makes from the state `s₀` on: the state it is in, and what it answered. -/
structure Makes (H : SAX σ) (s₀ : σ) (s : σ × Log) : Prop where
  state : s.1 = H.after s.2.events s₀
  answer : ∀ (l : Log) e b l', s.2 = l ++ (e, b) :: l' → b = (H.tell e (H.after l.events s₀)).1

theorem Makes.told {H : SAX σ} {s₀ : σ} {s : σ × Log} (h : Makes H s₀ s) (e : Event) :
    Makes H s₀ (H.told e s).2 := by
  refine ⟨?_, fun l e' b l' hl => ?_⟩
  · rw [SAX.told_log, Log.events_append, Log.events_single, SAX.after_concat, ← h.state]
    rfl
  · rw [SAX.told_log, SAX.told_fst] at hl
    rcases List.eq_nil_or_concat l' with rfl | ⟨l₁, x, rfl⟩
    · obtain ⟨rfl, hx⟩ := List.append_inj' hl rfl
      obtain ⟨rfl, rfl⟩ := Prod.mk.inj (List.cons.inj hx).1
      rw [← h.state]
    · rw [List.concat_eq_append, ← List.cons_append, ← List.append_assoc] at hl
      exact h.answer l e' b l₁ (List.append_inj' hl rfl).1

/-- **The handler goes through its log**, event by event. -/
theorem Parse_after {data : Bytes} {len : ℕ} {s₀ : σ} {q : Parser (σ × Log)}
    (hq : Parse E.logged data len (s₀, []) = some q) :
    Makes E.H s₀ q.sax := by
  refine Parse_keeps (E := E.logged) (I := Makes E.H s₀) (fun e s hs => ?_)
    ⟨rfl, fun l e b l' hl => ?_⟩ hq
  · have htell : E.logged.H.tell e s = E.H.told e s := by cases e <;> rfl
    rw [htell]
    exact hs.told e
  · exact absurd hl.symm (by simp)

end Parser

end SonicJson
