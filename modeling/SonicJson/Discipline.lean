/-
# The order of the callbacks

The events of a parse are those of a tree, or the beginning of them. What has been told
at a program point of `parseImpl` is a list of open containers with a value missing
(`Hole`), each with what is complete inside it, and `depth` holds their counts. Every
step keeps that as long as the word of a container can be counted up and is read for what
it is (`nested_step`): the bit that tells an array from an object is the 31st of the word,
so an array has 31 bits for its count, and an object 32 while no container is closed in it.
-/
import SonicJson.Events
import SonicJson.Document

namespace SonicJson

open Cursor Machine

/-- A value, as a handler is told of it. -/
inductive EventTree
  | leaf (e : Scalar)
  | arr (vs : List EventTree)
  | obj (ms : List (Bytes × EventTree))

namespace EventTree

mutual

/-- The events of a value: every key is followed by one value, and the ends carry the counts. -/
def events : EventTree → List Event
  | .leaf e => [.primitive e]
  | .arr vs => .StartArray :: (elems vs ++ [.EndArray vs.length])
  | .obj ms => .StartObject :: (mems ms ++ [.EndObject ms.length])

def elems : List EventTree → List Event
  | [] => []
  | v :: vs => events v ++ elems vs

def mems : List (Bytes × EventTree) → List Event
  | [] => []
  | (k, v) :: ms => .Key k :: (events v ++ mems ms)

end

theorem elems_append (t : EventTree) : ∀ vs : List EventTree, elems (vs ++ [t]) = elems vs ++ t.events
  | [] => by simp [elems]
  | v :: vs => by rw [List.cons_append, elems, elems, elems_append t vs, List.append_assoc]

theorem mems_append (k : Bytes) (t : EventTree) : ∀ ms : List (Bytes × EventTree),
    mems (ms ++ [(k, t)]) = mems ms ++ .Key k :: t.events
  | [] => by simp [mems]
  | (k', v) :: ms => by
    rw [List.cons_append, mems, mems, mems_append k t ms, List.cons_append, List.append_assoc]

end EventTree

open EventTree

/-- The beginning of the events of a value. -/
def Prefix (es : List Event) : Prop := ∃ t : EventTree, es <+: t.events

theorem Prefix.restrict {es es' : List Event} (h : Prefix es) (hp : es' <+: es) : Prefix es' :=
  h.imp fun _ ht => hp.trans ht

/-- A container that is open, with a value missing. -/
inductive Hole
  | elem (vs : List EventTree)
  | member (ms : List (Bytes × EventTree)) (key : Bytes)

namespace Hole

/-- What was told from its beginning on. -/
def before : Hole → List Event
  | .elem vs => .StartArray :: elems vs
  | .member ms k => .StartObject :: (mems ms ++ [.Key k])

/-- How many values it has. -/
def count : Hole → ℕ
  | .elem vs => vs.length
  | .member ms _ => ms.length

/-- The label after its values. -/
def cont : Hole → Label
  | .elem _ => .arr_cont
  | .member _ _ => .obj_cont

/-- The event of its end, when one more value is there. -/
def ending : Hole → Event
  | .elem vs => .EndArray (vs.length + 1)
  | .member ms _ => .EndObject (ms.length + 1)

/-- It is closed behind the value `t`. -/
def close (t : EventTree) : Hole → EventTree
  | .elem vs => .arr (vs ++ [t])
  | .member ms k => .obj (ms ++ [(k, t)])

theorem isCont (h : Hole) : IsCont h.cont := by
  cases h
  · exact .inl rfl
  · exact .inr rfl

theorem close_events (h : Hole) (t : EventTree) :
    (h.close t).events = h.before ++ t.events ++ [h.ending] := by
  cases h with
  | elem vs => simp [close, EventTree.events, before, ending, elems_append]
  | member ms k => simp [close, EventTree.events, before, ending, mems_append]

end Hole

/-- What was told of the containers around a value, the innermost first. -/
def opened : List Hole → List Event
  | [] => []
  | h :: ctx => opened ctx ++ h.before

/-- Every open container can be closed. -/
theorem prefix_opened : ∀ (ctx : List Hole) (t : EventTree), Prefix (opened ctx ++ t.events)
  | [], t => ⟨t, List.prefix_rfl⟩
  | h :: ctx, t => by
    refine (prefix_opened ctx (h.close t)).restrict ?_
    rw [opened, h.close_events]
    exact ⟨[h.ending], by simp⟩

theorem prefix_of_tree {es : List Event} (ctx : List Hole) {t : EventTree} (h : es <+: t.events) :
    Prefix (opened ctx ++ es) :=
  (prefix_opened ctx t).restrict ((List.prefix_append_right_inj _).mpr h)

/-- The words of `depth`. -/
def words (ctx : List Hole) : List ℕ := ctx.map fun h => word h.cont h.count

/-- The counts fit in 31 bits. -/
def Small (ctx : List Hole) : Prop := ∀ h ∈ ctx, h.count < 2 ^ 31

/-- The count of the innermost container fits in its word. -/
def Hole.Counts : Hole → Prop
  | .elem vs => vs.length < 2 ^ 31
  | .member ms _ => ms.length < 2 ^ 32

theorem Hole.counts_of_lt {h : Hole} (hc : h.count < 2 ^ 31) : h.Counts := by
  cases h with
  | elem vs => exact hc
  | member ms k => exact hc.trans (by decide)

theorem small_cons {h : Hole} {ctx : List Hole} (hc : h.count < 2 ^ 31) (hs : Small ctx) :
    Small (h :: ctx) :=
  List.forall_mem_cons.mpr ⟨hc, hs⟩

namespace Parser

variable {σ : Type*} {E : Env σ} {p q : Parser (σ × Log)} {es : List Event} {ctx : List Hole}
    {h : Hole} {t : EventTree}
  {lbl : Label}

/-- The handler was told `es`, and no answer but the last was `false`. -/
structure Tells (es : List Event) (p : Parser (σ × Log)) : Prop where
  events : p.sax.2.events = es
  answers : ∀ x ∈ p.sax.2.dropLast, x.2 = true

/-- There was no error so far, and the handler accepted all it was told. -/
structure Told (es : List Event) (p : Parser (σ × Log)) : Prop where
  err : p.err_ = .kErrorNone
  events : p.sax.2.events = es
  answers : ∀ x ∈ p.sax.2, x.2 = true

theorem Told.tells (h : Told es p) :
    Tells es p := ⟨h.events, fun x hx => h.answers x (List.mem_of_mem_dropLast hx)⟩

/-- What was told when the run is at a label. -/
inductive Nested : Label × Parser (σ × Log) → Prop
  | key {p : Parser (σ × Log)} (ms : List (Bytes × EventTree)) (ctx : List Hole) :
      Told (opened ctx ++ .StartObject :: mems ms) p → p.depth = word .obj_cont ms.length :: words ctx →
      ms.length < 2 ^ 32 → Small ctx → Nested (.obj_key, p)
  | val {p : Parser (σ × Log)} (vs : List EventTree) (ctx : List Hole) :
    Told (opened (.elem vs :: ctx)) p →
      p.depth = words (.elem vs :: ctx) → Small (.elem vs :: ctx) → Nested (.arr_val, p)
  | cont {p : Parser (σ × Log)} (h : Hole) (ctx : List Hole) (t : EventTree) :
    Told (opened (h :: ctx) ++ t.events) p →
      p.depth = words (h :: ctx) → h.Counts → Small ctx → Nested (h.cont, p)
  | done {p : Parser (σ × Log)} (t : EventTree) : Told t.events p → Nested (.doc_end, p)
  | stopped {p : Parser (σ × Log)} (es : List Event) : p.err_ ≠ .kErrorNone → Prefix es →
    Tells es p → Nested (.doc_end, p)

/-- The first byte of the value of the member that is read from here. -/
def memberByte (E : Env σ) (p : Parser σ) : UInt8 := (p.parseKeyInPlace E).2.SkipSpace.SkipSpace.c

/-- One more value can be counted: an array has 31 bits for it, an object 32; and no container
begins in an object whose word would be read as that of an array when it ends. -/
structure Fits (E : Env σ) (a : Label × Parser σ) : Prop where
  elem : a.1 = .arr_cont → a.2.back % 2 ^ 31 + 1 < 2 ^ 31
  member : a.1 = .obj_cont → a.2.back + 1 < 2 ^ 32
  value : a.1 = .obj_key → 2 ^ 31 ≤ a.2.back → a.2.memberByte E ≠ Ch.lbrace ∧
    a.2.memberByte E ≠ Ch.lbrack

theorem Told.congr (h : Told es p) (h1 : q.err_ = p.err_) (h2 : q.sax = p.sax) : Told es q :=
  ⟨h1.trans h.err, by rw [h2, h.events], by rw [h2]; exact h.answers⟩

theorem Tells.congr (h : Tells es p) (h2 : q.sax = p.sax) : Tells es q :=
  ⟨by rw [h2, h.events], by rw [h2]; exact h.answers⟩

/-- One more callback. -/
theorem Told.call (h : Told es p) (e : Event) : Tells (es ++ [e]) (p.call (E.H.told e)).2 ∧
    ((p.call (E.H.told e)).1 = true → Told (es ++ [e]) (p.call (E.H.told e)).2) := by
  have hlog : (p.call (E.H.told e)).2.sax.2 = p.sax.2 ++ [(e, (E.H.told e p.sax).1)] := rfl
  have hev : (p.call (E.H.told e)).2.sax.2.events = es ++ [e] := by
    rw [hlog, Log.events_append, h.events, Log.events_single]
  refine ⟨⟨hev, ?_⟩, fun hb => ⟨h.err, hev, ?_⟩⟩
  · rw [hlog, List.dropLast_concat]
    exact h.answers
  · rw [hlog]
    intro x hx
    rcases List.mem_append.mp hx with hx | hx
    · exact h.answers x hx
    · rw [List.mem_singleton.mp hx]
      exact hb

/-! ### Steps -/

theorem nested_failed (h : Tells es q) (he : q.err_ ≠ .kErrorNone) (hp : Prefix es) :
    Nested (.doc_end, q) :=
  .stopped es he hp h

theorem nested_first_error {e : SonicError} (h : Tells es q) (he : e ≠ .kErrorNone) (hp : Prefix es) :
    Nested (.doc_end, q.setFirstError e) := by
  refine nested_failed (h.congr rfl) ?_ hp
  rw [setFirstError]
  dsimp only
  split <;> assumption

theorem nested_invalid (h : Tells es q) (hp : Prefix es) : Nested q.err_invalid_char :=
  nested_first_error h SonicError.noConfusion hp

theorem nested_check_err {f : Parser (σ × Log) → Label × Parser (σ × Log)} (h : Tells es q)
    (hp : Prefix es) (hf : q.err_ = .kErrorNone → Nested (f q)) : Nested (q.sonic_check_err f) := by
  rw [sonic_check_err]
  split
  · exact nested_invalid h hp
  · exact hf (not_not.mp ‹_›)

/-- A callback, and what follows where the handler accepts it. -/
theorem nested_sax_check {f : Parser (σ × Log) → Label × Parser (σ × Log)} {e : Event} (h : Told es p)
    (hp : Prefix (es ++ [e]))
    (hf : Told (es ++ [e]) (p.call (E.H.told e)).2 → Nested (f (p.call (E.H.told e)).2)) :
    Nested (sonic_sax_check (p.call (E.H.told e)) f) := by
  obtain ⟨h1, h2⟩ := h.call (E := E) e
  rw [sonic_sax_check]
  split
  · exact hf (h2 ‹_›)
  · exact nested_first_error h1 SonicError.noConfusion hp

/-- A container has been closed, inside another one or not. -/
theorem nested_scope_end {d : ℕ} (h : Told (opened ctx ++ t.events) p)
    (hd : p.depth = d :: words ctx) (hs : Small ctx) :
    Nested p.scope_end := by
  cases ctx with
  | nil =>
    rw [scope_end_outer h.err hd]
    exact .done t (h.congr rfl rfl)
  | cons g ctx =>
    have hg : g.count < 2 ^ 31 := hs g List.mem_cons_self
    rw [scope_end_inner h.err g.isCont hg hd]
    exact .cont g ctx t (h.congr rfl rfl) rfl (Hole.counts_of_lt hg) fun f hf =>
      hs f (List.mem_cons_of_mem _ hf)

theorem nested_start_object (h : Told (opened ctx) p) (hd : p.depth = words ctx) (hs : Small ctx) :
    Nested (p.start_object E.logged) := by
  have h1 : Prefix (opened ctx ++ [.StartObject]) :=
    prefix_of_tree ctx (t := .obj []) ⟨[.EndObject 0], rfl⟩
  refine nested_sax_check h h1 fun h2 => ?_
  have hd' : (p.call (E.H.told .StartObject)).2.depth = words ctx := hd
  dsimp only
  rw [hd']
  split
  · have h3 : opened ctx ++ [.StartObject] ++ [.EndObject 0] =
      opened ctx ++ (EventTree.obj []).events := by simp [events, mems]
    refine nested_sax_check (h2.congr rfl rfl) ?_ fun h4 => ?_
    · rw [h3]
      exact prefix_opened ctx _
    · rw [h3] at h4
      exact nested_scope_end h4 rfl hs
  · exact .key [] ctx (h2.congr rfl rfl) rfl (by simp) hs

theorem nested_start_array (h : Told (opened ctx) p) (hd : p.depth = words ctx) (hs : Small ctx) :
    Nested (p.start_array E.logged) := by
  have h1 : Prefix (opened ctx ++ [.StartArray]) :=
    prefix_of_tree ctx (t := .arr []) ⟨[.EndArray 0], rfl⟩
  refine nested_sax_check h h1 fun h2 => ?_
  have hd' : (p.call (E.H.told .StartArray)).2.depth = words ctx := hd
  dsimp only
  rw [hd']
  split
  · have h3 : opened ctx ++ [.StartArray] ++ [.EndArray 0] =
      opened ctx ++ (EventTree.arr []).events := by simp [events, elems]
    refine nested_sax_check (h2.congr rfl rfl) ?_ fun h4 => ?_
    · rw [h3]
      exact prefix_opened ctx _
    · rw [h3] at h4
      exact nested_scope_end h4 rfl hs
  · refine .val [] ctx (h2.congr rfl rfl) rfl fun g hg => ?_
    rcases List.mem_cons.mp hg with rfl | hg
    · simp [Hole.count]
    · exact hs g hg

/-- What a scan of a primitive value has told. -/
structure Leaf (ctx : List Hole) (p : Parser (σ × Log)) (x : Bool × Parser (σ × Log)) : Prop where
  tells : ∃ es, Prefix es ∧ Tells es x.2
  told : x.2.err_ = .kErrorNone → x.1 = true → ∃ e, Told (opened ctx ++ (EventTree.leaf e).events) x.2
  depth : x.2.depth = p.depth

theorem prefix_self (ctx : List Hole) : Prefix (opened ctx) := by
  have h := prefix_of_tree ctx (t := .leaf .Null) (List.nil_prefix)
  rwa [List.append_nil] at h

/-- Nothing was told. -/
theorem leaf_failed {b : Bool} (h : Told (opened ctx) p) (hq : q.err_ ≠ .kErrorNone)
    (hs : q.sax = p.sax) (hd : q.depth = p.depth) : Leaf ctx p (b, q) :=
  ⟨⟨_, prefix_self ctx, h.tells.congr hs⟩, fun he => absurd he hq, hd⟩

theorem leaf_call {e : Scalar} (h : Told (opened ctx) q) (hd : q.depth = p.depth) :
    Leaf ctx p (q.call (E.H.told (.primitive e))) := by
  obtain ⟨h1, h2⟩ := h.call (E := E) (.primitive e)
  exact ⟨⟨_, prefix_opened ctx (.leaf e), h1⟩, fun _ hb => ⟨e, h2 hb⟩, hd⟩

theorem leaf_literal {c : Prop} [Decidable c] {n : ℕ} {e : Scalar} (h : Told (opened ctx) p) :
    Leaf ctx p (if c then call { p with pos_ := n } (E.H.told (.primitive e))
      else (false, p.setParseError .kParseErrorInvalidChar)) := by
  split
  · exact leaf_call (h.congr rfl rfl) rfl
  · exact leaf_failed h SonicError.noConfusion rfl rfl

theorem leaf_string (h : Told (opened ctx) p) : Leaf ctx p (p.parseStrInPlace E.logged) := by
  rw [parseStrInPlace, parseStr]
  rcases hr : p.parseStringHelper E.logged with ⟨sv, q⟩
  have hq : q.sax = p.sax ∧ q.depth = p.depth := by
    rw [parseStringHelper] at hr
    rw [← (Prod.mk.inj hr).2]
    exact ⟨rfl, rfl⟩
  dsimp only
  split
  · exact leaf_failed h ‹_› hq.1 hq.2
  · rename_i he
    exact leaf_call ⟨not_not.mp he, by rw [hq.1, h.events], by rw [hq.1]; exact h.answers⟩ hq.2

theorem leaf_number (h : Told (opened ctx) p) : Leaf ctx p (true, p.parseNumber E.logged) := by
  unfold Parser.parseNumber
  have htold := @parseNumber_told E.logged.F E.logged.parseFlags p.json_buf_ p.len_ p.pos_
  generalize SonicJson.parseNumber E.logged.F E.logged.parseFlags p.json_buf_ p.len_ p.pos_ = r
    at htold ⊢
  dsimp only
  split
  · rename_i he
    -- the scan has failed
    refine leaf_failed h (fun herr => ?_) rfl rfl
    have := htold herr
    rw [he] at this
    exact absurd this (by decide)
  · rename_i e _
    obtain ⟨h1, h2⟩ := h.call (E := E) (.primitive e)
    refine ⟨⟨_, prefix_opened ctx (.leaf e), h1.congr rfl⟩, fun herr _ => ⟨e, ?_⟩, rfl⟩
    dsimp only at herr
    split at herr
    · rename_i hb
      exact ⟨by simp only [if_pos hb]; exact herr, (h2 hb).events, (h2 hb).answers⟩
    · exact absurd herr SonicError.noConfusion

/-! ### The labels -/

theorem nested_value (h : Hole) (ctx : List Hole) (ht : Told (opened (h :: ctx)) p)
    (hd : p.depth = words (h :: ctx)) (hc : h.Counts) (hs : Small ctx)
    (hin : p.c = Ch.lbrace ∨ p.c = Ch.lbrack → h.count < 2 ^ 31) :
    Nested (p.value E.logged h.cont) := by
  -- a primitive value, and the label after it
  have next : ∀ {x : Bool × Parser (σ × Log)}, Leaf (h :: ctx) p x → x.1 = true →
      Nested (x.2.sonic_check_err fun p => (h.cont, p.SkipSpace)) := by
    intro x hx hb
    obtain ⟨es, he, hes⟩ := hx.tells
    refine nested_check_err hes he fun h0 => ?_
    obtain ⟨e, h1⟩ := hx.told h0 hb
    exact .cont h ctx (.leaf e) (h1.congr rfl rfl) (hx.depth.trans hd) hc hs
  have literal : ∀ {x : Bool × Parser (σ × Log)}, Leaf (h :: ctx) p x →
      Nested (x.2.sonic_check_err fun p =>
      if !x.1 then (.doc_end, p.setParseError .kSaxTermination) else (h.cont, p.SkipSpace)) := by
    intro x hx
    obtain ⟨es, he, hes⟩ := hx.tells
    cases hb : x.1 with
    | true => exact next hx hb
    | false =>
      exact nested_check_err hes he fun _ => nested_failed (hes.congr rfl) SonicError.noConfusion he
  rw [value]
  dsimp only
  split
  · exact nested_start_object ht hd (small_cons (hin (.inl ‹_›)) hs)
  split
  · exact nested_start_array ht hd (small_cons (hin (.inr ‹_›)) hs)
  split
  · exact next (leaf_number ht) rfl
  split
  · exact literal (leaf_literal ht)
  split
  · exact literal (leaf_literal ht)
  split
  · exact literal (leaf_literal ht)
  split
  · have hx := leaf_string ht (E := E)
    rw [sonic_sax_check]
    split
    · exact next hx ‹_›
    · obtain ⟨es, he, hes⟩ := hx.tells
      exact nested_first_error hes SonicError.noConfusion he
  · exact nested_invalid ht.tells (prefix_self _)

theorem nested_obj_key {ms : List (Bytes × EventTree)} (hskip : E.H.check_key_return = false)
    (ht : Told (opened ctx ++ .StartObject :: mems ms) p)
    (hd : p.depth = word .obj_cont ms.length :: words ctx) (hms : ms.length < 2 ^ 32) (hs : Small ctx)
    (hin : 2 ^ 31 ≤ ms.length → p.memberByte E.logged ≠ Ch.lbrace ∧ p.memberByte E.logged ≠ Ch.lbrack) :
    Nested (p.obj_key E.logged) := by
  have hbefore : Prefix (opened ctx ++ .StartObject :: mems ms) :=
    prefix_of_tree ctx (t := .obj ms) ⟨[.EndObject ms.length], by simp [events]⟩
  rw [memberByte] at hin
  rw [obj_key]
  split
  · exact nested_invalid ht.tells hbefore
  rw [parseKeyInPlace, parseStr] at hin ⊢
  rcases hr : p.parseStringHelper E.logged with ⟨key, q⟩
  have hq : q.sax = p.sax ∧ q.depth = p.depth := by
    rw [parseStringHelper] at hr
    rw [← (Prod.mk.inj hr).2]
    exact ⟨rfl, rfl⟩
  rw [hr] at hin
  dsimp only at hin ⊢
  by_cases he : q.err_ = .kErrorNone
  swap
  · rw [if_pos he]
    exact nested_check_err (ht.tells.congr hq.1) hbefore fun h0 => absurd h0 he
  rw [if_neg (not_not.mpr he)] at hin ⊢
  -- the key was told
  have hopen : opened ctx ++ .StartObject :: mems ms ++ [.Key key] =
      opened (.member ms key :: ctx) := by
    simp [opened, Hole.before]
  obtain ⟨h1, h2⟩ := Told.call (E := E) (p := q) ⟨he, by rw [hq.1, ht.events],
    by rw [hq.1]; exact ht.answers⟩ (.Key key)
  have hp := prefix_self (.member ms key :: ctx)
  rw [← hopen] at hp
  refine nested_check_err h1 hp fun _ => ?_
  split
  · exact nested_invalid (h1.congr rfl) hp
  split
  · rw [if_neg
      (by rw [show E.logged.H.check_key_return = E.H.check_key_return from rfl, hskip]; decide)]
    exact nested_first_error (h1.congr rfl) SonicError.noConfusion hp
  · rename_i hb
    have hb' : (q.call (E.logged.H.Key key)).1 = true := by simpa using hb
    have h3 := h2 hb'
    rw [hopen] at h3
    refine nested_value (.member ms key) ctx (h3.congr rfl rfl) (hq.2.trans hd) hms hs fun hc => ?_
    by_contra hge
    obtain ⟨hbrace, hbrack⟩ := hin (not_lt.mp hge)
    exact hc.elim hbrace hbrack

/-- The container is closed. -/
theorem nested_end {d : ℕ} (h : Hole) (ctx : List Hole) (ht : Told (opened (h :: ctx) ++ t.events) p)
    (hd : p.depth = d :: words ctx) (hs : Small ctx) :
    Nested (sonic_sax_check (p.call (E.H.told h.ending)) scope_end) := by
  have hclose : opened (h :: ctx) ++ t.events ++ [h.ending] = opened ctx ++ (h.close t).events := by
    rw [opened, h.close_events]
    simp
  refine nested_sax_check ht ?_ fun h1 => ?_
  · rw [hclose]
    exact prefix_opened ctx _
  · rw [hclose] at h1
    exact nested_scope_end h1 hd hs

theorem nested_obj_cont {ms : List (Bytes × EventTree)} {k : Bytes}
    (ht : Told (opened (.member ms k :: ctx) ++ t.events) p)
    (hd : p.depth = words (.member ms k :: ctx)) (hs : Small ctx) (hfit : ms.length + 1 < 2 ^ 32) :
    Nested (p.obj_cont E.logged) := by
  have ht' := ht.congr (q := p.setDepth (word .obj_cont (ms.length + 1) :: words ctx)) rfl rfl
  have hcount : p.count = p.setDepth (word .obj_cont (ms.length + 1) :: words ctx) := by
    rw [count, show p.depth = ms.length :: words ctx from hd]
    dsimp only
    rw [Nat.mod_eq_of_lt hfit]
    rfl
  rw [obj_cont, hcount]
  split
  · refine .key (ms ++ [(k, t)]) ctx ⟨ht'.err, ?_, ht'.answers⟩ ?_ (by simpa using hfit) hs
    · rw [SkipSpace_sax, ht'.events, mems_append]
      simp [opened, Hole.before]
    · rw [List.length_append, List.length_singleton]
      rfl
  split
  · exact nested_invalid ht'.tells (prefix_opened _ t)
  · exact nested_end (.member ms k) ctx ht' rfl hs

theorem nested_arr_cont {vs : List EventTree} (ht : Told (opened (.elem vs :: ctx) ++ t.events) p)
    (hd : p.depth = words (.elem vs :: ctx)) (hs : Small ctx) (hfit : vs.length + 1 < 2 ^ 31) :
    Nested (p.arr_cont E.logged) := by
  have ht' := ht.congr (q := p.setDepth (word .arr_cont (vs.length + 1) :: words ctx)) rfl rfl
  have hd' : p.depth = word .arr_cont vs.length :: words ctx := hd
  rw [arr_cont, count_eq hfit hd']
  split
  · refine .val (vs ++ [t]) ctx ⟨ht'.err, ?_, ht'.answers⟩ ?_ (small_cons ?_ hs)
    · rw [SkipSpace_sax, ht'.events]
      simp [opened, Hole.before, elems_append]
    · simp only [words, List.map_cons, Hole.count, Hole.cont, List.length_append, List.length_singleton]
      rfl
    · simpa [Hole.count] using hfit
  split
  · have hb : (p.setDepth (word .arr_cont (vs.length + 1) :: words ctx)).back &&& (kArrMask - 1) =
      vs.length + 1 :=
      and_kArrMask_sub_one hfit
    rw [hb]
    exact nested_end (.elem vs) ctx ht' rfl hs
  · exact nested_invalid ht'.tells (prefix_opened _ t)

/-- **A step keeps the order of the callbacks.** -/
theorem nested_step (hskip : E.H.check_key_return = false) {a b : Label × Parser (σ × Log)}
    (h : Nested a) (hfit : Fits E.logged a) (hab : step E.logged a = some b) : Nested b := by
  cases h with
  | @key p ms ctx ht hd hms hs =>
    obtain rfl := Option.some.inj hab
    have hback : p.back = ms.length := by
      rw [Parser.back, hd]
      rfl
    exact nested_obj_key hskip ht hd hms hs fun hge => hfit.value rfl (hback ▸ hge)
  | val vs ctx ht hd hs =>
    obtain rfl := Option.some.inj hab
    obtain ⟨hc, hs⟩ := List.forall_mem_cons.mp hs
    exact nested_value (.elem vs) ctx ht hd hc hs fun _ => hc
  | @cont p h ctx t ht hd hc hs =>
    cases h with
    | elem vs =>
      obtain rfl := Option.some.inj hab
      have hf := hfit.elem rfl
      refine nested_arr_cont ht hd hs ?_
      rw [Parser.back, hd] at hf
      simp only [words, List.map_cons, List.headD_cons, Hole.cont, Hole.count, word, kArrMask,
        if_true] at hf
      change vs.length < 2 ^ 31 at hc
      omega
    | member ms k =>
      obtain rfl := Option.some.inj hab
      have hf := hfit.member rfl
      rw [Parser.back, hd] at hf
      exact nested_obj_cont ht hd hs hf
  | done t ht => exact absurd hab (by simp [step])
  | stopped es he hp ht => exact absurd hab (by simp [step])

/-! ### Runs -/

theorem nested_parsePrimitives (h : Told [] p) : Nested (.doc_end, p.parsePrimitives E.logged) := by
  have h' : Told (opened []) p := h
  have none_of : ∀ {x : Bool × Parser (σ × Log)}, Leaf [] p x → x.1 = true →
      Nested (.doc_end, x.2) := by
    intro x hx hb
    by_cases he : x.2.err_ = .kErrorNone
    · obtain ⟨e, ht⟩ := hx.told he hb
      exact .done (.leaf e) ht
    · obtain ⟨es, hp, hes⟩ := hx.tells
      exact nested_failed hes he hp
  have ended : ∀ {x : Bool × Parser (σ × Log)}, Leaf [] p x →
      Nested (.doc_end, if !x.1 then x.2.setFirstError .kSaxTermination else x.2) := by
    intro x hx
    cases hb : x.1 with
    | true => exact none_of hx hb
    | false =>
      obtain ⟨es, hp, hes⟩ := hx.tells
      exact nested_first_error hes SonicError.noConfusion hp
  rw [parsePrimitives]
  dsimp only
  split
  · exact none_of (leaf_number h') rfl
  split
  · have hx := leaf_string h' (E := E)
    split
    · obtain ⟨es, hp, hes⟩ := hx.tells
      exact nested_failed (hes.congr rfl) SonicError.noConfusion hp
    · exact ended hx
  split
  · exact ended (leaf_literal h')
  split
  · exact ended (leaf_literal h')
  split
  · exact ended (leaf_literal h')
  · exact nested_failed (h.tells.congr rfl) SonicError.noConfusion (prefix_self [])

theorem nested_start (h : Told [] p) (hd : p.depth = []) : Nested (p.start E.logged) := by
  have h' : Told (opened []) p.SkipSpace := h.congr rfl rfl
  have hs : Small [] := fun g hg => absurd hg List.not_mem_nil
  rw [start]
  split
  · exact nested_start_array h' hd hs
  split
  · exact nested_start_object h' hd hs
  · exact nested_parsePrimitives h'

/-- What is known of the callbacks at the end of a run. -/
structure Disciplined (q : Parser (σ × Log)) : Prop where
  well_nested : Prefix q.sax.2.events
  complete : q.err_ = .kErrorNone → ∃ t : EventTree, q.sax.2.events = t.events
  rejected : ∀ l e l', q.sax.2 = l ++ (e, false) :: l' → l' = [] ∧ q.err_ ≠ .kErrorNone

theorem Nested.disciplined {a : Label × Parser (σ × Log)} (h : Nested a) (ha : a.1 = .doc_end) :
    Disciplined a.2 := by
  cases h with
  | key => exact absurd ha Label.noConfusion
  | val => exact absurd ha Label.noConfusion
  | cont h => cases h <;> exact absurd ha Label.noConfusion
  | done t ht =>
    refine ⟨⟨t, by rw [ht.events]⟩, fun _ => ⟨t, ht.events⟩, fun l e l' hl => ?_⟩
    have := ht.answers (e, false) (by rw [hl]; simp)
    exact Bool.noConfusion this
  | stopped es he hp ht =>
    refine ⟨ht.events ▸ hp, fun h0 => absurd h0 he, fun l e l' hl => ⟨?_, he⟩⟩
    by_contra hne
    have := ht.answers (e, false)
      (by rw [hl, List.dropLast_append_of_ne_nil (by simp), List.dropLast_cons_of_ne_nil hne]; simp)
    exact Bool.noConfusion this

end Parser

end SonicJson
