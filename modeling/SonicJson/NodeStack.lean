/-
# The room on the node stack

`SAXHandler` and `SchemaHandler` reserve `len / 2 + 2` entries for a text of length `len`.
Neither has more nodes on its stack at any moment of the parse of a JSON text
(`node_stack_fits`): the stack grows by the nodes of the text only, and the end of a
container never makes it higher, as an open container lies under the top (`Open`). For
`SchemaHandler` that is as long as the vectors hold what the end of a container takes from
them (`State.Pops`), which they need not (`schema_pops_empty`).
-/
import SonicJson.NodeCount
import SonicJson.SchemaHandler

namespace SonicJson

open Cursor Machine

/-! ### An open container lies under the top -/

/-- From the container `i` the offsets lead to the bottom. -/
inductive Open (ofs : ℕ → ℕ) : ℕ → Prop
  | bottom : Open ofs 0
  | up {i : ℕ} : ofs i < i → Open ofs (ofs i) → Open ofs i

theorem Open.congr {ofs ofs' : ℕ → ℕ} {i : ℕ} (h : Open ofs i) (he : ∀ j, j ≤ i → ofs' j = ofs j) :
    Open ofs' i := by
  induction h with
  | bottom => exact .bottom
  | @up i hlt _ ih =>
    have hi := he i le_rfl
    exact .up (hi ▸ hlt) (hi ▸ ih fun j hj => he j (by omega))

/-- The offsets of a stack of `np` entries, whose innermost open container is `parent`. -/
structure Chained (ofs : ℕ → ℕ) (np parent : ℕ) : Prop where
  chain : Open ofs parent
  under : parent = 0 ∨ parent < np

section
variable {ofs ofs' : ℕ → ℕ} {np parent : ℕ}

theorem Chained.push (h : Chained ofs np parent) (he : ∀ j, j < np → ofs' j = ofs j) :
    Chained ofs' (np + 1) parent := by
  refine ⟨?_, h.under.imp_right fun hlt => hlt.trans (Nat.lt_succ_self np)⟩
  rcases h.under with rfl | hlt
  · exact .bottom
  · exact h.chain.congr fun j hj => he j (by omega)

theorem Chained.start (h : Chained ofs np parent) (he : ∀ j, j < np → ofs' j = ofs j)
    (hn : ofs' np = parent) :
    Chained ofs' (np + 1) np := by
  refine ⟨?_, .inr (Nat.lt_succ_self np)⟩
  by_cases h0 : np = 0
  · subst h0
    exact .bottom
  have hlt : parent < np := by
    rcases h.under with rfl | hlt
    · omega
    · exact hlt
  exact .up (hn ▸ hlt) (hn ▸ h.chain.congr fun j hj => he j (by omega))

/-- The container is closed, and the next one is its parent. -/
theorem Chained.close (h : Chained ofs np parent) (he : ∀ j, j < parent → ofs' j = ofs j)
    (h0 : parent ≠ 0) :
    Chained ofs' (parent + 1) (ofs parent) ∧ parent + 1 ≤ np := by
  have hlt : parent < np := h.under.resolve_left h0
  cases h.chain with
  | bottom => exact absurd rfl h0
  | up hofs hrest => exact ⟨⟨hrest.congr fun j hj => he j (by omega), .inr (by omega)⟩, hlt⟩

theorem chained_new (ofs : ℕ → ℕ) : Chained ofs 0 0 := ⟨.bottom, .inl rfl⟩

end

/-! ### `SAXHandler` -/

namespace SAXHandler

/-- The members of the handler, with the capacity of its stack. -/
structure Sized extends State where
  cap_ : ℕ
  oom_ : Bool
  /-- the calls of the allocator so far -/
  calls : ℕ

namespace Sized

def new : Sized := ⟨init, 0, false, 0⟩

def np_ (s : Sized) : ℕ := s.st_.length

variable (M : Memory) (s : Sized)

/-- `SetUp`, for a text of length `len`. -/
def SetUp (len : ℕ) : Bool × Sized :=
  let cap := len / 2 + 2
  let cap := if cap < 16 then 16 else cap
  if s.cap_ < cap then
    if M.realloc cap then (true, { s with cap_ := cap }) else (false, s)
  else (true, s)

def node : Bool × Sized :=
  if s.np_ < s.cap_ then (true, s)
  else
    let new_cap := s.cap_ * 2
    if M.realloc new_cap then (true, { s with cap_ := new_cap }) else (false, { s with oom_ := true })

/-- `SONIC_ADD_NODE`, and an event on the stack that has the room. -/
def add (f : State → Bool × State) : Bool × Sized :=
  let (ok, s) := s.node M
  if ok then ((f s.toState).1, { s with toState := (f s.toState).2 }) else (false, s)

/-- The end of a container of `count` children, which are moved to a block of their own: without it
the container is empty. -/
def close (f : ℕ → State → Bool × State) (count : ℕ) : Bool × Sized :=
  if count = 0 then (true, { s with toState := (f 0 s.toState).2 })
  else if M.malloc s.calls then (true,
    { s with toState := (f count s.toState).2, calls := s.calls + 1 })
  else (true, { s with toState := (f 0 s.toState).2, calls := s.calls + 1, oom_ := true })

end Sized

/-- `SAXHandler` on a stack that has a capacity. -/
def sized (M : Memory) : SAX Sized where
  primitive e s := s.add M (push e.node)
  Key k s := s.add M (push (.str k))
  StartObject s := s.add M start
  StartArray s := s.add M start
  EndObject n s := s.close M EndObject n
  EndArray n s := s.close M EndArray n
  check_key_return := false

variable {M : Memory} {s h : Sized} {len : ℕ}

/-! ### The height of `SAXHandler`'s stack -/

theorem ofsAt_append {st : List Slot} {x : Slot} {j : ℕ} (h : j < st.length) :
    ofsAt (st ++ [x]) j = ofsAt st j := by
  simp [ofsAt, List.getD_eq_getElem?_getD, List.getElem?_append_left h]

theorem ofsAt_concat (st : List Slot) (x : Slot) : ofsAt (st ++ [x]) st.length = x.ofs := by
  simp [ofsAt]

theorem ofsAt_take {st : List Slot} {x : Slot} {i j : ℕ} (hi : i ≤ st.length) (h : j < i) :
    ofsAt (st.take i ++ [x]) j = ofsAt st j := by
  rw [ofsAt_append (by rw [List.length_take]; omega)]
  simp [ofsAt, List.getD_eq_getElem?_getD, h]

/-- The open containers of a stack; the bottom has none under it. -/
structure State.Good (s : State) : Prop where
  chained : Chained (ofsAt s.st_) s.st_.length s.parent_
  bottom : ofsAt s.st_ 0 = 0

theorem good_push {s : State} (h : s.Good) (n : Node) : (push n s).2.Good := by
  refine ⟨?_, ?_⟩
  · show Chained (ofsAt (s.st_ ++ [⟨n, 0⟩])) (s.st_ ++ [(⟨n, 0⟩ : Slot)]).length s.parent_
    rw [List.length_append]
    exact h.chained.push fun j hj => ofsAt_append hj
  · show ofsAt (s.st_ ++ [(⟨n, 0⟩ : Slot)]) 0 = 0
    cases hst : s.st_ with
    | nil => rfl
    | cons x st =>
      have := h.bottom
      rw [hst] at this
      exact this

theorem good_start {s : State} (h : s.Good) : (start s).2.Good := by
  refine ⟨?_, ?_⟩
  · show Chained (ofsAt (s.st_ ++ [⟨.null, s.parent_⟩]))
      (s.st_ ++ [(⟨.null, s.parent_⟩ : Slot)]).length s.st_.length
    rw [List.length_append]
    exact h.chained.start (fun j hj => ofsAt_append hj) (ofsAt_concat _ _)
  · show ofsAt (s.st_ ++ [(⟨.null, s.parent_⟩ : Slot)]) 0 = 0
    cases hst : s.st_ with
    | nil =>
      have := h.chained.under
      rw [hst] at this
      exact this.resolve_right (Nat.not_lt_zero _)
    | cons x st =>
      have := h.bottom
      rw [hst] at this
      exact this

/-- The end of a container: the stack is not higher, unless it was empty. -/
theorem good_close {s : State} (h : s.Good) (n : Node) :
    State.Good ⟨s.st_.take s.parent_ ++ [⟨n, 0⟩], ofsAt s.st_ s.parent_⟩ ∧
      (s.st_.take s.parent_ ++ [⟨n, 0⟩] : List Slot).length ≤ max s.st_.length 1 := by
  by_cases h0 : s.parent_ = 0
  · rw [h0, h.bottom]
    exact ⟨⟨⟨.bottom, .inl rfl⟩, rfl⟩, Nat.le_max_right _ _⟩
  · have hle := (h.chained.under.resolve_left h0).le
    obtain ⟨h1, h2⟩ := @Chained.close _ (ofsAt (s.st_.take s.parent_ ++ [⟨n, 0⟩])) _ _ h.chained
      (fun j hj => ofsAt_take hle hj) h0
    have hlen : (s.st_.take s.parent_ ++ [⟨n, 0⟩] : List Slot).length = s.parent_ + 1 := by
      rw [List.length_append, List.length_take, Nat.min_eq_left hle]
      rfl
    refine ⟨⟨hlen ▸ h1, ?_⟩, hlen ▸ h2.trans (Nat.le_max_left _ _)⟩
    exact (ofsAt_take hle (Nat.pos_of_ne_zero h0)).trans h.bottom

theorem good_init : init.Good := ⟨chained_new _, rfl⟩

/-- A handler that goes on: the open containers are in order, the capacity is the same. -/
structure Goes (s : Sized) (r : Bool × Sized) (n : ℕ) : Prop where
  ok : r.1 = true
  good : r.2.toState.Good
  cap : r.2.cap_ = s.cap_
  np : r.2.np_ ≤ max (s.np_ + n) 1

theorem goes_add {f : State → Bool × State} (hroom : s.np_ < s.cap_) (hok : (f s.toState).1 = true)
    (hgood : (f s.toState).2.Good) (hlen : (f s.toState).2.st_.length = s.np_ + 1) :
    Goes s (s.add M f) 1 := by
  rw [Sized.add, show s.node M = (true, s) from if_pos hroom]
  exact ⟨hok, hgood, rfl, (Nat.le_of_eq hlen).trans (Nat.le_max_left _ _)⟩

theorem goes_close {f : ℕ → State → Bool × State}
    (hf : ∀ n, (f n s.toState).2.Good ∧ (f n s.toState).2.st_.length ≤ max s.np_ 1)
    (count : ℕ) : Goes s (s.close M f count) 0 := by
  rw [Sized.close]
  split
  · exact ⟨rfl, (hf 0).1, rfl, (hf 0).2⟩
  split
  · exact ⟨rfl, (hf count).1, rfl, (hf count).2⟩
  · exact ⟨rfl, (hf 0).1, rfl, (hf 0).2⟩

/-- **One event**: the handler goes on, and the stack is higher by the node of the event. -/
theorem sized_goes (e : Event) (hs : s.toState.Good) (hroom : e.node = true → s.np_ < s.cap_) :
    Goes s ((sized M).tell e s) (nodesOf [e]) := by
  cases e with
  | EndObject n => exact goes_close (f := EndObject) (fun n => good_close hs _) n
  | EndArray n => exact goes_close (f := EndArray) (fun n => good_close hs _) n
  | StartObject =>
    exact goes_add (f := start) (hroom rfl) rfl (good_start hs) (by simp [start, Sized.np_])
  | StartArray =>
    exact goes_add (f := start) (hroom rfl) rfl (good_start hs) (by simp [start, Sized.np_])
  | Key k => exact goes_add (f := push _) (hroom rfl) rfl (good_push hs _) (by simp [push, Sized.np_])
  | primitive e =>
    exact goes_add (f := push _) (hroom rfl) rfl (good_push hs _) (by simp [push, Sized.np_])

theorem SetUp_new (hup : Sized.new.SetUp M len = (true, h)) :
    h.toState = init ∧ len / 2 + 2 ≤ h.cap_ ∧ 16 ≤ h.cap_ := by
  unfold Sized.SetUp at hup
  dsimp only at hup
  have hc : Sized.new.cap_ = 0 := rfl
  split at hup
  · rename_i h16
    rw [if_pos (by omega)] at hup
    split at hup
    · obtain rfl := (Prod.mk.inj hup).2
      exact ⟨rfl, by dsimp only; omega, le_rfl⟩
    · exact absurd (Prod.mk.inj hup).1 (by decide)
  · rw [if_pos (by omega)] at hup
    split at hup
    · obtain rfl := (Prod.mk.inj hup).2
      exact ⟨rfl, le_rfl, by dsimp only; omega⟩
    · exact absurd (Prod.mk.inj hup).1 (by decide)

/-- **A run of events** with half as many nodes as the text has bytes. -/
theorem sized_run (hup : Sized.new.SetUp M len = (true, h)) (es : List Event)
    (hes : 2 * nodesOf es ≤ len + 1) :
    ((sized M).after es h).toState.Good ∧ ((sized M).after es h).cap_ = h.cap_ ∧
    ((sized M).after es h).np_ ≤ nodesOf es + 1 := by
  obtain ⟨h1, h2, h3⟩ := SetUp_new hup
  induction es using List.reverseRecOn with
  | nil =>
    rw [SAX.after_nil, Sized.np_, h1]
    exact ⟨good_init, rfl, Nat.zero_le _⟩
  | append_singleton es e ih =>
    rw [nodesOf_append] at hes
    obtain ⟨h4, h5, h6⟩ := ih (by omega)
    rw [SAX.after_concat, nodesOf_append]
    obtain ⟨-, h7, h8, h9⟩ := sized_goes (M := M) e h4 fun he => by
      have : nodesOf [e] = 1 := by rw [nodesOf, List.countP_singleton, if_pos he]
      omega
    exact ⟨h7, h8.trans h5, by omega⟩

end SAXHandler

/-! ### The height of `SchemaHandler`'s stack -/

namespace SchemaHandler

variable {M : Memory} {s h : State} {len : ℕ}

def State.offsets (s : State) (i : ℕ) : ℕ := (s.st_ i).ofs

/-- The open containers of the stack are in order. -/
def State.Good (s : State) : Prop := Chained s.offsets s.np_ s.parent_

/-- What comes of a call: the open containers are in order, the capacity is the same and the stack
is at most `n` higher. -/
structure Goes (s s' : State) (n : ℕ) : Prop where
  good : s'.Good
  cap : s'.cap_ = s.cap_
  np : s'.np_ ≤ s.np_ + n

/-- The members that the stack does not have count for nothing. -/
theorem Goes.congr {s₀ s s' : State} {n : ℕ} (h : Goes s s' n) (h1 : s.np_ = s₀.np_)
    (h2 : s.cap_ = s₀.cap_) : Goes s₀ s' n :=
  ⟨h.good, h.cap.trans h2, h1 ▸ h.np⟩

/-- The members of the handler that the stack does not have are changed. -/
theorem Goes.of_stack {s s' : State} (hs : s.Good) (h1 : s'.st_ = s.st_) (h2 : s'.np_ = s.np_)
    (h3 : s'.parent_ = s.parent_) (h4 : s'.cap_ = s.cap_) (n : ℕ) : Goes s s' n := by
  refine ⟨?_, h4, by omega⟩
  have : s'.offsets = s.offsets := by
    funext i
    rw [State.offsets, h1]
    rfl
  rw [State.Good, this, h2, h3]
  exact hs

theorem goes_push (hs : s.Good) (hroom : s.np_ < s.cap_) (c : Cell) :
    (s.push c).1 = true ∧ Goes s (s.push c).2 1 := by
  rw [State.push, State.add, if_pos hroom]
  refine ⟨rfl, Chained.push hs fun j hj => ?_, rfl, le_rfl⟩
  simp only [State.offsets, Nat.add_sub_cancel]
  rw [Function.update_of_ne (by omega)]

theorem goes_start (hs : s.Good) (hroom : s.np_ < s.cap_) : s.start.1 = true ∧ Goes s s.start.2 1 := by
  rw [State.start, State.add, if_pos hroom]
  refine ⟨rfl, Chained.start hs (fun j hj => ?_) ?_, rfl, le_rfl⟩
  · simp only [State.offsets, Nat.add_sub_cancel]
    rw [Function.update_of_ne (by omega)]
  · simp only [State.offsets, Nat.add_sub_cancel, Function.update_self]

/-- A block of its own for the children changes the memory of the document alone. -/
theorem build_stack (mk : ℕ → Ptr → Cell) (count : ℕ) (cs : List Cell) :
    (s.build M mk count cs).2.st_ = s.st_ ∧
    (s.build M mk count cs).2.np_ = s.np_ ∧ (s.build M mk count cs).2.parent_ = s.parent_ ∧
    (s.build M mk count cs).2.cap_ = s.cap_ := by
  rw [State.build]
  split
  · exact ⟨rfl, rfl, rfl, rfl⟩
  split <;> exact ⟨rfl, rfl, rfl, rfl⟩

theorem goes_close (hs : s.Good) (h0 : s.parent_ ≠ 0) (mk : ℕ → Ptr → Cell) (count n : ℕ) :
    Goes s (s.close M mk count n) 0 := by
  obtain ⟨h1, h2, h3, h4⟩ :=
    @build_stack M { s with np_ := s.parent_ + 1, parent_ := (s.st_ s.parent_).ofs } mk count
    (cells s.st_ (s.parent_ + 1) n)
  have hofs : ∀ j, j < s.parent_ → (s.close M mk count n).offsets j = s.offsets j := by
    intro j hj
    simp only [State.offsets, State.close]
    rw [Function.update_of_ne (by omega), h1]
  obtain ⟨h5, h6⟩ := Chained.close hs hofs h0
  refine ⟨?_, h4, ?_⟩
  · show Chained _ (s.close M mk count n).np_ (s.close M mk count n).parent_
    rw [show (s.close M mk count n).np_ = _ from h2, show (s.close M mk count n).parent_ = _ from h3]
    exact h5
  · rw [show (s.close M mk count n).np_ = _ from h2]
    exact h6

/-- The stack is empty. -/
theorem goes_empty {s' : State} (h1 : s'.np_ = 0) (h2 : s'.parent_ = 0) (h3 : s'.cap_ = s.cap_)
    (n : ℕ) : Goes s s' n := by
  refine ⟨?_, h3, by omega⟩
  rw [State.Good, h1, h2]
  exact chained_new _

theorem goes_EndObject (hs : s.Good) (pairs : ℕ) {s' : State} (h : s.EndObject M pairs = some s') :
    Goes s s' 0 := by
  unfold State.EndObject at h
  split at h
  · split at h
    · obtain rfl := Option.some.inj h
      refine .of_stack hs ?_ ?_ ?_ ?_ 0 <;> rfl
    · exact absurd h (by simp)
  split at h
  · split at h
    · rename_i obj p ps _
      obtain ⟨-, h2, h3, h4⟩ :=
        @build_stack M
        { s with parent_node_ := p, parent_st_ := ps, cur_node_ := none, np_ := 0, parent_ := 0 }
        .object pairs (cells s.st_ 0 (pairs * 2))
      obtain rfl := Option.some.inj h
      refine goes_empty ?_ ?_ ?_ 0
      · exact h2
      · exact h3
      · exact h4
    · exact absurd h (by simp)
  · rename_i h0
    obtain rfl := Option.some.inj h
    exact goes_close hs h0 _ _ _

theorem goes_EndArray (hs : s.Good) (count : ℕ) {s' : State} (h : s.EndArray M count = some s') :
    Goes s s' 0 := by
  unfold State.EndArray at h
  split at h
  · split at h
    · rename_i arr p ps _ _
      obtain ⟨-, h2, h3, h4⟩ :=
        @build_stack M
        { s with cur_node_ := some arr, parent_node_ := p, parent_st_ := ps, np_ := 0, parent_ := 0 }
        .array count (cells s.st_ 1 count)
      obtain rfl := Option.some.inj h
      refine goes_empty ?_ ?_ ?_ 0
      · exact h2
      · exact h3
      · exact h4
    · exact absurd h (by simp)
  · rename_i h0
    obtain rfl := Option.some.inj h
    exact goes_close hs h0 _ _ _

theorem goes_primitive (hs : s.Good) (hroom : s.np_ < s.cap_) (e : Scalar) :
    (s.primitive M e).1 = true ∧ Goes s (s.primitive M e).2 1 := by
  unfold State.primitive
  split
  · refine ⟨rfl, .of_stack hs ?_ ?_ ?_ ?_ 1⟩ <;> rfl
  · refine ⟨rfl, .of_stack hs ?_ ?_ ?_ ?_ 1⟩ <;> rfl
  · exact goes_push hs hroom _

theorem goes_Key (hs : s.Good) (hroom : s.np_ < s.cap_) (k : Bytes) : Goes s (s.Key k).2 1 := by
  unfold State.Key
  split
  · split
    · refine .of_stack hs ?_ ?_ ?_ ?_ 1 <;> rfl
    split
    · refine .of_stack hs ?_ ?_ ?_ ?_ 1 <;> rfl
    · refine .of_stack hs ?_ ?_ ?_ ?_ 1 <;> rfl
  · exact (goes_push (s := { s with cur_node_ := none }) hs hroom _).2.congr rfl rfl

theorem goes_StartObject (hs : s.Good) (hroom : s.np_ < s.cap_) :
    s.StartObject.1 = true ∧ Goes s s.StartObject.2 1 := by
  unfold State.StartObject
  split
  · refine ⟨rfl, ?_⟩
    dsimp only
    generalize State.merges _ = merge
    cases merge <;> refine .of_stack hs ?_ ?_ ?_ ?_ 1 <;> rfl
  · exact goes_start hs hroom

theorem goes_StartArray (hs : s.Good) (hroom : s.np_ < s.cap_) :
    s.StartArray.1 = true ∧ Goes s s.StartArray.2 1 := by
  unfold State.StartArray
  split
  · rename_i p _
    have h1 :=
      goes_start
      (s := { s with
        parent_st_ := s.parent_node_ :: s.parent_st_
        parent_node_ := some p
        cur_node_ := none })
      hs hroom
    exact ⟨h1.1, h1.2.congr rfl rfl⟩
  · exact goes_start hs hroom

/-- **One event**: the handler goes on, and its stack is higher by the node of the event at most. -/
theorem schema_goes (e : Event) (hs : s.Good) (hroom : e.node = true → s.np_ < s.cap_) :
    (e.isKey = false → ((SchemaHandler M).tell e (some s)).1 = true) ∧
      ∀ s', ((SchemaHandler M).tell e (some s)).2 = some s' → Goes s s' (nodesOf [e]) := by
  cases e with
  | EndObject n => exact ⟨fun _ => rfl, fun s' h => goes_EndObject hs n h⟩
  | EndArray n => exact ⟨fun _ => rfl, fun s' h => goes_EndArray hs n h⟩
  | StartObject =>
    obtain ⟨h1, h2⟩ := goes_StartObject hs (hroom rfl)
    exact ⟨fun _ => h1, fun s' h => Option.some.inj h ▸ h2⟩
  | StartArray =>
    obtain ⟨h1, h2⟩ := goes_StartArray hs (hroom rfl)
    exact ⟨fun _ => h1, fun s' h => Option.some.inj h ▸ h2⟩
  | Key k =>
    refine ⟨fun hk => by simp [Event.isKey] at hk, fun s' h => ?_⟩
    exact Option.some.inj h ▸ goes_Key hs (hroom rfl) k
  | primitive e =>
    obtain ⟨h1, h2⟩ := goes_primitive (M := M) hs (hroom rfl) e
    exact ⟨fun _ => h1, fun s' h => Option.some.inj h ▸ h2⟩

/-- Undefined behaviour is not left. -/
theorem schema_none (e : Event) : (SchemaHandler M).tell e none = (true, none) := by cases e <;> rfl

/-- What the end of a container takes from the vectors is there, and the node that it is written to. -/
def State.Pops (s : State) : Event → Prop
  | .EndObject _ =>
    if s.object.isSome then s.parent_st_ ≠ [] ∧ s.found_count_st_ ≠ []
    else s.parent_ = 0 → ∃ obj p ps, s.parent_st_ = some obj :: p :: ps
  | .EndArray _ => s.parent_ = 0 → s.parent_node_ ≠ none ∧ s.parent_st_ ≠ []
  | _ => True

theorem EndObject_isSome (pairs : ℕ) :
    (s.EndObject M pairs).isSome = true ↔ s.Pops (.EndObject pairs) := by
  unfold State.EndObject State.Pops
  split
  · cases s.parent_st_ <;> cases s.found_count_st_ <;> simp
  · split
    · rename_i h0
      simp only [h0, forall_const]
      split
      · rename_i obj p ps heq
        exact iff_of_true rfl ⟨obj, p, ps, heq⟩
      · rename_i hne
        exact iff_of_false (by simp) fun ⟨obj, p, ps, heq⟩ => hne obj p ps heq
    · rename_i h0
      exact iff_of_true rfl fun h => absurd h h0

theorem EndArray_isSome (count : ℕ) :
    (s.EndArray M count).isSome = true ↔ s.Pops (.EndArray count) := by
  unfold State.EndArray State.Pops
  split
  · rename_i h0
    simp only [h0, forall_const]
    cases s.parent_node_ <;> cases s.parent_st_ <;> simp
  · rename_i h0
    exact iff_of_true rfl fun h => absurd h h0

/-- **One event**: the handler stays defined if and only if what it takes from the vectors is there. -/
theorem tell_isSome (e : Event) : ((SchemaHandler M).tell e (some s)).2.isSome = true ↔ s.Pops e := by
  cases e with
  | EndObject n => exact EndObject_isSome n
  | EndArray n => exact EndArray_isSome n
  | StartObject => exact iff_of_true rfl trivial
  | StartArray => exact iff_of_true rfl trivial
  | Key k => exact iff_of_true rfl trivial
  | primitive e => exact iff_of_true rfl trivial

/-- **A run of events**: the handler is defined at its end if and only if it was before each of
them, and what was taken from the vectors was there. -/
theorem after_isSome (es : List Event) : ((SchemaHandler M).after es (some h)).isSome = true ↔
    ∀ before e t, before ++ [e] <+: es → (SchemaHandler M).after before (some h) = some t →
      t.Pops e := by
  induction es using List.reverseRecOn with
  | nil =>
    refine iff_of_true rfl fun before e t hpre => ?_
    exact absurd (List.prefix_nil.mp hpre) (by simp)
  | append_singleton es e ih =>
    rw [SAX.after_concat]
    constructor
    · intro hsome before e' t hpre ht
      have hes : ((SchemaHandler M).after es (some h)).isSome = true := by
        by_contra hnone
        rw [Option.not_isSome_iff_eq_none.mp hnone, schema_none] at hsome
        exact absurd hsome (by simp)
      rcases List.prefix_concat_iff.mp hpre with heq | hpre
      · obtain ⟨rfl, he⟩ := List.append_inj' heq rfl
        obtain rfl := List.singleton_inj.mp he
        rw [ht] at hsome
        exact (tell_isSome e').mp hsome
      · exact ih.mp hes before e' t hpre ht
    · intro hall
      obtain ⟨t, ht⟩ := Option.isSome_iff_exists.mp (ih.mpr fun before e' t hpre =>
        hall before e' t (hpre.trans (List.prefix_append es [e])))
      rw [ht]
      exact (tell_isSome e).mpr (hall es e t List.prefix_rfl ht)

theorem SetUp_new {heap : List Cell} {root : Ptr} {st : ℕ → Slot}
    (hup : (new heap root st).SetUp M len = (true, h)) :
    h.np_ = 0 ∧ h.parent_ = 0 ∧ len / 2 + 2 ≤ h.cap_ := by
  unfold State.SetUp at hup
  dsimp only at hup
  have hc : (new heap root st).cap_ = 0 := rfl
  split at hup
  · rename_i h16
    rw [if_pos (by omega)] at hup
    split at hup
    · obtain rfl := (Prod.mk.inj hup).2
      exact ⟨rfl, rfl, by dsimp only; omega⟩
    · exact absurd (Prod.mk.inj hup).1 (by decide)
  · rw [if_pos (by omega)] at hup
    split at hup
    · obtain rfl := (Prod.mk.inj hup).2
      exact ⟨rfl, rfl, le_rfl⟩
    · exact absurd (Prod.mk.inj hup).1 (by decide)

/-- **A run of events** with half as many nodes as the text has bytes. -/
theorem schema_run {heap : List Cell} {root : Ptr} {st : ℕ → Slot}
    (hup : (new heap root st).SetUp M len = (true, h)) (es : List Event)
    (hes : 2 * nodesOf es ≤ len + 1) {s : State}
    (hs : (SchemaHandler M).after es (some h) = some s) :
    s.Good ∧ s.cap_ = h.cap_ ∧ s.np_ ≤ nodesOf es := by
  obtain ⟨h1, h2, h3⟩ := SetUp_new hup
  induction es using List.reverseRecOn generalizing s with
  | nil =>
    obtain rfl := Option.some.inj hs
    refine ⟨?_, rfl, h1.le⟩
    rw [State.Good, h1, h2]
    exact chained_new _
  | append_singleton es e ih =>
    rw [nodesOf_append] at hes
    rw [SAX.after_concat] at hs
    cases hst : (SchemaHandler M).after es (some h) with
    | none =>
      rw [hst, schema_none] at hs
      exact absurd hs (by simp)
    | some s₁ =>
      rw [hst] at hs
      obtain ⟨h4, h5, h6⟩ := ih (by omega) hst
      obtain ⟨h7, h8, h9⟩ := (schema_goes (M := M) e h4 fun he => by
        have : nodesOf [e] = 1 := by rw [nodesOf, List.countP_singleton, if_pos he]
        omega).2 s hs
      rw [nodesOf_append]
      exact ⟨h7, h8.trans h5, by omega⟩

end SchemaHandler

/-! ### Texts of JSON -/

theorem nodesOf_prefix {es es' : List Event} (h : es <+: es') :
    nodesOf es ≤ nodesOf es' := h.sublist.countP_le

theorem nodesOf_node {e : Event} (h : e.node = true) : nodesOf [e] = 1 := by
  rw [nodesOf, List.countP_singleton, if_pos h]

section
variable {A : Arch} {F : FloatConv} {parseFlags : ParseFlags} {M : Memory} {s : Bytes} {v : Json}

/-- `SAXHandler` on a text of JSON: it never stops the parser, and at each moment there is room for
the next node. -/
theorem SAXHandler.sized_fits (hs : JsonText s v) (rest : Bytes) {h : SAXHandler.Sized}
    (hup : SAXHandler.Sized.new.SetUp M s.length = (true, h)) :
    ∃ q, Parser.Parse (Env.logged ⟨A, F, parseFlags, SAXHandler.sized M⟩)
      (Document.allocateStringBuffer s rest) s.length (h, []) =
        some q ∧ q.err_ ≠ .kSaxTermination ∧
      ∀ es, es <+: q.sax.2.events → ((SAXHandler.sized M).after es h).np_ ≤ s.length / 2 + 2 ∧
        ((SAXHandler.sized M).after es h).cap_ = h.cap_ ∧
        ∀ e, es ++ [e] <+: q.sax.2.events → e.node = true → ((SAXHandler.sized M).after es h).np_ <
          h.cap_ := by
  obtain ⟨q, h1, h2, h3⟩ :=
    Parser.Parse_nodes (E := ⟨A, F, parseFlags, SAXHandler.sized M⟩) (Document.sentinel rest) hs h
  obtain ⟨-, hcap, -⟩ := SAXHandler.SetUp_new hup
  have hlog := Parser.Parse_after (E := ⟨A, F, parseFlags, SAXHandler.sized M⟩) h1
  have hroom : ∀ es e, es ++ [e] <+: q.sax.2.events → e.node = true →
      ((SAXHandler.sized M).after es h).np_ < h.cap_ := by
    intro es e hpre he
    have hle := nodesOf_prefix hpre
    rw [nodesOf_append, nodesOf_node he] at hle
    obtain ⟨-, -, h6⟩ := SAXHandler.sized_run hup es (by omega)
    omega
  refine ⟨q, h1, fun hc => ?_, fun es hpre => ?_⟩
  · obtain ⟨e, he, -⟩ := h3 hc
    obtain ⟨l, l', hl⟩ := List.append_of_mem he
    have hpre : Log.events l ++ [e] <+: q.sax.2.events := ⟨Log.events l', by rw [hl]; simp [Log.events]⟩
    have hle := nodesOf_prefix hpre
    rw [nodesOf_append] at hle
    obtain ⟨h4, h5, h6⟩ := SAXHandler.sized_run hup (Log.events l) (by omega)
    have hok := (SAXHandler.sized_goes (M := M) e h4 fun hn => h5 ▸ hroom _ e hpre hn).ok
    rw [← hlog.answer l e false l' hl] at hok
    exact absurd hok (by decide)
  · have hle := nodesOf_prefix hpre
    obtain ⟨-, h5, h6⟩ := SAXHandler.sized_run hup es (by omega)
    exact ⟨by omega, h5, fun e => hroom es e⟩

/-- `SchemaHandler` on a text of JSON, as far as it is defined. -/
theorem SchemaHandler.schema_fits (hs : JsonText s v) (rest : Bytes)
    {heap : List SchemaHandler.Cell} {root : SchemaHandler.Ptr}
    {st : ℕ → SchemaHandler.Slot} {h : SchemaHandler.State}
    (hup : (SchemaHandler.new heap root st).SetUp M s.length = (true, h)) :
    ∃ q, Parser.Parse (Env.logged ⟨A, F, parseFlags, SchemaHandler M⟩)
      (Document.allocateStringBuffer s rest) s.length
        (some h, []) = some q ∧ q.err_ ≠ .kSaxTermination ∧
      ∀ es, es <+: q.sax.2.events → ∀ t, (SchemaHandler M).after es (some h) = some t →
        t.np_ ≤ s.length / 2 + 2 ∧ t.cap_ = h.cap_ ∧
        ∀ e, es ++ [e] <+: q.sax.2.events → e.node = true → t.np_ < h.cap_ := by
  obtain ⟨q, h1, h2, h3⟩ := Parser.Parse_nodes (E := ⟨A, F, parseFlags, SchemaHandler M⟩)
    (Document.sentinel rest) hs (some h)
  obtain ⟨-, -, hcap⟩ := SchemaHandler.SetUp_new hup
  have hlog := Parser.Parse_after (E := ⟨A, F, parseFlags, SchemaHandler M⟩) h1
  have hroom : ∀ es e t, es ++ [e] <+: q.sax.2.events → e.node = true →
      (SchemaHandler M).after es (some h) = some t →
      t.np_ < h.cap_ := by
    intro es e t hpre he ht
    have hle := nodesOf_prefix hpre
    rw [nodesOf_append, nodesOf_node he] at hle
    obtain ⟨-, -, h6⟩ := SchemaHandler.schema_run hup es (by omega) ht
    omega
  refine ⟨q, h1, fun hc => ?_, fun es hpre t ht => ?_⟩
  · obtain ⟨e, he, hkey⟩ := h3 hc
    obtain ⟨l, l', hl⟩ := List.append_of_mem he
    have hpre : Log.events l ++ [e] <+: q.sax.2.events := ⟨Log.events l', by rw [hl]; simp [Log.events]⟩
    have hans := hlog.answer l e false l' hl
    have hle := nodesOf_prefix hpre
    rw [nodesOf_append] at hle
    cases hst : (SchemaHandler M).after (Log.events l) (some h) with
    | none =>
      rw [show (Env.mk A F parseFlags (SchemaHandler M)).H = SchemaHandler M from rfl, hst,
        SchemaHandler.schema_none] at hans
      exact absurd hans (by decide)
    | some t =>
      obtain ⟨h4, h5, h6⟩ := SchemaHandler.schema_run hup (Log.events l) (by omega) hst
      have hok := (SchemaHandler.schema_goes (M := M) e h4 fun hn => h5 ▸ hroom _ e t hpre hn hst).1
        (by rw [← Bool.not_eq_true]; exact fun hk => hkey ⟨rfl, hk⟩)
      rw [show (Env.mk A F parseFlags (SchemaHandler M)).H = SchemaHandler M from rfl, hst, hok] at hans
      exact absurd hans (by decide)
  · have hle := nodesOf_prefix hpre
    obtain ⟨-, h5, h6⟩ := SchemaHandler.schema_run hup es (by omega) ht
    exact ⟨by omega, h5, fun e hpre' he => hroom es e t hpre' he ht⟩

/-- **The node stack is large enough** for the texts of JSON: at each moment of the parse, which is
after some of its events, neither handler has more nodes than `SetUp` reserves, neither's capacity
changes and neither stops the parser. Of `SchemaHandler` that is so if and only if the ends of the
containers find what they take from the vectors. -/
theorem node_stack_fits (A : Arch) (F : FloatConv) (parseFlags : ParseFlags) (M : Memory)
    (s : Bytes) (v : Json) (hs : JsonText s v) (rest : Bytes) :
    (∀ h, SAXHandler.Sized.new.SetUp M s.length = (true, h) →
      ∃ q, Parser.Parse (Env.logged ⟨A, F, parseFlags, SAXHandler.sized M⟩)
        (Document.allocateStringBuffer s rest) s.length (h, []) =
          some q ∧ q.err_ ≠ .kSaxTermination ∧
        ∀ es, es <+: q.sax.2.events → ((SAXHandler.sized M).after es h).np_ ≤ s.length / 2 + 2 ∧
          ((SAXHandler.sized M).after es h).cap_ = h.cap_ ∧
          ∀ e, es ++ [e] <+: q.sax.2.events → e.node = true →
            ((SAXHandler.sized M).after es h).np_ < h.cap_) ∧
    ∀ heap root st h, (SchemaHandler.new heap root st).SetUp M s.length = (true, h) →
      ∃ q, Parser.Parse (Env.logged ⟨A, F, parseFlags, SchemaHandler M⟩)
        (Document.allocateStringBuffer s rest) s.length
          (some h, []) = some q ∧
        ((q.err_ ≠ .kSaxTermination ∧ ∀ es, es <+: q.sax.2.events →
          ∃ t, (SchemaHandler M).after es (some h) = some t ∧
            t.np_ ≤ s.length / 2 + 2 ∧ t.cap_ = h.cap_ ∧
            ∀ e, es ++ [e] <+: q.sax.2.events → e.node = true → t.np_ < h.cap_) ↔
          ∀ es e t, es ++ [e] <+: q.sax.2.events → (SchemaHandler M).after es (some h) = some t →
            t.Pops e) := by
  refine ⟨fun _ hup => SAXHandler.sized_fits hs rest hup, fun _ _ _ h hup => ?_⟩
  obtain ⟨q, h1, h2, h3⟩ := @SchemaHandler.schema_fits A F parseFlags M _ _ hs rest _ _ _ _ hup
  refine ⟨q, h1, fun hfit => ?_, fun hpop => ⟨h2, fun es hpre => ?_⟩⟩
  · obtain ⟨t, ht, -⟩ := hfit.2 _ List.prefix_rfl
    exact (SchemaHandler.after_isSome _).mp (by rw [ht]; rfl)
  · have hsome := (SchemaHandler.after_isSome (M := M) (h := h) es).mpr fun before e t hb =>
      hpop before e t (hb.trans hpre)
    obtain ⟨t, ht⟩ := Option.isSome_iff_exists.mp hsome
    exact ⟨t, ht, h3 es hpre t ht⟩

theorem numTok_digit {b : UInt8} (hd : is_digit b = true) (h0 : b ≠ Ch.zero) : NumTok [b] :=
  .mk (m := []) (i := [b]) (f := []) (e := []) (.inl rfl) (.pos hd h0 fun _ hx =>
    absurd hx List.not_mem_nil) .none .none

/-- Allocations that succeed. -/
abbrev plenty : Memory := ⟨fun _ => true, fun _ => true⟩

/-- The document `{"a":{"x":5}}` in memory, its root first. -/
abbrev aSchema : List SchemaHandler.Cell :=
  [.object 1 1, .scalar (.String [97]), .object 1 3, .scalar (.String [120]), .scalar (.Uint 5)]

/-- The handler of that document, set up for a text of length `len`. -/
abbrev aHandler (len : ℕ) : SchemaHandler.State :=
  ((SchemaHandler.new aSchema 0 fun _ => ⟨.scalar .Null, 0⟩).SetUp plenty len).2

/-- The parse of a text with that handler. -/
abbrev aParse (s : Bytes) : Option (Parser (Option SchemaHandler.State × Log)) :=
  Parser.Parse (Env.logged ⟨.avx2, Document.noFloats, kParseDefault,
    SchemaHandler plenty⟩) (Document.allocateStringBuffer s [])
    s.length (some (aHandler s.length), [])

/-- The text `{"a":{"x":1}}`, which has the members of the schema, and the text `[]` with
`SAXHandler`. -/
theorem node_stack_fits_member :
    (∃ q, Parser.Parse (Env.logged ⟨.avx2, Document.noFloats, kParseDefault, SAXHandler.sized plenty⟩)
      (Document.allocateStringBuffer [91, 93] []) 2 ((SAXHandler.Sized.new.SetUp plenty 2).2, []) =
        some q ∧
      q.err_ ≠ .kSaxTermination) ∧
    ∃ q, aParse [123, 34, 97, 34, 58, 123, 34, 120, 34, 58, 49, 125, 125] = some q ∧
      q.err_ ≠ .kSaxTermination ∧
      ∀ es, es <+: q.sax.2.events → ∃ t, (SchemaHandler plenty).after es (some (aHandler 13)) =
        some t ∧ t.np_ ≤ 8 := by
  have hs : JsonText [91, 93] (.arr []) := ⟨_, _, .nil _, .arrNil (.nil _), .nil _⟩
  obtain ⟨q, h1, h2, -⟩ :=
    (node_stack_fits .avx2 Document.noFloats kParseDefault plenty [91, 93] (.arr []) hs []).1 _ rfl
  refine ⟨⟨q, h1, h2⟩, ?_⟩
  have hone : Der [49, 125, 125] (.val (.num [49])) [125, 125] := .num (numTok_digit rfl (by decide))
  have hin : Der [123, 34, 120, 34, 58, 49, 125, 125] (.val (.obj [([120], .num [49])])) [125] :=
    .obj (.memLast (.nil _) (.char (by decide) (by decide) (by decide) (.quote _)) (.nil _) (.nil _)
      hone (.nil _))
  have hout : JsonText [123, 34, 97, 34, 58, 123, 34, 120, 34, 58, 49, 125,
    125] (.obj [([97], .obj [([120], .num [49])])]) :=
    ⟨_, [], .nil _,
      .obj (.memLast (.nil _) (.char (by decide) (by decide) (by decide) (.quote _)) (.nil _)
      (.nil _) hin (.nil _)), .nil _⟩
  obtain ⟨q, h3, h4⟩ :=
    (node_stack_fits .avx2 Document.noFloats kParseDefault plenty _ _ hout []).2 aSchema 0 _ _ rfl
  have hdef : ((aParse [123, 34, 97, 34, 58, 123, 34, 120, 34, 58, 49, 125, 125]).map fun q =>
      ((SchemaHandler plenty).after q.sax.2.events (some (aHandler 13))).isSome) = some true := by
        decide +kernel
  rw [show aParse _ = _ from h3] at hdef
  obtain ⟨h5, h6⟩ := h4.mpr ((SchemaHandler.after_isSome _).mp (Option.some.inj hdef))
  refine ⟨q, h3, h5, fun es hpre => ?_⟩
  obtain ⟨t, ht, hle, -⟩ := h6 es hpre
  exact ⟨t, ht, hle⟩

/-- **An empty vector is popped** on `{"a":[{"y":1},{"y":2}]}`, where the array takes the place of
the schema's `{"x":5}`: the keys in it are still looked up in that object, and each end of an object
in it is taken for its end. -/
theorem schema_pops_empty : (∃ v, JsonText [123, 34, 97, 34, 58, 91, 123, 34, 121, 34, 58, 49, 125,
    44, 123, 34, 121, 34, 58, 50, 125,
      93, 125] v) ∧
    (SchemaHandler.new aSchema 0 fun _ => ⟨.scalar .Null, 0⟩).SetUp plenty 23 = (true, aHandler 23) ∧
    ∃ q, aParse [123, 34, 97, 34, 58, 91, 123, 34, 121, 34, 58, 49, 125, 44, 123, 34, 121, 34, 58,
      50, 125, 93, 125] = some q ∧
      (SchemaHandler plenty).after q.sax.2.events (some (aHandler 23)) = none := by
  have hv : Der [50, 125, 93, 125] (.val (.num [50])) [125, 93, 125] :=
    .num (numTok_digit rfl (by decide))
  have hu : Der [49, 125, 44, 123, 34, 121, 34, 58, 50, 125, 93, 125] (.val (.num [49]))
      [125, 44, 123, 34, 121, 34, 58, 50, 125, 93, 125] := .num (numTok_digit rfl (by decide))
  have hdef : ((aParse [123, 34, 97, 34, 58, 91, 123, 34, 121, 34, 58, 49, 125, 44, 123, 34, 121,
      34, 58, 50, 125, 93, 125]).map
      fun q => ((SchemaHandler plenty).after q.sax.2.events (some (aHandler 23))).isSome) =
        some false := by decide +kernel
  obtain ⟨q, hq, hnone⟩ := Option.map_eq_some_iff.mp hdef
  refine ⟨⟨_, _, [], .nil _,
    .obj (.memLast (.nil _) (.char (by decide) (by decide) (by decide) (.quote _)) (.nil _) (.nil _)
    (.arr (.elemCons (.nil _)
    (.obj (.memLast (.nil _) (.char (by decide) (by decide) (by decide) (.quote _)) (.nil _)
    (.nil _) hu (.nil _))) (.nil _)
    (.elemLast (.nil _)
    (.obj (.memLast (.nil _) (.char (by decide) (by decide) (by decide) (.quote _)) (.nil _)
    (.nil _) hv (.nil _))) (.nil _)))) (.nil _)), .nil _⟩, rfl, q, hq, ?_⟩
  exact Option.not_isSome_iff_eq_none.mp (by rw [hnone]; decide)

end

end SonicJson
