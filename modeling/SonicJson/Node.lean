/-
# The tree and the handlers

`Node` is the tree a document holds. A handler (`SAX`) is told of a text piece by
piece; `feed` is what a handler comes to on a value, by recursion on the value,
with the number of elements and of members that were kept. `SAXHandler` builds the
tree on a flat stack, where an open container remembers the one around it by an
offset, and comes to the recursive denotation `den` (`SAXHandler.feed_eq`).
-/
import SonicJson.NumberScan

namespace SonicJson

/-- A tree as the handler builds it; the key of a member is a node too. -/
inductive Node
  | null
  | bool (b : Bool)
  | uint (v : ℕ)
  | sint (v : ℤ)
  | real (d : Double)
  | str (s : Bytes)
  | numStr (s : Bytes)
  | raw (s : Bytes)
  | arr (vs : List Node)
  | obj (ms : List (Node × Node))

/-- The node of a primitive value. -/
def Scalar.node : Scalar → Node
  | .Null => .null
  | .Bool b => .bool b
  | .Uint v => .uint v
  | .Int v => .sint v
  | .Double d => .real d
  | .String s => .str s
  | .NumStr s => .numStr s
  | .Raw s => .raw s

/-- A handler: what it answers and its next state. `check_key_return` says that a key it answers
`false` to is skipped with its value. -/
structure SAX (σ : Type*) where
  primitive : Scalar → σ → Bool × σ
  Key : Bytes → σ → Bool × σ
  StartObject : σ → Bool × σ
  StartArray : σ → Bool × σ
  EndObject : ℕ → σ → Bool × σ
  EndArray : ℕ → σ → Bool × σ
  check_key_return : Bool

/-- What a number token is to a handler: the token parsed alone. -/
def numRes (F : FloatConv) (flags : ParseFlags) (tok : Bytes) : NumRes :=
  parseNumber F flags tok tok.length 1

/-- The event of a number token, unless its magnitude overflows. -/
def numEvent (F : FloatConv) (flags : ParseFlags) (tok : Bytes) : Option Scalar :=
  if (numRes F flags tok).err = .kErrorNone then (numRes F flags tok).ev else none

section
variable {σ : Type*} (F : FloatConv) (flags : ParseFlags) (H : SAX σ)

/-- The next state where the answer is `true`. -/
def accept (r : Bool × σ) : Option σ := if r.1 then some r.2 else none

mutual

/-- What a handler comes to on a value; `none` where it stops the parser or a number overflows. -/
def feed : Json → σ → Option σ
  | .null, s => accept (H.primitive .Null s)
  | .bool b, s => accept (H.primitive (.Bool b) s)
  | .num tok, s => (numEvent F flags tok).bind fun e => accept (H.primitive e s)
  | .str b, s => accept (H.primitive (.String b) s)
  | .arr vs, s =>
    (accept (H.StartArray s)).bind fun s => (feedElems vs s).bind fun s =>
    accept (H.EndArray vs.length s)
  | .obj ms, s =>
    (accept (H.StartObject s)).bind fun s => (feedMems ms 0 s).bind fun p =>
    accept (H.EndObject p.1 p.2)

/-- The events of the elements. -/
def feedElems : List Json → σ → Option σ
  | [], s => some s
  | v :: vs, s => (feed v s).bind fun s => feedElems vs s

/-- The members, and how many of them were kept. -/
def feedMems : List (Bytes × Json) → ℕ → σ → Option (ℕ × σ)
  | [], n, s => some (n, s)
  | (k, v) :: ms, n, s =>
    if (H.Key k s).1 then (feed v (H.Key k s).2).bind fun s => feedMems ms (n + 1) s
    else if H.check_key_return then feedMems ms n (H.Key k s).2
    else none

end

end

/-! ### The denotation -/

section
variable (F : FloatConv) (flags : ParseFlags)

mutual

/-- The tree of a value; `none` where a number overflows. -/
def den : Json → Option Node
  | .null => some .null
  | .bool b => some (.bool b)
  | .num tok => (numEvent F flags tok).map Scalar.node
  | .str b => some (.str b)
  | .arr vs => (denElems vs).map .arr
  | .obj ms => (denMems ms).map .obj

/-- The nodes of the elements. -/
def denElems : List Json → Option (List Node)
  | [] => some []
  | v :: vs => (den v).bind fun n => (denElems vs).map (n :: ·)

/-- The nodes of the members. -/
def denMems : List (Bytes × Json) → Option (List (Node × Node))
  | [] => some []
  | (k, v) :: ms => (den v).bind fun n => (denMems ms).map ((.str k, n) :: ·)

end

end

/-! ### `SAXHandler` -/

/-- An entry of the node stack; `ofs` is `o.next.ofs`, used while a container is open. -/
structure Slot where
  node : Node
  ofs : ℕ

namespace SAXHandler

/-- `st_[0 .. np_)` and `parent_`. -/
structure State where
  st_ : List Slot
  parent_ : ℕ

/-- A new handler. -/
def init : State := ⟨[], 0⟩

def nodeAt (st : List Slot) (i : ℕ) : Node := (st.getD i ⟨.null, 0⟩).node

def ofsAt (st : List Slot) (i : ℕ) : ℕ := (st.getD i ⟨.null, 0⟩).ofs

/-- The `count` nodes from `i` on. -/
def children (st : List Slot) (i : ℕ) : ℕ → List Node
  | 0 => []
  | count + 1 => nodeAt st i :: children st (i + 1) count

/-- The `pairs` pairs of nodes from `i` on. -/
def pairsAt (st : List Slot) (i : ℕ) : ℕ → List (Node × Node)
  | 0 => []
  | pairs + 1 => (nodeAt st i, nodeAt st (i + 1)) :: pairsAt st (i + 2) pairs

/-- `SONIC_ADD_NODE` and the construction of the node. -/
def push (n : Node) (s : State) : Bool × State := (true, { s with st_ := s.st_ ++ [⟨n, 0⟩] })

def start (s : State) : Bool × State := (true, ⟨s.st_ ++ [⟨.null, s.parent_⟩], s.st_.length⟩)

/-- The `pairs` pairs behind the open object become its members, and leave the stack. -/
def EndObject (pairs : ℕ) (s : State) : Bool × State :=
  let old := ofsAt s.st_ s.parent_
  (true, ⟨s.st_.take s.parent_ ++ [⟨.obj (pairsAt s.st_ (s.parent_ + 1) pairs), 0⟩], old⟩)

/-- The `count` nodes behind the open array become its elements, and leave the stack. -/
def EndArray (count : ℕ) (s : State) : Bool × State :=
  let old := ofsAt s.st_ s.parent_
  (true, ⟨s.st_.take s.parent_ ++ [⟨.arr (children s.st_ (s.parent_ + 1) count), 0⟩], old⟩)

end SAXHandler

/-- The handler that builds a document. -/
def SAXHandler : SAX SAXHandler.State where
  primitive e := SAXHandler.push e.node
  Key k := SAXHandler.push (.str k)
  StartObject := SAXHandler.start
  StartArray := SAXHandler.start
  EndObject := SAXHandler.EndObject
  EndArray := SAXHandler.EndArray
  check_key_return := false

namespace SAXHandler

/-- The stack with the nodes `ns` on it. -/
def State.pushes (s : State) (ns : List Node) : State := { s with st_ := s.st_ ++ ns.map (⟨·, 0⟩) }

@[simp] theorem State.pushes_nil (s : State) : s.pushes [] = s := by simp [State.pushes]

theorem State.pushes_pushes (s : State) (ns ms : List Node) :
    (s.pushes ns).pushes ms = s.pushes (ns ++ ms) := by
  simp [State.pushes]

theorem nodeAt_append (pre : List Slot) (x : Slot) (post : List Slot) :
    nodeAt (pre ++ x :: post) pre.length = x.node := by
  simp [nodeAt]

theorem children_eq : ∀ (pre : List Slot)
    (ns : List Node), children (pre ++ ns.map (⟨·, 0⟩)) pre.length ns.length = ns
  | _, [] => rfl
  | pre, n :: ns => by
    have := children_eq (pre ++ [⟨n, 0⟩]) ns
    simp only [List.append_assoc, List.singleton_append, List.length_append,
      List.length_singleton] at this
    rw [List.length_cons, children, List.map_cons, nodeAt_append, this]

/-- Members as they lie on the stack. -/
def flat : List (Node × Node) → List Node
  | [] => []
  | (k, v) :: ms => k :: v :: flat ms

theorem pairsAt_eq : ∀ (pre : List Slot) (ms : List (Node × Node)),
    pairsAt (pre ++ (flat ms).map (⟨·, 0⟩)) pre.length ms.length = ms
  | _, [] => rfl
  | pre, (k, v) :: ms => by
    have h1 := pairsAt_eq (pre ++ [⟨k, 0⟩, ⟨v, 0⟩]) ms
    have h2 := nodeAt_append (pre ++ [⟨k, 0⟩]) ⟨v, 0⟩ ((flat ms).map (⟨·, 0⟩))
    simp only [List.append_assoc, List.cons_append, List.nil_append, List.length_append,
      List.length_cons, List.length_nil] at h1 h2
    rw [flat, List.length_cons, pairsAt, List.map_cons, List.map_cons, nodeAt_append, h1, h2]

/-- An open container, with its children on the stack, is closed to one node. -/
theorem EndArray_eq (s : State) (ns : List Node) :
    accept (EndArray ns.length ((start s).2.pushes ns)) = some (s.pushes [.arr ns]) := by
  have h1 := children_eq (s.st_ ++ [⟨.null, s.parent_⟩]) ns
  simp only [List.length_append, List.length_singleton] at h1
  have h2 : ofsAt ((s.st_ ++ [⟨.null, s.parent_⟩]) ++ ns.map (⟨·, 0⟩)) s.st_.length = s.parent_ := by
    simp [ofsAt]
  simp [accept, EndArray, start, State.pushes] at h1 h2 ⊢
  simp [h1, h2]

theorem EndObject_eq (s : State) (ms : List (Node × Node)) :
    accept (EndObject ms.length ((start s).2.pushes (flat ms))) = some (s.pushes [.obj ms]) := by
  have h1 := pairsAt_eq (s.st_ ++ [⟨.null, s.parent_⟩]) ms
  simp only [List.length_append, List.length_singleton] at h1
  have h2 : ofsAt ((s.st_ ++ [⟨.null, s.parent_⟩]) ++ (flat ms).map (⟨·, 0⟩)) s.st_.length =
      s.parent_ := by
    simp [ofsAt]
  simp [accept, EndObject, start, State.pushes] at h1 h2 ⊢
  simp [h1, h2]

/-! ### What `SAXHandler` comes to -/

section
variable (F : FloatConv) (flags : ParseFlags)

mutual

/-- **The tree of a text**: `SAXHandler` puts the denotation of the value on its stack. -/
theorem feed_eq : ∀ (v : Json) (s : State),
    feed F flags SAXHandler v s = (den F flags v).map fun n => s.pushes [n]
  | .null, s => rfl
  | .bool b, s => rfl
  | .str b, s => rfl
  | .num tok, s => by
    rw [feed, den]
    cases numEvent F flags tok <;> rfl
  | .arr vs, s => by
    rw [feed, den]
    show (feedElems F flags SAXHandler vs (start s).2).bind _ = _
    rw [feedElems_eq vs]
    cases hvs : denElems F flags vs with
    | none => rfl
    | some ns =>
      have := EndArray_eq s ns
      rw [denElems_length vs hvs] at this
      exact this
  | .obj ms, s => by
    rw [feed, den]
    show (feedMems F flags SAXHandler ms 0 (start s).2).bind _ = _
    rw [feedMems_eq ms]
    cases hms : denMems F flags ms with
    | none => rfl
    | some ns =>
      have := EndObject_eq s ns
      rw [denMems_length ms hms] at this
      simp only [Option.map_some, Option.bind_some, Nat.zero_add]
      exact this

theorem feedElems_eq : ∀ (vs : List Json) (s : State),
    feedElems F flags SAXHandler vs s = (denElems F flags vs).map s.pushes
  | [], s => by simp [feedElems, denElems]
  | v :: vs, s => by
    rw [feedElems, denElems, feed_eq v]
    cases den F flags v with
    | none => rfl
    | some n =>
      show feedElems F flags SAXHandler vs (s.pushes [n]) = _
      rw [feedElems_eq vs]
      cases denElems F flags vs with
      | none => rfl
      | some ns => exact congrArg some (State.pushes_pushes s [n] ns)

theorem feedMems_eq : ∀ (ms : List (Bytes × Json)) (n : ℕ) (s : State),
    feedMems F flags SAXHandler ms n s = (denMems F flags ms).map fun ns =>
      (n + ms.length, s.pushes (flat ns))
  | [], n, s => by simp [feedMems, denMems, flat]
  | (k, v) :: ms, n, s => by
    have hk : SAXHandler.Key k s = (true, s.pushes [.str k]) := rfl
    rw [feedMems, denMems, hk, if_pos rfl, feed_eq v]
    cases den F flags v with
    | none => rfl
    | some m =>
      show feedMems F flags SAXHandler ms (n + 1) ((s.pushes [.str k]).pushes [m]) = _
      rw [feedMems_eq ms]
      cases denMems F flags ms with
      | none => rfl
      | some ns =>
        refine congrArg some (Prod.ext ?_ ?_)
        · show n + 1 + ms.length = n + (ms.length + 1)
          omega
        · simp [State.pushes_pushes, flat]

theorem denElems_length : ∀ (vs : List Json) {ns : List Node}, denElems F flags vs = some ns →
    ns.length = vs.length
  | [], ns, h => by
    obtain rfl := Option.some.inj h
    rfl
  | v :: vs, ns, h => by
    simp only [denElems, Option.bind_eq_some_iff, Option.map_eq_some_iff] at h
    obtain ⟨n, -, ns, hns, rfl⟩ := h
    simp [denElems_length vs hns]

theorem denMems_length :
    ∀ (ms : List (Bytes × Json)) {ns : List (Node × Node)}, denMems F flags ms = some ns →
    ns.length = ms.length
  | [], ns, h => by
    obtain rfl := Option.some.inj h
    rfl
  | (k, v) :: ms, ns, h => by
    simp only [denMems, Option.bind_eq_some_iff, Option.map_eq_some_iff] at h
    obtain ⟨n, -, ns, hns, rfl⟩ := h
    simp [denMems_length ms hns]

end

end

end SAXHandler

end SonicJson
