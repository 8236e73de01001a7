/-
# The handler of a schema

`SchemaHandler` puts the values of a text into a document: an object that the document has
and that is not empty keeps its members, and those that the text has, too, are replaced. The
nodes of the document lie in memory (`Cell`), and the handler goes through them with
pointers; a value that takes the place of another one is built on the node stack, as
`SAXHandler` builds it.

Where a vector is popped that is empty, or a null pointer is written to, nothing more is
said of the handler: its state is `none` from there on.
-/
import SonicJson.Node

namespace SonicJson

/-- What the allocations give: whether `realloc` to a number of nodes succeeds, and whether a call
of the allocator does. -/
structure Memory where
  realloc : ℕ → Bool
  malloc : ℕ → Bool

namespace SchemaHandler

/-- The place of a node in memory. -/
abbrev Ptr := ℕ

/-- A node in memory. The children of an array lie one behind the other from `children` on, and
those of an object the same way, a name before its value. -/
inductive Cell
  | scalar (e : Scalar)
  | object (size : ℕ) (children : Ptr)
  | array (size : ℕ) (children : Ptr)
  deriving DecidableEq

/-- An entry of the node stack; `ofs` is `o.next.ofs`, used while a container is open. -/
structure Slot where
  cell : Cell
  ofs : ℕ

/-- The members of the handler, with the memory of the document; the vectors with their back first. -/
structure State where
  heap : List Cell
  st_ : ℕ → Slot
  np_ : ℕ
  cap_ : ℕ
  parent_ : ℕ
  parent_node_ : Option Ptr
  cur_node_ : Option Ptr
  parent_st_ : List (Option Ptr)
  found_node_count_ : ℕ
  found_count_st_ : List ℕ
  oom_ : Bool
  /-- the calls of the allocator so far -/
  calls : ℕ

/-- A handler of the document with the root `root`. -/
def new (heap : List Cell) (root : Ptr) (st : ℕ → Slot) : State where
  heap := heap
  st_ := st
  np_ := 0
  cap_ := 0
  parent_ := 0
  parent_node_ := some root
  cur_node_ := some root
  parent_st_ := List.replicate 16 none
  found_node_count_ := 0
  found_count_st_ := [16]
  oom_ := false
  calls := 0

def deref (heap : List Cell) (p : Ptr) : Cell := heap.getD p (.scalar .Null)

/-- The value of the first of the `size` members from `children` on that has the name `key`. -/
def FindMember (heap : List Cell) (key : Bytes) (children : Ptr) : ℕ → Option Ptr
  | 0 => none
  | size + 1 =>
    if deref heap children = .scalar (.String key) then some (children + 1)
      else FindMember heap key (children + 2) size

/-- The cells of `n` entries of the stack. -/
def cells (st : ℕ → Slot) (i : ℕ) : ℕ → List Cell
  | 0 => []
  | n + 1 => (st i).cell :: cells st (i + 1) n

variable (M : Memory)

namespace State

variable (s : State)

def set (p : Ptr) (c : Cell) : State := { s with heap := s.heap.set p c }

/-- The object that keys are looked up in: `parent_node_`, if it is one. -/
def object : Option (ℕ × Ptr) :=
  s.parent_node_.bind fun p => match deref s.heap p with
    | .object size children => some (size, children)
    | _ => none

/-- `parent_node_` is an object with members. -/
def merges : Bool :=
  match s.object with
  | some (size, _) => size != 0
  | none => false

/-- `SetUp`, for a text of length `len`. -/
def SetUp (len : ℕ) : Bool × State :=
  let cap := len / 2 + 2
  let cap := if cap < 16 then 16 else cap
  if s.cap_ < cap then
    if M.realloc cap then (true, { s with cap_ := cap }) else (false, s)
  else (true, s)

/-- `SONIC_ADD_NODE`, and what is made of the new entry. -/
def add (f : State → State) : Bool × State :=
  if s.np_ < s.cap_ then (true, f { s with np_ := s.np_ + 1 }) else (false, s)

/-- A node without children. -/
def push (c : Cell) : Bool × State :=
  s.add fun s => { s with st_ := Function.update s.st_ (s.np_ - 1) ⟨c, 0⟩ }

/-- An open container. -/
def start : Bool × State :=
  s.add fun s =>
    { s with st_ := Function.update s.st_ (s.np_ - 1) ⟨.scalar .Null, s.parent_⟩, parent_ := s.np_ - 1 }

/-- `SetString` of the node at `p`. -/
def SetString (p : Ptr) (str : Bytes) : State :=
  { s.set p (.scalar (.String (if M.malloc s.calls then str else []))) with calls := s.calls + 1 }

def primitive (e : Scalar) : Bool × State :=
  match s.cur_node_, e with
  | some p, .String str => (true, s.SetString M p str)
  | some p, e => (true, s.set p (.scalar e))
  | none, e => s.push (.scalar e)

def Key (k : Bytes) : Bool × State :=
  match s.object with
  | some (size, children) =>
    if size ≤ s.found_node_count_ then (false, { s with cur_node_ := none })
    else match FindMember s.heap k children size with
      | some v => (true, { s with cur_node_ := some v, found_node_count_ := s.found_node_count_ + 1 })
      | none => (false, { s with cur_node_ := none })
  | none => { s with cur_node_ := none }.push (.scalar (.String k))

def StartObject : Bool × State :=
  match s.cur_node_ with
  | some p =>
    let s := { s with
      parent_st_ := s.parent_node_ :: s.parent_st_
      parent_node_ := some p
      cur_node_ := none }
    let s := if s.merges then s
      else { s with parent_st_ := some p :: s.parent_st_, parent_node_ := none }
    (true, { s with
      found_count_st_ := s.found_node_count_ :: s.found_count_st_
      found_node_count_ := 0 })
  | none => s.start

def StartArray : Bool × State :=
  match s.cur_node_ with
  | some p =>
    { s with
      parent_st_ := s.parent_node_ :: s.parent_st_
      parent_node_ := some p
      cur_node_ := none }.start
  | none => s.start

/-- A container of `count` children with the cells `cs`, which are moved to a block of their own. -/
def build (mk : ℕ → Ptr → Cell) (count : ℕ) (cs : List Cell) : Cell × State :=
  if count = 0 then (mk 0 0, s)
  else if M.malloc s.calls then (mk count s.heap.length,
    { s with heap := s.heap ++ cs, calls := s.calls + 1 })
  else (mk 0 0, { s with oom_ := true, calls := s.calls + 1 })

/-- The open container on the stack is closed. -/
def close (mk : ℕ → Ptr → Cell) (count : ℕ) (n : ℕ) : State :=
  let i := s.parent_
  let s := { s with np_ := i + 1, parent_ := (s.st_ i).ofs }
  let (c, s) := s.build M mk count (cells s.st_ (i + 1) n)
  { s with st_ := Function.update s.st_ i ⟨c, 0⟩ }

def EndObject (pairs : ℕ) : Option State :=
  if s.object.isSome then
    match s.parent_st_, s.found_count_st_ with
    | p :: ps, n :: ns =>
      some { s with
        parent_node_ := p, parent_st_ := ps, cur_node_ := none, found_node_count_ :=
          n, found_count_st_ := ns }
    | _, _ => none
  else if s.parent_ = 0 then
    match s.parent_st_ with
    | some obj :: p :: ps =>
      let s := { s with parent_node_ := p, parent_st_ := ps, cur_node_ := none, np_ := 0, parent_ := 0 }
      let (c, s) := s.build M .object pairs (cells s.st_ 0 (pairs * 2))
      some (s.set obj c)
    | _ => none
  else some (s.close M .object pairs (pairs * 2))

def EndArray (count : ℕ) : Option State :=
  if s.parent_ = 0 then
    match s.parent_node_, s.parent_st_ with
    | some arr, p :: ps =>
      let s := { s with
        cur_node_ := some arr
        parent_node_ := p
        parent_st_ := ps
        np_ := 0
        parent_ := 0 }
      let (c, s) := s.build M .array count (cells s.st_ 1 count)
      some (s.set arr c)
    | _, _ => none
  else some (s.close M .array count count)

end State

/-- A call that answers, while the handler is defined. -/
def live (f : State → Bool × State) : Option State → Bool × Option State
  | some s => ((f s).1, some (f s).2)
  | none => (true, none)

end SchemaHandler

open SchemaHandler in
def SchemaHandler (M : Memory) : SAX (Option SchemaHandler.State) where
  primitive e := live fun s => s.primitive M e
  Key k := live fun s => s.Key k
  StartObject := live State.StartObject
  StartArray := live State.StartArray
  EndObject n s := (true, s.bind fun s => s.EndObject M n)
  EndArray n s := (true, s.bind fun s => s.EndArray M n)
  check_key_return := true

end SonicJson
