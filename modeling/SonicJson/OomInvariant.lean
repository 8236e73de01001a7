/-
# The OOM invariant

Mutating operations are to leave the node unchanged on allocation failure. Here each
request of a call may be refused on its own. Where the children cannot grow the calls
keep to it. Where the copy of a key is refused `StringCopy` makes the empty string,
which is not null, so that a member without a name is added; where a node of a map is
refused `multimap` constructs it at a null pointer; and where the size of a block wraps
the block does not hold the elements. The invariant is kept exactly where none of these
happens (`kept_iff`).
-/
import SonicJson.ContainerCapacity
import SonicJson.Lib.Index

namespace SonicJson
namespace OomInvariant

open Container

/-- The children in their block, with the map of the `MetaNode`. -/
structure Children extends ChildBlock where
  map : Option (List (Bytes × ℕ))

/-- An element of an array, a member of an object. -/
abbrev Elem (α : Type*) : ContainerType → Type _
  | .array => α
  | .object => Bytes × α

/-- A container with what it contains. -/
structure DNode (T : ContainerType) (α : Type*) where
  elems : List (Elem α T)
  children : Option Children

/-- How the requests of a call are answered: the one for children, the one for the copy of a key,
the one for a map and those for the nodes of a map. -/
structure Requests where
  children : BlockAllocator
  copy : Bool
  map : Bool
  node : ℕ → Bool
  honest : children.Honest

/-- The strings that `SetString` makes. -/
inductive TypeFlag
  | kNull
  | kStringFree
  | kStringConst
  deriving DecidableEq

/-- The name of a member. -/
structure Name where
  type : TypeFlag
  text : Bytes

def Name.IsNull (n : Name) : Bool := decide (n.type = .kNull)

/-- If failed when allocating memory, the node will be set as an empty string. -/
def StringCopy (s : Bytes) (copy : Bool) : Name :=
  if copy then ⟨.kStringFree, s⟩ else ⟨.kStringConst, []⟩

namespace DNode

variable {T : ContainerType} {α : Type*}

/-- The container with the number of its elements only. -/
def container (s : DNode T α) : Container T := ⟨s.elems.length, s.children.map Children.toChildBlock⟩

def Size (s : DNode T α) : ℕ := s.elems.length

def Capacity (s : DNode T α) : ℕ := s.container.Capacity

def getMap (s : DNode T α) : Option (List (Bytes × ℕ)) := s.children.bind Children.map

def setMap (s : DNode T α) (map : Option (List (Bytes × ℕ))) : DNode T α :=
  { s with children := s.children.map fun c => { c with map := map } }

/-- An element is written behind the others: there is no result where it would not lie inside of the
block. -/
def store (s : DNode T α) (e : Elem α T) : Option (DNode T α) :=
  s.container.store.map fun _ => { s with elems := s.elems ++ [e] }

/-- The block of the children, larger: their bytes and the map are kept. -/
def setChildren (s : DNode T α) (mem : Option ChildBlock) : DNode T α :=
  mem.elim s fun c => { s with children := some ⟨c, s.getMap⟩ }

/-- `reserveImpl` and `memberReserveImpl`. -/
def reserveAs (s : DNode T α) (new_cap : ℕ) (req : Requests) : DNode T α :=
  if s.Capacity < new_cap then s.setChildren (containerRealloc T s.Capacity new_cap req.children) else s

def reserveImpl (s : DNode .array α) (new_cap : ℕ) (req : Requests) : DNode .array α :=
  s.reserveAs new_cap req

/-- The map is null when memory is first allocated: `getMap` of no children. -/
def memberReserveImpl (s : DNode .object α) (new_cap : ℕ) (req : Requests) : DNode .object α :=
  s.reserveAs new_cap req

/-- The larger block that `pushBackImpl` asks for. -/
def newElems (s : DNode .array α) (req : Requests) : Option ChildBlock :=
  let cap := s.Capacity
  let new_cap := if cap ≠ 0 then growth cap else 16
  containerRealloc .array cap new_cap req.children

/-- An element is put at the end, in a larger block where it is full. -/
def pushBackImpl (s : DNode .array α) (value : α) (req : Requests) : Option (DNode .array α) :=
  if s.Capacity ≤ s.Size then
    match s.newElems req with
    | none => some s
    | some new_ptr => (s.setChildren (some new_ptr)).store value
  else s.store value

/-- The first block, or the larger block, that `addMemberImpl` asks for. -/
def newMembers (s : DNode .object α) (req : Requests) : Option ChildBlock :=
  if s.Capacity = 0 then containerMalloc .object 16 req.children
  else containerRealloc .object s.Capacity (growth s.Capacity) req.children

/-- The member at the last position and its entry in the map, whose node is constructed where it was
allocated. -/
def addLast (s : DNode .object α) (name : Name) (value : α) (req : Requests) :
    Option (DNode .object α) :=
  (s.store (name.text, value)).bind fun t =>
    match t.getMap with
    | none => some t
    | some map => if req.node 0 then some (t.setMap (some (map ++ [(name.text, s.Size)]))) else none

/-- The name and the value, where there is memory for them. -/
def addNamed (s : DNode .object α) (key : Bytes) (value : α) (copyKey : Bool) (req : Requests) :
    Option (DNode .object α) :=
  if copyKey then
    let name := StringCopy key req.copy
    if name.IsNull then some s else s.addLast name value req
  else s.addLast ⟨.kStringConst, key⟩ value req

/-- A member is put at the end, in a larger block where it is full. -/
def addMemberImpl (s : DNode .object α) (key : Bytes) (value : α) (copyKey : Bool)
    (req : Requests) : Option (DNode .object α) :=
  if s.Capacity ≤ s.Size then
    match s.newMembers req with
    | none => some s
    | some mem => (s.setChildren (some mem)).addNamed key value copyKey req
  else s.addNamed key value copyKey req

/-- The answer, and the object; there is no result where a node of the map is constructed at a null
pointer. -/
def CreateMap (s : DNode .object α) (req : Requests) : Option (Bool × DNode .object α) :=
  let s := if s.children.isNone then s.memberReserveImpl 16 req else s
  if s.children.isNone then some (false, s)
  else if s.getMap.isSome then some (true, s)
  else if req.map = false then some (false, s)
  else if (List.range s.Size).all req.node then some (true, s.setMap (some (Index.build s.elems)))
  else none

end DNode

/-! ### Calls -/

/-- The calls. -/
inductive Op (α : Type*) : ContainerType → Type _
  | AddMember (key : Bytes) (value : α) (copyKey : Bool) : Op α .object
  | PushBack (value : α) : Op α .array
  | Reserve (new_cap : ℕ) : Op α .array
  | MemberReserve (new_cap : ℕ) : Op α .object
  | CreateMap : Op α .object

namespace DNode

variable {T : ContainerType} {α : Type*}

def exec (s : DNode T α) (req : Requests) : Op α T → Option (DNode T α)
  | .AddMember key value copyKey => s.addMemberImpl key value copyKey req
  | .PushBack value => s.pushBackImpl value req
  | .Reserve new_cap => some (s.reserveImpl new_cap req)
  | .MemberReserve new_cap => some (s.memberReserveImpl new_cap req)
  | .CreateMap => (s.CreateMap req).map Prod.snd

/-- What a node is seen to contain, where its elements lie inside of their block. -/
def observed (s : DNode T α) : Option (List (Elem α T)) :=
  if s.children.all fun c => decide (SIZEOF_META_NODE + s.elems.length * T.sizeof ≤ c.bytes)
    then some s.elems else none

end DNode

/-- What the node contains after the successful operation. -/
def Op.after {T : ContainerType} {α : Type*} : Op α T → List (Elem α T) → List (Elem α T)
  | .AddMember key value _, ms => ms ++ [(key, value)]
  | .PushBack value, vs => vs ++ [value]
  | .Reserve _, vs => vs
  | .MemberReserve _, ms => ms
  | .CreateMap, ms => ms

namespace DNode

variable {T : ContainerType} {α : Type*}

/-- **The OOM invariant** of a call: the node contains what the successful operation leaves, or what
it contained. -/
def Kept (s : DNode T α) (req : Requests) (op : Op α T) : Prop :=
  ∃ t, s.exec req op = some t ∧ (t.observed = some (op.after s.elems) ∨ t.observed = some s.elems)

/-- The capacity bounds the elements, and the block holds what the capacity promises. -/
structure Sound (s : DNode T α) : Prop where
  size : s.Size ≤ s.Capacity
  fits : s.container.Fits
  cap : ∀ c, s.children = some c → c.cap ≠ 0

/-- A block that holds `n` elements. -/
def Holds (T : ContainerType) (n : ℕ) (c : ChildBlock) : Prop :=
  SIZEOF_META_NODE + n * T.sizeof ≤ c.bytes

end DNode

open OomInvariant.DNode in
/-- The call is spared: the first request is refused, or nothing of the following goes wrong. The
new block holds the elements; the name is copied or there is nothing to copy; the nodes of the map
are allocated. -/
def Op.Spared {α : Type*} : {T : ContainerType} → DNode T α → Requests → Op α T → Prop
  | _, s, req, .AddMember key _ copyKey =>
    (s.Capacity ≤ s.Size ∧ s.newMembers req = none) ∨
      (s.Capacity ≤ s.Size → ∀ c, s.newMembers req = some c → Holds .object (s.Size + 1) c) ∧
      (copyKey = true → key = [] ∨ req.copy = true) ∧ (s.getMap.isSome → req.node 0 = true)
  | _, s, req, .PushBack _ =>
    s.Capacity ≤ s.Size → ∀ c, s.newElems req = some c → Holds .array (s.Size + 1) c
  | _, s, req, .Reserve new_cap =>
    s.Capacity < new_cap → ∀ c, containerRealloc .array s.Capacity new_cap req.children = some c →
      Holds .array s.Size c
  | _, s, req, .MemberReserve new_cap =>
    s.Capacity < new_cap → ∀ c, containerRealloc .object s.Capacity new_cap req.children = some c →
      Holds .object s.Size c
  | _, s, req, .CreateMap => s.getMap = none → req.map = true → ∀ i < s.Size, req.node i = true

namespace DNode

variable {T : ContainerType} {α : Type*} {s t : DNode T α} {req : Requests}

/-! ### One step of a call -/

theorem Capacity_eq (s : DNode T α) : s.Capacity = s.children.elim 0 fun c => c.cap := by
  cases h : s.children <;> simp [Capacity, container, Container.Capacity, h]

/-- The elements lie inside of their block. -/
def Fitting (s : DNode T α) (n : ℕ) : Prop := ∀ c, s.children = some c → Holds T n c.toChildBlock

theorem observed_eq_some {es : List (Elem α T)} :
    s.observed = some es ↔ s.Fitting s.Size ∧ s.elems = es := by
  have hall : (s.children.all fun c => decide (SIZEOF_META_NODE + s.elems.length * T.sizeof ≤
      c.bytes)) = true ↔
      s.Fitting s.Size := by
    cases h : s.children <;> simp [Fitting, Holds, Size, h]
  rw [observed]
  split
  · rename_i h
    rw [Option.some_inj]
    exact ⟨fun he => ⟨hall.mp h, he⟩, And.right⟩
  · rename_i h
    exact ⟨fun he => absurd he (by simp), fun he => absurd (hall.mpr he.1) h⟩

/-- An element is stored exactly where the block holds one more. -/
theorem store_eq_some {e : Elem α T} :
    s.store e = some t ↔ (s.children.isSome ∧ s.Fitting (s.Size + 1)) ∧
      t = { s with elems := s.elems ++ [e] } := by
  cases h : s.children with
  | none => simp [store, container, Container.store, h]
  | some c =>
    simp only [store, container, Container.store, h, Option.map_some, Option.bind_some,
      Option.isSome_some, Fitting, Option.some.injEq, forall_eq', Holds, Size, Nat.add_mul,
      Nat.one_mul, ← Nat.add_assoc, true_and]
    split
    · rename_i hc
      simp [hc, eq_comm]
    · rename_i hc
      simp [hc]

theorem Sound.fitting (hs : s.Sound) {n : ℕ} (hn : n ≤ s.Capacity) : s.Fitting n := by
  intro c hc
  have h1 := hs.fits c.toChildBlock (by rw [container, hc]; rfl)
  rw [Capacity_eq, hc] at hn
  exact (Nat.add_le_add_left (Nat.mul_le_mul_right _ hn) _).trans h1

theorem Sound.observed (hs : s.Sound) :
    s.observed = some s.elems := observed_eq_some.mpr ⟨hs.fitting hs.size, rfl⟩

theorem getMap_setChildren (s : DNode T α) (c : ChildBlock) :
    (s.setChildren (some c)).getMap = s.getMap := rfl

theorem fitting_setChildren (s : DNode T α) (c : ChildBlock) (n : ℕ) :
    (s.setChildren (some c)).Fitting n ↔ Holds T n c :=
  ⟨fun h => h _ rfl, fun h d hd => by
    obtain rfl := Option.some_inj.mp hd
    exact h⟩

theorem fitting_setMap (s : DNode T α) (map : Option (List (Bytes × ℕ))) (n : ℕ) :
    (s.setMap map).Fitting n ↔ s.Fitting n := by
  cases h : s.children <;> simp [Fitting, setMap, h]

/-- The elements of a call that stores one. -/
theorem after_ne (es : List (Elem α T)) (e : Elem α T) : es ≠ es ++ [e] := by simp

/-- What a stored element leaves. -/
theorem observed_store {e : Elem α T} (h : s.Fitting (s.Size + 1)) (map : Option (List (Bytes × ℕ))) :
    ({ s with elems := s.elems ++ [e] } : DNode T α).observed = some (s.elems ++ [e]) ∧
      (({ s with elems := s.elems ++ [e] } : DNode T α).setMap map).observed =
        some (s.elems ++ [e]) := by
  have hsize : (s.elems ++ [e]).length = s.Size + 1 := by
    rw [List.length_append, List.length_singleton, Size]
  refine ⟨observed_eq_some.mpr ⟨?_, rfl⟩, observed_eq_some.mpr ⟨(fitting_setMap _ _ _).mpr ?_, rfl⟩⟩ <;>
  · rw [← hsize] at h
    exact h

/-- The last member is added exactly where there is room and the node of the map is allocated. -/
theorem addLast_eq_some {s t : DNode .object α} {name : Name} {value : α} :
    s.addLast name value req = some t ↔
      (s.children.isSome ∧ s.Fitting (s.Size + 1)) ∧ (s.getMap.isSome → req.node 0 = true) ∧
        t = (s.getMap.elim { s with elems := s.elems ++ [(name.text, value)] } fun map =>
          ({ s with elems := s.elems ++ [(name.text, value)] } : DNode .object α).setMap
            (some (map ++ [(name.text, s.Size)]))) := by
  rw [addLast, Option.bind_eq_some_iff]
  constructor
  · rintro ⟨u, hu, ht⟩
    obtain ⟨hroom, rfl⟩ := store_eq_some.mp hu
    refine ⟨hroom, ?_⟩
    cases hmap : s.getMap with
    | none =>
      rw [show getMap { s with elems := s.elems ++ [(name.text, value)] } = s.getMap from rfl,
        hmap] at ht
      exact ⟨fun h => absurd h (by simp), (Option.some_inj.mp ht).symm⟩
    | some map =>
      rw [show getMap { s with elems := s.elems ++ [(name.text, value)] } = s.getMap from rfl,
        hmap] at ht
      dsimp only at ht
      split at ht
      · rename_i hn
        exact ⟨fun _ => hn, (Option.some_inj.mp ht).symm⟩
      · exact absurd ht (by simp)
  · rintro ⟨hroom, hn, rfl⟩
    refine ⟨_, store_eq_some.mpr ⟨hroom, rfl⟩, ?_⟩
    rw [show getMap { s with elems := s.elems ++ [(name.text, value)] } = s.getMap from rfl]
    cases hmap : s.getMap with
    | none => rfl
    | some map =>
      dsimp only
      rw [if_pos (hn (by rw [hmap]; rfl))]
      rfl

/-- What is seen of an object with one member more. -/
theorem addLast_observed {s t : DNode .object α} {name : Name} {value : α}
    (h : s.addLast name value req = some t) :
    t.observed = some (s.elems ++ [(name.text, value)]) := by
  obtain ⟨⟨-, hroom⟩, -, rfl⟩ := addLast_eq_some.mp h
  cases s.getMap with
  | none => exact (observed_store hroom none).1
  | some map => exact (observed_store hroom _).2

theorem StringCopy_text {key : Bytes} {copy : Bool} :
    (StringCopy key copy).text = key ↔ key = [] ∨ copy = true := by
  cases copy <;> simp [StringCopy, eq_comm]

theorem StringCopy_IsNull (key : Bytes) (copy : Bool) :
    (StringCopy key copy).IsNull = false := by cases copy <;> rfl

/-- The name of the member that is added. -/
def nameFor (key : Bytes) (copyKey : Bool) (req : Requests) : Name :=
  if copyKey then StringCopy key req.copy else ⟨.kStringConst, key⟩

theorem addNamed_eq (s : DNode .object α) (key : Bytes) (value : α) (copyKey : Bool) :
    s.addNamed key value copyKey req = s.addLast (nameFor key copyKey req) value req := by
  cases copyKey with
  | false => rfl
  | true =>
    rw [addNamed, if_pos rfl]
    dsimp only
    rw [StringCopy_IsNull, if_neg (by decide)]
    rfl

theorem nameFor_text {key : Bytes} {copyKey : Bool} :
    (nameFor key copyKey req).text = key ↔ (copyKey = true → key = [] ∨ req.copy = true) := by
  cases copyKey with
  | false => simp [nameFor]
  | true => simp [nameFor, StringCopy_text]

/-- A member with room for it is added as it is to be, or not at all. -/
theorem addNamed_kept {s : DNode .object α} {key : Bytes} {value : α} {copyKey : Bool}
    (hc : s.children.isSome) :
    (∃ t, s.addNamed key value copyKey req = some t ∧
        (t.observed = some (s.elems ++ [(key, value)]) ∨ t.observed = some s.elems)) ↔
      s.Fitting (s.Size + 1) ∧ (copyKey = true → key = [] ∨ req.copy = true) ∧
        (s.getMap.isSome → req.node 0 = true) := by
  rw [addNamed_eq, ← nameFor_text]
  constructor
  · rintro ⟨t, ht, hobs⟩
    obtain ⟨⟨-, hroom⟩, hn, -⟩ := addLast_eq_some.mp ht
    refine ⟨hroom, ?_, hn⟩
    rw [addLast_observed ht] at hobs
    rcases hobs with h | h
    · have := List.append_cancel_left (Option.some_inj.mp h)
      exact (Prod.mk.inj (List.cons.inj this).1).1
    · exact absurd (Option.some_inj.mp h).symm (after_ne _ _)
  · rintro ⟨hroom, hname, hn⟩
    have ht := (@addLast_eq_some _ req s _ (nameFor key copyKey req) value).mpr ⟨⟨hc, hroom⟩, hn, rfl⟩
    refine ⟨_, ht, .inl ?_⟩
    rw [addLast_observed ht, hname]

/-! ### The calls -/

theorem AddMember_kept_iff {s : DNode .object α} (hs : s.Sound) (key : Bytes) (value : α)
    (copyKey : Bool) :
    s.Kept req (.AddMember key value copyKey) ↔ (Op.AddMember key value copyKey).Spared s req := by
  rw [Kept, exec, Op.after, Op.Spared, addMemberImpl]
  by_cases hfull : s.Capacity ≤ s.Size
  · rw [if_pos hfull]
    cases hm : s.newMembers req with
    | none => exact iff_of_true ⟨s, rfl, .inr hs.observed⟩ (.inl ⟨hfull, rfl⟩)
    | some c =>
      have := @addNamed_kept _ req (s.setChildren (some c)) key value copyKey rfl
      rw [fitting_setChildren, getMap_setChildren] at this
      refine this.trans ⟨fun ⟨h1, h2⟩ => .inr ⟨fun _ d hd => ?_, h2⟩, fun h => ?_⟩
      · obtain rfl := Option.some_inj.mp hd
        exact h1
      · obtain ⟨h1, h2⟩ := h.resolve_left fun h => absurd h.2 (by simp)
        exact ⟨h1 hfull c rfl, h2⟩
  · rw [if_neg hfull]
    have hlt := Nat.not_le.mp hfull
    have hc : s.children.isSome := by
      cases h : s.children with
      | none =>
        rw [Capacity_eq, h] at hlt
        exact absurd hlt (Nat.not_lt_zero _)
      | some c => rfl
    refine (addNamed_kept hc).trans ⟨fun h => .inr ⟨fun h' => absurd h' hfull, h.2⟩, fun h => ?_⟩
    exact ⟨hs.fitting hlt, (h.resolve_left fun h => hfull h.1).2⟩

/-- An element with room for it is added. -/
theorem store_kept {s : DNode T α} {e : Elem α T} (hc : s.children.isSome) :
    (∃ t, s.store e = some t ∧ (t.observed = some (s.elems ++ [e]) ∨ t.observed = some s.elems)) ↔
    s.Fitting (s.Size + 1) :=
  ⟨fun ⟨_, ht, _⟩ => (store_eq_some.mp ht).1.2, fun h => ⟨_, store_eq_some.mpr ⟨⟨hc, h⟩, rfl⟩,
    .inl (observed_store h none).1⟩⟩

theorem PushBack_kept_iff {s : DNode .array α} (hs : s.Sound) (value : α) :
    s.Kept req (.PushBack value) ↔ (Op.PushBack value).Spared s req := by
  rw [Kept, exec, Op.after, Op.Spared, pushBackImpl]
  by_cases hfull : s.Capacity ≤ s.Size
  · rw [if_pos hfull]
    cases hm : s.newElems req with
    | none => exact iff_of_true ⟨s, rfl, .inr hs.observed⟩ fun _ c hc => absurd hc (by simp)
    | some c =>
      refine (@store_kept _ _ (s.setChildren (some c)) value rfl).trans ?_
      rw [fitting_setChildren]
      exact ⟨fun h _ d hd => (Option.some_inj.mp hd) ▸ h, fun h => h hfull c rfl⟩
  · rw [if_neg hfull]
    have hlt := Nat.not_le.mp hfull
    have hc : s.children.isSome := by
      cases h : s.children with
      | none =>
        rw [Capacity_eq, h] at hlt
        exact absurd hlt (Nat.not_lt_zero _)
      | some c => rfl
    exact (store_kept hc).trans (iff_of_true (hs.fitting hlt) fun h => absurd h hfull)

/-- `Reserve` and `MemberReserve`: the elements are kept where the new block holds them. -/
theorem reserveAs_observed (hs : s.Sound) (new_cap : ℕ) :
    (s.reserveAs new_cap req).observed = some s.elems ↔
      (s.Capacity < new_cap → ∀ c, containerRealloc T s.Capacity new_cap req.children = some c →
        Holds T s.Size c) := by
  rw [reserveAs]
  split
  · rename_i hlt
    cases hm : containerRealloc T s.Capacity new_cap req.children with
    | none => exact iff_of_true hs.observed fun _ c hc => absurd hc (by simp)
    | some c =>
      rw [observed_eq_some, fitting_setChildren]
      exact ⟨fun h _ d hd => (Option.some_inj.mp hd) ▸ h.1, fun h => ⟨h hlt c rfl, rfl⟩⟩
  · rename_i hlt
    exact iff_of_true hs.observed fun h => absurd h hlt

/-- An object without children has none after `MemberReserve` either, or a block with room. -/
theorem Sound.reserve_first {s : DNode .object α} (hs : s.Sound) (hc : s.children = none) :
    (s.memberReserveImpl 16 req).observed = some s.elems := by
  have hcap : s.Capacity = 0 := by rw [Capacity_eq, hc]; rfl
  have hsize : s.Size = 0 := Nat.le_zero.mp (hcap ▸ hs.size)
  refine (reserveAs_observed hs 16).mpr fun _ c hm => ?_
  have hfit := containerRealloc_fits req.honest hm (by decide)
  obtain ⟨b, -, rfl⟩ := Option.map_eq_some_iff.mp hm
  rw [Holds, hsize]
  exact (Nat.add_le_add_left (Nat.mul_le_mul_right _ (Nat.zero_le 16)) _).trans hfit

theorem getMap_reserveAs (s : DNode T α) (new_cap : ℕ) :
    (s.reserveAs new_cap req).getMap = s.getMap := by
  rw [reserveAs]
  split
  · cases containerRealloc T s.Capacity new_cap req.children <;> rfl
  · rfl

/-- `CreateMap` behind the memory for an object without children. -/
theorem CreateMap_cases (s u : DNode .object α)
    (hu : u = if s.children.isNone then s.memberReserveImpl 16 req else s) :
    s.exec req .CreateMap =
      if u.children.isNone ∨ u.getMap.isSome ∨ req.map = false then some u
      else if (List.range u.Size).all req.node then some (u.setMap (some (Index.build u.elems)))
        else none := by
  subst hu
  simp only [exec, CreateMap]
  generalize (if s.children.isNone then s.memberReserveImpl 16 req else s) = u
  by_cases h1 : u.children.isNone
  · rw [if_pos h1, if_pos (.inl h1)]
    rfl
  by_cases h2 : u.getMap.isSome
  · rw [if_neg h1, if_pos h2, if_pos (.inr (.inl h2))]
    rfl
  by_cases h3 : req.map = false
  · rw [if_neg h1, if_neg h2, if_pos h3, if_pos (.inr (.inr h3))]
    rfl
  have hlate : ¬(u.children.isNone = true ∨ u.getMap.isSome = true ∨ req.map = false) := by
    rw [not_or, not_or]
    exact ⟨h1, h2, h3⟩
  rw [if_neg h1, if_neg h2, if_neg h3, if_neg hlate]
  split <;> rfl

theorem CreateMap_kept_iff {s : DNode .object α} (hs : s.Sound) :
    s.Kept req .CreateMap ↔ (Op.CreateMap (α := α)).Spared s req := by
  obtain ⟨u, hu⟩ : ∃ u, u = if s.children.isNone then s.memberReserveImpl 16 req else s := ⟨_, rfl⟩
  -- the first memory changes neither what is seen nor the map
  obtain ⟨hobs, hmap, hnone⟩ : u.observed = some s.elems ∧ u.getMap = s.getMap ∧
      (s.children = none → s.Size = 0) := by
    have hnone : s.children = none → s.Size = 0 := fun hc => by
      have := hs.size
      rw [Capacity_eq, hc] at this
      exact Nat.le_zero.mp this
    rw [hu]
    split
    · rename_i hc
      exact ⟨hs.reserve_first (Option.isNone_iff_eq_none.mp hc), getMap_reserveAs s 16, hnone⟩
    · exact ⟨hs.observed, rfl, hnone⟩
  obtain ⟨hfit, helems⟩ := observed_eq_some.mp hobs
  have hsize : u.Size = s.Size := congrArg List.length helems
  rw [Kept, Op.after, Op.Spared, CreateMap_cases s u hu]
  simp only [or_self]
  by_cases hearly : u.children.isNone ∨ u.getMap.isSome ∨ req.map = false
  · rw [if_pos hearly]
    refine iff_of_true ⟨u, rfl, hobs⟩ fun h1 h2 i hi => ?_
    rcases hearly with h | h | h
    · have hc : s.children = none := by
        rw [hu] at h
        split at h
        · rename_i hc
          exact Option.isNone_iff_eq_none.mp hc
        · exact Option.isNone_iff_eq_none.mp h
      exact absurd (hnone hc ▸ hi) (Nat.not_lt_zero i)
    · rw [hmap, h1] at h
      exact absurd h (by decide)
    · rw [h2] at h
      exact absurd h (by decide)
  · rw [if_neg hearly]
    obtain ⟨-, h2, h3⟩ : ¬u.children.isNone ∧ ¬u.getMap.isSome ∧ ¬req.map = false := by
      rw [not_or, not_or] at hearly
      exact hearly
    rw [hmap, Option.not_isSome_iff_eq_none] at h2
    rw [Bool.not_eq_false] at h3
    have hall : (List.range u.Size).all req.node = true ↔ ∀ i < s.Size, req.node i = true := by
      rw [List.all_eq_true, hsize]
      simp only [List.mem_range]
    split
    · rename_i hn
      refine iff_of_true ⟨_, rfl, observed_eq_some.mpr ⟨(fitting_setMap _ _ _).mpr hfit, helems⟩⟩
        fun _ _ => hall.mp hn
    · rename_i hn
      refine iff_of_false (fun ⟨_, h, _⟩ => absurd h (by simp)) fun h => hn (hall.mpr (h h2 h3))

/-- One case for each operation. -/
theorem exec_kept_iff (hs : s.Sound) (req : Requests) (op : Op α T) :
    s.Kept req op ↔ op.Spared s req := by
  cases op with
  | AddMember key value copyKey => exact AddMember_kept_iff hs key value copyKey
  | PushBack value => exact PushBack_kept_iff hs value
  | Reserve new_cap =>
    rw [Op.Spared, ← reserveAs_observed hs]
    constructor
    · rintro ⟨_, ht, h⟩
      obtain rfl := Option.some_inj.mp ht
      exact h.elim id id
    · exact fun h => ⟨_, rfl, .inr h⟩
  | MemberReserve new_cap =>
    rw [Op.Spared, ← reserveAs_observed hs]
    constructor
    · rintro ⟨_, ht, h⟩
      obtain rfl := Option.some_inj.mp ht
      exact h.elim id id
    · exact fun h => ⟨_, rfl, .inr h⟩
  | CreateMap => exact CreateMap_kept_iff hs

/-- **Where the OOM invariant holds**: whatever requests are refused, a call leaves what it left
where they were granted, or what there was before, exactly where it is spared. -/
theorem kept_iff (hs : s.Sound) (req : Requests) (op : Op α T) :
    s.Kept req op ↔ op.Spared s req := exec_kept_iff hs req op

/-! ### Requests that are granted -/

/-- Sizes that do not wrap are enough. -/
theorem newElems_holds {s : DNode .array α} (hs : s.Sound) (hfull : s.Capacity ≤ s.Size)
    (hw : (s.Capacity + (s.Capacity + 1) / 2) * 16 + SIZEOF_META_NODE < 2 ^ 64) {c : ChildBlock}
    (hc : s.newElems req = some c) :
    Holds .array (s.Size + 1) c := by
  have hgrow : growth s.Capacity = s.Capacity + (s.Capacity + 1) / 2 := growth_eq (T := .array) hw
  have hsize := hs.size
  have hfit := containerRealloc_fits req.honest hc (by
    split
    · exact hgrow ▸ hw
    · decide)
  obtain ⟨b, -, rfl⟩ := Option.map_eq_some_iff.mp hc
  refine (Nat.add_le_add_left (Nat.mul_le_mul_right _ ?_) _).trans hfit
  show s.Size + 1 ≤ if s.Capacity ≠ 0 then growth s.Capacity else 16
  split <;> omega

theorem newMembers_holds {s : DNode .object α} (hs : s.Sound) (hfull : s.Capacity ≤ s.Size)
    (hw : (s.Capacity + (s.Capacity + 1) / 2) * 32 + SIZEOF_META_NODE < 2 ^ 64) {c : ChildBlock}
    (hc : s.newMembers req = some c) :
    Holds .object (s.Size + 1) c := by
  have hgrow : growth s.Capacity = s.Capacity + (s.Capacity + 1) / 2 := growth_eq (T := .object) hw
  have hsize := hs.size
  rw [newMembers] at hc
  split at hc
  · have hfit := containerMalloc_fits req.honest hc (by decide)
    obtain ⟨b, -, rfl⟩ := Option.map_eq_some_iff.mp hc
    exact (Nat.add_le_add_left (Nat.mul_le_mul_right _ (show s.Size + 1 ≤ 16 by omega)) _).trans hfit
  · have hfit := containerRealloc_fits req.honest hc (hgrow ▸ hw)
    obtain ⟨b, -, rfl⟩ := Option.map_eq_some_iff.mp hc
    exact (Nat.add_le_add_left (Nat.mul_le_mul_right _ (show s.Size + 1 ≤
      growth s.Capacity by omega)) _).trans hfit

end DNode

/-- Each request is granted. -/
structure Requests.Granted (req : Requests) : Prop where
  malloc : ∀ n, (req.children.Malloc n).isSome
  realloc : ∀ o n, (req.children.Realloc o n).isSome
  copy : req.copy = true
  map : req.map = true
  node : ∀ i, req.node i = true

namespace DNode

variable {T : ContainerType} {α : Type*} {s t : DNode T α} {req : Requests}

/-- The successful operation leaves what it is to leave. -/
theorem exec_granted (hs : s.Sound) (hreq : req.Granted) (op : Op α T) (hop : op.Spared s req) :
    ∃ t, s.exec req op = some t ∧ t.observed = some (op.after s.elems) := by
  obtain ⟨t, ht, hobs | hobs⟩ := (exec_kept_iff hs req op).mpr hop
  · exact ⟨t, ht, hobs⟩
  refine ⟨t, ht, ?_⟩
  cases op with
  | AddMember key value copyKey =>
    have hname : (nameFor key copyKey req).text = key := nameFor_text.mpr fun _ => .inr hreq.copy
    rw [exec, addMemberImpl] at ht
    split at ht
    · cases hm : s.newMembers req with
      | none =>
        have h1 := hreq.malloc (blockSize .object 16)
        have h2 := hreq.realloc (blockSize .object s.Capacity) (blockSize .object (growth s.Capacity))
        rw [Option.isSome_iff_ne_none] at h1 h2
        rw [newMembers] at hm
        split at hm
        · exact absurd (Option.map_eq_none_iff.mp hm) h1
        · exact absurd (Option.map_eq_none_iff.mp hm) h2
      | some c =>
        rw [hm] at ht
        dsimp only at ht
        rw [addNamed_eq] at ht
        rw [addLast_observed ht, hname]
        rfl
    · rw [addNamed_eq] at ht
      rw [addLast_observed ht, hname]
      rfl
  | PushBack value =>
    rw [exec, pushBackImpl] at ht
    split at ht
    · cases hm : s.newElems req with
      | none =>
        have h1 := hreq.realloc (blockSize .array s.Capacity)
          (blockSize .array (if s.Capacity ≠ 0 then growth s.Capacity else 16))
        rw [Option.isSome_iff_ne_none] at h1
        exact absurd (Option.map_eq_none_iff.mp hm) h1
      | some c =>
        rw [hm] at ht
        obtain ⟨⟨-, hroom⟩, rfl⟩ := store_eq_some.mp ht
        exact (observed_store hroom none).1
    · obtain ⟨⟨-, hroom⟩, rfl⟩ := store_eq_some.mp ht
      exact (observed_store hroom none).1
  | Reserve new_cap => exact hobs
  | MemberReserve new_cap => exact hobs
  | CreateMap => exact hobs

/-! ### Where it does not hold -/

/-- An object with room for 16 members. -/
def roomy : DNode .object ℕ := ⟨[], some ⟨⟨16, 528, 528⟩, none⟩⟩

/-- The copy of the key is refused. -/
def noCopy : Requests := ⟨exactly, false, true, fun _ => true, exactly_honest⟩

theorem roomy_sound : roomy.Sound where
  size := by decide
  fits c hc := by
    obtain rfl := Option.some_inj.mp hc
    decide
  cap c hc := by
    obtain rfl := Option.some_inj.mp hc
    decide

/-- `AddMember("k", 1, alloc)` without memory for the name: the object has a member with the empty
name. -/
theorem AddMember_no_copy :
    roomy.exec noCopy (.AddMember [107] 1 true) = some { roomy with elems := [([], 1)] } ∧
    ¬ (∀ (T : ContainerType) (s : DNode T ℕ), s.Sound → ∀ req op, s.Kept req op) := by
  have h : roomy.exec noCopy (.AddMember [107] 1 true) = some { roomy with elems := [([], 1)] } := rfl
  refine ⟨h, fun hall => ?_⟩
  obtain ⟨t, ht, hobs⟩ := hall .object roomy roomy_sound noCopy (.AddMember [107] 1 true)
  obtain rfl := Option.some_inj.mp (h.symm.trans ht)
  exact absurd hobs (by decide)

/-- The condition where it fails, and the same call without a copy. -/
theorem kept_iff_roomy : ¬ roomy.Kept noCopy (.AddMember [107] 1 true) ∧
    roomy.Kept noCopy (.AddMember [107] 1 false) := by
  constructor
  · refine fun h => ?_
    rcases (kept_iff roomy_sound noCopy (.AddMember [107] 1 true)).mp h with h | h
    · exact absurd h.1 (by decide)
    · exact absurd (h.2.1 rfl) (by decide)
  · exact (kept_iff roomy_sound noCopy (.AddMember [107] 1 false)).mpr
      (.inr ⟨fun h => absurd h (by decide), fun h => absurd h (by decide),
        fun h => absurd h (by decide)⟩)

end DNode
end OomInvariant
end SonicJson
