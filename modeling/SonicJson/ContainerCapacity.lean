/-
# The capacity of a container and its block

The children of an array or of an object lie behind a `MetaNode` in one block, and
the `MetaNode` says for how many elements the block was asked. The sum that is asked
for wraps (`containerMalloc`, `containerRealloc`), the capacity does not: a container
is backed after `Reserve` or `MemberReserve` exactly where the sum does not wrap
(`Reserve_backed_iff`), and over histories of calls where no sum wraps the elements
are always stored inside of the block (`run_fits`).
-/
import SonicJson.MemoryPool

namespace SonicJson

open MemoryPool

/-- The containers, by their elements: `DNode` and `MemberNode`. -/
inductive ContainerType
  | array
  | object

/-- `sizeof(MetaNode)`: a size and a pointer. -/
def SIZEOF_META_NODE : ℕ := 16

/-- `sizeof(T)`. -/
def ContainerType.sizeof : ContainerType → ℕ
  | .array => 16
  | .object => 32

/-- The block of the children: the capacity in its `MetaNode`, the size that was asked for and the
size it has. -/
structure ChildBlock where
  cap : ℕ
  asked : ℕ
  bytes : ℕ

/-- A container of a type: its length, and its block once memory is reserved. -/
structure Container (T : ContainerType) where
  len : ℕ
  children : Option ChildBlock

/-- What an allocator answers: the size of the block, or null. `Realloc` is told the old size and
the new one. -/
structure BlockAllocator where
  Malloc : ℕ → Option ℕ
  Realloc : ℕ → ℕ → Option ℕ

/-- A block has at least the size that was asked for. -/
structure BlockAllocator.Honest (alloc : BlockAllocator) : Prop where
  malloc : ∀ n b, alloc.Malloc n = some b → n ≤ b
  realloc : ∀ o n b, alloc.Realloc o n = some b → n ≤ b

namespace Container

variable {T : ContainerType}

def Size (s : Container T) : ℕ := s.len

def Capacity (s : Container T) : ℕ := s.children.elim 0 ChildBlock.cap

/-- `cap * sizeof(T) + sizeof(MetaNode)`. -/
def blockSize (T : ContainerType) (cap : ℕ) : ℕ := sz (sz (cap * T.sizeof) + SIZEOF_META_NODE)

def containerMalloc (T : ContainerType) (cap : ℕ) (alloc : BlockAllocator) : Option ChildBlock :=
  let alloc_size := blockSize T cap
  (alloc.Malloc alloc_size).map fun b => ⟨cap, alloc_size, b⟩

def containerRealloc (T : ContainerType) (old_cap new_cap : ℕ) (alloc : BlockAllocator) :
    Option ChildBlock :=
  let old_size := blockSize T old_cap
  let new_size := blockSize T new_cap
  (alloc.Realloc old_size new_size).map fun b => ⟨new_cap, new_size, b⟩

/-- `if (mem != nullptr) setChildren(mem)`. -/
def setChildren (s : Container T) (mem : Option ChildBlock) : Container T :=
  mem.elim s fun c => { s with children := some c }

/-- `reserveImpl` and `memberReserveImpl`, which differ in their elements. -/
def reserveAs (s : Container T) (new_cap : ℕ) (alloc : BlockAllocator) : Container T :=
  if s.Capacity < new_cap then s.setChildren (containerRealloc T s.Capacity new_cap alloc) else s

def reserveImpl (s : Container .array) (new_cap : ℕ) (alloc : BlockAllocator) : Container .array :=
  s.reserveAs new_cap alloc

def memberReserveImpl (s : Container .object) (new_cap : ℕ) (alloc : BlockAllocator) :
    Container .object :=
  s.reserveAs new_cap alloc

/-- `Reserve` of an array, `MemberReserve` of an object. -/
def Reserve : {T : ContainerType} → Container T → ℕ → BlockAllocator → Container T
  | .array, s, new_cap, alloc => s.reserveImpl new_cap alloc
  | .object, s, new_cap, alloc => s.memberReserveImpl new_cap alloc

/-- An element is written behind the others: there is no result where it would not lie inside of the
block. -/
def store (s : Container T) : Option (Container T) :=
  s.children.bind fun c =>
    if SIZEOF_META_NODE + s.len * T.sizeof + T.sizeof ≤ c.bytes
      then some { s with len := s.len + 1 } else none

/-- `cap + (cap + 1) / 2`. -/
def growth (cap : ℕ) : ℕ := sz (cap + sz (cap + 1) / 2)

/-- The element is not added where no memory can be had. -/
def pushBackImpl (s : Container .array) (alloc : BlockAllocator) : Option (Container .array) :=
  let cap := s.Capacity
  if cap ≤ s.Size then
    let new_cap := if cap ≠ 0 then growth cap else 16
    match containerRealloc .array cap new_cap alloc with
    | none => some s
    | some new_ptr => { s with children := some new_ptr }.store
  else s.store

/-- The member is not added where no memory can be had. -/
def addMemberImpl (s : Container .object) (alloc : BlockAllocator) : Option (Container .object) :=
  let count := s.Size
  if s.Capacity ≤ count then
    let mem :=
      if s.Capacity = 0 then containerMalloc .object 16 alloc
      else containerRealloc .object s.Capacity (growth s.Capacity) alloc
    match mem with
    | none => some s
    | some mem => { s with children := some mem }.store
  else s.store

/-- `PushBack` to an array, `AddMember` to an object. -/
def Append : {T : ContainerType} → Container T → BlockAllocator → Option (Container T)
  | .array, s, alloc => s.pushBackImpl alloc
  | .object, s, alloc => s.addMemberImpl alloc

/-- The block holds what the capacity promises. -/
def Fits (s : Container T) : Prop :=
  ∀ c, s.children = some c → SIZEOF_META_NODE + c.cap * T.sizeof ≤ c.bytes

/-- A sequence of elements, each with an allocator of its own. -/
def appends (s : Container T) : List BlockAllocator → Option (Container T)
  | [] => some s
  | alloc :: allocs => (s.Append alloc).bind fun s => s.appends allocs

/-- The block holds what the capacity promises, and while there is room elements are stored inside
of it, whatever the allocator would answer. -/
def Backed (s : Container T) : Prop :=
  s.Fits ∧ ∀ allocs : List BlockAllocator, s.Size + allocs.length ≤ s.Capacity →
    s.appends allocs = some { s with len := s.len + allocs.length }

/-! ### One call -/

theorem Reserve_eq (s : Container T) (new_cap : ℕ) (alloc : BlockAllocator) :
    s.Reserve new_cap alloc = s.reserveAs new_cap alloc := by
  cases T <;> rfl

theorem blockSize_lt (T : ContainerType) (cap : ℕ) :
    blockSize T cap < 2 ^ 64 := Nat.mod_lt _ (by norm_num)

/-- The size that is asked for is enough exactly where it does not wrap. -/
theorem blockSize_enough_iff (T : ContainerType) (cap : ℕ) :
    SIZEOF_META_NODE + cap * T.sizeof ≤ blockSize T cap ↔
      cap * T.sizeof + SIZEOF_META_NODE < 2 ^ 64 := by
  constructor
  · intro h
    have := blockSize_lt T cap
    omega
  · intro h
    have h1 : sz (cap * T.sizeof) = cap * T.sizeof := Nat.mod_eq_of_lt (by omega)
    have h2 : sz (cap * T.sizeof + SIZEOF_META_NODE) = cap * T.sizeof + SIZEOF_META_NODE :=
      Nat.mod_eq_of_lt h
    rw [blockSize, h1, h2, Nat.add_comm]

variable {s t : Container T} {alloc : BlockAllocator}

/-- There is room below the capacity. -/
theorem store_eq (hs : s.Fits) (h : s.Size < s.Capacity) :
    s.store = some { s with len := s.len + 1 } := by
  cases hc : s.children with
  | none => simp [Capacity, hc] at h
  | some c =>
    have hfit := hs c hc
    have hlt : s.len < c.cap := by simpa [Size, Capacity, hc] using h
    have hmul : (s.len + 1) * T.sizeof ≤ c.cap * T.sizeof := Nat.mul_le_mul_right _ hlt
    rw [Nat.add_mul, Nat.one_mul] at hmul
    rw [store, hc, Option.bind_some, if_pos (by omega)]

/-- Below the capacity no memory is asked for. -/
theorem Append_eq_store (h : s.Size < s.Capacity) : s.Append alloc = s.store := by
  cases T with
  | array => rw [Append, pushBackImpl, if_neg (Nat.not_le.mpr h)]
  | object => rw [Append, addMemberImpl, if_neg (Nat.not_le.mpr h)]

/-- What `Fits` gives to those that add elements. -/
theorem Fits.appends (hs : s.Fits) (allocs : List BlockAllocator)
    (h : s.Size + allocs.length ≤ s.Capacity) :
    s.appends allocs = some { s with len := s.len + allocs.length } := by
  induction allocs generalizing s with
  | nil => rfl
  | cons alloc allocs ih =>
    rw [List.length_cons] at h
    have hlt : s.Size < s.Capacity := by omega
    have hle : s.len + 1 + allocs.length ≤ s.Capacity := by
      rw [Size] at h
      omega
    have hs' : Fits { s with len := s.len + 1 } := hs
    rw [Container.appends, Append_eq_store hlt, store_eq hs hlt, Option.bind_some,
      ih hs' hle, List.length_cons, Nat.add_assoc, Nat.add_comm 1]

theorem backed_iff : s.Backed ↔ s.Fits := ⟨And.left, fun h => ⟨h, h.appends⟩⟩

theorem containerRealloc_fits {old_cap new_cap : ℕ} {c : ChildBlock} (ha : alloc.Honest)
    (h : containerRealloc T old_cap new_cap alloc = some c)
    (hn : new_cap * T.sizeof + SIZEOF_META_NODE < 2 ^ 64) :
    SIZEOF_META_NODE + c.cap * T.sizeof ≤ c.bytes := by
  obtain ⟨b, hb, rfl⟩ := Option.map_eq_some_iff.mp h
  exact ((blockSize_enough_iff T new_cap).mpr hn).trans (ha.realloc _ _ _ hb)

theorem containerMalloc_fits {cap : ℕ} {c : ChildBlock} (ha : alloc.Honest)
    (h : containerMalloc T cap alloc = some c) (hn : cap * T.sizeof + SIZEOF_META_NODE < 2 ^ 64) :
    SIZEOF_META_NODE + c.cap * T.sizeof ≤ c.bytes := by
  obtain ⟨b, hb, rfl⟩ := Option.map_eq_some_iff.mp h
  exact ((blockSize_enough_iff T cap).mpr hn).trans (ha.malloc _ _ hb)

theorem setChildren_fits {mem : Option ChildBlock} (hs : s.Fits)
    (h : ∀ c, mem = some c → SIZEOF_META_NODE + c.cap * T.sizeof ≤ c.bytes) :
    (s.setChildren mem).Fits := by
  cases mem with
  | none => exact hs
  | some c =>
    intro d hd
    obtain rfl : c = d := Option.some_inj.mp hd
    exact h c rfl

theorem reserveAs_fits (ha : alloc.Honest) (hs : s.Fits) {new_cap : ℕ}
    (hn : new_cap ≤ s.Capacity ∨ new_cap * T.sizeof + SIZEOF_META_NODE < 2 ^ 64) :
    (s.reserveAs new_cap alloc).Fits := by
  rw [reserveAs]
  split
  · rename_i hlt
    have hn := hn.resolve_left (Nat.not_le.mpr hlt)
    exact setChildren_fits hs fun c hc => containerRealloc_fits ha hc hn
  · exact hs

/-- An allocator that has no memory, and one that answers with what it is asked for. -/
def noMemory : BlockAllocator := ⟨fun _ => none, fun _ _ => none⟩

def exactly : BlockAllocator := ⟨some, fun _ n => some n⟩

theorem noMemory_honest : noMemory.Honest := ⟨fun _ _ h => (Option.some_ne_none _ h.symm).elim,
  fun _ _ _ h => (Option.some_ne_none _ h.symm).elim⟩

theorem exactly_honest : exactly.Honest := ⟨fun _ _ h => (Option.some_inj.mp h).le,
  fun _ _ _ h => (Option.some_inj.mp h).le⟩

theorem reserveAs_noMemory (s : Container T) (new_cap : ℕ) : s.reserveAs new_cap noMemory = s := by
  rw [reserveAs]
  split <;> rfl

/-- **The capacity is backed** after a call of `Reserve` or `MemberReserve`, whatever the allocator
answers, exactly where it was before and the size of the new block does not wrap. -/
theorem Reserve_backed_iff (s : Container T) (new_cap : ℕ) :
    (∀ alloc : BlockAllocator, alloc.Honest → (s.Reserve new_cap alloc).Backed) ↔
      s.Fits ∧ (new_cap ≤ s.Capacity ∨ new_cap * T.sizeof + SIZEOF_META_NODE < 2 ^ 64) := by
  simp only [Reserve_eq, backed_iff]
  constructor
  · intro h
    have hs : s.Fits := by
      have := h noMemory noMemory_honest
      rwa [reserveAs_noMemory] at this
    refine ⟨hs, ?_⟩
    by_contra hc
    rw [not_or] at hc
    have hfit := h exactly exactly_honest ⟨new_cap, blockSize T new_cap, blockSize T new_cap⟩ (by
      rw [reserveAs, if_pos (Nat.not_le.mp hc.1)]
      rfl)
    exact hc.2 ((blockSize_enough_iff T new_cap).mp hfit)
  · rintro ⟨hs, hn⟩ alloc ha
    exact reserveAs_fits ha hs hn

/-- `Reserve(2^60)` on an empty array: 16 bytes are asked for, the capacity is `2^60`, and the first
element does not lie inside of the block. -/
theorem Reserve_wraps : Fits (T := .array) ⟨0, none⟩ ∧ (2 : ℕ) ^ 60 < 2 ^ 64 ∧ exactly.Honest ∧
    Reserve (T := .array) ⟨0, none⟩ (2 ^ 60) exactly = ⟨0, some ⟨2 ^ 60, 16, 16⟩⟩ ∧
    ¬ (Reserve (T := .array) ⟨0, none⟩ (2 ^ 60) exactly).Fits ∧
    (Reserve (T := .array) ⟨0, none⟩ (2 ^ 60) exactly).Append exactly = none := by
  have h : Reserve (T := .array) ⟨0, none⟩ (2 ^ 60) exactly = ⟨0, some ⟨2 ^ 60, 16, 16⟩⟩ := rfl
  refine ⟨fun _ h => (Option.some_ne_none _ h.symm).elim, by norm_num, exactly_honest, h, ?_, ?_⟩
  · rw [h]
    intro hfit
    have := hfit _ rfl
    simp only [SIZEOF_META_NODE, ContainerType.sizeof] at this
    omega
  · rw [h, Append_eq_store (by simp [Size, Capacity]), store]
    rfl

/-! ### Histories -/

inductive Op
  | Reserve (new_cap : ℕ)
  | Append
  | PopBack
  | Clear

/-- A call with the allocator it is made with. -/
def exec (s : Container T) (alloc : BlockAllocator) : Op → Option (Container T)
  | .Reserve new_cap => some (s.Reserve new_cap alloc)
  | .Append => s.Append alloc
  | .PopBack => some { s with len := s.len - 1 }
  | .Clear => some ⟨0, none⟩

/-- A history; there is no result where an element is written outside of its block. -/
def run (s : Container T) : List (Op × BlockAllocator) → Option (Container T)
  | [] => some s
  | (op, alloc) :: ops => (s.exec alloc op).bind fun s => s.run ops

/-- The sizes of the blocks the call may ask for do not wrap. -/
def Op.Exact (s : Container T) : Op → Prop
  | .Reserve new_cap => new_cap ≤ s.Capacity ∨ new_cap * T.sizeof + SIZEOF_META_NODE < 2 ^ 64
  | .Append =>
    s.Size < s.Capacity ∨ (s.Capacity + (s.Capacity + 1) / 2) * T.sizeof + SIZEOF_META_NODE < 2 ^ 64
  | _ => True

def AllExact (s : Container T) : List (Op × BlockAllocator) → Prop
  | [] => True
  | (op, alloc) :: ops => op.Exact s ∧ alloc.Honest ∧ ∀ t, s.exec alloc op = some t → t.AllExact ops

/-- The capacity bounds the length, the block holds the capacity, and the size that was asked for
the block is the one `Realloc` will be told. -/
structure Sound (s : Container T) : Prop where
  size : s.Size ≤ s.Capacity
  fits : s.Fits
  asked : ∀ c, s.children = some c → c.asked = blockSize T c.cap

theorem growth_eq {cap : ℕ} (h : (cap + (cap + 1) / 2) * T.sizeof + SIZEOF_META_NODE < 2 ^ 64) :
    growth cap = cap + (cap + 1) / 2 := by
  have h1 : 1 ≤ T.sizeof := by cases T <;> decide
  have h2 : (cap + (cap + 1) / 2) * 1 ≤ (cap + (cap + 1) / 2) * T.sizeof := Nat.mul_le_mul_left _ h1
  have h3 : sz (cap + 1) = cap + 1 := Nat.mod_eq_of_lt (by simp only [SIZEOF_META_NODE] at h; omega)
  rw [growth, h3]
  exact Nat.mod_eq_of_lt (by simp only [SIZEOF_META_NODE] at h; omega)

/-- A block that was made for a capacity is stored in. -/
theorem store_new {c : ChildBlock} (hlt : s.Size < c.cap)
    (hfit : SIZEOF_META_NODE + c.cap * T.sizeof ≤ c.bytes) (hasked : c.asked = blockSize T c.cap) :
    ∃ t, store (T := T) ⟨s.len, some c⟩ = some t ∧ t.Sound := by
  have hs : Fits (T := T) ⟨s.len, some c⟩ := fun d hd => by
    obtain rfl : c = d := Option.some_inj.mp hd
    exact hfit
  refine ⟨_, store_eq hs hlt, hlt, hs, fun d hd => ?_⟩
  obtain rfl : c = d := Option.some_inj.mp hd
  exact hasked

theorem Append_sound (ha : alloc.Honest) (hs : s.Sound) (h : Op.Append.Exact s) :
    ∃ t, s.Append alloc = some t ∧ t.Sound := by
  rcases Nat.lt_or_ge s.Size s.Capacity with hlt | hge
  · exact ⟨_, (Append_eq_store hlt).trans (store_eq hs.fits hlt), hlt, hs.fits, hs.asked⟩
  have hn := h.resolve_left (Nat.not_lt.mpr hge)
  have hgrow := growth_eq hn
  have hsize := hs.size
  -- the two ways to grow: from nothing to 16, and by a half
  have hstart : (16 : ℕ) * T.sizeof + SIZEOF_META_NODE < 2 ^ 64 := by cases T <;> decide
  have hnew : ∀ {c : ChildBlock}, c.cap = (if s.Capacity = 0 then 16 else growth s.Capacity) →
      s.Size < c.cap := by
    intro c hc
    rw [hc]
    split <;> omega
  cases T with
  | array =>
    rw [Append, pushBackImpl, if_pos hge]
    simp only [ne_eq, ite_not]
    cases hm : containerRealloc .array s.Capacity (if s.Capacity = 0 then 16 else growth s.Capacity)
      alloc with
    | none => exact ⟨s, rfl, hs⟩
    | some c =>
      have hfit := containerRealloc_fits ha hm (by split <;> [exact hstart; exact hgrow ▸ hn])
      obtain ⟨b, -, rfl⟩ := Option.map_eq_some_iff.mp hm
      exact store_new (hnew rfl) hfit rfl
  | object =>
    rw [Append, addMemberImpl, if_pos hge]
    by_cases h0 : s.Capacity = 0
    · simp only [h0, if_true]
      rw [if_pos h0] at hnew
      cases hm : containerMalloc .object 16 alloc with
      | none => exact ⟨s, rfl, hs⟩
      | some c =>
        have hfit := containerMalloc_fits ha hm hstart
        obtain ⟨b, -, rfl⟩ := Option.map_eq_some_iff.mp hm
        exact store_new (hnew rfl) hfit rfl
    · simp only [h0, if_false]
      rw [if_neg h0] at hnew
      cases hm : containerRealloc .object s.Capacity (growth s.Capacity) alloc with
      | none => exact ⟨s, rfl, hs⟩
      | some c =>
        have hfit := containerRealloc_fits ha hm (hgrow ▸ hn)
        obtain ⟨b, -, rfl⟩ := Option.map_eq_some_iff.mp hm
        exact store_new (hnew rfl) hfit rfl

theorem Reserve_sound (ha : alloc.Honest) (hs : s.Sound) {new_cap : ℕ}
    (h : (Op.Reserve new_cap).Exact s) :
    (s.Reserve new_cap alloc).Sound := by
  have hfit := reserveAs_fits ha hs.fits h
  rw [Reserve_eq]
  rw [reserveAs] at hfit ⊢
  split
  · rename_i hlt
    rw [if_pos hlt] at hfit
    cases hm : containerRealloc T s.Capacity new_cap alloc with
    | none => exact hs
    | some c =>
      rw [hm] at hfit
      obtain ⟨b, -, rfl⟩ := Option.map_eq_some_iff.mp hm
      refine ⟨hs.size.trans hlt.le, hfit, fun d hd => ?_⟩
      obtain rfl := Option.some_inj.mp hd
      rfl
  · exact hs

/-- A call keeps the invariant. -/
theorem exec_sound (ha : alloc.Honest) (hs : s.Sound) {op : Op} (h : op.Exact s) :
    ∃ t, s.exec alloc op = some t ∧ t.Sound := by
  cases op with
  | Reserve new_cap => exact ⟨_, rfl, Reserve_sound ha hs h⟩
  | Append => exact Append_sound ha hs h
  | PopBack => exact ⟨_, rfl, (Nat.sub_le _ _).trans hs.size, hs.fits, hs.asked⟩
  | Clear =>
    exact ⟨_, rfl, le_rfl, fun _ h => (Option.some_ne_none _ h.symm).elim,
      fun _ h => (Option.some_ne_none _ h.symm).elim⟩

/-- In a history whose sizes do not wrap every element is stored inside of its block, and the
capacity is backed at the end. -/
theorem run_fits (hs : s.Sound) (ops : List (Op × BlockAllocator)) (h : s.AllExact ops) :
    ∃ t, s.run ops = some t ∧ t.Sound ∧ t.Backed := by
  induction ops generalizing s with
  | nil => exact ⟨s, rfl, hs, backed_iff.mpr hs.fits⟩
  | cons op ops ih =>
    obtain ⟨op, alloc⟩ := op
    obtain ⟨t, ht, hsound⟩ := exec_sound h.2.1 hs h.1
    obtain ⟨u, hu⟩ := ih hsound (h.2.2 t ht)
    exact ⟨u, by rw [run, ht, Option.bind_some, hu.1], hu.2⟩

end Container

end SonicJson
