/-
# Deep copies

Nodes with the memory behind them: the block of the children with what its `MetaNode`
says, and the buffers of the strings. `destroy` frees what a node owns (`destroy_eq`), the
copying constructor reads a tree and stores what it copies in new blocks (`copy_spec`).
`CopyFrom` destroys its target before it reads its source, so it is a copy exactly where
the source lies outside of what is destroyed (`CopyFrom_faithful_iff`).
-/
import SonicJson.Lib.Blocks
import SonicJson.Serialize

namespace SonicJson

open Blocks

namespace NodeCopy

/-- The types of a string: in the buffer of the document, in a buffer of its own, anywhere else. -/
inductive StringType
  | kStringCopy
  | kStringFree
  | kStringConst
deriving DecidableEq

/-- A string, and the block where it stands. -/
structure Buffer where
  block : ℕ
  bytes : Bytes

/-- The head of the block of the children. The map is held in blocks of its own. -/
structure MetaNode where
  block : ℕ
  cap : ℕ
  map : Option (List ℕ)

/-- The children of an object are its names and values by turns. The flag of `numStr` and `raw` is
`kOwnedStringMask`. -/
inductive DNode
  | null
  | bool (b : Bool)
  | uint (v : ℕ)
  | sint (v : ℤ)
  | real (d : Double)
  | str (t : StringType) (sv : Buffer)
  | numStr (owned : Bool) (sv : Buffer)
  | raw (owned : Bool) (sv : Buffer)
  | arr (mem : Option MetaNode) (ns : List DNode)
  | obj (mem : Option MetaNode) (ns : List DNode)

/-- `kNeedFree` of the type, and where the memory comes from. -/
structure Allocator extends Source where
  kNeedFree : Bool

namespace DNode

/-- The children as they stand in memory. -/
def children : DNode → List DNode
  | arr _ ns | obj _ ns => ns
  | _ => []

/-- What lies before the children. -/
def metaNode : DNode → Option MetaNode
  | arr mem _ | obj mem _ => mem
  | _ => none

/-- The elements of an array, the members of an object. -/
def Size : DNode → ℕ
  | arr _ ns => ns.length
  | obj _ ns => ns.length / 2
  | _ => 0

/-- How many children there is memory for. -/
def Capacity (n : DNode) : ℕ := n.metaNode.elim 0 MetaNode.cap

/-- The buffer of a string, a string number or a raw text. -/
def sv : DNode → Option Buffer
  | str _ s | numStr _ s | raw _ s => some s
  | _ => none

/-- The buffer is freed with the node. -/
def ownsBuffer : DNode → Bool
  | str t _ => t = .kStringFree
  | numStr owned _ | raw owned _ => owned
  | _ => false

/-- The blocks that the node itself owns, in the order in which they are freed. An array has no map. -/
def own : DNode → List ℕ
  | obj (some m) _ => m.map.getD [] ++ [m.block]
  | arr (some m) _ => [m.block]
  | n => if n.ownsBuffer then n.sv.toList.map Buffer.block else []

mutual

/-- The nodes of a tree, the children before their parent. -/
def subs : DNode → List DNode
  | arr mem ns => subsAll ns ++ [arr mem ns]
  | obj mem ns => subsAll ns ++ [obj mem ns]
  | null => [null]
  | bool b => [bool b]
  | uint v => [uint v]
  | sint v => [sint v]
  | real d => [real d]
  | str t s => [str t s]
  | numStr o s => [numStr o s]
  | raw o s => [raw o s]

/-- All nodes below a list of nodes, these included. -/
def subsAll : List DNode → List DNode
  | [] => []
  | n :: ns => subs n ++ subsAll ns

end

/-- The blocks of a tree. -/
def blocks (n : DNode) : List ℕ := n.subs.flatMap own

/-- The blocks of a list of nodes. -/
def blocksAll (ns : List DNode) : List ℕ := (subsAll ns).flatMap own

/-- Names and values by turns. -/
def pairs : List Node → List (Node × Node)
  | k :: v :: ns => (k, v) :: pairs ns
  | _ => []

mutual

/-- The tree without its memory. -/
def value : DNode → Node
  | null => .null
  | bool b => .bool b
  | uint v => .uint v
  | sint v => .sint v
  | real d => .real d
  | str _ s => .str s.bytes
  | numStr _ s => .numStr s.bytes
  | raw _ s => .raw s.bytes
  | arr _ ns => .arr (values ns)
  | obj _ ns => .obj (pairs (values ns))

/-- The values of a list of nodes. -/
def values : List DNode → List Node
  | [] => []
  | n :: ns => value n :: values ns

end

mutual

/-- `destroy` where the allocator needs it; no result where a block is freed that is not live. -/
def free : DNode → Finset ℕ → Option (Finset ℕ)
  | arr mem ns, h => (freeElems ns h).bind fun h => (mem.elim (some h) fun m => Free m.block h)
  | obj none _, h => some h
  | obj (some m) ns, h => (freeElems ns h).bind fun h => (FreeAll (m.map.getD []) h).bind (Free m.block)
  | str .kStringFree s, h => Free s.block h
  | numStr true s, h => Free s.block h
  | raw true s, h => Free s.block h
  | _, h => some h

/-- The elements are destroyed, from the first on. -/
def freeElems : List DNode → Finset ℕ → Option (Finset ℕ)
  | [], h => some h
  | n :: ns, h => (free n h).bind (freeElems ns)

end

/-- `destroy`: nothing is freed where the allocator does not need it. -/
def destroy (alloc : Allocator) (n : DNode) (h : Finset ℕ) : Option (Finset ℕ) :=
  if alloc.kNeedFree then free n h else some h

section
variable (alloc : Allocator) (copyString : Bool) (valid : Finset ℕ)

/-- The head of a new block for `cap` elements. -/
def containerMalloc (cap : ℕ) (h : Finset ℕ) : MetaNode := ⟨alloc.pick h, cap, none⟩

/-- `memcpy` of a string to a new buffer; no result where it is not in a valid block. -/
def copyBuffer (make : Buffer → DNode) (s : Buffer) (h : Finset ℕ) : Option (DNode × Finset ℕ) :=
  if s.block ∈ valid then some (make ⟨alloc.pick h, s.bytes⟩, insert (alloc.pick h) h) else none

mutual

/-- The copying constructor. The pointers of the source are followed where they point to a valid
block. -/
def copy : DNode → Finset ℕ → Option (DNode × Finset ℕ)
  | obj mem ns, h =>
    let count := ns.length / 2
    if 0 < count then
      if mem.any fun m => m.block ∈ valid then
        (copyElems ns (insert (alloc.pick h) h)).map fun r =>
          (obj (some (containerMalloc alloc count h)) r.1, r.2)
      else none
    else some (obj none [], h)
  | arr mem ns, h =>
    let a_size := ns.length
    if 0 < a_size then
      if mem.any fun m => m.block ∈ valid then
        (copyElems ns (insert (alloc.pick h) h)).map fun r =>
          (arr (some (containerMalloc alloc a_size h)) r.1, r.2)
      else none
    else some (arr none [], h)
  | str t s, h =>
    if t ≠ .kStringConst ∨ copyString then copyBuffer alloc valid (str .kStringFree) s h
    else if s.block ∈ valid then some (str t s, h) else none
  | numStr _ s, h => copyBuffer alloc valid (numStr true) s h
  | raw _ s, h => copyBuffer alloc valid (raw true) s h
  | null, h => some (null, h)
  | bool b, h => some (bool b, h)
  | uint v, h => some (uint v, h)
  | sint v, h => some (sint v, h)
  | real d, h => some (real d, h)

/-- The elements are copied, from the first on. -/
def copyElems : List DNode → Finset ℕ → Option (List DNode × Finset ℕ)
  | [], h => some ([], h)
  | n :: ns, h => (copy n h).bind fun r => (copyElems ns r.2).map fun s => (r.1 :: s.1, s.2)

end

end

/-! ### Freeing -/

theorem subs_ne (n : DNode) : n.subs = subsAll n.children ++ [n] := by
  cases n <;> rfl

theorem subsAll_append (ms : List DNode) :
    ∀ ns : List DNode, subsAll (ns ++ ms) = subsAll ns ++ subsAll ms
  | [] => rfl
  | n :: ns => by rw [List.cons_append, subsAll, subsAll, subsAll_append ms ns, List.append_assoc]

theorem mem_subs (n : DNode) : n ∈ n.subs := by
  rw [subs_ne]
  exact List.mem_append_right _ (List.mem_singleton_self n)

theorem blocks_eq (n : DNode) : n.blocks = blocksAll n.children ++ n.own := by
  rw [blocks, subs_ne, List.flatMap_append, blocksAll, List.flatMap_cons, List.flatMap_nil,
    List.append_nil]

theorem blocksAll_cons (n : DNode) (ns : List DNode) : blocksAll (n :: ns) = n.blocks ++ blocksAll ns :=
  List.flatMap_append

theorem FreeAll_one (a : ℕ) (h : Finset ℕ) : FreeAll [a] h = Free a h := by
  rw [FreeAll]
  cases Free a h <;> rfl

/-- Names and values come in pairs. -/
def Paired (n : DNode) : Prop := ∀ mem ns, n = obj mem ns → Even ns.length

/-- The children stand in a block, which has place for them, and an array has no map. -/
structure Sound (n : DNode) : Prop where
  placed : n.metaNode = none → n.children = []
  fits : n.Size ≤ n.Capacity
  paired : n.Paired
  plain : ∀ m ns, n = arr (some m) ns → m.map = none

theorem forall_subs {P : DNode → Prop} {n : DNode} (h : ∀ m ∈ n.subs, P m) :
    (∀ m ∈ subsAll n.children, P m) ∧ P n := by
  rw [subs_ne] at h
  exact ⟨fun m hm => h m (List.mem_append_left _ hm),
    h n (List.mem_append_right _ (List.mem_singleton_self n))⟩

theorem forall_subsAll {P : DNode → Prop} {n : DNode} {ns : List DNode}
    (h : ∀ m ∈ subsAll (n :: ns), P m) :
    (∀ m ∈ n.subs, P m) ∧ ∀ m ∈ subsAll ns, P m := by
  rw [subsAll] at h
  exact ⟨fun m hm => h m (List.mem_append_left _ hm), fun m hm => h m (List.mem_append_right _ hm)⟩

mutual

/-- What is freed are the blocks, in their order. -/
theorem free_eq : ∀ (n : DNode) (h : Finset ℕ), (∀ m ∈ n.subs, m.Sound) → free n h = FreeAll n.blocks h
  | arr none ns, h, hn => by
    rw [free, freeElems_eq ns h (forall_subs hn).1, blocks_eq, FreeAll_append]
    rfl
  | arr (some m) ns, h, hn => by
    rw [free, freeElems_eq ns h (forall_subs hn).1, blocks_eq, FreeAll_append]
    exact congrArg _ (funext fun h => (FreeAll_one m.block h).symm)
  | obj none ns, _, hn => by
    have hns : ns = [] := (forall_subs hn).2.placed rfl
    subst hns
    rfl
  | obj (some m) ns, h, hn => by
    rw [free, freeElems_eq ns h (forall_subs hn).1, blocks_eq, FreeAll_append]
    refine congrArg _ (funext fun h => ?_)
    rw [own, FreeAll_append]
    exact congrArg _ (funext fun h => (FreeAll_one m.block h).symm)
  | str t s, h, _ => by
    cases t
    · rfl
    · exact (FreeAll_one s.block h).symm
    · rfl
  | numStr o s, h, _ => by
    cases o
    · rfl
    · exact (FreeAll_one s.block h).symm
  | raw o s, h, _ => by
    cases o
    · rfl
    · exact (FreeAll_one s.block h).symm
  | null, _, _ => rfl
  | bool _, _, _ => rfl
  | uint _, _, _ => rfl
  | sint _, _, _ => rfl
  | real _, _, _ => rfl

theorem freeElems_eq : ∀ (ns : List DNode) (h : Finset ℕ), (∀ m ∈ subsAll ns, m.Sound) →
    freeElems ns h = FreeAll (blocksAll ns) h
  | [], _, _ => rfl
  | n :: ns, h, hn => by
    rw [freeElems, free_eq n h (forall_subsAll hn).1, blocksAll_cons, FreeAll_append]
    exact congrArg _ (funext fun h => freeElems_eq ns h (forall_subsAll hn).2)

end

/-- Destroying a node frees its blocks, where blocks are freed at all. -/
theorem destroy_holds {alloc : Allocator} {n : DNode} {l : List ℕ} {h : Finset ℕ}
    (hn : ∀ m ∈ n.subs, m.Sound) (hl : Holds (n.blocks ++ l) h) :
    ∃ h', n.destroy alloc h = some h' ∧
      if alloc.kNeedFree then Holds l h' else h' = h := by
  unfold destroy
  cases alloc.kNeedFree with
  | false => exact ⟨h, rfl, rfl⟩
  | true =>
    obtain ⟨h', hfree, hl'⟩ := hl.freeAll
    exact ⟨h', by rw [if_pos rfl, free_eq n h hn, hfree], hl'⟩

/-! ### The copy -/

/-- The pointers of a node that are followed lead to blocks with `P`. -/
structure Reads (P : ℕ → Prop) (n : DNode) : Prop where
  children : 0 < n.Size → ∃ m, n.metaNode = some m ∧ P m.block
  sv : ∀ s, n.sv = some s → P s.block

/-- The capacity is the size, and there is no map. -/
structure Exact (n : DNode) : Prop where
  capacity : 0 < n.Size → n.Capacity = n.Size
  map : ∀ m, n.metaNode = some m → m.map = none

theorem Reads.mono {P Q : ℕ → Prop} {n : DNode} (h : n.Reads P) (hPQ : ∀ a, P a → Q a) : n.Reads Q :=
  ⟨fun hs => by
    obtain ⟨m, hm, hP⟩ := h.children hs
    exact ⟨m, hm, hPQ _ hP⟩, fun s hs => hPQ _ (h.sv s hs)⟩

/-- Of a node of the copy: it is exact, it leads to its own blocks and to the valid ones, and with
`copyString` to its own only. -/
structure Made (copyString : Bool) (valid : Finset ℕ) (own : List ℕ) (n : DNode) : Prop where
  exact : n.Exact
  reads : n.Reads fun a => a ∈ own ∨ a ∈ valid
  alone : copyString = true → n.Reads (· ∈ own)

/-- The copy of a tree, beside blocks that it leaves alone. -/
structure Copied (copyString : Bool) (valid : Finset ℕ) (l : List ℕ) (n n' : DNode)
    (h' : Finset ℕ) : Prop where
  value : n'.value = n.value
  made : ∀ m ∈ n'.subs, m.Made copyString valid n'.blocks
  holds : Holds (n'.blocks ++ l) h'

/-- `Copied` for a list of nodes. -/
structure CopiedElems (copyString : Bool) (valid : Finset ℕ) (l : List ℕ) (ns ns' : List DNode)
    (h' : Finset ℕ) : Prop where
  values : values ns' = values ns
  length : ns'.length = ns.length
  made : ∀ m ∈ subsAll ns', m.Made copyString valid (blocksAll ns')
  holds : Holds (blocksAll ns' ++ l) h'

theorem Made.mono {copyString : Bool} {valid : Finset ℕ} {own own' : List ℕ} {n : DNode}
    (h : n.Made copyString valid own) (hs : ∀ a ∈ own, a ∈ own') : n.Made copyString valid own' :=
  ⟨h.exact, h.reads.mono fun a ha => ha.imp_left (hs a), fun hc => (h.alone hc).mono hs⟩

section
variable {alloc : Allocator} {copyString : Bool} {valid : Finset ℕ}

theorem reads_scalar {P : ℕ → Prop} {n : DNode} (hsubs : n.subs = [n]) (hsize : n.Size = 0)
    (hsv : n.sv = none) :
    ∀ m ∈ n.subs, m.Reads P := by
  intro m hm
  rw [hsubs, List.mem_singleton] at hm
  subst hm
  exact ⟨fun hs => absurd hs (by omega), fun s hs => by rw [hsv] at hs; cases hs⟩

theorem reads_buffer {P : ℕ → Prop} {n : DNode} {s : Buffer} (hsubs : n.subs = [n]) (hsize : n.Size = 0)
    (hsv : n.sv = some s) (hs : P s.block) : ∀ m ∈ n.subs, m.Reads P := by
  intro m hm
  rw [hsubs, List.mem_singleton] at hm
  subst hm
  refine ⟨fun hs => absurd hs (by omega), fun b hb => ?_⟩
  rw [hsv, Option.some.injEq] at hb
  rwa [← hb]

theorem copied_scalar {n : DNode} {l : List ℕ} {h : Finset ℕ} (hsubs : n.subs = [n])
    (hsize : n.Size = 0) (hmeta : n.metaNode = none) (hsv : n.sv = none) (hown : n.own = [])
    (hl : Holds l h) :
    Copied copyString valid l n n h := by
  have hreads : ∀ P, n.Reads P := fun P =>
    ⟨fun hs => absurd hs (by omega),
      fun s hs => absurd hs (by rw [hsv]; exact (Option.some_ne_none s).symm)⟩
  have hblocks : n.blocks = [] := by
    rw [blocks, hsubs, List.flatMap_cons, hown, List.nil_append, List.flatMap_nil]
  refine ⟨rfl, fun m hm => ?_, by rwa [hblocks]⟩
  rw [hsubs, List.mem_singleton] at hm
  subst hm
  exact ⟨⟨fun hs => absurd hs (by omega),
    fun k hk => absurd hk (by rw [hmeta]; exact (Option.some_ne_none k).symm)⟩, hreads _,
    fun _ => hreads _⟩

theorem copied_buffer {make : Buffer → DNode} (hsubs : ∀ s, (make s).subs = [make s])
    (hsize : ∀ s, (make s).Size = 0) (hmeta : ∀ s, (make s).metaNode = none)
    (hsv : ∀ s, (make s).sv = some s) (hown : ∀ s, (make s).own = [s.block]) {n : DNode}
    {s : Buffer} (hvalue : ∀ a, (make ⟨a, s.bytes⟩).value = n.value) (hs : s.block ∈ valid)
    {l : List ℕ} {h : Finset ℕ} (hl : Holds l h) :
    ∃ n' h', copyBuffer alloc valid make s h = some (n', h') ∧ Copied copyString valid l n n' h' := by
  refine ⟨_, _, if_pos hs, hvalue _, fun m hm => ?_, ?_⟩
  · rw [hsubs, List.mem_singleton] at hm
    subst hm
    have hreads : (make ⟨alloc.pick h, s.bytes⟩).Reads (· ∈ (make ⟨alloc.pick h, s.bytes⟩).blocks) := by
      refine ⟨fun hc => absurd hc (by rw [hsize]; exact lt_irrefl 0), fun b hb => ?_⟩
      rw [hsv, Option.some.injEq] at hb
      subst hb
      rw [blocks, hsubs, List.flatMap_cons, hown]
      exact List.mem_append_left _ (List.mem_singleton_self _)
    exact ⟨⟨fun hc => absurd hc (by rw [hsize]; exact lt_irrefl 0),
      fun k hk => by rw [hmeta] at hk; cases hk⟩, hreads.mono fun _ => .inl, fun _ => hreads⟩
  · rw [blocks, hsubs, List.flatMap_cons, hown, List.flatMap_nil]
    exact hl.malloc alloc.toSource

/-- A container of copied elements, in a block for as many as there are. -/
theorem copied_container {n n' : DNode} {ns ns' : List DNode} {l : List ℕ} {h h' : Finset ℕ} {cap : ℕ}
    (hns : CopiedElems copyString valid (alloc.pick h :: l) ns ns' h') (hchildren : n'.children = ns')
    (hmeta : n'.metaNode = some (containerMalloc alloc cap h)) (hown : n'.own = [alloc.pick h])
    (hsv : n'.sv = none) (hcap : cap = n'.Size) (hvalue : n'.value = n.value) :
    Copied copyString valid l n n' h' := by
  have hblocks : n'.blocks = blocksAll ns' ++ [alloc.pick h] := by rw [blocks_eq, hchildren, hown]
  have hreads : n'.Reads (· ∈ n'.blocks) := by
    refine ⟨fun _ => ⟨_, hmeta, ?_⟩, fun s hs => by rw [hsv] at hs; cases hs⟩
    rw [hblocks]
    exact List.mem_append_right _ (List.mem_singleton_self _)
  refine ⟨hvalue, fun m hm => ?_, ?_⟩
  · rw [subs_ne, hchildren, List.mem_append, List.mem_singleton] at hm
    rcases hm with hm | rfl
    · refine (hns.made m hm).mono fun a ha => ?_
      rw [hblocks]
      exact List.mem_append_left _ ha
    · refine ⟨⟨fun _ => ?_, fun k hk => ?_⟩, hreads.mono fun _ => .inl, fun _ => hreads⟩
      · rw [Capacity, hmeta]
        exact hcap
      · rw [hmeta, Option.some.injEq] at hk
        subst hk
        rfl
  · rw [hblocks, List.append_assoc]
    exact hns.holds

mutual

/-- A tree all of whose pointers are valid is copied. -/
theorem copy_spec : ∀ (n : DNode) (h : Finset ℕ) (l : List ℕ), (∀ m ∈ n.subs, m.Paired) →
    (∀ m ∈ n.subs, m.Reads (· ∈ valid)) → Holds l h →
    ∃ n' h', copy alloc copyString valid n h = some (n', h') ∧ Copied copyString valid l n n' h'
  | obj mem ns, h, l, hp, hr, hl => by
    obtain ⟨k, hk⟩ := (forall_subs hp).2 mem ns rfl
    rw [copy]
    by_cases hcount : 0 < ns.length / 2
    · obtain ⟨m, hm, hvalid⟩ := (forall_subs hr).2.children hcount
      obtain ⟨ns', h', hcopy, hns⟩ := copyElems_spec ns _ _ (forall_subs hp).1 (forall_subs hr).1
        (hl.malloc alloc.toSource)
      have hmem : mem = some m := hm
      refine ⟨_, h', by rw [if_pos hcount, hmem, if_pos (by simpa using hvalid), hcopy]; rfl, ?_⟩
      exact copied_container hns rfl rfl rfl rfl (by rw [Size, hns.length])
        (by rw [value, hns.values, value])
    · have hns : ns = [] := List.length_eq_zero_iff.mp (by omega)
      subst hns
      have he : Copied copyString valid l (obj none []) (obj none []) h :=
        copied_scalar rfl rfl rfl rfl rfl hl
      exact ⟨_, h, if_neg hcount, rfl, he.made, he.holds⟩
  | arr mem ns, h, l, hp, hr, hl => by
    rw [copy]
    by_cases hcount : 0 < ns.length
    · obtain ⟨m, hm, hvalid⟩ := (forall_subs hr).2.children hcount
      obtain ⟨ns', h', hcopy, hns⟩ := copyElems_spec ns _ _ (forall_subs hp).1 (forall_subs hr).1
        (hl.malloc alloc.toSource)
      have hmem : mem = some m := hm
      refine ⟨_, h', by rw [if_pos hcount, hmem, if_pos (by simpa using hvalid), hcopy]; rfl, ?_⟩
      exact copied_container hns rfl rfl rfl rfl (by rw [Size, hns.length])
        (by rw [value, hns.values, value])
    · have hns : ns = [] := List.length_eq_zero_iff.mp (by omega)
      subst hns
      have he : Copied copyString valid l (arr none []) (arr none []) h :=
        copied_scalar rfl rfl rfl rfl rfl hl
      exact ⟨_, h, if_neg hcount, rfl, he.made, he.holds⟩
  | str t s, h, l, _, hr, hl => by
    have hs : s.block ∈ valid := (forall_subs hr).2.sv s rfl
    rw [copy]
    by_cases ht : t ≠ .kStringConst ∨ copyString
    · rw [if_pos ht]
      exact copied_buffer (fun _ => rfl) (fun _ => rfl) (fun _ => rfl) (fun _ => rfl) (fun _ => rfl)
        (fun _ => rfl) hs hl
    · rw [not_or, not_not] at ht
      rw [if_neg (by rw [not_or, not_not]; exact ht), if_pos hs]
      obtain ⟨rfl, hcs⟩ := ht
      refine ⟨_, h, rfl, rfl, fun m hm => ?_, hl⟩
      obtain rfl := List.mem_singleton.mp hm
      refine ⟨⟨fun hc => absurd hc (lt_irrefl 0), fun k hk => by cases hk⟩,
        ⟨fun hc => absurd hc (lt_irrefl 0), ?_⟩, fun hc => absurd hc hcs⟩
      intro b hb
      obtain rfl := Option.some.inj hb
      exact .inr hs
  | numStr o s, h, l, _, hr, hl =>
    copied_buffer (fun _ => rfl) (fun _ => rfl) (fun _ => rfl) (fun _ => rfl) (fun _ => rfl)
      (fun _ => rfl)
      ((forall_subs hr).2.sv s rfl) hl
  | raw o s, h, l, _, hr, hl =>
    copied_buffer (fun _ => rfl) (fun _ => rfl) (fun _ => rfl) (fun _ => rfl) (fun _ => rfl)
      (fun _ => rfl)
      ((forall_subs hr).2.sv s rfl) hl
  | null, h, l, _, _, hl => ⟨_, h, rfl, copied_scalar rfl rfl rfl rfl rfl hl⟩
  | bool _, h, l, _, _, hl => ⟨_, h, rfl, copied_scalar rfl rfl rfl rfl rfl hl⟩
  | uint _, h, l, _, _, hl => ⟨_, h, rfl, copied_scalar rfl rfl rfl rfl rfl hl⟩
  | sint _, h, l, _, _, hl => ⟨_, h, rfl, copied_scalar rfl rfl rfl rfl rfl hl⟩
  | real _, h, l, _, _, hl => ⟨_, h, rfl, copied_scalar rfl rfl rfl rfl rfl hl⟩

theorem copyElems_spec : ∀ (ns : List DNode) (h : Finset ℕ) (l : List ℕ), (∀ m ∈ subsAll ns, m.Paired) →
    (∀ m ∈ subsAll ns, m.Reads (· ∈ valid)) → Holds l h →
    ∃ ns' h', copyElems alloc copyString valid ns h = some (ns', h') ∧
      CopiedElems copyString valid l ns ns' h'
  | [], h, l, _, _, hl => ⟨[], h, rfl, rfl, rfl, (fun m hm => absurd hm List.not_mem_nil), hl⟩
  | n :: ns, h, l, hp, hr, hl => by
    obtain ⟨n', h₁, hcopy, hn⟩ := copy_spec n h l (forall_subsAll hp).1 (forall_subsAll hr).1 hl
    obtain ⟨ns', h₂, hcopies, hns⟩ :=
      copyElems_spec ns h₁ _ (forall_subsAll hp).2 (forall_subsAll hr).2 hn.holds
    refine ⟨n' :: ns', h₂, ?_, ?_, ?_, fun m hm => ?_, ?_⟩
    · rw [copyElems, hcopy, Option.bind_some]
      dsimp only
      rw [hcopies, Option.map_some]
    · rw [values, values, hn.value, hns.values]
    · rw [List.length_cons, List.length_cons, hns.length]
    · rw [subsAll, List.mem_append] at hm
      rw [blocksAll_cons]
      rcases hm with hm | hm
      · exact (hn.made m hm).mono fun a ha => List.mem_append_left _ ha
      · exact (hns.made m hm).mono fun a ha => List.mem_append_right _ ha
    · rw [blocksAll_cons]
      refine hns.holds.perm ?_
      rw [← List.append_assoc]
      exact List.perm_append_comm.append_right l

end

mutual

/-- A copy has followed all the pointers of its source. -/
theorem reads_of_copy : ∀ (n : DNode) (h : Finset ℕ) {r : DNode × Finset ℕ}, (∀ m ∈ n.subs, m.Paired) →
    copy alloc copyString valid n h = some r → ∀ m ∈ n.subs, m.Reads (· ∈ valid)
  | obj mem ns, h, r, hp, hc => by
    obtain ⟨k, hk⟩ := (forall_subs hp).2 mem ns rfl
    rw [copy] at hc
    by_cases hcount : 0 < ns.length / 2
    · rw [if_pos hcount] at hc
      split_ifs at hc with hmem
      obtain ⟨s, hs, -⟩ := Option.map_eq_some_iff.mp hc
      obtain ⟨m, hm, hvalid⟩ := Option.any_eq_true .. |>.mp hmem
      intro q hq
      rw [subs, List.mem_append, List.mem_singleton] at hq
      rcases hq with hq | rfl
      · exact readsElems_of_copy ns _ (forall_subs hp).1 hs q hq
      · exact ⟨fun _ => ⟨m, hm, by simpa using hvalid⟩, fun s hs => by cases hs⟩
    · have hns : ns = [] := List.length_eq_zero_iff.mp (by omega)
      subst hns
      intro q hq
      obtain rfl := List.mem_singleton.mp hq
      exact ⟨fun hs => absurd hs (lt_irrefl 0), fun s hs => by cases hs⟩
  | arr mem ns, h, r, hp, hc => by
    rw [copy] at hc
    by_cases hcount : 0 < ns.length
    · rw [if_pos hcount] at hc
      split_ifs at hc with hmem
      obtain ⟨s, hs, -⟩ := Option.map_eq_some_iff.mp hc
      obtain ⟨m, hm, hvalid⟩ := Option.any_eq_true .. |>.mp hmem
      intro q hq
      rw [subs, List.mem_append, List.mem_singleton] at hq
      rcases hq with hq | rfl
      · exact readsElems_of_copy ns _ (forall_subs hp).1 hs q hq
      · exact ⟨fun _ => ⟨m, hm, by simpa using hvalid⟩, fun s hs => by cases hs⟩
    · have hns : ns = [] := List.length_eq_zero_iff.mp (by omega)
      subst hns
      intro q hq
      obtain rfl := List.mem_singleton.mp hq
      exact ⟨fun hs => absurd hs (lt_irrefl 0), fun s hs => by cases hs⟩
  | str t s, h, r, _, hc => by
    have hs : s.block ∈ valid := by
      rw [copy, copyBuffer] at hc
      split_ifs at hc <;> assumption
    exact reads_buffer rfl rfl rfl hs
  | numStr o s, h, r, _, hc => by
    have hs : s.block ∈ valid := by
      rw [copy, copyBuffer] at hc
      split_ifs at hc
      assumption
    exact reads_buffer rfl rfl rfl hs
  | raw o s, h, r, _, hc => by
    have hs : s.block ∈ valid := by
      rw [copy, copyBuffer] at hc
      split_ifs at hc
      assumption
    exact reads_buffer rfl rfl rfl hs
  | null, _, _, _, _ => reads_scalar rfl rfl rfl
  | bool _, _, _, _, _ => reads_scalar rfl rfl rfl
  | uint _, _, _, _, _ => reads_scalar rfl rfl rfl
  | sint _, _, _, _, _ => reads_scalar rfl rfl rfl
  | real _, _, _, _, _ => reads_scalar rfl rfl rfl

theorem readsElems_of_copy :
    ∀ (ns : List DNode) (h : Finset ℕ) {r : List DNode × Finset ℕ}, (∀ m ∈ subsAll ns, m.Paired) →
    copyElems alloc copyString valid ns h = some r → ∀ m ∈ subsAll ns, m.Reads (· ∈ valid)
  | [], _, _, _, _ => fun m hm => absurd hm List.not_mem_nil
  | n :: ns, h, r, hp, hc => by
    rw [copyElems] at hc
    obtain ⟨s, hs, hc⟩ := Option.bind_eq_some_iff.mp hc
    obtain ⟨t, ht, -⟩ := Option.map_eq_some_iff.mp hc
    intro m hm
    rw [subsAll, List.mem_append] at hm
    rcases hm with hm | hm
    · exact reads_of_copy n h (forall_subsAll hp).1 hs m hm
    · exact readsElems_of_copy ns _ (forall_subsAll hp).2 ht m hm

end

end

/-! ### Places -/

/-- The node at a place of a forest: which root, which child of it, and so on. -/
def getIn : List DNode → List ℕ → Option DNode
  | _, [] => none
  | ns, [i] => ns[i]?
  | ns, i :: j :: p => ns[i]?.bind fun n => getIn n.children (j :: p)

/-- The node with other children. -/
def withChildren : DNode → List DNode → DNode
  | arr mem _, ns => arr mem ns
  | obj mem _, ns => obj mem ns
  | n, _ => n

/-- The forest with another node at a place. -/
def setIn : List DNode → List ℕ → DNode → List DNode
  | ns, [], _ => ns
  | ns, [i], x => ns.set i x
  | ns, i :: j :: p, x =>
    ns[i]?.elim ns fun n => ns.set i (n.withChildren (setIn n.children (j :: p) x))

/-- The block in which the node at a place stands; `b` for the roots. -/
def homeIn (b : Option ℕ) : List DNode → List ℕ → Option ℕ
  | ns, i :: j :: p => ns[i]?.bind fun n => homeIn (n.metaNode.map MetaNode.block) n.children (j :: p)
  | _, _ => b

theorem getElem?_split {ns : List DNode} {i : ℕ} {n : DNode} (h : ns[i]? = some n) :
    ∃ a b, ns = a ++ n :: b ∧ ∀ x, ns.set i x = a ++ x :: b := by
  obtain ⟨hi, rfl⟩ := List.getElem?_eq_some_iff.mp h
  refine ⟨ns.take i, ns.drop (i + 1), by simp, fun x => ?_⟩
  rw [List.set_eq_take_append_cons_drop, if_pos hi]

/-- The block of the children is owned. -/
theorem mem_own {n : DNode} {m : MetaNode} (h : n.metaNode = some m) : m.block ∈ n.own := by
  cases n with
  | arr mem ms =>
    obtain rfl : mem = some m := h
    exact List.mem_singleton_self _
  | obj mem ms =>
    obtain rfl : mem = some m := h
    exact List.mem_append_right _ (List.mem_singleton_self _)
  | _ => cases h

theorem own_withChildren (n : DNode) (ns : List DNode) : (n.withChildren ns).own = n.own := by
  rcases n with _ | _ | _ | _ | _ | _ | _ | _ | ⟨_ | m, _⟩ | ⟨_ | m, _⟩ <;> rfl

/-- A node with children takes others. -/
theorem children_withChildren {n : DNode} (h : n.children ≠ []) (ns : List DNode) :
    (n.withChildren ns).children = ns ∧ n.withChildren n.children = n := by
  cases n with
  | arr mem ms => exact ⟨rfl, rfl⟩
  | obj mem ms => exact ⟨rfl, rfl⟩
  | _ => exact absurd rfl h

theorem children_ne_nil {ns : List DNode} {p : List ℕ} {m : DNode} (h : getIn ns p = some m) :
    ns ≠ [] := by
  rintro rfl
  match p with
  | [] => cases h
  | [i] => simp [getIn] at h
  | i :: j :: p => simp [getIn] at h

theorem blocksAll_append (ns ms : List DNode) :
    blocksAll (ns ++ ms) = blocksAll ns ++ blocksAll ms := by
  rw [blocksAll, subsAll_append, List.flatMap_append]
  rfl

theorem perm_middle (a b c d e : List ℕ) :
    (a ++ ((b ++ c) ++ d) ++ e).Perm (b ++ (c ++ d ++ a ++ e)) := by
  have h : (a ++ (b ++ (c ++ d))).Perm ((b ++ (c ++ d)) ++ a) := List.perm_append_comm
  simpa only [List.append_assoc] using h.append_right e

/-- Beside the node at a place the blocks of a forest do not depend on it; the block where it stands
is among them. -/
theorem blocksAll_setIn : ∀ (p : List ℕ) (ns : List DNode) {m : DNode}, getIn ns p = some m →
    ∃ fr, (∀ x, (blocksAll (setIn ns p x)).Perm (x.blocks ++ fr)) ∧
      ∀ b a, homeIn b ns p = some a → b = some a ∨ ((∀ n ∈ subsAll ns, n.Sound) → a ∈ fr)
  | [], _, _, h => by cases h
  | [i], ns, m, h => by
    obtain ⟨a, b, -, hset⟩ := getElem?_split h
    refine ⟨blocksAll a ++ blocksAll b, fun x => ?_, fun _ _ hb => .inl hb⟩
    rw [setIn, hset, blocksAll_append, blocksAll_cons]
    simpa only [List.nil_append, List.append_nil, List.append_assoc] using
      perm_middle (blocksAll a) x.blocks [] [] (blocksAll b)
  | i :: j :: p, ns, m, h => by
    obtain ⟨n, hn, hget⟩ := Option.bind_eq_some_iff.mp h
    obtain ⟨fr, hperm, hhome⟩ := blocksAll_setIn (j :: p) n.children hget
    obtain ⟨a, b, hns, hset⟩ := getElem?_split hn
    refine ⟨fr ++ n.own ++ blocksAll a ++ blocksAll b, fun x => ?_, fun c d hb => ?_⟩
    · have hx : (n.withChildren (setIn n.children (j :: p) x)).blocks =
          blocksAll (setIn n.children (j :: p) x) ++ n.own := by
        rw [blocks_eq, (children_withChildren (children_ne_nil hget) _).1, own_withChildren]
      rw [setIn, hn, Option.elim_some, hset, blocksAll_append, blocksAll_cons, hx]
      refine (((hperm x).append_right _).append_right _ |>.append_left _).trans ?_
      simpa only [List.append_assoc] using perm_middle (blocksAll a) x.blocks fr n.own (blocksAll b)
    · refine .inr fun hs => ?_
      rw [homeIn, hn, Option.bind_some] at hb
      have hsn : ∀ k ∈ n.subs, k.Sound := by
        intro k hk
        refine hs k ?_
        rw [hns, subsAll_append]
        exact List.mem_append_right _ (List.mem_append_left _ hk)
      rcases hhome _ _ hb with he | he
      · obtain ⟨k, hk, rfl⟩ := Option.map_eq_some_iff.mp he
        exact List.mem_append_left _ (List.mem_append_left _ (List.mem_append_right _ (mem_own hk)))
      · exact List.mem_append_left _
          (List.mem_append_left _ (List.mem_append_left _ (he (forall_subs hsn).1)))

/-- The nodes below a place are nodes of the forest. -/
theorem subs_of_getIn : ∀ (p : List ℕ) (ns : List DNode) {m : DNode}, getIn ns p = some m →
    ∀ k ∈ m.subs, k ∈ subsAll ns
  | [], _, _, h => by cases h
  | [i], ns, m, h => by
    obtain ⟨a, b, rfl, -⟩ := getElem?_split h
    intro k hk
    rw [subsAll_append]
    exact List.mem_append_right _ (List.mem_append_left _ hk)
  | i :: j :: p, ns, m, h => by
    obtain ⟨n, hn, hget⟩ := Option.bind_eq_some_iff.mp h
    obtain ⟨a, b, rfl, -⟩ := getElem?_split hn
    intro k hk
    rw [subsAll_append]
    refine List.mem_append_right _ (List.mem_append_left _ ?_)
    rw [subs_ne]
    exact List.mem_append_left _ (subs_of_getIn (j :: p) n.children hget k hk)

theorem setIn_getIn : ∀ (p : List ℕ) (ns : List DNode) {m : DNode}, getIn ns p = some m →
    setIn ns p m = ns
  | [], _, _, h => by cases h
  | [i], ns, m, h => by
    obtain ⟨a, b, hns, hset⟩ := getElem?_split h
    rw [setIn, hset, ← hns]
  | i :: j :: p, ns, m, h => by
    obtain ⟨n, hn, hget⟩ := Option.bind_eq_some_iff.mp h
    obtain ⟨a, b, hns, hset⟩ := getElem?_split hn
    rw [setIn, hn, Option.elim_some, setIn_getIn (j :: p) n.children hget, hset,
      (children_withChildren (children_ne_nil hget) []).2, ← hns]

/-- The blocks below a place and the others. -/
theorem blocksAll_getIn {p : List ℕ} {ns : List DNode} {m : DNode} (h : getIn ns p = some m) :
    ∀ a ∈ m.blocks, a ∈ blocksAll ns := by
  intro a ha
  obtain ⟨k, hk, hka⟩ := List.mem_flatMap.mp ha
  exact List.mem_flatMap.mpr ⟨k, subs_of_getIn p ns h k hk, hka⟩

/-- A place that is neither above nor below is not touched. -/
theorem getIn_setIn_apart : ∀ (p q : List ℕ) (ns : List DNode) (x : DNode), ¬ p <+: q → ¬ q <+: p →
    getIn (setIn ns p x) q = getIn ns q
  | [], _, _, _, hpq, _ => absurd List.nil_prefix hpq
  | _, [], _, _, _, hqp => absurd List.nil_prefix hqp
  | [i], i' :: q, ns, x, hpq, _ => by
    have hne : i ≠ i' := fun he => hpq ⟨q, by rw [he]; rfl⟩
    have hset : (ns.set i x)[i']? = ns[i']? := List.getElem?_set_ne hne
    cases q with
    | nil => exact hset
    | cons j q => rw [setIn, getIn, hset, getIn]
  | i :: j :: p, i' :: q, ns, x, hpq, hqp => by
    rw [setIn]
    cases hn : ns[i]? with
    | none => rfl
    | some n =>
      rw [Option.elim_some]
      by_cases hi : i = i'
      · subst hi
        cases q with
        | nil => exact absurd ⟨j :: p, rfl⟩ hqp
        | cons j' q =>
          have hlt := (List.getElem?_eq_some_iff.mp hn).1
          rw [getIn, getIn, hn, List.getElem?_set_self hlt, Option.bind_some, Option.bind_some]
          by_cases hc : n.children = []
          · have he : n.withChildren (setIn n.children (j :: p) x) = n := by
              rw [hc]
              cases n with
              | arr mem ms =>
                obtain rfl : ms = [] := hc
                cases p <;> rfl
              | obj mem ms =>
                obtain rfl : ms = [] := hc
                cases p <;> rfl
              | _ => rfl
            rw [he]
          · rw [(children_withChildren hc _).1]
            refine getIn_setIn_apart (j :: p) (j' :: q) n.children x (fun h => hpq ?_) fun h => hqp ?_
            · exact List.cons_prefix_cons.mpr ⟨rfl, h⟩
            · exact List.cons_prefix_cons.mpr ⟨rfl, h⟩
      · have hset : ∀ y, (ns.set i y)[i']? = ns[i']? := fun y => List.getElem?_set_ne hi
        cases q with
        | nil => exact hset _
        | cons j' q => rw [getIn, hset, getIn]

theorem getIn_append : ∀ (p s : List ℕ) (ns : List DNode), p ≠ [] → s ≠ [] →
    getIn ns (p ++ s) = (getIn ns p).bind fun m => getIn m.children s
  | [], _, _, hp, _ => absurd rfl hp
  | _, [], _, _, hs => absurd rfl hs
  | [i], j :: s, ns, _, _ => rfl
  | i :: j :: p, k :: s, ns, _, hs => by
    have ih : ∀ n : DNode, getIn n.children (j :: (p ++ k :: s)) =
        (getIn n.children (j :: p)).bind fun m => getIn m.children (k :: s) := fun n =>
      getIn_append (j :: p) (k :: s) n.children (List.cons_ne_nil j p) hs
    rw [List.cons_append, List.cons_append, getIn, getIn, Option.bind_assoc]
    exact congrArg _ (funext ih)

theorem homeIn_append :
    ∀ (p s : List ℕ) (ns : List DNode) (b : Option ℕ) {m : DNode}, getIn ns p = some m → s ≠ [] →
    homeIn b ns (p ++ s) = homeIn (m.metaNode.map MetaNode.block) m.children s
  | [], _, _, _, _, h, _ => by cases h
  | _, [], _, _, _, _, hs => absurd rfl hs
  | [i], j :: s, ns, b, m, h, _ => by
    have hi : ns[i]? = some m := h
    rw [List.singleton_append, homeIn, hi, Option.bind_some]
  | i :: j :: p, k :: s, ns, b, m, h, hs => by
    obtain ⟨n, hn, hget⟩ := Option.bind_eq_some_iff.mp h
    rw [List.cons_append, List.cons_append, homeIn, hn, Option.bind_some, ← List.cons_append]
    exact homeIn_append (j :: p) (k :: s) n.children _ hget hs

/-- Below a root a node stands in a block of the forest. -/
theorem homeIn_some : ∀ (p : List ℕ) (ns : List DNode) (b : ℕ) {m : DNode}, getIn ns p = some m →
    (∀ k ∈ subsAll ns, k.Sound) → ∃ a, homeIn (some b) ns p = some a ∧ (a = b ∨ a ∈ blocksAll ns)
  | [], _, _, _, h, _ => by cases h
  | [_], _, b, _, _, _ => ⟨b, rfl, .inl rfl⟩
  | i :: j :: p, ns, b, m, h, hs => by
    obtain ⟨n, hn, hget⟩ := Option.bind_eq_some_iff.mp h
    have hsub : ∀ k ∈ n.subs, k ∈ subsAll ns := subs_of_getIn [i] ns hn
    rw [homeIn, hn, Option.bind_some]
    have hsn := fun k hk => hs k (hsub k hk)
    cases hm : n.metaNode with
    | none => exact absurd ((forall_subs hsn).2.placed hm) (children_ne_nil hget)
    | some k =>
      obtain ⟨a, ha, hor⟩ := homeIn_some (j :: p) n.children k.block hget (forall_subs hsn).1
      refine ⟨a, ha, .inr ?_⟩
      have hmem : ∀ c ∈ n.blocks, c ∈ blocksAll ns := fun c hc => by
        obtain ⟨r, hr, hc⟩ := List.mem_flatMap.mp hc
        exact List.mem_flatMap.mpr ⟨r, hsub r hr, hc⟩
      refine hmem a ?_
      rw [blocks_eq]
      rcases hor with rfl | hor
      · exact List.mem_append_right _ (mem_own hm)
      · exact List.mem_append_left _ hor

theorem getIn_setIn_self :
    ∀ (p : List ℕ) (ns : List DNode) (x : DNode) {m : DNode}, getIn ns p = some m →
    getIn (setIn ns p x) p = some x
  | [], _, _, _, h => by cases h
  | [i], ns, x, m, h => List.getElem?_set_self (List.getElem?_eq_some_iff.mp h).1
  | i :: j :: p, ns, x, m, h => by
    obtain ⟨n, hn, hget⟩ := Option.bind_eq_some_iff.mp h
    rw [setIn, hn, Option.elim_some, getIn,
      List.getElem?_set_self (List.getElem?_eq_some_iff.mp hn).1, Option.bind_some,
      (children_withChildren (children_ne_nil hget) _).1]
    exact getIn_setIn_self (j :: p) n.children x hget

theorem length_setIn (p : List ℕ) (ns : List DNode) (x : DNode) :
    (setIn ns p x).length = ns.length := by
  match p with
  | [] => rfl
  | [i] => exact List.length_set
  | i :: j :: p =>
    rw [setIn]
    cases ns[i]? with
    | none => rfl
    | some n => exact List.length_set

theorem paired_setIn : ∀ (p : List ℕ) (ns : List DNode) (x : DNode), (∀ k ∈ subsAll ns, k.Paired) →
    (∀ k ∈ x.subs, k.Paired) → ∀ k ∈ subsAll (setIn ns p x), k.Paired
  | [], _, _, hns, _ => hns
  | [i], ns, x, hns, hx => by
    cases hn : ns[i]? with
    | none => rwa [setIn, List.set_eq_of_length_le (List.getElem?_eq_none_iff.mp hn)]
    | some n =>
      obtain ⟨a, b, rfl, hset⟩ := getElem?_split hn
      rw [subsAll_append, subsAll] at hns
      rw [setIn, hset, subsAll_append, subsAll]
      exact List.forall_mem_append.mpr ⟨(List.forall_mem_append.mp hns).1, List.forall_mem_append.mpr
        ⟨hx, (List.forall_mem_append.mp (List.forall_mem_append.mp hns).2).2⟩⟩
  | i :: j :: p, ns, x, hns, hx => by
    rw [setIn]
    cases hn : ns[i]? with
    | none => exact hns
    | some n =>
      obtain ⟨a, b, rfl, hset⟩ := getElem?_split hn
      rw [subsAll_append, subsAll] at hns
      obtain ⟨ha, hnb⟩ := List.forall_mem_append.mp hns
      obtain ⟨hn', hb⟩ := List.forall_mem_append.mp hnb
      rw [Option.elim_some, hset, subsAll_append, subsAll]
      refine List.forall_mem_append.mpr ⟨ha, List.forall_mem_append.mpr ⟨?_, hb⟩⟩
      have ih := paired_setIn (j :: p) n.children x (forall_subs hn').1 hx
      have hlen := length_setIn (j :: p) n.children x
      cases n with
      | arr mem ms =>
        exact List.forall_mem_append.mpr ⟨ih, List.forall_mem_singleton.mpr fun _ _ he => by cases he⟩
      | obj mem ms =>
        refine List.forall_mem_append.mpr ⟨ih, List.forall_mem_singleton.mpr fun _ _ he => ?_⟩
        cases he
        rw [hlen]
        exact (forall_subs hn').2 mem ms rfl
      | _ => exact hn'

/-! ### `CopyFrom` -/

/-- `this->o.len = rhs.getTypeAndLen()`: the type and the length, while the pointer is null yet. -/
def header : DNode → DNode
  | arr _ ns => arr none ns
  | obj _ ns => obj none ns
  | n => n

/-- What the constructor of the node at `p` finds at `q`: a null node where they are the same place,
the old node in what was below `p`, and above `p` a tree with the node that is being made. -/
def seen (ns : List DNode) (p q : List ℕ) (rhs : DNode) : Option DNode :=
  if p = q then some null
  else if p <+: q then some rhs
  else getIn (setIn ns p rhs.header) q

section
variable (alloc : Allocator) (copyString : Bool)

/-- The node at `p` is destroyed, then a copy of the node at `q` is made in its place. -/
def CopyFrom (ns : List DNode) (p q : List ℕ) (h : Finset ℕ) : Option (DNode × Finset ℕ) :=
  (getIn ns p).bind fun this => (getIn ns q).bind fun rhs => (this.destroy alloc h).bind fun h' =>
    if (homeIn none ns q).all (· ∈ h') then (seen ns p q rhs).bind fun rhs =>
      copy alloc copyString h' rhs h' else none

end

/-- Roots that own their blocks, each once, beside others, with pointers that lead to live blocks. -/
structure WellFormed (ns : List DNode) (l : List ℕ) (h : Finset ℕ) : Prop where
  holds : Holds (blocksAll ns ++ l) h
  sound : ∀ m ∈ subsAll ns, m.Sound
  reads : ∀ m ∈ subsAll ns, m.Reads (· ∈ h)

/-- The same result of serializing, whatever the flags and the buffer. -/
def SameText (m n : DNode) : Prop :=
  ∀ W flags wb, SerializeImpl W flags m.value wb = SerializeImpl W flags n.value wb

/-- There is a result, with the text of the source and as much capacity as it has children, no map,
none of the blocks of the source, and all it leads to is live; with `copyString` it leads to its own
blocks only. -/
structure Faithful (copyString : Bool) (rhs n' : DNode) (h' : Finset ℕ) : Prop where
  text : SameText n' rhs
  exact : ∀ m ∈ n'.subs, m.Exact
  disjoint : n'.blocks.Disjoint rhs.blocks
  reads : ∀ m ∈ n'.subs, m.Reads (· ∈ h')
  alone : copyString = true → ∀ m ∈ n'.subs, m.Reads (· ∈ n'.blocks)

/-- There is a result, and it is faithful. -/
def FaithfulCopy (copyString : Bool) (rhs : DNode) (r : Option (DNode × Finset ℕ)) : Prop :=
  ∃ n' h', r = some (n', h') ∧ Faithful copyString rhs n' h'

/-- The blocks where a copy of the node looks: those of its children and of its strings. -/
def pointers (n : DNode) : List ℕ :=
  (if 0 < n.Size then n.metaNode.toList.map MetaNode.block else []) ++ n.sv.toList.map Buffer.block

/-- The source may be the target only if it reads `null`, may not be above it, and where blocks are
freed none of those that are read, the one in which the source stands among them, belongs to the
target. -/
def Apart (alloc : Allocator) (ns : List DNode) (p q : List ℕ) (this rhs : DNode) : Prop :=
  if p = q then SameText null this
  else ¬ q <+: p ∧ (alloc.kNeedFree = true →
    ∀ a ∈ (homeIn none ns q).toList ++ rhs.subs.flatMap pointers, a ∉ this.blocks)

theorem reads_iff {P : ℕ → Prop} {n : DNode} (hn : n.metaNode = none → n.children = []) :
    n.Reads P ↔ ∀ a ∈ n.pointers, P a := by
  constructor
  · intro hr a ha
    rcases List.mem_append.mp ha with ha | ha
    · split_ifs at ha with hs
      · obtain ⟨m, hm, hP⟩ := hr.children hs
        rw [hm] at ha
        rwa [List.mem_singleton.mp ha]
      · cases ha
    · obtain ⟨s, hs, rfl⟩ := List.mem_map.mp ha
      exact hr.sv s (Option.mem_toList.mp hs)
  · intro hP
    refine ⟨fun hs => ?_,
      fun s hs => hP _ (List.mem_append_right _ (List.mem_map_of_mem (Option.mem_toList.mpr hs)))⟩
    cases hm : n.metaNode with
    | none =>
      have hz : n.Size = 0 := by
        have hc := hn hm
        cases n with
        | arr mem ms => exact congrArg List.length hc
        | obj mem ms =>
          obtain rfl : ms = [] := hc
          rfl
        | _ => rfl
      omega
    | some m =>
      refine ⟨m, rfl, hP _ (List.mem_append_left _ ?_)⟩
      rw [if_pos hs, hm]
      exact List.mem_singleton_self _

section
variable {alloc : Allocator} {copyString : Bool} {ns : List DNode} {l : List ℕ} {h h' : Finset ℕ}
    {p q : List ℕ}
  {this rhs : DNode}

theorem Copied.faithful {valid : Finset ℕ} {n n' : DNode} (hc : Copied copyString valid l n n' h')
    (hl : ∀ a ∈ n.blocks, a ∈ l) (hv : ∀ a ∈ valid, a ∈ l) : Faithful copyString n n' h' where
  text W flags wb := by rw [hc.value]
  exact m hm := (hc.made m hm).exact
  disjoint a ha hn := hc.holds.disjoint ha (hl a hn)
  reads m hm := (hc.made m hm).reads.mono fun a ha => by
    rcases ha with ha | ha
    · exact hc.holds.mem_left ha
    · exact hc.holds.mem_right (hv a ha)
  alone hcs m hm := (hc.made m hm).alone hcs

/-- The node that is being made cannot be read: it has a length and no children. -/
theorem not_reads_header {P : ℕ → Prop} {s : List ℕ} {m : DNode} (hs : getIn rhs.children s = some m)
    (hp : rhs.Paired) : ¬ rhs.header.Reads P := by
  intro hr
  have hne := children_ne_nil hs
  cases rhs with
  | arr mem ms =>
    obtain ⟨k, hk, -⟩ := hr.children (List.length_pos_iff.mpr hne)
    cases hk
  | obj mem ms =>
    obtain ⟨k, hk⟩ := hp mem ms rfl
    have hpos : 0 < ms.length := List.length_pos_iff.mpr hne
    obtain ⟨c, hc, -⟩ := hr.children (show 0 < ms.length / 2 by omega)
    cases hc
  | _ => exact hne rfl

theorem header_paired (hp : ∀ k ∈ rhs.subs, k.Paired) : ∀ k ∈ rhs.header.subs, k.Paired := by
  cases rhs with
  | arr mem ms =>
    exact List.forall_mem_append.mpr ⟨(forall_subs hp).1,
      List.forall_mem_singleton.mpr fun _ _ he => by cases he⟩
  | obj mem ms =>
    refine List.forall_mem_append.mpr ⟨(forall_subs hp).1,
      List.forall_mem_singleton.mpr fun _ _ he => ?_⟩
    cases he
    exact (forall_subs hp).2 mem ms rfl
  | _ => exact hp

/-- Nothing is copied to a place below the source. -/
theorem copy_seen_above (hw : WellFormed ns l h) (hp : getIn ns p = some this)
    (hq : getIn ns q = some rhs) (hne : p ≠ q) (hqp : q <+: p) {r : DNode × Finset ℕ}
    {valid k : Finset ℕ} :
    ((seen ns p q rhs).bind fun rhs => copy alloc copyString valid rhs k) ≠ some r := by
  intro hc
  obtain ⟨s, rfl⟩ := hqp
  have hs : s ≠ [] := fun he => hne (by rw [he, List.append_nil])
  have hq0 : q ≠ [] := by
    rintro rfl
    cases hq
  have hnp : ¬ q ++ s <+: q := fun hpre => by
    have := hpre.length_le
    rw [List.length_append] at this
    exact hs (List.length_eq_zero_iff.mp (by omega))
  rw [seen, if_neg hne, if_neg hnp] at hc
  obtain ⟨r', hr', hcopy⟩ := Option.bind_eq_some_iff.mp hc
  have hsound := fun k hk => hw.sound k (subs_of_getIn q ns hq k hk)
  have hself := getIn_setIn_self (q ++ s) ns rhs.header hp
  rw [getIn_append q s _ hq0 hs, hr', Option.bind_some] at hself
  have hpair : ∀ k ∈ r'.subs, k.Paired := fun k hk =>
    paired_setIn (q ++ s) ns rhs.header (fun k hk => (hw.sound k hk).paired)
      (header_paired fun k hk => (hsound k hk).paired) k (subs_of_getIn q _ hr' k hk)
  have hreads := reads_of_copy r' k hpair hcopy rhs.header (by
    rw [subs_ne]
    exact List.mem_append_left _ (subs_of_getIn s _ hself _ (mem_subs _)))
  rw [getIn_append q s _ hq0 hs, hq, Option.bind_some] at hp
  exact not_reads_header hp (hsound rhs (mem_subs rhs)).paired hreads

/-- At a place that is neither the target nor above it the source is found as it was. -/
theorem seen_below (hq : getIn ns q = some rhs) (hne : p ≠ q) (hqp : ¬ q <+: p) :
    seen ns p q rhs = some rhs := by
  rw [seen, if_neg hne]
  split_ifs with hpq
  · rfl
  · rw [getIn_setIn_apart p q ns _ hpq hqp, hq]

/-- What is live when the target is destroyed. -/
theorem destroy_target (alloc : Allocator) (hw : WellFormed ns l h) (hp : getIn ns p = some this) :
    ∃ h' l', this.destroy alloc h = some h' ∧ Holds l' h' ∧
      (∀ a, a ∈ h' ↔ a ∈ h ∧ (alloc.kNeedFree = true → a ∉ this.blocks)) ∧
        ∀ a, homeIn none ns p = some a → a ∈ h' := by
  obtain ⟨fr, hperm, hhome⟩ := blocksAll_setIn p ns hp
  have hthis := hperm this
  rw [setIn_getIn p ns hp] at hthis
  have hold : Holds (this.blocks ++ (fr ++ l)) h := hw.holds.perm (by
    rw [← List.append_assoc]
    exact hthis.append_right l)
  have hhome' : ∀ a, homeIn none ns p = some a → a ∈ fr := fun a ha =>
    ((hhome none a ha).resolve_left (Option.some_ne_none a).symm) hw.sound
  obtain ⟨h', hd, hh'⟩ :=
    @destroy_holds alloc _ _ _ (fun k hk => hw.sound k (subs_of_getIn p ns hp k hk)) hold
  cases hf : alloc.kNeedFree with
  | false =>
    rw [hf, if_neg (by decide)] at hh'
    subst hh'
    refine ⟨h', _, hd, hold, fun a => ⟨fun ha => ⟨ha, fun hc => by cases hc⟩, And.left⟩, fun a ha => ?_⟩
    exact hold.mem_right (List.mem_append_left _ (hhome' a ha))
  | true =>
    rw [hf, if_pos rfl] at hh'
    refine ⟨h', _, hd, hh', fun a => ?_, fun a ha => hh'.mem_left (hhome' a ha)⟩
    rw [hh'.mem a, hold.mem a, List.mem_append (s := this.blocks)]
    constructor
    · exact fun ha => ⟨.inr ha, fun _ hc => hold.disjoint hc ha⟩
    · rintro ⟨ha, hnot⟩
      exact ha.resolve_left (hnot rfl)

/-- Nodes that stand apart own different blocks. -/
theorem blocks_disjoint (hw : WellFormed ns l h) (hp : getIn ns p = some this)
    (hq : getIn ns q = some rhs) (hpq : ¬ p <+: q) (hqp : ¬ q <+: p) :
    ∀ a ∈ rhs.blocks, a ∉ this.blocks := by
  obtain ⟨fr, hperm, -⟩ := blocksAll_setIn p ns hp
  have hthis := hperm this
  rw [setIn_getIn p ns hp] at hthis
  have hrhs : getIn (setIn ns p null) q = some rhs := by rw [getIn_setIn_apart p q ns null hpq hqp, hq]
  intro a ha hc
  have hfr : a ∈ null.blocks ++ fr := (hperm null).mem_iff.mp (blocksAll_getIn hrhs a ha)
  have hnd := (hw.holds.perm (hthis.append_right l)).nodup
  exact List.disjoint_of_nodup_append (List.nodup_append.mp hnd).1 hc hfr

/-- The node behind a pointer of the target is freed with it. -/
theorem home_below (hw : WellFormed ns l h) (hp : getIn ns p = some this)
    (hq : getIn ns q = some rhs) (hne : p ≠ q) (hpq : p <+: q) : ∃ a, homeIn none ns q = some a ∧
    a ∈ this.blocks := by
  obtain ⟨s, rfl⟩ := hpq
  have hs : s ≠ [] := fun he => hne (by rw [he, List.append_nil])
  have hp0 : p ≠ [] := by
    rintro rfl
    cases hp
  rw [getIn_append p s ns hp0 hs, hp, Option.bind_some] at hq
  rw [homeIn_append p s ns none hp hs]
  have hsound := fun k hk => hw.sound k (subs_of_getIn p ns hp k hk)
  cases hm : this.metaNode with
  | none => exact absurd ((forall_subs hsound).2.placed hm) (children_ne_nil hq)
  | some k =>
    obtain ⟨a, ha, hor⟩ := homeIn_some s this.children k.block hq (forall_subs hsound).1
    refine ⟨a, ha, ?_⟩
    rw [blocks_eq]
    rcases hor with rfl | hor
    · exact List.mem_append_right _ (mem_own hm)
    · exact List.mem_append_left _ hor

theorem faithful_null (ht : SameText null this) : Faithful copyString this null h' where
  text := ht
  exact := by
    rintro m hm
    obtain rfl := List.mem_singleton.mp hm
    exact ⟨fun hs => absurd hs (lt_irrefl 0), fun k hk => by cases hk⟩
  disjoint a ha := absurd ha List.not_mem_nil
  reads := reads_scalar rfl rfl rfl
  alone _ := reads_scalar rfl rfl rfl

/-- A copying constructor always makes a copy; `CopyFrom` does exactly where its source stands apart
from its target. -/
theorem CopyFrom_faithful_iff (alloc : Allocator) (copyString : Bool) (hw : WellFormed ns l h)
    (hp : getIn ns p = some this) (hq : getIn ns q = some rhs) :
    FaithfulCopy copyString rhs (copy alloc copyString h rhs h) ∧
      (FaithfulCopy copyString rhs (CopyFrom alloc copyString ns p q h) ↔
        Apart alloc ns p q this rhs) := by
  have hsound := fun k hk => hw.sound k (subs_of_getIn q ns hq k hk)
  have hpaired := fun k hk => (hsound k hk).paired
  have hreads := fun k hk => hw.reads k (subs_of_getIn q ns hq k hk)
  have hmem := blocksAll_getIn hq
  refine ⟨?_, ?_⟩
  · obtain ⟨n', h', hcopy, hc⟩ := @copy_spec alloc copyString _ rhs h _ hpaired hreads hw.holds
    exact ⟨n', h', hcopy, hc.faithful (fun a ha => List.mem_append_left l (hmem a ha)) fun a ha =>
      (hw.holds.mem a).mp ha⟩
  · obtain ⟨h', l', hd, hl', hlive, hhome⟩ := destroy_target alloc hw hp
    rw [CopyFrom, hp, Option.bind_some, hq, Option.bind_some, hd, Option.bind_some, Apart]
    by_cases hne : p = q
    · subst hne
      obtain rfl : this = rhs := Option.some.inj (hp.symm.trans hq)
      have hall : (homeIn none ns p).all (· ∈ h') = true := by
        rw [Option.all_eq_true]
        exact fun a ha => decide_eq_true (hhome a ha)
      rw [if_pos rfl, if_pos hall, seen, if_pos rfl, Option.bind_some]
      constructor
      · rintro ⟨n', h'', hr, hf⟩
        cases hr
        exact hf.text
      · exact fun ht => ⟨null, h', rfl, faithful_null ht⟩
    · rw [if_neg hne]
      constructor
      · rintro ⟨n', h'', hr, -⟩
        split_ifs at hr with hall
        have hqp : ¬ q <+: p := fun hqp => copy_seen_above hw hp hq hne hqp hr
        refine ⟨hqp, fun hfree a ha => ?_⟩
        rw [seen_below hq hne hqp, Option.bind_some] at hr
        rcases List.mem_append.mp ha with ha | ha
        · have hah := (Option.all_eq_true _ _).mp hall a (Option.mem_toList.mp ha)
          exact ((hlive a).mp (of_decide_eq_true hah)).2 hfree
        · obtain ⟨m, hm, ham⟩ := List.mem_flatMap.mp ha
          have hrm := reads_of_copy rhs h' hpaired hr m hm
          exact ((hlive a).mp ((reads_iff (hsound m hm).placed).mp hrm a ham)).2 hfree
      · rintro ⟨hqp, hapart⟩
        have hall : (homeIn none ns q).all (· ∈ h') = true := by
          obtain ⟨_, _, -, -, hlive', hhome'⟩ := destroy_target alloc hw hq
          refine (Option.all_eq_true _ _).mpr fun a ha =>
            decide_eq_true ((hlive a).mpr ⟨((hlive' a).mp (hhome' a ha)).1, ?_⟩)
          exact fun hfree => hapart hfree a (List.mem_append_left _ (Option.mem_toList.mpr ha))
        have hvalid : ∀ m ∈ rhs.subs, m.Reads (· ∈ h') := by
          intro m hm
          refine (reads_iff (hsound m hm).placed).mpr fun a ha => (hlive a).mpr ⟨?_, fun hfree => ?_⟩
          · exact (reads_iff (hsound m hm).placed).mp (hreads m hm) a ha
          · exact hapart hfree a (List.mem_append_right _ (List.mem_flatMap.mpr ⟨m, hm, ha⟩))
        rw [if_pos hall, seen_below hq hne hqp, Option.bind_some]
        obtain ⟨n', h'', hcopy, hc⟩ := @copy_spec alloc copyString _ rhs h' l' hpaired hvalid hl'
        refine ⟨n', h'', hcopy,
          hc.faithful (fun a ha => (hl'.mem a).mp ((hlive a).mpr ⟨?_, fun hfree => ?_⟩)) fun a ha =>
          (hl'.mem a).mp ha⟩
        · exact hw.holds.mem_left (hmem a ha)
        · by_cases hpq : p <+: q
          · obtain ⟨b, hb, hbt⟩ := home_below hw hp hq hne hpq
            exact absurd hbt (hapart hfree b (List.mem_append_left _ (Option.mem_toList.mpr hb)))
          · exact blocks_disjoint hw hp hq hpq hqp a ha

end

/-- `{"x":{"y":1}}`, whose names stand in one block elsewhere. -/
def sample : DNode :=
  obj (some ⟨1, 16, none⟩) [str .kStringConst ⟨3, [120]⟩,
    obj (some ⟨2, 1, none⟩) [str .kStringConst ⟨3, [121]⟩, uint 1]]

theorem sound_scalar {n : DNode} (hc : n.children = []) (hs : n.Size = 0)
    (ho : ∀ mem ns, n ≠ obj mem ns) (ha : ∀ mem ns, n ≠ arr mem ns) : n.Sound :=
  ⟨fun _ => hc, by omega, fun mem ns he => absurd he (ho mem ns), fun m ns he => absurd he (ha _ ns)⟩

theorem sample_wellFormed : WellFormed [sample, null] [3] {1, 2, 3} where
  holds := ⟨by decide, fun a => by simp [blocksAll, subsAll, sample, subs, own, ownsBuffer]; omega⟩
  sound := by
    have hobj : ∀ m ns, 0 < m.cap → ns.length = 2 → (obj (some m) ns).Sound := by
      intro m ns hc hl
      refine ⟨fun h => absurd h (Option.some_ne_none m), ?_, fun _ _ he => ?_,
        fun _ _ he => by cases he⟩
      · rw [Size, hl]
        exact hc
      · cases he
        rw [hl]
        decide
    intro m hm
    simp only [subsAll, sample, subs, List.append_nil, List.mem_append, List.mem_singleton] at hm
    rcases hm with ((rfl | (rfl | rfl) | rfl) | rfl) | rfl
    all_goals first
      | exact hobj _ _ (by decide) rfl
      | exact sound_scalar rfl rfl (fun _ _ he => by cases he) fun _ _ he => by cases he
  reads := by
    intro m hm
    simp only [subsAll, sample, subs, List.append_nil, List.mem_append, List.mem_singleton] at hm
    rcases hm with ((rfl | (rfl | rfl) | rfl) | rfl) | rfl
    all_goals
      refine (reads_iff ?_).mpr (by decide)
      first
        | exact fun h => absurd h (Option.some_ne_none _)
        | exact fun _ => rfl

/-- To a node of another root the inner object is copied. -/
theorem CopyFrom_faithful_apart :
    FaithfulCopy false (obj (some ⟨2, 1, none⟩) [str .kStringConst ⟨3, [121]⟩, uint 1])
      (CopyFrom ⟨Source.next, true⟩ false [sample, null] [1] [0, 1] {1, 2, 3}) := by
  refine (CopyFrom_faithful_iff ⟨Source.next, true⟩ false sample_wellFormed (p := [1]) (q := [0, 1])
    rfl rfl).2.mpr ?_
  rw [Apart, if_neg (by decide)]
  exact ⟨by decide, fun _ _ _ => List.not_mem_nil⟩

/-- Where memory is freed and the source is a part of the target there is no copy: the source is
read after it is freed. -/
theorem CopyFrom_sub_node :
    ¬ ∀ (alloc : Allocator) (copyString : Bool) (ns : List DNode) (l : List ℕ) (h : Finset ℕ)
      (p q : List ℕ)
      (this rhs : DNode), WellFormed ns l h → getIn ns p = some this → getIn ns q = some rhs →
      FaithfulCopy copyString rhs (CopyFrom alloc copyString ns p q h) := by
  intro hall
  obtain ⟨n', h', hr, -⟩ :=
    hall ⟨Source.next, true⟩ false [sample, null] [3] {1, 2, 3} [0] [0, 1] _ _ sample_wellFormed
    rfl rfl
  cases hr

end DNode

end NodeCopy

end SonicJson
