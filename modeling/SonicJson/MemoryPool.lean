/-
# The pool allocator

`MemoryPoolAllocator` hands out blocks from chunks that it asks a base allocator
for. Addresses and sizes are numbers, and `sz` is the wrap of `size_t`; what the
base allocator answers is an argument of a call. A history (`State`) adds to the
pool the blocks its client holds; in every history in which no sum of sizes wraps
the blocks are safe (`pool_safe`).
-/
import SonicJson.Bytes

namespace SonicJson

namespace MemoryPool

/-- `size_t` arithmetic. -/
def sz (x : ℕ) : ℕ := x % 2 ^ 64

/-- `(x + 7) & ~7`. -/
def SONIC_ALIGN (x : ℕ) : ℕ := sz (x + 7) / 8 * 8

/-- `SONIC_ALIGN(sizeof(SharedData))`: two pointers, a counter and two flags. -/
def SIZEOF_SHARED_DATA : ℕ := 32

/-- `SONIC_ALIGN(sizeof(ChunkHeader))`: two sizes and a pointer. -/
def SIZEOF_CHUNK_HEADER : ℕ := 24

/-! ### Chunk policies -/

/-- The two chunk policies of `allocator.h`. -/
inductive Policy
  | SimpleChunkPolicy
  | AdaptiveChunkPolicy

/-- A policy with its state. -/
structure ChunkPolicy where
  policy : Policy
  min_chunk_size_ : ℕ

/-- `SONIC_ALLOCATOR_MAX_CHUNK_CAPACITY`, and what a shift by 64 comes to. -/
structure Config where
  maxCapacity : ℕ
  overshift : ℕ

variable (K : Config)

/-- `1ULL << (64 - __builtin_clzll(need))`. -/
def nextPower (need : ℕ) : ℕ := if need.size < 64 then 2 ^ need.size else K.overshift

/-- The capacity of a new chunk; the adaptive policy raises its minimum. -/
def ChunkPolicy.ChunkSize (cp : ChunkPolicy) (need : ℕ) : ℕ × ChunkPolicy :=
  let cp : ChunkPolicy := match cp.policy with
    | .SimpleChunkPolicy => cp
    | .AdaptiveChunkPolicy =>
      if cp.min_chunk_size_ < need ∧ cp.min_chunk_size_ < K.maxCapacity then
        { cp with min_chunk_size_ := min (nextPower K need) K.maxCapacity }
      else cp
  (max cp.min_chunk_size_ need, cp)

theorem ChunkPolicy.le_ChunkSize (cp : ChunkPolicy) (need : ℕ) : need ≤ (cp.ChunkSize K need).1 :=
  le_max_right _ _

/-! ### The allocator -/

/-- A chunk. `addr` is where its header lies and `bytes` what the base allocator gave for it, the header
included. -/
structure ChunkHeader where
  addr : ℕ
  capacity : ℕ
  size : ℕ
  bytes : ℕ

/-- Where the blocks of a chunk begin. -/
def ChunkHeader.buffer (c : ChunkHeader) : ℕ := c.addr + SIZEOF_CHUNK_HEADER

/-- `MemoryPoolAllocator` with what it shares: the head of the chunks and those behind it. -/
structure Pool where
  cp_ : ChunkPolicy
  chunkHead : ChunkHeader
  next : List ChunkHeader
  hadOom : Bool
  mem : ℕ → UInt8

/-- All chunks, the head first. -/
def Pool.chunks (s : Pool) : List ChunkHeader := s.chunkHead :: s.next

/-- `chunkHead->size += n`. -/
def Pool.grow (s : Pool) (n : ℕ) : Pool :=
  { s with chunkHead := { s.chunkHead with size := sz (s.chunkHead.size + n) } }

/-- A new chunk becomes the head; `base` is what the underlying allocator answers. -/
def Pool.AddChunk (s : Pool) (capacity : ℕ) (base : Option ℕ) : Option Pool :=
  base.map fun a =>
    { s with
      chunkHead := ⟨a, capacity, 0, sz (SIZEOF_CHUNK_HEADER + capacity)⟩
      next := s.chunkHead :: s.next }

/-- The end of `Malloc`: the rest of the chunk serves the block. -/
def Pool.serve (s : Pool) (size : ℕ) : Option ℕ × Pool :=
  (some (s.chunkHead.buffer + s.chunkHead.size), s.grow size)

/-- `base` is what the base allocator answers if it is asked. -/
def Pool.Malloc (s : Pool) (size : ℕ) (base : Option ℕ) : Option ℕ × Pool :=
  if size = 0 then (none, s)
  else
    let size := SONIC_ALIGN size
    if s.chunkHead.capacity < sz (s.chunkHead.size + size) then
      let r := s.cp_.ChunkSize K size
      match Pool.AddChunk { s with cp_ := r.2 } r.1 base with
      | none => (none, { s with cp_ := r.2, hadOom := true })
      | some s => s.serve size
    else s.serve size

/-- `n` bytes from `src` on are copied to `dst`. -/
def memcpy (mem : ℕ → UInt8) (dst src n : ℕ) : ℕ → UInt8 :=
  fun x => if dst ≤ x ∧ x < dst + n then mem (src + (x - dst)) else mem x

/-- `GetChunkBuffer(shared_) + chunkHead->size - n`. -/
def Pool.back (s : Pool) (n : ℕ) : ℕ := sz (s.chunkHead.buffer + s.chunkHead.size + 2 ^ 64 - n)

/-- A block that grows stays where it is if it is the last of the head chunk and there is space;
else it is copied. -/
def Pool.Realloc (s : Pool) (originalPtr : Option ℕ) (originalSize newSize : ℕ) (base : Option ℕ) :
    Option ℕ × Pool :=
  match originalPtr with
  | none => s.Malloc K newSize base
  | some p =>
    if newSize = 0 then (none, s)
    else
      let originalSize := SONIC_ALIGN originalSize
      let newSize := SONIC_ALIGN newSize
      if newSize ≤ originalSize then (some p, s)
      else
        let increment := newSize - originalSize
        if p = s.back originalSize ∧ sz (s.chunkHead.size + increment) ≤ s.chunkHead.capacity then
          (some p, s.grow increment)
        else
          match s.Malloc K newSize base with
          | (some q, s) => (some q, { s with mem := memcpy s.mem q p originalSize })
          | (none, s) => (none, { s with hadOom := true })

/-- The chunk that is left, and the chunks that are freed, when the list is popped down to its last. -/
def lastChunk : ChunkHeader → List ChunkHeader → ChunkHeader
  | c, [] => c
  | _, c :: cs => lastChunk c cs

/-- All chunks but the last are freed. -/
def Pool.Clear (s : Pool) : Pool :=
  { s with chunkHead := { lastChunk s.chunkHead s.next with size := 0 }, next := [] }

/-- The constructor without a buffer, when the base allocator has given `shared` for the shared data
and the first header. -/
def Pool.init (cp : ChunkPolicy) (shared : ℕ) (mem : ℕ → UInt8) : Pool :=
  ⟨cp, ⟨shared + SIZEOF_SHARED_DATA, 0, 0, SIZEOF_CHUNK_HEADER⟩, [], false, mem⟩

/-- `AlignBuffer`: the buffer and its size from the first multiple of 8 on. -/
def AlignBuffer (buf size : ℕ) : ℕ × ℕ := ((buf + 7) / 8 * 8, size - ((buf + 7) / 8 * 8 - buf))

/-- The constructor with a buffer of the user. -/
def Pool.initBuffer (cp : ChunkPolicy) (buf size : ℕ) (mem : ℕ → UInt8) : Pool :=
  let r := AlignBuffer buf size
  ⟨cp, ⟨r.1 + SIZEOF_SHARED_DATA, r.2 - SIZEOF_SHARED_DATA - SIZEOF_CHUNK_HEADER, 0,
    r.2 - SIZEOF_SHARED_DATA⟩, [], false, mem⟩

/-! ### Histories -/

/-- A block that the client holds, with the size it asked for. -/
structure Block where
  ptr : ℕ
  size : ℕ
  deriving DecidableEq

/-- The pool with its blocks that are live. -/
structure State where
  pool : Pool
  live : List Block

/-- The calls of a history. -/
inductive Op
  | Malloc (size : UInt64) (base : Option ℕ)
  | Realloc (b : Option Block) (newSize : UInt64) (base : Option ℕ)
  | Clear
  | write (addr : ℕ) (byte : UInt8)

/-- The blocks after a call has answered `r` to a request of `size` bytes. -/
def held (r : Option ℕ) (size : ℕ) (live : List Block) : List Block :=
  match r with
  | some p => ⟨p, size⟩ :: live
  | none => live

/-- A call: what it answers and the state after it. A block is given up where `Realloc` answers
another one for it, or is asked for no bytes. -/
def exec (s : State) : Op → Option ℕ × State
  | .Malloc size base =>
    let r := s.pool.Malloc K size.toNat base
    (r.1, ⟨r.2, held r.1 size.toNat s.live⟩)
  | .Realloc none newSize base =>
    let r := s.pool.Realloc K none 0 newSize.toNat base
    (r.1, ⟨r.2, held r.1 newSize.toNat s.live⟩)
  | .Realloc (some b) newSize base =>
    let r := s.pool.Realloc K (some b.ptr) b.size newSize.toNat base
    (r.1, ⟨r.2, if r.1 = none ∧ newSize ≠ 0 then s.live else held r.1 newSize.toNat (s.live.erase b)⟩)
  | .Clear => (none, ⟨s.pool.Clear, []⟩)
  | .write addr byte =>
    (none, { s with pool := { s.pool with mem := Function.update s.pool.mem addr byte } })

/-- Two ranges of addresses that share none. -/
def Apart (a n b m : ℕ) : Prop := a + n ≤ b ∨ b + m ≤ a

/-- The base allocator answers a request of `n` bytes with no block or with a new one. -/
def Fresh (s : Pool) (n : ℕ) (base : Option ℕ) : Prop :=
  ∀ a, base = some a → a % 8 = 0 ∧ 0 < a ∧ a + n ≤ 2 ^ 64 ∧ ∀ c ∈ s.chunks, Apart a n c.addr c.bytes

/-- What is asked of the base allocator for a block of `size` bytes. -/
def asked (s : Pool) (size : ℕ) : ℕ := SIZEOF_CHUNK_HEADER + (s.cp_.ChunkSize K (SONIC_ALIGN size)).1

/-- A call that the client may make, and the base allocator does what it should. -/
def Op.Ok (s : State) : Op → Prop
  | .Malloc size base => Fresh s.pool (sz (asked K s.pool size.toNat)) base
  | .Realloc none newSize base => Fresh s.pool (sz (asked K s.pool newSize.toNat)) base
  | .Realloc (some b) newSize base => b ∈ s.live ∧ Fresh s.pool (sz (asked K s.pool newSize.toNat)) base
  | .Clear => True
  | .write _ _ => True

/-- No sum that `Malloc` comes to wraps; the size of a chunk may where there is no memory for it. -/
def Pool.Fits (s : Pool) (size : ℕ) (base : Option ℕ) : Prop :=
  size = 0 ∨ size + 7 < 2 ^ 64 ∧ s.chunkHead.size + SONIC_ALIGN size < 2 ^ 64 ∧
    (s.chunkHead.capacity < s.chunkHead.size + SONIC_ALIGN size → base = none ∨ asked K s size < 2 ^ 64)

/-- No sum that the call comes to wraps. -/
def Op.Fits (s : State) : Op → Prop
  | .Malloc size base => s.pool.Fits K size.toNat base
  | .Realloc none newSize base => s.pool.Fits K newSize.toNat base
  | .Realloc (some b) newSize base =>
    let increment := SONIC_ALIGN newSize.toNat - SONIC_ALIGN b.size
    newSize = 0 ∨ newSize.toNat + 7 < 2 ^ 64 ∧
      (b.ptr = s.pool.back (SONIC_ALIGN b.size) → s.pool.chunkHead.size + increment < 2 ^ 64) ∧
      (SONIC_ALIGN b.size < SONIC_ALIGN newSize.toNat ∧
        ¬ (b.ptr = s.pool.back (SONIC_ALIGN b.size) ∧
          s.pool.chunkHead.size + increment ≤ s.pool.chunkHead.capacity) →
            s.pool.Fits K newSize.toNat base)
  | .Clear => True
  | .write _ _ => True

/-! ### Alignment -/

theorem sz_eq {x : ℕ} (h : x < 2 ^ 64) : sz x = x := Nat.mod_eq_of_lt h

theorem SONIC_ALIGN_eq {x : ℕ} (h : x + 7 < 2 ^ 64) : SONIC_ALIGN x = (x + 7) / 8 * 8 := by
  rw [SONIC_ALIGN, sz_eq h]

theorem SONIC_ALIGN_dvd (x : ℕ) : SONIC_ALIGN x % 8 = 0 := Nat.mul_mod_left _ _

theorem le_SONIC_ALIGN {x : ℕ} (h : x + 7 < 2 ^ 64) : x ≤ SONIC_ALIGN x ∧ SONIC_ALIGN x ≤ x + 7 := by
  rw [SONIC_ALIGN_eq h]
  omega

/-- An aligned size is aligned. -/
theorem SONIC_ALIGN_idem (x : ℕ) : SONIC_ALIGN (SONIC_ALIGN x) = SONIC_ALIGN x := by
  unfold SONIC_ALIGN sz
  omega

/-! ### The invariant -/

/-- A chunk that lies in what the base allocator gave for it. -/
structure ChunkHeader.Inv (c : ChunkHeader) : Prop where
  aligned : c.addr % 8 = 0
  pos : 0 < c.addr
  rounded : c.size % 8 = 0
  le : c.size ≤ c.capacity
  capacity : SIZEOF_CHUNK_HEADER + c.capacity ≤ c.bytes
  bound : c.addr + c.bytes ≤ 2 ^ 64

/-- Two chunks have no byte in common. -/
def ChunkHeader.Apart (c d : ChunkHeader) : Prop := MemoryPool.Apart c.addr c.bytes d.addr d.bytes

/-- The chunks are apart, and each is used within its capacity. -/
structure Pool.Inv (s : Pool) : Prop where
  chunk : ∀ c ∈ s.chunks, c.Inv
  apart : s.chunks.Pairwise ChunkHeader.Apart

/-- The block lies in the used part of a chunk, with all the bytes that were reserved for it. -/
def Block.In (b : Block) (c : ChunkHeader) : Prop :=
  c.buffer ≤ b.ptr ∧ b.ptr + SONIC_ALIGN b.size ≤ c.buffer + c.size

/-- The block lies in the used part of a chunk, at an aligned address. -/
structure Block.Inv (b : Block) (s : Pool) : Prop where
  aligned : b.ptr % 8 = 0
  pos : 0 < b.size
  small : b.size + 7 < 2 ^ 64
  within : ∃ c ∈ s.chunks, b.In c

/-- Two blocks have no byte in common. -/
def Block.Apart (a b : Block) : Prop :=
  MemoryPool.Apart a.ptr (SONIC_ALIGN a.size) b.ptr (SONIC_ALIGN b.size)

/-- The pool is sound, and the live blocks are sound and apart. -/
structure State.Inv (s : State) : Prop where
  pool : s.pool.Inv
  block : ∀ b ∈ s.live, b.Inv s.pool
  apart : s.live.Pairwise Block.Apart

theorem Apart.symm {a n b m : ℕ} (h : Apart a n b m) : Apart b m a n := Or.symm h

theorem Block.Apart.symm {a b : Block} (h : a.Apart b) : b.Apart a := MemoryPool.Apart.symm h

theorem Block.Inv.SONIC_ALIGN_pos {b : Block} {s : Pool} (h : b.Inv s) : 0 < SONIC_ALIGN b.size :=
  h.pos.trans_le (le_SONIC_ALIGN h.small).1

section
variable {K} {s s' : Pool} {live : List Block} {n size : ℕ} {base : Option ℕ}

theorem mem_chunks_head (s : Pool) : s.chunkHead ∈ s.chunks := List.mem_cons_self

/-- A block stays where its chunk does. -/
theorem Block.Inv.mono {b : Block} (h : b.Inv s)
    (hs : ∀ c ∈ s.chunks, ∃ c' ∈ s'.chunks, c'.addr = c.addr ∧ c.size ≤ c'.size) : b.Inv s' := by
  obtain ⟨c, hc, h1, h2⟩ := h.within
  obtain ⟨c', hc', ha, hsz⟩ := hs c hc
  refine ⟨h.aligned, h.pos, h.small, c', hc', ?_, ?_⟩
  · rw [ChunkHeader.buffer, ha]
    exact h1
  · rw [ChunkHeader.buffer] at h2 ⊢
    omega

/-- The head chunk grows within its capacity. -/
theorem Pool.Inv.grow (h : s.Inv) (hn : n % 8 = 0)
    (hroom : s.chunkHead.size + n ≤ s.chunkHead.capacity) :
    (s.grow n).Inv ∧ (s.grow n).chunkHead.size = s.chunkHead.size + n := by
  obtain ⟨h1, h2, h3, h4, h5, h6⟩ := h.chunk _ (mem_chunks_head s)
  have hsz : sz (s.chunkHead.size + n) = s.chunkHead.size + n := sz_eq (by
    rw [SIZEOF_CHUNK_HEADER] at h5
    omega)
  refine ⟨⟨fun c hc => ?_, ?_⟩, hsz⟩
  · rcases List.mem_cons.mp hc with rfl | hc
    · refine ⟨h1, h2, ?_, ?_, h5, h6⟩
      · show sz (s.chunkHead.size + n) % 8 = 0
        omega
      · show sz (s.chunkHead.size + n) ≤ s.chunkHead.capacity
        omega
    · exact h.chunk c (List.mem_cons_of_mem _ hc)
  · obtain ⟨ha, hp⟩ := List.pairwise_cons.mp h.apart
    exact List.pairwise_cons.mpr ⟨ha, hp⟩

theorem Block.Inv.grow {b : Block} (h : b.Inv s) (hsz : s.chunkHead.size ≤ (s.grow n).chunkHead.size) :
    b.Inv (s.grow n) := by
  refine h.mono fun c hc => ?_
  rcases List.mem_cons.mp hc with rfl | hc
  · exact ⟨_, mem_chunks_head _, rfl, hsz⟩
  · exact ⟨c, List.mem_cons_of_mem _ hc, rfl, le_rfl⟩

/-- A block that is held is apart from what follows the used part of the head chunk. -/
theorem Block.Inv.apart_head {b : Block} (h : b.Inv s) (hs : s.Inv)
    (hroom : s.chunkHead.size + n ≤ s.chunkHead.capacity) :
    MemoryPool.Apart (s.chunkHead.buffer + s.chunkHead.size) n b.ptr (SONIC_ALIGN b.size) := by
  obtain ⟨c, hc, h1, h2⟩ := h.within
  have hcap := (hs.chunk _ (mem_chunks_head s)).capacity
  rcases List.mem_cons.mp hc with rfl | hc'
  · exact .inr h2
  · have hle := (hs.chunk c hc).le
    have hcc := (hs.chunk c hc).capacity
    have hapart := List.rel_of_pairwise_cons hs.apart hc'
    unfold ChunkHeader.buffer at *
    rcases hapart with ha | ha
    · exact .inl (by omega)
    · exact .inr (by omega)

/-- **A new block**: the rest of the head chunk serves it. -/
theorem State.Inv.serve (h : State.Inv ⟨s, live⟩) (hpos : 0 < size) (hsmall : size + 7 < 2 ^ 64)
    (hroom : s.chunkHead.size + SONIC_ALIGN size ≤ s.chunkHead.capacity) :
    State.Inv ⟨s.grow (SONIC_ALIGN size), ⟨s.chunkHead.buffer + s.chunkHead.size, size⟩ :: live⟩ := by
  obtain ⟨hg, hsz⟩ := h.pool.grow (SONIC_ALIGN_dvd size) hroom
  have hc := h.pool.chunk _ (mem_chunks_head s)
  refine ⟨hg, fun b hb => ?_, List.pairwise_cons.mpr ⟨fun b hb => ?_, h.apart⟩⟩
  · rcases List.mem_cons.mp hb with rfl | hb
    · refine ⟨?_, hpos, hsmall, _, mem_chunks_head _, ?_, ?_⟩
      · have h1 := hc.aligned
        have h2 := hc.rounded
        simp only [ChunkHeader.buffer, SIZEOF_CHUNK_HEADER]
        omega
      · exact Nat.le_add_right _ _
      · rw [hsz, ← Nat.add_assoc]
        exact le_rfl
    · exact (h.block b hb).grow (by omega)
  · exact (h.block b hb).apart_head h.pool hroom

/-- A chunk is put before the others. -/
theorem State.Inv.AddChunk (h : State.Inv ⟨s, live⟩) {a capacity : ℕ} (cp : ChunkPolicy) (oom : Bool)
    (hf : Fresh s (SIZEOF_CHUNK_HEADER + capacity) (some a)) :
    State.Inv ⟨⟨cp, ⟨a, capacity, 0, SIZEOF_CHUNK_HEADER + capacity⟩, s.chunks, oom, s.mem⟩, live⟩ := by
  obtain ⟨h1, h2, h3, h4⟩ := hf a rfl
  refine ⟨⟨fun c hc => ?_, List.pairwise_cons.mpr ⟨h4, h.pool.apart⟩⟩, fun b hb => ?_, h.apart⟩
  · rcases List.mem_cons.mp hc with rfl | hc
    exacts [⟨h1, h2, rfl, Nat.zero_le _, le_rfl, h3⟩, h.pool.chunk c hc]
  · exact (h.block b hb).mono fun c hc => ⟨c, List.mem_cons_of_mem _ hc, rfl, le_rfl⟩

/-- Nothing but the policy and the flag has changed. -/
theorem State.Inv.congr (h : State.Inv ⟨s, live⟩) (hc : s'.chunks = s.chunks) :
    State.Inv ⟨s', live⟩ := by
  refine ⟨⟨fun c hm => h.pool.chunk c (hc ▸ hm), ?_⟩, fun b hb => ?_, h.apart⟩
  · show s'.chunks.Pairwise _
    rw [hc]
    exact h.pool.apart
  · exact (h.block b hb).mono fun c hm => ⟨c, hc ▸ hm, rfl, le_rfl⟩

/-- **`Malloc`** gives no block, or one that is apart from those that are held. -/
theorem State.Inv.Malloc (h : State.Inv ⟨s, live⟩) (hfit : s.Fits K size base)
    (hf : Fresh s (sz (asked K s size)) base) :
    State.Inv ⟨(s.Malloc K size base).2, held (s.Malloc K size base).1 size live⟩ ∧
      (s.Malloc K size base).2.mem = s.mem := by
  unfold Pool.Malloc
  by_cases h0 : size = 0
  · rw [if_pos h0]
    exact ⟨h, rfl⟩
  obtain h0' | ⟨hsmall, hsum, hbase⟩ := hfit
  · exact absurd h0' h0
  have hpos : 0 < size := Nat.pos_of_ne_zero h0
  rw [if_neg h0]
  dsimp only
  rw [sz_eq hsum]
  split
  · rename_i hfull
    cases base with
    | none => exact ⟨h.congr rfl, rfl⟩
    | some a =>
      have hask : asked K s size < 2 ^ 64 := by simpa using hbase hfull
      rw [sz_eq hask] at hf
      have hadd := h.AddChunk (s.cp_.ChunkSize K (SONIC_ALIGN size)).2 s.hadOom hf
      have hle := s.cp_.le_ChunkSize K (SONIC_ALIGN size)
      simp only [Pool.AddChunk, Option.map_some]
      rw [show sz (SIZEOF_CHUNK_HEADER + (s.cp_.ChunkSize K (SONIC_ALIGN size)).1) =
        SIZEOF_CHUNK_HEADER + (s.cp_.ChunkSize K (SONIC_ALIGN size)).1 from sz_eq hask]
      exact ⟨hadd.serve hpos hsmall (by simpa using hle), rfl⟩
  · exact ⟨h.serve hpos hsmall (by omega), rfl⟩

/-- The block that ends where the used part of the head chunk does lies in that chunk. -/
theorem Block.Inv.last {b : Block} (h : b.Inv s) (hs : s.Inv)
    (hb : b.ptr = s.back (SONIC_ALIGN b.size)) :
    b.ptr + SONIC_ALIGN b.size = s.chunkHead.buffer + s.chunkHead.size ∧
      s.chunkHead.buffer ≤ b.ptr := by
  obtain ⟨c, hc, h1, h2⟩ := h.within
  have hpos := h.SONIC_ALIGN_pos
  have hC := hs.chunk c hc
  have hH := hs.chunk _ (mem_chunks_head s)
  have c1 := hC.le
  have c2 := hC.capacity
  have c3 := hC.bound
  have d1 := hH.le
  have d2 := hH.capacity
  have d3 := hH.bound
  unfold Pool.back sz at hb
  unfold ChunkHeader.buffer at *
  unfold SIZEOF_CHUNK_HEADER at *
  have hend : b.ptr + SONIC_ALIGN b.size = s.chunkHead.addr + 24 + s.chunkHead.size := by omega
  refine ⟨hend, ?_⟩
  rcases List.mem_cons.mp hc with rfl | hc'
  · exact h1
  · have hapart := List.rel_of_pairwise_cons hs.apart hc'
    unfold ChunkHeader.Apart MemoryPool.Apart at hapart
    omega

/-- A block that is held grows in place. -/
theorem State.Inv.extend {b : Block} (h : State.Inv ⟨s, live⟩) (hb : b ∈ live)
    (hsmall : size + 7 < 2 ^ 64) (hlt : SONIC_ALIGN b.size < SONIC_ALIGN size)
    (hlast : b.ptr = s.back (SONIC_ALIGN b.size))
    (hroom : s.chunkHead.size + (SONIC_ALIGN size - SONIC_ALIGN b.size) ≤ s.chunkHead.capacity) :
    State.Inv ⟨s.grow (SONIC_ALIGN size - SONIC_ALIGN b.size), ⟨b.ptr, size⟩ :: live.erase b⟩ := by
  have hP : s.Inv := h.pool
  have hblock : ∀ x ∈ live, x.Inv s := h.block
  have hbi := hblock b hb
  obtain ⟨hend, hle⟩ := hbi.last hP hlast
  have hdvd : (SONIC_ALIGN size - SONIC_ALIGN b.size) % 8 = 0 := by
    have h1 := SONIC_ALIGN_dvd size
    have h2 := SONIC_ALIGN_dvd b.size
    omega
  obtain ⟨hg, hsz⟩ := hP.grow hdvd hroom
  have hsize : 0 < size := by
    have := le_SONIC_ALIGN hsmall
    by_contra h0
    have h1 : size = 0 := by omega
    subst h1
    exact absurd hlt (by simp [SONIC_ALIGN, sz])
  have hperm := List.perm_cons_erase hb
  have hpair : (b :: live.erase b).Pairwise Block.Apart :=
    (hperm.pairwise_iff fun hx => Block.Apart.symm hx).mp h.apart
  obtain ⟨hbapart, herase⟩ := List.pairwise_cons.mp hpair
  refine ⟨hg, fun x hx => ?_, List.pairwise_cons.mpr ⟨fun x hx => ?_, herase⟩⟩
  · rcases List.mem_cons.mp hx with rfl | hx
    · refine ⟨hbi.aligned, hsize, hsmall, _, mem_chunks_head _, hle, ?_⟩
      change b.ptr + SONIC_ALIGN size ≤
        s.chunkHead.buffer + (s.grow (SONIC_ALIGN size - SONIC_ALIGN b.size)).chunkHead.size
      omega
    · exact (hblock x (List.mem_of_mem_erase hx)).grow (by omega)
  · -- what is apart from the block, and from what follows the used part, is apart from both
    have h1 := (hblock x (List.mem_of_mem_erase hx)).apart_head hP hroom
    have h2 := hbapart x hx
    have h3 := (hblock x (List.mem_of_mem_erase hx)).SONIC_ALIGN_pos
    have h4 := hbi.SONIC_ALIGN_pos
    unfold Block.Apart MemoryPool.Apart at *
    dsimp only
    omega

/-- A block that is held is asked to be smaller. -/
theorem State.Inv.shrink {b : Block} (h : State.Inv ⟨s, live⟩) (hb : b ∈ live) (hpos : 0 < size)
    (hsmall : size + 7 < 2 ^ 64) (hle : SONIC_ALIGN size ≤ SONIC_ALIGN b.size) :
    State.Inv ⟨s, ⟨b.ptr, size⟩ :: live.erase b⟩ := by
  have hbi := h.block b hb
  have hpair : (b :: live.erase b).Pairwise Block.Apart :=
    ((List.perm_cons_erase hb).pairwise_iff fun hx => Block.Apart.symm hx).mp h.apart
  obtain ⟨hbapart, herase⟩ := List.pairwise_cons.mp hpair
  refine ⟨h.pool, fun x hx => ?_, List.pairwise_cons.mpr ⟨fun x hx => ?_, herase⟩⟩
  · rcases List.mem_cons.mp hx with rfl | hx
    · obtain ⟨c, hc, h1, h2⟩ := hbi.within
      refine ⟨hbi.aligned, hpos, hsmall, c, hc, h1, ?_⟩
      show b.ptr + SONIC_ALIGN size ≤ _
      omega
    · exact h.block x (List.mem_of_mem_erase hx)
  · have h2 := hbapart x hx
    unfold Block.Apart MemoryPool.Apart at *
    dsimp only
    omega

/-- Blocks that are given up. -/
theorem State.Inv.sublist {live' : List Block} (h : State.Inv ⟨s, live⟩) (hs : live'.Sublist live) :
    State.Inv ⟨s, live'⟩ :=
  ⟨h.pool, fun b hb => h.block b (hs.subset hb), h.apart.sublist hs⟩

theorem held_erase_sublist (b : Block) (r : Option ℕ) :
    (held r size (live.erase b)).Sublist (held r size live) := by
  cases r with
  | none => exact List.erase_sublist
  | some q => exact List.Sublist.cons_cons _ List.erase_sublist

theorem memcpy_of_lt (mem : ℕ → UInt8) {dst src m i : ℕ} (h : i < m) :
    memcpy mem dst src m (dst + i) = mem (src + i) := by
  unfold memcpy
  rw [if_pos ⟨Nat.le_add_right _ _, by omega⟩, Nat.add_sub_cancel_left]

/-- `Realloc` rounds the size that `Malloc` rounds again. -/
theorem Malloc_SONIC_ALIGN (h0 : 0 < size) (hsmall : size + 7 < 2 ^ 64) :
    s.Malloc K (SONIC_ALIGN size) base = s.Malloc K size base := by
  have := (le_SONIC_ALIGN hsmall).1
  have h1 : SONIC_ALIGN size ≠ 0 := by omega
  have h2 : size ≠ 0 := by omega
  simp only [Pool.Malloc, if_neg h1, if_neg h2, SONIC_ALIGN_idem]

/-- **`Realloc`** of a block that is held gives no block, or one with the bytes of the old one that
is apart from the others. -/
theorem State.Inv.Realloc {b : Block} (h : State.Inv ⟨s, live⟩) (hb : b ∈ live) (h0 : 0 < size)
    (hsmall : size + 7 < 2 ^ 64)
    (hlast : b.ptr = s.back (SONIC_ALIGN b.size) →
      s.chunkHead.size + (SONIC_ALIGN size - SONIC_ALIGN b.size) < 2 ^ 64)
    (hfit : SONIC_ALIGN b.size < SONIC_ALIGN size ∧ ¬ (b.ptr = s.back (SONIC_ALIGN b.size) ∧
      s.chunkHead.size + (SONIC_ALIGN size - SONIC_ALIGN b.size) ≤ s.chunkHead.capacity) →
        s.Fits K size base)
    (hf : Fresh s (sz (asked K s size)) base) :
    let r := s.Realloc K (some b.ptr) b.size size base
    State.Inv ⟨r.2, if r.1 = none then live else held r.1 size (live.erase b)⟩ ∧
      ∀ q, r.1 = some q → ∀ i < min b.size size, r.2.mem (q + i) = s.mem (b.ptr + i) := by
  intro r
  have hr : r = s.Realloc K (some b.ptr) b.size size base := rfl
  unfold Pool.Realloc at hr
  dsimp only at hr
  rw [if_neg (by omega)] at hr
  have kept : ∀ {q : ℕ} {s' : Pool}, s'.mem = s.mem → q = b.ptr →
      ∀ i < min b.size size, s'.mem (q + i) = s.mem (b.ptr + i) := fun hm hq i _ => by rw [hm, hq]
  by_cases hle : SONIC_ALIGN size ≤ SONIC_ALIGN b.size
  · rw [if_pos hle] at hr
    rw [hr]
    exact ⟨h.shrink hb h0 hsmall hle, fun q hq => kept rfl (Option.some.inj hq).symm⟩
  rw [if_neg hle] at hr
  by_cases hin : b.ptr = s.back (SONIC_ALIGN b.size) ∧
      s.chunkHead.size + (SONIC_ALIGN size - SONIC_ALIGN b.size) ≤ s.chunkHead.capacity
  · rw [if_pos ⟨hin.1, by rw [sz_eq (hlast hin.1)]; exact hin.2⟩] at hr
    rw [hr]
    exact ⟨h.extend hb hsmall (by omega) hin.1 hin.2, fun q hq => kept rfl (Option.some.inj hq).symm⟩
  rw [if_neg fun hc => hin ⟨hc.1, by rw [← sz_eq (hlast hc.1)]; exact hc.2⟩,
    Malloc_SONIC_ALIGN h0 hsmall] at hr
  obtain ⟨hI, hmem⟩ := h.Malloc (hfit ⟨by omega, hin⟩) hf
  rcases hm : s.Malloc K size base with ⟨_ | q, s'⟩
  · rw [hm] at hr hI
    rw [hr]
    exact ⟨hI.congr rfl, fun q hq => by simp at hq⟩
  · rw [hm] at hr hI hmem
    rw [hr]
    refine ⟨(hI.sublist (held_erase_sublist b (some q))).congr rfl, fun q' hq i hi => ?_⟩
    obtain rfl := Option.some.inj hq
    have hbs := (le_SONIC_ALIGN (h.block b hb).small).1
    have hmem' : s'.mem = s.mem := hmem
    show memcpy s'.mem q b.ptr (SONIC_ALIGN b.size) (q + i) = _
    rw [memcpy_of_lt s'.mem (by omega), hmem']

theorem lastChunk_mem : ∀ (c : ChunkHeader) (cs : List ChunkHeader), lastChunk c cs ∈ c :: cs
  | _, [] => List.mem_cons_self
  | _, d :: cs => List.mem_cons_of_mem _ (lastChunk_mem d cs)

theorem State.Inv.Clear (h : State.Inv ⟨s, live⟩) : State.Inv ⟨s.Clear, []⟩ := by
  have hc := h.pool.chunk _ (lastChunk_mem s.chunkHead s.next)
  refine ⟨⟨fun c hm => ?_, List.pairwise_singleton _ _⟩, fun b hb => absurd hb List.not_mem_nil,
    List.Pairwise.nil⟩
  obtain rfl := List.mem_singleton.mp hm
  exact ⟨hc.aligned, hc.pos, rfl, Nat.zero_le _, hc.capacity, hc.bound⟩

end

/-! ### Every history -/

/-- The blocks that are held lie in chunks, are aligned and share no byte; the chunks lie in what
the base allocator gave for them. -/
structure State.Safe (s : State) : Prop where
  aligned : ∀ b ∈ s.live, b.ptr % 8 = 0
  inside : ∀ b ∈ s.live, ∃ c ∈ s.pool.chunks, c.buffer ≤ b.ptr ∧ b.ptr + b.size ≤ c.buffer + c.capacity
  disjoint : s.live.Pairwise fun a b => Apart a.ptr a.size b.ptr b.size
  size : ∀ c ∈ s.pool.chunks, c.size ≤ c.capacity
  chunk : ∀ c ∈ s.pool.chunks, c.buffer + c.capacity ≤ c.addr + c.bytes

/-- What `Realloc` of a block answers has the first bytes of the block. -/
def Op.Keeps (s : State) : Op → Prop
  | .Realloc (some b) newSize base =>
    ∀ q, (exec K s (.Realloc (some b) newSize base)).1 = some q → ∀ i < min b.size newSize.toNat,
      (exec K s (.Realloc (some b) newSize base)).2.pool.mem (q + i) = s.pool.mem (b.ptr + i)
  | _ => True

/-- The pool right after its construction, by one of the two constructors. -/
def State.Init (s : State) : Prop :=
  s.live = [] ∧ ((∃ cp shared mem, s.pool = .init cp shared mem ∧ shared % 8 = 0 ∧
      shared + SIZEOF_SHARED_DATA + SIZEOF_CHUNK_HEADER ≤ 2 ^ 64) ∨
    ∃ cp buf size mem, s.pool = .initBuffer cp buf size mem ∧ buf + size ≤ 2 ^ 64 ∧
      SIZEOF_SHARED_DATA + SIZEOF_CHUNK_HEADER ≤ (AlignBuffer buf size).2)

/-- Calls that the client may make, one after the other, each of which satisfies `P`. -/
inductive Reaches (P : State → Op → Prop) (s₀ : State) : State → Prop
  | refl : Reaches P s₀ s₀
  | step {s : State} {op : Op} : Reaches P s₀ s → op.Ok K s → P s op → Reaches P s₀ (exec K s op).2

theorem State.Inv.safe {s : State} (h : s.Inv) : s.Safe := by
  refine ⟨fun b hb => (h.block b hb).aligned, fun b hb => ?_,
    h.apart.imp_of_mem fun {a b} ha hb hab => ?_, fun c hc => (h.pool.chunk c hc).le,
    fun c hc => ?_⟩
  · obtain ⟨c, hc, h1, h2⟩ := (h.block b hb).within
    have h3 := (le_SONIC_ALIGN (h.block b hb).small).1
    have h4 := (h.pool.chunk c hc).le
    exact ⟨c, hc, h1, by omega⟩
  · have h1 := (le_SONIC_ALIGN (h.block a ha).small).1
    have h2 := (le_SONIC_ALIGN (h.block b hb).small).1
    unfold Block.Apart MemoryPool.Apart at *
    omega
  · have h1 := (h.pool.chunk c hc).capacity
    rw [ChunkHeader.buffer]
    omega

theorem State.Init.inv {s : State} (h : s.Init) : s.Inv := by
  obtain ⟨pool, live⟩ := s
  obtain ⟨rfl, ⟨cp, shared, mem, rfl, h1, h2⟩ | ⟨cp, buf, size, mem, rfl, h1, h2⟩⟩ := h
  · refine ⟨⟨fun c hc => ?_, List.pairwise_singleton _ _⟩, fun b hb => absurd hb List.not_mem_nil,
      List.Pairwise.nil⟩
    obtain rfl := List.mem_singleton.mp hc
    refine ⟨?_, ?_, rfl, le_rfl, le_rfl, h2⟩ <;> dsimp only [Pool.init, SIZEOF_SHARED_DATA] <;> omega
  · refine ⟨⟨fun c hc => ?_, List.pairwise_singleton _ _⟩, fun b hb => absurd hb List.not_mem_nil,
      List.Pairwise.nil⟩
    obtain rfl := List.mem_singleton.mp hc
    simp only [AlignBuffer, SIZEOF_SHARED_DATA, SIZEOF_CHUNK_HEADER] at h2
    refine ⟨?_, ?_, rfl, Nat.zero_le _, ?_, ?_⟩ <;>
      simp only [Pool.initBuffer, AlignBuffer, SIZEOF_SHARED_DATA, SIZEOF_CHUNK_HEADER] <;> omega

/-- What one call preserves. -/
theorem State.Inv.exec {s : State} {op : Op} (h : s.Inv) (hok : op.Ok K s) (hfit : op.Fits K s) :
    (exec K s op).2.Inv ∧ op.Keeps K s := by
  obtain ⟨pool, live⟩ := s
  match op, hok, hfit with
  | .Malloc size base, hok, hfit => exact ⟨(h.Malloc hfit hok).1, trivial⟩
  | .Realloc none newSize base, hok, hfit => exact ⟨(h.Malloc hfit hok).1, trivial⟩
  | .Realloc (some b) newSize base, ⟨hb, hf⟩, hfit =>
    by_cases h0 : newSize = 0
    · have hexec : MemoryPool.exec K ⟨pool, live⟩ (.Realloc (some b) newSize base) =
          (none, ⟨pool, live.erase b⟩) := by
        simp only [MemoryPool.exec, h0, held]
        rfl
      refine ⟨?_, fun q hq => ?_⟩
      · rw [hexec]
        exact h.sublist List.erase_sublist
      · rw [hexec] at hq
        exact absurd hq (by simp)
    · have hpos : 0 < newSize.toNat := Nat.pos_of_ne_zero fun hc => h0 (UInt64.toNat_inj.mp hc)
      obtain h0' | ⟨hsmall, hlast, hfits⟩ := hfit
      · exact absurd h0' h0
      obtain ⟨h1, h2⟩ := h.Realloc hb hpos hsmall hlast hfits hf
      refine ⟨?_, h2⟩
      simpa only [MemoryPool.exec, h0, ne_eq, not_false_eq_true, and_true] using h1
  | .Clear, _, _ => exact ⟨h.Clear, trivial⟩
  | .write addr byte, _, _ => exact ⟨h.congr rfl, trivial⟩

/-! ### Where a sum wraps -/

section
variable {K} {s : Pool} {live : List Block} {size : ℕ} {base : Option ℕ}

/-- No block of a safe state reaches past the last address. -/
theorem State.Safe.bound {t : State} (h : t.Safe)
    (hc : ∀ c ∈ t.pool.chunks, c.addr + c.bytes ≤ 2 ^ 64) {b : Block} (hb : b ∈ t.live) :
    b.ptr + b.size ≤ 2 ^ 64 ∧ SIZEOF_CHUNK_HEADER ≤ b.ptr := by
  obtain ⟨c, hm, h1, h2⟩ := h.inside b hb
  have h3 := h.chunk c hm
  have h4 := hc c hm
  have h5 : SIZEOF_CHUNK_HEADER ≤ c.buffer := Nat.le_add_left _ _
  omega

theorem SONIC_ALIGN_wrap (h : 2 ^ 64 ≤ size + 7) (hs : size < 2 ^ 64) : SONIC_ALIGN size = 0 := by
  unfold SONIC_ALIGN sz
  omega

theorem chunks_grow_bound {n : ℕ} (h : s.Inv) : ∀ c ∈ (s.grow n).chunks, c.addr + c.bytes ≤ 2 ^ 64 := by
  intro c hc
  rcases List.mem_cons.mp hc with rfl | hc
  · exact (h.chunk _ (mem_chunks_head s)).bound
  · exact (h.chunk c (List.mem_cons_of_mem _ hc)).bound

/-- A request for which a sum of `Malloc` wraps is answered with an unsafe block, whatever else is
held. -/
theorem Malloc_unsafe (live : List Block) (h : s.Inv) (hs : size < 2 ^ 64) (hn : ¬ s.Fits K size base)
    (hf : Fresh s (sz (asked K s size)) base) :
    ¬ State.Safe ⟨(s.Malloc K size base).2, held (s.Malloc K size base).1 size live⟩ := by
  intro hsafe
  have hH := h.chunk _ (mem_chunks_head s)
  have d1 := hH.le
  have d2 := hH.capacity
  have d3 := hH.bound
  unfold Pool.Fits at hn
  push Not at hn
  obtain ⟨h0, hn⟩ := hn
  unfold SIZEOF_CHUNK_HEADER at d2
  have serve : (s.Malloc K size base) = s.serve (SONIC_ALIGN size) → size + 7 < 2 ^ 64 →
      2 ^ 64 ≤ s.chunkHead.size + SONIC_ALIGN size → False := by
    intro he hsmall hwrap
    rw [he] at hsafe
    have h1 := (hsafe.bound (chunks_grow_bound h) List.mem_cons_self).1
    have h2 := le_SONIC_ALIGN hsmall
    have h3 := hH.pos
    simp only [ChunkHeader.buffer, SIZEOF_CHUNK_HEADER] at h1
    omega
  unfold Pool.Malloc at serve hsafe
  rw [if_neg h0] at serve hsafe
  dsimp only at serve hsafe
  by_cases hsmall : size + 7 < 2 ^ 64
  swap
  · -- the size is rounded to nothing
    rw [SONIC_ALIGN_wrap (not_lt.mp hsmall) hs, Nat.add_zero, sz_eq (by omega), if_neg (by omega)]
      at hsafe
    have h1 := hsafe.bound (chunks_grow_bound h) List.mem_cons_self
    have h2 := hH.pos
    simp only [ChunkHeader.buffer, SIZEOF_CHUNK_HEADER] at h1
    omega
  by_cases hsum : s.chunkHead.size + SONIC_ALIGN size < 2 ^ 64
  swap
  · -- the sum of the fit test wraps, and the block seems to fit
    have h1 := SONIC_ALIGN_dvd size
    have h2 : sz (s.chunkHead.size + SONIC_ALIGN size) ≤ s.chunkHead.capacity := by
      unfold SONIC_ALIGN sz at *
      omega
    exact serve (if_neg (not_lt.mpr h2)) hsmall (not_lt.mp hsum)
  -- the size of the chunk wraps, and its capacity is more than there is
  obtain ⟨hfull, hbase, hask⟩ := hn hsmall hsum
  obtain ⟨a, rfl⟩ := Option.ne_none_iff_exists'.mp hbase
  rw [sz_eq hsum, if_pos hfull] at hsafe
  have h1 := hsafe.chunk _ (mem_chunks_head _)
  simp only [Pool.AddChunk, Option.map_some, Pool.serve, Pool.grow, ChunkHeader.buffer] at h1
  unfold asked at hask
  unfold sz at h1
  omega

theorem State.Safe.congr {t t' : State} (h : t.Safe) (hl : t'.live = t.live)
    (hc : t'.pool.chunks = t.pool.chunks) :
    t'.Safe := by
  obtain ⟨h1, h2, h3, h4, h5⟩ := h
  rw [← hl] at h1 h2 h3
  rw [← hc] at h2 h4 h5
  exact ⟨h1, h2, h3, h4, h5⟩

/-- A request for which a sum of `Realloc` wraps, too. -/
theorem Realloc_unsafe {b : Block} (h : State.Inv ⟨s, live⟩) (hb : b ∈ live) (h0 : 0 < size)
    (hs : size < 2 ^ 64) (hn : size + 7 < 2 ^ 64 → (b.ptr = s.back (SONIC_ALIGN b.size) →
      s.chunkHead.size + (SONIC_ALIGN size - SONIC_ALIGN b.size) < 2 ^ 64) →
      (SONIC_ALIGN b.size < SONIC_ALIGN size ∧ ¬ (b.ptr = s.back (SONIC_ALIGN b.size) ∧
        s.chunkHead.size + (SONIC_ALIGN size - SONIC_ALIGN b.size) ≤ s.chunkHead.capacity)) ∧
          ¬ s.Fits K size base)
    (hf : Fresh s (sz (asked K s size)) base) :
    let r := s.Realloc K (some b.ptr) b.size size base
    ¬ State.Safe ⟨r.2, if r.1 = none then live else held r.1 size (live.erase b)⟩ := by
  intro r hsafe
  have hr : r = s.Realloc K (some b.ptr) b.size size base := rfl
  have hP : s.Inv := h.pool
  have hbi : b.Inv s := h.block b hb
  have hH := hP.chunk _ (mem_chunks_head s)
  have d1 := hH.le
  have d2 := hH.pos
  unfold Pool.Realloc at hr
  dsimp only at hr
  rw [if_neg (by omega)] at hr
  by_cases hsmall : size + 7 < 2 ^ 64
  swap
  · -- the size is rounded to nothing, and the block seems large enough
    rw [SONIC_ALIGN_wrap (not_lt.mp hsmall) hs, if_pos (Nat.zero_le _)] at hr
    rw [hr] at hsafe
    have h1 := hsafe.bound (fun c hc => (hP.chunk c hc).bound) List.mem_cons_self
    simp only [SIZEOF_CHUNK_HEADER] at h1
    omega
  by_cases hlast : b.ptr = s.back (SONIC_ALIGN b.size) →
      s.chunkHead.size + (SONIC_ALIGN size - SONIC_ALIGN b.size) < 2 ^ 64
  swap
  · -- the sum of the test in place wraps
    push Not at hlast
    obtain ⟨hlast, hwrap⟩ := hlast
    have h1 := SONIC_ALIGN_dvd size
    have h2 := (le_SONIC_ALIGN hsmall).2
    have h3 := hbi.last hP hlast
    have hcap := hH.capacity
    have hbound := hH.bound
    have h4 : sz (s.chunkHead.size + (SONIC_ALIGN size - SONIC_ALIGN b.size)) ≤
        s.chunkHead.capacity := by
      unfold sz
      omega
    rw [if_neg (by omega), if_pos ⟨hlast, h4⟩] at hr
    rw [hr] at hsafe
    have h5 := (hsafe.bound (chunks_grow_bound hP) List.mem_cons_self).1
    simp only [ChunkHeader.buffer, SIZEOF_CHUNK_HEADER] at h3 h5
    omega
  obtain ⟨⟨hlt, hin⟩, hfit⟩ := hn hsmall hlast
  rw [if_neg (by omega), if_neg fun hc => hin ⟨hc.1, by rw [← sz_eq (hlast hc.1)]; exact hc.2⟩,
    Malloc_SONIC_ALIGN h0 hsmall] at hr
  rcases hm : s.Malloc K size base with ⟨_ | q, s'⟩
  · rw [hm] at hr
    rw [hr] at hsafe
    refine Malloc_unsafe live hP hs hfit hf ?_
    rw [hm]
    exact hsafe.congr rfl rfl
  · rw [hm] at hr
    rw [hr] at hsafe
    refine Malloc_unsafe (live.erase b) hP hs hfit hf ?_
    rw [hm]
    exact hsafe.congr rfl rfl

/-- **The condition is exact**: a call after which every block is safe is one in which no sum wraps. -/
theorem fits_of_safe {s : State} {op : Op} (h : s.Inv) (hok : op.Ok K s)
    (hsafe : (exec K s op).2.Safe) :
    op.Fits K s := by
  obtain ⟨pool, live⟩ := s
  match op, hok, hsafe with
  | .Malloc size base, hok, hsafe =>
    by_contra hn
    exact Malloc_unsafe live h.pool size.toNat_lt hn hok hsafe
  | .Realloc none newSize base, hok, hsafe =>
    by_contra hn
    exact Malloc_unsafe live h.pool newSize.toNat_lt hn hok hsafe
  | .Realloc (some b) newSize base, ⟨hb, hf⟩, hsafe =>
    by_cases h0 : newSize = 0
    · exact .inl h0
    have hpos : 0 < newSize.toNat := Nat.pos_of_ne_zero fun hc => h0 (UInt64.toNat_inj.mp hc)
    by_contra hn
    refine Realloc_unsafe h hb hpos newSize.toNat_lt (fun h1 h2 => ?_) hf ?_
    · by_contra hc
      exact hn (.inr ⟨h1, h2, fun h3 => by_contra fun h4 => hc ⟨h3, h4⟩⟩)
    · simpa only [MemoryPool.exec, h0, ne_eq, not_false_eq_true, and_true] using hsafe
  | .Clear, _, _ => trivial
  | .write _ _, _, _ => trivial

end

/-- **Safety of every history** in which no sum of sizes wraps; and the next call keeps the blocks
safe exactly when no sum wraps in it. -/
theorem pool_safe {s₀ s : State} (h₀ : s₀.Init) (h : Reaches K (Op.Fits K) s₀ s) :
    s.Safe ∧ ∀ op : Op, op.Ok K s → (op.Fits K s ↔ (exec K s op).2.Safe ∧ op.Keeps K s) := by
  have hinv : s.Inv := by
    induction h with
    | refl => exact h₀.inv
    | step _ hok hfit ih => exact (ih.exec K hok hfit).1
  refine ⟨hinv.safe, fun op hok => ⟨fun hfit => ?_, fun hsafe => fits_of_safe hinv hok hsafe.1⟩⟩
  obtain ⟨h1, h2⟩ := hinv.exec K hok hfit
  exact ⟨h1.safe, h2⟩

/-- `SONIC_ALLOCATOR_MAX_CHUNK_CAPACITY` as it is by default. -/
def defaults : Config := ⟨64 * 1024, 1⟩

/-- A pool whose first header lies at 4128. -/
def fresh : State := ⟨.init ⟨.SimpleChunkPolicy, 64 * 1024⟩ 4096 fun _ => 0, []⟩

theorem fresh_init : fresh.Init := ⟨rfl, .inl ⟨_, 4096, _, rfl, rfl, by decide⟩⟩

theorem pool_safe_malloc :
    (exec defaults fresh (.Malloc 5 (some 8192))).2.Safe ∧
      ∀ op : Op, op.Ok defaults (exec defaults fresh (.Malloc 5 (some 8192))).2 →
        (op.Fits defaults (exec defaults fresh (.Malloc 5 (some 8192))).2 ↔
          (exec defaults (exec defaults fresh (.Malloc 5 (some 8192))).2 op).2.Safe ∧
            op.Keeps defaults (exec defaults fresh (.Malloc 5 (some 8192))).2) := by
  refine pool_safe defaults fresh_init (.step .refl ?_ ?_)
  · intro a ha
    obtain rfl := Option.some.inj ha
    refine ⟨by decide, by decide, by decide, fun c hc => ?_⟩
    obtain rfl := List.mem_singleton.mp hc
    exact .inr (by decide)
  · exact .inr ⟨by decide, by decide, fun _ => .inr (by decide)⟩

/-- A request of 2⁶⁴ - 1 bytes is rounded to none, and answered with a block. -/
theorem pool_unsafe : fresh.Init ∧
    Reaches defaults (fun _ _ => True) fresh (exec defaults fresh (.Malloc 0xFFFFFFFFFFFFFFFF none)).2 ∧
    ¬ (exec defaults fresh (.Malloc 0xFFFFFFFFFFFFFFFF none)).2.Safe := by
  refine ⟨fresh_init, .step .refl (by rintro a ⟨⟩) trivial, fun h => ?_⟩
  have hexec : (exec defaults fresh (.Malloc 0xFFFFFFFFFFFFFFFF none)).2 =
      ⟨fresh.pool.grow 0, [⟨4152, 0xFFFFFFFFFFFFFFFF⟩]⟩ := rfl
  rw [hexec] at h
  obtain ⟨c, hc, -, h2⟩ := h.inside _ List.mem_cons_self
  obtain rfl := List.mem_singleton.mp hc
  exact absurd h2 (by decide)

end MemoryPool

end SonicJson
