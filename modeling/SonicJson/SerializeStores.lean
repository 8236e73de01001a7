/-
# Where the serializer writes

`SerializeImpl` over the memory of its buffer: the stack of bytes with its capacity, and
every routine that writes through a pointer with all it stores, whole vectors and the six
bytes of an escape included. No store passes the capacity that the `Grow` before it has
obtained (`SerializeImpl_inside`), for every tree, whatever is left in the buffer, and
also where the 32-bit counters have wrapped and the walk has run past the last child.
-/
import SonicJson.Quote
import SonicJson.Ftoa

namespace SonicJson

open RawBuffer Machine Cursor

/-! ### The room of the quoters -/

/-- The stores of a quoter end at `R` at most, with the bytes that are left; what it writes at is in
the buffer. -/
structure Roomy (R : ℕ) (st : QuoteState) : Prop where
  held : st.dst ≤ st.buf.length
  buf : st.buf.length ≤ R
  dst : st.dst + 6 * st.nb + 33 ≤ R

section
variable {flags : SerializeFlags} {mem : Bytes} {A : Arch} {R : ℕ} {st : QuoteState}

theorem store_length {buf bs : Bytes} {i : ℕ} (h : i ≤ buf.length) :
    (store buf i bs).length = max buf.length (i + bs.length) := by
  simp only [store, List.length_append, List.length_take, List.length_drop]
  omega

/-- A store for `m` bytes of the string, of which `n` count. -/
theorem Roomy.store (h : Roomy R st) {bs : Bytes} {src m n : ℕ} (hm : m ≤ st.nb)
    (hb : bs.length ≤ 6 * st.nb + 33) (hn : n ≤ bs.length) (h6 : n ≤ 6 * m) :
    Roomy R ⟨src, st.nb - m, Cursor.store st.buf st.dst bs, st.dst + n⟩ := by
  obtain ⟨h1, h2, h3⟩ := h
  have hlen := @store_length _ bs _ h1
  refine ⟨?_, ?_, ?_⟩
  · dsimp only
    omega
  · dsimp only
    omega
  · dsimp only
    omega

/-- A block is copied, and `n` of its bytes are kept. -/
theorem Roomy.copy (h : Roomy R st) {n : ℕ} (hn : n ≤ st.nb) (hV : n ≤ A.VEC_LEN) :
    Roomy R ((st.copy mem A).MOVE_N_CHARS n) := by
  have hlen : (load mem st.src A.VEC_LEN).length = A.VEC_LEN := by simp [load]
  have := A.VEC_LEN_le
  exact h.store hn (by omega) (by omega) (by omega)

theorem quote_tab_room (u : Bool) (a : UInt8) :
    (quote_tab u a).1 ≤ 6 ∧ (quote_tab u a).2.length ≤ 6 := by
  refine forall_byte (P := fun a => (quote_tab u a).1 ≤ 6 ∧ (quote_tab u a).2.length ≤ 6) ?_ a
  cases u <;> decide +kernel

theorem Roomy.escapeOne (h : Roomy R st) (hnb : 0 < st.nb) : Roomy R (escapeOne flags mem st) := by
  unfold SonicJson.escapeOne
  dsimp only
  by_cases hq : (quote_tab flags.kSerializeUnicodeEscapeUppercase (rd mem st.src)).1 ≠ 0
  · rw [if_pos hq]
    obtain ⟨h1, h2⟩ := quote_tab_room flags.kSerializeUnicodeEscapeUppercase (rd mem st.src)
    exact h.store hnb (by omega) (quote_tab_le _ _) (by omega)
  rw [if_neg hq]
  by_cases hf : flags.kSerializeEscapeEmoji = true
  · rw [if_pos hf]
    by_cases h4 : st.nb < 4
    · rw [if_pos h4]
      exact h.store hnb (by simp) (by simp) (by decide)
    · rw [if_neg h4]
      have h12 : ∀ a b c d, (surrogates flags.kSerializeUnicodeEscapeUppercase a b c d).length =
        12 := fun _ _ _ _ => rfl
      exact h.store (by omega) (by rw [h12]; omega) (by rw [h12]) (by decide)
  · rw [if_neg hf]
    exact h

theorem Roomy.DoEscape :
    ∀ (fuel : ℕ) {st : QuoteState}, Roomy R st → 0 < st.nb → Roomy R (DoEscape flags mem fuel st)
  | 0, _, h, _ => h
  | fuel + 1, st, h, hnb => by
    have h1 : Roomy R (SonicJson.escapeOne flags mem st) := h.escapeOne hnb
    rw [SonicJson.DoEscape]
    split
    · exact h1
    split
    · exact Roomy.DoEscape fuel h1 (by omega)
    split
    · exact h1
    · exact Roomy.DoEscape fuel h1 (by omega)

theorem Roomy.quoteLoop :
    ∀ (fuel : ℕ) {st : QuoteState}, Roomy R st → Roomy R (common.quoteLoop flags mem fuel st)
  | 0, _, h => h
  | fuel + 1, st, h => by
    rw [common.quoteLoop]
    dsimp only
    split
    · split
      · exact Roomy.quoteLoop fuel (h.store (by omega) (by simp) (by simp) (by decide))
      · exact Roomy.quoteLoop fuel (h.DoEscape _ (by omega))
    · exact h

theorem Roomy.quoteBlocks :
    ∀ (fuel : ℕ) {st : QuoteState}, Roomy R st → Roomy R (quoteBlocks flags mem A fuel st)
  | 0, _, h => h
  | fuel + 1, st, h => by
    rw [SonicJson.quoteBlocks]
    dsimp only
    split
    swap
    · exact h
    split
    · have hc : Bits.ctz (GetEscapMask flags mem A st.src) < A.VEC_LEN := by
        have hbit := Bits.getLsbD_ctz ‹GetEscapMask flags mem A st.src ≠ 0›
        rw [GetEscapMask, getLsbD_vecMask, Bool.and_eq_true, decide_eq_true_eq] at hbit
        exact hbit.1
      refine Roomy.quoteBlocks fuel ((h.copy (by omega) hc.le).DoEscape _ ?_)
      show 0 < st.nb - _
      omega
    · exact Roomy.quoteBlocks fuel (h.copy (by omega) le_rfl)

/-- The first bit of the mask of the tail is that of a byte that is left. -/
theorem ctz_tail {x : BitVec 32} (h : x &&& (A.VEC_FULL_MASK >>> (A.VEC_LEN - st.nb)) ≠ 0) :
    Bits.ctz (x &&& (A.VEC_FULL_MASK >>> (A.VEC_LEN - st.nb))) < st.nb ∧
      Bits.ctz (x &&& (A.VEC_FULL_MASK >>> (A.VEC_LEN - st.nb))) ≤ A.VEC_LEN := by
  have hbit := Bits.getLsbD_ctz h
  rw [BitVec.getLsbD_and, BitVec.getLsbD_ushiftRight, Arch.VEC_FULL_MASK, Bits.getLsbD_ofPred] at hbit
  simp only [Bool.and_eq_true, decide_eq_true_eq] at hbit
  unfold Arch.VEC_FULL_MASK
  omega

theorem escapeOne_nb : (escapeOne flags mem st).nb ≤ st.nb := by
  unfold escapeOne
  dsimp only
  split_ifs
  · exact Nat.sub_le _ _
  · exact Nat.sub_le _ _
  · exact Nat.sub_le _ _
  · exact le_rfl

theorem DoEscape_nb : ∀ (fuel : ℕ) {st : QuoteState}, (DoEscape flags mem fuel st).nb ≤ st.nb
  | 0, _ => le_rfl
  | fuel + 1, st => by
    have h := @escapeOne_nb flags mem st
    rw [DoEscape]
    split_ifs
    · exact h
    · exact (DoEscape_nb fuel).trans h
    · exact h
    · exact (DoEscape_nb fuel).trans h

theorem Roomy.quoteTail : ∀ (fuel : ℕ) {st : QuoteState}, Roomy R st → st.nb ≤ A.VEC_LEN →
    Roomy R (quoteTail flags mem A fuel st)
  | 0, _, h, _ => h
  | fuel + 1, st, h, hV => by
    rw [SonicJson.quoteTail]
    dsimp only
    split
    swap
    · exact h
    split
    · obtain ⟨h1, h2⟩ := ctz_tail ‹_›
      refine Roomy.quoteTail fuel ((h.copy h1.le h2).DoEscape _ (Nat.sub_pos_of_lt h1)) ?_
      exact ((DoEscape_nb _).trans (Nat.sub_le _ _)).trans hV
    · obtain ⟨h1, h2, h3⟩ := @Roomy.copy mem A R st h _ le_rfl hV
      exact ⟨h1, h2,
        h3.trans' (by show st.dst + st.nb + 6 * 0 + 33 ≤ st.dst + st.nb + 6 * _ + 33; omega)⟩

/-- What the closing quote makes of it. -/
theorem Roomy.close (h : Roomy R st) : (Cursor.store st.buf st.dst [Ch.quote]).length ≤ R ∧
    st.dst + 1 + 32 ≤ R := by
  obtain ⟨h1, h2, h3⟩ := h
  rw [store_length h1, List.length_singleton]
  omega

theorem Roomy.start {src nb dst : ℕ} {buf : Bytes} (hdst : dst ≤ buf.length)
    (hbuf : buf.length ≤ dst + (6 * nb + 34)) :
    Roomy (dst + (6 * nb + 34)) ⟨src, nb, Cursor.store buf dst [Ch.quote], dst + 1⟩ := by
  have hlen := @store_length _ [Ch.quote] _ hdst
  rw [List.length_singleton] at hlen
  refine ⟨?_, ?_, ?_⟩
  · dsimp only
    omega
  · dsimp only
    omega
  · dsimp only
    omega

theorem common.Quote_room {src nb dst : ℕ} {buf : Bytes} (hdst : dst ≤ buf.length)
    (hbuf : buf.length ≤ dst + (6 * nb + 34)) :
    (common.Quote flags mem src nb buf dst).1.length ≤ dst + (6 * nb + 34) ∧
      (common.Quote flags mem src nb buf dst).2 ≤ dst + (6 * nb + 2) := by
  have hroom : Roomy _ (common.quoteLoop flags mem nb ⟨src, nb, Cursor.store buf dst [Ch.quote],
    dst + 1⟩) :=
    (Roomy.start hdst hbuf).quoteLoop nb
  obtain ⟨h1, h2⟩ := hroom.close
  refine ⟨h1, ?_⟩
  show _ + 1 ≤ _
  omega

/-- **The room of the vector quoter**: what it stores ends 34 bytes behind six for each byte of the
string, at most. -/
theorem Quote_room {direct : ℕ → Bool} {src nb dst : ℕ} {buf : Bytes} (hmem : src + nb ≤ mem.length)
    (hdst : dst ≤ buf.length) (hbuf : buf.length ≤ dst + (6 * nb + 34)) :
    (Quote flags mem A direct src nb buf dst).1.length ≤ dst + (6 * nb + 34) ∧
      (Quote flags mem A direct src nb buf dst).2 ≤ dst + (6 * nb + 2) := by
  have hq := quoting_start mem hmem hdst
  obtain ⟨v, s', h1, -, h3⟩ := @quoteBlocks_spec flags _ A _ nb _ _ _ hq (hq.nb ▸ le_rfl)
  have hroom : Roomy _ (quoteBlocks flags mem A nb ⟨src, nb, store buf dst [Ch.quote], dst + 1⟩) :=
    (Roomy.start hdst hbuf).quoteBlocks nb
  have hclose : ∀ {st : QuoteState}, Roomy (dst + (6 * nb + 34)) st →
      (store st.buf st.dst [Ch.quote]).length ≤ dst + (6 * nb + 34) ∧
        st.dst + 1 ≤ dst + (6 * nb + 2) := by
    intro st h
    obtain ⟨k1, k2⟩ := h.close
    exact ⟨k1, by omega⟩
  unfold Quote
  dsimp only
  generalize quoteBlocks flags mem A nb ⟨src, nb, store buf dst [Ch.quote], dst + 1⟩ = st at h1 hroom ⊢
  have hnb : st.nb ≤ A.VEC_LEN := by
    have := h1.nb
    omega
  apply hclose
  split
  · split
    · exact hroom.quoteTail _ hnb
    · exact Roomy.quoteTail _ ⟨hroom.held, hroom.buf, hroom.dst⟩ hnb
  · exact hroom

end

/-! ### The stack of bytes -/

/-- `internal::Stack`: the memory from `buf_` on, the end of what is pushed, and the capacity.
`inside` says that no store that does not look at the capacity has ended behind it, and that nothing
was popped from an empty stack. -/
structure Stack where
  mem : ℕ → UInt8
  top : ℕ
  cap : ℕ
  inside : Bool

namespace Stack

variable (s : Stack)

def Clear : Stack := { s with top := 0 }

/-- The bytes are kept; those behind the old capacity are whatever they are. -/
def Reserve (new_cap : ℕ) : Stack := if new_cap < s.cap then s else { s with cap := new_cap }

def Grow (cnt : ℕ) : Stack :=
  if s.cap ≤ s.top + cnt then
    if 2 * s.cap < s.top + cnt then
      let needed := s.top + cnt
      s.Reserve (needed + needed / 2)
    else s.Reserve (s.cap * 2)
  else s

/-- A routine writes through `End()`; its memory says where the furthest store has ended. -/
def atEnd (f : Out → ℕ → Out × ℕ) : Stack × ℕ :=
  let r := f ⟨s.mem, 0⟩ s.top
  ({ s with mem := r.1.mem, inside := s.inside && decide (r.1.top ≤ s.cap) }, r.2)

def PushSizeUnsafe (n : ℕ) : Stack := { s with top := s.top + n }

/-- `memcpy(End(), bs)`. -/
def copyToEnd (bs : Bytes) : Stack := (s.atEnd fun o i => (o.put i bs, i)).1

def PushUnsafe (bs : Bytes) : Stack := (s.copyToEnd bs).PushSizeUnsafe bs.length

def Push5_8 (bytes8 : Bytes) (n : ℕ) : Stack := ((s.Grow 8).copyToEnd bytes8).PushSizeUnsafe n

def Pop (n : ℕ) : Stack := { s with top := s.top - n, inside := s.inside && decide (n ≤ s.top) }

end Stack

/-! ### The walk -/

/-- What the machine adds to the tree: which quoter is dispatched to (the vector one with the
strings whose tail may be read in place), the bytes behind each string, and what stands behind the
last child. -/
structure Machinery where
  vector : Option (Arch × (Bytes → ℕ → Bool))
  behind : Bytes → Bytes
  beyond : Node

/-- The quoter that is dispatched to. -/
def Machinery.Quote (M : Machinery) (flags : SerializeFlags) (sv : Bytes) (buf : Bytes) (dst : ℕ) :
    Bytes × ℕ :=
  match M.vector with
  | none => common.Quote flags (sv ++ M.behind sv) 0 sv.length buf dst
  | some (A, direct) => SonicJson.Quote flags (sv ++ M.behind sv) A (direct sv) 0 sv.length buf dst

/-- The same through a pointer: the bytes up to `i` are the buffer it is given, which it makes as
long as it needs. -/
def Machinery.QuoteTo (M : Machinery) (flags : SerializeFlags) (sv : Bytes) (o : Out) (i : ℕ) :
    Out × ℕ :=
  let r := M.Quote flags sv (o.read 0 i) i
  (⟨fun j => r.1[j]?.getD (o.mem j), max o.top r.1.length⟩, r.2)

/-- The locals of `SerializeImpl`, over the memory of the buffer. -/
structure StoreState where
  wb : Stack
  stk : List ParentCtx
  node : List Node
  is_obj : Bool
  val_cnt : ℕ
  member_cnt : ℕ

namespace SerializeStores

open Serialize (isObject size single)

variable (M : Machinery) (flags : SerializeFlags) (is_single : Bool)

/-- After a value. -/
def next (s : StoreState) : SerLabel × StoreState :=
  let s := { s with val_cnt := pred32 s.val_cnt }
  if s.val_cnt ≠ 0 then (.val_begin, { s with node := s.node.tail }) else (.scope_end, s)

/-- What is left to do for a number of `rn` bytes that is written. -/
def pushNumber (s : StoreState) (wb : Stack) (rn : ℕ) : SerLabel × StoreState :=
  next { s with wb := (wb.PushSizeUnsafe rn).PushUnsafe [Ch.comma] }

/-- The literals for what is not finite. -/
def infNan (d : Double) : Option Bytes :=
  if flags.kSerializeInfNan then
    if isinf d then some (if signbit d then sNegInfinity else sInfinity)
    else if isnan d then some (if signbit d then sNegNaN else sNaN)
    else none
  else none

/-- A container: the empty ones are printed at once, the others entered. -/
def container (is_obj_nxt : Bool) (size : ℕ) (node : Node) (s : StoreState) : SerLabel × StoreState :=
  let s := { s with wb := s.wb.Grow 3 }
  let val_cnt_nxt := size % 2 ^ 32
  if val_cnt_nxt = 0 then
    next { s with
      wb := ((s.wb.PushUnsafe [bracket Ch.lbrack is_obj_nxt]).PushUnsafe
        [bracket Ch.rbrack is_obj_nxt]).PushUnsafe [Ch.comma] }
  else if s.is_obj ∧ ((s.member_cnt <<< 1) % 2 ^ 32 + 1) % 2 ^ 32 ≠ s.val_cnt
    then (.done .kSerErrorInvalidObjKey, s)
  else
    (.val_begin, { s with
      stk := ⟨(s.val_cnt <<< 1) % 2 ^ 32 ||| s.is_obj.toNat, s.node⟩ :: s.stk
      val_cnt := (val_cnt_nxt <<< is_obj_nxt.toNat) % 2 ^ 32
      member_cnt := val_cnt_nxt
      is_obj := is_obj_nxt
      wb := s.wb.PushUnsafe [bracket Ch.lbrack is_obj_nxt]
      node := children node })

def val_begin (s : StoreState) : SerLabel × StoreState :=
  match s.node.headD M.beyond with
  | .str sv =>
    let is_key := s.is_obj && s.val_cnt % 2 == 0
    let r := (s.wb.Grow (sv.length * 6 + 32 + 3)).atEnd (M.QuoteTo flags sv)
    let rn := r.2 - r.1.top
    next { s with
      wb := (r.1.PushSizeUnsafe rn).PushUnsafe [if is_key then Ch.colon else Ch.comma]
      member_cnt := if is_key then pred32 s.member_cnt else s.member_cnt }
  | .sint v =>
    let r := (s.wb.Grow 33).atEnd fun o i => Itoa.I64toa o i (Int.bmod v (2 ^ 64))
    pushNumber s r.1 (r.2 - r.1.top)
  | .uint v =>
    let r := (s.wb.Grow 33).atEnd fun o i => Itoa.U64toa o i (v % 2 ^ 64)
    pushNumber s r.1 (r.2 - r.1.top)
  | .real d =>
    let r := (s.wb.Grow 33).atEnd fun o i => Ftoa.F64toa flags o i d
    if r.2 ≤ 0 then
      match infNan flags d with
      | none => (.done .kSerErrorInfinity, { s with wb := r.1 })
      | some b => pushNumber s (r.1.copyToEnd b) b.length
    else pushNumber s r.1 r.2
  | .numStr sv => pushNumber s (((s.wb.Grow 33).Grow (sv.length + 1)).PushUnsafe sv) 0
  | .bool b =>
    next { s with wb :=
      if b then s.wb.Push5_8 (sTrue ++ [Ch.comma, Ch.space, Ch.space, Ch.space]) 5
      else s.wb.Push5_8 (sFalse ++ [Ch.comma, Ch.space, Ch.space]) 6 }
  | .null => next { s with wb := s.wb.Push5_8 (sNull ++ [Ch.comma, Ch.space, Ch.space, Ch.space]) 5 }
  | .obj ms => container true ms.length (.obj ms) s
  | .arr vs => container false vs.length (.arr vs) s
  | .raw sv => next { s with wb := ((s.wb.Grow (sv.length + 1)).PushUnsafe sv).PushUnsafe [Ch.comma] }

def scope_end (s : StoreState) : SerLabel × StoreState :=
  let s := { s with wb := s.wb.Pop 1 }
  if s.member_cnt ≠ 0 ∧ s.is_obj then (.done .kSerErrorInvalidObjKey, s)
  else
    let s := { s with
      wb := ((s.wb.Grow 2).PushUnsafe [bracket Ch.rbrack s.is_obj]).PushUnsafe [Ch.comma] }
    match s.stk with
    | [] => (.done .kErrorNone, { s with wb := s.wb.Pop (1 + is_single.toNat) })
    | parent :: stk =>
      let val_cnt := (parent.len >>> 1) % 2 ^ 32
      let s := { s with
        stk := stk
        is_obj := parent.len % 2 == 1
        member_cnt := pred32 val_cnt >>> 1
        val_cnt := pred32 val_cnt
        node := parent.ptr.tail }
      if 0 < s.val_cnt then (.val_begin, s) else (.scope_end, s)

def step : SerLabel × StoreState → Option (SerLabel × StoreState)
  | (.val_begin, s) => some (val_begin M flags s)
  | (.scope_end, s) => some (scope_end is_single s)
  | (.done _, _) => none

/-- From the beginning of `SerializeImpl` to its labels; no store has been made yet. -/
def start (node : Node) (wb : Stack) : SerLabel × StoreState :=
  let wb := { wb with inside := true }
  let estimate := size node * 18 + 64
  let is_obj := isObject node
  let wb := if flags.kSerializeAppendBuffer then wb.Reserve (estimate + wb.top)
    else wb.Clear.Reserve estimate
  if single node then (.val_begin, ⟨wb, [], [node], is_obj, 1, 0⟩)
  else (.val_begin, ⟨wb.PushUnsafe [bracket Ch.lbrack is_obj], [], children node, is_obj,
    (size node <<< is_obj.toNat) % 2 ^ 32, size node % 2 ^ 32⟩)

end SerializeStores

/-! ### Every store is inside -/

namespace Stack

variable {s : Stack} {n : ℕ} {bs : Bytes} {f : Out → ℕ → Out × ℕ}

/-- There is space for `n` bytes. -/
def Room (s : Stack) (n : ℕ) : Prop := s.top + n ≤ s.cap

theorem le_Reserve (n : ℕ) : n ≤ (s.Reserve n).cap := by
  unfold Reserve
  split
  · exact Nat.le_of_lt ‹_›
  · exact le_rfl

@[simp] theorem Reserve_top : (s.Reserve n).top = s.top := by
  unfold Reserve
  split <;> rfl

@[simp] theorem Reserve_inside : (s.Reserve n).inside = s.inside := by
  unfold Reserve
  split <;> rfl

@[simp] theorem Grow_top : (s.Grow n).top = s.top := by
  unfold Grow
  dsimp only
  split_ifs
  · exact Reserve_top
  · exact Reserve_top
  · rfl

@[simp] theorem Grow_inside : (s.Grow n).inside = s.inside := by
  unfold Grow
  dsimp only
  split_ifs
  · exact Reserve_inside
  · exact Reserve_inside
  · rfl

/-- **Both policies obtain enough**: half more than is needed where doubling is too little, and else
double. -/
theorem Grow_room (s : Stack) (n : ℕ) : Room (s.Grow n) n := by
  rw [Room, Grow_top]
  unfold Grow
  dsimp only
  split_ifs with h1 h2
  · have := @le_Reserve s (s.top + n + (s.top + n) / 2)
    omega
  · have := @le_Reserve s (s.cap * 2)
    omega
  · omega

/-- A routine whose stores end in the room. -/
theorem Room.atEnd (h : Room s n) (hf : (f ⟨s.mem, 0⟩ s.top).1.top ≤ s.top + n) :
    (s.atEnd f).1.inside = s.inside ∧ Room (s.atEnd f).1 n := by
  unfold Room at h
  refine ⟨?_, h⟩
  unfold Stack.atEnd
  dsimp only
  rw [decide_eq_true (by omega), Bool.and_true]

theorem Room.copyToEnd (h : Room s n) (hs : bs.length ≤ n) :
    (s.copyToEnd bs).inside = s.inside ∧ Room (s.copyToEnd bs) n := by
  refine h.atEnd ?_
  show max 0 (s.top + bs.length) ≤ _
  omega

theorem Room.push (h : Room s n) (hs : bs.length ≤ n) :
    (s.PushUnsafe bs).inside = s.inside ∧ Room (s.PushUnsafe bs) (n - bs.length) := by
  refine ⟨(h.copyToEnd hs).1, ?_⟩
  unfold Room at h ⊢
  show s.top + bs.length + (n - bs.length) ≤ s.cap
  omega

theorem Room.pushByte (h : Room s (n + 1)) (b : UInt8) :
    (s.PushUnsafe [b]).inside = s.inside ∧ Room (s.PushUnsafe [b]) n :=
  h.push (Nat.succ_le_succ (Nat.zero_le n))

/-- The size of what a routine has written, and a byte behind it. -/
theorem Room.pushSize {rn : ℕ} {b : UInt8} (h : Room s n) (hrn : rn < n) :
    ((s.PushSizeUnsafe rn).PushUnsafe [b]).inside = s.inside ∧
    0 < ((s.PushSizeUnsafe rn).PushUnsafe [b]).top := by
  have hroom : Room (s.PushSizeUnsafe rn) (n - rn) := by
    unfold Room at h ⊢
    show s.top + rn + (n - rn) ≤ s.cap
    omega
  refine ⟨(hroom.push (by simp; omega)).1, ?_⟩
  exact Nat.succ_pos _

theorem Push5_8_inside (h : bs.length = 8) : (s.Push5_8 bs n).inside = s.inside :=
  ((Grow_room s 8).copyToEnd h.le).1.trans Grow_inside

end Stack

namespace SerializeStores

open Serialize (isObject size single)

variable {M : Machinery} {flags : SerializeFlags} {is_single : Bool} {s : StoreState}

/-- No store has passed the capacity, and where a scope ends there is a comma to take back. -/
def Sound (a : SerLabel × StoreState) : Prop := a.2.wb.inside = true ∧
    (a.1 = .scope_end → 0 < a.2.wb.top)

theorem next_cases (s : StoreState) :
    ∃ c node, next s = (.val_begin, { s with val_cnt := c, node := node }) ∨
    next s = (.scope_end, { s with val_cnt := c, node := node }) := by
  unfold next
  generalize pred32 s.val_cnt = c
  by_cases h : c ≠ 0
  · exact ⟨c, s.node.tail, .inl (if_pos h)⟩
  · exact ⟨c, s.node, .inr (if_neg h)⟩

theorem next_sound (hi : s.wb.inside = true) (ht : 0 < s.wb.top) : Sound (next s) := by
  obtain ⟨c, node, h | h⟩ := next_cases s
  · rw [h]
    exact ⟨hi, nofun⟩
  · rw [h]
    exact ⟨hi, fun _ => ht⟩

theorem pushNumber_sound {wb : Stack} {n rn : ℕ} (hi : wb.inside = true) (hroom : wb.Room n)
    (hrn : rn < n) :
    Sound (pushNumber s wb rn) := by
  obtain ⟨h1, h2⟩ := hroom.pushSize (b := Ch.comma) hrn
  unfold pushNumber
  apply next_sound
  · exact h1.trans hi
  · exact h2

/-- A number that its routine prints within 32 bytes. -/
theorem number_sound {f : Out → ℕ → Out × ℕ} {rn : ℕ} (hi : s.wb.inside = true)
    (hf : ∀ (o : Out) (i : ℕ), o.top ≤ i + 32 → (f o i).1.top ≤ i + 32) (hrn : rn ≤ 32) :
    Sound (pushNumber s ((s.wb.Grow 33).atEnd f).1 rn) := by
  have hroom := Stack.Grow_room s.wb 33
  obtain ⟨h1, h2⟩ :=
    hroom.atEnd (f := f) ((hf _ _ (Nat.zero_le _)).trans (Nat.add_le_add_left (by decide) _))
  exact pushNumber_sound (h1.trans (Stack.Grow_inside.trans hi)) h2 (by omega)

/-- What the quoter stores and writes for a string. -/
theorem QuoteTo_room (o : Out) (i : ℕ) (sv : Bytes) (ho : o.top ≤ i) :
    (M.QuoteTo flags sv o i).1.top ≤ i + (6 * sv.length + 34) ∧
    (M.QuoteTo flags sv o i).2 ≤ i + (6 * sv.length + 2) := by
  have hlen : (o.read 0 i).length = i := o.read_length 0 i
  have hroom : (M.Quote flags sv (o.read 0 i) i).1.length ≤ i + (6 * sv.length + 34) ∧
      (M.Quote flags sv (o.read 0 i) i).2 ≤ i + (6 * sv.length + 2) := by
    unfold Machinery.Quote
    split
    · exact common.Quote_room hlen.ge (by omega)
    · exact Quote_room (by simp) hlen.ge (by omega)
  refine ⟨?_, hroom.2⟩
  show max o.top _ ≤ _
  omega

theorem container_sound {is_obj_nxt : Bool} {size : ℕ} {node : Node} (hi : s.wb.inside = true) :
    Sound (container is_obj_nxt size node s) := by
  have hgrow : (s.wb.Grow 3).inside = true := Stack.Grow_inside.trans hi
  obtain ⟨h1, r1⟩ := (Stack.Grow_room s.wb 3).pushByte (bracket Ch.lbrack is_obj_nxt)
  unfold container
  dsimp only
  split
  · obtain ⟨h2, r2⟩ := r1.pushByte (bracket Ch.rbrack is_obj_nxt)
    obtain ⟨h3, -⟩ := r2.pushByte Ch.comma
    exact next_sound (h3.trans (h2.trans (h1.trans hgrow))) (Nat.succ_pos _)
  split
  · exact ⟨hgrow, nofun⟩
  · exact ⟨h1.trans hgrow, nofun⟩

/-- A text behind which there is a comma. -/
theorem raw_sound {wb : Stack} {sv : Bytes} (hi : wb.inside = true) :
    Stack.inside (((wb.Grow (sv.length + 1)).PushUnsafe sv).PushUnsafe [Ch.comma]) = true := by
  obtain ⟨h1, r1⟩ := (Stack.Grow_room wb (sv.length + 1)).push (Nat.le_succ sv.length)
  rw [Nat.add_sub_cancel_left] at r1
  exact (r1.pushByte Ch.comma).1.trans (h1.trans (Stack.Grow_inside.trans hi))

theorem F64toa_room (o : Out) (i : ℕ) (d : Double) (ho : o.top ≤ i + 32) :
    (Ftoa.F64toa flags o i d).1.top ≤ i + 32 ∧ (Ftoa.F64toa flags o i d).2 ≤ 32 := by
  by_cases h : (f64Parts d.toNat).rexp = 0x7FF
  · have heq : Ftoa.F64toa flags o i d = (o, 0) := by
      unfold Ftoa.F64toa
      dsimp only
      exact if_pos h
    rw [heq]
    exact ⟨ho, Nat.zero_le _⟩
  · obtain ⟨I, f, e, -, -, hw, hlen⟩ := @Ftoa.F64toa_wrote flags o i d h
    have := hw.top
    have := hw.fits
    omega

theorem infNan_length {d : Double} {b : Bytes} (h : infNan flags d = some b) : b.length ≤ 11 := by
  unfold infNan at h
  split_ifs at h <;>
  · obtain rfl := Option.some.inj h
    decide

theorem real_sound {d : Double} (hi : s.wb.inside = true) (hn : s.node.headD M.beyond = .real d) :
    Sound (val_begin M flags s) := by
  unfold val_begin
  rw [hn]
  dsimp only
  obtain ⟨ht, hrn⟩ := @F64toa_room flags ⟨(s.wb.Grow 33).mem, 0⟩ (s.wb.Grow 33).top d (Nat.zero_le _)
  obtain ⟨h1, r1⟩ := (Stack.Grow_room s.wb 33).atEnd (f := fun o i => Ftoa.F64toa flags o i d)
    (ht.trans (Nat.add_le_add_left (by decide) _))
  have hin := h1.trans (Stack.Grow_inside.trans hi)
  have hrn' : ((s.wb.Grow 33).atEnd fun o i => Ftoa.F64toa flags o i d).2 ≤ 32 := hrn
  generalize (s.wb.Grow 33).atEnd (fun o i => Ftoa.F64toa flags o i d) = r at *
  by_cases h0 : r.2 ≤ 0
  · rw [if_pos h0]
    cases hb : infNan flags d with
    | none => exact ⟨hin, nofun⟩
    | some b =>
      have h11 := infNan_length hb
      obtain ⟨h2, r2⟩ := r1.copyToEnd (h11.trans (by decide))
      exact pushNumber_sound (h2.trans hin) r2 (by omega)
  · rw [if_neg h0]
    exact pushNumber_sound hin r1 (Nat.lt_succ_of_le hrn')

theorem str_sound {sv : Bytes} (hi : s.wb.inside = true) (hn : s.node.headD M.beyond = .str sv) :
    Sound (val_begin M flags s) := by
  unfold val_begin
  rw [hn]
  dsimp only
  obtain ⟨ht, he⟩ := @QuoteTo_room M flags ⟨(s.wb.Grow (sv.length * 6 + 32 + 3)).mem, 0⟩
    (s.wb.Grow (sv.length * 6 + 32 + 3)).top sv (Nat.zero_le _)
  obtain ⟨h1, r1⟩ :=
    (Stack.Grow_room s.wb (sv.length * 6 + 32 + 3)).atEnd (f := M.QuoteTo flags sv) (by omega)
  have hin := h1.trans (Stack.Grow_inside.trans hi)
  have he' : ((s.wb.Grow (sv.length * 6 + 32 + 3)).atEnd (M.QuoteTo flags sv)).2 ≤
      ((s.wb.Grow (sv.length * 6 + 32 + 3)).atEnd (M.QuoteTo flags sv)).1.top +
        (6 * sv.length + 2) := he
  generalize (s.wb.Grow (sv.length * 6 + 32 + 3)).atEnd (M.QuoteTo flags sv) = r at *
  generalize (if (s.is_obj && s.val_cnt % 2 == 0) = true then Ch.colon else Ch.comma) = b
  generalize (if (s.is_obj && s.val_cnt % 2 == 0) = true then pred32 s.member_cnt else s.member_cnt) = m
  obtain ⟨h2, h3⟩ := r1.pushSize (b := b) (show r.2 - r.1.top < sv.length * 6 + 32 + 3 by omega)
  apply next_sound
  · exact h2.trans hin
  · exact h3

/-- **One value**: what its routine stores ends in what was grown for it. -/
theorem val_begin_sound (hi : s.wb.inside = true) : Sound (val_begin M flags s) := by
  cases hn : s.node.headD M.beyond with
  | real d => exact real_sound hi hn
  | str sv => exact str_sound hi hn
  | null =>
    unfold val_begin
    rw [hn]
    apply next_sound
    · exact (Stack.Push5_8_inside rfl).trans hi
    · exact Nat.succ_pos _
  | bool b =>
    unfold val_begin
    rw [hn]
    cases b with
    | true =>
      apply next_sound
      · exact (Stack.Push5_8_inside rfl).trans hi
      · exact Nat.succ_pos _
    | false =>
      apply next_sound
      · exact (Stack.Push5_8_inside rfl).trans hi
      · exact Nat.succ_pos _
  | uint v =>
    unfold val_begin
    rw [hn]
    dsimp only
    have hv : v % 2 ^ 64 < 2 ^ 64 := Nat.mod_lt _ (by decide)
    generalize v % 2 ^ 64 = v at hv
    apply number_sound hi
    · intro o i ho
      obtain ⟨t, -, -, hw, -⟩ := Itoa.U64toa_wrote o i hv
      have := hw.top
      omega
    · obtain ⟨t, -, hlen, -, hend⟩ := Itoa.U64toa_wrote ⟨(s.wb.Grow 33).mem, 0⟩ (s.wb.Grow 33).top hv
      show (Itoa.U64toa ⟨(s.wb.Grow 33).mem, 0⟩ (s.wb.Grow 33).top v).2 - (s.wb.Grow 33).top ≤ 32
      omega
  | sint v =>
    unfold val_begin
    rw [hn]
    dsimp only
    have hlo : -2 ^ 63 ≤ Int.bmod v (2 ^ 64) := Int.le_bmod (by decide)
    have hhi : Int.bmod v (2 ^ 64) < 2 ^ 63 := Int.bmod_lt (by decide)
    generalize Int.bmod v (2 ^ 64) = v at hlo hhi
    have hm : (Itoa.minusOf v).length ≤ 1 := by
      unfold Itoa.minusOf
      split
      · exact le_rfl
      · exact Nat.zero_le _
    apply number_sound hi
    · intro o i ho
      obtain ⟨t, -, -, hw, -⟩ := Itoa.I64toa_wrote o i hlo hhi
      have := hw.top
      omega
    · obtain ⟨t, -, hlen, -, hend⟩ :=
        Itoa.I64toa_wrote ⟨(s.wb.Grow 33).mem, 0⟩ (s.wb.Grow 33).top hlo hhi
      rw [List.length_append] at hend
      show (Itoa.I64toa ⟨(s.wb.Grow 33).mem, 0⟩ (s.wb.Grow 33).top v).2 - (s.wb.Grow 33).top ≤ 32
      omega
  | numStr sv =>
    unfold val_begin
    rw [hn]
    dsimp only
    obtain ⟨h1, r1⟩ := (Stack.Grow_room (s.wb.Grow 33) (sv.length + 1)).push (Nat.le_succ sv.length)
    rw [Nat.add_sub_cancel_left] at r1
    exact pushNumber_sound (h1.trans (Stack.Grow_inside.trans (Stack.Grow_inside.trans hi))) r1
      Nat.one_pos
  | raw sv =>
    unfold val_begin
    rw [hn]
    apply next_sound
    · exact raw_sound hi
    · exact Nat.succ_pos _
  | obj ms =>
    unfold val_begin
    rw [hn]
    exact container_sound hi
  | arr vs =>
    unfold val_begin
    rw [hn]
    exact container_sound hi

/-- **The end of a scope**: the comma is there to be taken back, and two bytes are grown for what
comes in its place. -/
theorem scope_end_sound (hi : s.wb.inside = true) (ht : 0 < s.wb.top) :
    Sound (scope_end is_single s) := by
  have hpop : (s.wb.Pop 1).inside = true := by
    unfold Stack.Pop
    rw [hi, decide_eq_true (show 1 ≤ s.wb.top from ht)]
    rfl
  obtain ⟨h1, r1⟩ := (Stack.Grow_room (s.wb.Pop 1) 2).pushByte (bracket Ch.rbrack s.is_obj)
  obtain ⟨h2, -⟩ := r1.pushByte Ch.comma
  have hin := h2.trans (h1.trans (Stack.Grow_inside.trans hpop))
  have htwo : 2 ≤
    ((((s.wb.Pop 1).Grow 2).PushUnsafe [bracket Ch.rbrack s.is_obj]).PushUnsafe [Ch.comma]).top :=
    Nat.le_add_left 2 ((s.wb.Pop 1).Grow 2).top
  unfold scope_end
  dsimp only
  generalize ((((s.wb.Pop 1).Grow 2).PushUnsafe [bracket Ch.rbrack s.is_obj]).PushUnsafe
    [Ch.comma]) = wb at hin htwo ⊢
  by_cases hkey : s.member_cnt ≠ 0 ∧ s.is_obj = true
  · rw [if_pos hkey]
    exact ⟨hpop, nofun⟩
  rw [if_neg hkey]
  cases s.stk with
  | nil =>
    refine ⟨?_, nofun⟩
    have hle : 1 + is_single.toNat ≤ wb.top := by
      have := Bool.toNat_le is_single
      omega
    show (wb.inside && decide (1 + is_single.toNat ≤ wb.top)) = true
    rw [hin, decide_eq_true hle]
    rfl
  | cons parent stk =>
    dsimp only
    generalize pred32 ((parent.len >>> 1) % 2 ^ 32) = c
    by_cases hc : 0 < c
    · rw [if_pos hc]
      exact ⟨hin, nofun⟩
    · rw [if_neg hc]
      exact ⟨hin, fun _ => by dsimp only; omega⟩

/-- The first bytes, in the buffer as it is left by its last use. -/
theorem start_sound (t : Node) (wb : Stack) : Sound (start flags t wb) := by
  have hopen : ∃ wb' : Stack, (if flags.kSerializeAppendBuffer then
      Stack.Reserve { wb with inside := true } (size t * 18 + 64 + wb.top)
      else (Stack.Clear { wb with inside := true }).Reserve (size t * 18 + 64)) = wb' ∧
        wb'.inside = true ∧ wb'.Room 64 := by
    refine ⟨_, rfl, ?_⟩
    split
    · refine ⟨Stack.Reserve_inside, ?_⟩
      have := @Stack.le_Reserve { wb with inside := true } (size t * 18 + 64 + wb.top)
      rw [Stack.Room, Stack.Reserve_top]
      dsimp only
      omega
    · refine ⟨Stack.Reserve_inside, ?_⟩
      have := @Stack.le_Reserve (Stack.Clear { wb with inside := true }) (size t * 18 + 64)
      rw [Stack.Room, Stack.Reserve_top]
      show 0 + 64 ≤ _
      omega
  obtain ⟨wb', he, hi, hroom⟩ := hopen
  unfold start
  dsimp only
  rw [he]
  split
  · exact ⟨hi, nofun⟩
  · exact ⟨(hroom.pushByte _).1.trans hi, nofun⟩

theorem step_sound {a b : SerLabel × StoreState} (h : Sound a)
    (hs : step M flags is_single a = some b) : Sound b := by
  obtain ⟨l, s⟩ := a
  obtain ⟨hi, ht⟩ := h
  cases l with
  | val_begin =>
    obtain rfl := Option.some.inj hs
    exact val_begin_sound hi
  | scope_end =>
    obtain rfl := Option.some.inj hs
    exact scope_end_sound hi (ht rfl)
  | done err => cases hs

/-- **The serializer writes inside its buffer.** For every tree, every set of flags, every buffer
and whatever quoter is dispatched to, in every state that the walk comes to no store has passed the
capacity obtained before it. -/
theorem SerializeImpl_inside (M : Machinery) (flags : SerializeFlags) (t : Node) (wb : Stack)
    {n : ℕ} {a : SerLabel × StoreState}
    (h : Steps (step M flags (single t)) n (start flags t wb) a) : a.2.wb.inside = true :=
  (h.invariant (fun _ _ => step_sound) (start_sound t wb)).1

/-- The walk of `"a"`, with the vector quoter, from an empty buffer. -/
theorem SerializeImpl_inside_string :
    (val_begin ⟨some (.sse, fun _ _ => true), fun _ => [], .null⟩ kSerializeDefault
      (start kSerializeDefault (.str [97]) ⟨fun _ => 0, 0, 0, true⟩).2).2.wb.inside = true :=
  SerializeImpl_inside ⟨some (.sse, fun _ _ => true), fun _ => [],
    .null⟩ kSerializeDefault (.str [97]) ⟨fun _ => 0, 0, 0, true⟩
    (Steps.one rfl)

end SerializeStores

end SonicJson
