/-
# Printing a tree

`SerializeImpl` walks a tree with a stack of its own: the labels `val_begin` and
`scope_end` are program points, and one word holds what is left of the container
around the one being printed. It is compared with printing by recursion (`text`): it
returns without error when every key is a string and every double can be printed, and
has then written exactly that text (`SerializeImpl_text`). The buffer records whether
a write has passed its capacity, which no write does.
-/
import SonicJson.Lib.Machine
import SonicJson.Node

namespace SonicJson

open Machine

/-- The flags of `serialize.h` that are read. -/
structure SerializeFlags where
  kSerializeAppendBuffer : Bool
  kSerializeEscapeEmoji : Bool
  kSerializeInfNan : Bool
  kSerializeUnicodeEscapeUppercase : Bool
  kSerializeFloatFormatJava : Bool

/-- No flag is set. -/
def kSerializeDefault : SerializeFlags := ⟨false, false, false, false, false⟩

/-! ### The buffer -/

/-- The bytes and the capacity; `inside` says that no write has passed the capacity. -/
structure WriteBuffer where
  buf : Bytes
  cap : ℕ
  inside : Bool

namespace WriteBuffer

variable (wb : WriteBuffer)

/-- How many bytes were written. -/
def Size : ℕ := wb.buf.length

/-- Drops what was written, not the space. -/
def Clear : WriteBuffer := { wb with buf := [] }

/-- Space for `new_cap` bytes, never less than there is. -/
def Reserve (new_cap : ℕ) : WriteBuffer := if new_cap < wb.cap then wb else { wb with cap := new_cap }

/-- Space for `cnt` more bytes: twice the capacity, or one and a half times what is needed. -/
def Grow (cnt : ℕ) : WriteBuffer :=
  if wb.cap ≤ wb.Size + cnt then
    if 2 * wb.cap < wb.Size + cnt then
      let needed := wb.Size + cnt
      wb.Reserve (needed + needed / 2)
    else wb.Reserve (wb.cap * 2)
  else wb

/-- Writes `s` without a look at the capacity. -/
def PushUnsafe (s : Bytes) : WriteBuffer :=
  { wb with buf := wb.buf ++ s, inside := wb.inside && decide (wb.Size + s.length ≤ wb.cap) }

/-- Writes eight bytes, of which `n` stay. -/
def Push5_8 (bytes8 : Bytes) (n : ℕ) : WriteBuffer :=
  let wb := (wb.Grow 8).PushUnsafe bytes8
  { wb with buf := wb.buf.take (wb.Size - 8 + n) }

/-- Drops the last `n` bytes. -/
def Pop (n : ℕ) : WriteBuffer := { wb with buf := wb.buf.take (wb.Size - n) }

end WriteBuffer

/-! ### The walk -/

/-- The functions that print a string, an integer and a finite double, with the space that the walk
makes for each. -/
structure Writers where
  Quote : SerializeFlags → Bytes → Bytes
  I64toa : ℤ → Bytes
  U64toa : ℕ → Bytes
  finite : SerializeFlags → Double → Bytes
  Quote_le : ∀ flags s, (Quote flags s).length ≤ 6 * s.length + 32 + 2
  I64toa_le : ∀ v, (I64toa v).length ≤ 32
  U64toa_le : ∀ v, (U64toa v).length ≤ 32
  finite_le : ∀ flags d, (finite flags d).length ≤ 32
  finite_pos : ∀ flags d, 0 < (finite flags d).length

/-- The exponent of a double is that of the infinities and the NaNs. -/
def F64_INF_NAN_EXP (d : Double) : Bool := (d >>> 52) &&& 0x7ff#64 == 0x7ff#64

/-- An infinity: no bit of the mantissa is set. -/
def isinf (d : Double) : Bool := F64_INF_NAN_EXP d && d <<< 12 == 0#64

/-- A NaN: a bit of the mantissa is set. -/
def isnan (d : Double) : Bool := F64_INF_NAN_EXP d && d <<< 12 != 0#64

/-- The sign bit, which a NaN has too. -/
def signbit (d : Double) : Bool := d.msb

/-- `'[' | is_obj << 5`, and the same with the closing bracket. -/
def bracket (b : UInt8) (is_obj : Bool) : UInt8 := b ||| (if is_obj then (1 : UInt8) else 0) <<< 5

/-- `val_cnt--` on 32 bits. -/
def pred32 (n : ℕ) : ℕ := (n + (2 ^ 32 - 1)) % 2 ^ 32

def sNull : Bytes := [110, 117, 108, 108]
def sTrue : Bytes := [116, 114, 117, 101]
def sFalse : Bytes := [102, 97, 108, 115, 101]
def sInfinity : Bytes := [34, 73, 110, 102, 105, 110, 105, 116, 121, 34]
def sNegInfinity : Bytes := [34, 45, 73, 110, 102, 105, 110, 105, 116, 121, 34]
def sNaN : Bytes := [34, 78, 97, 78, 34]
def sNegNaN : Bytes := [34, 45, 78, 97, 78, 34]

/-- The children as they stand in memory: each key before its value. -/
def children : Node → List Node
  | .arr vs => vs
  | .obj ms => ms.flatMap fun m => [m.1, m.2]
  | _ => []

/-- What is left of a container that is waited for: its counter with the object bit, and its child
that was entered. -/
structure ParentCtx where
  len : ℕ
  ptr : List Node

/-- The locals of `SerializeImpl`; `node` is the current child with those behind it. -/
structure SerState where
  wb : WriteBuffer
  stk : List ParentCtx
  node : List Node
  is_obj : Bool
  val_cnt : ℕ
  member_cnt : ℕ

/-- The labels of `SerializeImpl`, and the returns with an error code. -/
inductive SerLabel
  | val_begin
  | scope_end
  | done (err : SonicError)
  deriving DecidableEq

namespace Serialize

variable (W : Writers) (flags : SerializeFlags) (is_single : Bool)

/-- `F64toa`, with no bytes for what is not finite. -/
def F64toa (d : Double) : Bytes := if F64_INF_NAN_EXP d then [] else W.finite flags d

/-- The bytes of a double, if it can be printed. -/
def printReal (d : Double) : Option Bytes :=
  let s := F64toa W flags d
  if s.length ≤ 0 then
    if flags.kSerializeInfNan then
      if isinf d then some (if signbit d then sNegInfinity else sInfinity)
      else if isnan d then some (if signbit d then sNegNaN else sNaN)
      else none
    else none
  else some s

/-- After a value. -/
def next (s : SerState) : SerLabel × SerState :=
  let s := { s with val_cnt := pred32 s.val_cnt }
  if s.val_cnt ≠ 0 then (.val_begin, { s with node := s.node.tail }) else (.scope_end, s)

/-- `kNumberSize` bytes at most, and a comma. -/
def pushNumber (wb : WriteBuffer) (s : Bytes) : WriteBuffer :=
  ((wb.Grow 33).PushUnsafe s).PushUnsafe [Ch.comma]

/-- A container: the empty ones are printed at once, the others entered. -/
def container (is_obj_nxt : Bool) (size : ℕ) (node : Node) (s : SerState) : SerLabel × SerState :=
  let s := { s with wb := s.wb.Grow 3 }
  let val_cnt_nxt := size % 2 ^ 32
  if val_cnt_nxt = 0 then
    next { s with
      wb := ((s.wb.PushUnsafe [bracket Ch.lbrack is_obj_nxt]).PushUnsafe
        [bracket Ch.rbrack is_obj_nxt]).PushUnsafe [Ch.comma] }
  else if s.is_obj ∧ ((s.member_cnt <<< 1) % 2 ^ 32 + 1) % 2 ^ 32 ≠ s.val_cnt
    then (.done .kSerErrorInvalidObjKey, s)
  else
    (.val_begin, { s with
      stk := ⟨(s.val_cnt <<< 1) % 2 ^ 32 ||| s.is_obj.toNat, s.node⟩ :: s.stk
      val_cnt := (val_cnt_nxt <<< is_obj_nxt.toNat) % 2 ^ 32
      member_cnt := val_cnt_nxt
      is_obj := is_obj_nxt
      wb := s.wb.PushUnsafe [bracket Ch.lbrack is_obj_nxt]
      node := children node })

/-- `val_begin`: the switch on the type of the current child. -/
def val_begin (s : SerState) : SerLabel × SerState :=
  match s.node.headD .null with
  | .str sv =>
    let is_key := s.is_obj && s.val_cnt % 2 == 0
    let wb := (s.wb.Grow (sv.length * 6 + 32 + 3)).PushUnsafe (W.Quote flags sv)
    next { s with
      wb := wb.PushUnsafe [if is_key then Ch.colon else Ch.comma]
      member_cnt := if is_key then pred32 s.member_cnt else s.member_cnt }
  | .sint v => next { s with wb := pushNumber s.wb (W.I64toa v) }
  | .uint v => next { s with wb := pushNumber s.wb (W.U64toa v) }
  | .real d =>
    match printReal W flags d with
    | none => (.done .kSerErrorInfinity, { s with wb := s.wb.Grow 33 })
    | some b => next { s with wb := pushNumber s.wb b }
  | .numStr sv =>
    next { s with wb := (((s.wb.Grow 33).Grow (sv.length + 1)).PushUnsafe sv).PushUnsafe [Ch.comma] }
  | .bool b =>
    next { s with wb :=
      if b then s.wb.Push5_8 (sTrue ++ [Ch.comma, Ch.space, Ch.space, Ch.space]) 5
      else s.wb.Push5_8 (sFalse ++ [Ch.comma, Ch.space, Ch.space]) 6 }
  | .null => next { s with wb := s.wb.Push5_8 (sNull ++ [Ch.comma, Ch.space, Ch.space, Ch.space]) 5 }
  | .obj ms => container true ms.length (.obj ms) s
  | .arr vs => container false vs.length (.arr vs) s
  | .raw sv => next { s with wb := ((s.wb.Grow (sv.length + 1)).PushUnsafe sv).PushUnsafe [Ch.comma] }

/-- `scope_end`: the last comma becomes the closing bracket, and the walk goes on behind the
container. -/
def scope_end (s : SerState) : SerLabel × SerState :=
  let s := { s with wb := s.wb.Pop 1 }
  if s.member_cnt ≠ 0 ∧ s.is_obj then (.done .kSerErrorInvalidObjKey, s)
  else
    let s := { s with
      wb := ((s.wb.Grow 2).PushUnsafe [bracket Ch.rbrack s.is_obj]).PushUnsafe [Ch.comma] }
    match s.stk with
    | [] => (.done .kErrorNone, { s with wb := s.wb.Pop (1 + is_single.toNat) })
    | parent :: stk =>
      let val_cnt := (parent.len >>> 1) % 2 ^ 32
      let s := { s with
        stk := stk
        is_obj := parent.len % 2 == 1
        member_cnt := pred32 val_cnt >>> 1
        val_cnt := pred32 val_cnt
        node := parent.ptr.tail }
      if 0 < s.val_cnt then (.val_begin, s) else (.scope_end, s)

/-- From a label to the next one. -/
def step : SerLabel × SerState → Option (SerLabel × SerState)
  | (.val_begin, s) => some (val_begin W flags s)
  | (.scope_end, s) => some (scope_end is_single s)
  | (.done _, _) => none

/-- Whether the tree is a single value or an empty container. -/
def single : Node → Bool
  | .arr vs => vs.isEmpty
  | .obj ms => ms.isEmpty
  | _ => true

/-- The number of children. -/
def size : Node → ℕ
  | .arr vs => vs.length
  | .obj ms => ms.length
  | _ => 1

/-- Whether the tree is an object. -/
def isObject : Node → Bool
  | .obj _ => true
  | _ => false

/-- From the beginning of `SerializeImpl` to its labels. -/
def start (node : Node) (wb : WriteBuffer) : SerLabel × SerState :=
  let estimate := size node * 18 + 64
  let is_obj := isObject node
  let wb := if flags.kSerializeAppendBuffer then wb.Reserve (estimate + wb.Size)
    else wb.Clear.Reserve estimate
  if single node then (.val_begin, ⟨wb, [], [node], is_obj, 1, 0⟩)
  else (.val_begin, ⟨wb.PushUnsafe [bracket Ch.lbrack is_obj], [], children node, is_obj,
    (size node <<< is_obj.toNat) % 2 ^ 32, size node % 2 ^ 32⟩)

/-! ### Printing by recursion -/

mutual

/-- The compact text of a tree. -/
def text : Node → Bytes
  | .null => sNull
  | .bool b => if b then sTrue else sFalse
  | .uint v => W.U64toa v
  | .sint v => W.I64toa v
  | .real d => (printReal W flags d).getD []
  | .str s => W.Quote flags s
  | .numStr s => s
  | .raw s => s
  | .arr vs => Ch.lbrack :: (elems vs ++ [Ch.rbrack])
  | .obj ms => Ch.lbrace :: (mems ms ++ [Ch.rbrace])

/-- The elements, with commas between them. -/
def elems : List Node → Bytes
  | [] => []
  | v :: vs =>
    text v ++ match vs with
      | [] => []
      | _ :: _ => Ch.comma :: elems vs

/-- The members, with commas between them. -/
def mems : List (Node × Node) → Bytes
  | [] => []
  | (k, v) :: ms =>
    text k ++ Ch.colon :: text v ++ match ms with
      | [] => []
      | _ :: _ => Ch.comma :: mems ms

end

/-- Whether the tree is a string. -/
def isString : Node → Bool
  | .str _ => true
  | _ => false

mutual

/-- Every key is a string. -/
def keys : Node → Bool
  | .arr vs => elemsKeys vs
  | .obj ms => memsKeys ms
  | _ => true

/-- Every key below the elements is a string. -/
def elemsKeys : List Node → Bool
  | [] => true
  | v :: vs => keys v && elemsKeys vs

/-- The keys of the members, and every key below, are strings. -/
def memsKeys : List (Node × Node) → Bool
  | [] => true
  | (k, v) :: ms => isString k && keys v && memsKeys ms

end

mutual

/-- Every double is finite. -/
def finite : Node → Bool
  | .real d => !F64_INF_NAN_EXP d
  | .arr vs => elemsFinite vs
  | .obj ms => memsFinite ms
  | _ => true

/-- Every double in the elements is finite. -/
def elemsFinite : List Node → Bool
  | [] => true
  | v :: vs => finite v && elemsFinite vs

/-- Every double in the members is finite. -/
def memsFinite : List (Node × Node) → Bool
  | [] => true
  | (k, v) :: ms => finite k && finite v && memsFinite ms

end

/-- Every double can be printed: it is finite, or the flag for the others is set. -/
def printable (t : Node) : Bool := flags.kSerializeInfNan || finite t

/-- `printable` for elements. -/
def elemsPrintable (vs : List Node) : Bool := flags.kSerializeInfNan || elemsFinite vs

/-- `printable` for members. -/
def memsPrintable (ms : List (Node × Node)) : Bool := flags.kSerializeInfNan || memsFinite ms

mutual

/-- Every container holds fewer than 2 ^ 30 children. -/
def Small : Node → Prop
  | .arr vs => vs.length < 2 ^ 30 ∧ ElemsSmall vs
  | .obj ms => ms.length < 2 ^ 30 ∧ MemsSmall ms
  | _ => True

/-- `Small` for elements. -/
def ElemsSmall : List Node → Prop
  | [] => True
  | v :: vs => Small v ∧ ElemsSmall vs

/-- `Small` for members. -/
def MemsSmall : List (Node × Node) → Prop
  | [] => True
  | (k, v) :: ms => Small k ∧ Small v ∧ MemsSmall ms

end

mutual

/-- The number of nodes. -/
def nodes : Node → ℕ
  | .arr vs => 1 + elemsNodes vs
  | .obj ms => 1 + memsNodes ms
  | _ => 1

/-- The nodes of the elements. -/
def elemsNodes : List Node → ℕ
  | [] => 0
  | v :: vs => nodes v + elemsNodes vs

/-- The nodes of the members. -/
def memsNodes : List (Node × Node) → ℕ
  | [] => 0
  | (k, v) :: ms => nodes k + nodes v + memsNodes ms

end

end Serialize

open Serialize in
/-- The error and the buffer, for the tree `node` (two steps for each node are enough). -/
def SerializeImpl (W : Writers) (flags : SerializeFlags) (node : Node) (wb : WriteBuffer) :
    Option (SonicError × WriteBuffer) :=
  (run (step W flags (single node)) (2 * nodes node + 2) (start flags node wb)).bind fun a =>
    match a.1 with
    | .done err => some (err, a.2.wb)
    | _ => none

/-! ### Writing to the buffer -/

namespace WriteBuffer

variable {wb wb' : WriteBuffer} {s out : Bytes} {n : ℕ}

/-- The bytes were added, and no write has passed the capacity if none had before. -/
structure Wrote (wb wb' : WriteBuffer) (out : Bytes) : Prop where
  buf : wb'.buf = wb.buf ++ out
  inside : wb'.inside = wb.inside

/-- There is space for `n` bytes. -/
def Room (wb : WriteBuffer) (n : ℕ) : Prop := wb.Size + n ≤ wb.cap

theorem Wrote.refl (wb : WriteBuffer) : Wrote wb wb [] := ⟨by rw [List.append_nil], rfl⟩

theorem Wrote.trans {wb'' : WriteBuffer} {out' : Bytes} (h : Wrote wb wb' out)
    (h' : Wrote wb' wb'' out') :
    Wrote wb wb'' (out ++ out') := ⟨by rw [h'.buf, h.buf, List.append_assoc], h'.inside.trans h.inside⟩

theorem Reserve_wrote (n : ℕ) : Wrote wb (wb.Reserve n) [] := by
  unfold Reserve
  split
  · exact .refl _
  · exact ⟨by rw [List.append_nil], rfl⟩

theorem le_Reserve (n : ℕ) : n ≤ (wb.Reserve n).cap := by
  unfold Reserve
  split
  · exact Nat.le_of_lt ‹_›
  · exact le_rfl

theorem Grow_wrote (n : ℕ) : Wrote wb (wb.Grow n) [] := by
  unfold Grow
  dsimp only
  split_ifs
  · exact Reserve_wrote _
  · exact Reserve_wrote _
  · exact .refl _

theorem Grow_room (n : ℕ) : Room (wb.Grow n) n := by
  have hs : (wb.Grow n).Size = wb.Size := by rw [Size, (Grow_wrote n).buf, List.append_nil, Size]
  rw [Room, hs]
  unfold Grow
  dsimp only
  split_ifs with h1 h2
  · have := @le_Reserve wb (wb.Size + n + (wb.Size + n) / 2)
    omega
  · have := @le_Reserve wb (wb.cap * 2)
    omega
  · omega

theorem Room.push (h : Room wb n) (hs : s.length ≤ n) :
    Wrote wb (wb.PushUnsafe s) s ∧ Room (wb.PushUnsafe s) (n - s.length) := by
  unfold Room at h
  refine ⟨⟨rfl, ?_⟩, ?_⟩
  · rw [PushUnsafe, decide_eq_true (by omega), Bool.and_true]
  · show (wb.buf ++ s).length + (n - s.length) ≤ wb.cap
    rw [Size] at h
    rw [List.length_append]
    omega

theorem Push5_8_wrote {bytes8 : Bytes} (h8 : bytes8.length = 8) :
    Wrote wb (wb.Push5_8 bytes8 n) (bytes8.take n) := by
  obtain ⟨h1, -⟩ := (Grow_room 8).push h8.le
  refine ⟨?_, h1.inside.trans (Grow_wrote 8).inside⟩
  have hb : ((wb.Grow 8).PushUnsafe bytes8).buf = wb.buf ++ bytes8 := by
    rw [h1.buf, (Grow_wrote 8).buf, List.append_nil]
  show List.take (((wb.Grow 8).PushUnsafe bytes8).buf.length - 8 + n)
    ((wb.Grow 8).PushUnsafe bytes8).buf = _
  rw [hb, List.length_append, h8, Nat.add_sub_cancel, List.take_length_add_append]

end WriteBuffer

namespace Serialize

open WriteBuffer

variable {W : Writers} {flags : SerializeFlags} {is_single : Bool} {s s' : SerState} {t : Node}
    {rest : List Node} {wb : WriteBuffer}
  {b : Bytes}

theorem pushNumber_wrote (hb : b.length ≤ 32) : Wrote wb (pushNumber wb b) (b ++ [Ch.comma]) := by
  obtain ⟨h1, h2⟩ := (Grow_room 33).push (s := b) (by omega)
  obtain ⟨h3, -⟩ := h2.push (s := [Ch.comma]) (by simp; omega)
  exact ((Grow_wrote 33).trans h1).trans h3

/-- Bytes and one more, with the space for both. -/
theorem push_wrote {n : ℕ} {c : UInt8} (hb : b.length + 1 ≤ n) :
    Wrote wb (((wb.Grow n).PushUnsafe b).PushUnsafe [c]) (b ++ [c]) := by
  obtain ⟨h1, h2⟩ := (Grow_room n).push (s := b) (by omega)
  obtain ⟨h3, -⟩ := h2.push (s := [c]) (by simp; omega)
  exact ((Grow_wrote n).trans h1).trans h3

theorem F64toa_length (d : Double) : (F64toa W flags d).length ≤ 32 ∧
    ((F64toa W flags d).length ≤ 0 ↔ F64_INF_NAN_EXP d = true) := by
  unfold F64toa
  have := W.finite_pos flags d
  split
  · rename_i h
    exact ⟨by simp, by simp [h]⟩
  · rename_i h
    exact ⟨W.finite_le flags d, fun hl => by omega, fun hc => absurd hc h⟩

theorem printReal_isSome (d : Double) :
    (printReal W flags d).isSome = (flags.kSerializeInfNan || !F64_INF_NAN_EXP d) := by
  obtain ⟨-, h⟩ := @F64toa_length W flags d
  unfold printReal
  dsimp only
  cases hx : F64_INF_NAN_EXP d with
  | false =>
    rw [hx] at h
    rw [if_neg (by rw [h]; decide)]
    simp
  | true =>
    rw [hx] at h
    rw [if_pos (h.mpr rfl)]
    cases flags.kSerializeInfNan with
    | false => rfl
    | true =>
      rw [if_pos rfl, isinf, isnan, hx]
      by_cases hz : d <<< 12 = 0#64
      · rw [if_pos (by simp [hz])]
        rfl
      · rw [if_neg (by simp [hz]), if_pos (by simp [hz])]
        rfl

theorem elemsPrintable_cons (v : Node) (vs : List Node) :
    elemsPrintable flags (v :: vs) = (printable flags v && elemsPrintable flags vs) := by
  rw [elemsPrintable, elemsFinite, Bool.or_and_distrib_left]
  rfl

theorem memsPrintable_cons (k v : Node) (ms : List (Node × Node)) :
    memsPrintable flags ((k, v) :: ms) =
      (printable flags k && printable flags v && memsPrintable flags ms) := by
  rw [memsPrintable, memsFinite, Bool.or_and_distrib_left, Bool.or_and_distrib_left]
  rfl

theorem printReal_length {d : Double} (h : printReal W flags d = some b) : b.length ≤ 32 := by
  unfold printReal at h
  dsimp only at h
  split_ifs at h
  all_goals obtain rfl := Option.some.inj h
  · decide
  · decide
  · decide
  · decide
  · exact (F64toa_length d).1

/-! ### One value -/

/-- The string is a key: the number of values that are left is even. -/
def isKey (s : SerState) (t : Node) : Bool := isString t && s.is_obj && s.val_cnt % 2 == 0

/-- The state behind a value of which `out` was written, with `m` members left to come. -/
structure Arrived (s : SerState) (m : ℕ) (out : Bytes) (a : SerLabel × SerState) : Prop where
  wrote : Wrote s.wb a.2.wb out
  label : a.1 = if s.val_cnt = 1 then .scope_end else .val_begin
  node : s.val_cnt ≠ 1 → a.2.node = s.node.tail
  stk : a.2.stk = s.stk
  is_obj : a.2.is_obj = s.is_obj
  val_cnt : a.2.val_cnt = s.val_cnt - 1
  member_cnt : s.is_obj = true → a.2.member_cnt = m

theorem pred32_eq {n : ℕ} (h : 0 < n) (hn : n < 2 ^ 32) : pred32 n = n - 1 := by
  unfold pred32
  omega

theorem next_arrived {out : Bytes} {m : ℕ} (hv : 0 < s.val_cnt) (hv' : s.val_cnt < 2 ^ 32)
    (h : Wrote s.wb wb out) :
    Arrived s m out (next { s with wb := wb, member_cnt := m }) := by
  have hp := pred32_eq hv hv'
  unfold next
  dsimp only
  rw [hp]
  split
  · rename_i h1
    exact ⟨h, by rw [if_neg (by omega)], fun _ => rfl, rfl, rfl, rfl, fun _ => rfl⟩
  · rename_i h1
    exact ⟨h, by rw [if_pos (by omega)], fun h2 => absurd h2 (by omega), rfl, rfl, rfl, fun _ => rfl⟩

/-- A single value or an empty container. -/
theorem single_step (hn : s.node = t :: rest) (ht : single t = true) (hp : printable flags t = true)
    (hv : 0 < s.val_cnt) (hv' : s.val_cnt < 2 ^ 32) :
    Arrived s (if isKey s t then pred32 s.member_cnt else s.member_cnt)
      (text W flags t ++ [if isKey s t then Ch.colon else Ch.comma]) (val_begin W flags s) := by
  have number : ∀ {b : Bytes}, b.length ≤ 32 →
    Arrived s s.member_cnt (b ++ [Ch.comma]) (next { s with wb := pushNumber s.wb b }) :=
    fun hb => next_arrived hv hv' (pushNumber_wrote hb)
  have empty : ∀ (is_obj : Bool) (v : Node), Arrived s s.member_cnt ([bracket Ch.lbrack is_obj] ++
      [bracket Ch.rbrack is_obj] ++ [Ch.comma])
      (container is_obj 0 v s) := by
    intro is_obj v
    obtain ⟨h1, h2⟩ := (Grow_room 3).push (s := [bracket Ch.lbrack is_obj]) (by simp)
    obtain ⟨h3, h4⟩ := h2.push (s := [bracket Ch.rbrack is_obj]) (by simp)
    obtain ⟨h5, -⟩ := h4.push (s := [Ch.comma]) (by simp)
    unfold container
    dsimp only
    rw [Nat.zero_mod, if_pos rfl]
    exact next_arrived hv hv' ((((Grow_wrote 3).trans h1).trans h3).trans h5)
  have hh : s.node.headD .null = t := by rw [hn, List.headD_cons]
  unfold val_begin
  rw [hh]
  cases t with
  | null => exact next_arrived hv hv' (Push5_8_wrote rfl)
  | bool b =>
    cases b with
    | true => exact next_arrived hv hv' (Push5_8_wrote rfl)
    | false => exact next_arrived hv hv' (Push5_8_wrote rfl)
  | uint v => exact number (W.U64toa_le v)
  | sint v => exact number (W.I64toa_le v)
  | real d =>
    rw [printable, finite, ← printReal_isSome (W := W)] at hp
    obtain ⟨b, hb⟩ := Option.isSome_iff_exists.mp hp
    dsimp only
    rw [text, hb]
    exact number (printReal_length hb)
  | numStr sv =>
    have h1 := (@Grow_wrote s.wb 33).trans (push_wrote (b := sv) (c := Ch.comma) le_rfl)
    exact next_arrived hv hv' h1
  | raw sv => exact next_arrived hv hv' (push_wrote le_rfl)
  | str sv =>
    have hk : isKey s (.str sv) = (s.is_obj && s.val_cnt % 2 == 0) := rfl
    rw [hk, text]
    have hq := W.Quote_le flags sv
    have h1 := @push_wrote s.wb _ _ (if (s.is_obj && s.val_cnt % 2 == 0) then Ch.colon
      else Ch.comma) (show (W.Quote flags sv).length + 1 ≤ sv.length * 6 + 32 + 3 by omega)
    exact next_arrived hv hv' h1
  | arr vs =>
    obtain rfl : vs = [] := by simpa [single] using ht
    exact empty false _
  | obj ms =>
    obtain rfl : ms = [] := by simpa [single] using ht
    exact empty true _

/-- A double that cannot be printed. -/
theorem single_fails (hn : s.node = t :: rest) (ht : single t = true) (hp : printable flags t = false) :
    ∃ s', val_begin W flags s = (.done .kSerErrorInfinity, s') ∧ s'.wb.inside = s.wb.inside := by
  have hh : s.node.headD .null = t := by rw [hn, List.headD_cons]
  unfold val_begin
  rw [hh]
  cases t with
  | real d =>
    dsimp only
    rw [printable, finite, ← printReal_isSome (W := W), Option.isSome_eq_false_iff,
      Option.isNone_iff_eq_none] at hp
    rw [hp]
    exact ⟨_, rfl, (Grow_wrote 33).inside⟩
  | arr vs =>
    obtain rfl : vs = [] := by simpa [single] using ht
    exact absurd hp (by simp [printable, finite, elemsFinite])
  | obj ms =>
    obtain rfl : ms = [] := by simpa [single] using ht
    exact absurd hp (by simp [printable, finite, memsFinite])
  | _ => exact absurd hp (by simp [printable, finite])

theorem size_pos (ht : single t = false) : 0 < size t := by
  cases t with
  | arr vs => exact List.length_pos_iff.mpr (by simpa [single] using ht)
  | obj ms => exact List.length_pos_iff.mpr (by simpa [single] using ht)
  | _ => exact absurd ht (by simp [single])

/-- A container that is not empty. -/
theorem val_begin_container (hn : s.node = t :: rest) (ht : single t = false) :
    val_begin W flags s = container (isObject t) (size t) t s := by
  have hh : s.node.headD .null = t := by rw [hn, List.headD_cons]
  unfold val_begin
  rw [hh]
  cases t with
  | arr vs => rfl
  | obj ms => rfl
  | _ => exact absurd ht (by simp [single])

/-- The state in which the children of `t` are printed. -/
def entered (t : Node) (s : SerState) : SerState :=
  { wb := (s.wb.Grow 3).PushUnsafe [bracket Ch.lbrack (isObject t)]
    stk := ⟨(s.val_cnt <<< 1) % 2 ^ 32 ||| s.is_obj.toNat, s.node⟩ :: s.stk
    node := children t
    is_obj := isObject t
    val_cnt := (size t <<< (isObject t).toNat) % 2 ^ 32
    member_cnt := size t }

/-- A container in the place of a value is entered. -/
theorem container_enters (ht : single t = false) (hs : size t < 2 ^ 30)
    (hm : s.is_obj = true → s.val_cnt = 2 * s.member_cnt + 1) (hv : s.val_cnt < 2 ^ 32) :
    container (isObject t) (size t) t s = (.val_begin, entered t s) := by
  have h0 : size t % 2 ^ 32 = size t := Nat.mod_eq_of_lt (by omega)
  have := size_pos ht
  unfold container
  dsimp only
  rw [h0, if_neg (by omega), if_neg]
  · rfl
  · rintro ⟨h1, h2⟩
    have := hm h1
    rw [Nat.shiftLeft_eq] at h2
    omega

/-- The counters say that a key was not a string. -/
theorem container_fails (ht : single t = false) (hs : size t < 2 ^ 30) (ho : s.is_obj = true)
    (hm : s.member_cnt < 2 ^ 31) (hne : 2 * s.member_cnt + 1 ≠ s.val_cnt) :
    ∃ s', container (isObject t) (size t) t s = (.done .kSerErrorInvalidObjKey, s') ∧
      s'.wb.inside = s.wb.inside := by
  have := size_pos ht
  have h0 : size t % 2 ^ 32 = size t := Nat.mod_eq_of_lt (by omega)
  unfold container
  dsimp only
  rw [h0, if_neg (by omega), if_pos]
  · exact ⟨_, rfl, (Grow_wrote 3).inside⟩
  · refine ⟨ho, fun hc => hne ?_⟩
    rw [Nat.shiftLeft_eq] at hc
    omega

/-! ### The end of a container -/

/-- The label behind the last child, with `out` written since `s`. -/
structure Ended (s : SerState) (out : Bytes) (a : SerLabel × SerState) : Prop where
  label : a.1 = .scope_end
  wrote : Wrote s.wb a.2.wb out
  stk : a.2.stk = s.stk
  is_obj : a.2.is_obj = s.is_obj
  members : s.is_obj = true → a.2.member_cnt = 0

theorem Pop_wrote {wb wb' : WriteBuffer} {out : Bytes} {c : Bytes} {n : ℕ}
    (h : Wrote wb wb' (out ++ c)) (hc : c.length = n) :
    Wrote wb (wb'.Pop n) out := by
  refine ⟨?_, h.inside⟩
  show wb'.buf.take (wb'.buf.length - n) = _
  rw [h.buf, ← List.append_assoc, List.length_append, hc, Nat.add_sub_cancel, List.take_left]

/-- The closing bracket and a comma in the place of the last comma. -/
theorem close_wrote {wb wb' : WriteBuffer} {out : Bytes} {c : UInt8}
    (h : Wrote wb wb' (out ++ [Ch.comma])) :
    Wrote wb ((((wb'.Pop 1).Grow 2).PushUnsafe [c]).PushUnsafe [Ch.comma])
      (out ++ [c] ++ [Ch.comma]) := by
  rw [List.append_assoc]
  exact (Pop_wrote h rfl).trans (push_wrote (b := [c]) (c := Ch.comma) le_rfl)

/-- Packing a counter and a bit into a word. -/
theorem packed {n : ℕ} {b : Bool} (hn : n < 2 ^ 31) :
    (((n <<< 1) % 2 ^ 32 ||| b.toNat) >>> 1) % 2 ^ 32 = n ∧
    (((n <<< 1) % 2 ^ 32 ||| b.toNat) % 2 == 1) = b := by
  have h1 : (n <<< 1) % 2 ^ 32 = 2 * n := by
    rw [Nat.shiftLeft_eq]
    omega
  have h2 : 2 * n ||| b.toNat = 2 * n + b.toNat := by
    rw [← Nat.two_pow_add_eq_or_of_lt (i := 1) (by cases b <;> decide)]
  rw [h1, h2, Nat.shiftRight_eq_div_pow]
  cases b with
  | false => exact ⟨by simp; omega, by simp⟩
  | true => exact ⟨by simp; omega, by simp⟩

/-- After its last child a container is a value that was printed. -/
theorem scope_end_arrived {s₀ : SerState} {a : SerLabel × SerState} {out : Bytes}
    (hv : 0 < s₀.val_cnt) (hv' : s₀.val_cnt < 2 ^ 31)
    (hm : s₀.is_obj = true → s₀.val_cnt = 2 * s₀.member_cnt + 1)
    (h : Ended (entered t s₀) (out ++ [Ch.comma]) a) :
    Arrived s₀ s₀.member_cnt ([bracket Ch.lbrack (isObject t)] ++ out ++
      [bracket Ch.rbrack (isObject t)] ++ [Ch.comma])
      (scope_end is_single a.2) := by
  obtain ⟨hp, hb⟩ := packed (b := s₀.is_obj) hv'
  have hd := pred32_eq hv (by omega)
  have ho : a.2.is_obj = isObject t := h.is_obj
  have hno : ¬ (a.2.member_cnt ≠ 0 ∧ a.2.is_obj = true) :=
    fun hc => hc.1 (h.members (ho.symm.trans hc.2))
  have hw : Wrote s₀.wb (entered t s₀).wb [bracket Ch.lbrack (isObject t)] :=
    (Grow_wrote 3).trans ((Grow_room 3).push (by simp)).1
  have hw' := hw.trans (close_wrote (c := bracket Ch.rbrack (isObject t)) h.wrote)
  rw [← List.append_assoc, ← List.append_assoc] at hw'
  have hstk : a.2.stk = ⟨(s₀.val_cnt <<< 1) % 2 ^ 32 ||| s₀.is_obj.toNat, s₀.node⟩ :: s₀.stk := h.stk
  unfold scope_end
  dsimp only
  rw [if_neg hno, hstk, ho]
  dsimp only
  rw [hp, hb, hd]
  have hmem : s₀.is_obj = true → (s₀.val_cnt - 1) >>> 1 = s₀.member_cnt := by
    intro hc
    rw [hm hc, Nat.shiftRight_eq_div_pow]
    omega
  split_ifs with hz
  · exact ⟨hw', by rw [if_neg (by omega)], fun _ => rfl, rfl, rfl, rfl, hmem⟩
  · exact ⟨hw', by rw [if_pos (by omega)], fun hc => absurd hc (by omega), rfl, rfl, rfl, hmem⟩

/-! ### The walk follows the recursion -/

/-- An error: the one for keys, if every double can be printed. -/
def Fails (fine : Bool) (a : SerLabel × SerState) : Prop :=
  ∃ e, a.1 = .done e ∧ e ≠ .kErrorNone ∧ (fine = true → e = .kSerErrorInvalidObjKey)

variable (W flags is_single) in
/-- In `N` steps or fewer the walk comes from `x` to `P` if what it prints is good, and to an error
if not. -/
def Does (x : SerLabel × SerState) (N : ℕ) (good fine : Bool) (P : SerLabel × SerState → Prop) : Prop :=
  ∃ n a, n ≤ N ∧ Steps (step W flags is_single) n x a ∧ a.2.wb.inside = x.2.wb.inside ∧
    (good = true → P a) ∧ (good = false → Fails fine a)

variable {x a : SerLabel × SerState} {M N : ℕ} {good good' fine fine' : Bool}
    {P Q : SerLabel × SerState → Prop} {m : ℕ} {out out' : Bytes}

theorem Does.mono (h : Does W flags is_single x M good fine P) (hN : M ≤ N) (hP : ∀ a, P a → Q a) :
    Does W flags is_single x N good fine Q := by
  obtain ⟨n, a, h1, h2, h3, h4, h5⟩ := h
  exact ⟨n, a, h1.trans hN, h2, h3, fun hg => hP a (h4 hg), h5⟩

theorem Does.of_step (h : step W flags is_single x = some a) (hi : a.2.wb.inside = x.2.wb.inside)
    (hP : P a) :
    Does W flags is_single x 1 true fine P := ⟨1, a, le_rfl, .one h, hi, fun _ => hP, nofun⟩

/-- One printing behind the other. -/
theorem Does.bind (h : Does W flags is_single x M good fine P)
    (h' : ∀ a, P a → Does W flags is_single a N good' fine' Q) :
    Does W flags is_single x (M + N) (good && good') (fine && fine') Q := by
  obtain ⟨n, a, h1, h2, h3, h4, h5⟩ := h
  cases good with
  | false =>
    obtain ⟨e, h6, h7, h8⟩ := h5 rfl
    refine ⟨n, a, by omega, h2, h3, fun hc => by simp at hc, fun _ => ⟨e, h6, h7, fun hf => h8 ?_⟩⟩
    exact (Bool.and_eq_true_iff.mp hf).1
  | true =>
    obtain ⟨k, b, k1, k2, k3, k4, k5⟩ := h' a (h4 rfl)
    rw [Bool.true_and]
    refine ⟨n + k, b, by omega, h2.trans k2, k3.trans h3, k4, fun hg => ?_⟩
    obtain ⟨e, h6, h7, h8⟩ := k5 hg
    exact ⟨e, h6, h7, fun hf => h8 (Bool.and_eq_true_iff.mp hf).2⟩

/-- One more step, which always comes to `Q`. -/
theorem Does.then (h : Does W flags is_single x N good fine P)
    (h' : ∀ a, P a → Does W flags is_single a 1 true true Q) :
    Does W flags is_single x (N + 1) good fine Q := by
  have := h.bind h'
  rwa [Bool.and_true, Bool.and_true] at this

theorem single_keys (ht : single t = true) : keys t = true := by
  cases t with
  | arr vs =>
    obtain rfl : vs = [] := by simpa [single] using ht
    rfl
  | obj ms =>
    obtain rfl : ms = [] := by simpa [single] using ht
    rfl
  | _ => rfl

theorem single_nodes (t : Node) : 1 ≤ nodes t := by
  cases t <;> simp [nodes]

/-- A single value or an empty container that is not a key. -/
theorem single_does (ht : single t = true) (hn : s.node = t :: rest) (hv : 0 < s.val_cnt)
    (hv' : s.val_cnt < 2 ^ 32) (hk : isKey s t = false) :
    Does W flags is_single (.val_begin, s) 1 (keys t && printable flags t) (printable flags t)
      (Arrived s s.member_cnt (text W flags t ++ [Ch.comma])) := by
  rw [single_keys ht, Bool.true_and]
  cases hp : printable flags t with
  | true =>
    have h := single_step (W := W) hn ht hp hv hv'
    rw [hk] at h
    exact .of_step rfl h.wrote.inside h
  | false =>
    obtain ⟨s', h1, h2⟩ := single_fails (W := W) hn ht hp
    refine ⟨1, (.done .kSerErrorInfinity, s'), le_rfl, .one (congrArg some h1), h2, nofun, fun _ => ?_⟩
    exact ⟨_, rfl, by decide, nofun⟩

theorem Small.size (h : Small t) : size t < 2 ^ 30 := by
  cases t with
  | arr vs => exact h.1
  | obj ms => exact h.1
  | _ => exact Nat.one_lt_two_pow (by decide)

/-- A container in the place of a value, from what its children do. -/
theorem container_does (ht : single t = false) (hs : Small t) (hn : s.node = t :: rest)
    (hv : 0 < s.val_cnt) (hv' : s.val_cnt < 2 ^ 31)
    (hm : s.is_obj = true → s.val_cnt = 2 * s.member_cnt + 1)
    (h : Does W flags is_single (.val_begin,
    entered t s) N good fine (Ended (entered t s) (out ++ [Ch.comma]))) :
    Does W flags is_single (.val_begin, s) (N + 2) good fine
      (Arrived s s.member_cnt ([bracket Ch.lbrack (isObject t)] ++ out ++
        [bracket Ch.rbrack (isObject t)] ++ [Ch.comma])) := by
  have h1 : step W flags is_single (.val_begin, s) = some (.val_begin, entered t s) := by
    rw [step, val_begin_container hn ht, container_enters ht hs.size hm (by omega)]
  have hi : (entered t s).wb.inside = s.wb.inside := by
    have hw :=
      (@Grow_wrote s.wb 3).trans ((@Grow_room s.wb 3).push (s := [bracket Ch.lbrack (isObject t)])
      (by simp)).1
    exact hw.inside
  obtain ⟨n, ⟨l, s'⟩, k1, k2, k3, k4, k5⟩ := h
  cases good with
  | false => exact ⟨n + 1, _, by omega, .head h1 k2, k3.trans hi, nofun, k5⟩
  | true =>
    have he := k4 rfl
    have ha := @scope_end_arrived is_single _ _ _ _ hv hv' hm he
    obtain rfl : l = .scope_end := he.label
    exact ⟨n + 2, _, by omega, .head h1 (k2.trans (.one rfl)), ha.wrote.inside, fun _ => ha, nofun⟩

theorem Arrived.ended {b : SerLabel × SerState} (h : Arrived s m out a) (h' : Ended a.2 out' b) :
    Ended s (out ++ out') b :=
  ⟨h'.label, h.wrote.trans h'.wrote, h'.stk.trans h.stk, h'.is_obj.trans h.is_obj,
    fun ho => h'.members (h.is_obj.trans ho)⟩

theorem Arrived.last (h : Arrived s m out a) (hv : s.val_cnt = 1) (hm : s.is_obj = true → m = 0) :
    Ended s out a :=
  ⟨by rw [h.label, if_pos hv], h.wrote, h.stk, h.is_obj, fun ho => (h.member_cnt ho).trans (hm ho)⟩

/-- Too few values are left for the members: the walk ends with an error at the next container, or
at the end. -/
theorem doomed : ∀ (vs : List Node) {s : SerState}, (vs ≠ [] → s.node = vs) →
    s.val_cnt = vs.length → s.is_obj = true →
    s.member_cnt < 2 ^ 30 → vs.length < 2 ^ 31 → (∀ t ∈ vs, Small t) →
    (s.val_cnt < 2 * s.member_cnt ∨ s.val_cnt = 2 * s.member_cnt ∧ ∃ k rest, vs = k :: rest ∧
    isString k = false) →
    Does W flags is_single (if s.val_cnt = 0 then .scope_end else .val_begin,
      s) (vs.length + 1) false (vs.all (printable flags)) P
  | [], s, _, hv, ho, hm, _, _, hd => by
    have h1 : s.val_cnt = 0 := hv
    have h2 : s.member_cnt ≠ 0 := by
      rcases hd with hd | ⟨-, k, rest, hc, -⟩
      · omega
      · cases hc
    rw [if_pos h1]
    refine ⟨1, (.done .kSerErrorInvalidObjKey, { s with wb := s.wb.Pop 1 }), le_rfl, .one ?_,
      rfl, nofun, fun _ => ⟨_, rfl, by decide, fun _ => rfl⟩⟩
    rw [step, scope_end]
    dsimp only
    rw [if_pos ⟨h2, ho⟩]
  | t :: ts, s, hn, hv, ho, hm, hl, hs, hd => by
    have hn' : s.node = t :: ts := hn (by simp)
    rw [List.length_cons] at hv hl
    have h0 : s.val_cnt ≠ 0 := by omega
    rw [if_neg h0, List.all_cons]
    cases ht : single t with
    | false =>
      obtain ⟨s', h1, h2⟩ := container_fails (s := s) ht (hs t (by simp)).size ho (by omega) (by omega)
      refine ⟨1, (.done .kSerErrorInvalidObjKey, s'), by omega, .one ?_, h2, nofun,
        fun _ => ⟨_, rfl, by decide, fun _ => rfl⟩⟩
      rw [step, val_begin_container hn' ht, h1]
    | true =>
      cases hp : printable flags t with
      | false =>
        obtain ⟨s', h1, h2⟩ := single_fails (W := W) hn' ht hp
        refine ⟨1, (.done .kSerErrorInfinity, s'), by omega, .one (congrArg some h1), h2, nofun,
          fun _ => ⟨_, rfl, by decide, fun hc => by simp at hc⟩⟩
      | true =>
        have h1 := single_step (W := W) hn' ht hp (by omega) (by omega)
        have h2 : (val_begin W flags s).2.val_cnt = ts.length := by
          rw [h1.val_cnt, hv, Nat.add_sub_cancel]
        have h3 : (val_begin W flags s).2.val_cnt < 2 * (val_begin W flags s).2.member_cnt ∧
            (val_begin W flags s).2.member_cnt < 2 ^ 30 := by
          rw [h1.member_cnt ho, h2]
          split_ifs with hk
          · -- a key: one member and one value fewer
            simp only [isKey, ho, Bool.and_true, Bool.and_eq_true, beq_iff_eq] at hk
            have h4 : s.val_cnt < 2 * s.member_cnt := by
              rcases hd with hd | ⟨-, k, rest, hc, hk'⟩
              · exact hd
              · cases hc
                rw [hk.1] at hk'
                cases hk'
            rw [pred32_eq (by omega) (by omega)]
            omega
          · omega
        have h5 := doomed ts (s := (val_begin W flags s).2)
          (fun hne => by
            rw [h1.node (fun hc => hne (List.length_eq_zero_iff.mp (by omega))), hn', List.tail_cons])
          h2 (h1.is_obj.trans ho) h3.2 (by omega) (fun t ht => hs t (List.mem_cons_of_mem _ ht))
            (.inl h3.1)
        have h6 : (if (val_begin W flags s).2.val_cnt = 0 then SerLabel.scope_end else .val_begin) =
            (val_begin W flags s).1 := by
          rw [h1.label, h2]
          exact if_congr (by omega) rfl rfl
        rw [h6] at h5
        obtain ⟨n, b, k1, k2, k3, -, k4⟩ := h5
        exact ⟨n + 1, b, by rw [List.length_cons]; omega, .head rfl k2, k3.trans h1.wrote.inside,
          nofun, k4⟩

/-- What the walk does from the first of `vs`, the children of an array, to behind the last. -/
def ElemsDo (W : Writers) (flags : SerializeFlags) (is_single : Bool) (vs : List Node) : Prop :=
  ∀ s : SerState, vs ≠ [] → s.node = vs → s.val_cnt = vs.length → s.is_obj = false →
    vs.length < 2 ^ 30 →
    Does W flags is_single (.val_begin, s) (2 * elemsNodes vs)
      (elemsKeys vs && elemsPrintable flags vs) (elemsPrintable flags vs)
      (Ended s (elems W flags vs ++ [Ch.comma]))

/-- What it does from the first of `ms`, the members of an object. -/
def MemsDo (W : Writers) (flags : SerializeFlags) (is_single : Bool) (ms : List (Node × Node)) : Prop :=
  ∀ s : SerState, ms ≠ [] → s.node = children (.obj ms) → s.val_cnt = 2 * ms.length →
    s.is_obj = true → s.member_cnt = ms.length →
    ms.length < 2 ^ 30 →
    Does W flags is_single (.val_begin, s) (2 * memsNodes ms)
      (memsKeys ms && memsPrintable flags ms) (memsPrintable flags ms)
      (Ended s (mems W flags ms ++ [Ch.comma]))

/-- What it does from a value. -/
def ValueDoes (W : Writers) (flags : SerializeFlags) (is_single : Bool) (t : Node) : Prop :=
  ∀ (s : SerState) (rest : List Node), s.node = t :: rest → 0 < s.val_cnt → s.val_cnt < 2 ^ 31 →
    (s.is_obj = true → s.val_cnt = 2 * s.member_cnt + 1) →
    Does W flags is_single (.val_begin, s) (2 * nodes t) (keys t && printable flags t)
      (printable flags t)
      (Arrived s s.member_cnt (text W flags t ++ [Ch.comma]))

/-- In the place of a value no string is a key. -/
theorem isKey_value (hm : s.is_obj = true → s.val_cnt = 2 * s.member_cnt + 1) : isKey s t = false := by
  unfold isKey
  cases ho : s.is_obj with
  | false => simp
  | true =>
    rw [hm ho]
    simp

theorem ValueDoes.of_single (ht : single t = true) : ValueDoes W flags is_single t := by
  intro s rest hn hv hv' hm
  have := single_nodes t
  exact (single_does ht hn hv (by omega) (isKey_value hm)).mono (by omega) fun _ h => h

theorem ValueDoes.arr {vs : List Node} (hne : vs ≠ []) (hs : Small (.arr vs))
    (h : ElemsDo W flags is_single vs) :
    ValueDoes W flags is_single (.arr vs) := by
  intro s rest hn hv hv' hm
  have ht : single (.arr vs) = false := by simpa [single] using hne
  have ho : bracket Ch.lbrack (isObject (.arr vs)) = Ch.lbrack :=
    show bracket Ch.lbrack false = _ by decide
  have hc' : bracket Ch.rbrack (isObject (.arr vs)) = Ch.rbrack :=
    show bracket Ch.rbrack false = _ by decide
  have hc : (entered (.arr vs) s).val_cnt = vs.length := by
    show (vs.length <<< 0) % 2 ^ 32 = _
    have := hs.1
    rw [Nat.shiftLeft_zero]
    exact Nat.mod_eq_of_lt (by omega)
  refine (container_does ht hs hn hv hv' hm (h _ hne rfl hc rfl hs.1)).mono (by rw [nodes]; omega)
    fun a ha => ?_
  rwa [text, ← List.singleton_append, ← List.append_assoc, ← ho, ← hc']

theorem ValueDoes.obj {ms : List (Node × Node)} (hne : ms ≠ []) (hs : Small (.obj ms))
    (h : MemsDo W flags is_single ms) :
    ValueDoes W flags is_single (.obj ms) := by
  intro s rest hn hv hv' hm
  have ht : single (.obj ms) = false := by simpa [single] using hne
  have ho : bracket Ch.lbrack (isObject (.obj ms)) = Ch.lbrace :=
    show bracket Ch.lbrack true = _ by decide
  have hc' : bracket Ch.rbrack (isObject (.obj ms)) = Ch.rbrace :=
    show bracket Ch.rbrack true = _ by decide
  have hc : (entered (.obj ms) s).val_cnt = 2 * ms.length := by
    show (ms.length <<< 1) % 2 ^ 32 = _
    have := hs.1
    rw [Nat.shiftLeft_eq]
    omega
  refine (container_does ht hs hn hv hv' hm (h _ hne rfl hc rfl rfl hs.1)).mono
    (by rw [nodes]; omega) fun a ha => ?_
  rwa [text, ← List.singleton_append, ← List.append_assoc, ← ho, ← hc']

theorem ValueDoes.cons {v : Node} {vs : List Node} (hv : ValueDoes W flags is_single v)
    (hvs : ElemsDo W flags is_single vs) :
    ElemsDo W flags is_single (v :: vs) := by
  intro s _ hn hc ho hl
  rw [List.length_cons] at hc hl
  have h1 := hv s vs hn (by omega) (by omega) (by rw [ho]; nofun)
  have hg : (elemsKeys (v :: vs) && elemsPrintable flags (v :: vs)) =
      ((keys v && printable flags v) && (elemsKeys vs && elemsPrintable flags vs)) := by
    rw [elemsKeys, elemsPrintable_cons]
    ac_rfl
  rw [hg, elemsPrintable_cons, elemsNodes]
  refine (h1.bind (N := 2 * elemsNodes vs) fun a ha => ?_).mono (by omega) fun _ h => h
  cases vs with
  | nil =>
    refine ⟨0, a, by simp, .refl a, rfl, fun _ => ?_,
      fun hc => absurd hc (by simp [elemsKeys, elemsPrintable, elemsFinite])⟩
    rw [elems, List.append_nil]
    exact ha.last hc (by rw [ho]; nofun)
  | cons w ws =>
    obtain ⟨l, s'⟩ := a
    obtain rfl : l = .val_begin := by
      refine ha.label.trans (if_neg ?_)
      rw [hc, List.length_cons]
      omega
    refine (hvs s' (by simp) ?_ ?_ (ha.is_obj.trans ho) (by omega)).mono le_rfl fun b hb => ?_
    · rw [ha.node (by rw [hc, List.length_cons]; omega), hn, List.tail_cons]
    · rw [ha.val_cnt, hc, Nat.add_sub_cancel]
    · have := ha.ended hb
      rw [elems]
      simpa only [List.append_assoc, List.cons_append, List.singleton_append,
        List.nil_append] using this

theorem children_small : ∀ {ms : List (Node × Node)}, MemsSmall ms → ∀ t ∈ children (.obj ms), Small t
  | [], _, t, h => by simp [children] at h
  | (k, v) :: ms, hs, t, h => by
    have h' : t = k ∨ t = v ∨ t ∈ children (.obj ms) := by simpa [children] using h
    rcases h' with rfl | rfl | h'
    · exact hs.1
    · exact hs.2.1
    · exact children_small hs.2.2 t h'

theorem children_printable :
    ∀ ms : List (Node × Node), (children (.obj ms)).all (printable flags) = memsPrintable flags ms
  | [] => by simp [children, memsPrintable, memsFinite]
  | (k, v) :: ms => by
    rw [memsPrintable_cons, ← children_printable ms]
    simp [children, Bool.and_assoc]

theorem children_length : ∀ ms : List (Node × Node), (children (.obj ms)).length = 2 * ms.length
  | [] => rfl
  | (k, v) :: ms => by
    have := children_length ms
    simp only [children, List.flatMap_cons, List.length_append, List.length_cons, List.length_nil]
      at this ⊢
    omega

theorem le_memsNodes : ∀ ms : List (Node × Node), 2 * ms.length ≤ memsNodes ms
  | [] => by simp
  | (k, v) :: ms => by
    have := le_memsNodes ms
    have := single_nodes k
    have := single_nodes v
    rw [memsNodes, List.length_cons]
    omega

theorem MemsDo.cons {k v : Node} {ms : List (Node × Node)} (hs : MemsSmall ((k, v) :: ms))
    (hv : ValueDoes W flags is_single v) (hms : MemsDo W flags is_single ms) :
    MemsDo W flags is_single ((k, v) :: ms) := by
  intro s _ hn hc ho hm hl
  have hn' : s.node = k :: v :: children (.obj ms) := hn
  cases hk : isString k with
  | false =>
    have h1 := @doomed W flags is_single (Ended s (mems W flags ((k, v) :: ms) ++ [Ch.comma]))
      _ s (fun _ => hn) (by rw [hc, children_length]) ho (by omega) (by rw [children_length]; omega)
        (children_small hs)
      (.inr ⟨by omega, k, _, rfl, hk⟩)
    rw [if_neg (by rw [hc, List.length_cons]; omega), children_printable, children_length] at h1
    have hg : (memsKeys ((k, v) :: ms) && memsPrintable flags ((k, v) :: ms)) = false := by
      rw [memsKeys, hk, Bool.false_and, Bool.false_and, Bool.false_and]
    have := le_memsNodes ((k, v) :: ms)
    rw [List.length_cons] at this h1
    rw [hg]
    exact h1.mono (by omega) fun _ h => h
  | true =>
    obtain ⟨sv, rfl⟩ : ∃ sv, k = .str sv := by
      cases k with
      | str sv => exact ⟨sv, rfl⟩
      | _ => cases hk
    rw [List.length_cons] at hc hl hm
    have hkey : isKey s (.str sv) = true := by
      rw [isKey, hk, ho, hc]
      simp
    have h1 := @single_step W flags _ _ _ hn' rfl (Bool.or_true _) (by omega) (by omega)
    rw [if_pos hkey, if_pos hkey, pred32_eq (by omega) (by omega), hm, Nat.add_sub_cancel] at h1
    have hp : printable flags (.str sv) = true := Bool.or_true _
    have hg : (memsKeys ((.str sv, v) :: ms) && memsPrintable flags ((.str sv, v) :: ms)) =
        (true && ((keys v && printable flags v) && (memsKeys ms && memsPrintable flags ms))) := by
      rw [memsKeys, memsPrintable_cons, hk, hp, Bool.true_and, Bool.true_and, Bool.true_and]
      ac_rfl
    have hf : memsPrintable flags ((.str sv, v) :: ms) =
        (true && (printable flags v && memsPrintable flags ms)) := by
      rw [memsPrintable_cons, hp, Bool.and_assoc]
    have hk1 : nodes (.str sv) = 1 := rfl
    rw [hg, hf, memsNodes, hk1]
    refine ((Does.of_step (a := val_begin W flags s) rfl h1.wrote.inside h1).bind
      (N := 2 * nodes v + 2 * memsNodes ms) fun a ha => ?_).mono
      (by omega) fun _ h => h
    obtain ⟨l, s₁⟩ := a
    obtain rfl : l = .val_begin := ha.label.trans (if_neg (by omega))
    have hc₁ : s₁.val_cnt = 2 * ms.length + 1 := by
      have : s₁.val_cnt = s.val_cnt - 1 := ha.val_cnt
      omega
    have hm₁ : s₁.member_cnt = ms.length := ha.member_cnt ho
    have hn₁ : s₁.node = v :: children (.obj ms) := by
      have := ha.node (by omega)
      rwa [hn', List.tail_cons] at this
    refine (hv s₁ _ hn₁ (by omega) (by omega) (fun _ => by rw [hc₁, hm₁])).bind fun b hb => ?_
    cases ms with
    | nil =>
      have he := ha.ended (hb.last hc₁ fun _ => hm₁)
      refine ⟨0, b, by simp, .refl b, rfl, fun _ => ?_,
        fun hc => absurd hc (by simp [memsKeys, memsPrintable, memsFinite])⟩
      rw [mems]
      simpa only [List.append_assoc, List.cons_append, List.singleton_append, List.nil_append,
        List.append_nil] using he
    | cons m ms =>
      obtain ⟨l, s₂⟩ := b
      rw [List.length_cons] at hc₁ hm₁ hl
      obtain rfl : l = .val_begin := hb.label.trans (if_neg (by omega))
      have ho₂ : s₂.is_obj = true := hb.is_obj.trans (ha.is_obj.trans ho)
      have hc₂ : s₂.val_cnt = 2 * (m :: ms).length := by
        have : s₂.val_cnt = s₁.val_cnt - 1 := hb.val_cnt
        rw [List.length_cons]
        omega
      have hm₂ : s₂.member_cnt = (m :: ms).length := (hb.member_cnt (ha.is_obj.trans ho)).trans hm₁
      have hn₂ : s₂.node = children (.obj (m :: ms)) := by
        have := hb.node (by omega)
        rwa [hn₁, List.tail_cons] at this
      refine (hms s₂ (by simp) hn₂ hc₂ ho₂ hm₂ (by rw [List.length_cons]; omega)).mono le_rfl
        fun c hc => ?_
      have he := ha.ended (hb.ended hc)
      rw [mems]
      simpa only [List.append_assoc, List.cons_append, List.singleton_append, List.nil_append] using he

mutual

theorem value_does : ∀ t : Node, Small t → ValueDoes W flags is_single t
  | .null, _ => .of_single rfl
  | .bool _, _ => .of_single rfl
  | .uint _, _ => .of_single rfl
  | .sint _, _ => .of_single rfl
  | .real _, _ => .of_single rfl
  | .str _, _ => .of_single rfl
  | .numStr _, _ => .of_single rfl
  | .raw _, _ => .of_single rfl
  | .arr [], _ => .of_single rfl
  | .obj [], _ => .of_single rfl
  | .arr (v :: vs), hs => .arr (by simp) hs (elems_do (v :: vs) hs.2)
  | .obj (m :: ms), hs => .obj (by simp) hs (mems_do (m :: ms) hs.2)

theorem elems_do : ∀ vs : List Node, ElemsSmall vs → ElemsDo W flags is_single vs
  | [], _ => fun _ h => absurd rfl h
  | v :: vs, hs => (value_does v hs.1).cons (elems_do vs hs.2)

theorem mems_do : ∀ ms : List (Node × Node), MemsSmall ms → MemsDo W flags is_single ms
  | [], _ => fun _ h => absurd rfl h
  | (_, v) :: ms, hs => .cons hs (value_does v hs.2.1) (mems_do ms hs.2.2)

end

/-! ### From the root -/

/-- The buffer with the bytes that the text goes behind. -/
def before (flags : SerializeFlags) (wb : WriteBuffer) : WriteBuffer :=
  if flags.kSerializeAppendBuffer then wb else wb.Clear

/-- The buffer in which the root is printed. -/
def opened (flags : SerializeFlags) (node : Node) (wb : WriteBuffer) : WriteBuffer :=
  if flags.kSerializeAppendBuffer then wb.Reserve (size node * 18 + 64 + wb.Size)
    else wb.Clear.Reserve (size node * 18 + 64)

theorem opened_wrote (node : Node) (wb : WriteBuffer) :
    Wrote (before flags wb) (opened flags node wb) [] ∧ Room (opened flags node wb) 64 := by
  unfold opened before Room Size
  split
  · have h := @Reserve_wrote wb (size node * 18 + 64 + wb.Size)
    have hr := @le_Reserve wb (size node * 18 + 64 + wb.Size)
    refine ⟨h, ?_⟩
    show (wb.Reserve (size node * 18 + 64 + wb.Size)).buf.length + 64 ≤ _
    rw [h.buf, List.append_nil]
    refine le_trans ?_ hr
    unfold Size
    omega
  · have h := @Reserve_wrote wb.Clear (size node * 18 + 64)
    have hr := @le_Reserve wb.Clear (size node * 18 + 64)
    refine ⟨h, ?_⟩
    rw [h.buf, List.append_nil]
    refine le_trans ?_ hr
    simp only [WriteBuffer.Clear, List.length_nil]
    omega

/-- The end of the walk, with the text behind the bytes of the buffer. -/
def Printed (flags : SerializeFlags) (W : Writers) (t : Node) (wb : WriteBuffer)
    (a : SerLabel × SerState) : Prop :=
  a.1 = .done .kErrorNone ∧ Wrote (before flags wb) a.2.wb (text W flags t)

theorem start_single (ht : single t = true) (wb : WriteBuffer) :
    start flags t wb = (.val_begin, ⟨opened flags t wb, [], [t], isObject t, 1, 0⟩) := by
  unfold start
  dsimp only
  rw [if_pos ht]
  rfl

theorem start_container (ht : single t = false) (wb : WriteBuffer) :
    start flags t wb = (.val_begin,
      ⟨(opened flags t wb).PushUnsafe [bracket Ch.lbrack (isObject t)], [], children t, isObject t,
      (size t <<< (isObject t).toNat) % 2 ^ 32, size t % 2 ^ 32⟩) := by
  unfold start
  dsimp only
  rw [if_neg (by rw [ht]; decide)]
  rfl

/-- At the end of the outermost scope. -/
theorem scope_end_printed (h : Ended s (out ++ [Ch.comma]) a) (hs : s.stk = []) :
    ∃ s', scope_end is_single a.2 = (.done .kErrorNone, s') ∧
      s'.wb = ((((a.2.wb.Pop 1).Grow 2).PushUnsafe [bracket Ch.rbrack s.is_obj]).PushUnsafe
        [Ch.comma]).Pop (1 + is_single.toNat) := by
  have hno : ¬ (a.2.member_cnt ≠ 0 ∧ a.2.is_obj = true) :=
    fun hc => hc.1 (h.members (h.is_obj.symm.trans hc.2))
  unfold scope_end
  dsimp only
  rw [if_neg hno, h.stk, hs, h.is_obj]
  exact ⟨_, rfl, rfl⟩

theorem root_single (ht : single t = true) (wb : WriteBuffer) :
    Does W flags (single t) (start flags t wb) 2 (keys t && printable flags t) (printable flags t)
      (Printed flags W t wb) := by
  rw [start_single ht]
  have ho := (@opened_wrote flags t wb).1
  have hk : isKey ⟨opened flags t wb, [], [t], isObject t, 1, 0⟩ t = false := by
    unfold isKey
    cases t <;> rfl
  have h1 := @single_does W flags (single t) ⟨opened flags t wb, [], [t], isObject t, 1, 0⟩ _ []
    ht rfl Nat.one_pos (by norm_num) hk
  refine h1.then fun a ha => ?_
  have he := ha.last rfl fun _ => rfl
  obtain ⟨s', h2, h3⟩ := @scope_end_printed (single t) _ _ _ he rfl
  have hw := @close_wrote _ _ (text W flags t) (bracket Ch.rbrack (isObject t)) (ho.trans he.wrote)
  rw [List.append_assoc] at hw
  have hw := Pop_wrote (n := 2) hw rfl
  obtain ⟨l, s₁⟩ := a
  obtain rfl : l = .scope_end := he.label
  rw [ht] at h2 h3 ⊢
  refine .of_step (a := (.done .kErrorNone, s')) (congrArg some h2) ?_ ⟨rfl, ?_⟩
  · rw [h3]
    exact hw.inside.trans (ho.inside.symm.trans he.wrote.inside.symm)
  · rw [h3]
    exact hw

/-- A container at the root, from what its children do. -/
theorem root_container (ht : single t = false) (wb : WriteBuffer)
    (h : ∀ wb, Does W flags false (.val_begin,
    ⟨wb, [], children t, isObject t, (size t <<< (isObject t).toNat) % 2 ^ 32,
      size t % 2 ^ 32⟩) N good fine (Ended ⟨wb, [], children t, isObject t,
        (size t <<< (isObject t).toNat) % 2 ^ 32,
      size t % 2 ^ 32⟩ (out ++ [Ch.comma])))
    (ht' : text W flags t = [bracket Ch.lbrack (isObject t)] ++ out ++
    [bracket Ch.rbrack (isObject t)]) :
    Does W flags (single t) (start flags t wb) (N + 1) good fine (Printed flags W t wb) := by
  obtain ⟨ho, hr⟩ := opened_wrote t wb
  rw [start_container ht, ht]
  refine (h _).then fun a he => ?_
  obtain ⟨s', h2, h3⟩ := scope_end_printed he rfl
  have hb := ho.trans (hr.push (s := [bracket Ch.lbrack (isObject t)]) (by simp)).1
  have hw := hb.trans he.wrote
  rw [← List.append_assoc] at hw
  have hw := Pop_wrote (n := 1) (close_wrote (c := bracket Ch.rbrack (isObject t)) hw) rfl
  obtain ⟨l, s₁⟩ := a
  obtain rfl : l = .scope_end := he.label
  refine .of_step (a := (.done .kErrorNone, s')) (congrArg some h2) ?_ ⟨rfl, ?_⟩
  · rw [h3]
    exact hw.inside.trans (hb.inside.symm.trans he.wrote.inside.symm)
  · rw [h3, ht']
    exact hw

theorem start_inside (t : Node) (wb : WriteBuffer) : (start flags t wb).2.wb.inside = wb.inside := by
  obtain ⟨ho, hr⟩ := opened_wrote t wb
  have hb : (before flags wb).inside = wb.inside := by
    unfold before
    split <;> rfl
  cases ht : single t with
  | true =>
    rw [start_single ht]
    exact ho.inside.trans hb
  | false =>
    rw [start_container ht]
    exact (hr.push (by simp)).1.inside.trans (ho.inside.trans hb)

theorem root_does (hs : Small t) (wb : WriteBuffer) :
    Does W flags (single t) (start flags t wb) (2 * nodes t + 1) (keys t && printable flags t)
      (printable flags t)
      (Printed flags W t wb) := by
  cases ht : single t with
  | true =>
    have := single_nodes t
    rw [← ht]
    exact (root_single ht wb).mono (by omega) fun _ h => h
  | false =>
    rw [← ht]
    cases t with
    | arr vs =>
      have hne : vs ≠ [] := by simpa [single] using ht
      have hl : (vs.length <<< 0) % 2 ^ 32 = vs.length := by
        have := hs.1
        rw [Nat.shiftLeft_zero]
        exact Nat.mod_eq_of_lt (by omega)
      have hb : text W flags (.arr vs) = [bracket Ch.lbrack false] ++ elems W flags vs ++
          [bracket Ch.rbrack false] := by
        rw [text]
        rfl
      exact (root_container ht wb (fun _ => elems_do vs hs.2 _ hne rfl hl rfl hs.1) hb).mono
        (by rw [nodes]; omega) fun _ h => h
    | obj ms =>
      have hne : ms ≠ [] := by simpa [single] using ht
      have hl : (ms.length <<< 1) % 2 ^ 32 = 2 * ms.length := by
        have := hs.1
        rw [Nat.shiftLeft_eq]
        omega
      have hm : ms.length % 2 ^ 32 = ms.length := by
        have := hs.1
        exact Nat.mod_eq_of_lt (by omega)
      have hb : text W flags (.obj ms) = [bracket Ch.lbrack true] ++ mems W flags ms ++
          [bracket Ch.rbrack true] := by
        rw [text]
        rfl
      exact (root_container ht wb (fun _ => mems_do ms hs.2 _ hne rfl hl rfl hm hs.1) hb).mono
        (by rw [nodes]; omega) fun _ h => h
    | _ => cases ht

end Serialize

open Serialize

variable (W : Writers) (flags : SerializeFlags)

/-- A tree with strings for names whose doubles can be printed is printed. -/
theorem SerializeImpl_ok {t : Node} (hs : Small t) (hk : keys t = true)
    (hp : printable flags t = true) (wb : WriteBuffer) :
    ∃ wb', SerializeImpl W flags t wb = some (.kErrorNone, wb') ∧ wb'.inside = wb.inside ∧
      wb'.buf = (if flags.kSerializeAppendBuffer then wb.buf else []) ++ text W flags t := by
  obtain ⟨n, a, hn, hrun, hi, hgood, -⟩ := @root_does W flags _ hs wb
  obtain ⟨l, s⟩ := a
  obtain ⟨h1, h2⟩ := hgood (Bool.and_eq_true_iff.mpr ⟨hk, hp⟩)
  obtain rfl : l = .done .kErrorNone := h1
  have hr := @run_of_steps _ _ _ (2 * nodes t + 2) _ _ hrun rfl (by omega)
  refine ⟨s.wb, by rw [SerializeImpl, hr]; rfl, hi.trans (start_inside t wb), ?_⟩
  rw [h2.buf]
  unfold before
  split <;> rfl

/-- Printing with a stack is printing by recursion, for trees whose containers are not too large. -/
theorem SerializeImpl_text {t : Node} (hs : Small t) (wb : WriteBuffer) :
    ∃ err wb', SerializeImpl W flags t wb = some (err, wb') ∧ wb'.inside = wb.inside ∧
      (err = .kErrorNone ↔ keys t = true ∧ printable flags t = true) ∧
      (err = .kErrorNone →
        wb'.buf = (if flags.kSerializeAppendBuffer then wb.buf else []) ++ text W flags t) ∧
      (printable flags t = true ∧ keys t = false → err = .kSerErrorInvalidObjKey) := by
  cases hg : keys t && printable flags t with
  | true =>
    have hboth := Bool.and_eq_true_iff.mp hg
    obtain ⟨wb', h1, h2, h3⟩ := SerializeImpl_ok W flags hs hboth.1 hboth.2 wb
    refine ⟨.kErrorNone, wb', h1, h2, ⟨fun _ => hboth, fun _ => rfl⟩, fun _ => h3, ?_⟩
    rintro ⟨-, hk⟩
    rw [hk] at hg
    cases hg
  | false =>
    obtain ⟨n, ⟨l, s⟩, hn, hrun, hi, -, hbad⟩ := @root_does W flags _ hs wb
    obtain ⟨e, h1, h2, h3⟩ := hbad hg
    obtain rfl : l = .done e := h1
    have hr := @run_of_steps _ _ _ (2 * nodes t + 2) _ _ hrun rfl (by omega)
    refine ⟨e, s.wb, by rw [SerializeImpl, hr]; rfl, hi.trans (start_inside t wb), ?_,
      fun hc => absurd hc h2, fun h => h3 h.1⟩
    refine ⟨fun hc => absurd hc h2, fun h => ?_⟩
    rw [h.1, h.2] at hg
    cases hg

/-- Writers for strings without escapes, for integers, and for the double zero. -/
def Writers.plain : Writers where
  Quote _ s := Ch.quote :: (s ++ [Ch.quote])
  I64toa v := (toString v).toUTF8.toList.take 32
  U64toa v := (toString v).toUTF8.toList.take 32
  finite _ _ := [48, 46, 48]
  Quote_le _ s := by
    rw [List.length_cons, List.length_append, List.length_singleton]
    omega
  I64toa_le _ := List.length_take_le _ _
  U64toa_le _ := List.length_take_le _ _
  finite_le _ _ := by decide
  finite_pos _ _ := by decide

/-- `{"a":[1,null],"b":{}}`. -/
theorem SerializeImpl_text_object :
    ∃ err wb', SerializeImpl Writers.plain kSerializeDefault
      (.obj [(.str [97], .arr [.uint 1, .null]), (.str [98], .obj [])])
        ⟨[], 0, true⟩ = some (err, wb') ∧ wb'.inside = true ∧
      (err = .kErrorNone ↔ keys (.obj [(.str [97], .arr [.uint 1, .null]), (.str [98], .obj [])]) =
        true ∧
        printable kSerializeDefault (.obj [(.str [97], .arr [.uint 1, .null]),
          (.str [98], .obj [])]) = true) ∧
      (err = .kErrorNone → wb'.buf = (if kSerializeDefault.kSerializeAppendBuffer then [] else []) ++
        text Writers.plain kSerializeDefault (.obj [(.str [97], .arr [.uint 1, .null]),
          (.str [98], .obj [])])) ∧
      (printable kSerializeDefault (.obj [(.str [97], .arr [.uint 1, .null]),
        (.str [98], .obj [])]) = true ∧
        keys (.obj [(.str [97], .arr [.uint 1, .null]), (.str [98], .obj [])]) = false →
          err = .kSerErrorInvalidObjKey) :=
  SerializeImpl_text Writers.plain kSerializeDefault
    (by simp [Serialize.Small, ElemsSmall, MemsSmall]) ⟨[], 0, true⟩

/-- With `kSerializeInfNan` an infinite double is printed. -/
theorem SerializeImpl_infinity :
    ¬ ∀ (W : Writers) (flags : SerializeFlags) (t : Node) (wb : WriteBuffer), Small t →
    ((∃ wb', SerializeImpl W flags t wb = some (.kErrorNone, wb')) ↔ keys t = true ∧
    finite t = true) := by
  intro h
  have h1 :=
    (h Writers.plain { kSerializeDefault with kSerializeInfNan := true }
    (.real 0x7ff0000000000000#64) ⟨[], 0, true⟩ trivial).mp
    ⟨_, rfl⟩
  exact absurd h1.2 (by decide)

end SonicJson
