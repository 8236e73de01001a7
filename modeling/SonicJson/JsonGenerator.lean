/-
# Writing the text of a value

`JsonGenerator` writes what a path or a tuple finds: the text of a value is parsed with
integers kept as they are written, and a string is written as its content, anything else
as it is printed from the tree. On a value of a text that the parser accepts neither step
fails, and what is written is a function of the value (`Json.content`).
-/
import SonicJson.Document
import SonicJson.NumberPhases
import SonicJson.Serialize

namespace SonicJson

/-- `GetStringView` of a string. -/
def Node.GetStringView : Node → Bytes
  | .str s => s
  | _ => []

def Node.IsString : Node → Bool
  | .str _ => true
  | _ => false

/-- `PushStr`. -/
def WriteBuffer.PushStr (wb : WriteBuffer) (s : Bytes) : WriteBuffer :=
  (wb.Grow (s.length + 1)).PushUnsafe s

/-- `Push` of a byte. -/
def WriteBuffer.Push (wb : WriteBuffer) (c : UInt8) : WriteBuffer := (wb.Grow 1).PushUnsafe [c]

def WriteBuffer.init : WriteBuffer := ⟨[], 0, true⟩

inductive JsonValueType
  | STRING
  | OTHER
  deriving DecidableEq

/-- The flags of the document of a generator. -/
def kParseGenerator : ParseFlags := ⟨true, true, false⟩

/-- The flags that a generator adds to its own. -/
def generatorFlags (flags : SerializeFlags) : SerializeFlags :=
  { flags with kSerializeAppendBuffer := true, kSerializeEscapeEmoji := true }

/-- What a generator is made with: the conversions and the printers, its flags, and what an
allocation for a text held before. -/
structure Gen where
  A : Arch
  F : FloatConv
  W : Writers
  flags : SerializeFlags
  rest : Bytes → Bytes

namespace JsonGenerator

variable (G : Gen)

/-- `Parse` of the document; `none` is a parse error. -/
def parse (raw : Bytes) : Option Node :=
  match Document.Parse G.A G.F kParseGenerator raw (G.rest raw) with
  | some (.ok n) => some n
  | _ => none

/-- `Serialize` behind what is there. -/
def serialize (n : Node) (wb : WriteBuffer) : Option WriteBuffer :=
  match SerializeImpl G.W (generatorFlags G.flags) n wb with
  | some (.kErrorNone, wb) => some wb
  | _ => none

def writeRaw (raw : Bytes) (wb : WriteBuffer) : Option WriteBuffer :=
  (parse G raw).map fun n => wb.PushStr n.GetStringView

def copyCurrentStructure (raw : Bytes) (wb : WriteBuffer) : Option WriteBuffer :=
  (parse G raw).bind fun n => serialize G n wb

def copyCurrentStructureSingleResult (raw : Bytes) (wb : WriteBuffer) : Option WriteBuffer :=
  (parse G raw).bind fun n => if n.IsString then some (wb.PushStr n.GetStringView) else serialize G n wb

/-- The text of one entry of the tuple, and the buffer it was made in. -/
def copyCurrentStructureJsonTupleCodeGen (raw : Bytes) (type : JsonValueType) (wb : WriteBuffer) :
    Option (Bytes × WriteBuffer) :=
  let wb := wb.Clear
  (parse G raw).bind fun n =>
    if type = .STRING then
      let wb := wb.PushStr n.GetStringView
      some (wb.buf, wb)
    else (serialize G n wb).map fun wb => (wb.buf, wb)

end JsonGenerator

/-! ### The size of a tree -/

section
variable {F : FloatConv} {flags : ParseFlags}

open Serialize

/-- An item whose tree has two nodes for each byte at most. -/
def Item.Fits (F : FloatConv) (flags : ParseFlags) (s t : Bytes) : Item → Prop
  | .val v => ∀ n, den F flags v = some n → 2 * nodes n + t.length ≤ s.length + 1
  | .elems vs => ∀ ns, denElems F flags vs = some ns → 2 * elemsNodes ns + t.length ≤ s.length + 1
  | .mems ms => ∀ ns, denMems F flags ms = some ns → 2 * memsNodes ns + t.length ≤ s.length + 1

theorem Scalar.nodes_node (e : Scalar) : nodes e.node = 1 := by cases e <;> rfl

theorem Der.fits {s t : Bytes} {it : Item} (h : Der s it t) : it.Fits F flags s t := by
  induction h with
  | null =>
    intro n hn
    obtain rfl := Option.some.inj hn
    simp only [nodes, kNull, List.length_append, List.length_cons, List.length_nil]
    omega
  | true =>
    intro n hn
    obtain rfl := Option.some.inj hn
    simp only [nodes, kTrue, List.length_append, List.length_cons, List.length_nil]
    omega
  | false =>
    intro n hn
    obtain rfl := Option.some.inj hn
    simp only [nodes, kFalse, List.length_append, List.length_cons, List.length_nil]
    omega
  | num h =>
    intro n hn
    obtain ⟨e, -, rfl⟩ := Option.map_eq_some_iff.mp hn
    obtain ⟨b, r, rfl, -⟩ := h.cons_head
    rw [Scalar.nodes_node]
    simp only [List.cons_append, List.length_cons, List.length_append]
    omega
  | str h =>
    intro n hn
    obtain rfl := Option.some.inj hn
    have h1 := h.suffix.2
    simp only [nodes, List.length_cons]
    omega
  | arrNil h =>
    intro n hn
    obtain rfl := Option.some.inj hn
    have h1 := h.suffix.length_le
    simp only [nodes, elemsNodes, List.length_cons] at h1 ⊢
    omega
  | arr _ ih =>
    intro n hn
    obtain ⟨ns, hns, rfl⟩ := Option.map_eq_some_iff.mp hn
    have h1 := ih ns hns
    simp only [nodes, List.length_cons] at h1 ⊢
    omega
  | objNil h =>
    intro n hn
    obtain rfl := Option.some.inj hn
    have h1 := h.suffix.length_le
    simp only [nodes, memsNodes, List.length_cons] at h1 ⊢
    omega
  | obj _ ih =>
    intro n hn
    obtain ⟨ns, hns, rfl⟩ := Option.map_eq_some_iff.mp hn
    have h1 := ih ns hns
    simp only [nodes, List.length_cons] at h1 ⊢
    omega
  | elemLast hw _ hw' ih =>
    intro ns hns
    simp only [denElems, Option.bind_eq_some_iff, Option.map_eq_some_iff] at hns
    obtain ⟨n, hn, ns, hns, rfl⟩ := hns
    obtain rfl := Option.some.inj hns
    have h1 := ih n hn
    have h2 := hw.suffix.length_le
    have h3 := hw'.suffix.length_le
    simp only [elemsNodes, List.length_cons] at h3 ⊢
    omega
  | elemCons hw _ hw' _ ih ihs =>
    intro ns hns
    simp only [denElems, Option.bind_eq_some_iff, Option.map_eq_some_iff] at hns
    obtain ⟨n, hn, ns, hns, rfl⟩ := hns
    have h1 := ih n hn
    have h2 := hw.suffix.length_le
    have h3 := hw'.suffix.length_le
    have h4 := ihs ns hns
    simp only [elemsNodes, List.length_cons] at h3 ⊢
    omega
  | memLast hw hk hc hv _ hw' ih =>
    intro ns hns
    simp only [denMems, Option.bind_eq_some_iff, Option.map_eq_some_iff] at hns
    obtain ⟨n, hn, ns, hns, rfl⟩ := hns
    obtain rfl := Option.some.inj hns
    have h1 := ih n hn
    have h2 := hw.suffix.length_le
    have h3 := hk.suffix.2
    have h4 := hc.suffix.length_le
    have h5 := hv.suffix.length_le
    have h6 := hw'.suffix.length_le
    simp only [memsNodes, nodes, List.length_cons] at h2 h4 h6 ⊢
    omega
  | memCons hw hk hc hv _ hw' _ ih ihs =>
    intro ns hns
    simp only [denMems, Option.bind_eq_some_iff, Option.map_eq_some_iff] at hns
    obtain ⟨n, hn, ns, hns, rfl⟩ := hns
    have h1 := ih n hn
    have h2 := hw.suffix.length_le
    have h3 := hk.suffix.2
    have h4 := hc.suffix.length_le
    have h5 := hv.suffix.length_le
    have h6 := hw'.suffix.length_le
    have h7 := ihs ns hns
    simp only [memsNodes, nodes, List.length_cons] at h2 h4 h6 ⊢
    omega

theorem length_le_elemsNodes : ∀ vs : List Node, vs.length ≤ elemsNodes vs
  | [] => le_rfl
  | v :: vs => by
    have h1 := single_nodes v
    have h2 := length_le_elemsNodes vs
    simp only [elemsNodes, List.length_cons]
    omega

mutual

/-- A tree of at most 2 ^ 30 nodes has no container that is too large to be printed. -/
theorem small_of_nodes : ∀ n : Node, nodes n ≤ 2 ^ 30 → Serialize.Small n
  | .arr vs, h => by
    have h1 := length_le_elemsNodes vs
    rw [nodes] at h
    exact ⟨by omega, elemsSmall_of_nodes vs (by omega)⟩
  | .obj ms, h => by
    have h1 := le_memsNodes ms
    rw [nodes] at h
    exact ⟨by omega, memsSmall_of_nodes ms (by omega)⟩
  | .null, _ => trivial
  | .bool _, _ => trivial
  | .uint _, _ => trivial
  | .sint _, _ => trivial
  | .real _, _ => trivial
  | .str _, _ => trivial
  | .numStr _, _ => trivial
  | .raw _, _ => trivial

theorem elemsSmall_of_nodes : ∀ vs : List Node, elemsNodes vs ≤ 2 ^ 30 → ElemsSmall vs
  | [], _ => trivial
  | v :: vs, h => by
    rw [elemsNodes] at h
    exact ⟨small_of_nodes v (by omega), elemsSmall_of_nodes vs (by omega)⟩

theorem memsSmall_of_nodes : ∀ ms : List (Node × Node), memsNodes ms ≤ 2 ^ 30 → MemsSmall ms
  | [], _ => trivial
  | (k, v) :: ms, h => by
    rw [memsNodes] at h
    exact ⟨small_of_nodes k (by omega), small_of_nodes v (by omega), memsSmall_of_nodes ms (by omega)⟩

end

theorem JsonText.small {s : Bytes} {v : Json} {n : Node} (h : JsonText s v) (hlen : s.length < 2 ^ 31)
    (hn : den F flags v = some n) : Serialize.Small n := by
  obtain ⟨s₁, t, hw, hd, -⟩ := h
  have h1 := hd.fits n hn
  have h2 := hw.suffix.length_le
  exact small_of_nodes n (by omega)

end

/-! ### Finite numbers -/

/-- The conversions give finite doubles; the slow one gives an infinity where it overflows, and no
NaN. -/
structure FloatConv.Finite (F : FloatConv) : Prop where
  u64 : ∀ man < 2 ^ 64, F64_INF_NAN_EXP (F.u64 man) = false
  fast : ∀ exp10 man d, man / 2 ^ 52 = 0 → exp10 ≤ 22 + 15 → -22 ≤ exp10 →
    F.parseFloatingFast exp10 man = some d →
    F64_INF_NAN_EXP d = false
  normal : ∀ exp10 man sgn d, -308 + 1 < exp10 → exp10 < 308 - 20 →
    F.ParseFloatingNormalFast exp10 man sgn = some d →
    F64_INF_NAN_EXP d = false
  eisel : ∀ man exp10 sgn d, F.AtofEiselLemire64 man exp10 sgn = some d → F64_INF_NAN_EXP d = false
  native : ∀ s, F64_INF_NAN_EXP (F.AtofNative s) = true → F.AtofNative s <<< 1 = 0xFFE0000000000000#64

/-- A double that is told without an error is finite. -/
def NumRes.Finite (r : NumRes) : Prop := r.err = .kErrorNone → ∀ d, r.ev = some (.Double d) →
    F64_INF_NAN_EXP d = false

theorem NumRes.finite_fail (i : ℕ) : (NumRes.fail i).Finite := fun _ _ h => nomatch h

theorem NumRes.finite_event {i : ℕ} {e : Scalar} (h : ∀ d, e ≠ .Double d) : (NumRes.event i e).Finite :=
  fun _ d hd => absurd (Option.some.inj hd) (h d)

theorem NumRes.finite_double {i : ℕ} {d : Double} (h : F64_INF_NAN_EXP d = false) :
    (NumRes.event i (.Double d)).Finite := by
  intro _ d' hd
  obtain rfl := Scalar.Double.inj (Option.some.inj hd)
  exact h

theorem F64_INF_NAN_EXP_negDouble (d : Double) : F64_INF_NAN_EXP (negDouble d) = F64_INF_NAN_EXP d := by
  have hmask : ∀ a b m : BitVec 64, (a ^^^ b) &&& m = (a &&& m) ^^^ (b &&& m) := fun a b m => by
    ext i
    simp [Bool.and_xor_distrib_right]
  have hsign : (0x8000000000000000#64 >>> 52) &&& 0x7ff#64 = 0#64 := by decide
  unfold F64_INF_NAN_EXP negDouble
  rw [BitVec.ushiftRight_xor_distrib, hmask, hsign, BitVec.xor_zero]

theorem F64_INF_NAN_EXP_mulSgn (d : Double) (sgn : ℤ) :
    F64_INF_NAN_EXP (mulSgn d sgn) = F64_INF_NAN_EXP d := by
  unfold mulSgn
  split
  · exact F64_INF_NAN_EXP_negDouble d
  · rfl

section
variable {F : FloatConv} (hfin : F.Finite) {flags : ParseFlags}
    (hflags : flags.kParseOverflowNumAsNumStr = false)
include hfin

theorem parseFloatEiselLemire64_finite {s : Bytes} {len pos : ℕ} {x : Num}
    (h : (parseFloatEiselLemire64 F s len pos x).1 = .kErrorNone) :
    F64_INF_NAN_EXP (parseFloatEiselLemire64 F s len pos x).2 = false := by
  unfold parseFloatEiselLemire64 at h ⊢
  dsimp only at h ⊢
  split at h
  · rename_i d hup
    split at hup
    · cases hup
    · rename_i d' he
      have hd := hfin.eisel _ _ _ _ he
      split at hup
      · exact Option.some.inj hup ▸ hd
      · split at hup
        · exact Option.some.inj hup ▸ hd
        · cases hup
  · split at h
    · cases h
    · rename_i hinf
      rw [if_neg hinf, ← Bool.not_eq_true]
      exact fun hc => hinf (hfin.native _ hc)

include hflags in
theorem double_fast_finite {s : Bytes} {len start : ℕ} {x : Num} {i : ℕ} :
    (double_fast F flags s len start x i).Finite := by
  unfold double_fast
  dsimp only
  split
  · rename_i dbl hd
    split at hd
    · rename_i hc
      exact NumRes.finite_double
        ((F64_INF_NAN_EXP_mulSgn dbl x.sgn).trans (hfin.fast _ _ _ hc.1 hc.2.1 hc.2.2 hd))
    · cases hd
  split
  · rename_i raw hd
    split at hd
    · rename_i hc
      exact NumRes.finite_double (hfin.normal _ _ _ _ hc.2.1 hc.2.2 hd)
    · cases hd
  rw [hflags, Bool.false_and, if_neg (by decide)]
  intro he d hd
  obtain rfl := Scalar.Double.inj (Option.some.inj hd)
  exact parseFloatEiselLemire64_finite hfin he

omit hfin in
theorem carry_lt {man : ℕ} (h : man < 2 ^ 64) : ∀ ds : Bytes, carry man ds < 2 ^ 64 := by
  intro ds
  induction ds generalizing man with
  | nil => exact h
  | cons d ds ih => exact ih (Nat.mod_lt _ (by decide))

omit hfin in
theorem integer_digits_lt (s : Bytes) (sgn : ℤ) (i : ℕ) : (integer_digits s sgn i).1.man < 2 ^ 64 := by
  unfold integer_digits
  dsimp only
  split <;> exact carry_lt (by decide) _

/-- What the scan ends with itself is finite. -/
def NumScan.Finite : NumScan → Prop
  | .done r => r.Finite
  | .double_fast _ _ => True

omit hfin in
theorem zero_exp_finite (s : Bytes) (sgn : ℤ) (i : ℕ) : (zero_exp s sgn i).Finite := by
  have hzero : F64_INF_NAN_EXP (mulSgn 0 sgn) = false :=
    (F64_INF_NAN_EXP_mulSgn 0 sgn).trans (by decide)
  unfold zero_exp
  dsimp only
  split_ifs
  all_goals first
    | exact NumRes.finite_fail _
    | exact NumRes.finite_double hzero

omit hfin in
theorem scan_exp_finite (s : Bytes) (x : Num) (i : ℕ) : (scan_exp s x i).Finite := by
  unfold scan_exp
  dsimp only
  split_ifs
  all_goals first
    | exact NumRes.finite_fail _
    | trivial

omit hfin in
theorem scan_fract_finite (s : Bytes) (e : ℕ) (x : Num) (i : ℕ) : (scan_fract s e x i).Finite := by
  unfold scan_fract
  dsimp only
  split_ifs
  all_goals first
    | trivial
    | exact scan_exp_finite _ _ _

include hflags

theorem scan_integer_end_finite {s : Bytes} {start : ℕ} {x : Num} {i : ℕ} (hx : x.man < 2 ^ 64) :
    (scan_integer_end F flags s start x i).Finite := by
  have neg : ∀ man < 2 ^ 64, (NumScan.done (.event i (.Double (negDouble (F.u64 man))))).Finite :=
    fun man hm =>
    NumRes.finite_double ((F64_INF_NAN_EXP_negDouble _).trans (hfin.u64 man hm))
  unfold scan_integer_end
  simp only [hflags, Bool.false_eq_true, if_false]
  split
  · exact NumRes.finite_event (by simp)
  split
  · split
    · split
      · exact neg _ hx
      · exact NumRes.finite_event (by simp)
    · exact NumRes.finite_event (by simp)
  split
  · split
    · split
      · exact neg _ (Nat.mod_lt _ (by decide))
      · exact NumRes.finite_event (by simp)
    · trivial
  · trivial

theorem scanNumber_finite (s : Bytes) (pos : ℕ) : (scanNumber F flags s pos).Finite := by
  unfold scanNumber
  dsimp only
  split_ifs
  all_goals first
    | exact NumRes.finite_fail _
    | exact zero_exp_finite _ _ _
    | exact scan_fract_finite _ _ _ _
    | exact scan_exp_finite _ _ _
    | exact scan_integer_end_finite hfin hflags (integer_digits_lt _ _ _)
    | exact NumRes.finite_event (by simp)

/-- **The doubles of the parser are finite.** -/
theorem parseNumber_finite (s : Bytes) (len pos : ℕ) : (parseNumber F flags s len pos).Finite := by
  have h := scanNumber_finite hfin hflags s pos
  rw [parseNumber_eq]
  cases hs : scanNumber F flags s pos with
  | done r =>
    rw [hs] at h
    exact h
  | double_fast x i => exact double_fast_finite hfin hflags

open Serialize

theorem numEvent_finite {tok : Bytes} {e : Scalar} (h : numEvent F flags tok = some e) :
    finite e.node = true := by
  unfold numEvent at h
  split at h
  swap
  · cases h
  rename_i he
  have h1 := parseNumber_finite hfin hflags tok tok.length 1 he
  cases e with
  | Double d =>
    have h2 : F64_INF_NAN_EXP d = false := h1 d h
    rw [Scalar.node, finite, h2]
    rfl
  | _ => rfl

end

section
variable {F : FloatConv} {flags : ParseFlags}

open Serialize

mutual

/-- The tree of a value has finite doubles. -/
theorem den_finite (hfin : F.Finite) (hflags : flags.kParseOverflowNumAsNumStr = false) :
    ∀ {v : Json} {n : Node}, den F flags v = some n → finite n = true
  | .null, _, h => Option.some.inj h ▸ rfl
  | .bool _, _, h => Option.some.inj h ▸ rfl
  | .str _, _, h => Option.some.inj h ▸ rfl
  | .num tok, _, h => by
    obtain ⟨e, he, rfl⟩ := Option.map_eq_some_iff.mp h
    exact numEvent_finite hfin hflags he
  | .arr vs, _, h => by
    obtain ⟨ns, hns, rfl⟩ := Option.map_eq_some_iff.mp h
    exact denElems_finite hfin hflags hns
  | .obj ms, _, h => by
    obtain ⟨ns, hns, rfl⟩ := Option.map_eq_some_iff.mp h
    exact denMems_finite hfin hflags hns

theorem denElems_finite (hfin : F.Finite) (hflags : flags.kParseOverflowNumAsNumStr = false) :
    ∀ {vs : List Json} {ns : List Node}, denElems F flags vs = some ns → elemsFinite ns = true
  | [], _, h => Option.some.inj h ▸ rfl
  | v :: vs, _, h => by
    simp only [denElems, Option.bind_eq_some_iff, Option.map_eq_some_iff] at h
    obtain ⟨n, hn, ns, hns, rfl⟩ := h
    rw [elemsFinite, den_finite hfin hflags hn, denElems_finite hfin hflags hns]
    rfl

theorem denMems_finite (hfin : F.Finite) (hflags : flags.kParseOverflowNumAsNumStr = false) :
    ∀ {ms : List (Bytes × Json)} {ns : List (Node × Node)}, denMems F flags ms = some ns →
      memsFinite ns = true
  | [], _, h => Option.some.inj h ▸ rfl
  | (k, v) :: ms, _, h => by
    simp only [denMems, Option.bind_eq_some_iff, Option.map_eq_some_iff] at h
    obtain ⟨n, hn, ns, hns, rfl⟩ := h
    rw [memsFinite, den_finite hfin hflags hn, denMems_finite hfin hflags hns]
    rfl

end

mutual

/-- The keys of the tree of a value are strings. -/
theorem den_keys : ∀ {v : Json} {n : Node}, den F flags v = some n → keys n = true
  | .null, _, h => Option.some.inj h ▸ rfl
  | .bool _, _, h => Option.some.inj h ▸ rfl
  | .str _, _, h => Option.some.inj h ▸ rfl
  | .num tok, _, h => by
    obtain ⟨e, -, rfl⟩ := Option.map_eq_some_iff.mp h
    cases e <;> rfl
  | .arr vs, _, h => by
    obtain ⟨ns, hns, rfl⟩ := Option.map_eq_some_iff.mp h
    exact denElems_keys hns
  | .obj ms, _, h => by
    obtain ⟨ns, hns, rfl⟩ := Option.map_eq_some_iff.mp h
    exact denMems_keys hns

theorem denElems_keys : ∀ {vs : List Json} {ns : List Node}, denElems F flags vs = some ns →
    elemsKeys ns = true
  | [], _, h => Option.some.inj h ▸ rfl
  | v :: vs, _, h => by
    simp only [denElems, Option.bind_eq_some_iff, Option.map_eq_some_iff] at h
    obtain ⟨n, hn, ns, hns, rfl⟩ := h
    rw [elemsKeys, den_keys hn, denElems_keys hns]
    rfl

theorem denMems_keys :
    ∀ {ms : List (Bytes × Json)} {ns : List (Node × Node)}, denMems F flags ms = some ns →
    memsKeys ns = true
  | [], _, h => Option.some.inj h ▸ rfl
  | (k, v) :: ms, _, h => by
    simp only [denMems, Option.bind_eq_some_iff, Option.map_eq_some_iff] at h
    obtain ⟨n, hn, ns, hns, rfl⟩ := h
    rw [memsKeys, den_keys hn, denMems_keys hns]
    rfl

end

/-! ### Integers as they are written -/

/-- An integer is kept as it is written; every other number is read as by default. -/
theorem scanNumber_raw (s : Bytes) (pos : ℕ) :
    scanNumber F kParseGenerator s pos = scanNumber F kParseDefault s pos ∨
    ∃ i b, scanNumber F kParseGenerator s pos = .done (.event i (.Raw b)) := by
  have hend : ∀ start x i, ∃ b, scan_integer_end F kParseGenerator s start x i =
    .done (.event i (.Raw b)) :=
    fun start x i => ⟨_, rfl⟩
  unfold scanNumber
  dsimp only
  split_ifs
  all_goals first
    | exact .inl rfl
    | exact .inr ⟨_, _, rfl⟩
    | contradiction

/-- A number that is read by default is read by a generator. -/
theorem numEvent_generator {tok : Bytes} {e : Scalar} (h : numEvent F kParseDefault tok = some e) :
    ∃ e', numEvent F kParseGenerator tok = some e' := by
  rcases scanNumber_raw (F := F) tok 1 with hs | ⟨i, b, hs⟩
  · refine ⟨e, ?_⟩
    have hnum : numRes F kParseGenerator tok = numRes F kParseDefault tok := by
      unfold numRes
      rw [parseNumber_eq, parseNumber_eq, hs]
      cases scanNumber F kParseDefault tok 1 <;> rfl
    rw [numEvent, hnum]
    exact h
  · refine ⟨.Raw b, ?_⟩
    rw [numEvent, numRes, parseNumber_eq, hs]
    rfl

mutual

/-- A value that the parser accepts has a tree for a generator. -/
theorem den_generator : ∀ {v : Json} {n : Node}, den F kParseDefault v = some n →
    ∃ n', den F kParseGenerator v = some n'
  | .null, _, _ => ⟨_, rfl⟩
  | .bool _, _, _ => ⟨_, rfl⟩
  | .str _, _, _ => ⟨_, rfl⟩
  | .num tok, _, h => by
    obtain ⟨e, he, -⟩ := Option.map_eq_some_iff.mp h
    obtain ⟨e', he'⟩ := numEvent_generator he
    exact ⟨e'.node, by rw [den, he', Option.map_some]⟩
  | .arr vs, _, h => by
    obtain ⟨ns, hns, -⟩ := Option.map_eq_some_iff.mp h
    obtain ⟨ns', hns'⟩ := denElems_generator hns
    exact ⟨.arr ns', by rw [den, hns', Option.map_some]⟩
  | .obj ms, _, h => by
    obtain ⟨ns, hns, -⟩ := Option.map_eq_some_iff.mp h
    obtain ⟨ns', hns'⟩ := denMems_generator hns
    exact ⟨.obj ns', by rw [den, hns', Option.map_some]⟩

theorem denElems_generator :
    ∀ {vs : List Json} {ns : List Node}, denElems F kParseDefault vs = some ns →
    ∃ ns', denElems F kParseGenerator vs = some ns'
  | [], _, _ => ⟨_, rfl⟩
  | v :: vs, _, h => by
    simp only [denElems, Option.bind_eq_some_iff, Option.map_eq_some_iff] at h
    obtain ⟨n, hn, ns, hns, -⟩ := h
    obtain ⟨n', hn'⟩ := den_generator hn
    obtain ⟨ns', hns'⟩ := denElems_generator hns
    exact ⟨n' :: ns', by rw [denElems, hn', Option.bind_some, hns', Option.map_some]⟩

theorem denMems_generator :
    ∀ {ms : List (Bytes × Json)} {ns : List (Node × Node)}, denMems F kParseDefault ms = some ns →
    ∃ ns', denMems F kParseGenerator ms = some ns'
  | [], _, _ => ⟨_, rfl⟩
  | (k, v) :: ms, _, h => by
    simp only [denMems, Option.bind_eq_some_iff, Option.map_eq_some_iff] at h
    obtain ⟨n, hn, ns, hns, -⟩ := h
    obtain ⟨n', hn'⟩ := den_generator hn
    obtain ⟨ns', hns'⟩ := denMems_generator hns
    exact ⟨(.str k, n') :: ns', by rw [denMems, hn', Option.bind_some, hns', Option.map_some]⟩

end

end

/-! ### What is written -/

/-- The text of a value as a generator prints it. -/
def Json.printed (G : Gen) (v : Json) : Bytes :=
  ((den G.F kParseGenerator v).map (Serialize.text G.W (generatorFlags G.flags))).getD []

/-- The content of a string, and the text of any other value. -/
def Json.content (G : Gen) : Json → Bytes
  | .str b => b
  | v => v.printed G

namespace JsonGenerator

open Serialize

variable {G : Gen} {raw : Bytes} {v : Json} {n : Node}

theorem PushStr_buf (wb : WriteBuffer) (s : Bytes) : (wb.PushStr s).buf = wb.buf ++ s := by
  have h := (@WriteBuffer.Grow_wrote wb (s.length + 1)).buf
  rw [List.append_nil] at h
  rw [WriteBuffer.PushStr, WriteBuffer.PushUnsafe, h]

section
variable (hF : G.F.Local) (hlen : raw.length < 2 ^ 31) (hv : JsonText raw v)
    (hn : den G.F kParseDefault v = some n)
include hF hlen hv hn

theorem parse_eq : ∃ n', parse G raw = some n' ∧ den G.F kParseGenerator v = some n' := by
  obtain ⟨n', hn'⟩ := den_generator hn
  have h : Document.Parse G.A G.F kParseGenerator raw (G.rest raw) = some (.ok n') :=
    Document.parse_of_den G.A G.F rfl hF (G.rest raw) (.inl hlen) (hv.counted hlen) hv hn'
  refine ⟨n', ?_, hn'⟩
  unfold parse
  simp only [h]

variable (hfin : G.F.Finite)
include hfin

/-- A value is parsed and printed. -/
theorem serialize_eq (wb : WriteBuffer) :
    ∃ n' wb', parse G raw = some n' ∧ den G.F kParseGenerator v = some n' ∧
    serialize G n' wb = some wb' ∧ wb'.buf = wb.buf ++ v.printed G := by
  obtain ⟨n', h1, h2⟩ := parse_eq hF hlen hv hn
  have hp : printable (generatorFlags G.flags) n' = true := by
    rw [printable, den_finite hfin rfl h2, Bool.or_true]
  obtain ⟨wb', h3, -, h4⟩ :=
    SerializeImpl_ok G.W (generatorFlags G.flags) (hv.small hlen h2) (den_keys h2) hp wb
  refine ⟨n', wb', h1, h2, ?_, ?_⟩
  · rw [serialize, h3]
  · rw [h4, Json.printed, h2, Option.map_some, Option.getD_some]
    rfl

/-- **An entry of a tuple** is the content of the value. -/
theorem copyCurrentStructureJsonTupleCodeGen_eq (type : JsonValueType)
    (htype : type = .STRING ↔ ∃ b, v = .str b) (wb : WriteBuffer) :
    ∃ wb', copyCurrentStructureJsonTupleCodeGen G raw type wb = some (v.content G, wb') := by
  obtain ⟨n', wb', h1, h2, h3, h4⟩ := serialize_eq hF hlen hv hn hfin wb.Clear
  unfold copyCurrentStructureJsonTupleCodeGen
  rw [h1, Option.bind_some]
  by_cases ht : type = .STRING
  · obtain ⟨b, rfl⟩ := htype.mp ht
    obtain rfl := Option.some.inj h2
    rw [if_pos ht]
    refine ⟨wb.Clear.PushStr b, ?_⟩
    show some ((wb.Clear.PushStr b).buf, _) = some (b, _)
    rw [PushStr_buf]
    rfl
  · rw [if_neg ht, h3]
    refine ⟨wb', ?_⟩
    show some (wb'.buf, wb') = _
    rw [h4]
    cases v with
    | str b => exact absurd (htype.mpr ⟨b, rfl⟩) ht
    | _ => rfl

end

end JsonGenerator

end SonicJson
