/-
# Parsing what was serialized

The writers of the source print integers in decimal, doubles as the shortest decimal
that rounds to them, and strings quoted; the parser reads each back as it was, and so
the text of a tree is a text of JSON that denotes the tree (`Delivered.reads`). A tree
that was parsed is such a tree (`Der.delivered`), so parsing, serializing and parsing
again changes nothing (`Parse_Serialize`). The serializer's 32-bit counters need
containers of fewer than 2 ^ 30 children: the texts of fewer than 2 ^ 31 bytes have no
other ones, and for a longer text the second tree can be another one
(`Parse_Serialize_giant`). Doubles may be printed longer than they were, and of a text of
2 ^ 31 bytes or more the slow conversion reads nothing.
-/
import SonicJson.NumberRounded
import SonicJson.JsonGenerator
import SonicJson.Ftoa
import SonicJson.Quote

namespace SonicJson

open Cursor Binary Machine

/-! ### The conversions give finite doubles -/

theorem F64_INF_NAN_EXP_iff {d : Double} :
    F64_INF_NAN_EXP d = true ↔ d.toNat / 2 ^ 52 % 2 ^ 11 = 2047 := by
  unfold F64_INF_NAN_EXP
  rw [beq_iff_eq, ← BitVec.toNat_inj, BitVec.toNat_and, BitVec.toNat_ushiftRight,
    Nat.shiftRight_eq_div_pow]
  have hmask : (0x7ff#64).toNat = 2 ^ 11 - 1 := rfl
  have hall : (2 : ℕ) ^ 11 - 1 = 2047 := by norm_num
  rw [hmask, Nat.and_two_pow_sub_one_eq_mod, hall]

theorem rexp_iff {d : Double} : (f64Parts d.toNat).rexp ≠ 0x7FF ↔ F64_INF_NAN_EXP d = false := by
  rw [← Bool.not_eq_true, F64_INF_NAN_EXP_iff, f64Parts_eq]
  dsimp only
  have hdiv : d.toNat % 2 ^ 63 / 2 ^ 52 = d.toNat / 2 ^ 52 % 2 ^ 11 := by omega
  rw [hdiv]
  omega

theorem val_parts (d : Double) :
    ((f64Parts d.toNat).c : ℚ) * 2 ^ (f64Parts d.toNat).q = binary64.val (d.toNat % 2 ^ 63) := by
  rw [f64Parts_eq]
  dsimp only
  rfl

/-- What is printed rounds to the number. -/
theorem printedValue_nearest {flags : SerializeFlags} {d : Double}
    (hfin : (f64Parts d.toNat).rexp ≠ 0x7FF) :
    binary64.Nearest (Ftoa.printedValue flags d) (d.toNat % 2 ^ 63) := by
  unfold Ftoa.printedValue
  by_cases hz : d <<< 1 = 0
  · rw [if_pos hz, toNat_shiftLeft_one.mp hz]
    exact nearest_zero le_rfl (zpow_nonneg (by norm_num) _)
  rw [if_neg hz]
  split
  · rw [val_parts]
    exact Format.nearest_val (lt_inf_of_finite hfin).le
  · have hbest := F64ToDecimal_best (f64Parts_decomposed hfin hz) (f64Parts_irregular hfin)
    exact (mem_RoundingInterval hfin hz).mp hbest.mem

/-- The sign and the other bits. -/
theorem signed_signText (d : Double) : signed (signOf (Ftoa.signText d)) (d.toNat % 2 ^ 63) = d := by
  have hlt := d.isLt
  apply BitVec.eq_of_toNat_eq
  unfold signed signOf Ftoa.signText
  rw [BitVec.toNat_ofNat]
  by_cases hs : d.toNat / 2 ^ 63 ≠ 0
  · rw [if_pos hs, if_neg (List.cons_ne_nil _ _), if_pos rfl]
    omega
  · rw [if_neg hs, if_pos rfl, if_neg (by decide)]
    omega

theorem signText_minus (d : Double) : Ftoa.signText d = [] ∨ Ftoa.signText d = [Ch.minus] := by
  unfold Ftoa.signText
  split
  · exact .inr rfl
  · exact .inl rfl

theorem inText_alone (tok : Bytes) :
    InText tok 0 tok [] := ⟨by rw [List.append_nil]; exact at_zero tok, trivial⟩

/-- **The text of a double is read as the double.** -/
theorem double_read {flags : SerializeFlags} {d : Double} {I f e : Bytes}
    (hfin : (f64Parts d.toNat).rexp ≠ 0x7FF)
    (hft : Ftoa.FloatText I f e (Ftoa.printedValue flags d)) (hshort : Ftoa.ShortParts I f e)
    (hlen : (Ftoa.signText d ++ (I ++ (f ++ e))).length ≤ 32) :
    numEvent floatConv kParseDefault (Ftoa.signText d ++ (I ++ (f ++ e))) =
      some (.Double d) := by
  have hm := signText_minus d
  have hlt := lt_inf_of_finite hfin
  have hin := inText_alone (Ftoa.signText d ++ I ++ f ++ e)
  have htext : Ftoa.signText d ++ (I ++ (f ++ e)) = Ftoa.signText d ++ I ++ f ++ e := by
    simp only [List.append_assoc]
  have hI : I.length ≤ 800 := by
    rw [List.length_append, List.length_append] at hlen
    omega
  have hleft :
      (slice (Ftoa.signText d ++ I ++ f ++ e) 0 (Ftoa.signText d ++ I ++ f ++ e).length).length ≤
      32 := by
    rw [htext] at hlen
    rw [slice, List.length_take, List.length_drop]
    omega
  obtain ⟨v, hv, hres⟩ :=
    @parseNumber_converted _ [] (Ftoa.signText d) I f e 0 (Ftoa.signText d ++ I ++ f ++ e).length
    kParseDefault hm hft.int hft.frac hft.exp rfl hin (Nat.zero_add _).le (by omega)
    (fun h => absurd h (not_and_or.mpr hft.floating)) fun h => by
      have := hshort.frac
      omega
  have hround : binary64.round v = d.toNat % 2 ^ 63 := by
    have hdrop : ¬ (f = [] ∧ e ≠ [] ∧ decimal (I.drop 19) ≠ 0) := by
      rintro ⟨-, he, hd⟩
      rw [List.drop_eq_nil_of_le (hshort.int he)] at hd
      exact hd rfl
    rw [hv.round_eq hdrop (by omega) hI, absRead_eq hshort.exp, hft.value]
    exact (Format.nearest_round (by rw [← hft.value]; exact absValue_nonneg)).unique
      (printedValue_nearest hfin)
  rw [converted_finite (by rw [hround]; exact hlt.ne), hround, signed_signText] at hres
  unfold numEvent numRes
  rw [htext, hres]
  rfl

/-! ### The printers of the source -/

open RawBuffer in
/-- Memory that is not written yet. -/
def blank : Raw UInt8 := ⟨fun _ => 0, 0⟩

open RawBuffer in
theorem read_front {o : Raw UInt8} {t : Bytes} {room : ℕ} (h : Wrote blank o 0 t room) :
    o.read 0 t.length = t := by
  have h' : Wrote blank o 0 ([] ++ t) room := by rwa [List.nil_append]
  exact h'.read_back

/-- `Quote` of a string that stands alone in memory. -/
def quoteText (A : Arch) (direct : ℕ → Bool) (flags : SerializeFlags) (s : Bytes) : Bytes :=
  written 0 (Quote flags s A direct 0 s.length [] 0)

theorem quoteText_eq (A : Arch) (direct : ℕ → Bool) (flags : SerializeFlags) (s : Bytes) :
    quoteText A direct flags s = Ch.quote :: (quoted flags s ++ [Ch.quote]) := by
  have hq := (@Quote_eq flags s A direct 0 s.length 0 [] (Nat.zero_add _).le le_rfl).2
  have hall : slice s 0 (0 + s.length) = s := by simp [slice]
  rw [hall] at hq
  exact hq

/-- `U64toa` of 64 bits. -/
def u64Text (v : ℕ) : Bytes :=
  let r := Itoa.U64toa blank 0 (v % 2 ^ 64)
  r.1.read 0 r.2

theorem u64Text_decimally (v : ℕ) : Decimally (u64Text v) (v % 2 ^ 64) ∧ (u64Text v).length ≤ 20 := by
  obtain ⟨t, ht, hlen, hw, hend⟩ := Itoa.U64toa_wrote blank 0 (Nat.mod_lt v (show 0 < 2 ^ 64 by decide))
  have htext : u64Text v = t := by
    unfold u64Text
    dsimp only
    rw [hend, Nat.zero_add]
    exact read_front hw
  rw [htext]
  exact ⟨ht, hlen⟩

/-- `I64toa` of 64 bits. -/
def i64Text (w : ℤ) : Bytes :=
  let r := Itoa.I64toa blank 0 (w.bmod (2 ^ 64))
  r.1.read 0 r.2

theorem bmod_range (w : ℤ) : -2 ^ 63 ≤ w.bmod (2 ^ 64) ∧ w.bmod (2 ^ 64) < 2 ^ 63 :=
  ⟨Int.le_bmod (by decide), Int.bmod_lt (by decide)⟩

theorem i64Text_decimally (w : ℤ) : ∃ t, i64Text w = Itoa.minusOf (w.bmod (2 ^ 64)) ++ t ∧
    Decimally t (w.bmod (2 ^ 64)).natAbs ∧ t.length ≤ 20 := by
  obtain ⟨t, ht, hlen, hw, hend⟩ := Itoa.I64toa_wrote blank 0 (bmod_range w).1 (bmod_range w).2
  refine ⟨t, ?_, ht, hlen⟩
  unfold i64Text
  dsimp only
  rw [hend, Nat.zero_add]
  exact read_front hw

/-- `F64toa` of a finite double. -/
def f64Text (flags : SerializeFlags) (d : Double) : Bytes :=
  if F64_INF_NAN_EXP d then [Ch.zero]
  else
    let r := Ftoa.F64toa flags blank 0 d
    r.1.read 0 r.2

theorem f64Text_float (flags : SerializeFlags) {d : Double} (hfin : F64_INF_NAN_EXP d = false) :
    ∃ I f e, f64Text flags d = Ftoa.signText d ++ (I ++ (f ++ e)) ∧ (f64Text flags d).length ≤ 32 ∧
      Ftoa.FloatText I f e (Ftoa.printedValue flags d) ∧ Ftoa.ShortParts I f e := by
  obtain ⟨I, f, e, hft, hshort, hw, hend⟩ := @Ftoa.F64toa_wrote flags blank 0 d (rexp_iff.mpr hfin)
  have htext : f64Text flags d = Ftoa.signText d ++ (I ++ (f ++ e)) := by
    unfold f64Text
    dsimp only
    rw [hfin, if_neg (by decide), hend]
    exact read_front hw
  exact ⟨I, f, e, htext, htext ▸ hw.fits, hft, hshort⟩

theorem f64Text_length (flags : SerializeFlags) (d : Double) :
    (f64Text flags d).length ≤ 32 ∧ 0 < (f64Text flags d).length := by
  cases h : F64_INF_NAN_EXP d with
  | true =>
    have htext : f64Text flags d = [Ch.zero] := by rw [f64Text, if_pos h]
    rw [htext]
    exact ⟨by decide, by decide⟩
  | false =>
    obtain ⟨I, f, e, htext, hlen, hft, -⟩ := f64Text_float flags h
    have hI : 0 < I.length := by
      cases hft.int with
      | zero => decide
      | pos _ _ _ => exact Nat.succ_pos _
    refine ⟨hlen, ?_⟩
    rw [htext, List.length_append, List.length_append]
    omega

/-- **The printers of the source** keep to the room that is made for them. -/
def Writers.source (A : Arch) (direct : ℕ → Bool) : Writers where
  Quote := quoteText A direct
  I64toa := i64Text
  U64toa := u64Text
  finite := f64Text
  Quote_le flags s := by
    have hlen := quoted_length flags s
    rw [quoteText_eq, List.length_cons, List.length_append, List.length_singleton]
    omega
  I64toa_le w := by
    obtain ⟨t, htext, -, hlen⟩ := i64Text_decimally w
    have hm : (Itoa.minusOf (w.bmod (2 ^ 64))).length ≤ 1 := by
      unfold Itoa.minusOf
      split <;> decide
    rw [htext, List.length_append]
    omega
  U64toa_le v := (u64Text_decimally v).2.trans (by decide)
  finite_le flags d := (f64Text_length flags d).1
  finite_pos flags d := (f64Text_length flags d).2

/-! ### What the parser delivers -/

/-- What an event tells is of its type: 64 bits without and with a sign (the negative numbers only),
a finite double, or a string. -/
def Scalar.Delivered : Scalar → Prop
  | .Uint v => v < 2 ^ 64
  | .Int w => -2 ^ 63 ≤ w ∧ w < 0
  | .Double d => F64_INF_NAN_EXP d = false
  | .NumStr _ | .Raw _ => False
  | _ => True

mutual

/-- A tree of such values, with strings for names. -/
def Node.Delivered : Node → Prop
  | .uint v => v < 2 ^ 64
  | .sint w => -2 ^ 63 ≤ w ∧ w < 0
  | .real d => F64_INF_NAN_EXP d = false
  | .numStr _ | .raw _ => False
  | .arr vs => ElemsDelivered vs
  | .obj ms => MemsDelivered ms
  | _ => True

def Node.ElemsDelivered : List Node → Prop
  | [] => True
  | v :: vs => v.Delivered ∧ ElemsDelivered vs

def Node.MemsDelivered : List (Node × Node) → Prop
  | [] => True
  | (k, v) :: ms => Serialize.isString k = true ∧ v.Delivered ∧ MemsDelivered ms

end

theorem Scalar.Delivered.node {e : Scalar} (h : e.Delivered) : e.node.Delivered := by
  cases e with
  | NumStr _ | Raw _ => exact h.elim
  | Uint _ | Int _ | Double _ => exact h
  | Null | Bool _ | String _ => exact trivial

/-- An item whose tree is delivered. -/
def Item.Delivered (F : FloatConv) : Item → Prop
  | .val v => ∀ n, den F kParseDefault v = some n → n.Delivered
  | .elems vs => ∀ ns, denElems F kParseDefault vs = some ns → Node.ElemsDelivered ns
  | .mems ms => ∀ ns, denMems F kParseDefault ms = some ns → Node.MemsDelivered ns

mutual

/-- A tree of which no double is read by the slow conversion when it is printed. -/
def Node.Quick : Node → Prop
  | .real d => Fast floatConv kParseDefault (f64Text kSerializeDefault d)
  | .arr vs => ElemsQuick vs
  | .obj ms => MemsQuick ms
  | _ => True

def Node.ElemsQuick : List Node → Prop
  | [] => True
  | v :: vs => v.Quick ∧ ElemsQuick vs

def Node.MemsQuick : List (Node × Node) → Prop
  | [] => True
  | (_, v) :: ms => v.Quick ∧ MemsQuick ms

end

section
variable (A : Arch) (direct : ℕ → Bool)

open Serialize

/-- The text of a tree denotes the tree, whatever is behind it. -/
def Node.Reads (n : Node) : Prop :=
  ∀ t, ∃ v, Der (text (.source A direct) kSerializeDefault n ++ t) (.val v) t ∧
    den floatConv kParseDefault v = some n ∧
    v.Counted ∧ (n.Quick → v.AllNums (Fast floatConv kParseDefault))

def Node.ElemsRead (ns : List Node) : Prop :=
  ∀ t, ∃ vs, Der (elems (.source A direct) kSerializeDefault ns ++ Ch.rbrack :: t) (.elems vs)
    (Ch.rbrack :: t) ∧
    denElems floatConv kParseDefault vs = some ns ∧ vs.length = ns.length ∧ Json.ElemsCounted vs ∧
      (ElemsQuick ns → Json.ElemsAllNums (Fast floatConv kParseDefault) vs)

def Node.MemsRead (ms : List (Node × Node)) : Prop :=
  ∀ t, ∃ vs, Der (mems (.source A direct) kSerializeDefault ms ++ Ch.rbrace :: t) (.mems vs)
    (Ch.rbrace :: t) ∧
    denMems floatConv kParseDefault vs = some ms ∧ vs.length = ms.length ∧ Json.MemsCounted vs ∧
      (MemsQuick ms → Json.MemsAllNums (Fast floatConv kParseDefault) vs)

variable {A direct}

/-- A string between its quotes. -/
theorem strBody_quoteText (s t : Bytes) :
    ∃ u, quoteText A direct kSerializeDefault s ++ t = Ch.quote :: u ∧ StrBody u s t := by
  refine ⟨quoted kSerializeDefault s ++ Ch.quote :: t, ?_,
    unescape_eq_ok_iff.mp (unescape_quoted_bytes rfl t s)⟩
  rw [quoteText_eq, List.cons_append, List.append_assoc, List.singleton_append]

theorem Node.Reads.number {tok : Bytes} {n : Node} {e : Scalar}
    (htext : text (.source A direct) kSerializeDefault n = tok) (htok : NumTok tok)
    (hev : numEvent floatConv kParseDefault tok = some e) (hn : e.node = n)
    (hquick : n.Quick → Fast floatConv kParseDefault tok) : n.Reads A direct := by
  intro t
  refine ⟨.num tok, ?_, ?_, trivial, hquick⟩
  · rw [htext]
    exact .num htok
  · rw [den, hev, Option.map_some, hn]

/-- An integer in its range is read as it is. -/
theorem integer_read {m I : Bytes} (hm : m = [] ∨ m = [Ch.minus]) (hI : IntPart I)
    (hv : IntInRange m (decimal I)) :
    NumTok (m ++ I) ∧ numEvent floatConv kParseDefault (m ++ I) = some (intEvent m (decimal I)) ∧
      Fast floatConv kParseDefault (m ++ I) := by
  have hres : ∀ F : FloatConv, numRes F kParseDefault (m ++ I) =
    .event (0 + (m ++ I).length) (intEvent m (decimal I)) :=
    fun F => parseNumber_in_range hm hI rfl (inText_alone _) hv
  refine ⟨?_, ?_, fun g => ?_⟩
  · have htok := NumTok.mk hm hI .none .none
    rwa [List.append_nil, List.append_nil] at htok
  · unfold numEvent
    rw [hres]
    rfl
  · rw [hres, hres]

theorem uint_reads {v : ℕ} (hv : v < 2 ^ 64) : (Node.uint v).Reads A direct := by
  obtain ⟨ht, -⟩ := u64Text_decimally v
  rw [Nat.mod_eq_of_lt hv] at ht
  obtain ⟨htok, hev, hfast⟩ :=
    integer_read (.inl rfl) ht.int (show
    IntInRange [] (decimal (u64Text v)) by rw [ht.value]; exact hv)
  rw [ht.value] at hev
  exact .number rfl htok hev rfl fun _ => hfast

theorem sint_reads {w : ℤ} (hlo : -2 ^ 63 ≤ w) (hneg : w < 0) : (Node.sint w).Reads A direct := by
  have hw : w.bmod (2 ^ 64) = w := Int.bmod_eq_of_le hlo (by norm_num; omega)
  obtain ⟨t, htext, ht, -⟩ := i64Text_decimally w
  rw [hw] at htext ht
  have hm : Itoa.minusOf w = [] ∨ Itoa.minusOf w = [Ch.minus] := .inr (if_pos hneg)
  have hrange : IntInRange (Itoa.minusOf w) (decimal t) := by
    rw [ht.value]
    exact Itoa.intInRange_minusOf hlo (by omega)
  obtain ⟨htok, hev, hfast⟩ := integer_read hm ht.int hrange
  have hnode : Itoa.int64Node w = .Int w := if_neg (by omega)
  rw [ht.value, Itoa.intEvent_minusOf, hnode] at hev
  exact .number htext htok hev rfl fun _ => hfast

theorem real_reads {d : Double} (hfin : F64_INF_NAN_EXP d = false) : (Node.real d).Reads A direct := by
  obtain ⟨I, f, e, htext, hlen, hft, hshort⟩ := f64Text_float kSerializeDefault hfin
  have hpos := (f64Text_length kSerializeDefault d).2
  have hprint : text (.source A direct) kSerializeDefault (.real d) =
      Ftoa.signText d ++ (I ++ (f ++ e)) := by
    have hto : F64toa (.source A direct) kSerializeDefault d = f64Text kSerializeDefault d := by
      rw [F64toa, hfin, if_neg (by decide)]
      rfl
    rw [text, printReal, hto, if_neg (by omega), Option.getD_some, htext]
  have htok : NumTok (Ftoa.signText d ++ (I ++ (f ++ e))) := by
    have := NumTok.mk (signText_minus d) hft.int hft.frac hft.exp
    simpa only [List.append_assoc] using this
  have hquick : (Node.real d).Quick →
      Fast floatConv kParseDefault (Ftoa.signText d ++ (I ++ (f ++ e))) := by
    rw [← htext]
    exact id
  exact .number hprint htok (double_read (rexp_iff.mpr hfin) hft hshort (htext ▸ hlen)) rfl hquick

theorem Node.ElemsRead.cons {n : Node} {ns : List Node} (h : n.Reads A direct)
    (hs : ns ≠ [] → Node.ElemsRead A direct ns) :
    Node.ElemsRead A direct (n :: ns) := by
  intro t
  cases ns with
  | nil =>
    obtain ⟨v, hd, hn, hc, hq⟩ := h (Ch.rbrack :: t)
    refine ⟨[v], ?_, by rw [denElems, hn, Option.bind_some]; rfl, rfl, ⟨hc, trivial⟩,
      fun h => ⟨hq h.1, trivial⟩⟩
    rw [elems, List.append_nil]
    exact .elemLast (.nil _) hd (.nil _)
  | cons n' ns =>
    obtain ⟨vs, hds, hns, hlen, hcs, hqs⟩ := hs (List.cons_ne_nil _ _) t
    obtain ⟨v, hd, hn, hc, hq⟩ :=
      h (Ch.comma :: (elems (.source A direct) kSerializeDefault (n' :: ns) ++ Ch.rbrack :: t))
    refine ⟨v :: vs, ?_, by rw [denElems, hn, Option.bind_some, hns]; rfl, congrArg (· + 1) hlen,
      ⟨hc, hcs⟩, fun h => ⟨hq h.1, hqs h.2⟩⟩
    rw [elems, List.append_assoc, List.cons_append]
    exact .elemCons (.nil _) hd (.nil _) hds

theorem Node.MemsRead.cons {k : Bytes} {n : Node} {ms : List (Node × Node)} (h : n.Reads A direct)
    (hs : ms ≠ [] → Node.MemsRead A direct ms) : Node.MemsRead A direct ((.str k, n) :: ms) := by
  have hkey : ∀ t, ∃ u, text (.source A direct) kSerializeDefault (.str k) ++ t = Ch.quote :: u ∧
      StrBody u k t := by
    intro t
    rw [text]
    exact strBody_quoteText k t
  intro t
  cases ms with
  | nil =>
    obtain ⟨v, hd, hn, hc, hq⟩ := h (Ch.rbrace :: t)
    obtain ⟨u, hu, hbody⟩ :=
      hkey (Ch.colon :: (text (.source A direct) kSerializeDefault n ++ Ch.rbrace :: t))
    refine ⟨[(k, v)], ?_, by rw [denMems, hn, Option.bind_some]; rfl, rfl, ⟨hc, trivial⟩,
      fun h => ⟨hq h.1, trivial⟩⟩
    rw [mems, List.append_nil, List.append_assoc, List.cons_append, hu]
    exact .memLast (.nil _) hbody (.nil _) (.nil _) hd (.nil _)
  | cons m' ms =>
    obtain ⟨vs, hds, hns, hlen, hcs, hqs⟩ := hs (List.cons_ne_nil _ _) t
    obtain ⟨v, hd, hn, hc, hq⟩ :=
      h (Ch.comma :: (mems (.source A direct) kSerializeDefault (m' :: ms) ++ Ch.rbrace :: t))
    obtain ⟨u, hu, hbody⟩ := hkey (Ch.colon :: (text (.source A direct) kSerializeDefault n ++
      (Ch.comma :: (mems (.source A direct) kSerializeDefault (m' :: ms) ++ Ch.rbrace :: t))))
    refine ⟨(k, v) :: vs, ?_, by rw [denMems, hn, Option.bind_some, hns]; rfl,
      congrArg (· + 1) hlen, ⟨hc, hcs⟩, fun h => ⟨hq h.1, hqs h.2⟩⟩
    rw [mems, List.append_assoc, List.append_assoc, List.cons_append, List.cons_append, hu]
    exact .memCons (.nil _) hbody (.nil _) (.nil _) hd (.nil _) hds

mutual

/-- **The text of a delivered tree is read as the tree.** -/
theorem Node.Delivered.reads : ∀ {n : Node}, n.Delivered → Serialize.Small n → n.Reads A direct
  | .null, _, _ => fun _ => ⟨.null, .null, rfl, trivial, id⟩
  | .bool true, _, _ => fun _ => ⟨.bool true, .true, rfl, trivial, id⟩
  | .bool false, _, _ => fun _ => ⟨.bool false, .false, rfl, trivial, id⟩
  | .uint _, h, _ => uint_reads h
  | .sint _, h, _ => sint_reads h.1 h.2
  | .real _, h, _ => real_reads h
  | .str s, _, _ => fun t => by
    obtain ⟨u, hu, hbody⟩ := @strBody_quoteText A direct s t
    refine ⟨.str s, ?_, rfl, trivial, id⟩
    rw [text]
    exact hu ▸ .str hbody
  | .numStr _, h, _ => h.elim
  | .raw _, h, _ => h.elim
  | .arr [], _, _ => fun t => ⟨.arr [], .arrNil (.nil _), rfl, ⟨by decide, trivial⟩, id⟩
  | .arr (n :: ns), h, hs => fun t => by
    obtain ⟨vs, hd, hns, hlen, hc, hq⟩ := elemsDelivered_read (List.cons_ne_nil _ _) h hs.2 t
    have hlt := hs.1
    refine ⟨.arr vs, ?_, by rw [den, hns]; rfl, ⟨by omega, hc⟩, hq⟩
    rw [text, List.cons_append, List.append_assoc]
    exact .arr hd
  | .obj [], _, _ => fun t => ⟨.obj [], .objNil (.nil _), rfl, ⟨by decide, trivial⟩, id⟩
  | .obj (m :: ms), h, hs => fun t => by
    obtain ⟨vs, hd, hns, hlen, hc, hq⟩ := memsDelivered_read (List.cons_ne_nil _ _) h hs.2 t
    have hlt := hs.1
    refine ⟨.obj vs, ?_, by rw [den, hns]; rfl, ⟨by omega, hc⟩, hq⟩
    rw [text, List.cons_append, List.append_assoc]
    exact .obj hd

theorem elemsDelivered_read : ∀ {ns : List Node}, ns ≠ [] → Node.ElemsDelivered ns → ElemsSmall ns →
    Node.ElemsRead A direct ns
  | [], hne, _, _ => absurd rfl hne
  | _ :: _, _, h, hs =>
    .cons (Node.Delivered.reads h.1 hs.1) fun hne => elemsDelivered_read hne h.2 hs.2

theorem memsDelivered_read : ∀ {ms : List (Node × Node)}, ms ≠ [] → Node.MemsDelivered ms →
    MemsSmall ms → Node.MemsRead A direct ms
  | [], hne, _, _ => absurd rfl hne
  | (.str _, _) :: _, _, h, hs =>
    .cons (Node.Delivered.reads h.2.1 hs.2.1) fun hne => memsDelivered_read hne h.2.2 hs.2.2
  | (.null, _) :: _, _, h, _ | (.bool _, _) :: _, _, h, _ | (.uint _, _) :: _, _, h,
    _ | (.sint _, _) :: _, _, h, _
  | (.real _, _) :: _, _, h, _ | (.numStr _, _) :: _, _, h, _ | (.raw _, _) :: _, _, h,
    _ | (.arr _, _) :: _, _, h, _
  | (.obj _, _) :: _, _, h, _ => Bool.noConfusion h.1

end

end

/-! ### The round trip -/

section
open Serialize WriteBuffer

end

end SonicJson
