/-
# Equal pointers

A node of a JSON pointer has a string and a number, and a flag that says which of the
two it is; its `operator==` looks at the flag of the left operand only, so that an
empty string is equal to every number. Pointers that are equal and have nodes of the
same kinds, up to the first negative number, select the same, and no others do
(`eq_congruence_iff`): behind equal nodes a text whose innermost value is an object
without members tells a string from a number.
-/
import SonicJson.OnDemand
import SonicJson.Quote

namespace SonicJson

open Cursor

/-- A node of a pointer; the field that it does not use is as the constructors leave it. -/
structure GenericJsonPointerNode where
  str_ : Bytes
  num_ : ℤ
  is_number_ : Bool
  unused : if is_number_ then str_ = [] else num_ = 0

namespace GenericJsonPointerNode

/-- The constructors of strings. -/
def ofStr (str : Bytes) : GenericJsonPointerNode := ⟨str, 0, false, rfl⟩

/-- The constructor of the integral types. -/
def ofInt (i : ℤ) : GenericJsonPointerNode := ⟨[], i.bmod (2 ^ 32), true, rfl⟩

def IsStr (n : GenericJsonPointerNode) : Bool := !n.is_number_

/-- `operator==`. -/
def eq (lhs rhs : GenericJsonPointerNode) : Bool :=
  if lhs.IsStr then lhs.str_ == rhs.str_ else lhs.num_ == rhs.num_

/-- What the two engines read of a node. -/
def step (n : GenericJsonPointerNode) : PointerNode := if n.IsStr then .str n.str_ else .num n.num_

end GenericJsonPointerNode

open GenericJsonPointerNode

/-- A vector of nodes. -/
abbrev GenericJsonPointer := List GenericJsonPointerNode

namespace GenericJsonPointer

/-- `operator==` of vectors. -/
def eq : GenericJsonPointer → GenericJsonPointer → Bool
  | [], [] => true
  | a :: p, b :: q => a.eq b && eq p q
  | _, _ => false

def steps (p : GenericJsonPointer) : List PointerNode := p.map step

def AtPointer (n : Node) (p : GenericJsonPointer) : Option Node := n.atPointerImpl p.steps

variable (A : Arch)

def GetOnDemand (json : Bytes) (p : GenericJsonPointer) : Option OnDemand :=
  SonicJson.GetOnDemand A json p.steps

/-- Both ways equal, and with the same results of both engines. -/
structure Congruent (p q : GenericJsonPointer) : Prop where
  symm : eq q p = true
  atPointer : ∀ n, AtPointer n p = AtPointer n q
  onDemand : ∀ json, GetOnDemand A json p = GetOnDemand A json q

/-- The nodes are of the same kinds up to the first negative number, and from there on have the same
fields. -/
def Alike : GenericJsonPointer → GenericJsonPointer → Prop
  | a :: p, b :: q => a.is_number_ = b.is_number_ ∧
      if a.is_number_ ∧ a.num_ < 0 then List.Forall₂ (fun a b => a.str_ = b.str_ ∧
        a.num_ = b.num_) p q else Alike p q
  | _, _ => True

/-! ### Nodes -/

section
variable {a b : GenericJsonPointerNode} {p q : GenericJsonPointer}

theorem node_eq_str (h : a.is_number_ = false) : a.eq b = true ↔ a.str_ = b.str_ := by
  simp [GenericJsonPointerNode.eq, IsStr, h]

theorem node_eq_num (h : a.is_number_ = true) : a.eq b = true ↔ a.num_ = b.num_ := by
  simp [GenericJsonPointerNode.eq, IsStr, h]

/-- Nodes of one kind that are equal are the same. -/
theorem same_of_eq (hk : a.is_number_ = b.is_number_) (h : a.eq b = true) : a = b := by
  obtain ⟨s, n, k, hu⟩ := a
  obtain ⟨s', n', k', hu'⟩ := b
  obtain rfl : k = k' := hk
  cases k with
  | false =>
    obtain rfl : s = s' := (node_eq_str rfl).mp h
    obtain rfl : n = 0 := hu
    obtain rfl : n' = 0 := hu'
    rfl
  | true =>
    obtain rfl : n = n' := (node_eq_num rfl).mp h
    obtain rfl : s = [] := hu
    obtain rfl : s' = [] := hu'
    rfl

/-- Nodes that are equal both ways have the same fields. -/
theorem fields_of_eq (h : a.eq b = true) (h' : b.eq a = true) : a.str_ = b.str_ ∧ a.num_ = b.num_ := by
  by_cases hk : a.is_number_ = b.is_number_
  · obtain rfl := same_of_eq hk h
    exact ⟨rfl, rfl⟩
  cases ha : a.is_number_ with
  | false =>
    have hb : b.is_number_ = true := by simpa [ha] using hk
    exact ⟨(node_eq_str ha).mp h, ((node_eq_num hb).mp h').symm⟩
  | true =>
    have hb : b.is_number_ = false := by simpa [ha] using hk
    exact ⟨((node_eq_str hb).mp h').symm, (node_eq_num ha).mp h⟩

theorem node_eq_of_fields (h : a.str_ = b.str_ ∧ a.num_ = b.num_) : a.eq b = true := by
  rw [GenericJsonPointerNode.eq, h.1, h.2]
  split <;> exact beq_self_eq_true _

theorem eq_cons : eq (a :: p) (b :: q) = true ↔ a.eq b = true ∧ eq p q = true := by
  rw [eq, Bool.and_eq_true]

theorem eq_refl : ∀ p : GenericJsonPointer, eq p p = true
  | [] => rfl
  | _ :: p => eq_cons.mpr ⟨node_eq_of_fields ⟨rfl, rfl⟩, eq_refl p⟩

theorem eq_of_fields
    (h : List.Forall₂ (fun a b : GenericJsonPointerNode => a.str_ = b.str_ ∧ a.num_ = b.num_) p q) :
    eq q p = true := by
  induction h with
  | nil => rfl
  | cons h _ ih => exact eq_cons.mpr ⟨node_eq_of_fields ⟨h.1.symm, h.2.symm⟩, ih⟩

theorem fields_of_eq_eq : ∀ {p q : GenericJsonPointer}, eq p q = true → eq q p = true →
    List.Forall₂ (fun a b : GenericJsonPointerNode => a.str_ = b.str_ ∧ a.num_ = b.num_) p q
  | [], [], _, _ => .nil
  | _ :: _, _ :: _, h, h' => by
    rw [eq_cons] at h h'
    exact .cons (fields_of_eq h.1 h'.1) (fields_of_eq_eq h.2 h'.2)
  | [], _ :: _, h, _ => by cases h
  | _ :: _, [], h, _ => by cases h

end

/-! ### Alike pointers select the same -/

section
variable {A} {data : Bytes} {len : ℕ}

theorem atPointerImpl_negative {n : Node} {idx : ℤ} (h : idx < 0) (path : List PointerNode) :
    n.atPointerImpl (.num idx :: path) = none := by
  cases n with
  | arr vs => rw [Node.atPointerImpl, if_neg (by omega)]
  | _ => rfl

/-- Nothing behind a negative number is looked at. -/
theorem query_negative {idx : ℤ} (h : idx < 0) (path path' : List PointerNode) (st : SkipScanner) :
    query A data len (.num idx :: path) st = query A data len (.num idx :: path') st := by
  have he : ∀ st, GetArrayElem A data len idx st = (.kParseErrorInvalidChar, st) := fun st => if_pos h
  simp only [query, he]
  simp

/-- A step before two paths with the same results. -/
theorem atPointerImpl_cons {x : PointerNode} {path path' : List PointerNode}
    (h : ∀ n : Node, n.atPointerImpl path = n.atPointerImpl path') (n : Node) :
    n.atPointerImpl (x :: path) = n.atPointerImpl (x :: path') := by
  have hf : Node.atPointerImpl path = Node.atPointerImpl path' := funext h
  cases x <;> cases n <;> simp only [Node.atPointerImpl, hf]

theorem query_cons {x : PointerNode} {path path' : List PointerNode}
    (h : ∀ st, query A data len path st = query A data len path' st) (st : SkipScanner) :
    query A data len (x :: path) st = query A data len (x :: path') st := by
  cases x <;> simp only [query, h]

theorem alike_congruent : ∀ {p q : GenericJsonPointer}, eq p q = true → Alike p q →
    eq q p = true ∧ (∀ n : Node, n.atPointerImpl p.steps = n.atPointerImpl q.steps) ∧
      ∀ data len st, query A data len p.steps st = query A data len q.steps st
  | [], [], _, _ => ⟨rfl, fun _ => rfl, fun _ _ _ => rfl⟩
  | [], _ :: _, h, _ => by cases h
  | _ :: _, [], h, _ => by cases h
  | a :: p, b :: q, h, hl => by
    rw [eq_cons] at h
    obtain ⟨hk, hl⟩ := hl
    obtain rfl := same_of_eq hk h.1
    have ha : a.eq a = true := node_eq_of_fields ⟨rfl, rfl⟩
    by_cases hneg : a.is_number_ ∧ a.num_ < 0
    · rw [if_pos hneg] at hl
      have hstep : a.step = .num a.num_ := by simp [step, IsStr, hneg.1]
      refine ⟨eq_cons.mpr ⟨ha, eq_of_fields hl⟩, fun n => ?_, fun data len st => ?_⟩
      · rw [steps, steps, List.map_cons, List.map_cons, hstep, atPointerImpl_negative hneg.2,
          atPointerImpl_negative hneg.2]
      · rw [steps, steps, List.map_cons, List.map_cons, hstep]
        exact query_negative hneg.2 _ _ st
    · rw [if_neg hneg] at hl
      obtain ⟨h1, h2, h3⟩ := alike_congruent h.2 hl
      exact ⟨eq_cons.mpr ⟨ha, h1⟩, atPointerImpl_cons h2, fun data len => query_cons (h3 data len)⟩

/-! ### Others do not -/

/-- A value in which steps lead to an object without members. -/
def nest : List PointerNode → Json
  | [] => .obj []
  | .str s :: path => .obj [(s, nest path)]
  | .num i :: path => .arr (List.replicate i.toNat .null ++ [nest path])

/-- A text of the value. -/
def probe : List PointerNode → Bytes
  | [] => [Ch.lbrace, Ch.rbrace]
  | .str s :: path =>
    Ch.lbrace :: Ch.quote :: (quoted kSerializeDefault s ++ Ch.quote :: Ch.colon ::
      (probe path ++ [Ch.rbrace]))
  | .num i :: path =>
    Ch.lbrack :: ((List.replicate i.toNat (kNull ++ [Ch.comma])).flatten ++
      (probe path ++ [Ch.rbrack]))

theorem der_elems {v : Json} {s t : Bytes} (hd : ∀ t, Der (s ++ t) (.val v) t) : ∀ n : ℕ,
    Der ((List.replicate n (kNull ++ [Ch.comma])).flatten ++ (s ++ Ch.rbrack :: t))
      (.elems (List.replicate n .null ++ [v])) (Ch.rbrack :: t)
  | 0 => .elemLast (.nil _) (hd _) (.nil _)
  | n + 1 => .elemCons (.nil _) .null (.nil _) (der_elems hd n)

theorem der_probe : ∀ (path : List PointerNode) (t : Bytes), Der (probe path ++ t) (.val (nest path)) t
  | [], _ => .objNil (.nil _)
  | .str s :: path, t => by
    have hbody :
      StrBody (quoted kSerializeDefault s ++ Ch.quote ::
      (Ch.colon :: (probe path ++ Ch.rbrace :: t))) s _ :=
      unescape_eq_ok_iff.mp (unescape_quoted_bytes rfl _ s)
    have hmem : Der _ (.mems [(s, nest path)]) (Ch.rbrace :: t) :=
      .memLast (.nil _) hbody (.nil _) (.nil _) (der_probe path (Ch.rbrace :: t)) (.nil _)
    simpa [probe, nest] using Der.obj hmem
  | .num i :: path, t => by
    have hel := der_elems (t := t) (der_probe path) i.toNat
    simpa [probe, nest] using Der.arr hel

theorem nest_getElem? (i : ℕ) (v w : Json) : (List.replicate i v ++ [w])[i]? = some w := by
  rw [List.getElem?_append_right (by rw [List.length_replicate]), List.length_replicate, Nat.sub_self]
  rfl

/-- Steps without negative numbers lead the scanner into the value. -/
theorem query_nest (rest : List PointerNode) : ∀ (path : List PointerNode) {st : SkipScanner} {n : ℕ},
    (∀ i, .num i ∈ path → 0 ≤ i) → st.At data len (nest path) n →
    ∃ st', query A data len (path ++ rest) st = query A data len rest st' ∧ st'.At data len (.obj []) n
  | [], st, _, _, h => ⟨st, rfl, h⟩
  | .str s :: path, st, n, hpos, h => by
    obtain ⟨s₀, s₁, t, u, h1, h2, h3, -, hle⟩ := h
    have hspec := query_member (A := A) s (path ++ rest) h1 h2 h3
    have hm : Json.member [(s, nest path)] s = some (nest path) := by simp [Json.member]
    rw [hm] at hspec
    obtain ⟨st', e1, e2⟩ := hspec
    obtain ⟨st'', e3, e4⟩ :=
      query_nest rest path (fun i hi => hpos i (List.mem_cons_of_mem _ hi)) (e2.mono hle)
    exact ⟨st'', e1.trans e3, e4⟩
  | .num i :: path, st, n, hpos, h => by
    obtain ⟨s₀, s₁, t, u, h1, h2, h3, -, hle⟩ := h
    have hspec := query_elem (A := A) (path ++ rest) (hpos i List.mem_cons_self) h1 h2 h3 (by simp)
    rw [nest_getElem?] at hspec
    obtain ⟨st', e1, e2⟩ := hspec
    obtain ⟨st'', e3, e4⟩ :=
      query_nest rest path (fun i hi => hpos i (List.mem_cons_of_mem _ hi)) (e2.mono hle)
    exact ⟨st'', e1.trans e3, e4⟩

/-- At an object without members a string is not found, and a number is no step. -/
theorem query_empty {st : SkipScanner} {n : ℕ} (h : st.At data len (.obj []) n) (x : PointerNode)
    (path : List PointerNode) :
    ∃ p, query A data len (x :: path) st =
      some (.error (match x with
        | .str _ => .kParseErrorUnknownObjKey
        | .num _ => .kParseErrorMismatchType), p) := by
  obtain ⟨s₀, s, t, u, h1, hw, hd, -, -⟩ := h
  obtain ⟨c, r, p, k', rfl, hst, e1, h2, -⟩ := h1.value hw hd
  obtain rfl : c = Ch.lbrace := hst
  cases x with
  | str key =>
    obtain ⟨ms, hms', hms⟩ := hd.object_inv
    obtain rfl := Json.obj.inj hms'
    obtain ⟨-, hr⟩ := hms.resolve_right fun h => by cases h
    have htok := @GetNextToken_eq A _ [Ch.quote, Ch.rbrace] _ _ _ h2.left
    rw [quiet_key.token hr (by decide), tokenAt] at htok
    rw [query]
    simp only [e1, htok]
    rw [if_neg (by decide), if_pos (by decide)]
    exact ⟨_, rfl⟩
  | num idx =>
    rw [query]
    simp only [e1]
    rw [if_pos (by decide)]
    exact ⟨_, rfl⟩

/-- A step of another kind behind the same steps has another result, in the text made for them. -/
theorem GetOnDemand_probe {path : List PointerNode} (hpos : ∀ i, .num i ∈ path → 0 ≤ i)
    (s : Bytes) (i : ℤ) (rest rest' : List PointerNode) :
    SonicJson.GetOnDemand A (probe path) (path ++ .str s :: rest) ≠
      SonicJson.GetOnDemand A (probe path) (path ++ .num i :: rest') := by
  have hd := der_probe path []
  rw [List.append_nil] at hd
  have hat : SkipScanner.At (probe path) (probe path).length ⟨0, .init, List.replicate 32 0⟩
    (nest path) (probe path).length :=
    ⟨_, _, _, _, ⟨left_length.mpr (at_zero _), SpaceBits.valid_init _ _⟩, .nil _, hd,
      ⟨.nil _, .inl rfl⟩, le_rfl⟩
  obtain ⟨st₁, e1, h1⟩ := query_nest (A := A) (.str s :: rest) path hpos hat
  obtain ⟨st₂, e2, h2⟩ := query_nest (A := A) (.num i :: rest') path hpos hat
  obtain ⟨p₁, e3⟩ := query_empty (A := A) h1 (.str s) rest
  obtain ⟨p₂, e4⟩ := query_empty (A := A) h2 (.num i) rest'
  intro h
  rw [SonicJson.GetOnDemand, SonicJson.GetOnDemand, e1, e2, e3, e4] at h
  simp at h

theorem step_str {a : GenericJsonPointerNode} (h : a.is_number_ = false) :
    a.step = .str a.str_ := by simp [step, IsStr, h]

theorem step_num {a : GenericJsonPointerNode} (h : a.is_number_ = true) :
    a.step = .num a.num_ := by simp [step, IsStr, h]

/-- Pointers that are equal both ways and on demand give the same, behind the same steps, are alike. -/
theorem alike_of_onDemand :
    ∀ {p q : GenericJsonPointer} (pre : List PointerNode), (∀ i, .num i ∈ pre → 0 ≤ i) →
    eq p q = true → eq q p = true →
    (∀ json, SonicJson.GetOnDemand A json (pre ++ p.steps) =
    SonicJson.GetOnDemand A json (pre ++ q.steps)) → Alike p q
  | [], _, _, _, _, _, _ => trivial
  | _ :: _, [], _, _, h, _, _ => by cases h
  | a :: p, b :: q, pre, hpos, h, h', hod => by
    rw [eq_cons] at h h'
    simp only [steps, List.map_cons] at hod
    have hk : a.is_number_ = b.is_number_ := by
      by_contra hk
      cases ha : a.is_number_ with
      | false =>
        have hb : b.is_number_ = true := by simpa [ha] using hk
        rw [step_str ha, step_num hb] at hod
        exact GetOnDemand_probe hpos _ _ _ _ (hod (probe pre))
      | true =>
        have hb : b.is_number_ = false := by simpa [ha] using hk
        rw [step_num ha, step_str hb] at hod
        exact GetOnDemand_probe hpos _ _ _ _ (hod (probe pre)).symm
    obtain rfl := same_of_eq hk h.1
    refine ⟨rfl, ?_⟩
    split
    · exact fields_of_eq_eq h.2 h'.2
    · rename_i hneg
      refine alike_of_onDemand (pre ++ [a.step]) (fun i hi => ?_) h.2 h'.2 fun json => ?_
      · rcases List.mem_append.mp hi with hi | hi
        · exact hpos i hi
        · cases ha : a.is_number_ with
          | false =>
            rw [step_str ha] at hi
            simp at hi
          | true =>
            rw [step_num ha] at hi
            obtain rfl : i = a.num_ := by simpa using hi
            simpa [ha] using hneg
      · simpa [steps] using hod json

end

/-- **Equal pointers select the same** exactly where they are alike. -/
theorem eq_congruence_iff {p q : GenericJsonPointer} (h : eq p q = true) :
    Congruent A p q ↔ Alike p q := by
  constructor
  · intro hc
    exact alike_of_onDemand (A := A) [] (fun _ hi => absurd hi List.not_mem_nil) h hc.symm hc.onDemand
  · intro hl
    obtain ⟨h1, h2, h3⟩ := alike_congruent (A := A) h hl
    refine ⟨h1, h2, fun json => ?_⟩
    rw [GetOnDemand, GetOnDemand, SonicJson.GetOnDemand, SonicJson.GetOnDemand, h3]

/-- A name and an index, with themselves. -/
theorem eq_congruence_name : eq [ofStr [97], ofInt 1] [ofStr [97], ofInt 1] = true ∧
    (Congruent .avx2 [ofStr [97], ofInt 1] [ofStr [97], ofInt 1] ↔
    Alike [ofStr [97], ofInt 1] [ofStr [97], ofInt 1]) :=
  ⟨eq_refl _, eq_congruence_iff .avx2 (eq_refl _)⟩

/-- The empty name is equal to the index 5, which is not equal to it, and is equal both ways to the
index 0; in an array of one element the index 0 has a node and the name has none. -/
theorem eq_not_congruent : eq [ofStr []] [ofInt 5] = true ∧ eq [ofInt 5] [ofStr []] = false ∧
    eq [ofStr []] [ofInt 0] = true ∧ eq [ofInt 0] [ofStr []] = true ∧
    AtPointer (.arr [.null]) [ofStr []] = none ∧ AtPointer (.arr [.null]) [ofInt 0] = some .null ∧
    ¬ Congruent .avx2 [ofStr []] [ofInt 0] := by
  refine ⟨rfl, rfl, rfl, rfl, rfl, rfl, fun h => ?_⟩
  have h0 : AtPointer (.arr [.null]) [ofStr []] = none := rfl
  have h1 : AtPointer (.arr [.null]) [ofInt 0] = some .null := rfl
  rw [h.atPointer, h1] at h0
  exact Option.some_ne_none _ h0

end GenericJsonPointer

end SonicJson
