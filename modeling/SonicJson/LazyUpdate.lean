/-
# Updating a text by another

`UpdateLazy` parses one level of its two texts at a time and keeps the values as the text
that they are, until a member is in both objects. A node of such a tree stands for the
document that its texts denote (`Stands`), and lazy parsing of a text without escapes in
its names gives one level of its document (`LazyUpdate.ParseLazy_level`).
-/
import SonicJson.LazyParse
import SonicJson.Lib.Merge
import SonicJson.MemberMap
import SonicJson.RoundTrip

namespace SonicJson

open Cursor Index

/-! ### The merge of two documents -/

/-- A member with its name as bytes. -/
def Node.named (m : Node × Node) : Bytes × Node := (m.1.GetStringView, m.2)

mutual

/-- `s`, unless both are objects and `t` has members: then `t` with each member that `s` has too
merged with that of `s`, and behind them the other members of `s`. -/
def Node.merge : Node → Node → Node
  | .obj (m :: ms), .obj ss =>
    .obj (Node.mergeMems (m :: ms) (ss.map Node.named) ++
      ss.filter fun e => !((m :: ms).map fun m => m.1.GetStringView).contains e.1.GetStringView)
  | _, s => s

def Node.mergeMems : List (Node × Node) → List (Bytes × Node) → List (Node × Node)
  | [], _ => []
  | (k, v) :: ms, ss =>
    (k, match Merge.get ss k.GetStringView with
      | some w => v.merge w
      | none => v) :: Node.mergeMems ms ss

end

mutual

/-- The names of each object are distinct. -/
def Node.DistinctNames : Node → Prop
  | .arr vs => Node.ElemsDistinct vs
  | .obj ms => (ms.map fun m => m.1.GetStringView).Nodup ∧ Node.MemsDistinct ms
  | _ => True

def Node.ElemsDistinct : List Node → Prop
  | [] => True
  | v :: vs => v.DistinctNames ∧ Node.ElemsDistinct vs

def Node.MemsDistinct : List (Node × Node) → Prop
  | [] => True
  | (_, v) :: ms => v.DistinctNames ∧ Node.MemsDistinct ms

end

/-- No name has an escape, in an object text or in those of its members, members of these and so on. -/
def DeepPlain (json : Bytes) : Prop := ∀ raw, Relation.ReflTransGen MemberText json raw → PlainNames raw

/-! ### The handler -/

/-- Names and values by turns. -/
def pairUp : List Node → List (Node × Node)
  | k :: v :: ns => (k, v) :: pairUp ns
  | _ => []

/-- The nodes of one level, on a stack with its bottom first: the container that is open is the
first of them. -/
def LazySAXHandler : LazySAX (List Node) where
  StartArray st := (true, st ++ [.arr []])
  StartObject st := (true, st ++ [.obj []])
  EndArray count st := (true, (st.take (st.length - count)).set 0 (.arr ((st.drop 1).take count)))
  EndObject pairs st :=
    (true, (st.take (st.length - 2 * pairs)).set 0 (.obj (pairUp ((st.drop 1).take (2 * pairs)))))
  Key data _ st := (true, st ++ [.str data])
  Raw data st := (true, st ++ [.raw data])

namespace LazyUpdate

section
variable (A : Arch) (parseFlags : ParseFlags) (Malloc : ℕ → Option (ℕ → UInt8))

/-- The node is the root of the stack, unless the parse fails. -/
def ParseLazy (node : Node) (json : Bytes) : Option (ParseResult × Node) :=
  (SonicJson.ParseLazy A parseFlags LazySAXHandler Malloc json json.length []).map fun r =>
    if r.1.err_ ≠ .kErrorNone then (r.1, node) else (r.1, r.2.headD .null)

/-- A node that is the text of an object is parsed. -/
def expand : Node → Option (ParseResult × Node)
  | .raw s =>
    if s.head? = some Ch.lbrace then ParseLazy A parseFlags Malloc (.raw s) s
    else some (⟨.kErrorNone, 0⟩, .raw s)
  | n => some (⟨.kErrorNone, 0⟩, n)

/-- The loop over the members of the source; `update` is `UpdateNodeLazy`. -/
def updateMembers (update : Node → Node → Option (SonicError × Node)) : List (Node × Node) →
    DNode Node →
    Option (SonicError × DNode Node)
  | [], target => some (.kErrorNone, target)
  | (name, value) :: ms, target =>
    let key := name.GetStringView
    let i := target.findMemberImpl key
    match target.members[i]? with
    | none => updateMembers update ms (target.addMemberImpl key value).2
    | some m => (update m.2 value).bind fun r =>
      let target := { target with members := target.members.set i (m.1, r.2) }
      if r.1 ≠ .kErrorNone then some (r.1, target) else updateMembers update ms target

/-- The error and the target. Only objects just parsed are targets, whose block holds their members
and has no map. `none` where the depth is not enough. -/
def UpdateNodeLazy : ℕ → Node → Node → Option (SonicError × Node)
  | 0, _, _ => none
  | depth + 1, target, source =>
    (expand A parseFlags Malloc target).bind fun t =>
      if t.1.err_ ≠ .kErrorNone then some (t.1.err_, t.2)
      else
        (expand A parseFlags Malloc source).bind fun s =>
          if s.1.err_ ≠ .kErrorNone then some (s.1.err_, t.2)
          else
            match t.2, s.2 with
            | .obj ts, .obj ss =>
              if ts.isEmpty then some (.kErrorNone, .obj ss)
              else
                let target : DNode Node := ⟨ts.map Node.named, some ⟨ts.length, none⟩⟩
                (updateMembers (UpdateNodeLazy depth) ss target.CreateMap.2).map fun r =>
                  (r.1, .obj (r.2.members.map fun m => (.str m.1, m.2)))
            | _, source => some (.kErrorNone, source)

end

end LazyUpdate

section
variable (A B : Arch) (direct : ℕ → Bool) (parseFlags : ParseFlags) (Malloc : ℕ → Option (ℕ → UInt8))

/-- The text that is returned. A depth of as many levels as the target has bytes is enough. -/
def UpdateLazy (target source : Bytes) : Option Bytes :=
  (LazyUpdate.ParseLazy A parseFlags Malloc .null target).bind fun r₁ =>
    (LazyUpdate.ParseLazy A parseFlags Malloc .null source).bind fun r₂ =>
      if r₂.1.err_ ≠ .kErrorNone then some (if r₁.1.err_ ≠ .kErrorNone then [Ch.lbrace, Ch.rbrace]
        else target)
      else if r₁.1.err_ ≠ .kErrorNone then some source
      else
        (LazyUpdate.UpdateNodeLazy A parseFlags Malloc (target.length + 1) r₁.2 r₂.2).bind fun u =>
          if u.1 ≠ .kErrorNone then some [Ch.lbrace, Ch.rbrace]
          else
            (SerializeImpl (.source B direct) kSerializeDefault u.2
              ⟨[], target.length + source.length, true⟩).map fun w =>
              if w.1 ≠ .kErrorNone then [Ch.lbrace, Ch.rbrace] else w.2.buf

end

/-! ### One level as a node -/

theorem LazySAX.tells_append {σ : Type*} {H : LazySAX σ} : ∀ {es es' : List LazyEvent} {s s₁ : σ},
    H.tells es s = some s₁ → H.tells (es ++ es') s = H.tells es' s₁
  | [], _, _, _, h => by rw [← Option.some.inj h, List.nil_append]
  | e :: es, es', s, s₁, h => by
    obtain ⟨s₂, h1, h2⟩ := LazySAX.tells_cons h
    rw [List.cons_append, LazySAX.tells, h1, Option.bind_some, LazySAX.tells_append h2]

/-- The members of a level, as nodes by turns. -/
def levelNodes (es : List (Bytes × Bytes)) : List Node := es.flatMap fun e => [.str e.1, .raw e.2]

theorem levelNodes_length (es : List (Bytes × Bytes)) : (levelNodes es).length = 2 * es.length := by
  rw [levelNodes, List.length_flatMap]
  simp [Nat.mul_comm]

theorem pairUp_levelNodes : ∀ es : List (Bytes × Bytes),
    pairUp (levelNodes es) = es.map fun e => (Node.str e.1, Node.raw e.2)
  | [] => rfl
  | e :: es => congrArg ((Node.str e.1, Node.raw e.2) :: ·) (pairUp_levelNodes es)

theorem tells_members : ∀ (es : List (Bytes × Bytes)) (st : List Node),
    LazySAXHandler.tells (memberEvents es) st = some (st ++ levelNodes es)
  | [], st => by rw [levelNodes, List.flatMap_nil, List.append_nil]; rfl
  | e :: es, st => by
    have h : LazySAXHandler.tells [.Key e.1 false, .Raw e.2] st =
      some (st ++ [.str e.1] ++ [.raw e.2]) := rfl
    rw [memberEvents, List.flatMap_cons, LazySAX.tells_append h, ← memberEvents, tells_members es]
    simp [levelNodes]

theorem tells_object (es : List (Bytes × Bytes)) :
    LazySAXHandler.tells (.StartObject :: (memberEvents es ++ [.EndObject es.length])) [] =
      some [.obj (es.map fun e => (.str e.1, .raw e.2))] := by
  have hstart : LazySAXHandler.tells [.StartObject] [] = some [.obj []] := rfl
  rw [← List.singleton_append, LazySAX.tells_append hstart,
    LazySAX.tells_append (tells_members es [.obj []])]
  have hlen : ([Node.obj []] ++ levelNodes es).length - 2 * es.length = 1 := by
    rw [List.length_append, levelNodes_length, List.length_singleton]
    omega
  have hall : ((([Node.obj []] ++ levelNodes es).drop 1).take (2 * es.length)) = levelNodes es := by
    rw [List.singleton_append, List.drop_one, List.tail_cons, ← levelNodes_length, List.take_length]
  show some ((([Node.obj []] ++ levelNodes es).take _).set 0 _) = _
  rw [hlen, hall, pairUp_levelNodes]
  rfl

theorem tells_values : ∀ (es : List Bytes) (st : List Node),
    LazySAXHandler.tells (es.map .Raw) st = some (st ++ es.map .raw)
  | [], st => by rw [List.map_nil, List.map_nil, List.append_nil]; rfl
  | e :: es, st => by
    rw [List.map_cons, LazySAX.tells]
    show LazySAXHandler.tells (es.map .Raw) (st ++ [.raw e]) = _
    rw [tells_values es, List.append_assoc]
    rfl

theorem tells_array (es : List Bytes) :
    LazySAXHandler.tells (.StartArray :: (es.map .Raw ++ [.EndArray es.length])) [] =
      some [.arr (es.map .raw)] := by
  have hstart : LazySAXHandler.tells [.StartArray] [] = some [.arr []] := rfl
  rw [← List.singleton_append, LazySAX.tells_append hstart,
    LazySAX.tells_append (tells_values es [.arr []])]
  have hlen : ([Node.arr []] ++ es.map Node.raw).length - es.length = 1 := by
    rw [List.length_append, List.length_map, List.length_singleton]
    omega
  have hall : ((([Node.arr []] ++ es.map Node.raw).drop 1).take es.length) = es.map .raw := by
    rw [List.singleton_append, List.drop_one, List.tail_cons]
    exact List.take_of_length_le (by rw [List.length_map])
  show some ((([Node.arr []] ++ es.map Node.raw).take _).set 0 _) = _
  rw [hlen, hall]
  rfl

/-! ### Lazy parsing of the other texts -/

section
variable {σ : Type*} {A : Arch} {parseFlags : ParseFlags} {H : LazySAX σ}
    {Malloc : ℕ → Option (ℕ → UInt8)}
  {data : Bytes}
  {len : ℕ}

/-- The elements of an array: the text of each is told in order. -/
theorem lazyArrVal_elems : ∀ {vs : List Json} {s t : Bytes}, Der s (.elems vs) (Ch.rbrack :: t) →
    ∀ {fuel cnt pos : ℕ} {scan : SpaceBits}, vs.length ≤ fuel → Scan data len pos scan s →
    ∃ es : List Bytes, List.Forall₂ (fun v e => ∃ w, Der e (.val v) w ∧ Ws w []) vs es ∧
      (es.map fun e => e.length + 1).sum + t.length ≤ s.length ∧
        ∀ n sax sax', H.tells (es.map .Raw ++ [.EndArray (cnt + vs.length)]) sax = some sax' →
        lazyArrVal A H data len fuel cnt ⟨pos, scan, n, sax⟩ = some (⟨.kErrorNone, 0⟩, sax')
  | [], _, _, hd, _, _, _, _, _, _ => by cases hd
  | v :: vs, s, t, hd, 0, _, _, _, hf, _ => absurd hf (by simp)
  | v :: vs, s, t, hd, fuel + 1, cnt, pos, scan, hf, h => by
    cases hd with
    | elemLast hw hv hw' =>
      obtain ⟨raw, p, b, t', ⟨h1, -⟩, h2, h3, hsum, e1⟩ :=
        lazyRaw_eq (A := A) (H := H) h hw hv (next_rbrack hw')
      obtain ⟨p', b', -, e2⟩ := Lazy.SkipSpaceSafe_eq (σ := σ) h2 h3 (by decide)
      have l1 := hw.suffix.length_le
      have l2 := h3.suffix.length_le
      refine ⟨[raw], .cons h1.1 .nil, ?_, fun n sax sax' ht => ?_⟩
      · simp only [List.map_cons, List.map_nil, List.sum_cons, List.sum_nil, List.length_cons] at l2 ⊢
        omega
      obtain ⟨sax₁, ht1, ht⟩ := LazySAX.tells_cons ht
      obtain ⟨sax₂, ht2, ht⟩ := LazySAX.tells_cons ht
      obtain rfl := Option.some.inj ht
      have hend : H.EndArray (cnt + 1) sax₁ = (true, sax₂) := accept_pair ht2
      rw [lazyArrVal, e1 n sax sax₁ ht1]
      simp only [e2, hend]
      rw [if_neg (by decide), if_neg (by decide)]
      rfl
    | elemCons hw hv hw' hrest =>
      obtain ⟨raw, p, b, t', ⟨h1, -⟩, h2, h3, hsum, e1⟩ :=
        lazyRaw_eq (A := A) (H := H) h hw hv (next_comma hw')
      obtain ⟨p', b', h4, e2⟩ := Lazy.SkipSpaceSafe_eq (σ := σ) h2 h3 (by decide)
      obtain ⟨es, h5, hsums, e3⟩ :=
        @lazyArrVal_elems vs _ t hrest fuel (cnt + 1) _ _ (by simpa using hf) h4
      have l1 := hw.suffix.length_le
      have l2 := h3.suffix.length_le
      refine ⟨raw :: es, .cons h1.1 h5, ?_, fun n sax sax' ht => ?_⟩
      · simp only [List.map_cons, List.sum_cons, List.length_cons] at l2 ⊢
        omega
      obtain ⟨sax₁, ht1, ht⟩ := LazySAX.tells_cons ht
      rw [lazyArrVal, e1 n sax sax₁ ht1]
      simp only [e2]
      rw [if_pos trivial]
      refine e3 n sax₁ sax' ?_
      rw [Nat.add_right_comm, Nat.add_assoc]
      exact ht

/-- Stepping back over a byte that is no space. -/
theorem Scan.back {s t : Bytes} {pos : ℕ} {k : SpaceBits} {c : UInt8} (h : Scan data len pos k t)
    (hs : c :: t <:+ s) (hl : ∃ p, Left data len p s) (hc : IsSpace c = false) :
    Scan data len (pos - 1) k (c :: t) := by
  obtain ⟨p, hl⟩ := hl
  have hct := hl.suffix hs
  have hpos : pos = len - (c :: t).length + 1 := h.left.unique hct.succ
  refine ⟨by simpa [hpos] using hct, fun i hi h1 => ?_⟩
  rcases Nat.lt_or_ge i pos with hlt | hge
  · -- the byte itself is no space
    obtain rfl : i = len - (c :: t).length := by omega
    rw [hct.rd_eq, hc] at h1
    cases h1
  · exact h.valid i hge h1

/-- Elements without the whitespace before them. -/
theorem Der.elems_trim {s t : Bytes} {vs : List Json} (h : Der s (.elems vs) t) :
    Der (s.dropWhile IsSpace) (.elems vs) t := by
  have hstart : ∀ {s₁ s₂ : Bytes} {v : Json}, Ws s s₁ → Der s₁ (.val v) s₂ →
      s.dropWhile IsSpace = s₁ := by
    intro s₁ s₂ v hw hd
    obtain ⟨c, u, rfl, hc⟩ := hd.starts
    exact hw.dropWhile_eq hc.not_isSpace
  cases h with
  | elemLast hw hd hw' => exact .elemLast (hstart hw hd ▸ .nil _) hd hw'
  | elemCons hw hd hw' hr => exact .elemCons (hstart hw hd ▸ .nil _) hd hw' hr

/-- **An array text.** -/
theorem ParseLazy_array {json : Bytes} {vs : List Json} (h : JsonText json (.arr vs)) :
    ∃ es : List Bytes, List.Forall₂ (fun v e => ∃ w, Der e (.val v) w ∧ Ws w []) vs es ∧
      (2 ≤ json.length ∧ (es.map fun e => e.length + 1).sum + 1 ≤ json.length) ∧ ∀ sax sax',
        H.tells (.StartArray :: (es.map .Raw ++ [.EndArray vs.length])) sax = some sax' →
        ParseLazy A parseFlags H Malloc json json.length sax = some (⟨.kErrorNone, 0⟩, sax') := by
  obtain ⟨s, t, hw, hd, ht⟩ := h
  have hsc : Scan json json.length 0 .init json :=
    ⟨left_length.mpr (at_zero _), SpaceBits.valid_init _ _⟩
  obtain ⟨c, r, rfl, hst⟩ := hd.starts
  obtain rfl : c = Ch.lbrack := hst
  obtain ⟨p₁, b₁, h1, e1⟩ := Lazy.SkipSpaceSafe_eq (σ := σ) hsc hw (by decide)
  obtain ⟨vs', hvs', hr | hr⟩ := hd.array_inv
  · obtain ⟨rfl, hr⟩ := hr
    obtain rfl := Json.arr.inj hvs'
    obtain ⟨p₂, b₂, -, e2⟩ := Lazy.SkipSpaceSafe_eq (σ := σ) h1 hr (by decide)
    have hlen : 2 ≤ json.length := by
      have l1 := hw.suffix.length_le
      have l2 := hr.suffix.length_le
      simp only [List.length_cons] at l1 l2
      omega
    refine ⟨[], .nil, ⟨hlen, by simpa using hlen.trans' one_le_two⟩, fun sax sax' ht => ?_⟩
    obtain ⟨sax₁, ht1, ht⟩ := LazySAX.tells_cons ht
    obtain ⟨sax₂, ht2, ht⟩ := LazySAX.tells_cons ht
    obtain rfl := Option.some.inj ht
    have hstart : H.StartArray sax = (true, sax₁) := accept_pair ht1
    have hend : H.EndArray 0 sax₁ = (true, sax₂) := accept_pair ht2
    unfold ParseLazy
    simp only [e1, hstart, e2, hend]
    rw [if_pos trivial]
    rfl
  · obtain rfl := Json.arr.inj hvs'
    obtain ⟨c, u, hu, hc⟩ := hr.elems_starts
    have hws := ws_dropWhile r
    have hc' : IsSpace c = false := by simpa [hu] using List.head?_dropWhile_not IsSpace r
    rw [hu] at hws
    obtain ⟨p₂, b₂, h2, e2⟩ := Lazy.SkipSpaceSafe_eq (σ := σ) h1 hws hc'
    have htrim := hr.elems_trim
    rw [hu] at htrim
    have hfuel : vs.length ≤ json.length + 1 := by
      have h3 := hr.elems_length
      have h4 := hw.suffix.length_le
      rw [List.length_cons] at h4
      omega
    obtain ⟨es, h3, hsum, e3⟩ := @lazyArrVal_elems σ A H _ _ _ _ _ htrim _ 0 _ _ hfuel
      (h2.back hws.suffix ⟨_, h1.left⟩ hc')
    have l1 := hw.suffix.length_le
    have l2 := hws.suffix.length_le
    simp only [List.length_cons] at l1 l2 hsum
    refine ⟨es, h3, ⟨by omega, by omega⟩, fun sax sax' ht => ?_⟩
    obtain ⟨sax₁, ht1, ht⟩ := LazySAX.tells_cons ht
    have hstart : H.StartArray sax = (true, sax₁) := accept_pair ht1
    unfold ParseLazy
    simp only [e1, hstart, e2]
    rw [if_pos trivial, if_neg (by decide), if_neg hc]
    refine e3 0 sax₁ sax' ?_
    rwa [Nat.zero_add]

/-- **The text of a single value.** -/
theorem ParseLazy_single {json : Bytes} {v : Json} (h : JsonText json v) (harr : ∀ vs, v ≠ .arr vs)
    (hobj : ∀ ms, v ≠ .obj ms) :
    ∃ raw : Bytes, (∃ w, Der raw (.val v) w ∧ Ws w []) ∧ raw.length ≤ json.length ∧
      ∀ sax sax', H.tell (.Raw raw) sax = some sax' →
        ParseLazy A parseFlags H Malloc json json.length sax = some (⟨.kErrorNone, 0⟩, sax') := by
  obtain ⟨s, t, hw, hd, ht⟩ := h
  have hsc : Scan json json.length 0 .init json :=
    ⟨left_length.mpr (at_zero _), SpaceBits.valid_init _ _⟩
  obtain ⟨c, r, rfl, hst⟩ := hd.starts
  obtain ⟨p₁, b₁, h1, e1⟩ := Lazy.SkipSpaceSafe_eq (σ := σ) hsc hw hst.not_isSpace
  have hback := h1.back hw.suffix ⟨0, hsc.left⟩ hst.not_isSpace
  obtain ⟨raw, p, b, t', ⟨⟨h2, hle⟩, -⟩, -, -, -, e2⟩ :=
    lazyRaw_eq (A := A) (H := H) hback (.nil _) hd ⟨ht, .inl rfl⟩
  have hne : c ≠ Ch.lbrack ∧ c ≠ Ch.lbrace := ⟨fun he => by
    obtain ⟨vs, hvs, -⟩ := (he ▸ hd).array_inv
    exact harr vs hvs, fun he => by
    obtain ⟨ms, hms, -⟩ := (he ▸ hd).object_inv
    exact hobj ms hms⟩
  refine ⟨raw, h2, hle.trans hw.suffix.length_le, fun sax sax' ht => ?_⟩
  unfold ParseLazy
  simp only [e1]
  rw [if_neg hne.1, if_neg hne.2]
  simp only [e2 0 sax sax' ht]

end

/-! ### Nodes that stand for documents -/

/-- The text of a value, with whitespace behind it, and its document. -/
def TextOf (raw : Bytes) (d : Node) : Prop :=
  ∃ v w, Der raw (.val v) w ∧ Ws w [] ∧ den floatConv kParseDefault v = some d ∧ v.Counted

mutual

/-- A tree of containers around texts, and the document that it comes to. -/
def Stands : Node → Node → Prop
  | .raw r, d => TextOf r d
  | .arr vs, d => ∃ ds, d = .arr ds ∧ ElemsStand vs ds
  | .obj ms, d => ∃ ds, d = .obj ds ∧ MemsStand ms ds
  | _, _ => False

def ElemsStand : List Node → List Node → Prop
  | [], ds => ds = []
  | v :: vs, ds => ∃ e es, ds = e :: es ∧ Stands v e ∧ ElemsStand vs es

def MemsStand : List (Node × Node) → List (Node × Node) → Prop
  | [], ds => ds = []
  | (k, v) :: ms, ds => (∃ b, k = .str b) ∧ ∃ e es, ds = (k, e) :: es ∧ Stands v e ∧ MemsStand ms es

end

section
open Serialize

mutual

/-- A text counts as one node. -/
theorem stands_nodes : ∀ {n d : Node}, Stands n d → nodes n ≤ nodes d
  | .raw _, d, _ => single_nodes d
  | .arr vs, d, h => by
    obtain ⟨ds, rfl, hvs⟩ := h
    have := elemsStand_nodes hvs
    rw [nodes, nodes]
    omega
  | .obj ms, d, h => by
    obtain ⟨ds, rfl, hms⟩ := h
    have := memsStand_nodes hms
    rw [nodes, nodes]
    omega
  | .null, _, h | .bool _, _, h | .uint _, _, h | .sint _, _, h | .real _, _, h | .str _, _,
    h | .numStr _, _, h =>
    h.elim

theorem elemsStand_nodes : ∀ {vs ds : List Node}, ElemsStand vs ds → elemsNodes vs ≤ elemsNodes ds
  | [], _, h => by rw [h]
  | v :: vs, _, ⟨e, es, hds, hv, hvs⟩ => by
    subst hds
    have h1 := stands_nodes hv
    have h2 := elemsStand_nodes hvs
    rw [elemsNodes, elemsNodes]
    omega

theorem memsStand_nodes : ∀ {ms ds : List (Node × Node)}, MemsStand ms ds → memsNodes ms ≤ memsNodes ds
  | [], _, h => by rw [h]
  | (k, v) :: ms, _, ⟨_, e, es, hds, hv, hms⟩ => by
    subst hds
    have h1 := stands_nodes hv
    have h2 := memsStand_nodes hms
    rw [memsNodes, memsNodes]
    omega

end

mutual

theorem stands_printable : ∀ {n d : Node}, Stands n d → keys n = true ∧ finite n = true
  | .raw _, _, _ => ⟨rfl, rfl⟩
  | .arr _, _, ⟨_, _, hvs⟩ => elemsStand_printable hvs
  | .obj _, _, ⟨_, _, hms⟩ => memsStand_printable hms
  | .null, _, h | .bool _, _, h | .uint _, _, h | .sint _, _, h | .real _, _, h | .str _, _,
    h | .numStr _, _, h =>
    h.elim

theorem elemsStand_printable : ∀ {vs ds : List Node}, ElemsStand vs ds → elemsKeys vs = true ∧
    elemsFinite vs = true
  | [], _, _ => ⟨rfl, rfl⟩
  | v :: vs, _, ⟨e, es, _, hv, hvs⟩ => by
    obtain ⟨h1, h2⟩ := stands_printable hv
    obtain ⟨h3, h4⟩ := elemsStand_printable hvs
    exact ⟨by rw [elemsKeys, h1, h3]; rfl, by rw [elemsFinite, h2, h4]; rfl⟩

theorem memsStand_printable : ∀ {ms ds : List (Node × Node)}, MemsStand ms ds →
    memsKeys ms = true ∧ memsFinite ms = true
  | [], _, _ => ⟨rfl, rfl⟩
  | (k, v) :: ms, _, ⟨⟨b, hb⟩, e, es, _, hv, hms⟩ => by
    subst hb
    obtain ⟨h1, h2⟩ := stands_printable hv
    obtain ⟨h3, h4⟩ := memsStand_printable hms
    exact ⟨by rw [memsKeys, h1, h3]; rfl, by rw [memsFinite, h2, h4]; rfl⟩

end

section
variable {B : Arch} {direct : ℕ → Bool}

mutual

/-- **What is printed denotes what the node stands for**, whatever is behind it. -/
theorem stands_reads : ∀ {n d : Node}, Stands n d → Serialize.Small n → ∀ t, ∃ v u,
    Der (text (.source B direct) kSerializeDefault n ++ t) (.val v) u ∧ Ws u t ∧
      den floatConv kParseDefault v = some d ∧ v.Counted
  | .raw r, d, ⟨v, w, hd, hw, hn, hc⟩, _ => fun t => ⟨v, w ++ t, hd.append t, hw.append t, hn, hc⟩
  | .arr [], d, ⟨ds, hds, hvs⟩, _ => fun t => by
    obtain rfl : ds = [] := hvs
    exact ⟨.arr [], t, .arrNil (.nil _), .nil _, hds ▸ rfl, by decide, trivial⟩
  | .arr (v :: vs), d, ⟨ds, hds, hvs⟩, hs => fun t => by
    obtain ⟨js, hd, hns, hlen, hc⟩ := elemsStand_reads hvs (List.cons_ne_nil _ _) hs.2 t
    have hlt := hs.1
    refine ⟨.arr js, t, ?_, .nil _, by rw [den, hns, hds]; rfl, by omega, hc⟩
    rw [text, List.cons_append, List.append_assoc]
    exact .arr hd
  | .obj [], d, ⟨ds, hds, hms⟩, _ => fun t => by
    obtain rfl : ds = [] := hms
    exact ⟨.obj [], t, .objNil (.nil _), .nil _, hds ▸ rfl, by decide, trivial⟩
  | .obj (m :: ms), d, ⟨ds, hds, hms⟩, hs => fun t => by
    obtain ⟨js, hd, hns, hlen, hc⟩ := memsStand_reads hms (List.cons_ne_nil _ _) hs.2 t
    have hlt := hs.1
    refine ⟨.obj js, t, ?_, .nil _, by rw [den, hns, hds]; rfl, by omega, hc⟩
    rw [text, List.cons_append, List.append_assoc]
    exact .obj hd
  | .null, _, h, _ | .bool _, _, h, _ | .uint _, _, h, _ | .sint _, _, h, _ | .real _, _, h,
    _ | .str _, _, h, _
  | .numStr _, _, h, _ => h.elim

theorem elemsStand_reads : ∀ {vs ds : List Node}, ElemsStand vs ds → vs ≠ [] → ElemsSmall vs →
    ∀ t, ∃ js, Der (elems (.source B direct) kSerializeDefault vs ++ Ch.rbrack :: t) (.elems js)
    (Ch.rbrack :: t) ∧
      denElems floatConv kParseDefault js = some ds ∧ js.length = vs.length ∧ Json.ElemsCounted js
  | [], _, _, hne, _ => absurd rfl hne
  | [v], _, ⟨e, es, hds, hv, hvs⟩, _, hs => fun t => by
    obtain rfl : es = [] := hvs
    obtain ⟨j, u, hd, hw, hn, hc⟩ := stands_reads hv hs.1 (Ch.rbrack :: t)
    refine ⟨[j], ?_, by rw [denElems, hn, hds]; rfl, rfl, hc, trivial⟩
    rw [elems, List.append_nil]
    exact .elemLast (.nil _) hd hw
  | v :: v' :: vs, _, ⟨e, es, hds, hv, hvs⟩, _, hs => fun t => by
    obtain ⟨js, hds', hns, hlen, hcs⟩ := elemsStand_reads hvs (List.cons_ne_nil _ _) hs.2 t
    obtain ⟨j, u, hd, hw, hn, hc⟩ := stands_reads hv hs.1
      (Ch.comma :: (elems (.source B direct) kSerializeDefault (v' :: vs) ++ Ch.rbrack :: t))
    refine ⟨j :: js, ?_, by rw [denElems, hn, Option.bind_some, hns, hds]; rfl,
      congrArg (· + 1) hlen, hc, hcs⟩
    rw [elems, List.append_assoc, List.cons_append]
    exact .elemCons (.nil _) hd hw hds'

theorem memsStand_reads : ∀ {ms ds : List (Node × Node)}, MemsStand ms ds → ms ≠ [] → MemsSmall ms →
    ∀ t, ∃ js, Der (mems (.source B direct) kSerializeDefault ms ++ Ch.rbrace :: t) (.mems js)
    (Ch.rbrace :: t) ∧
      denMems floatConv kParseDefault js = some ds ∧ js.length = ms.length ∧ Json.MemsCounted js
  | [], _, _, hne, _ => absurd rfl hne
  | [(k, v)], _, ⟨⟨b, hb⟩, e, es, hds, hv, hms⟩, _, hs => fun t => by
    subst hb
    obtain rfl : es = [] := hms
    obtain ⟨j, u, hd, hw, hn, hc⟩ := stands_reads hv hs.2.1 (Ch.rbrace :: t)
    obtain ⟨q, hq, hbody⟩ := @strBody_quoteText B direct b
      (Ch.colon :: (text (.source B direct) kSerializeDefault v ++ Ch.rbrace :: t))
    refine ⟨[(b, j)], ?_, by rw [denMems, hn, hds]; rfl, rfl, hc, trivial⟩
    rw [mems, List.append_nil, List.append_assoc, List.cons_append, text]
    exact hq ▸ .memLast (.nil _) hbody (.nil _) (.nil _) hd hw
  | (k, v) :: m' :: ms, _, ⟨⟨b, hb⟩, e, es, hds, hv, hms⟩, _, hs => fun t => by
    subst hb
    obtain ⟨js, hds', hns, hlen, hcs⟩ := memsStand_reads hms (List.cons_ne_nil _ _) hs.2.2 t
    obtain ⟨j, u, hd, hw, hn, hc⟩ := stands_reads hv hs.2.1
      (Ch.comma :: (mems (.source B direct) kSerializeDefault (m' :: ms) ++ Ch.rbrace :: t))
    obtain ⟨q, hq, hbody⟩ :=
      @strBody_quoteText B direct b (Ch.colon :: (text (.source B direct) kSerializeDefault v ++
      (Ch.comma :: (mems (.source B direct) kSerializeDefault (m' :: ms) ++ Ch.rbrace :: t))))
    refine ⟨(b, j) :: js, ?_, by rw [denMems, hn, Option.bind_some, hns, hds]; rfl,
      congrArg (· + 1) hlen, hc, hcs⟩
    rw [mems, List.append_assoc, List.append_assoc, List.cons_append, List.cons_append, text]
    exact hq ▸ .memCons (.nil _) hbody (.nil _) (.nil _) hd hw hds'

end

end

end

/-! ### A level of a document -/

theorem Ws.head_eq {c d : UInt8} {r s : Bytes} (h : Ws (c :: r) (d :: s)) (hc : IsSpace c = false) :
    c = d := by
  cases h with
  | nil => rfl
  | cons hb _ => exact absurd (hb.symm.trans hc) (by decide)

/-- A text that is not of an object has no names. -/
theorem deepPlain_of_head {c : UInt8} {r : Bytes} (hs : IsSpace c = false) (hc : c ≠ Ch.lbrace) :
    DeepPlain (c :: r) := by
  intro raw h
  rcases Relation.ReflTransGen.cases_head h with rfl | ⟨b, ⟨s, hw, -⟩, -⟩
  · exact fun s l t hw => absurd (hw.head_eq hs) hc
  · exact absurd (hw.head_eq hs) hc

theorem head_not_brace {s t : Bytes} {v : Json} (h : Der s (.val v) t) (hv : ∀ ms, v ≠ .obj ms) :
    ∃ c r, s = c :: r ∧ IsSpace c = false ∧ c ≠ Ch.lbrace := by
  obtain ⟨c, r, rfl, hst⟩ := h.starts
  refine ⟨c, r, rfl, hst.not_isSpace, ?_⟩
  rintro rfl
  obtain ⟨ms, hms, -⟩ := h.object_inv
  exact hv ms hms

/-- The name and the text of a member, and the member. -/
structure StandsAt (a : ℕ) (e : Bytes × Bytes) (n : Node × Node) : Prop where
  name : n.1 = .str e.1
  verbatim : Verbatim e.1
  short : e.2.length < a
  text : TextOf e.2 n.2
  plain : DeepPlain e.2

/-- One level of a document of at most `a` bytes with its values as texts, or all of it as a text. -/
inductive LazyOf (a : ℕ) : Node → Node → Prop
  | raw {r : Bytes} {d : Node} : r.length ≤ a → TextOf r d → DeepPlain r → LazyOf a (.raw r) d
  | obj {es : List (Bytes × Bytes)} {ns : List (Node × Node)} : 2 ≤ a ∧
    (es.map memberSize).sum + 1 ≤ a →
      List.Forall₂ (StandsAt a) es ns → LazyOf a (.obj (es.map fun e => (.str e.1, .raw e.2))) (.obj ns)
  | arr {es : List Bytes} {ns : List Node} : 2 ≤ a ∧ (es.map fun e => e.length + 1).sum + 1 ≤ a →
    2 * es.length ≤ a →
      List.Forall₂ TextOf es ns → LazyOf a (.arr (es.map .raw)) (.arr ns)

theorem LazyOf.mono {a b : ℕ} {n d : Node} (h : LazyOf a n d) (hab : a ≤ b) : LazyOf b n d := by
  cases h with
  | raw h1 h2 h3 => exact .raw (h1.trans hab) h2 h3
  | obj h1 h2 =>
    exact .obj ⟨h1.1.trans hab, h1.2.trans hab⟩ (h2.imp fun _ _ h => ⟨h.name, h.verbatim,
      h.short.trans_le hab, h.text, h.plain⟩)
  | arr h1 h2 h3 => exact .arr ⟨h1.1.trans hab, h1.2.trans hab⟩ (h2.trans hab) h3

theorem LazyOf.stands {a : ℕ} {n d : Node} (h : LazyOf a n d) : Stands n d := by
  cases h with
  | raw _ h _ => exact h
  | obj hlen h =>
    clear hlen
    refine ⟨_, rfl, ?_⟩
    induction h with
    | nil => exact rfl
    | @cons e n es ns he _ ih => exact ⟨⟨_, rfl⟩, n.2, ns, by rw [← he.name], he.text, ih⟩
  | arr hlen hcount h =>
    clear hlen hcount
    refine ⟨_, rfl, ?_⟩
    induction h with
    | nil => exact rfl
    | @cons e n es ns he _ ih => exact ⟨n, ns, rfl, he, ih⟩

theorem standsAt_mem {b : ℕ} {es : List (Bytes × Bytes)} {ns : List (Node × Node)}
    (h : List.Forall₂ (StandsAt b) es ns) {e : Bytes × Bytes} (he : e ∈ es) :
    ∃ n ∈ ns, StandsAt b e n := by
  induction h with
  | nil => cases he
  | @cons e' n es ns h1 _ ih =>
    rcases List.mem_cons.mp he with rfl | he
    · exact ⟨n, List.mem_cons_self, h1⟩
    · obtain ⟨n', h2, h3⟩ := ih he
      exact ⟨n', List.mem_cons_of_mem _ h2, h3⟩

theorem elemsSmall_raw : ∀ es : List Bytes, Serialize.ElemsSmall (es.map .raw)
  | [] => trivial
  | _ :: es => ⟨trivial, elemsSmall_raw es⟩

theorem memsSmall_raw :
    ∀ es : List (Bytes × Bytes), Serialize.MemsSmall (es.map fun e => (.str e.1, .raw e.2))
  | [] => trivial
  | _ :: es => ⟨trivial, trivial, memsSmall_raw es⟩

theorem members_le : ∀ es : List (Bytes × Bytes), 4 * es.length ≤ (es.map memberSize).sum
  | [] => Nat.zero_le _
  | e :: es => by
    have := members_le es
    simp only [List.length_cons, List.map_cons, List.sum_cons, memberSize]
    omega

theorem LazyOf.small {a : ℕ} {n d : Node} (h : LazyOf a n d) (ha : a < 2 ^ 31) : Serialize.Small n := by
  cases h with
  | raw _ _ _ => trivial
  | @obj es _ hlen _ =>
    have := members_le es
    exact ⟨by rw [List.length_map]; omega, memsSmall_raw _⟩
  | arr _ hlen _ => exact ⟨by rw [List.length_map]; omega, elemsSmall_raw _⟩

/-- A name that is written as it is. -/
theorem Verbatim.quoted_eq {name : Bytes} (h : Verbatim name) :
    quoted kSerializeDefault name = name := by
  have := @quoted_plain_append kSerializeDefault [] name fun b hb => by
    obtain ⟨h1, h2, h3⟩ := h b hb
    refine ⟨?_, rfl⟩
    rw [kNeedEscaped, beq_eq_false_iff_ne.mpr h2, beq_eq_false_iff_ne.mpr h3, Bool.or_false,
      Bool.or_false, decide_eq_false_iff_not]
    exact fun hc => absurd (UInt8.le_trans h1 hc) (by decide)
  rwa [List.append_nil, show quoted kSerializeDefault [] = [] from rfl, List.append_nil] at this

section
variable {B : Arch} {direct : ℕ → Bool}

open Serialize

/-- What members are printed with: a comma less than their sizes. -/
theorem mems_le : ∀ {l : List (Bytes × Node)}, l ≠ [] → (∀ m ∈ l, Verbatim m.1) →
    (mems (.source B direct) kSerializeDefault (l.map fun m => (.str m.1, m.2))).length + 1 ≤
      Merge.size (fun k => k.length + 4) (fun v =>
        (text (.source B direct) kSerializeDefault v).length) l
  | [], hne, _ => absurd rfl hne
  | m :: l, _, h => by
    have hq : (text (.source B direct) kSerializeDefault (.str m.1)).length = m.1.length + 2 := by
      rw [text]
      show (quoteText B direct kSerializeDefault m.1).length = _
      rw [quoteText_eq, (h m List.mem_cons_self).quoted_eq, List.length_cons, List.length_append,
        List.length_singleton]
    cases l with
    | nil =>
      simp only [List.map_cons, List.map_nil, mems, List.append_nil, List.length_append,
        List.length_cons, Merge.size, List.sum_cons, List.sum_nil, hq]
      omega
    | cons m' l =>
      have hl := @mems_le (m' :: l) (List.cons_ne_nil _ _) fun m hm => h m (List.mem_cons_of_mem _ hm)
      simp only [List.map_cons, mems, List.length_append, List.length_cons, Merge.size,
        List.sum_cons, hq] at hl ⊢
      omega

theorem elems_le : ∀ {es : List Bytes}, es ≠ [] →
    (elems (.source B direct) kSerializeDefault (es.map .raw)).length + 1 ≤
    (es.map fun e => e.length + 1).sum
  | [], hne => absurd rfl hne
  | [e], _ => by simp [elems, text]
  | e :: e' :: es, _ => by
    have := @elems_le (e' :: es) (List.cons_ne_nil _ _)
    simp only [List.map_cons, elems, text, List.length_append, List.length_cons, List.sum_cons]
      at this ⊢
    omega

/-- The sizes of members whose values are texts. -/
theorem size_raw : ∀ es : List (Bytes × Bytes),
    Merge.size (fun k => k.length + 4) (fun v => (text (.source B direct) kSerializeDefault v).length)
      (es.map fun e => (e.1, .raw e.2)) = (es.map memberSize).sum
  | [] => rfl
  | e :: es => by
    have := size_raw es
    simp only [Merge.size, List.map_cons, List.sum_cons, text, memberSize] at this ⊢
    omega

/-- **A level is printed in no more bytes** than its text has. -/
theorem LazyOf.text_le {a : ℕ} {n d : Node} (h : LazyOf a n d) :
    (text (.source B direct) kSerializeDefault n).length ≤ a := by
  cases h with
  | raw hle _ _ =>
    rw [text]
    exact hle
  | @obj es ns hlen hes =>
    rw [text, List.length_cons, List.length_append, List.length_singleton]
    by_cases hne : es = []
    · subst hne
      exact hlen.1
    · have hverb : ∀ m ∈ es.map fun e => (e.1, Node.raw e.2), Verbatim m.1 := by
        intro m hm
        obtain ⟨e, he, rfl⟩ := List.mem_map.mp hm
        obtain ⟨n, -, hst⟩ := standsAt_mem hes he
        exact hst.verbatim
      have hmems := @mems_le B direct _ (by simpa using hne) hverb
      rw [size_raw, List.map_map] at hmems
      have := hlen.2
      exact (Nat.succ_le_succ hmems).trans this
  | @arr es ns hlen _ _ =>
    rw [text, List.length_cons, List.length_append, List.length_singleton]
    by_cases hne : es = []
    · subst hne
      exact hlen.1
    · have helems := @elems_le B direct _ hne
      have := hlen.2
      omega

end

/-- A text has two bytes for each node, but for one. -/
theorem JsonText.nodes_le {s : Bytes} {v : Json} {n : Node} {F : FloatConv} {flags : ParseFlags}
    (h : JsonText s v) (hn : den F flags v = some n) : 2 * Serialize.nodes n ≤ s.length + 1 := by
  obtain ⟨s₁, t, hw, hd, -⟩ := h
  have h1 := hd.fits n hn
  have h2 := hw.suffix.length_le
  omega

/-- The members that are told of stand for those of the document. -/
theorem standsAt_members {json : Bytes} (hp : DeepPlain json) {ms : List (Bytes × Json)}
    {es : List (Bytes × Bytes)} (h : List.Forall₂ (LazyMember json) ms es) :
    ∀ {ns : List (Node × Node)},
      denMems floatConv kParseDefault ms = some ns →
    Json.MemsCounted ms → List.Forall₂ (StandsAt json.length) es ns := by
  induction h with
  | nil =>
    intro ns hns _
    obtain rfl := Option.some.inj hns
    exact .nil
  | @cons m e ms es he _ ih =>
    intro ns hns hc
    simp only [denMems, Option.bind_eq_some_iff, Option.map_eq_some_iff] at hns
    obtain ⟨n, hn, ns, hns, rfl⟩ := hns
    obtain ⟨w, hd, hw⟩ := he.raw
    refine .cons ⟨by rw [he.name], he.verbatim, he.shorter, ⟨m.2, w, hd, hw, hn, hc.1⟩,
      ?_⟩ (ih hns hc.2)
    by_cases hobj : ∃ ms, m.2 = .obj ms
    · obtain ⟨ms, hms⟩ := hobj
      exact fun raw hraw => hp raw (.head (he.value ms hms) hraw)
    · obtain ⟨c, r, hcr, h1, h2⟩ := head_not_brace hd fun ms hms => hobj ⟨ms, hms⟩
      rw [hcr]
      exact deepPlain_of_head h1 h2

namespace LazyUpdate

section
variable {A : Arch} {parseFlags : ParseFlags} {Malloc : ℕ → Option (ℕ → UInt8)}

/-- **Lazy parsing gives one level of the document.** -/
theorem ParseLazy_level {json : Bytes} {v : Json} {d : Node} (hj : JsonText json v)
    (hden : den floatConv kParseDefault v = some d)
    (hc : v.Counted) (hp : DeepPlain json) (node : Node) :
      ∃ n, ParseLazy A parseFlags Malloc node json = some (⟨.kErrorNone, 0⟩, n) ∧
      LazyOf json.length n d ∧ ∀ ms, v = .obj ms → ∃ ns, n = .obj ns := by
  by_cases hobj : ∃ ms, v = .obj ms
  · obtain ⟨ms, rfl⟩ := hobj
    obtain ⟨ns, hns, rfl⟩ := Option.map_eq_some_iff.mp hden
    obtain ⟨es, hes, hsum, h⟩ :=
      @ParseLazy_object _ A parseFlags LazySAXHandler Malloc _ _ hj (hp json .refl)
    have hlen : ms.length = es.length := hes.length_eq
    have hst := standsAt_members hp hes hns hc.2
    refine ⟨_, ?_, .obj hsum hst, fun _ _ => ⟨_, rfl⟩⟩
    rw [ParseLazy, h [] _ (hlen ▸ tells_object es)]
    rfl
  by_cases harr : ∃ vs, v = .arr vs
  · obtain ⟨vs, rfl⟩ := harr
    obtain ⟨ns, hns, rfl⟩ := Option.map_eq_some_iff.mp hden
    obtain ⟨es, hes, hsum, h⟩ := @ParseLazy_array _ A parseFlags LazySAXHandler Malloc _ _ hj
    have hlen : vs.length = es.length := hes.length_eq
    have hcount : 2 * es.length ≤ json.length := by
      have h1 := hj.nodes_le hden
      have h2 := length_le_elemsNodes ns
      have h3 := SAXHandler.denElems_length floatConv kParseDefault vs hns
      rw [Serialize.nodes] at h1
      omega
    refine ⟨_, by rw [ParseLazy, h [] _ (hlen ▸ tells_array es)]; rfl, .arr hsum hcount ?_,
      fun ms hms => absurd ⟨ms, hms⟩ hobj⟩
    have hcs := hc.2
    clear hj hden h hlen hobj hcount hc hsum
    induction hes generalizing ns with
    | nil =>
      obtain rfl := Option.some.inj hns
      exact .nil
    | @cons j e vs es he _ ih =>
      simp only [denElems, Option.bind_eq_some_iff, Option.map_eq_some_iff] at hns
      obtain ⟨n, hn, ns, hns, rfl⟩ := hns
      obtain ⟨w, hd, hw⟩ := he
      exact .cons ⟨j, w, hd, hw, hn, hcs.1⟩ (ih ns hns hcs.2)
  · obtain ⟨raw, ⟨w, hd, hw⟩, hle, h⟩ := @ParseLazy_single _ A parseFlags LazySAXHandler Malloc _ _ hj
      (fun vs hv => harr ⟨vs, hv⟩) fun ms hv => hobj ⟨ms, hv⟩
    refine ⟨.raw raw, by rw [ParseLazy, h [] [.raw raw] rfl]; rfl, .raw hle ⟨v, w, hd, hw, hden, hc⟩ ?_,
      fun ms hms => absurd ⟨ms, hms⟩ hobj⟩
    obtain ⟨c, r, hcr, h1, h2⟩ := head_not_brace hd fun ms hv => hobj ⟨ms, hv⟩
    rw [hcr]
    exact deepPlain_of_head h1 h2

/-- A node that is expanded is the first level of its document: an object where that is one. -/
theorem expand_level {a : ℕ} {n d : Node} (h : LazyOf a n d) :
    ∃ n', expand A parseFlags Malloc n = some (⟨.kErrorNone, 0⟩, n') ∧ LazyOf a n' d ∧
      ∀ ns, d = .obj ns → ∃ ms, n' = .obj ms := by
  cases h with
  | obj h1 h2 => exact ⟨_, rfl, .obj h1 h2, fun _ _ => ⟨_, rfl⟩⟩
  | arr h1 h2 h3 => exact ⟨_, rfl, .arr h1 h2 h3, fun _ hd => by cases hd⟩
  | @raw r d hle ht hp =>
    obtain ⟨v, w, hd, hw, hden, hc⟩ := ht
    obtain ⟨c, u, rfl, hst⟩ := hd.starts
    by_cases hb : c = Ch.lbrace
    · subst hb
      obtain ⟨ms, hms, -⟩ := hd.object_inv
      obtain ⟨n', h1, h2, h3⟩ := @ParseLazy_level A parseFlags Malloc (Ch.lbrace :: u) v d
        ⟨_, w, .nil _, hd, hw⟩ hden hc hp (.raw (Ch.lbrace :: u))
      refine ⟨n', ?_, h2.mono hle, fun ns _ => h3 ms hms⟩
      rw [expand, if_pos (show (Ch.lbrace :: u).head? = some Ch.lbrace from rfl), h1]
    · refine ⟨.raw (c :: u), ?_, .raw hle ⟨v, w, hd, hw, hden, hc⟩ hp, fun ns hns => ?_⟩
      · rw [expand, if_neg]
        simpa using hb
      · obtain ⟨ms, hms, -⟩ := den_obj_inv (hns ▸ hden)
        subst hms
        exact absurd hst hb

end

end LazyUpdate

end SonicJson
