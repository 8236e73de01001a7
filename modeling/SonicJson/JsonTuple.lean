/-
# Taking values out of an object

`JsonTupleWithCodeGen` goes once over the members of an object and stops when as many
members were found as there are keys. A name that repeats is counted each time, and so is
a null: a key is lost if that many members with wanted names stand before it. On the
texts that the parser accepts the result is that of a walk over the members
(`takeTuple`), and nothing is lost exactly where no key comes too late
(`JsonTupleWithCodeGen_loses_none`).
-/
import SonicJson.ScanText
import SonicJson.Unambiguous

namespace SonicJson

open Prog

/-! ### Members -/

/-- What stands behind the value of a member, up to the closing brace before `t`: the members `ms`. -/
def MoreMems (s : Bytes) (ms : List (Bytes × Json)) (t : Bytes) : Prop :=
  ∃ u, Ws s u ∧ (ms = [] ∧ u = Ch.rbrace :: t ∨ ∃ r, u = Ch.comma :: r ∧
    Der r (.mems ms) (Ch.rbrace :: t))

/-- A member at `s`, with its name, its value and the members behind it. -/
inductive MemberAt : Bytes → Bytes → Json → List (Bytes × Json) → Bytes → Prop
  | mk {s s₁ s₂ s₃ s₄ s₅ k v ms t} : Ws s (Ch.quote :: s₁) → StrBody s₁ k s₂ →
    Ws s₂ (Ch.colon :: s₃) → Ws s₃ s₄ →
      Der s₄ (.val v) s₅ → MoreMems s₅ ms t → MemberAt s k v ms t

theorem Der.memberAt {s t k : Bytes} {v : Json} {ms : List (Bytes × Json)}
    (h : Der s (.mems ((k, v) :: ms)) (Ch.rbrace :: t)) : MemberAt s k v ms t := by
  cases h with
  | memLast hw hk h2 h3 hd h4 => exact .mk hw hk h2 h3 hd ⟨_, h4, .inl ⟨rfl, rfl⟩⟩
  | memCons hw hk h2 h3 hd h4 hr => exact .mk hw hk h2 h3 hd ⟨_, h4, .inr ⟨_, rfl, hr⟩⟩

/-- Members, from the quote of the first on. -/
theorem Der.mems_from {s q t : Bytes} {ms : List (Bytes × Json)} (h : Der s (.mems ms) t)
    (hq : s.dropWhile IsSpace = Ch.quote :: q) : Der (Ch.quote :: q) (.mems ms) t := by
  have from_quote : ∀ {s₁}, Ws s (Ch.quote :: s₁) → Ws (Ch.quote :: q) (Ch.quote :: s₁) := by
    intro s₁ hw
    rw [← hq, hw.dropWhile_eq (by decide)]
    exact .nil _
  cases h with
  | memLast hw hk h2 h3 hd h4 => exact .memLast (from_quote hw) hk h2 h3 hd h4
  | memCons hw hk h2 h3 hd h4 hr => exact .memCons (from_quote hw) hk h2 h3 hd h4 hr

/-- The quote of a string is seen before it is read. -/
theorem Json.Starts.string_iff {v : Json} {b : UInt8} (h : v.Starts b) :
    (if b = Ch.quote then JsonValueType.STRING else .OTHER) = .STRING ↔ ∃ s, v = .str s := by
  constructor
  · intro hs
    split at hs
    · next hb => exact Json.eq_of_starts_str (hb ▸ h)
    · cases hs
  · rintro ⟨s, rfl⟩
    exact if_pos h

theorem MoreMems.next {s t : Bytes} {ms : List (Bytes × Json)} (h : MoreMems s ms t) :
    ∃ u, Next s u ∧ (ms = [] ∧ u = Ch.rbrace :: t ∨ ∃ r, u = Ch.comma :: r ∧
      Der r (.mems ms) (Ch.rbrace :: t)) := by
  obtain ⟨u, hw, hu⟩ := h
  refine ⟨u, ?_, hu⟩
  rcases hu with ⟨-, rfl⟩ | ⟨r, rfl, -⟩
  · exact next_rbrace hw
  · exact next_comma hw

/-- The first member whose name `f` takes: what it makes of the name, the value, and the members
behind. -/
def firstMatch {α : Type} (f : Bytes → Option α) : List (Bytes × Json) →
    Option (α × Json × List (Bytes × Json))
  | [] => none
  | (k, v) :: ms =>
    match f k with
    | some r => some (r, v, ms)
    | none => firstMatch f ms

section
variable {α : Type} {f : Bytes → Option α} {k : Bytes} {v : Json} {ms : List (Bytes × Json)}

theorem firstMatch_cons_some {r : α} (h : f k = some r) :
    firstMatch f ((k, v) :: ms) = some (r, v, ms) := by
  simp only [firstMatch, h]

theorem firstMatch_cons_none (h : f k = none) : firstMatch f ((k, v) :: ms) = firstMatch f ms := by
  simp only [firstMatch, h]

end

namespace SkipScanner2

variable {A : Arch} {data : Bytes} {len : ℕ}

/-! ### The search for a member -/

/-- The scanner is before the value `v`, with the members `ms` behind it. -/
inductive AtValue (data : Bytes) (len : ℕ) (st : SkipScanner2) (v : Json) (ms : List (Bytes × Json))
    (t : Bytes) : Prop
  | mk {s₀ s s₁} : On data len st s₀ → Ws s₀ s → Der s (.val v) s₁ → MoreMems s₁ ms t →
    AtValue data len st v ms t

section
variable {α : Type} {f : Bytes → Option α} {match_ : Scanning (Option α)} {miss false_ : α}

/-- `match_` reads a key and answers `f` of it. -/
def Matches (data : Bytes) (len : ℕ) (match_ : Scanning (Option α)) (f : Bytes → Option α) : Prop :=
  ∀ st s k t, On data len st s → StrBody s k t →
    ∃ st', match_.exec (SpaceCall.skip data len) st = some (f k, st') ∧ On data len st' t

/-- A round of the loop on a name that is taken: up to its value. -/
theorem advanceBody_match (hm : Matches data len match_ f) {st : SkipScanner2}
    {s s₁ s₂ k : Bytes} {r : α} (h : On data len st s) (hk : StrBody s k s₁)
    (hc : Ws s₁ (Ch.colon :: s₂)) (hf : f k = some r) :
    ∃ st', (advanceBody A data len match_ miss false_ Ch.quote).exec (SpaceCall.skip data len) st =
      some (.inr r, st') ∧
      On data len st' s₂ := by
  obtain ⟨st₁, e1, h1⟩ := hm st s k s₁ h hk
  obtain ⟨st₂, e2, h2⟩ := exec_consume h1 (hc.dropWhile_eq (by decide))
  refine ⟨st₂, ?_, h2⟩
  rw [advanceBody, exec_ite, if_neg (by decide), exec_ite, if_neg (by decide), exec_bind_of e1,
    exec_bind_of (exec_hasError h1), exec_ite, if_neg (by decide), exec_bind_of e2, exec_ite,
    if_neg (by decide), hf]
  rfl

/-- A round of the loop on another name: its value is skipped, and the next byte that is no space is
read, past a comma. -/
theorem advanceBody_pass (hm : Matches data len match_ f) {st : SkipScanner2}
    {s s₁ s₂ s₃ s₄ k t : Bytes} {v : Json} {ms : List (Bytes × Json)} (h : On data len st s)
    (hk : StrBody s k s₁) (hc : Ws s₁ (Ch.colon :: s₂)) (hf : f k = none) (hw : Ws s₂ s₃)
    (hd : Der s₃ (.val v) s₄) (hmore : MoreMems s₄ ms t) :
    ∃ c st', (advanceBody A data len match_ miss false_ Ch.quote).exec (SpaceCall.skip data len)
      st = some (.inl c, st') ∧
      (ms = [] ∧ c = Ch.rbrace ∧ On data len { st' with pos_ := st'.pos_ - 1 } (Ch.rbrace :: t) ∨
        ∃ r q, Der r (.mems ms) (Ch.rbrace :: t) ∧ r.dropWhile IsSpace = Ch.quote :: q ∧
          c = Ch.quote ∧ On data len st' q) := by
  obtain ⟨st₁, e1, h1⟩ := hm st s k s₁ h hk
  obtain ⟨st₂, e2, h2⟩ := exec_consume h1 (hc.dropWhile_eq (by decide))
  obtain ⟨u, hn, hu⟩ := hmore.next
  obtain ⟨st₃, t', e3, h3, ht'⟩ := exec_skipOne (A := A) h2 hw hd hn
  -- what the round does up to here
  have hround : (advanceBody A data len match_ miss false_ Ch.quote).exec (SpaceCall.skip data len) st =
      (do
        let c ← advance
        if c = Ch.comma then do
          let c ← advance
          pure (.inl c)
        else if c ≠ Ch.rbrace then do
          setError .kParseErrorInvalidChar
          pure (.inl c)
        else pure (.inl c) : Scanning (UInt8 ⊕ α)).exec (SpaceCall.skip data len) st₃ := by
    rw [advanceBody, exec_ite, if_neg (by decide), exec_ite, if_neg (by decide), exec_bind_of e1,
      exec_bind_of (exec_hasError h1), exec_ite, if_neg (by decide), exec_bind_of e2, exec_ite,
      if_neg (by decide), hf]
    exact exec_returnIfParseError e3 h3
  rw [hround]
  rcases hu with ⟨rfl, rfl⟩ | ⟨r, rfl, hr⟩
  · obtain ⟨st₄, e4, -, h4⟩ := exec_advance h3 (ht'.dropWhile_eq (by decide))
    refine ⟨Ch.rbrace, st₄, ?_, .inl ⟨rfl, rfl, h4⟩⟩
    rw [exec_bind_of e4, exec_ite, if_neg (by decide), exec_ite, if_neg (by decide)]
    rfl
  · obtain ⟨st₄, e4, h4, -⟩ := exec_advance h3 (ht'.dropWhile_eq (by decide))
    obtain ⟨q, hq⟩ := hr.mems_starts
    obtain ⟨st₅, e5, h5, -⟩ := exec_advance h4 hq
    refine ⟨Ch.quote, st₅, ?_, .inr ⟨r, q, hr, hq, rfl, h5⟩⟩
    rw [exec_bind_of e4, exec_ite, if_pos rfl, exec_bind_of e5]
    rfl

/-- Where `x` comes to when it looks for a member: before the value of the first that `f` takes, or
before the closing brace. -/
structure Advances (data : Bytes) (len : ℕ) (x : Scanning α) (f : Bytes → Option α) (miss : α)
    (st : SkipScanner2) (ms : List (Bytes × Json)) (t : Bytes) : Prop where
  found : ∀ {r v post}, firstMatch f ms = some (r, v, post) →
    ∃ st', x.exec (SpaceCall.skip data len) st = some (r, st') ∧ AtValue data len st' v post t
  missed : firstMatch f ms = none → ∃ st', x.exec (SpaceCall.skip data len) st = some (miss, st') ∧
    On data len st' (Ch.rbrace :: t)

/-- **The search for a member**, from the quote of the first key on. -/
theorem advanceLoop_eq (hm : Matches data len match_ f) :
    ∀ {ms : List (Bytes × Json)} {fuel : ℕ} {st : SkipScanner2}
    {s q t : Bytes}, ms.length < fuel → Der s (.mems ms) (Ch.rbrace :: t) →
    s.dropWhile IsSpace = Ch.quote :: q →
    On data len st q →
      Advances data len (loop (advanceBody A data len match_ miss false_) fuel Ch.quote) f
      miss st ms t
  | [], _, _, _, _, _, _, hd, _, _ => by cases hd
  | (k, v) :: ms, fuel + 1, st, s, q, t, hfuel, hd, hq, h => by
    obtain ⟨hw, hk, hc, hw', hv, hmore⟩ := hd.memberAt
    obtain rfl := (List.cons.inj ((hw.dropWhile_eq (by decide)).symm.trans hq)).2
    cases hf : f k with
    | some r =>
      obtain ⟨st', e1, h1⟩ := advanceBody_match (A := A) hm h hk hc hf
      have hfirst : firstMatch f ((k, v) :: ms) = some (r, v, ms) := firstMatch_cons_some hf
      refine ⟨fun hr => ?_, fun hr => by rw [hfirst] at hr; cases hr⟩
      obtain ⟨rfl, hpost⟩ := Prod.mk.inj (Option.some.inj (hfirst.symm.trans hr))
      obtain ⟨rfl, rfl⟩ := Prod.mk.inj hpost
      exact ⟨st', exec_loop_inr e1, .mk h1 hw' hv hmore⟩
    | none =>
      obtain ⟨c, st', e1, h1⟩ := advanceBody_pass (A := A) hm h hk hc hf hw' hv hmore
      have hfirst : firstMatch f ((k, v) :: ms) = firstMatch f ms := firstMatch_cons_none hf
      rcases h1 with ⟨rfl, rfl, h1⟩ | ⟨r, q', hr, hq', rfl, h1⟩
      · obtain ⟨fuel, rfl⟩ : ∃ n, fuel = n + 1 := ⟨fuel - 1, by simp at hfuel; omega⟩
        refine ⟨fun hr => ?_, fun _ => ⟨_, ?_, h1⟩⟩
        · rw [hfirst] at hr
          cases hr
        · rw [exec_loop_inl e1]
          exact exec_loop_inr rfl
      · have ih := advanceLoop_eq hm (show ms.length < fuel by simpa using hfuel) hr hq' h1
        refine ⟨fun hr => ?_, fun hr => ?_⟩
        · rw [exec_loop_inl e1]
          exact ih.found (hfirst ▸ hr)
        · rw [exec_loop_inl e1]
          exact ih.missed (hfirst ▸ hr)

end

/-! ### Keys -/

/-- The index that `advanceKeys` stops at for a name. -/
def wanted (keys : List Bytes) (k : Bytes) : Option ℤ :=
  if keyIndex keys k ≠ -1 then some (keyIndex keys k) else none

theorem matches_keys (keys : List Bytes) : Matches data len (do
    let matched ← matchKeys A data len keys
    pure (if matched ≠ -1 then some matched else none)) (wanted keys) := by
  intro st s k t h hk
  obtain ⟨st', e, h'⟩ := exec_readKey (A := A) h hk
  refine ⟨st', ?_, h'⟩
  rw [exec_bind, matchKeys, exec_bind_of e]
  rfl

/-- **`advanceKeys`** comes to the first member with a wanted name. -/
theorem exec_advanceKeys {keys : List Bytes} {ms : List (Bytes × Json)} {fuel : ℕ}
    {st : SkipScanner2} {s t : Bytes} (hfuel : ms.length < fuel)
    (hd : Der s (.mems ms) (Ch.rbrace :: t)) (h : On data len st s) :
    Advances data len (advanceKeys A data len fuel keys) (wanted keys) (-1) st ms t := by
  obtain ⟨q, hq⟩ := hd.mems_starts
  obtain ⟨st₁, e1, h1, -⟩ := exec_advance h hq
  have ha :=
    @advanceLoop_eq A _ _ _ _ _ (-1) 0 (@matches_keys A data len keys) _ _ _ _ _ _ hfuel hd hq h1
  have hx : (advanceKeys A data len fuel keys).exec (SpaceCall.skip data len) st = _ := exec_bind_of e1
  refine ⟨fun hr => ?_, fun hr => ?_⟩
  · rw [hx]
    exact ha.found hr
  · rw [hx]
    exact ha.missed hr

/-! ### The walk over the members -/

/-- A null is not stored. -/
def storeValue (G : Gen) (result : List (Option Bytes)) (i : ℕ) : Json → List (Option Bytes)
  | .null => result
  | v => result.set i (some (v.content G))

theorem storeValue_of_ne {G : Gen} {result : List (Option Bytes)} {i : ℕ} {v : Json} (h : v ≠ .null) :
    storeValue G result i v = result.set i (some (v.content G)) := by
  cases v with
  | null => exact absurd rfl h
  | _ => rfl

/-- The results after a walk over the members that stops after `todo` of them with wanted names. -/
def takeTuple (G : Gen) (keys : List Bytes) : ℕ → List (Bytes × Json) → List (Option Bytes) →
    List (Option Bytes)
  | 0, _, result => result
  | _ + 1, [], result => result
  | todo + 1, (k, v) :: ms, result =>
    match keys.findIdx? (· == k) with
    | some i => takeTuple G keys todo ms (storeValue G result i v)
    | none => takeTuple G keys (todo + 1) ms result

theorem takeTuple_found {G : Gen} {keys : List Bytes} {todo i : ℕ} {v : Json}
    {post : List (Bytes × Json)} :
    ∀ {ms : List (Bytes × Json)} {result : List (Option Bytes)},
    firstMatch (fun k => keys.findIdx? (· == k)) ms = some (i, v, post) →
    takeTuple G keys (todo + 1) ms result = takeTuple G keys todo post (storeValue G result i v)
  | [], _, h => by cases h
  | (k, w) :: ms, result, h => by
    rw [takeTuple]
    cases hi : keys.findIdx? (· == k) with
    | some j =>
      obtain ⟨rfl, h2⟩ := Prod.mk.inj (Option.some.inj ((firstMatch_cons_some hi).symm.trans h))
      obtain ⟨rfl, rfl⟩ := Prod.mk.inj h2
      rfl
    | none => exact takeTuple_found ((firstMatch_cons_none hi).symm.trans h)

theorem takeTuple_missed {G : Gen} {keys : List Bytes} {todo : ℕ} :
    ∀ {ms : List (Bytes × Json)} {result : List (Option Bytes)},
    firstMatch (fun k => keys.findIdx? (· == k)) ms = none →
      takeTuple G keys (todo + 1) ms result = result
  | [], _, _ => rfl
  | (k, v) :: ms, result, h => by
    rw [takeTuple]
    cases hi : keys.findIdx? (· == k) with
    | some j => exact nomatch (firstMatch_cons_some hi).symm.trans h
    | none => exact takeTuple_missed ((firstMatch_cons_none hi).symm.trans h)

theorem wanted_eq {keys : List Bytes} (hkeys : keys.length < 2 ^ 31) (k : Bytes) :
    wanted keys k = (keys.findIdx? (· == k)).map Nat.cast := by
  unfold wanted keyIndex
  cases hi : keys.findIdx? (· == k) with
  | none => rfl
  | some i =>
    have hlt : i < keys.length := (List.findIdx?_eq_some_iff_getElem.mp hi).1
    have h32 : toInt32 i = i := toInt32_eq (lt_trans hlt hkeys)
    have hne : toInt32 i ≠ -1 := by
      intro h
      omega
    exact (if_pos hne).trans (congrArg some h32)

theorem firstMatch_map {α β : Type} {f : Bytes → Option α} {g : Bytes → Option β} {e : α → β}
    (h : ∀ k, g k = (f k).map e) :
    ∀ ms : List (Bytes × Json), firstMatch g ms = (firstMatch f ms).map fun r => (e r.1, r.2)
  | [] => rfl
  | (k, v) :: ms => by
    have hk := h k
    cases hf : f k with
    | some r =>
      rw [firstMatch_cons_some hf, firstMatch_cons_some (by rw [hk, hf, Option.map_some]),
        Option.map_some]
    | none =>
      rw [firstMatch_cons_none hf, firstMatch_cons_none (by rw [hk, hf, Option.map_none]),
        firstMatch_map h ms]

/-- What is behind a member that is found is a part of the members. -/
theorem firstMatch_suffix {α : Type} {f : Bytes → Option α} {r : α} {v : Json}
    {post : List (Bytes × Json)} :
    ∀ {ms : List (Bytes × Json)}, firstMatch f ms = some (r, v, post) → ∃ k, ((k, v) :: post) <:+ ms
  | [], h => by cases h
  | (k, w) :: ms, h => by
    cases hf : f k with
    | some r' =>
      obtain ⟨-, h2⟩ := Prod.mk.inj (Option.some.inj ((firstMatch_cons_some hf).symm.trans h))
      obtain ⟨rfl, rfl⟩ := Prod.mk.inj h2
      exact ⟨k, List.suffix_rfl⟩
    | none =>
      obtain ⟨k', hs⟩ := firstMatch_suffix ((firstMatch_cons_none hf).symm.trans h)
      exact ⟨k', hs.trans (List.suffix_cons _ _)⟩

/-! ### The loop -/

/-- Before the members `ms` of an object, or before its closing brace. -/
def Mems (s : Bytes) (ms : List (Bytes × Json)) (t : Bytes) : Prop :=
  ms = [] ∧ Ws s (Ch.rbrace :: t) ∨ Der s (.mems ms) (Ch.rbrace :: t)

theorem Mems.ne_nil {s t : Bytes} {ms : List (Bytes × Json)} (h : Mems s ms t) (hne : ms ≠ []) :
    Der s (.mems ms) (Ch.rbrace :: t) := h.resolve_left fun hc => hne hc.1

theorem Mems.nil {s t : Bytes} (h : Mems s [] t) : Ws s (Ch.rbrace :: t) := by
  rcases h with ⟨-, h⟩ | h
  · exact h
  · cases h

theorem Mems.starts {s t : Bytes} {ms : List (Bytes × Json)} (h : Mems s ms t) :
    ∃ c q, s.dropWhile IsSpace = c :: q ∧ (c = Ch.rbrace ↔ ms = []) := by
  rcases h with ⟨rfl, hw⟩ | hd
  · exact ⟨Ch.rbrace, _, hw.dropWhile_eq (by decide), by simp⟩
  · obtain ⟨q, hq⟩ := hd.mems_starts
    refine ⟨Ch.quote, q, hq, ⟨fun hc => absurd hc (by decide), ?_⟩⟩
    rintro rfl
    cases hd

/-- A comma behind a value is skipped, a brace is not. -/
theorem exec_skipComma {st : SkipScanner2} {s t : Bytes} {ms : List (Bytes × Json)}
    (h : On data len st s) (hs : ∃ u, Ws s u ∧ (ms = [] ∧ u = Ch.rbrace :: t ∨
    ∃ r, u = Ch.comma :: r ∧ Der r (.mems ms) (Ch.rbrace :: t))) :
    ∃ st' s', (skipIfPresent len Ch.comma).exec (SpaceCall.skip data len) st = some ((), st') ∧
      On data len st' s' ∧
      Mems s' ms t := by
  obtain ⟨u, hw, ⟨rfl, rfl⟩ | ⟨r, rfl, hr⟩⟩ := hs
  · obtain ⟨st', e, h'⟩ := exec_skipIfPresent (d := Ch.comma) h (hw.dropWhile_eq (by decide))
    rw [if_neg (by decide)] at h'
    exact ⟨st', _, e, h', .inl ⟨rfl, .nil _⟩⟩
  · obtain ⟨st', e, h'⟩ := exec_skipIfPresent (d := Ch.comma) h (hw.dropWhile_eq (by decide))
    rw [if_pos rfl] at h'
    exact ⟨st', _, e, h', .inr hr⟩

section
variable {G : Gen} {keys : List Bytes} {st : SkipScanner2} {fuel : ℕ} {tup : Tuple} {t : Bytes}
    {v : Json}
  {ms post : List (Bytes × Json)}

/-- The end of a round: the scanner is before what is left of the members. -/
theorem exec_nextMember {r : Tuple ⊕ Bool × List (Option Bytes)}
    {tup : Tuple} {s : Bytes} (h : On data len st s)
    (hs : ∃ u, Ws s u ∧ (ms = [] ∧ u = Ch.rbrace :: t ∨ ∃ r, u = Ch.comma :: r ∧
    Der r (.mems ms) (Ch.rbrace :: t))) :
    ∃ st' s', (returnIfParseError r (skipIfPresent len Ch.comma) (pure (.inl tup))).exec
      (SpaceCall.skip data len) st =
      some (.inl tup, st') ∧ On data len st' s' ∧ Mems s' ms t := by
  obtain ⟨st', s', e, h', hm⟩ := exec_skipComma h hs
  exact ⟨st', s', by rw [exec_returnIfParseError e h']; rfl, h', hm⟩

/-- A round that finds no member: it stays before the closing brace. -/
theorem tupleBody_missed (hkeys : keys.length < 2 ^ 31) (hfuel : ms.length < fuel) {s : Bytes}
    (hd : Der s (.mems ms) (Ch.rbrace :: t)) (h : On data len st s) (htodo : 0 < tup.todo)
    (hmiss : firstMatch (fun k => keys.findIdx? (· == k)) ms = none) :
    ∃ st' s', (tupleBody G data len fuel keys tup).exec (SpaceCall.skip data len) st =
      some (.inl tup, st') ∧
      On data len st' s' ∧ Mems s' [] t := by
  obtain ⟨q, hq⟩ := hd.mems_starts
  obtain ⟨st₁, e1, h1⟩ := exec_peek h hq
  have hmiss' : firstMatch (wanted keys) ms = none := by
    rw [firstMatch_map (wanted_eq hkeys), hmiss, Option.map_none]
  obtain ⟨st₂, e2, h2⟩ := (exec_advanceKeys (A := G.A) hfuel (hd.mems_from hq) h1).missed hmiss'
  obtain ⟨st₃, s₃, e3, h3, h4⟩ := exec_nextMember (r := .inr (false, tup.result))
    h2 ⟨_, .nil _, .inl ⟨rfl, rfl⟩⟩
  refine ⟨st₃, s₃, ?_, h3, h4⟩
  rw [tupleBody, exec_bind_of e1, exec_ite, if_pos ⟨by decide, htodo⟩, exec_bind_of e2]
  dsimp only
  rw [exec_ite, if_neg (not_not.mpr rfl)]
  exact e3

section
variable (hF : G.F.Local) (hfin : G.F.Finite) (hlen : data.length < 2 ^ 31)
include hF hfin hlen

/-- A round that finds a member: its value is stored unless it is null, and what is behind it comes
next. -/
theorem tupleBody_found (hkeys : keys.length < 2 ^ 31) (hfuel : ms.length < fuel) {s : Bytes}
    {n : Node} {i : ℕ} (hd : Der s (.mems ms) (Ch.rbrace :: t)) (h : On data len st s)
    (htodo : 0 < tup.todo)
    (hfound : firstMatch (fun k => keys.findIdx? (· == k)) ms = some (i, v, post))
    (hn : den G.F kParseDefault v = some n) :
    ∃ st' s' wb, (tupleBody G data len fuel keys tup).exec (SpaceCall.skip data len) st =
        some (.inl ⟨tup.todo - 1, storeValue G tup.result i v, wb⟩, st') ∧ On data len st' s' ∧
          Mems s' post t := by
  obtain ⟨q, hq⟩ := hd.mems_starts
  obtain ⟨st₁, e1, h1⟩ := exec_peek h hq
  have hfound' : firstMatch (wanted keys) ms = some ((i : ℤ), v, post) := by
    rw [firstMatch_map (wanted_eq hkeys), hfound, Option.map_some]
  obtain ⟨st₂, e2, hat⟩ := (exec_advanceKeys (A := G.A) hfuel (hd.mems_from hq) h1).found hfound'
  obtain ⟨h2, hw, hv, hmore⟩ := hat
  obtain ⟨u, hnext, hu⟩ := hmore.next
  -- the value's first byte, twice
  obtain ⟨b, r, rfl, hb⟩ := hv.starts
  obtain ⟨st₃, e3, h3⟩ := exec_peek h2 (hw.dropWhile_eq hb.not_isSpace)
  have hdrop : (b :: r).dropWhile IsSpace = b :: r :=
    List.dropWhile_cons_of_neg (by rw [hb.not_isSpace]; decide)
  obtain ⟨st₄, e4, h4⟩ := exec_peek h3 hdrop
  rw [tupleBody, exec_bind_of e1, exec_ite, if_pos ⟨by decide, htodo⟩, exec_bind_of e2]
  dsimp only
  rw [exec_ite, if_pos (by omega), exec_bind_of e3, exec_bind_of e4, exec_ite]
  by_cases hb' : b = Ch.n
  · subst hb'
    obtain rfl := Json.eq_of_starts_null hb
    obtain ⟨st₅, t', e5, h5, hw5⟩ := exec_skipOne (A := G.A) h4 (.nil _) hv hnext
    obtain ⟨st₆, s₆, e6, h6, h7⟩ := exec_nextMember (r := .inr (false, tup.result))
      h5 ⟨_, hw5, hu⟩
    refine ⟨st₆, s₆, tup.wb, ?_, h6, h7⟩
    rw [if_pos rfl, exec_returnIfParseError e5 h5]
    exact e6
  · obtain ⟨raw, st₅, t', e5, h5, hw5, htext, hraw⟩ := exec_getOne (A := G.A) h4 (.nil _) hv hnext
    obtain ⟨wb, hcopy⟩ := JsonGenerator.copyCurrentStructureJsonTupleCodeGen_eq hF
      (lt_of_le_of_lt hraw hlen) htext hn hfin
      (if b = Ch.quote then .STRING else .OTHER) (hb.string_iff) tup.wb
    obtain ⟨st₆, s₆, e6, h6, h7⟩ :=
      exec_nextMember (r := .inr (false, tup.result.set i (some (v.content G))))
      h5 ⟨_, hw5, hu⟩
    refine ⟨st₆, s₆, wb, ?_, h6, h7⟩
    rw [if_neg hb', exec_bind_of e5, exec_bind_of (exec_hasError h5), exec_ite,
      if_neg (by decide), hcopy]
    rw [storeValue_of_ne fun hv => hb' (by rw [hv] at hb; exact hb)]
    exact e6

/-- **The loop** is the walk over the members. -/
theorem tupleLoop_eq : ∀ (rounds : ℕ) {ms : List (Bytes × Json)} {st : SkipScanner2} {s : Bytes}
    {tup : Tuple}, (0 < tup.todo → keys.length < 2 ^ 31) → ms.length < fuel → ms.length < rounds →
    (∀ m ∈ ms, ∃ n, den G.F kParseDefault m.2 = some n) → Mems s ms t → On data len st s →
    ∃ st', (loop (tupleBody G data len fuel keys) rounds tup).exec (SpaceCall.skip data len) st =
      some ((true, takeTuple G keys tup.todo.toNat ms tup.result), st')
  | 0, _, _, _, _, _, _, hrounds, _, _, _ => absurd hrounds (Nat.not_lt_zero _)
  | rounds + 1, ms, st, s, tup, hkeys, hfuel, hrounds, hden, hmems, h => by
    -- the loop ends before the closing brace, and where no key is left to be found
    by_cases hend : ms = [] ∨ tup.todo ≤ 0
    · have hresult : takeTuple G keys tup.todo.toNat ms tup.result = tup.result := by
        rcases hend with rfl | h0
        · cases tup.todo.toNat <;> rfl
        · rw [Int.toNat_of_nonpos h0]
          cases ms <;> rfl
      obtain ⟨c, q, hq, hc⟩ := hmems.starts
      obtain ⟨st₁, e1, h1⟩ := exec_peek h hq
      refine ⟨st₁, exec_loop_inr ?_⟩
      have hstop : ¬ (c ≠ Ch.rbrace ∧ 0 < tup.todo) := by
        rintro ⟨hc', h0⟩
        rcases hend with he | he
        · exact hc' (hc.mpr he)
        · omega
      rw [tupleBody, exec_bind_of e1, exec_ite, if_neg hstop, hresult]
      rfl
    · obtain ⟨hne, hpos⟩ := not_or.mp hend
      have htodo : 0 < tup.todo := not_le.mp hpos
      have hsucc : tup.todo.toNat = (tup.todo - 1).toNat + 1 := by omega
      have hd := hmems.ne_nil hne
      cases hf : firstMatch (fun k => keys.findIdx? (· == k)) ms with
      | none =>
        obtain ⟨st₁, s₁, e1, h1, h2⟩ := tupleBody_missed (G := G) (hkeys htodo) hfuel hd h htodo hf
        have hlast : ([] : List (Bytes × Json)).length < rounds := by
          have := List.length_pos_iff.mpr hne
          simp only [List.length_nil]
          omega
        obtain ⟨st₂, e2⟩ := tupleLoop_eq rounds hkeys (lt_of_le_of_lt (Nat.zero_le _) hfuel) hlast
          (fun m hm => absurd hm List.not_mem_nil) h2 h1
        refine ⟨st₂, ?_⟩
        rw [exec_loop_inl e1, e2, hsucc, takeTuple_missed hf]
        rfl
      | some r =>
        obtain ⟨i, v, post⟩ := r
        obtain ⟨k, hsuf⟩ := firstMatch_suffix hf
        have hpost : post <:+ ms := (List.suffix_cons _ _).trans hsuf
        have hlt : post.length < ms.length := hsuf.length_le
        obtain ⟨n, hn⟩ := hden (k, v) (hsuf.subset List.mem_cons_self)
        obtain ⟨st₁, s₁, wb, e1, h1, h2⟩ :=
          tupleBody_found hF hfin hlen (hkeys htodo) hfuel hd h htodo hf hn
        obtain ⟨st₂, e2⟩ := tupleLoop_eq rounds (fun _ => hkeys htodo) (hlt.trans hfuel) (by omega)
          (fun m hm => hden m (hpost.subset hm)) h2 h1
        refine ⟨st₂, ?_⟩
        rw [exec_loop_inl e1, e2, hsucc, takeTuple_found hf]

/-- **The values of the keys** are those of the walk over the members, for as many keys as an `int`
counts. -/
theorem jsonTupleWithCodeGen_eq (hjson : JsonText data (.obj ms))
    (hden : ∀ m ∈ ms, ∃ n, den G.F kParseDefault m.2 = some n)
    (hkeys : 0 < toInt32 keys.length → keys.length < 2 ^ 31) (hfuel : data.length < fuel)
    (legacy : Bool) :
    JsonTupleWithCodeGen G fuel data keys legacy =
      some (takeTuple G keys (toInt32 keys.length).toNat ms (List.replicate keys.length none)) := by
  obtain ⟨s₁, s₂, hw, hd, -⟩ := hjson
  obtain ⟨b, r, rfl, hb⟩ := hd.starts
  obtain rfl : b = Ch.lbrace := hb
  obtain ⟨st₁, e1, h1⟩ := exec_consume (On.init data) (hw.dropWhile_eq (by decide))
  obtain ⟨ms', hms, hmems⟩ := hd.object_inv
  obtain rfl := Json.obj.inj hms
  have hms : ms.length < fuel := by
    have h2 := hw.suffix.length_le
    rcases hmems with ⟨rfl, -⟩ | hm
    · simp only [List.length_nil]
      omega
    · have h3 := hm.mems_length
      simp only [List.length_cons] at h2
      omega
  unfold JsonTupleWithCodeGen jsonTupleWithCodeGen jsonTupleWithCodeGenImpl
  generalize toInt32 keys.length = todo at hkeys ⊢
  obtain ⟨st₂, e2⟩ := @tupleLoop_eq _ _ _ _ _ _ hF hfin hlen fuel _ _ _ ⟨todo,
    List.replicate keys.length none, .init⟩ hkeys hms hms
    hden hmems h1
  rw [exec_bind_of ((exec_returnIfParseError e1 h1).trans e2)]
  rfl

end

end

end SkipScanner2

open SkipScanner2

/-! ### What is lost -/

/-- The member has a wanted name. -/
def named (keys : List Bytes) (m : Bytes × Json) : Bool := decide (m.1 ∈ keys)

section
variable {G : Gen} {keys : List Bytes} {key : Bytes} {i : ℕ}

/-- Only a key itself has its index. -/
theorem findIdx?_other (hi : keys[i]? = some key) {k : Bytes} (hk : k ≠ key) :
    keys.findIdx? (· == k) ≠ some i := by
  intro hj
  obtain ⟨hlt, hbeq, -⟩ := List.findIdx?_eq_some_iff_getElem.mp hj
  have hget := List.getElem?_eq_some_iff.mp hi
  exact hk (by rw [← hget.2, beq_iff_eq.mp hbeq])

theorem findIdx?_key (hnodup : keys.Nodup) (hi : keys[i]? = some key) :
    keys.findIdx? (· == key) = some i := by
  obtain ⟨hlt, rfl⟩ := List.getElem?_eq_some_iff.mp hi
  rw [List.findIdx?_eq_some_iff_getElem]
  refine ⟨hlt, beq_self_eq_true _, fun j hj hbeq => ?_⟩
  exact hj.ne ((hnodup.getElem_inj_iff).mp (beq_iff_eq.mp hbeq))

theorem findIdx?_none {k : Bytes} : keys.findIdx? (· == k) = none ↔ k ∉ keys := by
  rw [List.findIdx?_eq_none_iff]
  constructor
  · exact fun h hk => by simpa using h k hk
  · intro h x hx
    exact beq_false_of_ne fun he => h (he ▸ hx)

theorem storeValue_length (result : List (Option Bytes)) (i : ℕ) (v : Json) :
    (storeValue G result i v).length = result.length := by
  cases v <;> simp [storeValue]

theorem storeValue_other {result : List (Option Bytes)} {i j : ℕ} (h : j ≠ i) (v : Json) :
    (storeValue G result j v)[i]? = result[i]? := by
  cases v <;> simp [storeValue, h]

/-- An entry stays as it is over members with other names. -/
theorem takeTuple_absent (hi : keys[i]? = some key) :
    ∀ {ms : List (Bytes × Json)} (todo : ℕ) (result : List (Option Bytes)), (∀ m ∈ ms, m.1 ≠ key) →
    (takeTuple G keys todo ms result)[i]? = result[i]?
  | _, 0, _, _ => by rw [takeTuple]
  | [], _ + 1, _, _ => by rw [takeTuple]
  | (k, v) :: ms, todo + 1, result, h => by
    have hms : ∀ m ∈ ms, m.1 ≠ key := fun m hm => h m (List.mem_cons_of_mem _ hm)
    rw [takeTuple]
    cases hj : keys.findIdx? (· == k) with
    | none => exact takeTuple_absent hi _ _ hms
    | some j =>
      have hne : j ≠ i := fun he => findIdx?_other hi (h _ List.mem_cons_self) (he ▸ hj)
      calc (takeTuple G keys todo ms (storeValue G result j v))[i]? = (storeValue G result j v)[i]? :=
            takeTuple_absent hi _ _ hms
        _ = result[i]? := storeValue_other hne v

/-- **A key that occurs once** gets its value where fewer members with wanted names stand before it
than are to be found, and is lost elsewhere. -/
theorem takeTuple_once (hnodup : keys.Nodup) (hi : keys[i]? = some key) {v : Json} (hv : v ≠ .null)
    {post : List (Bytes × Json)} (hpost : ∀ m ∈ post, m.1 ≠ key) :
    ∀ {pre : List (Bytes × Json)} (todo : ℕ) (result : List (Option Bytes)), i < result.length →
      (∀ m ∈ pre, m.1 ≠ key) →
      (takeTuple G keys todo (pre ++ (key, v) :: post) result)[i]? =
        if pre.countP (named keys) < todo then some (some (v.content G)) else result[i]?
  | [], 0, _, _, _ => by rw [takeTuple, if_neg (Nat.not_lt_zero _)]
  | (_, _) :: _, 0, _, _, _ => by rw [takeTuple, if_neg (Nat.not_lt_zero _)]
  | [], todo + 1, result, hlt, _ => by
    rw [List.nil_append, takeTuple, findIdx?_key hnodup hi]
    calc (takeTuple G keys todo post (storeValue G result i v))[i]? = (storeValue G result i v)[i]? :=
          takeTuple_absent hi _ _ hpost
      _ = some (some (v.content G)) := by rw [storeValue_of_ne hv, List.getElem?_set_self hlt]
      _ = _ := (if_pos (Nat.succ_pos todo)).symm
  | (k, w) :: pre, todo + 1, result, hlt, hpre => by
    have hpre' : ∀ m ∈ pre, m.1 ≠ key := fun m hm => hpre m (List.mem_cons_of_mem _ hm)
    rw [List.cons_append, takeTuple]
    cases hj : keys.findIdx? (· == k) with
    | none =>
      have hk : ¬ named keys (k, w) = true := by
        rw [named, decide_eq_true_eq]
        exact findIdx?_none.mp hj
      rw [List.countP_cons_of_neg hk]
      exact takeTuple_once hnodup hi hv hpost (todo + 1) result hlt hpre'
    | some j =>
      have hk : named keys (k, w) = true := by
        rw [named, decide_eq_true_eq]
        by_contra hk
        rw [findIdx?_none.mpr hk] at hj
        cases hj
      have hne : j ≠ i := fun he => findIdx?_other hi (hpre _ List.mem_cons_self) (he ▸ hj)
      have ih := takeTuple_once hnodup hi hv hpost todo (storeValue G result j w)
        (by rw [storeValue_length]; exact hlt) hpre'
      rw [List.countP_cons_of_pos hk]
      simp only [Nat.add_lt_add_iff_right]
      exact ih.trans (by rw [storeValue_other hne])

end

/-- The key occurs once, with a value that is no null, behind the members `pre`. -/
structure OccursOnce (ms : List (Bytes × Json)) (key : Bytes) (pre : List (Bytes × Json))
    (v : Json) : Prop where
  at_value : ∃ post, ms = pre ++ (key, v) :: post ∧ ∀ m ∈ post, m.1 ≠ key
  before : ∀ m ∈ pre, m.1 ≠ key
  not_null : v ≠ .null

/-- The content of every key that occurs once with a value that is no null, and nothing for a key
that does not occur. -/
def LosesNone (G : Gen) (keys : List Bytes) (ms : List (Bytes × Json))
    (result : List (Option Bytes)) : Prop :=
  ∀ (i : ℕ) (key : Bytes), keys[i]? = some key →
    (∀ pre v, OccursOnce ms key pre v → result[i]? = some (some (v.content G))) ∧
    ((∀ m ∈ ms, m.1 ≠ key) → result[i]? = some none)

/-- No wanted key comes behind `todo` members with wanted names. -/
def InTime (keys : List Bytes) (ms : List (Bytes × Json)) (todo : ℕ) : Prop :=
  ∀ key ∈ keys, ∀ pre v, OccursOnce ms key pre v → pre.countP (named keys) < todo

theorem takeTuple_losesNone {G : Gen} {keys : List Bytes} {ms : List (Bytes × Json)} {todo : ℕ}
    (hnodup : keys.Nodup) :
    LosesNone G keys ms (takeTuple G keys todo ms (List.replicate keys.length none)) ↔
      InTime keys ms todo := by
  have hlt : ∀ {i : ℕ} {key : Bytes}, keys[i]? = some key →
      i < (List.replicate keys.length (none : Option Bytes)).length := by
    intro i key hi
    rw [List.length_replicate]
    exact (List.getElem?_eq_some_iff.mp hi).1
  have hnone : ∀ {i : ℕ} {key : Bytes}, keys[i]? = some key →
      (List.replicate keys.length (none : Option Bytes))[i]? = some none := by
    intro i key hi
    rw [List.getElem?_replicate, if_pos (List.getElem?_eq_some_iff.mp hi).1]
  constructor
  · intro h key hkey pre v honce
    obtain ⟨i, hi⟩ := List.mem_iff_getElem?.mp hkey
    by_contra hlate
    obtain ⟨⟨post, rfl, hpost⟩, hpre, hv⟩ := honce
    have hstored := (h i key hi).1 pre v ⟨⟨post, rfl, hpost⟩, hpre, hv⟩
    rw [takeTuple_once hnodup hi hv hpost _ _ (hlt hi) hpre, if_neg hlate, hnone hi] at hstored
    cases hstored
  · intro h i key hi
    refine ⟨fun pre v honce => ?_, fun habs => ?_⟩
    · have hcount := h key (List.mem_of_getElem? hi) pre v honce
      obtain ⟨⟨post, rfl, hpost⟩, hpre, hv⟩ := honce
      rw [takeTuple_once hnodup hi hv hpost _ _ (hlt hi) hpre, if_pos hcount]
    · rw [takeTuple_absent hi _ _ habs, hnone hi]

/-- **No key is lost** exactly where none comes too late: before each key that occurs once, with a
value that is no null, fewer members with wanted names stand than an `int` counts keys. -/
theorem JsonTupleWithCodeGen_loses_none {G : Gen} (hF : G.F.Local) (hfin : G.F.Finite)
    {json rest : Bytes} (hlen : json.length < 2 ^ 31) {n : Node}
    (hparse : Document.Parse G.A G.F kParseDefault json rest = some (.ok n))
    {ms : List (Bytes × Json)} (hjson : JsonText json (.obj ms)) {keys : List Bytes}
    (hnodup : keys.Nodup) (hkeys : keys.length ≤ 2 ^ 32) (legacy : Bool) :
    ∃ result, (∀ fuel, json.length < fuel → JsonTupleWithCodeGen G fuel json keys legacy =
      some result) ∧
      (LosesNone G keys ms result ↔ InTime keys ms (toInt32 keys.length).toNat) := by
  obtain ⟨v, hv, hden⟩ := (Document.parse_ok_iff G.A G.F hF hlen rest).mp hparse
  obtain rfl := hv.unique hjson
  obtain ⟨ns, hns, -⟩ := Option.map_eq_some_iff.mp hden
  have hint : 0 < toInt32 keys.length → keys.length < 2 ^ 31 := fun h => by
    by_contra hge
    have := toInt32_nonpos (not_lt.mp hge) hkeys
    omega
  exact ⟨_, fun fuel hfuel =>
    jsonTupleWithCodeGen_eq hF hfin hlen hjson (den_of_mem_mems hns) hint hfuel legacy,
    takeTuple_losesNone hnodup⟩

/-- A generator for texts without fractions and exponents. -/
def plainGen : Gen := ⟨.avx2, Document.noFloats, .plain, kSerializeDefault,
    fun _ => List.replicate 61 0⟩

theorem zero_finite : F64_INF_NAN_EXP 0 = false := by decide

theorem noFloats_finite : Document.noFloats.Finite where
  u64 _ _ := zero_finite
  fast _ _ _ _ _ _ h := nomatch h
  normal _ _ _ _ _ _ h := nomatch h
  eisel _ _ _ _ h := nomatch h
  native _ h := absurd (zero_finite.symm.trans h) Bool.false_ne_true

/-- The text `{"a":true,"a":true,"b":true}`. -/
def twice : Bytes :=
  [123, 34, 97, 34, 58, 116, 114, 117, 101, 44, 34, 97, 34, 58, 116, 114, 117, 101, 44, 34, 98, 34,
    58, 116, 114, 117, 101, 125]

def twiceMembers : List (Bytes × Json) := [([97], .bool true), ([97], .bool true), ([98], .bool true)]

theorem twice_text : JsonText twice (.obj twiceMembers) := by
  have key : ∀ (b : UInt8) t, b ≠ Ch.quote → b ≠ Ch.bslash → 0x20 ≤ b →
    StrBody (b :: Ch.quote :: t) [b] t :=
    fun b t h1 h2 h3 => .char h1 h2 h3 (.quote t)
  refine ⟨_, _, .nil _,
    .obj (.memCons (.nil _) (key 97 _ (by decide) (by decide) (by decide)) (.nil _) (.nil _) .true
    (.nil _) ?_), .nil _⟩
  exact .memCons (.nil _) (key 97 _ (by decide) (by decide) (by decide)) (.nil _) (.nil _)
    .true (.nil _)
    (.memLast (.nil _) (key 98 _ (by decide) (by decide) (by decide)) (.nil _) (.nil _) .true (.nil _))

/-- A repeated name is counted twice, and a key behind it is lost. -/
theorem JsonTupleWithCodeGen_loses :
    (∃ n, Document.Parse .avx2 Document.noFloats kParseDefault twice (List.replicate 61 0) =
    some (.ok n)) ∧
    JsonText twice (.obj twiceMembers) ∧
    ∀ legacy, JsonTupleWithCodeGen plainGen 29 twice [[97], [98]] legacy = some [some kTrue, none] ∧
      OccursOnce twiceMembers [98] [([97], .bool true), ([97], .bool true)] (.bool true) ∧
      ¬ LosesNone plainGen [[97], [98]] twiceMembers [some kTrue, none] := by
  have hF : Document.noFloats.Local := fun _ _ _ _ _ => rfl
  have honce : OccursOnce twiceMembers [98] [([97], .bool true), ([97], .bool true)] (.bool true) :=
    ⟨⟨[], rfl, fun _ h => nomatch h⟩, by decide, nofun⟩
  refine ⟨?_, twice_text, fun legacy => ⟨?_, honce, fun h => ?_⟩⟩
  · exact ⟨_, Document.parse_of_den _ _ rfl hF _ (.inl (by decide)) (twice_text.counted (by decide))
      twice_text rfl⟩
  · rw [jsonTupleWithCodeGen_eq hF noFloats_finite (by decide) twice_text (den_of_mem_mems rfl)
      (by decide) (by decide)]
    rfl
  · have := (h 1 [98] rfl).1 _ _ honce
    cases this

/-- With the second key alone nothing comes too late. -/
theorem JsonTupleWithCodeGen_loses_none_twice : ∃ result,
    (∀ fuel, twice.length < fuel → JsonTupleWithCodeGen plainGen fuel twice [[98]] false =
    some result) ∧
      (LosesNone plainGen [[98]] twiceMembers result ↔ InTime [[98]] twiceMembers (toInt32 1).toNat) :=
  JsonTupleWithCodeGen_loses_none (fun _ _ _ _ _ => rfl) noFloats_finite (by decide)
    (Document.parse_of_den _ _ rfl (fun _ _ _ _ _ => rfl) (List.replicate 61 0) (.inl (by decide))
    (twice_text.counted (by decide)) twice_text rfl) twice_text
    (by decide) (by decide) false

end SonicJson
