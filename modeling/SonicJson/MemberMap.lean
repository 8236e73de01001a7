/-
# The members of an object and their map

`DNode` as far as an object has members: their list, the capacity, and the
`multimap` from names to positions that `CreateMap` makes. The map is a list of its
entries in the order in which they were inserted, so that `find` comes to the
earliest inserted entry of a name. Allocations succeed. A history with calls of
`CreateMap` and `DestroyMap` answers what the history without them does as long as no
member overtakes one of the same name (`map_unobservable`).
-/
import SonicJson.Bytes
import SonicJson.Lib.Index

namespace SonicJson

open Index

/-- What lies before the children. -/
structure MetaNode where
  cap : ℕ
  map : Option (List (Bytes × ℕ))

/-- An object with values in `α`; `children` is null until memory is reserved. -/
structure DNode (α : Type*) where
  members : List (Bytes × α)
  children : Option MetaNode

namespace DNode

variable {α : Type*}

/-- The number of members. -/
def Size (s : DNode α) : ℕ := s.members.length

/-- How many members there is memory for. -/
def Capacity (s : DNode α) : ℕ := s.children.elim 0 MetaNode.cap

/-- The map, where there is one. -/
def getMap (s : DNode α) : Option (List (Bytes × ℕ)) := s.children.bind MetaNode.map

/-- Puts the map in place; without memory there is no place for it. -/
def setMap (s : DNode α) (map : Option (List (Bytes × ℕ))) : DNode α :=
  { s with children := s.children.map fun c => { c with map := map } }

/-- A position, the end where there is none. -/
def findMemberImpl (s : DNode α) (key : Bytes) : ℕ :=
  match s.getMap with
  | some map => (find map key).getD s.Size
  | none => (scan s.members key).getD s.Size

/-- The first memory of an object has no map. -/
def memberReserveImpl (s : DNode α) (new_cap : ℕ) : DNode α :=
  if s.Capacity < new_cap then
    { s with children := some ⟨new_cap, if s.Capacity = 0 then none else s.getMap⟩ }
  else s

/-- Makes the map of the members that there are, unless there is one. -/
def CreateMap (s : DNode α) : Bool × DNode α :=
  let s := if s.children.isNone then s.memberReserveImpl 16 else s
  if s.getMap.isSome then (true, s) else (true, s.setMap (some (build s.members)))

/-- Drops the map. -/
def DestroyMap (s : DNode α) : DNode α := s.setMap none

/-- Puts a member at the end, in more memory where it is full, and into the map. -/
def addMemberImpl (s : DNode α) (key : Bytes) (value : α) : ℕ × DNode α :=
  let count := s.Size
  let s :=
    if s.Capacity ≤ count then
      if s.Capacity = 0 then { s with children := some ⟨16, none⟩ }
      else { s with children := some ⟨s.Capacity + (s.Capacity + 1) / 2, s.getMap⟩ }
    else s
  let s := { s with members := s.members ++ [(key, value)] }
  (count, match s.getMap with
    | some map => s.setMap (some (map ++ [(key, count)]))
    | none => s)

/-- The member at `i` is found, and its entry is out of the map: the last member takes its place. -/
def removeFound (s : DNode α) (i : ℕ) (map : Option (List (Bytes × ℕ))) : Bool × DNode α :=
  let last := s.Size - 1
  match s.members[last]? with
  | none => (false, s)
  | some tail =>
    if i ≠ last then
      let map := map.map fun map =>
        (map.eraseP fun e => decide (e.1 = tail.1 ∧ e.2 = last)) ++ [(tail.1, i)]
      (true, { s with members := (s.members.set i tail).dropLast }.setMap map)
    else (true, { s with members := s.members.dropLast }.setMap map)

/-- Removes the first member of a name, which is looked for through the map or not. -/
def removeMemberImpl (s : DNode α) (key : Bytes) : Bool × DNode α :=
  if s.children.isNone then (false, s)
  else
    match s.getMap with
    | some map =>
      match find map key with
      | some i => s.removeFound i (some (map.eraseP fun e => decide (e.1 = key)))
      | none => (false, s)
    | none =>
      match scan s.members key with
      | some i => s.removeFound i none
      | none => (false, s)

/-- Removes the members from `first` up to `last`, and the map with them. -/
def eraseMemberImpl (s : DNode α) (first last : ℕ) : ℕ × DNode α :=
  let s := s.DestroyMap
  if s.Size ≤ last - first then (0, ⟨[], none⟩)
  else (first, { s with members := s.members.take first ++ s.members.drop last })

/-! ### Histories -/

/-- The calls of a history. -/
inductive Op (α : Type*)
  | AddMember (key : Bytes) (value : α)
  | RemoveMember (key : Bytes)
  | EraseMember (first last : ℕ)
  | MemberReserve (new_cap : ℕ)
  | FindMember (key : Bytes)
  | CreateMap
  | DestroyMap

/-- What a call answers: a position, a flag or nothing. -/
inductive Answer
  | iter (i : ℕ)
  | flag (b : Bool)
  | self
  deriving DecidableEq

/-- A call on the object. -/
def exec (s : DNode α) : Op α → Answer × DNode α
  | .AddMember key value => ((.iter (s.addMemberImpl key value).1), (s.addMemberImpl key value).2)
  | .RemoveMember key => (.flag (s.removeMemberImpl key).1, (s.removeMemberImpl key).2)
  | .EraseMember first last =>
    (.iter (s.eraseMemberImpl first last).1, (s.eraseMemberImpl first last).2)
  | .MemberReserve new_cap => (.self, s.memberReserveImpl new_cap)
  | .FindMember key => (.iter (s.findMemberImpl key), s)
  | .CreateMap => (.flag s.CreateMap.1, s.CreateMap.2)
  | .DestroyMap => (.self, s.DestroyMap)

/-- A call that only makes or drops the map. -/
def Op.onMap : Op α → Bool
  | .CreateMap => true
  | .DestroyMap => true
  | _ => false

/-- What the calls on the members answer, and the object after all calls. -/
def run : DNode α → List (Op α) → List Answer × DNode α
  | s, [] => ([], s)
  | s, op :: ops =>
    let r := run (s.exec op).2 ops
    (if op.onMap then r.1 else (s.exec op).1 :: r.1, r.2)

/-! ### Histories of the list alone -/

/-- The last member takes the place of the one at `i`. -/
def fill (l : List (Bytes × α)) (i : ℕ) : List (Bytes × α) :=
  match l[l.length - 1]? with
  | none => l
  | some tail => if i ≠ l.length - 1 then (l.set i tail).dropLast else l.dropLast

/-- What a call comes to on a list that is searched from the front. -/
def listExec (l : List (Bytes × α)) : Op α → Answer × List (Bytes × α)
  | .AddMember key value => (.iter l.length, l ++ [(key, value)])
  | .RemoveMember key => (.flag (scan l key).isSome, ((scan l key).map (fill l)).getD l)
  | .EraseMember first last =>
    if l.length ≤ last - first then (.iter 0, []) else (.iter first, l.take first ++ l.drop last)
  | .MemberReserve _ => (.self, l)
  | .FindMember key => (.iter ((scan l key).getD l.length), l)
  | .CreateMap => (.flag true, l)
  | .DestroyMap => (.self, l)

/-- `run` on the list alone. -/
def listRun : List (Bytes × α) → List (Op α) → List Answer × List (Bytes × α)
  | l, [] => ([], l)
  | l, op :: ops =>
    let r := listRun (listExec l op).2 ops
    (if op.onMap then r.1 else (listExec l op).1 :: r.1, r.2)

/-- On the list, calls on the map do nothing. -/
theorem listRun_filter : ∀ (l : List (Bytes × α)) (ops : List (Op α)),
    listRun l (ops.filter fun op => !op.onMap) = listRun l ops
  | _, [] => rfl
  | l, op :: ops => by
    cases op with
    | CreateMap => exact listRun_filter l ops
    | DestroyMap => exact listRun_filter l ops
    | AddMember key value =>
      show (_, _) = (_, _)
      rw [listRun_filter _ ops]
    | RemoveMember key =>
      show (_, _) = (_, _)
      rw [listRun_filter _ ops]
    | EraseMember first last =>
      show (_, _) = (_, _)
      rw [listRun_filter _ ops]
    | MemberReserve n =>
      show (_, _) = (_, _)
      rw [listRun_filter _ ops]
    | FindMember key =>
      show (_, _) = (_, _)
      rw [listRun_filter _ ops]

/-! ### The object is its list -/

/-- The map is an index of the members, and without memory there are none. -/
structure Inv (s : DNode α) : Prop where
  index : ∀ map, s.getMap = some map → Indexed map s.members
  null : s.children = none → s.members = []

/-- Where there is a map, the last member is moved past no member of its own name. -/
def Op.KeepsOrder (s : DNode α) : Op α → Prop
  | .RemoveMember key => ∀ map i tail, s.getMap = some map → scan s.members key = some i →
      s.members[s.Size - 1]? = some tail → ∀ j, i < j → j < s.Size - 1 → keyAt s.members j ≠ some tail.1
  | _ => True

/-- Every step of the run keeps the order. -/
def KeepsOrder : DNode α → List (Op α) → Prop
  | _, [] => True
  | s, op :: ops => op.KeepsOrder s ∧ KeepsOrder (s.exec op).2 ops

section
variable {s : DNode α}

@[simp] theorem setMap_members (s : DNode α) (map : Option (List (Bytes × ℕ))) :
    (s.setMap map).members = s.members := rfl

theorem setMap_null (s : DNode α) (map : Option (List (Bytes × ℕ))) :
    (s.setMap map).children = none ↔ s.children = none := by
  simp [setMap]

theorem getMap_setMap_some (s : DNode α) {map map' : Option (List (Bytes × ℕ))}
    (h : (s.setMap map).getMap = map') :
    map' = map ∨ map' = none := by
  subst h
  unfold getMap setMap
  cases s.children with
  | none => exact .inr rfl
  | some c => exact .inl rfl

theorem inv_setMap (s : DNode α) {map : Option (List (Bytes × ℕ))}
    (hi : ∀ m, map = some m → Indexed m s.members) (hn : s.children = none → s.members = []) :
    (s.setMap map).Inv := by
  refine ⟨fun m hm => ?_, fun h => hn ((setMap_null s map).mp h)⟩
  rcases getMap_setMap_some s hm with h | h
  · exact hi m h.symm
  · exact absurd h (by simp)

/-- **The search**, through the map or not. -/
theorem Inv.findMemberImpl (h : s.Inv) (key : Bytes) :
    s.findMemberImpl key = (scan s.members key).getD s.members.length := by
  unfold DNode.findMemberImpl
  split
  · rename_i map hm
    rw [(h.index map hm).find_eq, Size]
  · rfl

/-- A member is put at the end, when there is memory for it. -/
theorem Inv.push {t : DNode α} (h : s.Inv) {key : Bytes} {value : α}
    (hm : t.members = s.members ++ [(key, value)])
    (hmap : ∀ map, t.getMap = some map → s.getMap = some map) (hnull : t.children ≠ none) :
    let r := match t.getMap with
      | some map => t.setMap (some (map ++ [(key, s.Size)]))
      | none => t
    r.members = s.members ++ [(key, value)] ∧ r.Inv := by
  intro r
  have hr : r = match t.getMap with
    | some map => t.setMap (some (map ++ [(key, s.Size)]))
    | none => t := rfl
  cases ht : t.getMap with
  | some map =>
    rw [ht] at hr
    rw [hr]
    refine ⟨hm, inv_setMap t (fun m hm' => ?_) (fun hc => absurd hc hnull)⟩
    obtain rfl := Option.some.inj hm'
    rw [hm]
    exact (h.index map (hmap map ht)).append key value
  | none =>
    rw [ht] at hr
    rw [hr]
    exact ⟨hm, fun m hm' => by rw [ht] at hm'; simp at hm', fun hc => absurd hc hnull⟩

theorem Inv.addMemberImpl (h : s.Inv) (key : Bytes) (value : α) :
    (s.addMemberImpl key value).1 = s.members.length ∧
      (s.addMemberImpl key value).2.members = s.members ++ [(key, value)] ∧
        (s.addMemberImpl key value).2.Inv := by
  refine ⟨rfl, ?_⟩
  unfold DNode.addMemberImpl
  dsimp only
  by_cases hfull : s.Capacity ≤ s.Size
  · rw [if_pos hfull]
    by_cases h0 : s.Capacity = 0
    · rw [if_pos h0]
      exact h.push (t := ⟨s.members ++ [(key, value)], some ⟨16, none⟩⟩) rfl
        (fun map hm => absurd hm (by simp [getMap])) (by simp)
    · rw [if_neg h0]
      exact h.push (t := ⟨s.members ++ [(key, value)], some ⟨_, s.getMap⟩⟩) rfl (fun map hm => hm)
        (by simp)
  · rw [if_neg hfull]
    refine h.push (t := ⟨s.members ++ [(key, value)], s.children⟩) rfl (fun map hm => hm) fun hc =>
      hfull ?_
    have : s.Capacity = 0 := by rw [Capacity, show s.children = none from hc]; rfl
    omega

/-- The last member of a list that is not empty. -/
theorem exists_last {l : List (Bytes × α)} {i : ℕ} (hi : i < l.length) :
    ∃ tail, l[l.length - 1]? = some tail :=
  ⟨_, List.getElem?_eq_getElem (by omega)⟩

/-- **A found member** is removed from the list, and from the map that is searched. -/
theorem Inv.removeFound (h : s.Inv) {key : Bytes} {i : ℕ} (hi : scan s.members key = some i)
    (hnull : s.children ≠ none) {map : Option (List (Bytes × ℕ))}
    (hmap : ∀ m, map = some m → ∃ m', s.getMap = some m' ∧ m = m'.eraseP fun e => decide (e.1 = key))
    (hk : Op.KeepsOrder s (.RemoveMember key)) :
    (s.removeFound i map).1 = true ∧ (s.removeFound i map).2.members = fill s.members i ∧
      (s.removeFound i map).2.Inv := by
  have hkey := (scan_eq_some.mp hi).1
  have hlt := keyAt_lt hkey
  obtain ⟨tail, htail⟩ := exists_last hlt
  have htail' : s.members[s.Size - 1]? = some tail := htail
  unfold DNode.removeFound fill
  rw [htail]
  dsimp only
  rw [htail']
  dsimp only
  by_cases hl : i ≠ s.members.length - 1
  · have hl' : i ≠ s.Size - 1 := hl
    rw [if_pos hl, if_pos hl']
    refine ⟨rfl, rfl, inv_setMap _ (fun m hm => ?_) fun hc => absurd hc hnull⟩
    obtain ⟨m₁, hm₁, rfl⟩ := Option.map_eq_some_iff.mp hm
    obtain ⟨m', hm', rfl⟩ := hmap m₁ hm₁
    exact (h.index m' hm').fill htail hi (by omega) fun j h1 h2 => hk m' i tail hm' hi htail' j h1 h2
  · have hl' : ¬ i ≠ s.Size - 1 := hl
    rw [if_neg hl, if_neg hl']
    refine ⟨rfl, rfl, inv_setMap _ (fun m hm => ?_) fun hc => absurd hc hnull⟩
    obtain ⟨m', hm', rfl⟩ := hmap m hm
    exact (h.index m' hm').dropLast hi (not_not.mp hl)

theorem Inv.removeMemberImpl (h : s.Inv) (key : Bytes) (hk : Op.KeepsOrder s (.RemoveMember key)) :
    (s.removeMemberImpl key).1 = (scan s.members key).isSome ∧
      (s.removeMemberImpl key).2.members = ((scan s.members key).map (fill s.members)).getD s.members ∧
      (s.removeMemberImpl key).2.Inv := by
  unfold DNode.removeMemberImpl
  by_cases hn : s.children = none
  · have hnil := h.null hn
    have hscan : scan s.members key = none := by
      rw [hnil]
      rfl
    rw [if_pos (by simp [hn]), hscan]
    exact ⟨rfl, rfl, h⟩
  rw [if_neg (by simpa using hn)]
  cases hm : s.getMap with
  | some map =>
    dsimp only
    rw [(h.index map hm).find_eq]
    cases hi : scan s.members key with
    | none => exact ⟨rfl, rfl, h⟩
    | some i =>
      exact h.removeFound hi hn (fun m hm' => ⟨map, hm, (Option.some.inj hm').symm⟩) hk
  | none =>
    dsimp only
    cases hi : scan s.members key with
    | none => exact ⟨rfl, rfl, h⟩
    | some i => exact h.removeFound hi hn (fun m hm' => absurd hm' (by simp)) hk

theorem Inv.DestroyMap (h : s.Inv) :
    s.DestroyMap.Inv := inv_setMap s (fun m hm => absurd hm (by simp)) h.null

theorem Inv.eraseMemberImpl (h : s.Inv) (first last : ℕ) :
    (.iter (s.eraseMemberImpl first last).1, (s.eraseMemberImpl first last).2.members) =
        listExec s.members (.EraseMember first last) ∧ (s.eraseMemberImpl first last).2.Inv := by
  have hd := h.DestroyMap
  have hsize : s.DestroyMap.Size = s.members.length := rfl
  have hnone : s.DestroyMap.getMap = none := by
    cases hm : s.DestroyMap.getMap with
    | none => rfl
    | some m => rcases getMap_setMap_some s hm with h' | h' <;> exact absurd h' (by simp)
  unfold DNode.eraseMemberImpl listExec
  simp only [hsize]
  by_cases hle : s.members.length ≤ last - first
  · rw [if_pos hle]
    rw [if_pos hle]
    exact ⟨rfl, fun m hm => absurd hm (by simp [getMap]), fun _ => rfl⟩
  · rw [if_neg hle]
    rw [if_neg hle]
    refine ⟨rfl, fun m hm => ?_, fun hc => ?_⟩
    · have hm' : s.DestroyMap.getMap = some m := hm
      rw [hnone] at hm'
      simp at hm'
    · have : s.members = [] := hd.null hc
      simp [DNode.DestroyMap, this]

theorem Inv.memberReserveImpl (h : s.Inv) (n : ℕ) :
    (s.memberReserveImpl n).members = s.members ∧ (s.memberReserveImpl n).Inv ∧
      (0 < n → (s.memberReserveImpl n).children ≠ none) := by
  unfold DNode.memberReserveImpl
  by_cases hn : s.Capacity < n
  · rw [if_pos hn]
    refine ⟨rfl, ⟨fun m hm => ?_, fun hc => absurd hc (by simp)⟩, fun _ => by simp⟩
    by_cases h0 : s.Capacity = 0
    · simp [getMap, h0] at hm
    · refine h.index m ?_
      simpa [getMap, h0] using hm
  · rw [if_neg hn]
    refine ⟨rfl, h, fun hpos hc => hn ?_⟩
    rw [Capacity, hc]
    exact hpos

theorem Inv.CreateMap (h : s.Inv) : s.CreateMap.2.members = s.members ∧ s.CreateMap.2.Inv := by
  have key : ∀ t : DNode α, t.members = s.members → t.Inv →
      let r := if t.getMap.isSome then (true, t) else (true, t.setMap (some (build t.members)))
      r.2.members = s.members ∧ r.2.Inv := by
    intro t hm ht
    dsimp only
    split
    · exact ⟨hm, ht⟩
    · refine ⟨hm, inv_setMap t (fun m hm' => ?_) ht.null⟩
      obtain rfl := Option.some.inj hm'
      exact indexed_build _
  unfold DNode.CreateMap
  dsimp only
  split
  · obtain ⟨h1, h2, -⟩ := h.memberReserveImpl 16
    exact key _ h1 h2
  · exact key s rfl h

/-- **A call on the object is the call on its list.** -/
theorem Inv.exec (h : s.Inv) {op : Op α} (hk : op.KeepsOrder s) :
    (op.onMap = false → (s.exec op).1 = (listExec s.members op).1) ∧
      (s.exec op).2.members = (listExec s.members op).2 ∧ (s.exec op).2.Inv := by
  cases op with
  | AddMember key value =>
    obtain ⟨h1, h2, h3⟩ := h.addMemberImpl key value
    exact ⟨fun _ => congrArg Answer.iter h1, h2, h3⟩
  | RemoveMember key =>
    obtain ⟨h1, h2, h3⟩ := h.removeMemberImpl key hk
    exact ⟨fun _ => congrArg Answer.flag h1, h2, h3⟩
  | EraseMember first last =>
    obtain ⟨h1, h2⟩ := h.eraseMemberImpl first last
    exact ⟨fun _ => congrArg Prod.fst h1, congrArg Prod.snd h1, h2⟩
  | MemberReserve n =>
    obtain ⟨h1, h2, -⟩ := h.memberReserveImpl n
    exact ⟨fun _ => rfl, h1, h2⟩
  | FindMember key => exact ⟨fun _ => congrArg Answer.iter (h.findMemberImpl key), rfl, h⟩
  | CreateMap =>
    obtain ⟨h1, h2⟩ := h.CreateMap
    exact ⟨fun hc => Bool.noConfusion hc, h1, h2⟩
  | DestroyMap => exact ⟨fun hc => Bool.noConfusion hc, rfl, h.DestroyMap⟩

/-- A run on the object is the run on its list. -/
theorem Inv.run : ∀ {s : DNode α} {ops : List (Op α)}, s.Inv → KeepsOrder s ops →
    ((s.run ops).1, (s.run ops).2.members) = listRun s.members ops
  | _, [], _, _ => rfl
  | s, op :: ops, h, ⟨hk, hks⟩ => by
    obtain ⟨h1, h2, h3⟩ := h.exec hk
    have ih := h3.run hks
    rw [h2] at ih
    obtain ⟨i1, i2⟩ := Prod.mk.inj (ih.trans (Prod.eta _).symm)
    rw [DNode.run, listRun, i1, i2]
    cases hop : op.onMap with
    | true => rfl
    | false => rw [h1 hop]

theorem getMap_setMap_none (s : DNode α) : (s.setMap none).getMap = none := by
  unfold getMap setMap
  cases s.children <;> rfl

theorem getMap_removeFound (s : DNode α) (i : ℕ) (h : s.getMap = none) :
    (s.removeFound i none).2.getMap = none := by
  unfold removeFound
  dsimp only
  split
  · exact h
  · split <;> exact getMap_setMap_none _

/-- A map is made by `CreateMap` alone. -/
theorem getMap_exec (h : s.getMap = none) {op : Op α} (hop : op.onMap = false) :
    (s.exec op).2.getMap = none := by
  cases op with
  | AddMember key value =>
    show (s.addMemberImpl key value).2.getMap = none
    unfold DNode.addMemberImpl
    dsimp only
    have key' : ∀ t : DNode α, t.getMap = none →
        (match t.getMap with
          | some map => t.setMap (some (map ++ [(key, s.Size)]))
          | none => t).getMap = none := by
      intro t ht
      rw [ht]
      exact ht
    apply key'
    by_cases hfull : s.Capacity ≤ s.Size
    · rw [if_pos hfull]
      by_cases h0 : s.Capacity = 0
      · rw [if_pos h0]
        rfl
      · rw [if_neg h0]
        exact h
    · rw [if_neg hfull]
      exact h
  | RemoveMember key =>
    show (s.removeMemberImpl key).2.getMap = none
    unfold DNode.removeMemberImpl
    rw [h]
    split
    · exact h
    · dsimp only
      split
      · exact getMap_removeFound s _ h
      · exact h
  | EraseMember first last =>
    show (s.eraseMemberImpl first last).2.getMap = none
    unfold DNode.eraseMemberImpl
    dsimp only
    split
    · rfl
    · exact getMap_setMap_none s
  | MemberReserve n =>
    show (s.memberReserveImpl n).getMap = none
    unfold DNode.memberReserveImpl
    split
    · show (if s.Capacity = 0 then none else s.getMap) = none
      rw [h, ite_self]
    · exact h
  | FindMember key => exact h
  | CreateMap => exact Bool.noConfusion hop
  | DestroyMap => exact Bool.noConfusion hop

/-- Without calls on the map there is no map, and nothing to keep in order. -/
theorem keepsOrder_of_noMap :
    ∀ {s : DNode α} {ops : List (Op α)}, s.getMap = none → (∀ op ∈ ops, op.onMap = false) →
    KeepsOrder s ops
  | _, [], _, _ => trivial
  | s, op :: ops, h, hops => by
    have hop := hops op List.mem_cons_self
    refine ⟨?_, keepsOrder_of_noMap (getMap_exec h hop) fun o ho => hops o (List.mem_cons_of_mem _ ho)⟩
    cases op with
    | RemoveMember key =>
      intro map i tail hm
      rw [h] at hm
      exact absurd hm (by simp)
    | _ => trivial

end

/-- **The map is not observed** in a history that keeps the order of members of one name: every call
answers what it answers without the calls on the map, and the members are the same in the same
order. -/
theorem map_unobservable {s : DNode α} (hmap : s.getMap = none)
    (hnull : s.children = none → s.members = []) {ops : List (Op α)} (hk : KeepsOrder s ops) :
    (s.run ops).1 = (s.run (ops.filter fun op => !op.onMap)).1 ∧
      (s.run ops).2.members = (s.run (ops.filter fun op => !op.onMap)).2.members := by
  have hs : s.Inv := ⟨fun m hm => absurd (hmap.symm.trans hm) (by simp), hnull⟩
  have hops : ∀ op ∈ ops.filter fun op => !op.onMap, op.onMap = false := fun op ho => by
    simpa using (List.mem_filter.mp ho).2
  have h1 := hs.run hk
  have h2 := hs.run (keepsOrder_of_noMap hmap hops)
  rw [listRun_filter, ← h1] at h2
  obtain ⟨e1, e2⟩ := Prod.mk.inj h2
  exact ⟨e1.symm, e2.symm⟩

/-- Two members of one name, and one of them removed with the help of a map. -/
theorem map_unobservable_remove :
    ((⟨[], none⟩ : DNode ℕ).run [.AddMember [97] 1, .AddMember [97] 2, .CreateMap, .RemoveMember [97],
        .FindMember [97]]).1 =
      ((⟨[], none⟩ : DNode ℕ).run [.AddMember [97] 1, .AddMember [97] 2, .RemoveMember [97],
        .FindMember [97]]).1 ∧
    ((⟨[], none⟩ : DNode ℕ).run [.AddMember [97] 1, .AddMember [97] 2, .CreateMap, .RemoveMember [97],
        .FindMember [97]]).2.members =
      ((⟨[], none⟩ : DNode ℕ).run [.AddMember [97] 1, .AddMember [97] 2, .RemoveMember [97],
        .FindMember [97]]).2.members := by
  refine map_unobservable rfl (fun _ => rfl) ⟨trivial, trivial, trivial, ?_, trivial, trivial⟩
  intro map i tail _ _ _ j h1 h2
  have h3 : j < 2 - 1 := h2
  omega

/-- The names are `x`, `a` and `a`. When `x` is removed the second `a` comes before the first, and
the map still finds the first. -/
theorem map_observable :
    ((⟨[], none⟩ : DNode ℕ).run [.AddMember [120] 0, .AddMember [97] 1, .AddMember [97] 2, .CreateMap,
        .RemoveMember [120], .FindMember [97]]).1 ≠
      ((⟨[], none⟩ : DNode ℕ).run [.AddMember [120] 0, .AddMember [97] 1, .AddMember [97] 2,
        .RemoveMember [120], .FindMember [97]]).1 := by
  decide

end DNode

end SonicJson
