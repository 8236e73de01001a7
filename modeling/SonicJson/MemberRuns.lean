/-
# The representation of an object

Whatever is done to an object, there is room for its members, the members are those of a
list that is appended to, filled and cut, and a map has the position of each member once,
under its name (`Represents`). Names may repeat: which of the members of a name is removed
depends on the map, and the list leaves it open (`ListStep`). Each operation keeps this
(`Represents.exec`), so every history does (`Represents.run`).
-/
import SonicJson.MemberMap

namespace SonicJson

open Index

namespace DNode

variable {α : Type*}

/-- There is room for the members, and a map has exactly their names and positions. -/
structure Represents (s : DNode α) : Prop where
  size_le : s.Size ≤ s.Capacity
  map : ∀ map, s.getMap = some map → map.Perm (build s.members)

/-- What an operation does to a list of members. -/
def ListStep (l : List (Bytes × α)) (op : Op α) (l' : List (Bytes × α)) : Prop :=
  match op with
  | .AddMember key value => l' = l ++ [(key, value)]
  | .RemoveMember key =>
    (∃ i, keyAt l i = some key ∧ l' = fill l i) ∨ (∀ i, keyAt l i ≠ some key) ∧ l' = l
  | .EraseMember first last => l' = l.take first ++ l.drop last
  | _ => l' = l

/-- A history of the list. -/
inductive ListRun : List (Bytes × α) → List (Op α) → List (Bytes × α) → Prop
  | nil (l : List (Bytes × α)) : ListRun l [] l
  | cons {l l' l'' : List (Bytes × α)} {op : Op α} {ops : List (Op α)} : ListStep l op l' →
    ListRun l' ops l'' →
      ListRun l (op :: ops) l''

/-- The range that is erased is one of the object. -/
def Op.Valid (s : DNode α) : Op α → Prop
  | .EraseMember first last => first ≤ last ∧ last ≤ s.Size
  | _ => True

def Valid : DNode α → List (Op α) → Prop
  | _, [] => True
  | s, op :: ops => op.Valid s ∧ Valid (s.exec op).2 ops

section
variable {s t : DNode α}

@[simp] theorem Capacity_setMap (s : DNode α) (map : Option (List (Bytes × ℕ))) :
    (s.setMap map).Capacity = s.Capacity := by
  unfold Capacity setMap
  cases s.children <;> rfl

theorem Represents.listed (h : s.Represents) {map : List (Bytes × ℕ)} (hm : s.getMap = some map) :
    Listed map s.members :=
  listed_iff_perm.mpr (h.map map hm)

theorem Represents.nil_of_null (h : s.Represents) (hn : s.children = none) : s.members = [] := by
  have hle := h.size_le
  rw [Capacity, hn] at hle
  exact List.length_eq_zero_iff.mp (Nat.le_zero.mp hle)

/-- What is stored as the map goes with the members. -/
theorem represents_setMap (hle : s.Size ≤ s.Capacity) {map : Option (List (Bytes × ℕ))}
    (hi : ∀ m, map = some m → Listed m s.members) : (s.setMap map).Represents := by
  refine ⟨?_, fun m hm => ?_⟩
  · rw [Capacity_setMap]
    exact hle
  · rcases getMap_setMap_some s hm with h | h
    · exact listed_iff_perm.mp (hi m h.symm)
    · cases h

/-- A member is put at the end, when there is room for it. -/
theorem Represents.push (h : s.Represents) {key : Bytes} {value : α}
    (hm : t.members = s.members ++ [(key, value)])
    (hmap : ∀ map, t.getMap = some map → s.getMap = some map) (hroom : s.Size < t.Capacity) :
    let r := match t.getMap with
      | some map => t.setMap (some (map ++ [(key, s.Size)]))
      | none => t
    r.members = s.members ++ [(key, value)] ∧ r.Represents := by
  intro r
  have hr : r = match t.getMap with
    | some map => t.setMap (some (map ++ [(key, s.Size)]))
    | none => t := rfl
  have hsize : t.Size ≤ t.Capacity := by
    rw [Size, hm, List.length_append, List.length_singleton]
    exact hroom
  cases ht : t.getMap with
  | some map =>
    rw [ht] at hr
    rw [hr]
    refine ⟨hm, represents_setMap hsize fun m hm' => ?_⟩
    obtain rfl := Option.some.inj hm'
    rw [hm]
    exact (h.listed (hmap map ht)).append key value
  | none =>
    rw [ht] at hr
    rw [hr]
    exact ⟨hm, hsize, fun m hm' => by rw [ht] at hm'; cases hm'⟩

theorem Represents.addMemberImpl (h : s.Represents) (key : Bytes) (value : α) :
    (s.addMemberImpl key value).2.members = s.members ++ [(key, value)] ∧
    (s.addMemberImpl key value).2.Represents := by
  have hle := h.size_le
  unfold DNode.addMemberImpl
  dsimp only
  by_cases hfull : s.Capacity ≤ s.Size
  · rw [if_pos hfull]
    by_cases h0 : s.Capacity = 0
    · rw [if_pos h0]
      apply h.push (t := ⟨s.members ++ [(key, value)], some ⟨16, none⟩⟩) rfl
      · intro map hm
        cases hm
      · show s.Size < 16
        omega
    · rw [if_neg h0]
      apply h.push (t := ⟨s.members ++ [(key, value)],
        some ⟨s.Capacity + (s.Capacity + 1) / 2, s.getMap⟩⟩) rfl fun map hm => hm
      show s.Size < s.Capacity + (s.Capacity + 1) / 2
      omega
  · rw [if_neg hfull]
    exact h.push (t := ⟨s.members ++ [(key, value)], s.children⟩) rfl (fun map hm => hm)
      (not_le.mp hfull)

/-- **A found member** is removed, and its entry and that of the last member go with it. -/
theorem Represents.removeFound (h : s.Represents) {key : Bytes} {i : ℕ}
    (hkey : keyAt s.members i = some key) {map : Option (List (Bytes × ℕ))}
    (hmap : ∀ m, map = some m → ∃ m', s.getMap = some m' ∧ find m' key = some i ∧
    m = m'.eraseP fun e => decide (e.1 = key)) :
    (s.removeFound i map).2.members = fill s.members i ∧ (s.removeFound i map).2.Represents := by
  have hle := h.size_le
  have hlt := keyAt_lt hkey
  obtain ⟨tail, htail⟩ := exists_last hlt
  have htail' : s.members[s.Size - 1]? = some tail := htail
  unfold DNode.removeFound fill
  rw [htail]
  dsimp only
  rw [htail']
  dsimp only
  by_cases hl : i ≠ s.members.length - 1
  · have hl' : i ≠ s.Size - 1 := hl
    rw [if_pos hl, if_pos hl']
    refine ⟨rfl, represents_setMap ?_ fun m hm => ?_⟩
    · show (s.members.set i tail).dropLast.length ≤ s.Capacity
      rw [List.length_dropLast, List.length_set]
      exact (Nat.sub_le _ _).trans hle
    · obtain ⟨m₁, hm₁, rfl⟩ := Option.map_eq_some_iff.mp hm
      obtain ⟨m', hm', hfind, rfl⟩ := hmap m₁ hm₁
      exact (h.listed hm').fill htail hfind (by omega)
  · have hl' : ¬ i ≠ s.Size - 1 := hl
    rw [if_neg hl, if_neg hl']
    refine ⟨rfl, represents_setMap ?_ fun m hm => ?_⟩
    · show s.members.dropLast.length ≤ s.Capacity
      rw [List.length_dropLast]
      exact (Nat.sub_le _ _).trans hle
    · obtain ⟨m', hm', hfind, rfl⟩ := hmap m hm
      exact (h.listed hm').dropLast hfind (not_not.mp hl)

theorem Represents.removeMemberImpl (h : s.Represents) (key : Bytes) :
    ListStep s.members (.RemoveMember key) (s.removeMemberImpl key).2.members ∧
      (s.removeMemberImpl key).2.Represents := by
  unfold DNode.removeMemberImpl
  by_cases hn : s.children = none
  · rw [if_pos (by simp [hn])]
    refine ⟨.inr ⟨fun i hi => ?_, rfl⟩, h⟩
    rw [h.nil_of_null hn] at hi
    exact absurd (keyAt_lt hi) (Nat.not_lt_zero i)
  rw [if_neg (by simpa using hn)]
  cases hm : s.getMap with
  | some map =>
    dsimp only
    cases hf : find map key with
    | none => exact ⟨.inr ⟨(h.listed hm).find_none hf, rfl⟩, h⟩
    | some i =>
      have hkey := (h.listed hm).find_some hf
      obtain ⟨h1, h2⟩ := h.removeFound hkey fun m hm' => ⟨map, hm, hf, (Option.some.inj hm').symm⟩
      exact ⟨.inl ⟨i, hkey, h1⟩, h2⟩
  | none =>
    dsimp only
    cases hf : scan s.members key with
    | none => exact ⟨.inr ⟨scan_eq_none.mp hf, rfl⟩, h⟩
    | some i =>
      have hkey := (scan_eq_some.mp hf).1
      obtain ⟨h1, h2⟩ := @Represents.removeFound α s h key i hkey none fun m hm' => absurd hm' (by simp)
      exact ⟨.inl ⟨i, hkey, h1⟩, h2⟩

theorem Represents.eraseMemberImpl (h : s.Represents) {first last : ℕ} (hfirst : first ≤ last)
    (hlast : last ≤ s.Size) :
    (s.eraseMemberImpl first last).2.members = s.members.take first ++ s.members.drop last ∧
      (s.eraseMemberImpl first last).2.Represents := by
  have hsize : s.DestroyMap.Size = s.members.length := rfl
  have hlast' : last ≤ s.members.length := hlast
  unfold DNode.eraseMemberImpl
  dsimp only
  rw [hsize]
  by_cases hall : s.members.length ≤ last - first
  · -- all of them
    have h0 : first = 0 := by omega
    have h1 : last = s.members.length := by omega
    rw [if_pos hall, h0, h1, List.take_zero, List.drop_length]
    exact ⟨rfl, Nat.zero_le _, fun m hm => by cases hm⟩
  · rw [if_neg hall]
    refine ⟨rfl, ?_, fun m hm => ?_⟩
    · show (s.members.take first ++ s.members.drop last).length ≤ s.DestroyMap.Capacity
      have hcap : s.DestroyMap.Capacity = s.Capacity := Capacity_setMap s none
      have hle : s.members.length ≤ s.Capacity := h.size_le
      rw [hcap, List.length_append, List.length_take, List.length_drop]
      omega
    · have hnone : s.DestroyMap.getMap = none := getMap_setMap_none s
      have hm' : s.DestroyMap.getMap = some m := hm
      rw [hnone] at hm'
      cases hm'

theorem Represents.memberReserveImpl (h : s.Represents) (n : ℕ) :
    (s.memberReserveImpl n).members = s.members ∧ (s.memberReserveImpl n).Represents := by
  have hle := h.size_le
  unfold DNode.memberReserveImpl
  by_cases hn : s.Capacity < n
  · rw [if_pos hn]
    refine ⟨rfl, hle.trans hn.le, fun m hm => ?_⟩
    by_cases h0 : s.Capacity = 0
    · simp [getMap, h0] at hm
    · exact h.map m (by simpa [getMap, h0] using hm)
  · rw [if_neg hn]
    exact ⟨rfl, h⟩

theorem Represents.CreateMap (h : s.Represents) :
    s.CreateMap.2.members = s.members ∧ s.CreateMap.2.Represents := by
  have key : ∀ t : DNode α, t.members = s.members → t.Represents →
      let r := if t.getMap.isSome then (true, t) else (true, t.setMap (some (build t.members)))
      r.2.members = s.members ∧ r.2.Represents := by
    intro t hm ht
    dsimp only
    split
    · exact ⟨hm, ht⟩
    · refine ⟨hm, represents_setMap ht.size_le fun m hm' => ?_⟩
      obtain rfl := Option.some.inj hm'
      exact (indexed_build _).listed
  unfold DNode.CreateMap
  dsimp only
  split
  · obtain ⟨h1, h2⟩ := h.memberReserveImpl 16
    exact key _ h1 h2
  · exact key s rfl h

theorem Represents.DestroyMap (h : s.Represents) : s.DestroyMap.Represents :=
  represents_setMap h.size_le fun m hm => by cases hm

/-- **One operation** is a step of the list, and keeps the representation. -/
theorem Represents.exec (h : s.Represents) {op : Op α} (hv : op.Valid s) :
    ListStep s.members op (s.exec op).2.members ∧ (s.exec op).2.Represents := by
  cases op with
  | AddMember key value => exact h.addMemberImpl key value
  | RemoveMember key => exact h.removeMemberImpl key
  | EraseMember first last => exact h.eraseMemberImpl hv.1 hv.2
  | MemberReserve n => exact h.memberReserveImpl n
  | FindMember key => exact ⟨rfl, h⟩
  | CreateMap => exact h.CreateMap
  | DestroyMap => exact ⟨rfl, h.DestroyMap⟩

theorem Represents.run : ∀ {s : DNode α} {ops : List (Op α)}, s.Represents → s.Valid ops →
    ListRun s.members ops (s.run ops).2.members ∧ (s.run ops).2.Represents
  | _, [], h, _ => ⟨.nil _, h⟩
  | _, _ :: _, h, ⟨hv, hvs⟩ => by
    obtain ⟨h1, h2⟩ := h.exec hv
    obtain ⟨h3, h4⟩ := h2.run hvs
    exact ⟨.cons h1 h3, h4⟩

end

/-- **Every history of an object** that has been made without a map is one of its list of members,
and ends with room for the members and with a map, if any, of exactly their names and positions. -/
theorem members_represented {s : DNode α} (hmap : s.getMap = none) (hcap : s.Size ≤ s.Capacity)
    {ops : List (Op α)} (hv : s.Valid ops) :
    ListRun s.members ops (s.run ops).2.members ∧ (s.run ops).2.Size ≤ (s.run ops).2.Capacity ∧
      ∀ map, (s.run ops).2.getMap = some map → map.Perm (build (s.run ops).2.members) := by
  have hs : s.Represents := ⟨hcap, fun m hm => by rw [hmap] at hm; cases hm⟩
  obtain ⟨h1, h2⟩ := hs.run hv
  exact ⟨h1, h2.size_le, h2.map⟩

/-- Three members, two of one name, and the other removed through the map. -/
theorem members_represented_three :
    let ops : List (Op ℕ) := [.AddMember [120] 0, .AddMember [97] 1, .AddMember [97] 2, .CreateMap,
      .RemoveMember [120]]
    ListRun [] ops ((⟨[], none⟩ : DNode ℕ).run ops).2.members ∧
      ((⟨[], none⟩ : DNode ℕ).run ops).2.Size ≤ ((⟨[], none⟩ : DNode ℕ).run ops).2.Capacity ∧
      ∀ map, ((⟨[], none⟩ : DNode ℕ).run ops).2.getMap = some map →
        map.Perm (build ((⟨[], none⟩ : DNode ℕ).run ops).2.members) :=
  members_represented (s := ⟨[], none⟩) rfl (Nat.zero_le _) ⟨trivial, trivial, trivial, trivial,
    trivial, trivial⟩

end DNode

end SonicJson
