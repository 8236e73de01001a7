/-
# Merging lists of pairs

A pair is put into a list of pairs under its key: the first pair of the key is changed,
and a key that is not there is appended (`upsert`). Putting in the pairs of a list one
after the other is one pass over each list (`foldl_upsert`), as long as no key repeats:
the pairs of the first list are changed in their places, and what the first lacks is
behind them in the order of the second.
-/
import SonicJson.Lib.Index

namespace Merge

open Index

variable {κ α : Type*} [DecidableEq κ] {f : α → α → α} {l l' : List (κ × α)} {k : κ} {v w : α}

/-- The value of the first pair of a key. -/
def get : List (κ × α) → κ → Option α
  | [], _ => none
  | (k', v) :: l, k => if k' = k then some v else get l k

/-- The first pair of the key is changed by `f`, or the pair is appended. -/
def upsert (f : α → α → α) (k : κ) (w : α) : List (κ × α) → List (κ × α)
  | [] => [(k, w)]
  | (k', v) :: l => if k' = k then (k', f v w) :: l else (k', v) :: upsert f k w l

/-- A pair with what the other list has under its key. -/
def change (f : α → α → α) (l' : List (κ × α)) (e : κ × α) : κ × α :=
  (e.1, ((get l' e.1).map (f e.2)).getD e.2)

/-- Every pair with what the other list has under its key, and behind them the pairs of the other
list with new keys. -/
def merge (f : α → α → α) (l l' : List (κ × α)) : List (κ × α) :=
  l.map (change f l') ++ l'.filter fun e => decide (e.1 ∉ l.map Prod.fst)

theorem get_eq_none : get l k = none ↔ k ∉ l.map Prod.fst := by
  induction l with
  | nil => simp [get]
  | cons e l ih =>
    rw [get, List.map_cons, List.mem_cons]
    split
    · rename_i h
      exact iff_of_false (by simp) fun hc => hc (.inl h.symm)
    · rename_i h
      rw [ih, not_or]
      exact ⟨fun hl => ⟨fun hc => h hc.symm, hl⟩, And.right⟩

/-- What is found is the value of the pair. -/
theorem get_of_scan {i : ℕ} {e : κ × α} (h : scan l k = some i) (he : l[i]? = some e) :
    get l k = some e.2 := by
  induction l generalizing i with
  | nil => cases he
  | cons a l ih =>
    obtain ⟨h1, h2⟩ := scan_eq_some.mp h
    cases i with
    | zero =>
      obtain rfl := Option.some.inj he
      rw [get, if_pos (Option.some.inj h1)]
    | succ i =>
      have hk : a.1 ≠ k := fun hc => h2 0 (Nat.succ_pos _) (congrArg some hc)
      have hi : scan l k = some i := scan_eq_some.mpr ⟨h1, fun j hj => h2 (j + 1) (Nat.succ_lt_succ hj)⟩
      rw [get, if_neg hk]
      exact ih hi he

/-- Other keys keep their values. -/
theorem get_upsert_ne {k' : κ} (hk : k ≠ k') : get (upsert f k w l) k' = get l k' := by
  induction l with
  | nil => exact if_neg hk
  | cons a l ih =>
    rw [upsert]
    split
    · rename_i ha
      rw [get, get, if_neg (ha ▸ hk), if_neg (ha ▸ hk)]
    · rw [get, get, ih]

/-- Changing the pair at its first position. -/
theorem upsert_of_scan {i : ℕ} {e : κ × α} (h : scan l k = some i) (he : l[i]? = some e) :
    upsert f k w l = l.set i (e.1, f e.2 w) := by
  induction l generalizing i with
  | nil => cases he
  | cons a l ih =>
    obtain ⟨h1, h2⟩ := scan_eq_some.mp h
    cases i with
    | zero =>
      obtain rfl := Option.some.inj he
      have hk : a.1 = k := Option.some.inj h1
      rw [upsert, if_pos hk, List.set_cons_zero]
    | succ i =>
      have hk : a.1 ≠ k := fun hc => h2 0 (Nat.succ_pos _) (congrArg some hc)
      have hi : scan l k = some i := scan_eq_some.mpr ⟨h1, fun j hj => h2 (j + 1) (Nat.succ_lt_succ hj)⟩
      rw [upsert, if_neg hk, List.set_cons_succ, ih hi he]

/-- A new key is appended. -/
theorem upsert_of_new (h : k ∉ l.map Prod.fst) : upsert f k w l = l ++ [(k, w)] := by
  induction l with
  | nil => rfl
  | cons a l ih =>
    rw [List.map_cons, List.mem_cons, not_or] at h
    rw [upsert, if_neg (Ne.symm h.1), ih h.2, List.cons_append]

theorem keys_of_scan_none (h : scan l k = none) : k ∉ l.map Prod.fst := by
  intro hk
  obtain ⟨e, he, rfl⟩ := List.mem_map.mp hk
  obtain ⟨i, hi⟩ := List.mem_iff_getElem?.mp he
  exact scan_eq_none.mp h i (keyAt_eq_some.mpr ⟨e.2, hi⟩)

/-- The keys stay where they are. -/
theorem upsert_keys_of_mem (h : k ∈ l.map Prod.fst) :
    (upsert f k w l).map Prod.fst = l.map Prod.fst := by
  induction l with
  | nil => cases h
  | cons a l ih =>
    rw [upsert]
    split
    · rfl
    · rename_i hne
      rw [List.map_cons, List.mem_cons] at h
      rw [List.map_cons, List.map_cons, ih (h.resolve_left fun hc => hne hc.symm)]

/-- What is changed later has been changed already. -/
theorem map_change_upsert (hl : (l.map Prod.fst).Nodup) (hnew : k ∉ l'.map Prod.fst)
    (hk : k ∈ l.map Prod.fst) :
    (upsert f k w l).map (change f l') = l.map (change f ((k, w) :: l')) := by
  induction l with
  | nil => cases hk
  | cons a l ih =>
    rw [List.map_cons, List.nodup_cons] at hl
    rw [upsert]
    split
    · rename_i ha
      rw [List.map_cons, List.map_cons]
      congr 1
      · rw [change, change, get, if_pos ha.symm]
        dsimp only
        rw [ha, get_eq_none.mpr hnew]
        rfl
      · refine List.map_congr_left fun e he => ?_
        have hne : k ≠ e.1 := fun hc => hl.1 (by rw [ha, hc]; exact List.mem_map_of_mem he)
        rw [change, change, get, if_neg hne]
    · rename_i ha
      rw [List.map_cons, List.mem_cons] at hk
      rw [List.map_cons, List.map_cons, ih hl.2 (hk.resolve_left fun hc => ha hc.symm)]
      congr 1
      rw [change, change, get, if_neg (Ne.symm ha)]

/-- One more pair to put in. -/
theorem merge_cons (hl : (l.map Prod.fst).Nodup) (hnew : k ∉ l'.map Prod.fst) :
    merge f (upsert f k w l) l' = merge f l ((k, w) :: l') := by
  by_cases hk : k ∈ l.map Prod.fst
  · rw [merge, merge, map_change_upsert hl hnew hk, upsert_keys_of_mem hk, List.filter_cons, if_neg]
    simpa using hk
  · have hfilter : (l'.filter fun e => decide (e.1 ∉ (l ++ [(k, w)]).map Prod.fst)) =
        l'.filter fun e => decide (e.1 ∉ l.map Prod.fst) := by
      refine List.filter_congr fun e he => ?_
      have hne : e.1 ≠ k := fun hc => hnew (hc ▸ List.mem_map_of_mem he)
      simp [hne]
    have hmap : l.map (change f ((k, w) :: l')) = l.map (change f l') := by
      refine List.map_congr_left fun e he => ?_
      have hne : k ≠ e.1 := fun hc => hk (hc ▸ List.mem_map_of_mem he)
      rw [change, change, get, if_neg hne]
    have hlast : change f l' (k, w) = (k, w) := by
      rw [change, get_eq_none.mpr hnew]
      rfl
    rw [merge, merge, upsert_of_new hk, hfilter, hmap, List.map_append, List.map_singleton, hlast,
      List.filter_cons, if_pos
      (by simpa using hk), List.append_assoc, List.singleton_append]

theorem upsert_nodup (hl : (l.map Prod.fst).Nodup) : ((upsert f k w l).map Prod.fst).Nodup := by
  by_cases hk : k ∈ l.map Prod.fst
  · rwa [upsert_keys_of_mem hk]
  · rw [upsert_of_new hk, List.map_append]
    exact List.Nodup.append hl (List.nodup_singleton _) (by simpa using hk)

/-- **Putting in one pair after the other.** -/
theorem foldl_upsert (hl : (l.map Prod.fst).Nodup) (hl' : (l'.map Prod.fst).Nodup) :
    l'.foldl (fun l e => upsert f e.1 e.2 l) l = merge f l l' := by
  induction l' generalizing l with
  | nil =>
    have hid : l.map (change f []) = l := (List.map_congr_left fun _ _ => rfl).trans l.map_id
    rw [List.foldl_nil, merge, hid, List.filter_nil, List.append_nil]
  | cons e l' ih =>
    rw [List.map_cons, List.nodup_cons] at hl'
    rw [List.foldl_cons, ih (upsert_nodup hl) hl'.2]
    exact merge_cons hl hl'.1

/-- What holds of all keys. -/
theorem forall_upsert {P : κ → Prop} (h : ∀ e ∈ l, P e.1) (hk : P k) : ∀ e ∈ upsert f k w l, P e.1 := by
  induction l with
  | nil => exact List.forall_mem_singleton.mpr hk
  | cons a l ih =>
    obtain ⟨ha, hl⟩ := List.forall_mem_cons.mp h
    rw [upsert]
    split
    · exact List.forall_mem_cons.mpr ⟨ha, hl⟩
    · exact List.forall_mem_cons.mpr ⟨ha, ih hl⟩

theorem forall_foldl_upsert {P : κ → Prop} (h : ∀ e ∈ l, P e.1) (h' : ∀ e ∈ l', P e.1) :
    ∀ e ∈ l'.foldl (fun l e => upsert f e.1 e.2 l) l, P e.1 := by
  induction l' generalizing l with
  | nil => exact h
  | cons e l' ih =>
    obtain ⟨he, hl'⟩ := List.forall_mem_cons.mp h'
    exact ih (forall_upsert h he) hl'

theorem foldl_upsert_ne_nil (h : l ≠ []) : l'.foldl (fun l e => upsert f e.1 e.2 l) l ≠ [] := by
  induction l' generalizing l with
  | nil => exact h
  | cons e l' ih =>
    refine ih ?_
    show upsert f e.1 e.2 l ≠ []
    cases l with
    | nil => exact absurd rfl h
    | cons a l =>
      obtain ⟨k, v⟩ := a
      rw [upsert]
      split <;> exact List.cons_ne_nil _ _

/-- The sizes of keys and values together. -/
def size (p : κ → ℕ) (c : α → ℕ) (l : List (κ × α)) : ℕ := (l.map fun e => p e.1 + c e.2).sum

variable {p : κ → ℕ} {c : α → ℕ}

theorem size_upsert (h : ∀ v, get l k = some v → c (f v w) ≤ c v + c w) :
    size p c (upsert f k w l) ≤ size p c l + (p k + c w) := by
  induction l with
  | nil => simp [upsert, size]
  | cons a l ih =>
    rw [upsert]
    split
    · rename_i ha
      have hv := h a.2 (by rw [get, if_pos ha])
      simp only [size, List.map_cons, List.sum_cons]
      omega
    · rename_i ha
      have hl := ih fun v hv => h v (by rw [get, if_neg ha, hv])
      simp only [size, List.map_cons, List.sum_cons] at hl ⊢
      omega

/-- What is put in makes a list no larger than by its size, if changing a value does not. -/
theorem size_foldl (hl' : (l'.map Prod.fst).Nodup)
    (h : ∀ e ∈ l', ∀ v, get l e.1 = some v → c (f v e.2) ≤ c v + c e.2) :
    size p c (l'.foldl (fun l e => upsert f e.1 e.2 l) l) ≤ size p c l + size p c l' := by
  induction l' generalizing l with
  | nil => exact Nat.le_add_right _ _
  | cons e l' ih =>
    rw [List.map_cons, List.nodup_cons] at hl'
    have hne : ∀ e' ∈ l', e.1 ≠ e'.1 := fun e' he hc => hl'.1 (hc ▸ List.mem_map_of_mem he)
    have h1 := size_upsert (p := p) (h e List.mem_cons_self)
    have h2 := ih (l := upsert f e.1 e.2 l) hl'.2 fun e' he v hv =>
      h e' (List.mem_cons_of_mem _ he) v ((get_upsert_ne (hne e' he)).symm.trans hv)
    rw [List.foldl_cons]
    simp only [size, List.map_cons, List.sum_cons] at h1 h2 ⊢
    omega

end Merge
