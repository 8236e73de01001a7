/-
# An index of a list by its keys

A list of pairs is searched by key from the front (`scan`), or through an index
that keeps the positions of each key in the order in which they were put in
(`find`). The two find the same pair as long as the positions of a key stand in the
index in ascending order (`Indexed`). Appending keeps it; moving the last pair into
a hole keeps it when no pair of that key stands between the hole and the end.
-/
import Mathlib.Data.List.Sort
import Mathlib.Tactic

namespace Index

variable {κ α : Type*} {m : List (κ × ℕ)} {l : List (κ × α)} {k : κ} {i : ℕ}

/-- The key at a position. -/
def keyAt (l : List (κ × α)) (i : ℕ) : Option κ := (l[i]?).map Prod.fst

/-- The index of a list as it stands. -/
def build (l : List (κ × α)) : List (κ × ℕ) := l.zipIdx.map fun e => (e.1.1, e.2)

/-- The index has each position of the list under its key, and the positions of a key in ascending
order. -/
structure Indexed (m : List (κ × ℕ)) (l : List (κ × α)) : Prop where
  mem : ∀ k i, (k, i) ∈ m ↔ keyAt l i = some k
  sorted : m.Pairwise fun a b => a.1 = b.1 → a.2 < b.2

theorem keyAt_eq_some : keyAt l i = some k ↔ ∃ v, l[i]? = some (k, v) := by
  rw [keyAt, Option.map_eq_some_iff]
  constructor
  · rintro ⟨⟨k', v⟩, h, rfl⟩
    exact ⟨v, h⟩
  · rintro ⟨v, h⟩
    exact ⟨_, h, rfl⟩

theorem keyAt_lt (h : keyAt l i = some k) : i < l.length := by
  obtain ⟨v, hv⟩ := keyAt_eq_some.mp h
  exact (List.getElem?_eq_some_iff.mp hv).1

theorem Indexed.nodup (h : Indexed m l) : m.Nodup :=
  h.sorted.imp fun {a b} hab he => by
    subst he
    exact absurd (hab rfl) (lt_irrefl _)

theorem indexed_nil : Indexed ([] : List (κ × ℕ)) ([] : List (κ × α)) :=
  ⟨fun k i => by simp [keyAt], List.Pairwise.nil⟩

theorem keyAt_append (l : List (κ × α)) (e : κ × α) (i : ℕ) :
    keyAt (l ++ [e]) i = if i = l.length then some e.1 else keyAt l i := by
  unfold keyAt
  rcases Nat.lt_trichotomy i l.length with h | h | h
  · rw [List.getElem?_append_left h, if_neg (by omega)]
  · subst h
    simp
  · rw [if_neg (by omega), List.getElem?_eq_none (by simp; omega), List.getElem?_eq_none (by omega)]

/-- A pair is appended to the list, its position to the index. -/
theorem Indexed.append (h : Indexed m l) (k : κ) (v : α) :
    Indexed (m ++ [(k, l.length)]) (l ++ [(k, v)]) := by
  refine ⟨fun k' i => ?_, List.pairwise_append.mpr ⟨h.sorted, List.pairwise_singleton _ _, ?_⟩⟩
  · rw [keyAt_append, List.mem_append, h.mem, List.mem_singleton, Prod.mk.injEq]
    by_cases hi : i = l.length
    · subst hi
      rw [if_pos rfl]
      have hn : keyAt l l.length ≠ some k' := fun hc => absurd (keyAt_lt hc) (lt_irrefl _)
      simp [hn, eq_comm]
    · simp [hi]
  · rintro ⟨k', j⟩ hj b hb he
    obtain rfl := List.mem_singleton.mp hb
    exact keyAt_lt ((h.mem k' j).mp hj)

theorem build_append (l : List (κ × α)) (e : κ × α) :
    build (l ++ [e]) = build l ++ [(e.1, l.length)] := by
  simp [build, List.zipIdx_append]

theorem indexed_build (l : List (κ × α)) : Indexed (build l) l := by
  induction l using List.reverseRecOn with
  | nil => exact indexed_nil
  | append_singleton l e ih =>
    rw [build_append]
    exact ih.append e.1 e.2

theorem keyAt_dropLast (l : List (κ × α)) (i : ℕ) :
    keyAt l.dropLast i = if i < l.length - 1 then keyAt l i else none := by
  unfold keyAt
  rw [List.getElem?_dropLast]
  split <;> rfl

section
variable [DecidableEq κ]

/-! ### Search -/

/-- The first position of the key in the list. -/
def scan (l : List (κ × α)) (k : κ) : Option ℕ := l.findIdx? fun e => decide (e.1 = k)

/-- The first position of the key in the index. -/
def find (m : List (κ × ℕ)) (k : κ) : Option ℕ := (m.find? fun e => decide (e.1 = k)).map Prod.snd

/-- What `scan` finds: a position of the key with none before it. -/
theorem scan_eq_some : scan l k = some i ↔ keyAt l i = some k ∧ ∀ j < i, keyAt l j ≠ some k := by
  rw [scan, List.findIdx?_eq_some_iff_getElem]
  constructor
  · rintro ⟨hi, h1, h2⟩
    have hk : l[i].1 = k := of_decide_eq_true h1
    refine ⟨by rw [keyAt, List.getElem?_eq_getElem hi, Option.map_some, hk], fun j hj hc => ?_⟩
    obtain ⟨v, hv⟩ := keyAt_eq_some.mp hc
    rw [List.getElem?_eq_getElem (by omega)] at hv
    have := h2 j hj
    rw [Option.some.inj hv] at this
    simp at this
  · rintro ⟨h1, h2⟩
    have hi := keyAt_lt h1
    have key : ∀ j, ∀ hj : j < l.length, keyAt l j = some l[j].1 := fun j hj => by
      rw [keyAt, List.getElem?_eq_getElem hj, Option.map_some]
    refine ⟨hi, ?_, fun j hj => ?_⟩
    · rw [key i hi] at h1
      simpa using h1
    · have := h2 j hj
      rw [key j (by omega)] at this
      simpa using this

theorem scan_eq_none : scan l k = none ↔ ∀ i, keyAt l i ≠ some k := by
  constructor
  · intro h i hi
    obtain ⟨v, hv⟩ := keyAt_eq_some.mp hi
    have := List.findIdx?_eq_none_iff.mp h _ (List.mem_of_getElem? hv)
    simp at this
  · intro h
    cases hs : scan l k with
    | none => rfl
    | some i => exact absurd (scan_eq_some.mp hs).1 (h i)

/-- **The index finds what the scan finds.** -/
theorem Indexed.find_eq (h : Indexed m l) (k : κ) : find m k = scan l k := by
  cases hf : m.find? fun e => decide (e.1 = k) with
  | none =>
    rw [find, hf, Option.map_none]
    refine (scan_eq_none.mpr fun i hi => ?_).symm
    have := List.find?_eq_none.mp hf _ ((h.mem k i).mpr hi)
    simp at this
  | some e =>
    obtain ⟨k', i⟩ := e
    obtain ⟨hk, as, bs, rfl, has⟩ := List.find?_eq_some_iff_append.mp hf
    obtain rfl : k' = k := of_decide_eq_true hk
    rw [find, hf, Option.map_some]
    refine (scan_eq_some.mpr ⟨(h.mem k' i).mp (by simp), fun j hj hc => ?_⟩).symm
    -- a smaller position of the key would stand before this one
    have hm := (h.mem k' j).mpr hc
    rcases List.mem_append.mp hm with hm | hm
    · have := has _ hm
      simp at this
    · rcases List.mem_cons.mp hm with he | hm
      · have := (Prod.mk.inj he).2
        omega
      · have hlt : i < j := List.rel_of_pairwise_cons (List.pairwise_append.mp h.sorted).2.1 hm rfl
        omega

/-- The index without the first entry of the key is the index without the position that `find` finds. -/
theorem eraseP_eq (h : find m k = some i) : m.eraseP (fun e => decide (e.1 = k)) = m.erase (k, i) := by
  obtain ⟨e, he, rfl⟩ := Option.map_eq_some_iff.mp h
  obtain ⟨k', i⟩ := e
  obtain ⟨hk, as, bs, rfl, has⟩ := List.find?_eq_some_iff_append.mp he
  obtain rfl : k' = k := of_decide_eq_true hk
  rw [List.eraseP_append_right _ fun b hb => by simpa using has b hb, List.eraseP_cons_of_pos (by simp),
    List.erase_append_right _ (fun hm => by simpa using has _ hm), List.erase_cons_head]

/-! ### What keeps the order -/

theorem eraseP_pair (m : List (κ × ℕ)) (k : κ) (i : ℕ) :
    m.eraseP (fun e => decide (e.1 = k ∧ e.2 = i)) = m.erase (k, i) := by
  rw [List.erase_eq_eraseP]
  congr 1
  funext e
  rw [Bool.eq_iff_iff, decide_eq_true_eq, beq_iff_eq, Prod.ext_iff]
  exact and_congr eq_comm eq_comm

/-- The last pair is removed, when the search comes to it. -/
theorem Indexed.dropLast (h : Indexed m l) (hs : scan l k = some i) (hi : i = l.length - 1) :
    Indexed (m.eraseP fun e => decide (e.1 = k)) l.dropLast := by
  have hl := (scan_eq_some.mp hs).1
  rw [eraseP_eq ((h.find_eq k).trans hs)]
  refine ⟨fun k' j => ?_, h.sorted.sublist List.erase_sublist⟩
  rw [h.nodup.mem_erase_iff, h.mem, keyAt_dropLast]
  by_cases hj : j < l.length - 1
  · rw [if_pos hj]
    refine and_iff_right_of_imp fun _ hc => ?_
    have := (Prod.mk.inj hc).2
    omega
  · rw [if_neg hj]
    refine iff_of_false (fun hc => ?_) (by simp)
    have hlt := keyAt_lt hc.2
    obtain rfl : j = i := by omega
    exact hc.1 (by rw [Option.some.inj (hc.2.symm.trans hl)])

/-- **The last pair moves into a hole**, and its position with it to the end of the index. -/
theorem Indexed.fill (h : Indexed m l) {e : κ × α} (hn : l[l.length - 1]? = some e)
    (hs : scan l k = some i) (hi : i < l.length - 1)
    (hkeep : ∀ j, i < j → j < l.length - 1 → keyAt l j ≠ some e.1) :
    Indexed (((m.eraseP fun x => decide (x.1 = k)).eraseP fun x =>
      decide (x.1 = e.1 ∧ x.2 = l.length - 1)) ++
      [(e.1, i)]) (l.set i e).dropLast := by
  have hl := (scan_eq_some.mp hs).1
  rw [eraseP_eq ((h.find_eq k).trans hs), eraseP_pair]
  have hlast : keyAt l (l.length - 1) = some e.1 := by rw [keyAt, hn, Option.map_some]
  have hset : ∀ j, keyAt (l.set i e) j = if j = i then some e.1 else keyAt l j := fun j => by
    unfold keyAt
    by_cases hj : j = i
    · subst hj
      rw [List.getElem?_set_self (by omega), if_pos rfl, Option.map_some]
    · rw [List.getElem?_set_ne (Ne.symm hj), if_neg hj]
  have hmem : ∀ k' j, (k', j) ∈ (m.erase (k, i)).erase (e.1, l.length - 1) ↔
      j ≠ i ∧ j ≠ l.length - 1 ∧ keyAt l j = some k' := fun k' j => by
    rw [(h.nodup.erase _).mem_erase_iff, h.nodup.mem_erase_iff, h.mem]
    constructor
    · rintro ⟨h1, h2, h3⟩
      refine ⟨fun hc => h2 ?_, fun hc => h1 ?_, h3⟩
      · subst hc
        rw [Option.some.inj (h3.symm.trans hl)]
      · subst hc
        rw [Option.some.inj (h3.symm.trans hlast)]
    · rintro ⟨h1, h2, h3⟩
      exact ⟨fun hc => h2 (Prod.mk.inj hc).2, fun hc => h1 (Prod.mk.inj hc).2, h3⟩
  refine ⟨fun k' j => ?_,
    List.pairwise_append.mpr ⟨(h.sorted.sublist List.erase_sublist).sublist List.erase_sublist,
    List.pairwise_singleton _ _, ?_⟩⟩
  · rw [List.mem_append, hmem, List.mem_singleton, Prod.mk.injEq, keyAt_dropLast, List.length_set, hset]
    by_cases hj : j < l.length - 1
    · rw [if_pos hj]
      by_cases hji : j = i
      · rw [if_pos hji]
        simp [hji, eq_comm]
      · rw [if_neg hji]
        simp [hji, show j ≠ l.length - 1 by omega]
    · rw [if_neg hj]
      refine iff_of_false ?_ (by simp)
      rintro (⟨-, h2, h3⟩ | ⟨-, h2⟩)
      · have := keyAt_lt h3
        omega
      · omega
  · rintro ⟨k', j⟩ hj b hb he
    obtain rfl := List.mem_singleton.mp hb
    obtain ⟨h1, h2, h3⟩ := (hmem k' j).mp hj
    have hlt := keyAt_lt h3
    by_contra hge
    exact hkeep j (by simp only [not_lt] at hge; omega) (by omega) (by rw [h3]; exact congrArg some he)

/-! ### Without an order -/

/-- The index has each position of the list once, under its key. -/
structure Listed (m : List (κ × ℕ)) (l : List (κ × α)) : Prop where
  nodup : m.Nodup
  mem : ∀ k i, (k, i) ∈ m ↔ keyAt l i = some k

omit [DecidableEq κ] in
theorem Indexed.listed (h : Indexed m l) : Listed m l := ⟨h.nodup, h.mem⟩

omit [DecidableEq κ] in
/-- It is the list's own index, in some order. -/
theorem listed_iff_perm : Listed m l ↔ m.Perm (build l) := by
  have hb := (indexed_build l).listed
  constructor
  · intro h
    refine (List.perm_ext_iff_of_nodup h.nodup hb.nodup).mpr fun e => ?_
    obtain ⟨k, i⟩ := e
    rw [h.mem, hb.mem]
  · intro h
    refine ⟨h.nodup_iff.mpr hb.nodup, fun k i => ?_⟩
    rw [h.mem_iff, hb.mem]

omit [DecidableEq κ] in
theorem Listed.append (h : Listed m l) (k : κ) (v : α) :
    Listed (m ++ [(k, l.length)]) (l ++ [(k, v)]) := by
  rw [listed_iff_perm] at h ⊢
  rw [build_append]
  exact h.append_right _

/-- The search comes to a position of the key, if there is one. -/
theorem Listed.find_some (h : Listed m l) (hf : find m k = some i) : keyAt l i = some k := by
  obtain ⟨⟨k', i'⟩, he, rfl⟩ := Option.map_eq_some_iff.mp hf
  have hk : k' = k := by simpa using List.find?_some he
  rw [← hk]
  exact (h.mem k' i').mp (List.mem_of_find?_eq_some he)

theorem Listed.find_none (h : Listed m l) (hf : find m k = none) : ∀ i, keyAt l i ≠ some k := by
  intro i hi
  have hnone := Option.map_eq_none_iff.mp hf
  have := List.find?_eq_none.mp hnone _ ((h.mem k i).mpr hi)
  simp at this

/-- The last pair is removed, when the search comes to it. -/
theorem Listed.dropLast (h : Listed m l) (hf : find m k = some i) (hi : i = l.length - 1) :
    Listed (m.eraseP fun e => decide (e.1 = k)) l.dropLast := by
  have hl := h.find_some hf
  rw [eraseP_eq hf]
  refine ⟨h.nodup.erase _, fun k' j => ?_⟩
  rw [h.nodup.mem_erase_iff, h.mem, keyAt_dropLast]
  by_cases hj : j < l.length - 1
  · rw [if_pos hj]
    refine and_iff_right_of_imp fun _ hc => ?_
    have := (Prod.mk.inj hc).2
    omega
  · rw [if_neg hj]
    refine iff_of_false (fun hc => ?_) (by simp)
    have hlt := keyAt_lt hc.2
    obtain rfl : j = i := by omega
    exact hc.1 (by rw [Option.some.inj (hc.2.symm.trans hl)])

omit [DecidableEq κ] in
theorem keyAt_set (l : List (κ × α)) {i : ℕ} (hi : i < l.length) (e : κ × α) (j : ℕ) :
    keyAt (l.set i e) j = if j = i then some e.1 else keyAt l j := by
  unfold keyAt
  by_cases hj : j = i
  · subst hj
    rw [List.getElem?_set_self hi, if_pos rfl, Option.map_some]
  · rw [List.getElem?_set_ne (Ne.symm hj), if_neg hj]

/-- **The last pair moves into a hole**: the positions of the hole and of the pair are taken out,
and the hole is put in again. -/
theorem Listed.fill (h : Listed m l) {e : κ × α} (hn : l[l.length - 1]? = some e)
    (hf : find m k = some i) (hi : i < l.length - 1) :
    Listed (((m.eraseP fun x => decide (x.1 = k)).eraseP fun x =>
      decide (x.1 = e.1 ∧ x.2 = l.length - 1)) ++
      [(e.1, i)]) (l.set i e).dropLast := by
  have hl := h.find_some hf
  rw [eraseP_eq hf, eraseP_pair]
  have hlast : keyAt l (l.length - 1) = some e.1 := by rw [keyAt, hn, Option.map_some]
  have hmem : ∀ k' j, (k', j) ∈ (m.erase (k, i)).erase (e.1, l.length - 1) ↔
      j ≠ i ∧ j ≠ l.length - 1 ∧ keyAt l j = some k' := fun k' j => by
    rw [(h.nodup.erase _).mem_erase_iff, h.nodup.mem_erase_iff, h.mem]
    constructor
    · rintro ⟨h1, h2, h3⟩
      refine ⟨fun hc => h2 ?_, fun hc => h1 ?_, h3⟩
      · subst hc
        rw [Option.some.inj (h3.symm.trans hl)]
      · subst hc
        rw [Option.some.inj (h3.symm.trans hlast)]
    · rintro ⟨h1, h2, h3⟩
      exact ⟨fun hc => h2 (Prod.mk.inj hc).2, fun hc => h1 (Prod.mk.inj hc).2, h3⟩
  refine ⟨List.Nodup.append ((h.nodup.erase _).erase _) (List.nodup_singleton _) ?_, fun k' j => ?_⟩
  · rintro ⟨k', j⟩ hj hj'
    rw [List.mem_singleton, Prod.mk.injEq] at hj'
    exact ((hmem k' j).mp hj).1 hj'.2
  · rw [List.mem_append, hmem, List.mem_singleton, Prod.mk.injEq, keyAt_dropLast, List.length_set,
      keyAt_set l (by omega)]
    by_cases hj : j < l.length - 1
    · rw [if_pos hj]
      by_cases hji : j = i
      · rw [if_pos hji]
        simp [hji, eq_comm]
      · rw [if_neg hji]
        simp [hji, show j ≠ l.length - 1 by omega]
    · rw [if_neg hj]
      refine iff_of_false ?_ (by simp)
      rintro (⟨-, h2, h3⟩ | ⟨-, h2⟩)
      · have := keyAt_lt h3
        omega
      · omega

end

end Index
