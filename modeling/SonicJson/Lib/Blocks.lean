/-
# Live blocks and who owns them

A heap is the set of the blocks that are live. A block is freed once: freeing one that
is not live has no result. `Holds l h` says that `l` lists the live blocks, each once;
who owns which part of `l` is up to the order, so what an operation leaves alone is the
rest of the list: freeing takes a part out of it (`Holds.freeAll`) and a new block is put
in front of it (`Holds.malloc`).
-/
import Mathlib.Data.Finset.Dedup
import Mathlib.Tactic

namespace Blocks

/-- Where new blocks come from: never one that is live. -/
structure Source where
  pick : Finset ℕ → ℕ
  fresh : ∀ h, pick h ∉ h

/-- The block behind the last one. -/
def Source.next : Source := ⟨fun h => h.sup id + 1, fun h hm => by
  have hle : id (h.sup id + 1) ≤ h.sup id := Finset.le_sup hm
  exact absurd hle (Nat.not_succ_le_self _)⟩

def Free (a : ℕ) (h : Finset ℕ) : Option (Finset ℕ) := if a ∈ h then some (h.erase a) else none

def FreeAll : List ℕ → Finset ℕ → Option (Finset ℕ)
  | [], h => some h
  | a :: l, h => (Free a h).bind (FreeAll l)

theorem FreeAll_append (m : List ℕ) : ∀ (l : List ℕ) (h : Finset ℕ),
    FreeAll (l ++ m) h = (FreeAll l h).bind (FreeAll m)
  | [], _ => rfl
  | a :: l, h => by
    rw [List.cons_append, FreeAll, FreeAll, Option.bind_assoc]
    congr 1
    funext h'
    exact FreeAll_append m l h'

/-- The live blocks, each once. -/
structure Holds (l : List ℕ) (h : Finset ℕ) : Prop where
  nodup : l.Nodup
  mem : ∀ a, a ∈ h ↔ a ∈ l

namespace Holds

variable {l m r : List ℕ} {h : Finset ℕ} {a : ℕ}

theorem perm (hl : Holds l h) (p : l.Perm m) : Holds m h :=
  ⟨p.nodup_iff.mp hl.nodup, fun a => (hl.mem a).trans p.mem_iff⟩

theorem nil : Holds [] ∅ := ⟨List.nodup_nil, fun _ => by simp⟩

theorem free (hl : Holds (a :: l) h) : ∃ h', Free a h = some h' ∧ Holds l h' := by
  have ha : a ∈ h := (hl.mem a).mpr List.mem_cons_self
  obtain ⟨hnot, hnd⟩ := List.nodup_cons.mp hl.nodup
  refine ⟨h.erase a, if_pos ha, hnd, fun b => ?_⟩
  rw [Finset.mem_erase, hl.mem b, List.mem_cons]
  constructor
  · rintro ⟨hne, hb⟩
    exact hb.resolve_left hne
  · intro hb
    exact ⟨fun hc => hnot (hc ▸ hb), .inr hb⟩

/-- A part of the blocks is freed, and the rest is as it was. -/
theorem freeAll : ∀ {l : List ℕ} {h : Finset ℕ}, Holds (l ++ m) h → ∃ h', FreeAll l h = some h' ∧
    Holds m h'
  | [], h, hl => ⟨h, rfl, hl⟩
  | a :: l, h, hl => by
    obtain ⟨h₁, hfree, h₁l⟩ := hl.free
    obtain ⟨h₂, hrest, h₂m⟩ := freeAll h₁l
    exact ⟨h₂, by rw [FreeAll, hfree, Option.bind_some, hrest], h₂m⟩

theorem malloc (A : Source) (hl : Holds l h) : Holds (A.pick h :: l) (insert (A.pick h) h) :=
  ⟨List.nodup_cons.mpr ⟨fun hc => A.fresh h ((hl.mem _).mpr hc), hl.nodup⟩, fun b => by
    rw [Finset.mem_insert, hl.mem b, List.mem_cons]⟩

/-- Two parts of the blocks have no block in common. -/
theorem disjoint (hl : Holds (l ++ m) h) : l.Disjoint m := List.disjoint_of_nodup_append hl.nodup

theorem mem_left (hl : Holds (l ++ m) h) (ha : a ∈ l) :
    a ∈ h := (hl.mem a).mpr (List.mem_append_left m ha)

theorem mem_right (hl : Holds (l ++ m) h) (ha : a ∈ m) :
    a ∈ h := (hl.mem a).mpr (List.mem_append_right l ha)

end Holds

end Blocks
