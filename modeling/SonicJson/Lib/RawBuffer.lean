/-
# Writing through a pointer

The memory behind a pointer, and how far it has been written. A routine that is given a
position writes a text there and may use some room behind it; `Wrote` says so and that the
rest of the memory is as it was. What two routines have written one behind the other is
one text (`Wrote.append`), also when the second part is written first (`Wrote.prepend`).
-/
import Mathlib.Tactic

namespace RawBuffer

/-- The memory, and the end of what has been written. -/
structure Raw (β : Type) where
  mem : ℕ → β
  top : ℕ

variable {β : Type}

/-- Writes `bs` from `i` on. -/
def Raw.put (o : Raw β) (i : ℕ) (bs : List β) : Raw β :=
  ⟨fun j => (if i ≤ j then bs[j - i]? else none).getD (o.mem j), max o.top (i + bs.length)⟩

/-- The `n` bytes from `i` on. -/
def Raw.read (o : Raw β) (i n : ℕ) : List β := (List.range n).map fun j => o.mem (i + j)

/-- `t` is written at `i`, and nothing outside of the `room` from there on. -/
structure Wrote (o o' : Raw β) (i : ℕ) (t : List β) (room : ℕ) : Prop where
  text : ∀ j, (h : j < t.length) → o'.mem (i + j) = t[j]
  frame : ∀ j, j < i ∨ i + room ≤ j → o'.mem j = o.mem j
  top : o'.top ≤ max o.top (i + room)
  fits : t.length ≤ room

section
variable {o o' o'' : Raw β} {i r r' : ℕ} {t u v : List β}

theorem Raw.read_length (o : Raw β) (i n : ℕ) : (o.read i n).length = n := by simp [Raw.read]

theorem Raw.read_getElem (o : Raw β) (i n j : ℕ) (h : j < (o.read i n).length) :
    (o.read i n)[j] = o.mem (i + j) := by
  simp [Raw.read]

theorem Raw.put_mem (o : Raw β) (bs : List β) (j : ℕ) (h : j < bs.length) :
    (o.put i bs).mem (i + j) = bs[j] := by
  simp [Raw.put, h]

theorem Raw.put_mem_out (o : Raw β) (bs : List β) (j : ℕ) (h : j < i ∨ i + bs.length ≤ j) :
    (o.put i bs).mem j = o.mem j := by
  unfold Raw.put
  dsimp only
  rcases h with h | h
  · rw [if_neg (by omega)]
    rfl
  · rw [if_pos (by omega), List.getElem?_eq_none (by omega)]
    rfl

/-- Two writes behind each other are one. -/
theorem Raw.put_put (o : Raw β) (a b : List β) :
    (o.put i a).put (i + a.length) b = o.put i (a ++ b) := by
  unfold Raw.put
  simp only [Raw.mk.injEq]
  refine ⟨?_, by rw [List.length_append]; omega⟩
  funext j
  rcases Nat.lt_or_ge j i with hj | hj
  · have h1 : ¬ i + a.length ≤ j := by omega
    have h2 : ¬ i ≤ j := by omega
    simp only [h1, h2, if_false, Option.getD_none]
  · rcases Nat.lt_or_ge j (i + a.length) with hk | hk
    · have h1 : ¬ i + a.length ≤ j := by omega
      simp only [h1, hj, if_false, if_true, Option.getD_none]
      rw [List.getElem?_append_left (by omega)]
    · simp only [hk, hj, if_true]
      rw [List.getElem?_append_right (by omega), List.getElem?_eq_none (l := a) (by omega),
        Option.getD_none]
      congr 2
      omega

/-- A part of what is written counts, and the rest is room. -/
theorem put_wrote (o : Raw β) (t junk : List β) :
    Wrote o (o.put i (t ++ junk)) i t (t ++ junk).length := by
  refine ⟨fun j h => ?_, fun j h => Raw.put_mem_out o _ j h, le_rfl, by simp⟩
  rw [Raw.put_mem o _ j (by rw [List.length_append]; omega), List.getElem_append_left h]

theorem put_wrote_all (o : Raw β) (t : List β) : Wrote o (o.put i t) i t t.length := by
  have := @put_wrote β i o t []
  rwa [List.append_nil] at this

theorem Wrote.refl (o : Raw β) (i : ℕ) : Wrote o o i [] 0 :=
  ⟨fun _ h => absurd h (Nat.not_lt_zero _), fun _ _ => rfl, le_max_left _ _, le_rfl⟩

/-- More room. -/
theorem Wrote.mono (h : Wrote o o' i t r) (hr : r ≤ r') : Wrote o o' i t r' := by
  refine ⟨h.text, fun j hj => h.frame j (by omega), ?_, h.fits.trans hr⟩
  have := h.top
  omega

/-- Only the front of the text. -/
theorem Wrote.front (h : Wrote o o' i (t ++ u) r) : Wrote o o' i t r := by
  have hlen := h.fits
  rw [List.length_append] at hlen
  refine ⟨fun j hj => ?_, h.frame, h.top, by omega⟩
  rw [h.text j (by rw [List.length_append]; omega), List.getElem_append_left hj]

/-- **One behind the other.** -/
theorem Wrote.append (h : Wrote o o' i t r) (h' : Wrote o' o'' (i + t.length) u r') :
    Wrote o o'' i (t ++ u) (max r (t.length + r')) := by
  have hfits := h.fits
  have hfits' := h'.fits
  refine ⟨fun j hj => ?_, fun j hj => ?_, ?_, ?_⟩
  · rcases Nat.lt_or_ge j t.length with hlt | hge
    · rw [List.getElem_append_left hlt, h'.frame _ (by omega), h.text j hlt]
    · rw [List.length_append] at hj
      rw [List.getElem_append_right hge, ← h'.text (j - t.length) (by omega)]
      congr 1
      omega
  · rw [h'.frame j (by omega), h.frame j (by omega)]
  · have := h.top
    have := h'.top
    omega
  · rw [List.length_append]
    omega

/-- **The second part first.** -/
theorem Wrote.prepend (h : Wrote o o' (i + t.length) u r) (h' : Wrote o' o'' i t t.length) :
    Wrote o o'' i (t ++ u) (t.length + r) := by
  have hfits := h.fits
  refine ⟨fun j hj => ?_, fun j hj => ?_, ?_, ?_⟩
  · rcases Nat.lt_or_ge j t.length with hlt | hge
    · rw [List.getElem_append_left hlt, h'.text j hlt]
    · rw [List.length_append] at hj
      rw [List.getElem_append_right hge, h'.frame _ (by omega), ← h.text (j - t.length) (by omega)]
      congr 1
      omega
  · rw [h'.frame j (by omega), h.frame j (by omega)]
  · have := h.top
    have := h'.top
    omega
  · rw [List.length_append]
    omega

/-- The same, for positions that are given. -/
theorem Wrote.prepend_at {j n : ℕ} (h : Wrote o o' j u r) (h' : Wrote o' o'' i t n)
    (hn : t.length = n) (hj : i + n = j) :
    Wrote o o'' i (t ++ u) (n + r) := by
  subst hn
  subst hj
  exact h.prepend h'

/-- A part of the text is written over. -/
theorem Wrote.patch {a : List β} (h : Wrote o o' i (t ++ (u ++ v)) r) (ha : a.length = u.length) :
    Wrote o (o'.put (i + t.length) a) i (t ++ (a ++ v)) r := by
  have hfits := h.fits
  simp only [List.length_append] at hfits
  refine ⟨fun j hj => ?_, fun j hj => ?_, ?_, by simp only [List.length_append]; omega⟩
  · simp only [List.length_append] at hj
    have htext := h.text j (by simp only [List.length_append]; omega)
    rcases Nat.lt_or_ge j t.length with hlt | hge
    · rw [List.getElem_append_left hlt] at htext ⊢
      rw [Raw.put_mem_out o' a _ (by omega), htext]
    rw [List.getElem_append_right hge] at htext ⊢
    rcases Nat.lt_or_ge (j - t.length) a.length with hlt' | hge'
    · rw [List.getElem_append_left hlt', ← Raw.put_mem o' a (j - t.length) hlt']
      congr 1
      omega
    · rw [List.getElem_append_right (by omega)] at htext
      rw [List.getElem_append_right hge', Raw.put_mem_out o' a _ (by omega), htext]
      congr 1
      omega
  · rw [Raw.put_mem_out o' a _ (by omega)]
    exact h.frame j hj
  · have := h.top
    show max o'.top (i + t.length + a.length) ≤ _
    omega

/-- One byte of what was written. -/
theorem Wrote.mem_append {b : β} (h : Wrote o o' i (t ++ b :: u) r) : o'.mem (i + t.length) = b := by
  rw [h.text t.length (by simp)]
  simp

/-- What was written is read back. -/
theorem Wrote.read (h : Wrote o o' i t r) : o'.read i t.length = t := by
  apply List.ext_getElem
  · exact o'.read_length i t.length
  · intro j hj hj'
    rw [Raw.read_getElem, h.text j hj']

/-- A part of what was written. -/
theorem Wrote.read_back (h : Wrote o o' i (t ++ u) r) : o'.read (i + t.length) u.length = u := by
  apply List.ext_getElem
  · exact o'.read_length _ _
  · intro j hj hj'
    have htext := h.text (t.length + j) (by rw [List.length_append]; omega)
    rw [List.getElem_append_right (by omega)] at htext
    rw [Raw.read_getElem, Nat.add_assoc, htext]
    congr 1
    omega

end

end RawBuffer
