/-
# A position in a list and what is left from it

A scanner reads a buffer by index; a grammar reads a text by its suffixes.
`At data p t` says that `t` is what is left of `data` at index `p`, and its
lemmas move both sides together. `store` overwrites part of a buffer in place.
-/
import Mathlib.Data.List.GetD
import Mathlib.Data.List.TakeWhile
import Mathlib.Tactic

namespace Cursor

variable {α : Type*} {data s t a : List α} {p q : ℕ} {b : α}

/-- `t` is what is left of `data` at index `p`. -/
structure At (data : List α) (p : ℕ) (t : List α) : Prop where
  drop : data.drop p = t
  le : p ≤ data.length

theorem at_zero (data : List α) : At data 0 data := ⟨rfl, Nat.zero_le _⟩

theorem at_drop (h : p ≤ data.length) : At data p (data.drop p) := ⟨rfl, h⟩

namespace At

theorem length_add (h : At data p t) : p + t.length = data.length := by
  rw [← h.drop, List.length_drop]
  have := h.le
  omega

theorem lt (h : At data p (b :: t)) : p < data.length := by
  have := h.length_add
  simp at this
  omega

theorem getD (h : At data p (b :: t)) (d : α) : data.getD p d = b := by
  have h1 : data[p]? = some b := by
    rw [← List.head?_drop, h.drop]
    rfl
  rw [List.getD_eq_getElem?_getD, h1]
  rfl

theorem append (h : At data p (a ++ t)) : At data (p + a.length) t := by
  refine ⟨?_, ?_⟩
  · rw [← List.drop_drop, h.drop, List.drop_left]
  · have := h.length_add
    simp at this
    omega

theorem succ (h : At data p (b :: t)) : At data (p + 1) t := append (a := [b]) h

theorem getD_add (h : At data p t) (d : α) (k : ℕ) : data.getD (p + k) d = t.getD k d := by
  rw [← h.drop, List.getD_eq_getElem?_getD, List.getD_eq_getElem?_getD, List.getElem?_drop]

theorem drop_at (h : At data p t) {k : ℕ} (hk : k ≤ t.length) : At data (p + k) (t.drop k) := by
  refine ⟨by rw [← h.drop, List.drop_drop], ?_⟩
  have := h.length_add
  omega

/-- What is left of a text that ends where `data` does. -/
theorem suffix (h : At data p s) (hs : t <:+ s) : At data (data.length - t.length) t := by
  obtain ⟨a, rfl⟩ := hs
  have h1 := h.length_add
  have h2 : data.length - t.length = p + a.length := by
    simp at h1
    omega
  rw [h2]
  exact h.append

theorem pos_eq (h : At data p t) : p = data.length - t.length := by
  have := h.length_add
  omega

theorem unique (h : At data p t) (h' : At data q t) : p = q := by rw [h.pos_eq, h'.pos_eq]

/-- A longer list with the same beginning: what is left grows by the same end. -/
theorem append_right (h : At data p t) (r : List α) : At (data ++ r) p (t ++ r) := by
  refine ⟨?_, ?_⟩
  · rw [List.drop_append_of_le_length h.le, h.drop]
  · have := h.le
    simp
    omega

end At

theorem at_append (a t : List α) : At (a ++ t) a.length t := by
  have := (at_zero (a ++ t)).append
  simpa using this

/-- An index where `p` fails, with `p` everywhere between: that is where `dropWhile p` stops. -/
theorem At.dropWhile {data t : List α} {i j : ℕ} {d : α} (h : At data i t) {p : α → Bool} (hij : i ≤ j)
    (hj : j < data.length) (hp : ∀ k, i ≤ k → k < j → p (data.getD k d) = true)
    (hn : p (data.getD j d) = false) :
    t.dropWhile p = data.getD j d :: data.drop (j + 1) := by
  obtain ⟨n, rfl⟩ := Nat.exists_eq_add_of_le hij
  induction n generalizing i t with
  | zero =>
    have hd : data.drop i = data.getD i d :: data.drop (i + 1) := by
      rw [List.drop_eq_getElem_cons (by omega), List.getD_eq_getElem _ _ (by omega)]
    rw [← h.drop, hd, List.dropWhile_cons, if_neg (by simpa using hn)]
    rfl
  | succ n ih =>
    have hd : data.drop i = data.getD i d :: data.drop (i + 1) := by
      rw [List.drop_eq_getElem_cons (by omega), List.getD_eq_getElem _ _ (by omega)]
    have ht : t = data.getD i d :: data.drop (i + 1) := by rw [← h.drop, hd]
    have hi : p (data.getD i d) = true := hp i le_rfl (by omega)
    rw [ht, List.dropWhile_cons, if_pos hi]
    have h' : At data (i + 1) (data.drop (i + 1)) := at_drop (by omega)
    have he : i + (n + 1) = i + 1 + n := by omega
    rw [he] at hj hn hp ⊢
    exact ih h' (by omega) hj (fun k hk => hp k (by omega)) hn

/-- With `p` everywhere to the end nothing is left. -/
theorem At.dropWhile_nil {data t : List α} {i : ℕ} {d : α} (h : At data i t) {p : α → Bool}
    (hp : ∀ k, i ≤ k → k < data.length → p (data.getD k d) = true) : t.dropWhile p = [] := by
  rw [List.dropWhile_eq_nil_iff]
  intro x hx
  obtain ⟨k, hk, rfl⟩ := List.getElem_of_mem hx
  have hl := h.length_add
  have := hp (i + k) (by omega) (by omega)
  rwa [h.getD_add, List.getD_eq_getElem _ _ hk] at this

/-! ### Writing in place -/

/-- `buf` with `bs` written from index `i` on. -/
def store (buf : List α) (i : ℕ) (bs : List α) : List α := buf.take i ++ bs ++ buf.drop (i + bs.length)

/-- A write of `bs` after `pre` reaches as far into what follows as `bs` is long. -/
theorem store_append (pre bs r : List α) :
    store (pre ++ r) pre.length bs = pre ++ (bs ++ r.drop bs.length) := by
  simp [store, List.append_assoc]

/-- In `pre ++ out ++ junk ++ used ++ r`, a write right after `out`, no longer than what separates it
from `r`. -/
theorem store_mid (pre out junk used r bs : List α) (h : bs.length ≤ junk.length + used.length) :
    store (pre ++ (out ++ (junk ++ (used ++ r)))) (pre.length + out.length) bs =
      pre ++ ((out ++ bs) ++ ((junk ++ used).drop bs.length ++ r)) := by
  have h1 := store_append (pre ++ out) bs ((junk ++ used) ++ r)
  rw [List.drop_append_of_le_length (by simpa using h)] at h1
  simpa [List.append_assoc] using h1

theorem store_length {buf bs : List α} {i : ℕ} (h : i + bs.length ≤ buf.length) :
    (store buf i bs).length = buf.length := by
  simp [store]
  omega

theorem store_drop {buf bs : List α} {i k : ℕ} (h : i + bs.length ≤ buf.length)
    (hk : i + bs.length ≤ k) :
    (store buf i bs).drop k = buf.drop k := by
  have h1 : (buf.take i ++ bs).length = i + bs.length := by
    simp
    omega
  rw [store, List.drop_append, h1, List.drop_drop, List.drop_eq_nil_of_le (by omega)]
  simp only [List.nil_append]
  congr 1
  omega

end Cursor
