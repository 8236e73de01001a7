/-
# Computations that call an operation

A computation in `Calls S α` ends with an `α`, or calls an operation in a state of `S`
and goes on with the state after it. Given the operation it can be run (`run`), the
states in which it calls can be listed (`states`), and an invariant of those states and
the end is shown from the inside (`All`). Two computations that call in related states,
and go on alike when the operation keeps them related, come to related ends (`Rel`).
-/
import Mathlib.Tactic

inductive Calls (S α : Type*)
  | ret (a : α)
  | call (s : S) (k : S → Calls S α)

namespace Calls

variable {S α : Type*} (op : S → S)

def run : Calls S α → α
  | ret a => a
  | call s k => (k (op s)).run

/-- The states in which the operation is called. -/
def states : Calls S α → List S
  | ret _ => []
  | call s k => s :: (k (op s)).states

/-- The operation is called where `P` holds, and `Q` holds of the end. -/
def All (P : S → Prop) (Q : α → Prop) : Calls S α → Prop
  | ret a => Q a
  | call s k => P s ∧ (k (op s)).All P Q

/-- The two call in states related by `R`, and go on so as long as the operation keeps them related,
to ends related by `T`. -/
def Rel (R : S → S → Prop) (T : α → α → Prop) : Calls S α → Calls S α → Prop
  | ret a, ret b => T a b
  | call s k, call t l => R s t ∧ (R (op s) (op t) → (k (op s)).Rel R T (l (op t)))
  | _, _ => False

variable {op} {P : S → Prop} {Q : α → Prop} {R : S → S → Prop} {T : α → α → Prop}

theorem All.states : ∀ {c : Calls S α}, c.All op P Q → ∀ s ∈ c.states op, P s
  | ret _, _, _, hs => absurd hs List.not_mem_nil
  | call s k, h, x, hs => by
    rcases List.mem_cons.mp hs with rfl | hs
    · exact h.1
    · exact h.2.states x hs

theorem All.run : ∀ {c : Calls S α}, c.All op P Q → Q (c.run op)
  | ret _, h => h
  | call _ _, h => h.2.run

theorem Rel.run : ∀ {c d : Calls S α}, c.Rel op R T d →
    (∀ s ∈ c.states op, ∀ t ∈ d.states op, R s t → R (op s) (op t)) → T (c.run op) (d.run op)
  | ret _, ret _, h, _ => h
  | call s k, call t l, h, hop => by
    have hst := hop s List.mem_cons_self t List.mem_cons_self h.1
    exact (h.2 hst).run fun s' hs t' ht =>
      hop s' (List.mem_cons_of_mem _ hs) t' (List.mem_cons_of_mem _ ht)

end Calls
