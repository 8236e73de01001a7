/-
# Stateful programs that call an operation

A `Prog S σ α` passes a state of `σ` along, calls an operation of the states `S`, and
ends with an `α`, or runs out of fuel. Given the operation it can be executed (`exec`)
and its calls listed (`calls`). `Runs` is the rule system for both: where it starts,
what may be taken for granted of the calls (`H`), what is shown of them (`P`), and what
holds at the end.
-/
import SonicJson.Lib.Calls

namespace Calls

variable {S α β : Type*} {op : S → S}

def bind : Calls S α → (α → Calls S β) → Calls S β
  | ret a, f => f a
  | call s k, f => call s fun s => (k s).bind f

theorem run_bind (f : α → Calls S β) : ∀ c : Calls S α, (c.bind f).run op = (f (c.run op)).run op
  | ret _ => rfl
  | call s k => run_bind f (k (op s))

theorem states_bind (f : α → Calls S β) : ∀ c : Calls S α,
    (c.bind f).states op = c.states op ++ (f (c.run op)).states op
  | ret _ => rfl
  | call s k => by
    simp only [bind, states, run, List.cons_append]
    rw [states_bind f (k (op s))]

/-- As `All`, where `H` may be taken for granted of each call once it is made. -/
def Given (op : S → S) (H P : S → Prop) (Q : α → Prop) : Calls S α → Prop
  | ret a => Q a
  | call s k => P s ∧ (H s → (k (op s)).Given op H P Q)

variable {H P : S → Prop} {Q Q' : α → Prop} {R : β → Prop}

theorem Given.states : ∀ {c : Calls S α}, c.Given op H P Q → (∀ s ∈ c.states op, H s) →
    ∀ s ∈ c.states op, P s
  | ret _, _, _, _, hs => absurd hs List.not_mem_nil
  | call s k, h, hH, x, hs => by
    rcases List.mem_cons.mp hs with rfl | hs
    · exact h.1
    · exact (h.2 (hH s List.mem_cons_self)).states (fun y hy => hH y (List.mem_cons_of_mem _ hy)) x hs

theorem Given.mono (hQ : ∀ a, Q a → Q' a) : ∀ {c : Calls S α}, c.Given op H P Q → c.Given op H P Q'
  | ret _, h => hQ _ h
  | call _ _, h => ⟨h.1, fun hH => (h.2 hH).mono hQ⟩

theorem Given.bind {f : α → Calls S β} (hf : ∀ a, Q a → (f a).Given op H P R) :
    ∀ {c : Calls S α}, c.Given op H P Q → (c.bind f).Given op H P R
  | ret _, h => hf _ h
  | call _ _, h => ⟨h.1, fun hH => (h.2 hH).bind hf⟩

end Calls

/-- A program: from a state to its calls, and to what it ends with unless it runs out of fuel. -/
def Prog (S σ α : Type) : Type := σ → Calls S (Option (α × σ))

namespace Prog

variable {S σ α β : Type}

def ret (a : α) : Prog S σ α := fun s => .ret (some (a, s))

def andThen (x : Prog S σ α) (f : α → Prog S σ β) : Prog S σ β := fun s =>
  (x s).bind fun r =>
    match r with
    | some (a, s) => f a s
    | none => .ret none

instance : Monad (Prog S σ) where
  pure := ret
  bind := andThen

/-- Out of fuel. -/
def out : Prog S σ α := fun _ => .ret none

def get : Prog S σ σ := fun s => .ret (some (s, s))

def modify (f : σ → σ) : Prog S σ Unit := fun s => .ret (some ((), f s))

/-- Calls the operation with what `arg` makes of the state, and goes on with what `res` makes of the
answer. -/
def call (arg : σ → S) (res : S → σ → α × σ) : Prog S σ α :=
  fun s => .call (arg s) fun q => .ret (some (res q s))

/-- Repeats `body` until it answers with a result, at most `fuel` times. -/
def loop (body : β → Prog S σ (β ⊕ α)) : ℕ → β → Prog S σ α
  | 0, _ => out
  | fuel + 1, b => do
    match ← body b with
    | .inl b => loop body fuel b
    | .inr a => pure a

/-! ### Execution -/

variable (op : S → S)

def exec (x : Prog S σ α) (s : σ) : Option (α × σ) := (x s).run op

def calls (x : Prog S σ α) (s : σ) : List S := (x s).states op

variable {op} {s : σ} {x : Prog S σ α} {f : α → Prog S σ β}

@[simp] theorem exec_pure (a : α) : (pure a : Prog S σ α).exec op s = some (a, s) := rfl

@[simp] theorem exec_out : (out : Prog S σ α).exec op s = none := rfl

@[simp] theorem exec_get : (get : Prog S σ σ).exec op s = some (s, s) := rfl

@[simp] theorem exec_modify (g : σ → σ) : (modify g : Prog S σ Unit).exec op s = some ((), g s) := rfl

@[simp] theorem exec_call (arg : σ → S) (res : S → σ → α × σ) :
    (call arg res).exec op s = some (res (op (arg s)) s) := rfl

theorem exec_bind : (x >>= f).exec op s = (x.exec op s).bind fun r => (f r.1).exec op r.2 := by
  show ((x s).bind _).run op = _
  rw [Calls.run_bind]
  unfold exec
  cases (x s).run op <;> rfl

/-- A first part whose end is known. -/
theorem exec_bind_of {a : α} {s' : σ} (h : x.exec op s = some (a, s')) :
    (x >>= f).exec op s = (f a).exec op s' := by
  rw [exec_bind, h, Option.bind_some]

@[simp] theorem exec_ite (c : Prop) [Decidable c] (x y : Prog S σ α) :
    (if c then x else y).exec op s = if c then x.exec op s else y.exec op s := by
  split <;> rfl

theorem exec_loop {body : β → Prog S σ (β ⊕ α)} {fuel : ℕ} {b : β} :
    (loop body (fuel + 1) b).exec op s = ((body b).exec op s).bind fun r =>
      match r.1 with
      | .inl b => (loop body fuel b).exec op r.2
      | .inr a => some (a, r.2) := by
  rw [loop, exec_bind]
  congr 1
  funext r
  obtain ⟨b | a, s⟩ := r <;> rfl

theorem exec_loop_inl {body : β → Prog S σ (β ⊕ α)} {fuel : ℕ} {b b' : β} {s' : σ}
    (h : (body b).exec op s = some (.inl b', s')) :
    (loop body (fuel + 1) b).exec op s = (loop body fuel b').exec op s' := by
  rw [exec_loop, h, Option.bind_some]

theorem exec_loop_inr {body : β → Prog S σ (β ⊕ α)} {fuel : ℕ} {b : β} {a : α} {s' : σ}
    (h : (body b).exec op s = some (.inr a, s')) :
    (loop body (fuel + 1) b).exec op s = some (a, s') := by
  rw [exec_loop, h, Option.bind_some]

/-! ### Rules -/

/-- From `s` on each call is made where `P` holds, and `Q` holds at the end, as long as `H` holds of
the calls. -/
def Runs (op : S → S) (H P : S → Prop) (x : Prog S σ α) (s : σ) (Q : α → σ → Prop) : Prop :=
  (x s).Given op H P fun r => ∀ a s', r = some (a, s') → Q a s'

variable {H P : S → Prop} {Q Q' : α → σ → Prop} {R : β → σ → Prop}

theorem Runs.calls (h : Runs op H P x s Q) (hH : ∀ q ∈ x.calls op s, H q) : ∀ q ∈ x.calls op s, P q :=
  Calls.Given.states h hH

theorem Runs.mono (h : Runs op H P x s Q) (hQ : ∀ a s', Q a s' → Q' a s') : Runs op H P x s Q' :=
  Calls.Given.mono (fun _ hr a s' e => hQ a s' (hr a s' e)) h

theorem Runs.pure {a : α} (h : Q a s) : Runs op H P (Pure.pure a) s Q := by
  intro a' s' e
  obtain ⟨rfl, rfl⟩ := Prod.mk.inj (Option.some.inj e)
  exact h

theorem Runs.out : Runs op H P (Prog.out : Prog S σ α) s Q := fun _ _ e => nomatch e

theorem Runs.get {Q : σ → σ → Prop} (h : Q s s) : Runs op H P (Prog.get : Prog S σ σ) s Q := by
  intro a' s' e
  obtain ⟨rfl, rfl⟩ := Prod.mk.inj (Option.some.inj e)
  exact h

theorem Runs.modify {g : σ → σ} {Q : Unit → σ → Prop} (h : Q () (g s)) :
    Runs op H P (Prog.modify g : Prog S σ Unit) s Q := by
  intro a' s' e
  obtain ⟨rfl, rfl⟩ := Prod.mk.inj (Option.some.inj e)
  exact h

theorem Runs.call {arg : σ → S} {res : S → σ → α × σ} (hP : P (arg s))
    (h : H (arg s) → Q (res (op (arg s)) s).1 (res (op (arg s)) s).2) :
    Runs op H P (Prog.call arg res) s Q := by
  refine ⟨hP, fun hH a' s' e => ?_⟩
  have := h hH
  rw [Option.some.inj e] at this
  exact this

theorem Runs.bind (h : Runs op H P x s Q) (hf : ∀ a s', Q a s' → Runs op H P (f a) s' R) :
    Runs op H P (x >>= f) s R := by
  refine Calls.Given.bind (fun r hr => ?_) h
  cases r with
  | none => exact fun _ _ e => nomatch e
  | some r => exact hf r.1 r.2 (hr r.1 r.2 rfl)

theorem Runs.ite {c : Prop} [Decidable c] {y : Prog S σ α} (ht : c → Runs op H P x s Q)
    (hf : ¬ c → Runs op H P y s Q) :
    Runs op H P (if c then x else y) s Q := by
  split
  · exact ht ‹_›
  · exact hf ‹_›

/-- A loop, by an invariant. -/
theorem Runs.loop {body : β → Prog S σ (β ⊕ α)} {I : β → σ → Prop}
    (hb : ∀ b s, I b s → Runs op H P (body b) s fun r s' => r.elim (I · s') (Q · s')) : ∀ (fuel : ℕ)
    {b : β} {s : σ}, I b s → Runs op H P (Prog.loop body fuel b) s Q
  | 0, _, _, _ => .out
  | fuel + 1, b, s, h => by
    refine (hb b s h).bind fun r s' hr => ?_
    cases r with
    | inl b' => exact Runs.loop hb fuel hr
    | inr a => exact .pure hr

end Prog
