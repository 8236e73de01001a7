/-
# Deterministic machines

A machine is a partial step function: `none` where it has halted. `run` gives it
fuel, `Steps n a b` says that it goes from `a` to `b` in `n` steps. A run from a
state that is on the way to a halted one passes every state in between, and a
measure that decreases bounds the fuel that is needed. Two machines whose states stay related halt
together.
-/
import Mathlib.Tactic

namespace Machine

variable {α : Type*} (step : α → Option α)

/-- The halted state that `fuel` steps are enough to reach. -/
def run : ℕ → α → Option α
  | 0, _ => none
  | fuel + 1, a =>
    match step a with
    | none => some a
    | some b => run fuel b

inductive Steps : ℕ → α → α → Prop
  | refl (a : α) : Steps 0 a a
  | head {n : ℕ} {a b c : α} : step a = some b → Steps n b c → Steps (n + 1) a c

variable {step}

theorem Steps.one {a b : α} (h : step a = some b) : Steps step 1 a b := .head h (.refl b)

theorem Steps.trans {m n : ℕ} {a b c : α} (h : Steps step m a b) (h' : Steps step n b c) :
    Steps step (m + n) a c := by
  induction h with
  | refl => simpa using h'
  | @head k _ _ _ hs _ ih =>
    rw [Nat.add_right_comm]
    exact .head hs (ih h')

/-- A run to a halted state passes every state the machine comes to. -/
theorem Steps.split {m n : ℕ} {a b c : α} (h : Steps step m a b) (h' : Steps step n a c)
    (hc : step c = none) :
    ∃ k, n = m + k ∧ Steps step k b c := by
  induction h generalizing n with
  | refl => exact ⟨n, by simp, h'⟩
  | head hs _ ih =>
    cases h' with
    | refl => rw [hc] at hs; simp at hs
    | head hs' h' =>
      rw [hs] at hs'
      obtain rfl := Option.some.inj hs'
      obtain ⟨k, rfl, hk⟩ := ih h'
      exact ⟨k, by omega, hk⟩

/-- The first step of a run that halts elsewhere. -/
theorem Steps.first {n : ℕ} {a b c : α} (h : Steps step n a c) (hc : step c = none)
    (hs : step a = some b) :
    ∃ k, n = k + 1 ∧ Steps step k b c := by
  obtain ⟨k, rfl, hk⟩ := (Steps.one hs).split h hc
  exact ⟨k, by omega, hk⟩

theorem Steps.halted {n : ℕ} {a c : α} (h : Steps step n a c) (ha : step a = none) : n = 0 ∧ a = c := by
  cases h with
  | refl => exact ⟨rfl, rfl⟩
  | head hs _ => rw [ha] at hs; simp at hs

theorem run_of_steps {n fuel : ℕ} {a b : α} (h : Steps step n a b) (hb : step b = none)
    (hf : n < fuel) :
    run step fuel a = some b := by
  induction h generalizing fuel with
  | refl =>
    obtain ⟨f, rfl⟩ : ∃ f, fuel = f + 1 := ⟨fuel - 1, by omega⟩
    rw [run, hb]
  | head hs _ ih =>
    obtain ⟨f, rfl⟩ : ∃ f, fuel = f + 1 := ⟨fuel - 1, by omega⟩
    rw [run, hs]
    exact ih hb (by omega)

theorem steps_of_run : ∀ {fuel : ℕ} {a b : α}, run step fuel a = some b →
    ∃ n, Steps step n a b ∧ step b = none
  | 0, _, _, h => by simp [run] at h
  | fuel + 1, a, b, h => by
    rw [run] at h
    split at h
    · rename_i hs
      obtain rfl := Option.some.inj h
      exact ⟨0, .refl a, hs⟩
    · rename_i c hs
      obtain ⟨n, hn, hb⟩ := steps_of_run h
      exact ⟨n + 1, .head hs hn, hb⟩

/-- More fuel than a decreasing measure is enough; `inv` is an invariant of the run. -/
theorem run_isSome {inv : α → Prop} {μ : α → ℕ} (hinv : ∀ a b, inv a → step a = some b → inv b)
    (hμ : ∀ a b, inv a → step a = some b → μ b < μ a) : ∀ {fuel : ℕ} {a : α}, inv a → μ a < fuel →
    (run step fuel a).isSome = true
  | 0, _, _, h => by omega
  | fuel + 1, a, ha, h => by
    rw [run]
    split
    · rfl
    · rename_i b hs
      have := hμ a b ha hs
      exact run_isSome hinv hμ (hinv a b ha hs) (by omega)

/-- What every step keeps holds at the end of a run. -/
theorem Steps.invariant {P : α → Prop} (hinv : ∀ a b, P a → step a = some b → P b) {n : ℕ} {a b : α}
    (h : Steps step n a b) (ha : P a) : P b := by
  induction h with
  | refl => exact ha
  | head hs _ ih => exact ih (hinv _ _ ha hs)

/-- What every step from a good state keeps holds at the end of a run through good states. -/
theorem Steps.invariant_of {inv good : α → Prop}
    (hinv : ∀ a b, inv a → good a → step a = some b → inv b) {n : ℕ} {a b : α}
    (h : Steps step n a b) (hgood : ∀ k c, Steps step k a c → good c) (ha : inv a) : inv b := by
  induction h with
  | refl => exact ha
  | @head k a b c hs _ ih =>
    exact ih (fun k c hc => hgood (k + 1) c (.head hs hc)) (hinv a b ha (hgood 0 a (.refl a)) hs)

/-- The states of a run, as far as the fuel lasts. -/
def trace (step : α → Option α) : ℕ → α → List α
  | 0, _ => []
  | fuel + 1, a =>
    a :: match step a with
      | none => []
      | some b => trace step fuel b

/-- With the fuel of a run that halts, the trace has all the states that are reached. -/
theorem Steps.mem_trace {n fuel : ℕ} {a b : α} (h : Steps step n a b)
    (hr : (run step fuel a).isSome = true) :
    b ∈ trace step fuel a := by
  induction h generalizing fuel with
  | refl a =>
    cases fuel with
    | zero => exact absurd hr (by simp [run])
    | succ fuel => exact List.mem_cons_self
  | head hs _ ih =>
    cases fuel with
    | zero => exact absurd hr (by simp [run])
    | succ fuel =>
      rw [run, hs] at hr
      rw [trace, hs]
      exact List.mem_cons_of_mem _ (ih hr)

/-- What two machines keep in lockstep holds where they halt. -/
theorem run_lockstep {β : Type*} {step' : β → Option β} {R : α → β → Prop}
    (hR : ∀ a b, R a b → (step a = none ∧ step' b = none) ∨ ∃ a' b', step a = some a' ∧
    step' b = some b' ∧ R a' b') :
    ∀ (fuel : ℕ) {a : α} {b : β}, R a b → (run step fuel a = none ∧ run step' fuel b = none) ∨
      ∃ c d, run step fuel a = some c ∧ run step' fuel b = some d ∧ step c = none ∧ R c d
  | 0, _, _, _ => .inl ⟨rfl, rfl⟩
  | fuel + 1, a, b, h => by
    rw [run, run]
    rcases hR a b h with ⟨h1, h2⟩ | ⟨a', b', h1, h2, h3⟩
    · rw [h1, h2]
      exact .inr ⟨a, b, rfl, rfl, h1, h⟩
    · rw [h1, h2]
      exact run_lockstep hR fuel h3

end Machine
