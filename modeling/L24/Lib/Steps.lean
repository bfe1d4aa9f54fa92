import Mathlib.Logic.Basic

/-! Runs of a partial step function, and how a machine simulates a computation that may run out of fuel.

    A computation with a result is simulated by reaching a configuration that shows it, and one that runs
    out of `n` units of fuel by making `n` steps. So a computation that runs out of every fuel is simulated
    by a run without end. About a computation that goes wrong nothing is said. -/

namespace Steps

variable {C : Type} (step : C → Option C)

/-- `n` steps. -/
def runs : Nat → C → Option C
  | 0, c => some c
  | n + 1, c => (step c).bind (runs n)

/-- Some number of steps leads from the one to the other. -/
def Reaches (c d : C) : Prop := ∃ n, runs step n c = some d

/-- `n` steps can be made. -/
def Lasts (n : Nat) (c : C) : Prop := ∃ d, runs step n c = some d

/-- Why a computation has no result. -/
inductive Fault
  | timeout
  | wrong
  deriving DecidableEq, Repr

/-- The result of a computation with fuel. -/
abbrev Res (α : Type) := Except Fault α

/-- The machine, started in `c`, simulates a computation with the result `r`: it gets to a configuration that
    shows the value as `Q` says, or makes `n` steps. -/
def Sim {α : Type} (n : Nat) (c : C) (r : Res α) (Q : α → C → Prop) : Prop :=
  match r with
  | .ok a => ∃ d, Reaches step c d ∧ Q a d
  | .error .timeout => Lasts step n c
  | .error .wrong => True

variable {step} {c d e : C} {m n : Nat}

theorem runs_add : ∀ {m : Nat} {c : C}, runs step (m + n) c = (runs step m c).bind (runs step n)
  | 0, c => by simp [runs]
  | m + 1, c => by
    rw [Nat.succ_add, runs, runs, Option.bind_assoc]
    congr 1
    funext d
    exact runs_add

/-! ### Reaching -/

theorem Reaches.refl (c : C) : Reaches step c c := ⟨0, rfl⟩

theorem Reaches.trans (h₁ : Reaches step c d) (h₂ : Reaches step d e) : Reaches step c e := by
  obtain ⟨m, hm⟩ := h₁
  obtain ⟨n, hn⟩ := h₂
  exact ⟨m + n, by rw [runs_add, hm, Option.bind_some, hn]⟩

theorem Reaches.single (h : step c = some d) : Reaches step c d := ⟨1, by simp [runs, h]⟩

theorem Reaches.head (h₁ : step c = some d) (h₂ : Reaches step d e) : Reaches step c e := (Reaches.single h₁).trans h₂

theorem Lasts.of_le (h : Lasts step n c) (hm : m ≤ n) : Lasts step m c := by
  obtain ⟨d, hd⟩ := h
  obtain ⟨k, rfl⟩ := Nat.exists_eq_add_of_le hm
  rw [runs_add] at hd
  obtain ⟨e, he, -⟩ := Option.bind_eq_some_iff.mp hd
  exact ⟨e, he⟩

theorem Lasts.of_reaches (h₁ : Reaches step c d) (h₂ : Lasts step n d) : Lasts step n c := by
  obtain ⟨m, hm⟩ := h₁
  obtain ⟨e, he⟩ := h₂
  have h : Lasts step (m + n) c := ⟨e, by rw [runs_add, hm, Option.bind_some, he]⟩
  exact h.of_le (Nat.le_add_left _ _)

theorem Lasts.succ (h₁ : step c = some d) (h₂ : Lasts step n d) : Lasts step (n + 1) c := by
  obtain ⟨e, he⟩ := h₂
  exact ⟨e, by rw [runs, h₁, Option.bind_some, he]⟩

/-- Where every step lowers a measure, it bounds the length of a run. -/
theorem Lasts.le_measure {ok : C → Prop} {measure : C → Nat}
    (hstep : ∀ c d, ok c → step c = some d → ok d ∧ measure d < measure c) (hc : ok c) (h : Lasts step n c) :
    n ≤ measure c := by
  induction n generalizing c with
  | zero => exact Nat.zero_le _
  | succ n ih =>
    obtain ⟨e, he⟩ := h
    obtain ⟨d, hd, he⟩ := Option.bind_eq_some_iff.mp he
    obtain ⟨hok, hlt⟩ := hstep c d hc hd
    exact Nat.lt_of_le_of_lt (ih hok ⟨e, he⟩) hlt

/-! ### Simulation -/

section Sim
variable {α β : Type} {r : Res α} {Q R : α → C → Prop}

theorem Sim.pure {a : α} (h : Q a c) : Sim step n c (.ok a) Q := ⟨c, .refl c, h⟩

theorem Sim.reaches (h₁ : Reaches step c d) (h₂ : Sim step n d r Q) : Sim step n c r Q := by
  cases r with
  | ok a =>
    obtain ⟨e, he, hq⟩ := h₂
    exact ⟨e, h₁.trans he, hq⟩
  | error f =>
    cases f with
    | timeout => exact Lasts.of_reaches h₁ h₂
    | wrong => trivial

theorem Sim.head (h₁ : step c = some d) (h₂ : Sim step n d r Q) : Sim step n c r Q :=
  h₂.reaches (.single h₁)

/-- A step pays for a unit of fuel. -/
theorem Sim.succ (h₁ : step c = some d) (h₂ : Sim step n d r Q) : Sim step (n + 1) c r Q := by
  cases r with
  | ok a => exact Sim.head h₁ h₂
  | error f =>
    cases f with
    | timeout => exact Lasts.succ h₁ h₂
    | wrong => trivial

theorem Sim.imp (h : Sim step n c r Q) (hq : ∀ a d, Q a d → R a d) : Sim step n c r R := by
  cases r with
  | ok a =>
    obtain ⟨d, hd, h⟩ := h
    exact ⟨d, hd, hq a d h⟩
  | error f => cases f <;> exact h

/-- The machine may go on where the computation has its result. -/
theorem Sim.extend (h : Sim step n c r Q) (hq : ∀ a d, Q a d → ∃ e, Reaches step d e ∧ R a e) : Sim step n c r R := by
  cases r with
  | ok a =>
    obtain ⟨d, hd, h⟩ := h
    obtain ⟨e, he, h⟩ := hq a d h
    exact ⟨e, hd.trans he, h⟩
  | error f => cases f <;> exact h

theorem Sim.of_le (h : Sim step n c r Q) (hm : m ≤ n) : Sim step m c r Q := by
  cases r with
  | ok a => exact h
  | error f =>
    cases f with
    | timeout => exact Lasts.of_le h hm
    | wrong => trivial

/-- Simulations in sequence. -/
theorem Sim.bind {f : α → Res β} {S : β → C → Prop} (h : Sim step n c r Q)
    (hf : ∀ a d, Q a d → Sim step n d (f a) S) : Sim step n c (r >>= f) S := by
  cases r with
  | ok a =>
    obtain ⟨d, hd, hq⟩ := h
    exact (hf a d hq).reaches hd
  | error f => cases f <;> exact h

end Sim

end Steps
