/-
Transition systems: where a system may start, what its actions may do, and what
holds in every state it can reach.

An action is a label here and a step is a relation, so a system may be
nondeterministic, and several parties acting on one state are one system whose
actions say who moves.
-/
import Mathlib.Tactic.Common

set_option autoImplicit false

namespace Transition

open List Option

/-- Where a system starts and what its actions do. -/
structure System (σ α : Type*) where
  init : σ → Prop
  step : σ → α → σ → Prop

variable {σ α : Type*}

/-- The states a system can get to. -/
inductive Reachable (sys : System σ α) : σ → Prop
  | start {s : σ} (h : sys.init s) : Reachable sys s
  | next {s s' : σ} {a : α} (h : Reachable sys s) (hstep : sys.step s a s') : Reachable sys s'

/-- The system confined to steps that meet a condition on the state they start in. -/
def System.when (sys : System σ α) (C : σ → α → Prop) : System σ α :=
  { sys with step := fun s a s' => C s a ∧ sys.step s a s' }

section
variable {sys : System σ α} {s : σ}

/-- What holds at the start and is kept by every step holds in every state reached. -/
theorem Reachable.invariant {P : σ → Prop} (hinit : ∀ s, sys.init s → P s)
    (hstep : ∀ s a s', P s → sys.step s a s' → P s') (h : Reachable sys s) : P s := by
  induction h with
  | start h0 => exact hinit _ h0
  | next _ hs ih => exact hstep _ _ _ ih hs

/-- Where the actions of a list are a step function's, the list leads to a state reached. -/
theorem Reachable.run {step : σ → α → Option σ}
    (hstep : ∀ s a s', step s a = some s' → sys.step s a s') {actions : List α} {s' : σ}
    (h : Reachable sys s) (hrun : actions.foldlM step s = some s') : Reachable sys s' := by
  induction actions generalizing s with
  | nil =>
    cases hrun
    exact h
  | cons a actions ih =>
    rw [foldlM_cons, bind_eq_bind, bind_eq_some_iff] at hrun
    obtain ⟨middle, hmiddle, hrest⟩ := hrun
    exact ih (h.next (hstep _ _ _ hmiddle)) hrest

/-- And so it does in the confined system, where they meet the condition in any state. -/
theorem Reachable.run_when {step : σ → α → Option σ} {C : σ → α → Prop}
    (hstep : ∀ s a s', step s a = some s' → sys.step s a s') {actions : List α} {s' : σ}
    (h : Reachable (sys.when C) s) (hC : ∀ a ∈ actions, ∀ s, C s a)
    (hrun : actions.foldlM step s = some s') : Reachable (sys.when C) s' := by
  induction actions generalizing s with
  | nil =>
    cases hrun
    exact h
  | cons a actions ih =>
    rw [foldlM_cons, bind_eq_bind, bind_eq_some_iff] at hrun
    obtain ⟨middle, hmiddle, hrest⟩ := hrun
    exact ih (h.next ⟨hC a mem_cons_self s, hstep _ _ _ hmiddle⟩)
      (fun a' ha' => hC a' (mem_cons_of_mem a ha')) hrest

end

end Transition
