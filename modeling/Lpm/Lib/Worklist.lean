/-
Searching a graph with a stack of what is still to be followed and the set of what was
found: the loop that pops one, takes those of its successors that are new, and pushes them.

The loop gets fuel. Every pass pops one and a push is a find, so the stack and what is not
found yet bound the passes: with that much fuel the search is closed under successors.
-/
import Mathlib.Data.List.Basic

set_option autoImplicit false

namespace Worklist

open List

variable {α : Type*} [DecidableEq α]

/-- The successors that are new go on the stack and among the found. -/
def push_new (stack seen found : List α) : List α × List α :=
  found.foldl (fun w c => if c ∈ w.2 then w else (c :: w.1, c :: w.2)) (stack, seen)

/-- The loop, with the stack's top at the head. -/
def search (next : α → List α) : ℕ → List α → List α → List α
  | 0, _, seen => seen
  | _ + 1, [], seen => seen
  | fuel + 1, x :: stack, seen =>
    search next fuel (push_new stack seen (next x)).1 (push_new stack seen (next x)).2

/-! ## One pass -/

theorem push_new_cons (stack seen : List α) (c : α) (found : List α) :
    push_new stack seen (c :: found)
      = if c ∈ seen then push_new stack seen found
        else push_new (c :: stack) (c :: seen) found := by
  by_cases hc : c ∈ seen
  · simp only [push_new, foldl_cons, if_pos hc]
  · simp only [push_new, foldl_cons, if_neg hc]

theorem mem_push_new_seen (found : List α) : ∀ (stack seen : List α) (y : α),
    y ∈ (push_new stack seen found).2 ↔ y ∈ seen ∨ y ∈ found := by
  induction found with
  | nil =>
      intro stack seen y
      simp [push_new]
  | cons c found ih =>
      intro stack seen y
      rw [push_new_cons]
      by_cases hc : c ∈ seen
      · rw [if_pos hc, ih]
        have hy : y = c → y ∈ seen := fun h => h ▸ hc
        simp only [mem_cons]
        tauto
      · rw [if_neg hc, ih]
        simp only [mem_cons]
        tauto

theorem mem_push_new_stack (found : List α) : ∀ (stack seen : List α) (y : α),
    y ∈ (push_new stack seen found).1 ↔ y ∈ stack ∨ (y ∈ found ∧ y ∉ seen) := by
  induction found with
  | nil =>
      intro stack seen y
      simp [push_new]
  | cons c found ih =>
      intro stack seen y
      rw [push_new_cons]
      by_cases hc : c ∈ seen
      · rw [if_pos hc, ih]
        have hy : y = c → y ∈ seen := fun h => h ▸ hc
        simp only [mem_cons]
        tauto
      · rw [if_neg hc, ih]
        have hy : y = c → y ∉ seen := fun h => h ▸ hc
        simp only [mem_cons]
        tauto

/-! ## What is not found yet -/

variable (all seen : List α)

/-- How much of `all` is not found yet. -/
def unseen : ℕ := (all.filter (fun y => decide (y ∉ seen))).length

theorem unseen_le : unseen all seen ≤ all.length :=
  length_filter_le _ _

theorem unseen_cons_lt (c : α) (hall : c ∈ all) (hc : c ∉ seen) :
    unseen all (c :: seen) < unseen all seen := by
  have hsub : all.filter (fun y => decide (y ∉ c :: seen))
      = (all.filter (fun y => decide (y ∉ seen))).filter (fun y => decide (y ≠ c)) := by
    rw [List.filter_filter]
    refine filter_congr (fun y _ => ?_)
    simp [mem_cons, not_or]
  rw [unseen, hsub]
  refine length_filter_lt_length_iff_exists.mpr ⟨c, ?_, by simp⟩
  exact mem_filter.mpr ⟨hall, by simpa using hc⟩

/-- A push is a find. -/
theorem push_new_length (all : List α) (found : List α) : ∀ (stack seen : List α),
    (∀ y ∈ found, y ∈ all) →
    (push_new stack seen found).1.length + unseen all (push_new stack seen found).2
      ≤ stack.length + unseen all seen := by
  induction found with
  | nil =>
      intro stack seen _
      exact Nat.le_refl _
  | cons c found ih =>
      intro stack seen hall
      have hrest : ∀ y ∈ found, y ∈ all := fun y hy => hall y (mem_cons_of_mem _ hy)
      rw [push_new_cons]
      by_cases hc : c ∈ seen
      · rw [if_pos hc]
        exact ih stack seen hrest
      · rw [if_neg hc]
        have h1 := ih (c :: stack) (c :: seen) hrest
        have h2 := unseen_cons_lt all seen c (hall c mem_cons_self) hc
        rw [length_cons] at h1
        omega

/-! ## The search -/

variable {next : α → List α}

/-- What holds of the stack and the found and passes to successors holds of what is found. -/
theorem search_of_closed {P : α → Prop}
    (hnext : ∀ x, P x → ∀ y ∈ next x, P y) (fuel : ℕ) : ∀ (stack seen : List α),
    (∀ x ∈ stack, P x) → (∀ x ∈ seen, P x) → ∀ x ∈ search next fuel stack seen, P x := by
  induction fuel with
  | zero =>
      intro stack seen _ hseen
      exact hseen
  | succ fuel ih =>
      intro stack seen hstack hseen
      cases stack with
      | nil => exact hseen
      | cons x stack =>
          have hx : ∀ y ∈ next x, P y := hnext x (hstack x mem_cons_self)
          refine ih _ _ (fun y hy => ?_) (fun y hy => ?_)
          · rcases (mem_push_new_stack _ _ _ _).mp hy with h | h
            · exact hstack y (mem_cons_of_mem _ h)
            · exact hx y h.1
          · rcases (mem_push_new_seen _ _ _ _).mp hy with h | h
            · exact hseen y h
            · exact hx y h

theorem mem_search_of_seen (fuel : ℕ) : ∀ (stack seen : List α) (x : α),
    x ∈ seen → x ∈ search next fuel stack seen := by
  induction fuel with
  | zero =>
      intro stack seen x hx
      exact hx
  | succ fuel ih =>
      intro stack seen x hx
      cases stack with
      | nil => exact hx
      | cons y stack => exact ih _ _ x ((mem_push_new_seen _ _ _ _).mpr (.inl hx))

/-- With fuel for the stack and for what is not found yet, the successors of what was on the
stack and of what is newly found are found. -/
theorem search_closed {all : List α} (hall : ∀ x, ∀ y ∈ next x, y ∈ all)
    (fuel : ℕ) : ∀ (stack seen : List α), stack.length + unseen all seen ≤ fuel →
    ∀ x, (x ∈ stack ∨ (x ∈ search next fuel stack seen ∧ x ∉ seen)) →
      ∀ y ∈ next x, y ∈ search next fuel stack seen := by
  induction fuel with
  | zero =>
      intro stack seen hfuel x hx
      have hnil : stack = [] := length_eq_zero_iff.mp (by omega)
      subst hnil
      rcases hx with h | h
      · exact absurd h not_mem_nil
      · exact absurd h.1 h.2
  | succ fuel ih =>
      intro stack seen hfuel x hx y hy
      cases stack with
      | nil =>
          rcases hx with h | h
          · exact absurd h not_mem_nil
          · exact absurd h.1 h.2
      | cons top stack =>
          have hpush := push_new_length all (next top) stack seen (hall top)
          rw [length_cons] at hfuel
          have hrec := ih (push_new stack seen (next top)).1 (push_new stack seen (next top)).2
            (by omega)
          -- the popped one's successors are among the found, new or old
          by_cases htop : x = top
          · subst htop
            exact mem_search_of_seen fuel _ _ y ((mem_push_new_seen _ _ _ _).mpr (.inr hy))
          · refine hrec x ?_ y hy
            by_cases hstack : x ∈ (push_new stack seen (next top)).1
            · exact .inl hstack
            · refine .inr ?_
              rcases hx with h | h
              · rw [mem_cons] at h
                exact absurd ((mem_push_new_stack _ _ _ _).mpr
                  (.inl (h.resolve_left htop))) hstack
              · refine ⟨h.1, fun hseen => ?_⟩
                rcases (mem_push_new_seen _ _ _ _).mp hseen with hold | hnew
                · exact h.2 hold
                · exact hstack ((mem_push_new_stack _ _ _ _).mpr (.inr ⟨hnew, h.2⟩))

end Worklist
