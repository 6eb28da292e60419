/-
Lists that take a thing in only once: a loop that appends what is not there yet. What comes
out has every element once, in the order it first came; a list that was so already comes out
as it was.

And a list of slots read through what each slot stands for: when every slot of a kind stands
there exactly once, the reading is the rest of the list with what those slots stand for.
-/
import Mathlib.Data.List.Induction
import Mathlib.Data.List.Nodup
import Mathlib.Data.List.Perm.Basic

set_option autoImplicit false

namespace Distinct

open List

variable {α β : Type*} [BEq α] [LawfulBEq α] {xs ys : List α} {x y : α}

/-- Append what is not there yet. -/
def push (xs : List α) (x : α) : List α := if x ∈ xs then xs else xs ++ [x]

/-- Append all that is not there yet. -/
def pushed (xs ys : List α) : List α := ys.foldl push xs

theorem mem_push : y ∈ push xs x ↔ y ∈ xs ∨ y = x := by
  rw [push]
  by_cases h : x ∈ xs
  · rw [if_pos h]
    exact ⟨Or.inl, fun hy => hy.elim id fun heq => heq ▸ h⟩
  · rw [if_neg h, mem_append, mem_singleton]

theorem nodup_push (h : xs.Nodup) : (push xs x).Nodup := by
  rw [push]
  by_cases hx : x ∈ xs
  · rw [if_pos hx]
    exact h
  · rw [if_neg hx]
    exact h.append (nodup_singleton x) (disjoint_singleton.mpr hx)

theorem mem_pushed : y ∈ pushed xs ys ↔ y ∈ xs ∨ y ∈ ys := by
  induction ys generalizing xs with
  | nil => simp [pushed]
  | cons z ys ih =>
    have hstep : pushed xs (z :: ys) = pushed (push xs z) ys := rfl
    rw [hstep, ih, mem_push, mem_cons, or_assoc]

theorem nodup_pushed (h : xs.Nodup) : (pushed xs ys).Nodup := by
  induction ys generalizing xs with
  | nil => exact h
  | cons z ys ih => exact ih (nodup_push h)

/-- What is all there already changes nothing. -/
theorem pushed_of_subset (h : ∀ y ∈ ys, y ∈ xs) : pushed xs ys = xs := by
  induction ys with
  | nil => rfl
  | cons z ys ih =>
    have hstep : pushed xs (z :: ys) = pushed (push xs z) ys := rfl
    rw [hstep, push, if_pos (h z mem_cons_self)]
    exact ih fun y hy => h y (mem_cons_of_mem _ hy)

/-- What is all new goes to the end. -/
theorem pushed_of_nodup (h : (xs ++ ys).Nodup) : pushed xs ys = xs ++ ys := by
  induction ys generalizing xs with
  | nil => rw [append_nil]; rfl
  | cons z ys ih =>
    have hstep : pushed xs (z :: ys) = pushed (push xs z) ys := rfl
    have hz : z ∉ xs := fun hin =>
      (disjoint_of_nodup_append h) hin mem_cons_self
    have hsplit : xs ++ z :: ys = xs ++ [z] ++ ys := by simp
    rw [hstep, push, if_neg hz, hsplit]
    exact ih (hsplit ▸ h)

/-- What was taken in comes in the order of first occurrence. -/
theorem pushed_in_order (ys : List α) :
    (pushed [] ys).Pairwise fun x y => ys.idxOf x < ys.idxOf y := by
  induction ys using List.reverseRecOn with
  | nil => exact List.Pairwise.nil
  | append_singleton ys z ih =>
    have hstep : pushed [] (ys ++ [z]) = push (pushed [] ys) z := by
      rw [pushed, foldl_append]
      rfl
    have hin : ∀ {x}, x ∈ pushed [] ys → x ∈ ys := fun hx => (mem_pushed.mp hx).resolve_left not_mem_nil
    have hold : (pushed [] ys).Pairwise fun x y => (ys ++ [z]).idxOf x < (ys ++ [z]).idxOf y := by
      refine ih.imp_of_mem ?_
      intro x y hx hy hlt
      rw [idxOf_append_of_mem (hin hx), idxOf_append_of_mem (hin hy)]
      exact hlt
    rw [hstep, push]
    split_ifs with hz
    · exact hold
    · refine pairwise_append.mpr ⟨hold, pairwise_singleton _ _, ?_⟩
      intro x hx y hy
      obtain rfl := mem_singleton.mp hy
      have hnew : y ∉ ys := fun hys => hz (mem_pushed.mpr (Or.inr hys))
      rw [idxOf_append_of_mem (hin hx), idxOf_append_of_notMem hnew]
      exact Nat.lt_of_lt_of_le (idxOf_lt_length_of_mem (hin hx)) (Nat.le_add_right _ _)

/-! ## Elements by their key -/

/-- With every key once, an element is found by its key. -/
theorem find_of_nodup {κ : Type*} [DecidableEq κ] {key : β → κ} {zs : List β} {z : β}
    (hkeys : (zs.map key).Nodup) (hz : z ∈ zs) : (zs.find? fun w => key w = key z) = some z := by
  cases hfind : zs.find? fun w => key w = key z with
  | none =>
    have hnot := find?_eq_none.mp hfind z hz
    simp at hnot
  | some found =>
    have hin := mem_of_find?_eq_some hfind
    have heq : key found = key z := by simpa using find?_some hfind
    rw [inj_on_of_nodup_map hkeys hin hz heq]

/-! ## Slots -/

/-- A list of slots read through what each stands for. -/
theorem flatMap_slots {slots order : List α} {loose : α → Bool} {f : α → List β}
    (hslots : slots.Nodup) (honce : ∀ s ∈ slots, order.count s = 1)
    (hloose : ∀ s ∈ slots, loose s = false)
    (hother : ∀ t ∈ order, t ∉ slots → loose t = false → f t = []) :
    (order.flatMap f).Perm ((order.filter loose).flatMap f ++ slots.flatMap f) := by
  -- the slots that are not loose read as `slots` do: one of them each, and nothing of others
  have hpick : (order.filter fun t => t ∈ slots).Perm slots := by
    rw [perm_iff_count]
    intro a
    by_cases ha : a ∈ slots
    · rw [count_filter (by simpa using ha), honce a ha, count_eq_one_of_mem hslots ha]
    · rw [count_eq_zero_of_not_mem ha, count_eq_zero]
      intro hin
      exact ha (by simpa using (mem_filter.mp hin).2)
  have hrest : (order.filter fun t => !loose t).flatMap f
      = (order.filter fun t => t ∈ slots).flatMap f := by
    clear honce hpick
    induction order with
    | nil => rfl
    | cons t order ih =>
      have ih := ih fun t ht => hother t (mem_cons_of_mem _ ht)
      by_cases ht : t ∈ slots
      · rw [filter_cons_of_pos (by rw [hloose t ht]; rfl), filter_cons_of_pos (by simpa using ht),
          flatMap_cons, flatMap_cons, ih]
      · rw [filter_cons_of_neg (p := fun t => t ∈ slots) (by simpa using ht)]
        by_cases hl : loose t = true
        · rw [filter_cons_of_neg (by rw [hl]; simp), ih]
        · have hl : loose t = false := by simpa using hl
          rw [filter_cons_of_pos (by rw [hl]; rfl), flatMap_cons,
            hother t mem_cons_self ht hl, nil_append, ih]
  have hsplit := (filter_append_perm loose order).symm.flatMap_right f
  rw [flatMap_append, hrest] at hsplit
  exact hsplit.trans ((hpick.flatMap_right f).append_left _)

end Distinct
