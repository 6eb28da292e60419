/-
Writes to registers: what a register holds after a list of them, and why doing the
same ones again changes nothing.

A register holds what the last write to it put there. Writing a list of values over a
state that ends in the same list is thus no change, whatever was written before it.

The second half is about the places of a list: writing values to the places of its members of
a kind, in order, leaves the others where they are.
-/
import Mathlib.Data.List.Perm.Basic

set_option autoImplicit false

namespace Writes

open List Function

section
variable {κ ν : Type*} [DecidableEq κ] (f : κ → ν)

/-- Every write in order. -/
def write_all (ws : List (κ × ν)) : κ → ν :=
  ws.foldl (fun f w => Function.update f w.1 w.2) f

@[simp] theorem write_all_nil : write_all f [] = f := rfl

theorem write_all_cons (k : κ) (v : ν) (ws : List (κ × ν)) :
    write_all f ((k, v) :: ws) = write_all (Function.update f k v) ws := rfl

variable (ws us : List (κ × ν))

theorem write_all_append :
    write_all f (ws ++ us) = write_all (write_all f ws) us :=
  foldl_append

/-- A register that no write is to keeps what it holds. -/
theorem write_all_of_not_mem {ws : List (κ × ν)} {k : κ} (h : k ∉ ws.map Prod.fst) (f : κ → ν) :
    write_all f ws k = f k := by
  induction ws generalizing f with
  | nil => rfl
  | cons w ws ih =>
    rw [map_cons, mem_cons, not_or] at h
    rw [write_all_cons, ih h.2, update_of_ne h.1]

/-- The writes leave a register alone or decide what it holds. -/
theorem write_all_decides (ws : List (κ × ν)) (k : κ) :
    (∀ f : κ → ν, write_all f ws k = f k) ∨ ∃ v, ∀ f : κ → ν, write_all f ws k = v := by
  induction ws with
  | nil => exact .inl fun f => rfl
  | cons w ws ih =>
    obtain ⟨k', v⟩ := w
    rcases ih with hkeep | ⟨v', hv⟩
    · by_cases hk : k = k'
      · right
        refine ⟨v, fun f => ?_⟩
        rw [write_all_cons, hkeep, hk, update_self]
      · left
        intro f
        rw [write_all_cons, hkeep, update_of_ne hk]
    · exact .inr ⟨v', fun f => by rw [write_all_cons, hv]⟩

/-- Doing the last writes again changes nothing. -/
theorem write_all_again :
    write_all (write_all f (ws ++ us)) us = write_all f (ws ++ us) := by
  funext k
  rcases write_all_decides us k with hkeep | ⟨v, hv⟩
  · exact hkeep _
  · rw [write_all_append, hv, hv]

end

section
variable {α : Type*} {p : α → Bool} {xs ys : List α}

/-- The places of the members of a kind. -/
def slots (p : α → Bool) (xs : List α) : List ℕ :=
  xs.zipIdx.flatMap fun x => if p x.1 then [x.2] else []

/-- The members of a kind replaced by others, one after another. -/
def refill (p : α → Bool) : List α → List α → List α
  | [], _ => []
  | x :: xs, [] => x :: xs
  | x :: xs, y :: ys => if p x then y :: refill p xs ys else x :: refill p xs (y :: ys)

theorem refill_nil (p : α → Bool) (xs : List α) : refill p xs [] = xs := by
  cases xs with
  | nil => rfl
  | cons => rfl

theorem refill_pos {x : α} (h : p x = true) (xs : List α) (y : α) (ys : List α) :
    refill p (x :: xs) (y :: ys) = y :: refill p xs ys := if_pos h

theorem refill_neg {x : α} (h : p x = false) (xs ys : List α) : refill p (x :: xs) ys = x :: refill p xs ys := by
  cases ys with
  | nil => rw [refill_nil, refill_nil]
  | cons y ys => exact if_neg (Bool.eq_false_iff.mp h)

/-- Writing to the places is refilling. -/
theorem foldl_set_slots (p : α → Bool) (xs ys : List α) :
    ((slots p xs).zip ys).foldl (fun l w => l.set w.1 w.2) xs = refill p xs ys := by
  suffices hgen : ∀ before : List α,
      (((xs.zipIdx before.length).flatMap fun x => if p x.1 then [x.2] else []).zip ys).foldl
        (fun l w => l.set w.1 w.2) (before ++ xs) = before ++ refill p xs ys from hgen []
  induction xs generalizing ys with
  | nil =>
    intro before
    rfl
  | cons x xs ih =>
    intro before
    rw [zipIdx_cons, flatMap_cons]
    have hnext : ∀ z, before.length + 1 = (before ++ [z]).length := fun z => by rw [length_append]; rfl
    by_cases hx : p x = true
    · rw [if_pos hx]
      cases ys with
      | nil => rw [zip_nil_right, refill_nil]; rfl
      | cons y ys =>
        have hset : (before ++ x :: xs).set before.length y = (before ++ [y]) ++ xs := by simp
        rw [singleton_append, zip_cons_cons, foldl_cons, hset, hnext y, ih ys (before ++ [y]),
          refill_pos hx, append_assoc]
        rfl
    · have hmore : before ++ x :: xs = (before ++ [x]) ++ xs := by simp
      rw [if_neg hx, nil_append, hnext x, hmore, ih ys (before ++ [x]), refill_neg (Bool.eq_false_iff.mpr hx),
        append_assoc]
      rfl

/-- What stands at the places. -/
theorem filterMap_slots (p : α → Bool) (xs : List α) : ((slots p xs).filterMap fun i => xs[i]?) = xs.filter p := by
  suffices hgen : ∀ before : List α,
      (((xs.zipIdx before.length).flatMap fun x => if p x.1 then [x.2] else []).filterMap fun i => (before ++ xs)[i]?)
        = xs.filter p from hgen []
  induction xs with
  | nil =>
    intro before
    rfl
  | cons x xs ih =>
    intro before
    have hnext : before.length + 1 = (before ++ [x]).length := by rw [length_append]; rfl
    have hmore : before ++ x :: xs = (before ++ [x]) ++ xs := by simp
    have hx : (before ++ x :: xs)[before.length]? = some x := by simp
    have hrest := ih (before ++ [x])
    rw [← hnext, ← hmore] at hrest
    rw [zipIdx_cons, flatMap_cons, filterMap_append, hrest]
    by_cases hp : p x = true
    · rw [if_pos hp, filter_cons_of_pos hp, filterMap_cons_some hx, filterMap_nil, singleton_append]
    · rw [if_neg hp, filter_cons_of_neg hp, filterMap_nil, nil_append]

/-- Refilled with what was there, a list is as it was. -/
theorem refill_self (p : α → Bool) (xs : List α) : refill p xs (xs.filter p) = xs := by
  induction xs with
  | nil => rfl
  | cons x xs ih =>
    by_cases hx : p x = true
    · rw [filter_cons_of_pos hx, refill_pos hx, ih]
    · rw [filter_cons_of_neg hx, refill_neg (Bool.eq_false_iff.mpr hx), ih]

theorem refill_perm_append (h : ys.length = (xs.filter p).length) :
    (refill p xs ys).Perm (ys ++ xs.filter fun x => !p x) := by
  induction xs generalizing ys with
  | nil =>
    obtain rfl := eq_nil_of_length_eq_zero h
    exact List.Perm.refl _
  | cons x xs ih =>
    by_cases hx : p x = true
    · rw [filter_cons_of_pos hx] at h
      obtain ⟨y, ys, rfl⟩ := exists_cons_of_length_eq_add_one h
      rw [refill_pos hx, filter_cons_of_neg (by simpa using hx)]
      exact (ih (Nat.succ.inj h)).cons y
    · rw [filter_cons_of_neg hx] at h
      rw [refill_neg (Bool.eq_false_iff.mpr hx), filter_cons_of_pos (by simpa using hx)]
      exact ((ih h).cons x).trans perm_middle.symm

/-- Refilled with its own in another order, a list has the same members. -/
theorem refill_perm (h : ys.Perm (xs.filter p)) : (refill p xs ys).Perm xs :=
  (refill_perm_append h.length_eq).trans ((h.append_right _).trans (filter_append_perm p xs))

/-- The members of the kind are then the new ones, in their order. -/
theorem filter_refill (hlen : ys.length = (xs.filter p).length) (hys : ∀ y ∈ ys, p y = true) :
    (refill p xs ys).filter p = ys := by
  induction xs generalizing ys with
  | nil =>
    obtain rfl := eq_nil_of_length_eq_zero hlen
    rfl
  | cons x xs ih =>
    by_cases hx : p x = true
    · rw [filter_cons_of_pos hx] at hlen
      obtain ⟨y, ys, rfl⟩ := exists_cons_of_length_eq_add_one hlen
      rw [refill_pos hx, filter_cons_of_pos (hys y mem_cons_self),
        ih (Nat.succ.inj hlen) fun z hz => hys z (mem_cons_of_mem y hz)]
    · rw [filter_cons_of_neg hx] at hlen
      rw [refill_neg (Bool.eq_false_iff.mpr hx), filter_cons_of_neg hx, ih hlen hys]

/-- And the others stand where they stood. -/
theorem refill_getElem_of_neg {i : ℕ} {x : α} (hx : p x = false) (h : xs[i]? = some x) (ys : List α) :
    (refill p xs ys)[i]? = some x := by
  induction xs generalizing i ys with
  | nil => exact nomatch h
  | cons z xs ih =>
    by_cases hz : p z = true
    · cases ys with
      | nil => exact h
      | cons y ys =>
        rw [refill_pos hz]
        cases i with
        | zero =>
          cases h
          rw [hx] at hz
          exact absurd hz Bool.false_ne_true
        | succ i => exact ih h ys
    · rw [refill_neg (Bool.eq_false_iff.mpr hz)]
      cases i with
      | zero => exact h
      | succ i => exact ih h ys

end

end Writes
