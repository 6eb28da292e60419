/-
Rust's `Result` as `Except`: what a run that came to an end says about its steps.
-/
import Mathlib.Tactic.Common

set_option autoImplicit false

universe u

namespace Fallible

open List

/-- A `?` that went through: the step before it did, and so did the rest. -/
theorem bind_ok {ε : Type*} {α β : Type u} {x : Except ε α} {f : α → Except ε β} {b : β}
    (h : (x >>= f) = .ok b) : ∃ a, x = .ok a ∧ f a = .ok b := by
  cases x with
  | error e => cases h
  | ok a => exact ⟨a, rfl, h⟩

theorem bind_error {ε : Type*} {α β : Type u} {x : Except ε α} {f : α → Except ε β} {e : ε}
    (h : x >>= f = .error e) : x = .error e ∨ ∃ a, x = .ok a ∧ f a = .error e := by
  cases x with
  | error e' =>
    cases h
    exact Or.inl rfl
  | ok a => exact Or.inr ⟨a, rfl, h⟩

theorem map_ok {ε α β : Type*} {x : Except ε α} {f : α → β} {b : β} (h : x.map f = .ok b) :
    ∃ a, x = .ok a ∧ f a = b := by
  rcases x with e | a
  · cases h
  · exact ⟨a, rfl, Except.ok.inj h⟩

/-- A loop that went through, from an invariant one turn of it keeps: the invariant
holds at the end, and every element had its turn at a state where it held. -/
theorem foldlM_ok {ε α : Type*} {β : Type u} {P : β → Prop} {f : β → α → Except ε β} {l : List α} {b c : β}
    (hstep : ∀ b a c, P b → f b a = .ok c → P c) (hb : P b) (h : l.foldlM f b = .ok c) : P c := by
  induction l generalizing b with
  | nil =>
    obtain rfl : b = c := Except.ok.inj h
    exact hb
  | cons a l ih =>
    rw [foldlM_cons] at h
    obtain ⟨b', hb', hrest⟩ := bind_ok h
    exact ih (hstep b a b' hb hb') hrest

/-- A loop whose turns would go through the same goes through the same. -/
theorem foldlM_ok_of_turns {ε α : Type*} {β : Type u} {f g : β → α → Except ε β} {l : List α} {b c : β}
    (hturn : ∀ b a c, f b a = .ok c → g b a = .ok c) (h : l.foldlM f b = .ok c) :
    l.foldlM g b = .ok c := by
  induction l generalizing b with
  | nil => exact h
  | cons a l ih =>
    rw [foldlM_cons] at h ⊢
    obtain ⟨b', hb', hrest⟩ := bind_ok h
    rw [hturn b a b' hb']
    exact ih hrest

/-- A loop that failed: some turn did, behind a part that went through. -/
theorem foldlM_error {ε α : Type*} {β : Type u} {f : β → α → Except ε β} {l : List α} {b : β} {e : ε}
    (h : l.foldlM f b = .error e) : ∃ front a back c, l = front ++ a :: back
      ∧ front.foldlM f b = .ok c ∧ f c a = .error e := by
  induction l generalizing b with
  | nil => exact nomatch h
  | cons a l ih =>
    rw [foldlM_cons] at h
    rcases bind_error h with hfirst | ⟨b', hb', hrest⟩
    · exact ⟨[], a, l, b, rfl, rfl, hfirst⟩
    · obtain ⟨front, a', back, c, rfl, hfront, herror⟩ := ih hrest
      refine ⟨a :: front, a', back, c, rfl, ?_, herror⟩
      rw [foldlM_cons, hb']
      exact hfront

/-- A map that went through: every result is that of some element. -/
theorem mapM_ok {ε : Type*} {α β : Type u} {f : α → Except ε β} {l : List α} {bs : List β}
    (h : l.mapM f = .ok bs) : ∀ b ∈ bs, ∃ a ∈ l, f a = .ok b := by
  induction l generalizing bs with
  | nil =>
    obtain rfl : [] = bs := Except.ok.inj h
    intro b hb
    exact absurd hb not_mem_nil
  | cons a l ih =>
    rw [mapM_cons] at h
    obtain ⟨b', hb', hrest⟩ := bind_ok h
    obtain ⟨bs', hbs', hpure⟩ := bind_ok hrest
    obtain rfl : b' :: bs' = bs := Except.ok.inj hpure
    intro b hb
    rcases mem_cons.mp hb with rfl | hb
    · exact ⟨a, mem_cons_self, hb'⟩
    · obtain ⟨a', ha', hf⟩ := ih hbs' b hb
      exact ⟨a', mem_cons_of_mem a ha', hf⟩

end Fallible
