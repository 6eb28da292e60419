/-
Lists that put everything behind what it leads to, and the order a depth-first walk meets
things in.

A walk goes down a list of starts from the front, and from each of them down its own list
before it goes on. Which of two things it meets first can be told without walking, as long as
neither leads to the other: the first start that leads to either decides, alone or by its own
list.
-/
import Mathlib.Data.List.Basic
import Mathlib.Logic.Relation

set_option autoImplicit false

namespace DepthFirst

open List

open Relation

variable {α : Type*} (next : α → List α)

/-- `t` is what `s` leads to, in any number of steps and in none. -/
def Leads (s t : α) : Prop := ReflTransGen (fun s t => t ∈ next s) s t

/-- `t` is what `s` leads to, in one step or more. -/
def Past (s t : α) : Prop := TransGen (fun s t => t ∈ next s) s t

/-- Everything in the list stands behind what it leads to. -/
def Ordered (l : List α) : Prop := ∀ front s back, l = front ++ s :: back → ∀ t ∈ next s, t ∈ front

/-- Going down the list, `x` is met before `y`. -/
inductive Sooner (x y : α) : List α → Prop
  | alone {s : α} {rest : List α} (hx : Leads next s x) (hy : ¬Leads next s y) :
    Sooner x y (s :: rest)
  | inside {s : α} {rest : List α} (hx : Leads next s x) (hy : Leads next s y)
    (h : Sooner x y (next s)) : Sooner x y (s :: rest)
  | later {s : α} {rest : List α} (hx : ¬Leads next s x) (hy : ¬Leads next s y)
    (h : Sooner x y rest) : Sooner x y (s :: rest)

section
variable {next} {l front back : List α} {s t u x y : α}

theorem Leads.refl (s : α) : Leads next s s := ReflTransGen.refl

theorem Leads.trans (h : Leads next s t) (h' : Leads next t u) : Leads next s u :=
  ReflTransGen.trans h h'

theorem Leads.step (h : t ∈ next s) : Leads next s t := ReflTransGen.single h

theorem leads_iff : Leads next s t ↔ s = t ∨ ∃ u ∈ next s, Leads next u t :=
  ReflTransGen.cases_head_iff

theorem Past.of_step (h : t ∈ next s) (h' : Leads next t u) : Past next s u :=
  TransGen.head' h h'

/-! ## Ordered lists -/

theorem ordered_nil : Ordered next ([] : List α) := by
  intro front s back h
  exact absurd h (by simp)

/-- What has all it leads to before it can be put behind the rest. -/
theorem Ordered.concat (h : Ordered next l) (hs : ∀ t ∈ next s, t ∈ l) : Ordered next (l ++ [s]) := by
  intro front t back hsplit u hu
  rcases eq_nil_or_concat back with rfl | ⟨back, last, rfl⟩
  -- `t` is the one that was put there
  · obtain ⟨rfl, hlast⟩ := append_inj' hsplit rfl
    rw [(List.cons.inj hlast).1] at hs
    exact hs u hu
  · rw [concat_eq_append, ← cons_append, ← append_assoc] at hsplit
    exact h front t back (append_inj' hsplit rfl).1 u hu

theorem Ordered.of_append (h : Ordered next (l ++ back)) : Ordered next l := by
  intro front s rest hsplit t ht
  refine h front s (rest ++ back) ?_ t ht
  rw [hsplit, append_assoc, cons_append]

theorem Ordered.mem_of_next (h : Ordered next l) (hs : s ∈ l) (ht : t ∈ next s) : t ∈ l := by
  obtain ⟨front, back, rfl⟩ := append_of_mem hs
  exact mem_append_left _ (h front s back rfl t ht)

/-- An ordered list has all that it leads to. -/
theorem Ordered.mem_of_leads (h : Ordered next l) (hs : s ∈ l) (hlead : Leads next s t) : t ∈ l := by
  induction hlead with
  | refl => exact hs
  | tail _ hstep ih => exact h.mem_of_next ih hstep

variable [DecidableEq α]

theorem Ordered.idxOf_lt (h : Ordered next l) (hs : s ∈ l) (ht : t ∈ next s) :
    l.idxOf t < l.idxOf s := by
  have hlt : l.idxOf s < l.length := idxOf_lt_length_iff.mpr hs
  have hsplit : l = l.take (l.idxOf s) ++ s :: l.drop (l.idxOf s + 1) := by
    conv_lhs => rw [← take_append_drop (l.idxOf s) l, drop_eq_getElem_cons hlt]
    rw [getElem_idxOf hlt]
  have hfront := h _ s _ hsplit t ht
  have hidx : l.idxOf t = (l.take (l.idxOf s)).idxOf t := by
    conv_lhs => rw [hsplit]
    exact idxOf_append_of_mem hfront
  have hless := idxOf_lt_length_iff.mpr hfront
  rw [length_take] at hless
  omega

theorem Ordered.idxOf_lt_of_past (h : Ordered next l) (hs : s ∈ l) (hpast : Past next s t) :
    l.idxOf t < l.idxOf s := by
  induction hpast with
  | single hstep => exact h.idxOf_lt hs hstep
  | tail hpast hstep ih =>
    have hmem := h.mem_of_leads hs hpast.to_reflTransGen
    have hlast := h.idxOf_lt hmem hstep
    omega

/-- Nothing in an ordered list leads back to itself. -/
theorem Ordered.not_past (h : Ordered next l) (hs : s ∈ l) : ¬Past next s s :=
  fun hpast => Nat.lt_irrefl _ (h.idxOf_lt_of_past hs hpast)

/-! ## What is met first -/

omit [DecidableEq α] in
theorem sooner_cons_iff : Sooner next x y (s :: l) ↔ Leads next s x ∧ ¬Leads next s y
    ∨ Leads next s x ∧ Leads next s y ∧ Sooner next x y (next s)
    ∨ ¬Leads next s x ∧ ¬Leads next s y ∧ Sooner next x y l := by
  constructor
  · intro h
    cases h with
    | alone hx hy => exact .inl ⟨hx, hy⟩
    | inside hx hy h => exact .inr (.inl ⟨hx, hy, h⟩)
    | later hx hy h => exact .inr (.inr ⟨hx, hy, h⟩)
  · rintro (⟨hx, hy⟩ | ⟨hx, hy, h⟩ | ⟨hx, hy, h⟩)
    · exact .alone hx hy
    · exact .inside hx hy h
    · exact .later hx hy h

end

end DepthFirst
