/-
What it means that a change of a tree of names loses nothing and makes nothing up.

A tree is read by place: a root and the keys from there down, with something or nothing at
every place. `Moved` is a change that takes what stands at each place to another place,
every thing to a place of its own, with nothing new. Two changes of that kind: a whole
branch is put elsewhere (`Relocated`), and an inner node gives its branches to the node
above it (`Dissolved`).
-/
import Mathlib.Data.List.Infix

set_option autoImplicit false

namespace Moves

open List

variable {ι κ γ : Type*}

/-- A change that keeps everything, at the place the map says. -/
structure Moved (before after : ι × List κ → Option γ) (goes : ι × List κ → ι × List κ) : Prop where
  kept : ∀ {place : ι × List κ} {c : γ}, before place = some c → after (goes place) = some c
  apart : ∀ {place other : ι × List κ} {c d : γ}, before place = some c → before other = some d →
    goes place = goes other → place = other
  known : ∀ {place : ι × List κ} {c : γ}, after place = some c →
    ∃ old, before old = some c ∧ goes old = place

/-- The change that changes nothing. -/
theorem Moved.stay {before after : ι × List κ → Option γ} (h : ∀ place, after place = before place) :
    Moved before after id where
  kept hc := by rw [id, h, hc]
  apart _ _ heq := heq
  known hc := ⟨_, by rw [← h, hc], rfl⟩

/-- A change of what was changed that changes no more. -/
theorem Moved.then_stay {before after later : ι × List κ → Option γ} {goes : ι × List κ → ι × List κ}
    (h : Moved before after goes) (hstay : ∀ place, later place = after place) :
    Moved before later goes where
  kept hc := by rw [hstay, h.kept hc]
  apart hc hd heq := h.apart hc hd heq
  known hc := h.known (by rw [← hstay, hc])

/-! ## A branch put elsewhere -/

/-- A place that is a branch's root or lies below it. -/
def Under (branch place : ι × List κ) : Prop := place.1 = branch.1 ∧ branch.2 <+: place.2

theorem Under.split {branch place : ι × List κ} (h : Under branch place) :
    ∃ rest, place = (branch.1, branch.2 ++ rest) := by
  obtain ⟨hroot, rest, hrest⟩ := h
  exact ⟨rest, Prod.ext hroot hrest.symm⟩

theorem under_append (branch : ι × List κ) (rest : List κ) : Under branch (branch.1, branch.2 ++ rest) :=
  ⟨rfl, prefix_append _ _⟩

section
variable [DecidableEq ι] [DecidableEq κ]

instance (branch place : ι × List κ) : Decidable (Under branch place) :=
  inferInstanceAs (Decidable (_ ∧ _))

/-- Where a place goes when a branch goes from one place to another. -/
def relocate (source target place : ι × List κ) : ι × List κ :=
  if Under source place then (target.1, target.2 ++ place.2.drop source.2.length) else place

theorem relocate_append (source target : ι × List κ) (rest : List κ) :
    relocate source target (source.1, source.2 ++ rest) = (target.1, target.2 ++ rest) := by
  rw [relocate, if_pos (under_append source rest), drop_left]

theorem relocate_other {source target place : ι × List κ} (h : ¬ Under source place) :
    relocate source target place = place := if_neg h

end

/-- What stood in one branch stands in another, where nothing stood that did not go along. -/
structure Relocated (before after : ι × List κ → Option γ) (source target : ι × List κ) : Prop where
  moved : ∀ rest, after (target.1, target.2 ++ rest) = before (source.1, source.2 ++ rest)
  free : ∀ rest, ¬ Under source (target.1, target.2 ++ rest) → before (target.1, target.2 ++ rest) = none
  left : ∀ {place}, ¬ Under source place → ¬ Under target place → after place = before place
  gone : ∀ {place}, Under source place → ¬ Under target place → after place = none

theorem Relocated.moves [DecidableEq ι] [DecidableEq κ] {before after : ι × List κ → Option γ}
    {source target : ι × List κ} (h : Relocated before after source target) :
    Moved before after (relocate source target) := by
  -- what stayed cannot stand where the branch went
  have hstayed : ∀ {place c}, before place = some c → ¬ Under source place → ¬ Under target place := by
    intro place c hc hunder htarget
    obtain ⟨rest, rfl⟩ := htarget.split
    rw [h.free rest hunder] at hc
    exact nomatch hc
  refine ⟨?_, ?_, ?_⟩
  · intro place c hc
    by_cases hunder : Under source place
    · obtain ⟨rest, rfl⟩ := hunder.split
      rw [relocate_append, h.moved, hc]
    · rw [relocate_other hunder, h.left hunder (hstayed hc hunder), hc]
  · intro place other c d hc hd heq
    by_cases hplace : Under source place
    · obtain ⟨rest, rfl⟩ := hplace.split
      rw [relocate_append] at heq
      by_cases hother : Under source other
      · obtain ⟨rest', rfl⟩ := hother.split
        rw [relocate_append] at heq
        have hrest : rest = rest' := append_cancel_left (congrArg Prod.snd heq)
        rw [hrest]
      · rw [relocate_other hother] at heq
        exact absurd (heq ▸ under_append target rest) (hstayed hd hother)
    · rw [relocate_other hplace] at heq
      by_cases hother : Under source other
      · obtain ⟨rest, rfl⟩ := hother.split
        rw [relocate_append] at heq
        exact absurd (heq ▸ under_append target rest) (hstayed hc hplace)
      · rw [relocate_other hother] at heq
        exact heq
  · intro place c hc
    by_cases htarget : Under target place
    · obtain ⟨rest, rfl⟩ := htarget.split
      rw [h.moved] at hc
      exact ⟨_, hc, relocate_append source target rest⟩
    · by_cases hunder : Under source place
      · rw [h.gone hunder htarget] at hc
        exact nomatch hc
      · rw [h.left hunder htarget] at hc
        exact ⟨place, hc, relocate_other hunder⟩

/-! ## A node dissolved -/

section
variable [DecidableEq ι] [DecidableEq κ]

/-- Where a place goes when the node at a key gives its branches to the node above. -/
def rise (root : ι) (above : List κ) (key : κ) (place : ι × List κ) : ι × List κ :=
  if Under (root, above ++ [key]) place ∧ place.2 ≠ above ++ [key] then
    (root, above ++ place.2.drop (above.length + 1))
  else place

theorem rise_below (root : ι) (above : List κ) (key k : κ) (rest : List κ) :
    rise root above key (root, above ++ key :: k :: rest) = (root, above ++ k :: rest) := by
  have hsplit : above ++ key :: k :: rest = (above ++ [key]) ++ k :: rest := by simp
  have hunder : Under (root, above ++ [key]) (root, above ++ key :: k :: rest) := by
    rw [hsplit]
    exact under_append (root, above ++ [key]) (k :: rest)
  have hne : above ++ key :: k :: rest ≠ above ++ [key] := fun heq => by
    have htail := append_cancel_left heq
    exact absurd htail (by simp)
  rw [rise, if_pos ⟨hunder, hne⟩]
  have hdrop : (above ++ key :: k :: rest).drop (above.length + 1) = k :: rest := by
    rw [drop_append]
    simp
  rw [hdrop]

theorem rise_other {root : ι} {above : List κ} {key : κ} {place : ι × List κ}
    (h : ∀ k rest, place ≠ (root, above ++ key :: k :: rest)) : rise root above key place = place := by
  rw [rise, if_neg]
  rintro ⟨hunder, hne⟩
  obtain ⟨rest, rfl⟩ := hunder.split
  cases rest with
  | nil => exact hne (append_nil _)
  | cons k rest => exact h k rest (by simp)

end

/-- The node at a key gives its branches, which have the keys `K`, to the node above it. It
stays itself when none of them takes its key. -/
structure Dissolved (before after : ι × List κ → Option γ) (root : ι) (above : List κ) (key : κ)
    (K : κ → Prop) : Prop where
  up : ∀ {k} rest, K k → after (root, above ++ k :: rest) = before (root, above ++ key :: k :: rest)
  below : ∀ {k} rest, ¬ K k → before (root, above ++ key :: k :: rest) = none
  free : ∀ {k} rest, K k → k ≠ key → before (root, above ++ k :: rest) = none
  taken : K key → before (root, above ++ [key]) = none
  self : ¬ K key → after (root, above ++ [key]) = before (root, above ++ [key])
  bare : ¬ K key → ∀ k rest, after (root, above ++ key :: k :: rest) = none
  left : ∀ {place}, (∀ k rest, K k ∨ k = key → place ≠ (root, above ++ k :: rest)) →
    after place = before place

theorem Dissolved.moves [DecidableEq ι] [DecidableEq κ] {before after : ι × List κ → Option γ} {root : ι}
    {above : List κ} {key : κ} {K : κ → Prop} (h : Dissolved before after root above key K) :
    Moved before after (rise root above key) := by
  -- what stayed cannot stand where a branch went
  have hstayed : ∀ {k rest c}, before (root, above ++ k :: rest) = some c →
      (∀ k' rest', (root, above ++ k :: rest) ≠ (root, above ++ key :: k' :: rest')) → ¬ K k := by
    intro k rest c hc hnot hk
    by_cases hkey : k = key
    · cases rest with
      | nil =>
        rw [hkey, h.taken (hkey ▸ hk)] at hc
        exact nomatch hc
      | cons k' rest' => exact hnot k' rest' (by rw [hkey])
    · rw [h.free rest hk hkey] at hc
      exact nomatch hc
  have hrose : ∀ {k rest c}, before (root, above ++ key :: k :: rest) = some c → K k := by
    intro k rest c hc
    by_contra hk
    rw [h.below rest hk] at hc
    exact nomatch hc
  refine ⟨?_, ?_, ?_⟩
  · intro place c hc
    by_cases hbelow : ∃ k rest, place = (root, above ++ key :: k :: rest)
    · obtain ⟨k, rest, rfl⟩ := hbelow
      rw [rise_below, h.up rest (hrose hc), hc]
    · have hother : ∀ k rest, place ≠ (root, above ++ key :: k :: rest) := fun k rest heq =>
        hbelow ⟨k, rest, heq⟩
      rw [rise_other hother]
      by_cases hnear : ∃ k rest, (K k ∨ k = key) ∧ place = (root, above ++ k :: rest)
      · obtain ⟨k, rest, hk, rfl⟩ := hnear
        have hnk := hstayed hc hother
        have hkey : k = key := hk.resolve_left hnk
        cases rest with
        | nil =>
          rw [hkey] at hnk hc ⊢
          rw [h.self hnk, hc]
        | cons k' rest' => exact absurd (by rw [hkey]) (hother k' rest')
      · rw [h.left fun k rest hk heq => hnear ⟨k, rest, hk, heq⟩, hc]
  · intro place other c d hc hd heq
    by_cases hplace : ∃ k rest, place = (root, above ++ key :: k :: rest)
    · obtain ⟨k, rest, rfl⟩ := hplace
      rw [rise_below] at heq
      by_cases hother : ∃ k rest, other = (root, above ++ key :: k :: rest)
      · obtain ⟨k', rest', rfl⟩ := hother
        rw [rise_below] at heq
        rw [append_cancel_left (congrArg Prod.snd heq)]
      · have hnot : ∀ k rest, other ≠ (root, above ++ key :: k :: rest) := fun k rest h =>
          hother ⟨k, rest, h⟩
        rw [rise_other hnot] at heq
        rw [← heq] at hd hnot
        exact absurd (hrose hc) (hstayed hd hnot)
    · have hnot : ∀ k rest, place ≠ (root, above ++ key :: k :: rest) := fun k rest h =>
        hplace ⟨k, rest, h⟩
      rw [rise_other hnot] at heq
      by_cases hother : ∃ k rest, other = (root, above ++ key :: k :: rest)
      · obtain ⟨k, rest, rfl⟩ := hother
        rw [rise_below] at heq
        rw [heq] at hc hnot
        exact absurd (hrose hd) (hstayed hc hnot)
      · rw [rise_other fun k rest h => hother ⟨k, rest, h⟩] at heq
        exact heq
  · intro place c hc
    by_cases hnear : ∃ k rest, (K k ∨ k = key) ∧ place = (root, above ++ k :: rest)
    · obtain ⟨k, rest, hk, rfl⟩ := hnear
      by_cases hK : K k
      · rw [h.up rest hK] at hc
        exact ⟨_, hc, rise_below root above key k rest⟩
      · have hkey : k = key := hk.resolve_left hK
        rw [hkey] at hK hc ⊢
        cases rest with
        | nil =>
          rw [h.self hK] at hc
          refine ⟨_, hc, rise_other fun k rest heq => ?_⟩
          exact absurd (append_cancel_left (congrArg Prod.snd heq)) (by simp)
        | cons k' rest' =>
          rw [h.bare hK] at hc
          exact nomatch hc
    · rw [h.left fun k rest hk heq => hnear ⟨k, rest, hk, heq⟩] at hc
      exact ⟨place, hc, rise_other fun k rest heq => hnear ⟨key, k :: rest, Or.inr rfl, heq⟩⟩

end Moves
