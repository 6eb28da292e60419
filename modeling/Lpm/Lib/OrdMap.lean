/-
Ordered maps and sets as Rust's `BTreeMap` and `BTreeSet` give them: entries in
key order, one entry a key. The carrier is the standard library's `TreeMap`;
what is added here is the two shapes a loop over such a map takes in the code:
one that writes an entry of another map for every entry it visits, and one that
visits the keys of two maps at once.
-/
import Mathlib.Data.List.Perm.Basic
import Mathlib.Order.WithBot

set_option autoImplicit false

namespace OrdMap

open List

/-- Rust's `BTreeMap<κ, ν>`: a map iterated in key order. -/
abbrev BTreeMap (κ : Type*) (ν : Type*) [Ord κ] := Std.TreeMap κ ν compare

/-- Where an `Option` stands in Rust's order: `None` below everything else. -/
def option_key {α : Type*} (o : Option α) : WithBot α := o

/-- `Option::zip`. -/
def option_zip {α β : Type*} (a : Option α) (b : Option β) : Option (α × β) :=
  a.bind fun x => b.map fun y => (x, y)

section
variable {κ : Type*} {α β : Type*} [Ord κ] [Std.TransOrd κ] [Std.LawfulEqOrd κ]

variable (f : Option β → α → β)

/-- For every entry of `m`, write the entry of `init` under the same key, from
what stands there and from the entry visited. -/
def upsert_all (m : BTreeMap κ α) (init : BTreeMap κ β) :
    BTreeMap κ β :=
  m.foldl (fun acc k a => acc.insert k (f acc[k]? a)) init

private theorem foldl_upsert_get (l : List (κ × α))
    (hd : l.Pairwise (fun a b => a.1 ≠ b.1)) (init : BTreeMap κ β) (k : κ) :
    (l.foldl (fun acc p => acc.insert p.1 (f acc[p.1]? p.2)) init)[k]?
      = match l.find? (fun p => compare p.1 k == .eq) with
        | some p => some (f init[k]? p.2)
        | none => init[k]? := by
  induction l generalizing init with
  | nil => rfl
  | cons p l ih =>
    rw [foldl_cons, ih (List.Pairwise.of_cons hd)]
    by_cases hpk : p.1 = k
    -- no later entry has this key, so what is written now stays
    · have hnone : l.find? (fun q => compare q.1 k == .eq) = none := by
        rw [find?_eq_none]
        intro q hq
        have hne : p.1 ≠ q.1 := rel_of_pairwise_cons hd hq
        simp only [beq_iff_eq, Std.compare_eq_iff_eq]
        exact fun h => hne (hpk.trans h.symm)
      rw [hnone, find?_cons_of_pos (by simp [hpk])]
      simp [hpk]
    · rw [find?_cons_of_neg (by simpa using hpk)]
      rw [Std.TreeMap.getElem?_insert, if_neg (by simpa using hpk)]

/-- What the loop leaves under a key: the entry it wrote when the visited map has
that key, and what was there before otherwise. -/
theorem upsert_all_get (m : BTreeMap κ α) (init : BTreeMap κ β)
    (k : κ) :
    (upsert_all f m init)[k]?
      = match m[k]? with
        | some a => some (f init[k]? a)
        | none => init[k]? := by
  have hd : m.toList.Pairwise (fun a b => a.1 ≠ b.1) :=
    Std.TreeMap.distinct_keys_toList.imp fun h heq => h (by simp [heq])
  rw [upsert_all, Std.TreeMap.foldl_eq_foldl_toList, foldl_upsert_get f m.toList hd]
  cases hm : m[k]? with
  | none =>
    have hk : k ∉ m := by simpa using hm
    rw [Std.TreeMap.find?_toList_eq_none_iff_not_mem.mpr hk]
  | some a =>
    have hf : m.toList.find? (fun p => compare p.1 k == .eq) = some (k, a) := by
      rw [Std.TreeMap.find?_toList_eq_some_iff_getKey?_eq_some_and_getElem?_eq_some]
      refine ⟨?_, hm⟩
      exact Std.TreeMap.getKey?_eq_some (by simp [Std.TreeMap.mem_iff_isSome_getElem?, hm])
    rw [hf]

/-- Iterating over a map reads its entries and nothing else of it. -/
theorem toList_congr {m m' : BTreeMap κ α}
    (h : ∀ k : κ, m[k]? = m'[k]?) : m.toList = m'.toList :=
  Std.TreeMap.equiv_iff_toList_eq.mp (Std.TreeMap.Equiv.of_forall_constGet?_eq h)

/-- For every entry of `m` that `g` makes something of, write an entry of `init`. -/
def collect {κ' : Type*} [Ord κ'] (g : κ → α → Option (κ' × β)) (m : BTreeMap κ α)
    (init : BTreeMap κ' β) : BTreeMap κ' β :=
  m.foldl (fun acc k a => match g k a with
    | some (k', b) => acc.insert k' b
    | none => acc) init

section
variable {κ' : Type*} [Ord κ'] [Std.TransOrd κ'] [Std.LawfulEqOrd κ']
  {g : κ → α → Option (κ' × β)} {init : BTreeMap κ' β} {k' : κ'}

omit [Ord κ] [Std.TransOrd κ] [Std.LawfulEqOrd κ] in
private theorem foldl_collect_untouched (l : List (κ × α))
    (h : ∀ p ∈ l, ∀ b, g p.1 p.2 ≠ some (k', b)) (init : BTreeMap κ' β) :
    (l.foldl (fun acc p => match g p.1 p.2 with
      | some (k', b) => acc.insert k' b
      | none => acc) init)[k']? = init[k']? := by
  induction l generalizing init with
  | nil => rfl
  | cons p l ih =>
    rw [foldl_cons, ih (fun q hq => h q (mem_cons_of_mem p hq))]
    rcases hg : g p.1 p.2 with _ | ⟨k'', b⟩
    · rfl
    · have hne : k'' ≠ k' := by
        rintro rfl
        exact h p mem_cons_self b hg
      simp [Std.TreeMap.getElem?_insert, hne]

/-- A key that no entry is written under keeps what stood there. -/
theorem collect_get_untouched (m : BTreeMap κ α) (init : BTreeMap κ' β)
    (h : ∀ k a, m[k]? = some a → ∀ b, g k a ≠ some (k', b)) :
    (collect g m init)[k']? = init[k']? := by
  rw [collect, Std.TreeMap.foldl_eq_foldl_toList]
  refine foldl_collect_untouched m.toList ?_ init
  intro p hp
  exact h p.1 p.2 (Std.TreeMap.mem_toList_iff_getElem?_eq_some.mp hp)

/-- A key that one entry alone is written under has what was written. -/
theorem collect_get {m : BTreeMap κ α} {k : κ} {a : α} {b : β} (init : BTreeMap κ' β)
    (hk : m[k]? = some a) (hg : g k a = some (k', b))
    (halone : ∀ k₁ a₁ b₁, g k₁ a₁ = some (k', b₁) → k₁ = k) :
    (collect g m init)[k']? = some b := by
  rw [collect, Std.TreeMap.foldl_eq_foldl_toList]
  have hmem : (k, a) ∈ m.toList := Std.TreeMap.mem_toList_iff_getElem?_eq_some.mpr hk
  have hdistinct : m.toList.Pairwise (fun p q => p.1 ≠ q.1) :=
    Std.TreeMap.distinct_keys_toList.imp fun h heq => h (by simp [heq])
  obtain ⟨before, after, hsplit⟩ := append_of_mem hmem
  rw [hsplit] at hdistinct ⊢
  rw [foldl_append, foldl_cons]
  -- what comes after has another key
  have hafter : ∀ q ∈ after, ∀ b, g q.1 q.2 ≠ some (k', b) := by
    intro q hq b' hq'
    have hpair := (pairwise_append.mp hdistinct).2.1
    exact (pairwise_cons.mp hpair).1 q hq (halone q.1 q.2 b' hq').symm
  rw [foldl_collect_untouched after hafter]
  simp [hg]

end

/-- A list's elements each once and in order: a `BTreeSet` filled from it. -/
def ordered_set (l : List κ) : List κ := (Std.TreeSet.ofList l compare).toList

theorem mem_ordered_set [BEq κ] [LawfulBEq κ] {l : List κ} {k : κ} :
    k ∈ ordered_set l ↔ k ∈ l := by
  simp [ordered_set]

end

theorem ordered_set_sorted {κ : Type*} [LinearOrder κ] (l : List κ) :
    (ordered_set l).Pairwise (· < ·) := by
  have h := Std.TreeSet.ordered_toList (t := Std.TreeSet.ofList l compare)
  exact h.imp fun h => compare_lt_iff_lt.mp h

/-- A list that is in order already stays as it is. -/
theorem ordered_set_of_sorted {κ : Type*} [LinearOrder κ] {l : List κ}
    (h : l.Pairwise (· < ·)) : ordered_set l = l := by
  have hperm : (ordered_set l).Perm l := by
    refine (perm_ext_iff_of_nodup ?_ ?_).mpr fun _ => mem_ordered_set
    · exact (ordered_set_sorted l).imp fun h => h.ne
    · exact h.imp fun h => h.ne
  exact hperm.eq_of_pairwise (fun _ _ _ _ hab hba => absurd hab hba.asymm) (ordered_set_sorted l) h

end OrdMap
