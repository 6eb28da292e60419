/-
Maps kept in the order of their source, as a YAML or JSON document has them: a list of
keys with their values. Looking a key up finds its first entry, writing it changes that
entry in place or appends one, and deleting it leaves no entry of the key.

A parser refuses a map with a key twice, so for a map that was parsed the list has every
key once.
-/
import Mathlib.Tactic.Common

set_option autoImplicit false

/-- A map in order. -/
abbrev Items (α : Type*) := List (String × α)

namespace Items

open List Option

variable {α : Type*} {key other : String} {v : α} {items : Items α}

def get (key : String) : Items α → Option α
  | [] => none
  | (k, v) :: rest => if k = key then some v else get key rest

def has (key : String) (items : Items α) : Bool := (items.get key).isSome

def set (key : String) (v : α) : Items α → Items α
  | [] => [(key, v)]
  | (k, w) :: rest => if k = key then (k, v) :: rest else (k, w) :: set key v rest

def delete (key : String) (items : Items α) : Items α := items.filter fun item => item.1 ≠ key

def keys (items : Items α) : List String := items.map Prod.fst

/-! ## Lookups -/

@[simp] theorem get_nil : get key ([] : Items α) = none := rfl

theorem get_cons_self (rest : Items α) : get key ((key, v) :: rest) = some v := if_pos rfl

theorem get_cons_other (h : other ≠ key) (rest : Items α) :
    get key ((other, v) :: rest) = get key rest := if_neg h

theorem get_eq_none : items.get key = none ↔ key ∉ items.keys := by
  induction items with
  | nil => simp [keys]
  | cons item rest ih =>
    obtain ⟨k, w⟩ := item
    have hkeys : keys ((k, w) :: rest) = k :: keys rest := rfl
    rw [hkeys, mem_cons, not_or]
    by_cases h : k = key
    · rw [h, get_cons_self]
      simp
    · rw [get_cons_other h, ih]
      exact ⟨fun hno => ⟨Ne.symm h, hno⟩, fun hno => hno.2⟩

theorem has_eq_true : items.has key = true ↔ key ∈ items.keys := by
  rw [has, isSome_iff_ne_none, ne_eq, get_eq_none, not_not]

theorem has_eq_false : items.has key = false ↔ items.get key = none := by
  rw [has, isSome_eq_false_iff, isNone_iff_eq_none]

theorem get_append (more : Items α) : get key (items ++ more) = (get key items).or (get key more) := by
  induction items with
  | nil => rfl
  | cons item rest ih =>
    obtain ⟨k, w⟩ := item
    rw [cons_append]
    by_cases h : k = key
    · rw [h, get_cons_self, get_cons_self]
      rfl
    · rw [get_cons_other h, get_cons_other h, ih]

/-! ## Writing and deleting -/

@[simp] theorem get_set_self : (items.set key v).get key = some v := by
  induction items with
  | nil => exact get_cons_self _
  | cons item rest ih =>
    obtain ⟨k, w⟩ := item
    rw [set]
    by_cases h : k = key
    · rw [if_pos h, h, get_cons_self]
    · rw [if_neg h, get_cons_other h, ih]

theorem get_set_other (h : other ≠ key) : (items.set key v).get other = items.get other := by
  induction items with
  | nil => exact get_cons_other (Ne.symm h) _
  | cons item rest ih =>
    obtain ⟨k, w⟩ := item
    rw [set]
    by_cases hk : k = key
    · rw [if_pos hk, hk, get_cons_other (Ne.symm h), get_cons_other (Ne.symm h)]
    · rw [if_neg hk]
      by_cases hother : k = other
      · rw [hother, get_cons_self, get_cons_self]
      · rw [get_cons_other hother, get_cons_other hother, ih]

theorem get_set : (items.set key v).get other = if other = key then some v else items.get other := by
  by_cases h : other = key
  · rw [h, get_set_self, if_pos rfl]
  · rw [get_set_other h, if_neg h]

theorem mem_of_get (h : items.get key = some v) : (key, v) ∈ items := by
  induction items with
  | nil => exact nomatch h
  | cons item rest ih =>
    obtain ⟨k, w⟩ := item
    by_cases hk : k = key
    · rw [hk, get_cons_self] at h
      rw [hk, some.inj h]
      exact mem_cons_self ..
    · rw [get_cons_other hk] at h
      exact mem_cons_of_mem _ (ih h)

/-- Writing brings in no value but the one that is written. -/
theorem mem_set {item : String × α} (h : item ∈ items.set key v) : item.2 = v ∨ item ∈ items := by
  induction items with
  | nil =>
    rw [mem_singleton.mp h]
    exact .inl rfl
  | cons first rest ih =>
    obtain ⟨k, w⟩ := first
    rw [set] at h
    split_ifs at h
    · rcases mem_cons.mp h with rfl | hin
      · exact .inl rfl
      · exact .inr (mem_cons_of_mem _ hin)
    · rcases mem_cons.mp h with rfl | hin
      · exact .inr (mem_cons_self ..)
      · exact (ih hin).imp_right (mem_cons_of_mem _)

/-- Filtering by key keeps a key's first entry or all of them none. -/
theorem get_filter (p : String → Bool) :
    get key (items.filter fun item => p item.1) = if p key then items.get key else none := by
  induction items with
  | nil => simp
  | cons item rest ih =>
    obtain ⟨k, w⟩ := item
    by_cases hp : p k = true
    · have hcons : List.filter (fun item => p item.1) ((k, w) :: rest)
          = (k, w) :: List.filter (fun item => p item.1) rest := filter_cons_of_pos hp
      rw [hcons]
      by_cases hk : k = key
      · rw [hk, get_cons_self, get_cons_self, if_pos (hk ▸ hp)]
      · rw [get_cons_other hk, get_cons_other hk, ih]
    · have hcons : List.filter (fun item => p item.1) ((k, w) :: rest)
          = List.filter (fun item => p item.1) rest := filter_cons_of_neg hp
      rw [hcons, ih]
      by_cases hk : k = key
      · rw [if_neg (hk ▸ hp), if_neg (hk ▸ hp)]
      · rw [get_cons_other hk]

@[simp] theorem get_delete_self : (items.delete key).get key = none := by
  have hfilter := @get_filter _ key items fun k => decide (k ≠ key)
  rw [delete, hfilter, if_neg (by simp)]

theorem get_delete_other (h : other ≠ key) : (items.delete key).get other = items.get other := by
  have hfilter := @get_filter _ other items fun k => decide (k ≠ key)
  rw [delete, hfilter, if_pos (by simpa using h)]

theorem get_delete : (items.delete key).get other = if other = key then none else items.get other := by
  by_cases h : other = key
  · rw [h, get_delete_self, if_pos rfl]
  · rw [get_delete_other h, if_neg h]

/-- A new key goes to the end. -/
theorem set_new (h : items.get key = none) : items.set key v = items ++ [(key, v)] := by
  induction items with
  | nil => rfl
  | cons item rest ih =>
    obtain ⟨k, w⟩ := item
    rw [set]
    by_cases hk : k = key
    · rw [hk, get_cons_self] at h
      exact nomatch h
    · rw [get_cons_other hk] at h
      rw [if_neg hk, ih h, cons_append]

/-- From the other end a key has its last value, and is there just as well. -/
theorem has_reverse (items : Items α) : Items.has key items.reverse = items.has key := by
  rw [Bool.eq_iff_iff, has_eq_true, has_eq_true, keys, map_reverse, mem_reverse]
  rfl

/-- With every key once, filtering keeps an entry or drops it. -/
theorem get_filter_nodup (p : String × α → Bool) (h : items.keys.Nodup) :
    get key (items.filter p) = (items.get key).filter fun v => p (key, v) := by
  induction items with
  | nil => rfl
  | cons item rest ih =>
    obtain ⟨k, w⟩ := item
    have hkeys : keys ((k, w) :: rest) = k :: keys rest := rfl
    rw [hkeys, nodup_cons] at h
    by_cases hp : p (k, w) = true
    · rw [filter_cons_of_pos hp]
      by_cases hk : k = key
      · rw [hk, get_cons_self, get_cons_self, filter_some, if_pos (hk ▸ hp)]
      · rw [get_cons_other hk, get_cons_other hk, ih h.2]
    · rw [filter_cons_of_neg hp, ih h.2]
      by_cases hk : k = key
      · have hnone : get key rest = none := get_eq_none.mpr (hk ▸ h.1)
        rw [hk, get_cons_self, hnone, filter_some, if_neg (hk ▸ hp)]
        rfl
      · rw [get_cons_other hk]

theorem nodup_set (h : items.keys.Nodup) : (items.set key v).keys.Nodup := by
  induction items with
  | nil => simp [set, keys]
  | cons item rest ih =>
    obtain ⟨k, w⟩ := item
    have hkeys : ∀ (k : String) (w : α) (rest : Items α), keys ((k, w) :: rest) = k :: keys rest := fun _ _ _ => rfl
    rw [hkeys, nodup_cons] at h
    rw [set]
    by_cases hk : k = key
    · rw [if_pos hk, hkeys, nodup_cons]
      exact h
    · rw [if_neg hk, hkeys, nodup_cons]
      refine ⟨?_, ih h.2⟩
      rw [← get_eq_none, get_set_other hk, get_eq_none]
      exact h.1

end Items
