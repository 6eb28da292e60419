/-
A list of records each under a key of its own, such as the files of a folder: what stands
under a key, and what is there after a record has been put.

With every key there once it does not matter from which end one looks, so what a map
collected from the list holds is what the list does.
-/
import Mathlib.Data.List.Nodup

set_option autoImplicit false

namespace Keyed

open List

variable {α κ : Type*} [DecidableEq κ] {key : α → κ} {l : List α} {a : α} {k : κ}

/-- The record under a key. -/
def get (key : α → κ) (l : List α) (k : κ) : Option α := l.find? fun a => key a = k

/-- What a map collected from the list holds under a key: a later record takes the place of
an earlier one. -/
def collected (key : α → κ) (l : List α) (k : κ) : Option α := get key l.reverse k

/-- A record in the place of the one under its key. -/
def put (key : α → κ) (l : List α) (a : α) : List α := l.filter (fun b => key b ≠ key a) ++ [a]

def put_all (key : α → κ) (l as : List α) : List α := as.foldl (put key) l

theorem get_cons : get key (a :: l) k = if key a = k then some a else get key l k := by
  rw [get, find?_cons]
  by_cases hk : key a = k
  · rw [decide_eq_true hk, if_pos hk]
  · rw [decide_eq_false hk, if_neg hk]
    rfl

theorem get_key (h : get key l k = some a) : key a = k := by
  simpa using find?_some h

theorem mem_of_get (h : get key l k = some a) : a ∈ l := mem_of_find?_eq_some h

theorem get_eq_none_iff : get key l k = none ↔ k ∉ l.map key := by
  rw [get, find?_eq_none, List.mem_map]
  simp only [decide_eq_true_eq]
  exact ⟨fun h ⟨a, ha, hk⟩ => h a ha hk, fun h a ha hk => h ⟨a, ha, hk⟩⟩

/-- Where no two records share a key, a record is the one under its key. -/
theorem get_eq_some_iff (h : (l.map key).Nodup) : get key l k = some a ↔ a ∈ l ∧ key a = k := by
  refine ⟨fun hget => ⟨mem_of_get hget, get_key hget⟩, ?_⟩
  rintro ⟨ha, rfl⟩
  induction l with
  | nil => cases ha
  | cons b l ih =>
    obtain ⟨hb, hl⟩ := nodup_cons.mp h
    rcases mem_cons.mp ha with rfl | ha
    · rw [get_cons, if_pos rfl]
    · have hne : key b ≠ key a := fun heq => hb (heq ▸ List.mem_map_of_mem ha)
      rw [get_cons, if_neg hne]
      exact ih hl ha

theorem collected_eq_get (h : (l.map key).Nodup) (k : κ) : collected key l k = get key l k := by
  have hrev : (l.reverse.map key).Nodup := by
    rw [map_reverse]
    exact nodup_reverse.mpr h
  refine Option.ext fun a => ?_
  rw [collected, get_eq_some_iff hrev, get_eq_some_iff h, mem_reverse]

theorem get_filter (p : α → Bool) (h : ∀ a ∈ l, key a = k → p a = true) :
    get key (l.filter p) k = get key l k := by
  induction l with
  | nil => rfl
  | cons b l ih =>
    have ih := ih fun a ha => h a (mem_cons_of_mem b ha)
    rw [get_cons]
    by_cases hb : key b = k
    · rw [filter_cons_of_pos (h b mem_cons_self hb), get_cons, if_pos hb, if_pos hb]
    · rw [if_neg hb]
      by_cases hp : p b = true
      · rw [filter_cons_of_pos hp, get_cons, if_neg hb]
        exact ih
      · rw [filter_cons_of_neg hp]
        exact ih

theorem get_filter_none (p : α → Bool) (h : ∀ a ∈ l, key a = k → p a = false) :
    get key (l.filter p) k = none := by
  rw [get_eq_none_iff, List.mem_map]
  rintro ⟨a, ha, hk⟩
  obtain ⟨ha, hp⟩ := mem_filter.mp ha
  rw [h a ha hk] at hp
  cases hp

/-- What changes records and leaves them their keys. -/
theorem get_map {f : α → α} (hf : ∀ a, key (f a) = key a) (l : List α) (k : κ) :
    get key (l.map f) k = (get key l k).map f := by
  induction l with
  | nil => rfl
  | cons a l ih =>
    rw [map_cons, get_cons, get_cons, hf, ih]
    by_cases hk : key a = k
    · rw [if_pos hk, if_pos hk]
      rfl
    · rw [if_neg hk, if_neg hk]

theorem get_put : get key (put key l a) k = if key a = k then some a else get key l k := by
  rw [put, get, find?_append]
  by_cases hk : key a = k
  · rw [if_pos hk, find?_eq_none.mpr, Option.none_or, find?_cons_of_pos (by simpa using hk)]
    intro b hb
    have hne := (mem_filter.mp hb).2
    simp only [ne_eq, decide_not, Bool.not_eq_true', decide_eq_false_iff_not] at hne
    simpa [← hk] using hne
  · rw [if_neg hk, find?_cons_of_neg (by simpa using hk), find?_nil, Option.or_none]
    refine get_filter _ fun b _ hb => ?_
    simpa [hb] using Ne.symm hk

theorem nodup_put (h : (l.map key).Nodup) : ((put key l a).map key).Nodup := by
  rw [put, map_append, map_singleton]
  refine ((h.sublist (filter_sublist.map key))).append (nodup_singleton _) ?_
  rw [disjoint_singleton, List.mem_map]
  rintro ⟨b, hb, hk⟩
  simpa [hk] using (mem_filter.mp hb).2

section
variable {as : List α}

theorem nodup_put_all (h : (l.map key).Nodup) : ((put_all key l as).map key).Nodup := by
  induction as generalizing l with
  | nil => exact h
  | cons a as ih => exact ih (nodup_put h)

/-- What none of the records is put under stays. -/
theorem get_put_all_of_not_mem (h : k ∉ as.map key) : get key (put_all key l as) k = get key l k := by
  induction as generalizing l with
  | nil => rfl
  | cons a as ih =>
    rw [map_cons, mem_cons, not_or] at h
    rw [put_all, foldl_cons]
    exact (ih h.2).trans (get_put.trans (if_neg (Ne.symm h.1)))

/-- Records under keys of their own are all there afterwards. -/
theorem get_put_all (h : (as.map key).Nodup) (ha : a ∈ as) :
    get key (put_all key l as) (key a) = some a := by
  induction as generalizing l with
  | nil => cases ha
  | cons b as ih =>
    obtain ⟨hb, has⟩ := nodup_cons.mp h
    rw [put_all, foldl_cons]
    rcases mem_cons.mp ha with rfl | ha
    · exact (get_put_all_of_not_mem hb).trans (get_put.trans (if_pos rfl))
    · exact ih has ha

end

end Keyed
