/-
A list of labels, and the positions each label stands at.

Elements that are sorted into groups one after the other can be told by the number of
the group each went to. The groups are then the positions of each number (`classes`), a
partition of all positions; and leaving one number out leaves the other groups as they
are, up to the places the positions move to (`classes_without`).
-/
import Mathlib.Data.List.GetD
import Mathlib.Data.List.Induction
import Mathlib.Data.List.Nodup
import Mathlib.Data.List.Perm.Basic

set_option autoImplicit false

namespace Classes

open List Option

/-- The positions the label `k` stands at, in order. -/
def positions (k : ℕ) (labels : List ℕ) : List ℕ :=
  (labels.zipIdx.filter fun x => x.1 = k).map fun x => x.2

/-- The positions of each of `n` labels. -/
def classes (n : ℕ) (labels : List ℕ) : List (List ℕ) :=
  (List.range n).map fun k => positions k labels

/-- The positions that hold another label. -/
def others (k : ℕ) (labels : List ℕ) : List ℕ :=
  (labels.zipIdx.filter fun x => x.1 ≠ k).map fun x => x.2

variable {labels : List ℕ} {n k l : ℕ}

theorem mem_positions {i : ℕ} : i ∈ positions k labels ↔ labels[i]? = some k := by
  unfold positions
  rw [List.mem_map]
  constructor
  · rintro ⟨⟨l, j⟩, hmem, rfl⟩
    obtain ⟨hthere, hl⟩ := mem_filter.mp hmem
    obtain rfl : l = k := by simpa using hl
    exact mem_zipIdx_iff_getElem?.mp hthere
  · intro h
    exact ⟨(k, i), mem_filter.mpr ⟨mem_zipIdx_iff_getElem?.mpr h, by simp⟩, rfl⟩

/-- Picking by place and picking by what stands there is the same. -/
theorem filter_places (p : ℕ → Bool) (labels : List ℕ) :
    (labels.zipIdx.filter fun x => p x.1).map (fun x => x.2) =
      (List.range labels.length).filter fun i => (labels[i]?).any p := by
  have hrange : labels.zipIdx.map (fun x => x.2) = List.range labels.length := by
    rw [range_eq_range']
    exact zipIdx_map_snd 0 labels
  rw [← hrange, List.filter_map]
  refine congrArg _ (filter_congr ?_)
  intro x hx
  rw [Function.comp_apply, mem_zipIdx_iff_getElem?.mp hx, any_some]

theorem positions_eq (k : ℕ) (labels : List ℕ) : positions k labels =
    (List.range labels.length).filter fun i => (labels[i]?).any fun l => l = k :=
  filter_places (fun l => l = k) labels

/-- The other positions are the ones that are not among those of `k`. -/
theorem others_eq (k : ℕ) (labels : List ℕ) :
    others k labels = (List.range labels.length).filter fun i => i ∉ positions k labels := by
  refine (filter_places (fun l => l ≠ k) labels).trans (filter_congr ?_)
  intro i hi
  rw [mem_range] at hi
  rw [getElem?_eq_getElem hi, any_some, decide_eq_decide, mem_positions,
    getElem?_eq_getElem hi, some_inj]

theorem positions_concat (k l : ℕ) (labels : List ℕ) : positions k (labels ++ [l]) =
    if l = k then positions k labels ++ [labels.length] else positions k labels := by
  unfold positions
  rw [zipIdx_append, filter_append, map_append]
  by_cases h : l = k
  · simp [h]
  · simp [h]

theorem others_concat (k l : ℕ) (labels : List ℕ) : others k (labels ++ [l]) =
    if l = k then others k labels else others k labels ++ [labels.length] := by
  unfold others
  rw [zipIdx_append, filter_append, map_append]
  by_cases h : l = k
  · simp [h]
  · simp [h]

theorem positions_nodup (k : ℕ) (labels : List ℕ) : (positions k labels).Nodup := by
  induction labels using List.reverseRecOn with
  | nil => exact nodup_nil
  | append_singleton labels l ih =>
    rw [positions_concat]
    split_ifs
    · refine nodup_append.mpr ⟨ih, nodup_singleton _, ?_⟩
      intro i hi j hj heq
      have hlt := (List.getElem?_eq_some_iff.mp (mem_positions.mp hi)).1
      rw [mem_singleton] at hj
      omega
    · exact ih

theorem classes_getElem? (n : ℕ) (labels : List ℕ) (k : ℕ) :
    (classes n labels)[k]? = if k < n then some (positions k labels) else none := by
  unfold classes
  rw [getElem?_map]
  split_ifs with h
  · rw [getElem?_range h]
    rfl
  · rw [getElem?_eq_none (by rw [length_range]; omega)]
    rfl

@[simp] theorem classes_length (n : ℕ) (labels : List ℕ) : (classes n labels).length = n := by
  rw [classes, length_map, length_range]

/-- A label of the next element: its position goes to the class of that label. -/
theorem classes_concat (n l : ℕ) (labels : List ℕ) : classes n (labels ++ [l]) =
    (classes n labels).modify l fun c => c ++ [labels.length] := by
  refine ext_getElem? ?_
  intro k
  rw [getElem?_modify, classes_getElem?, classes_getElem?, positions_concat]
  by_cases hk : k < n
  · by_cases hl : l = k
    · simp [hk, hl]
    · simp [hk, hl]
  · simp [hk]

theorem positions_eq_nil (hk : ∀ l ∈ labels, l ≠ k) : positions k labels = [] := by
  refine eq_nil_iff_forall_not_mem.mpr ?_
  intro i hi
  exact hk k (mem_of_getElem? (mem_positions.mp hi)) rfl

/-- A label that is new makes a class of its own. -/
theorem classes_concat_new (hlt : ∀ l ∈ labels, l < n) :
    classes (n + 1) (labels ++ [n]) = classes n labels ++ [[labels.length]] := by
  unfold classes
  rw [range_succ, map_append]
  refine congrArg₂ _ ?_ ?_
  · refine map_congr_left ?_
    intro k hk
    rw [mem_range] at hk
    rw [positions_concat, if_neg (by omega)]
  · rw [map_singleton, positions_concat, if_pos rfl,
      positions_eq_nil fun l hl => Nat.ne_of_lt (hlt l hl)]
    rfl

/-- Every position is in one class and in one only. -/
theorem classes_partition (hlt : ∀ l ∈ labels, l < n) :
    (classes n labels).flatten.Perm (List.range labels.length) := by
  refine (perm_ext_iff_of_nodup ?_ nodup_range).mpr ?_
  · refine nodup_flatten.mpr ⟨?_, ?_⟩
    · intro c hc
      obtain ⟨k, -, rfl⟩ := List.mem_map.mp hc
      exact positions_nodup k labels
    · refine pairwise_map.mpr (pairwise_lt_range.imp ?_)
      intro j k hjk i hj hk
      rw [mem_positions] at hj hk
      have := some.inj (hj.symm.trans hk)
      omega
  · intro i
    rw [mem_flatten, mem_range]
    constructor
    · rintro ⟨c, hc, hi⟩
      obtain ⟨k, -, rfl⟩ := List.mem_map.mp hc
      exact (List.getElem?_eq_some_iff.mp (mem_positions.mp hi)).1
    · intro hi
      exact ⟨_, List.mem_map.mpr ⟨labels[i], mem_range.mpr (hlt _ (getElem_mem hi)), rfl⟩,
        mem_positions.mpr (getElem?_eq_getElem hi)⟩

/-! ## Without one of the labels -/

/-- The number a label has once `k` is left out. -/
def renumber (k l : ℕ) : ℕ := if l < k then l else l - 1

theorem renumber_inj {k l m : ℕ} (hl : l ≠ k) (hm : m ≠ k) (h : renumber k l = renumber k m) :
    l = m := by
  unfold renumber at h
  split_ifs at h <;> omega

/-- The labels that are left, with their new numbers. -/
def without (k : ℕ) (labels : List ℕ) : List ℕ :=
  (labels.filter fun l => l ≠ k).map (renumber k)

theorem without_concat (k l : ℕ) (labels : List ℕ) : without k (labels ++ [l]) =
    if l = k then without k labels else without k labels ++ [renumber k l] := by
  unfold without
  rw [filter_append, map_append]
  by_cases h : l = k
  · simp [h]
  · simp [h]

theorem length_without (k : ℕ) (labels : List ℕ) :
    (without k labels).length = (others k labels).length := by
  induction labels using List.reverseRecOn with
  | nil => rfl
  | append_singleton labels l ih =>
    rw [without_concat, others_concat]
    split_ifs
    · exact ih
    · rw [length_append, length_append, ih]
      rfl

/-- A label that is left stands where it stood. -/
theorem positions_without (hl : l ≠ k) (labels : List ℕ) :
    (positions (renumber k l) (without k labels)).map (fun i => (others k labels).getD i 0) =
      positions l labels := by
  induction labels using List.reverseRecOn with
  | nil => rfl
  | append_singleton labels m ih =>
    rw [without_concat, others_concat, positions_concat]
    by_cases hm : m = k
    · rw [if_pos hm, if_pos hm, if_neg (by omega), ih]
    · rw [if_neg hm, if_neg hm, positions_concat]
      have hold : (positions (renumber k l) (without k labels)).map
          (fun i => (others k labels ++ [labels.length]).getD i 0) = positions l labels := by
        rw [← ih]
        refine map_congr_left ?_
        intro i hi
        have hlt := (List.getElem?_eq_some_iff.mp (mem_positions.mp hi)).1
        rw [length_without] at hlt
        rw [getD_append _ _ _ _ hlt]
      by_cases heq : m = l
      · rw [if_pos (by rw [heq]), if_pos heq, map_append, hold, map_singleton,
          length_without, getD_append_right _ _ _ _ (Nat.le_refl _), Nat.sub_self]
        rfl
      · rw [if_neg fun h => heq (renumber_inj hm hl h), if_neg heq, hold]

/-- The classes that are left are the ones there were, at the places their positions
moved from. -/
theorem classes_without (hk : k < n) (labels : List ℕ) :
    (classes (n - 1) (without k labels)).map
        (List.map fun i => (others k labels).getD i 0) = (classes n labels).eraseIdx k := by
  refine ext_getElem? ?_
  intro j
  rw [getElem?_map, classes_getElem?, getElem?_eraseIdx, classes_getElem?,
    classes_getElem?]
  by_cases hj : j < k
  · have hnum : renumber k j = j := if_pos hj
    rw [if_pos hj, if_pos (by omega), if_pos (by omega), map_some]
    have hsame := positions_without (show j ≠ k by omega) labels
    rw [hnum] at hsame
    rw [hsame]
  · have hnum : renumber k (j + 1) = j := if_neg (by omega)
    rw [if_neg hj]
    by_cases hlt : j + 1 < n
    · rw [if_pos (by omega), if_pos hlt, map_some]
      have hsame := positions_without (show j + 1 ≠ k by omega) labels
      rw [hnum] at hsame
      rw [hsame]
    · rw [if_neg (by omega), if_neg hlt]
      rfl

end Classes
