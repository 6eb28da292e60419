/-
Sorting by a key, stably. Elements of one key keep the order they came in, so a list that was
in some order among equal keys comes out in the order of the keys refined by that one; and a
list in a strict order is the only one of its elements that is.
-/
import Mathlib.Data.List.Pairwise
import Mathlib.Data.List.Perm.Basic
import Mathlib.Data.List.Sort

set_option autoImplicit false

namespace StableSort

open List

variable {α κ : Type*} [LinearOrder κ] {key : α → κ}

/-- Sorted by a key. -/
def sortBy (key : α → κ) (xs : List α) : List α := xs.mergeSort fun a b => key a ≤ key b

theorem sortBy_perm (key : α → κ) (xs : List α) : (sortBy key xs).Perm xs := mergeSort_perm _ _

theorem sortBy_pairwise (key : α → κ) (xs : List α) :
    (sortBy key xs).Pairwise fun a b => key a ≤ key b := by
  have h := @pairwise_mergeSort _ (fun a b => decide (key a ≤ key b))
    (fun a b c hab hbc => by
      rw [decide_eq_true_eq] at hab hbc ⊢
      exact le_trans hab hbc)
    (fun a b => by
      rw [Bool.or_eq_true, decide_eq_true_eq, decide_eq_true_eq]
      exact le_total _ _) xs
  exact h.imp fun hab => by simpa using hab

/-- What is in the order already stays as it is. -/
theorem sortBy_of_pairwise {xs : List α} (h : xs.Pairwise fun a b => key a ≤ key b) :
    sortBy key xs = xs :=
  mergeSort_of_pairwise (h.imp fun hab => by simpa using hab)

/-- Two lists of the same elements in one strict order are the same list. -/
theorem eq_of_strict {κ' : Type*} [Preorder κ'] {xs ys : List α} {rank : α → κ'}
    (hxs : xs.Pairwise fun a b => rank a < rank b) (hys : ys.Pairwise fun a b => rank a < rank b)
    (h : xs.Perm ys) : xs = ys :=
  h.eq_of_pairwise (fun _ _ _ _ hab hba => absurd (lt_trans hab hba) (lt_irrefl _)) hxs hys

/-- A map that keeps the keys may be made before the sorting or after it. -/
theorem sortBy_map {β : Type*} {f : α → β} {key' : β → κ} (h : ∀ a, key' (f a) = key a)
    (xs : List α) : sortBy key' (xs.map f) = (sortBy key xs).map f := by
  refine (map_mergeSort ?_).symm
  intro a _ b _
  rw [h a, h b]

/-- Where the keys differ, the order the elements came in does not matter. -/
theorem sortBy_congr {xs ys : List α} (hkeys : (xs.map key).Nodup) (h : xs.Perm ys) :
    sortBy key xs = sortBy key ys := by
  have hstrict : ∀ {zs : List α}, (zs.map key).Nodup →
      (sortBy key zs).Pairwise fun a b => key a < key b := by
    intro zs hzs
    have hne : (sortBy key zs).Pairwise fun a b => key a ≠ key b := by
      rw [← pairwise_map (R := (· ≠ ·))]
      exact ((sortBy_perm key zs).map key).nodup_iff.mpr hzs
    refine (hne.and (sortBy_pairwise key zs)).imp ?_
    rintro a b ⟨hab, hle⟩
    exact lt_of_le_of_ne hle hab
  refine eq_of_strict (hstrict hkeys) (hstrict ?_) ?_
  · exact ((h.map key).nodup_iff).mp hkeys
  · exact ((sortBy_perm key xs).trans h).trans (sortBy_perm key ys).symm

/-- Two elements the wrong way round. -/
theorem sortBy_swap {a b : α} (h : key b < key a) : sortBy key [a, b] = [b, a] := by
  rw [← @sortBy_of_pairwise _ _ _ key [b, a] (by simpa using h.le)]
  exact sortBy_congr (by simpa using h.ne') (List.Perm.swap _ _ _)

/-- The elements of one key come out in the order they came in. -/
theorem filter_sortBy [DecidableEq κ] (key : α → κ) (xs : List α) (c : κ) :
    (sortBy key xs).filter (fun a => key a = c) = xs.filter fun a => key a = c := by
  have hconst : (xs.filter fun a => key a = c).Pairwise fun a b => decide (key a ≤ key b) = true := by
    rw [pairwise_iff_forall_sublist]
    intro a b hab
    have ha : key a = c := by
      simpa using (mem_filter.mp (hab.subset mem_cons_self)).2
    have hb : key b = c := by
      simpa using (mem_filter.mp (hab.subset (mem_cons_of_mem _ mem_cons_self))).2
    rw [ha, hb, decide_eq_true_eq]
  have hsub : (xs.filter fun a => key a = c).Sublist (sortBy key xs) := by
    refine @sublist_mergeSort _ (fun a b => decide (key a ≤ key b)) _ ?_ ?_ _ hconst
      filter_sublist
    · intro a b d hab hbd
      rw [decide_eq_true_eq] at hab hbd ⊢
      exact le_trans hab hbd
    · intro a b
      rw [Bool.or_eq_true, decide_eq_true_eq, decide_eq_true_eq]
      exact le_total _ _
  have hfilter := hsub.filter fun a => decide (key a = c)
  rw [List.filter_filter, funext fun a => Bool.and_self (decide (key a = c))] at hfilter
  refine (hfilter.eq_of_length ?_).symm
  exact ((sortBy_perm key xs).filter _).length_eq.symm

/-- Sorting refines the order among equal keys by the one there was. -/
theorem sortBy_refines [DecidableEq κ] {R : α → α → Prop} {xs : List α}
    (h : xs.Pairwise fun a b => key a = key b → R a b) :
    (sortBy key xs).Pairwise fun a b => key a < key b ∨ (key a = key b ∧ R a b) := by
  rw [pairwise_iff_forall_sublist]
  intro a b hab
  have hle := pairwise_iff_forall_sublist.mp (sortBy_pairwise key xs) hab
  rcases lt_or_eq_of_le hle with hlt | heq
  · exact Or.inl hlt
  · refine Or.inr ⟨heq, ?_⟩
    have hfilter := hab.filter fun x => decide (key x = key b)
    have hboth : [a, b].filter (fun x => decide (key x = key b)) = [a, b] := by
      simp [heq]
    rw [hboth, filter_sortBy] at hfilter
    exact pairwise_iff_forall_sublist.mp h (hfilter.trans filter_sublist) heq

end StableSort

/-! ## Lists in order of a key

A list is kept in order the way a vector is: `partition_point` finds the place
behind everything that is not later, and `insert` puts the new element there.

`partition_point` is a binary search in the standard library and only says something
on a list whose elements with the property come first. On a list in order that is
where the first later element stands, which is what it is here. -/

namespace SortedList

open List

variable {α β : Type*}

/-- `slice::partition_point`, on a list in which `p` holds up to a place and not after. -/
def partition_point (p : α → Bool) (l : List α) : ℕ := (l.takeWhile p).length

section
variable [LinearOrder β] (key : α → β)

/-- The keys never go down. -/
def Sorted (l : List α) : Prop := l.Pairwise fun a b => key a ≤ key b

/-- `insert(partition_point(key ≤ key x), x)`. -/
def insert_after (x : α) (l : List α) : List α :=
  l.insertIdx (partition_point (fun a => decide (key a ≤ key x)) l) x

variable {key} {x : α} {l : List α}

/-- The recursion the vector operations amount to. -/
theorem insert_after_cons {b : α} :
    insert_after key x (b :: l)
      = if key b ≤ key x then b :: insert_after key x l else x :: b :: l := by
  unfold insert_after partition_point
  by_cases hb : key b ≤ key x
  · rw [if_pos hb, takeWhile_cons_of_pos (by simpa using hb), length_cons,
      insertIdx_succ_cons]
  · rw [if_neg hb, takeWhile_cons_of_neg (by simpa using hb)]
    rfl

theorem insert_after_perm : (insert_after key x l).Perm (x :: l) := by
  induction l with
  | nil => exact List.Perm.refl _
  | cons b l ih =>
    rw [insert_after_cons]
    by_cases hb : key b ≤ key x
    · rw [if_pos hb]
      exact (ih.cons b).trans (List.Perm.swap x b l)
    · rw [if_neg hb]

theorem mem_insert_after {a : α} : a ∈ insert_after key x l ↔ a = x ∨ a ∈ l := by
  rw [insert_after_perm.mem_iff, mem_cons]

theorem Sorted.insert_after (h : Sorted key l) (x : α) :
    Sorted key (SortedList.insert_after key x l) := by
  induction l with
  | nil => exact pairwise_singleton _ _
  | cons b l ih =>
    obtain ⟨hb, hl⟩ := pairwise_cons.mp h
    rw [insert_after_cons]
    by_cases hbx : key b ≤ key x
    · rw [if_pos hbx]
      refine pairwise_cons.mpr ⟨?_, ih hl⟩
      intro a ha
      rcases mem_insert_after.mp ha with rfl | ha
      · exact hbx
      · exact hb a ha
    · rw [if_neg hbx]
      have hxb := (not_le.mp hbx).le
      refine pairwise_cons.mpr ⟨?_, h⟩
      intro a ha
      rcases mem_cons.mp ha with rfl | ha
      · exact hxb
      · exact hxb.trans (hb a ha)

/-- What an element is put in between. -/
theorem insert_after_split (h : Sorted key l) (x : α) :
    ∃ before later, l = before ++ later ∧ insert_after key x l = before ++ x :: later ∧
      (∀ b ∈ before, key b ≤ key x) ∧ ∀ b ∈ later, key x < key b := by
  induction l with
  | nil => exact ⟨[], [], rfl, rfl, by simp, by simp⟩
  | cons b l ih =>
    obtain ⟨hb, hl⟩ := pairwise_cons.mp h
    rw [insert_after_cons]
    by_cases hbx : key b ≤ key x
    · obtain ⟨before, later, rfl, heq, hle, hlt⟩ := ih hl
      rw [if_pos hbx, heq]
      refine ⟨b :: before, later, rfl, rfl, ?_, hlt⟩
      intro a ha
      rcases mem_cons.mp ha with rfl | ha
      · exact hbx
      · exact hle a ha
    · rw [if_neg hbx]
      refine ⟨[], b :: l, rfl, rfl, by simp, ?_⟩
      intro a ha
      rcases mem_cons.mp ha with rfl | ha
      · exact not_le.mp hbx
      · exact lt_of_lt_of_le (not_le.mp hbx) (hb a ha)

/-- Where an element stands, counted from the end: what is put in before it does not
move it, and what is put in behind it does. -/
theorem onward_insert_after {before later : List α} {r : α}
    (h : Sorted key (before ++ r :: later)) (x : α) :
    ∃ before' later', insert_after key x (before ++ r :: later) = before' ++ r :: later' ∧
      (∀ a ∈ before', a = x ∨ a ∈ before) ∧
      (key r ≤ key x → later'.length = later.length + 1) ∧
      (¬ key r ≤ key x → later'.length = later.length) := by
  induction before with
  | nil =>
    rw [nil_append, insert_after_cons]
    by_cases hr : key r ≤ key x
    · rw [if_pos hr]
      exact ⟨[], insert_after key x later, rfl, by simp, fun _ => insert_after_perm.length_eq,
        fun h => absurd hr h⟩
    · rw [if_neg hr]
      exact ⟨[x], later, rfl, by simp, fun h => absurd h hr, fun _ => rfl⟩
  | cons b before ih =>
    obtain ⟨hb, hrest⟩ := pairwise_cons.mp h
    obtain ⟨before', later', heq, hmem, hlen⟩ := ih hrest
    rw [cons_append, insert_after_cons]
    by_cases hbx : key b ≤ key x
    · rw [if_pos hbx, heq]
      refine ⟨b :: before', later', rfl, ?_, hlen⟩
      intro a ha
      rcases mem_cons.mp ha with rfl | ha
      · exact Or.inr mem_cons_self
      · exact (hmem a ha).imp_right (mem_cons_of_mem b)
    -- `r` is no earlier than `b`, so it is behind the place too
    · have hbr : key b ≤ key r := hb r (mem_append_right before mem_cons_self)
      have hrx : ¬ key r ≤ key x := fun hle => hbx (hbr.trans hle)
      rw [if_neg hbx]
      refine ⟨x :: b :: before, later, rfl, ?_, fun h => absurd h hrx, fun _ => rfl⟩
      intro a ha
      exact mem_cons.mp ha

end

/-! ## The newest of a list -/

/-- `drain(0..overflow)`: only the last `cap` stay. -/
def keep_last (cap : ℕ) (l : List α) : List α := l.drop (l.length - cap)

variable {l : List α} {cap : ℕ}

theorem length_keep_last_le : (keep_last cap l).length ≤ cap := by
  rw [keep_last, length_drop]
  omega

theorem length_keep_last (h : cap ≤ l.length) : (keep_last cap l).length = cap := by
  rw [keep_last, length_drop]
  omega

theorem keep_last_of_le (h : l.length ≤ cap) : keep_last cap l = l := by
  rw [keep_last, Nat.sub_eq_zero_of_le h, drop_zero]

/-- An element that stands within reach of the end stays. -/
theorem mem_keep_last {before later : List α} {r : α} (h : later.length < cap) :
    r ∈ keep_last cap (before ++ r :: later) := by
  have hle : (before ++ r :: later).length - cap ≤ before.length := by
    rw [length_append, length_cons]
    omega
  rw [keep_last, drop_append_of_le_length hle]
  exact mem_append_right _ mem_cons_self

section
variable [LinearOrder β] {key : α → β}

theorem Sorted.keep_last (h : Sorted key l) : Sorted key (SortedList.keep_last cap l) :=
  h.sublist (drop_sublist _ _)

/-- What is dropped is no later than anything that stays, and then the list is full. -/
theorem Sorted.of_dropped (h : Sorted key l) {a : α} (ha : a ∈ l)
    (hdrop : a ∉ SortedList.keep_last cap l) :
    (SortedList.keep_last cap l).length = cap ∧ ∀ b ∈ SortedList.keep_last cap l, key a ≤ key b := by
  have hcap : cap ≤ l.length := by
    by_contra hlt
    rw [keep_last_of_le (by omega)] at hdrop
    exact hdrop ha
  refine ⟨length_keep_last hcap, ?_⟩
  intro b hb
  unfold SortedList.keep_last at hb hdrop
  have hsplit := take_append_drop (l.length - cap) l
  unfold Sorted at h
  rw [← hsplit] at h ha
  have htake := (mem_append.mp ha).resolve_right hdrop
  exact (pairwise_append.mp h).2.2 a htake b hb

end

end SortedList
