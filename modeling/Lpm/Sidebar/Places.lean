/-
Where the projects of a sidebar layout stand: the loose slots of the top level and the
members of the folders. What every move does to how often a name stands there, and what the
flattened project order says of it.
-/
import Lpm.Sidebar.Layout

set_option autoImplicit false

namespace Lpm.Sidebar

open List Option

open RustText Distinct

/-! ## Places -/

/-- A token that is read as a project's name. -/
def plain (token : Str) : Bool := (truthy (groupIdOf token)).isNone && !isPeerToken token

variable (layout : SidebarLayout)

/-- Every project of the layout, once for every place it has. -/
def SidebarLayout.places : List Str :=
  layout.order.filter plain ++ layout.groups.flatMap ProjectGroup.members

/-- How many places a name has. -/
def SidebarLayout.times (name : Str) : ℕ := layout.places.count name

/-- A layout in which every folder has an id of its own and one slot, and no member is read as
a slot. -/
structure Whole (layout : SidebarLayout) : Prop where
  ids : (layout.groups.map ProjectGroup.id).Nodup
  slot : ∀ g ∈ layout.groups, layout.order.count (groupToken g.id) = 1
  names : ∀ g ∈ layout.groups, ∀ m ∈ g.members, plain m = true

theorem groupToken_eq (id : Str) : groupToken id = "group:".toList ++ id := rfl

theorem groupIdOf_groupToken (id : Str) : groupIdOf (groupToken id) = some id := by
  rw [groupIdOf, groupToken_eq, strip_prefix, if_pos (List.isPrefixOf_iff_prefix.mpr (prefix_append _ _)),
    drop_left]

theorem truthy_groupToken {id : Str} (h : id ≠ []) : truthy (groupIdOf (groupToken id)) = some id := by
  rw [groupIdOf_groupToken, truthy, filter_some, if_pos (by simpa using h)]

/-- The token a folder's id is read from is that folder's. -/
theorem eq_groupToken {token gid : Str} (h : truthy (groupIdOf token) = some gid) :
    token = groupToken gid := by
  rw [truthy, filter_eq_some_iff] at h
  have hstrip := h.1
  rw [groupIdOf, strip_prefix] at hstrip
  by_cases hpre : ("group:".toList.isPrefixOf token) = true
  · rw [if_pos hpre] at hstrip
    obtain ⟨rest, hrest⟩ := isPrefixOf_iff_prefix.mp hpre
    rw [← hrest, drop_left] at hstrip
    rw [← some.inj hstrip, ← hrest, groupToken_eq]
  · rw [if_neg hpre] at hstrip
    exact nomatch hstrip

theorem groupToken_injective {a b : Str} (h : groupToken a = groupToken b) : a = b :=
  append_cancel_left h

theorem plain_groupToken {id : Str} (h : id ≠ []) : plain (groupToken id) = false := by
  rw [plain, truthy_groupToken h]
  rfl

theorem ne_groupToken {id token : Str} (h : id ≠ []) (hplain : plain token = true) :
    token ≠ groupToken id := by
  intro heq
  rw [heq, plain_groupToken h] at hplain
  exact nomatch hplain

/-- What is classified as a project is read as one, but for the bare `peer:`. -/
theorem plain_of_truthy {token : Str} (hgroup : truthy (groupIdOf token) = none)
    (hpeer : truthy (peerSlugOfToken token) = none) (hbare : token ≠ "peer:".toList) :
    plain token = true := by
  rw [plain, hgroup]
  by_cases hpre : isPeerToken token = true
  · have hstart : "peer:".toList.isPrefixOf token = true := hpre
    obtain ⟨rest, hrest⟩ := isPrefixOf_iff_prefix.mp hstart
    rw [peerSlugOfToken, strip_prefix, if_pos hstart, ← hrest, drop_left, truthy,
      filter_some] at hpeer
    by_cases hnil : rest = []
    · rw [hnil, append_nil] at hrest
      exact absurd hrest.symm hbare
    · rw [if_pos (by simpa using hnil)] at hpeer
      exact nomatch hpeer
  · rw [Bool.not_eq_true] at hpre
    rw [hpre]
    rfl

variable {groups : List ProjectGroup} {name : Str}

theorem membership_iff :
    membership groups name = true ↔ ∃ g ∈ groups, name ∈ g.members := by
  simp [membership]

theorem membership_iff_mem :
    membership groups name = true ↔ name ∈ groups.flatMap ProjectGroup.members := by
  rw [membership_iff, mem_flatMap]

theorem times_eq (layout : SidebarLayout) (name : Str) :
    layout.times name = (layout.order.filter plain).count name
      + (layout.groups.flatMap ProjectGroup.members).count name := by
  rw [SidebarLayout.times, SidebarLayout.places, count_append]

variable {layout : SidebarLayout}

theorem times_pos : 0 < layout.times name ↔ name ∈ layout.places :=
  count_pos_iff

theorem mem_places :
    name ∈ layout.places ↔ (name ∈ layout.order ∧ plain name = true) ∨ membership layout.groups name = true := by
  rw [SidebarLayout.places, mem_append, mem_filter, membership_iff_mem]

theorem Whole.plain_of_mem (h : Whole layout)
    (hin : name ∈ layout.places) : plain name = true := by
  rcases mem_places.mp hin with hloose | hmember
  · exact hloose.2
  · obtain ⟨g, hg, hm⟩ := membership_iff.mp hmember
    exact h.names g hg name hm

/-! ## Lists -/

variable (xs : List Str)

theorem perm_insertAt (i : ℤ) (x : Str) : (insertAt xs i x).Perm (x :: xs) := by
  rw [insertAt]
  refine perm_insertIdx x xs ?_
  rw [clamp]
  omega

theorem count_without (x y : Str) :
    (without xs x).count y = if y = x then 0 else xs.count y := by
  by_cases h : y = x
  · rw [if_pos h, count_eq_zero, without]
    intro hin
    exact absurd h (by simpa using (mem_filter.mp hin).2)
  · rw [if_neg h, without, count_filter (by simpa using h)]

theorem mem_without {xs : List Str} {x y : Str} : y ∈ without xs x ↔ y ∈ xs ∧ y ≠ x := by
  simp [without]

theorem without_of_not_mem {xs : List Str} {x : Str} (h : x ∉ xs) : without xs x = xs := by
  rw [without, filter_eq_self]
  intro y hy
  simpa using fun heq : y = x => h (heq ▸ hy)

theorem filter_without (x : Str) :
    (without xs x).filter plain = without (xs.filter plain) x := by
  rw [without, without, filter_comm]

/-! ## Taking a name out and putting it in -/

theorem detach_groups (layout : SidebarLayout) (name : Str) :
    (detach layout name).groups
      = layout.groups.map fun g => { g with members := without g.members name } := by
  rw [detach]
  refine map_congr_left fun g _ => ?_
  by_cases h : name ∈ g.members
  · rw [if_pos h]
  · rw [if_neg h, without_of_not_mem h]

theorem members_detach (layout : SidebarLayout) (name : Str) :
    (detach layout name).groups.flatMap ProjectGroup.members
      = without (layout.groups.flatMap ProjectGroup.members) name := by
  rw [detach_groups, flatMap_map, without, filter_flatMap]
  rfl

theorem ids_detach (layout : SidebarLayout) (name : Str) :
    (detach layout name).groups.map ProjectGroup.id = layout.groups.map ProjectGroup.id := by
  rw [detach_groups, List.map_map]
  rfl

theorem places_detach (layout : SidebarLayout) (name : Str) :
    (detach layout name).places = without layout.places name := by
  rw [SidebarLayout.places, members_detach, SidebarLayout.places, without, without,
    filter_append, detach, filter_without, without]

theorem ids_inGroup (groups : List ProjectGroup) (groupId : Str) (f : List Str → List Str) :
    (inGroup groups groupId f).map ProjectGroup.id = groups.map ProjectGroup.id := by
  rw [inGroup, List.map_map]
  refine map_congr_left fun g _ => ?_
  rw [Function.comp_apply]
  split_ifs <;> rfl

variable {g : ProjectGroup}

/-- A folder whose id no other has is the only one that changes. -/
theorem count_inGroup (f : List Str → List Str)
    (hids : (groups.map ProjectGroup.id).Nodup) (hg : g ∈ groups) (n : Str) :
    ((inGroup groups g.id f).flatMap ProjectGroup.members).count n + g.members.count n
      = (f g.members).count n + (groups.flatMap ProjectGroup.members).count n := by
  induction groups with
  | nil => exact nomatch hg
  | cons head rest ih =>
    rw [map_cons, nodup_cons] at hids
    have hcons : inGroup (head :: rest) g.id f
        = (if head.id = g.id then { head with members := f head.members } else head)
          :: inGroup rest g.id f := rfl
    rw [hcons, flatMap_cons, flatMap_cons, count_append, count_append]
    by_cases hhead : head.id = g.id
    · have hsame : inGroup rest g.id f = rest := by
        rw [inGroup]
        conv_rhs => rw [← List.map_id rest]
        refine map_congr_left fun x hx => ?_
        rw [if_neg, id]
        intro heq
        exact hids.1 (List.mem_map.mpr ⟨x, hx, heq.trans hhead.symm⟩)
      have heq : g = head := by
        rcases mem_cons.mp hg with heq | hin
        · exact heq
        · exact absurd (List.mem_map.mpr ⟨g, hin, hhead.symm⟩) hids.1
      rw [if_pos hhead, hsame, heq]
      dsimp only
      omega
    · have hin : g ∈ rest := (mem_cons.mp hg).resolve_left fun heq => hhead (heq ▸ rfl)
      have hrest := ih hids.2 hin
      rw [if_neg hhead]
      omega

/-- And so is the one that goes. -/
theorem count_removed
    (hids : (groups.map ProjectGroup.id).Nodup) (hg : g ∈ groups) (n : Str) :
    ((groups.filter fun x => x.id ≠ g.id).flatMap ProjectGroup.members).count n + g.members.count n
      = (groups.flatMap ProjectGroup.members).count n := by
  induction groups with
  | nil => exact nomatch hg
  | cons head rest ih =>
    rw [map_cons, nodup_cons] at hids
    rw [flatMap_cons, count_append]
    by_cases hhead : head.id = g.id
    · have hsame : (rest.filter fun x => x.id ≠ g.id) = rest := by
        rw [filter_eq_self]
        intro x hx
        have hne : x.id ≠ g.id := fun heq =>
          hids.1 (List.mem_map.mpr ⟨x, hx, heq.trans hhead.symm⟩)
        simpa using hne
      have heq : g = head := by
        rcases mem_cons.mp hg with heq | hin
        · exact heq
        · exact absurd (List.mem_map.mpr ⟨g, hin, hhead.symm⟩) hids.1
      rw [filter_cons_of_neg (by simpa using hhead), hsame, heq]
      omega
    · have hin : g ∈ rest := (mem_cons.mp hg).resolve_left fun heq => hhead (heq ▸ rfl)
      have hrest := ih hids.2 hin
      rw [filter_cons_of_pos (by simpa using hhead), flatMap_cons, count_append]
      omega

/-! ## How often a name stands -/

theorem times_detach (layout : SidebarLayout) (name n : Str) :
    (detach layout name).times n = if n = name then 0 else layout.times n := by
  rw [SidebarLayout.times, places_detach, count_without]
  rfl

theorem times_insert_loose (layout : SidebarLayout) (i : ℤ) (h : plain name = true)
    (n : Str) : SidebarLayout.times ⟨insertAt layout.order i name, layout.groups⟩ n
      = layout.times n + if n = name then 1 else 0 := by
  have hperm := ((perm_insertAt layout.order i name).filter plain).count_eq n
  rw [filter_cons_of_pos h, count_cons] at hperm
  rw [times_eq, times_eq]
  dsimp only
  rw [hperm]
  have hif : (if (name == n) = true then 1 else 0) = (if n = name then 1 else 0 : ℕ) := by
    simp only [beq_iff_eq]
    exact if_congr eq_comm rfl rfl
  omega

theorem times_inGroup (h : Whole layout)
    (hg : g ∈ layout.groups) (f : List Str → List Str) (n : Str) :
    SidebarLayout.times ⟨layout.order, inGroup layout.groups g.id f⟩ n + g.members.count n
      = layout.times n + (f g.members).count n := by
  have hcount := count_inGroup f h.ids hg n
  rw [times_eq, times_eq]
  dsimp only
  omega

/-! ## What stays whole -/

theorem Whole.detach (h : Whole layout)
    (hname : plain name = true) : Whole (detach layout name) := by
  refine ⟨?_, ?_, ?_⟩
  · rw [ids_detach]
    exact h.ids
  · intro g hg
    rw [detach_groups] at hg
    obtain ⟨g', hg', rfl⟩ := List.mem_map.mp hg
    rw [Sidebar.detach, count_without, if_neg (ne_groupToken g'.has_id hname).symm]
    exact h.slot g' hg'
  · intro g hg m hm
    rw [detach_groups] at hg
    obtain ⟨g', hg', rfl⟩ := List.mem_map.mp hg
    exact h.names g' hg' m (mem_without.mp hm).1

theorem Whole.insert_loose (h : Whole layout) (i : ℤ)
    (hname : plain name = true) : Whole ⟨insertAt layout.order i name, layout.groups⟩ := by
  refine ⟨h.ids, ?_, h.names⟩
  intro g hg
  rw [(perm_insertAt layout.order i name).count_eq, count_cons_of_ne
    (ne_groupToken g.has_id hname)]
  exact h.slot g hg

theorem Whole.inGroup (h : Whole layout) (groupId : Str)
    {f : List Str → List Str}
    (hf : ∀ members, (∀ m ∈ members, plain m = true) → ∀ m ∈ f members, plain m = true) :
    Whole ⟨layout.order, inGroup layout.groups groupId f⟩ := by
  refine ⟨?_, ?_, ?_⟩
  · rw [ids_inGroup]
    exact h.ids
  · intro g hg
    obtain ⟨g', hg', rfl⟩ := List.mem_map.mp hg
    have hid : (if g'.id = groupId then { g' with members := f g'.members } else g').id = g'.id := by
      split_ifs <;> rfl
    rw [hid]
    exact h.slot g' hg'
  · intro g hg
    obtain ⟨g', hg', rfl⟩ := List.mem_map.mp hg
    by_cases hid : g'.id = groupId
    · rw [if_pos hid]
      exact hf g'.members (h.names g' hg')
    · rw [if_neg hid]
      exact h.names g' hg'

/-! ## The flattened order -/

theorem lastById_eq (hids : (groups.map ProjectGroup.id).Nodup)
    (hg : g ∈ groups) : lastById groups g.id = some g := by
  have hnodup : (groups.reverse.map ProjectGroup.id).Nodup := by
    rw [map_reverse, nodup_reverse]
    exact hids
  exact find_of_nodup hnodup (mem_reverse.mpr hg)

theorem expand_groupToken (hids : (groups.map ProjectGroup.id).Nodup)
    (hg : g ∈ groups) : expand groups (groupToken g.id) = g.members := by
  rw [expand, truthy_groupToken g.has_id]
  dsimp only
  rw [lastById_eq hids hg]
  rfl

theorem expand_plain (groups : List ProjectGroup) {token : Str} (h : plain token = true) :
    expand groups token = [token] := by
  rw [plain, Bool.and_eq_true, isNone_iff_eq_none, Bool.not_eq_true'] at h
  rw [expand, h.1, h.2]
  rfl

/-- In a whole layout the top level, every token read as what it stands for, is the projects
of the layout. -/
theorem perm_expand (h : Whole layout) :
    (layout.order.flatMap (expand layout.groups)).Perm layout.places := by
  have hslots : (layout.groups.map fun g => groupToken g.id).Nodup := by
    have hcomp : (layout.groups.map fun g => groupToken g.id)
        = (layout.groups.map ProjectGroup.id).map groupToken := by
      rw [List.map_map]
      rfl
    rw [hcomp]
    exact h.ids.map fun _ _ => groupToken_injective
  have hperm := @flatMap_slots _ _ _ _ (layout.groups.map fun g => groupToken g.id) layout.order plain
    (expand layout.groups) hslots ?_ ?_ ?_
  · have hloose : (layout.order.filter plain).flatMap (expand layout.groups)
        = layout.order.filter plain := by
      conv_rhs => rw [← flatMap_singleton' (layout.order.filter plain)]
      refine flatMap_congr fun t ht => ?_
      exact expand_plain _ (mem_filter.mp ht).2
    have hfolders : (layout.groups.map fun g => groupToken g.id).flatMap (expand layout.groups)
        = layout.groups.flatMap ProjectGroup.members := by
      rw [flatMap_map]
      exact flatMap_congr fun g hg => expand_groupToken h.ids hg
    rw [hloose, hfolders] at hperm
    exact hperm
  · intro s hs
    obtain ⟨g, hg, rfl⟩ := List.mem_map.mp hs
    exact h.slot g hg
  · intro s hs
    obtain ⟨g, hg, rfl⟩ := List.mem_map.mp hs
    exact plain_groupToken g.has_id
  · intro t ht hslot hplain
    -- neither a folder's slot nor a project: a peer's, or a folder's that is gone
    rw [expand]
    cases hgid : truthy (groupIdOf t) with
    | some gid =>
      dsimp only
      cases hlast : lastById layout.groups gid with
      | none => rfl
      | some g =>
        have hg := mem_reverse.mp (mem_of_find?_eq_some hlast)
        have hid : g.id = gid := by simpa using find?_some hlast
        refine absurd (List.mem_map.mpr ⟨g, hg, ?_⟩) hslot
        rw [hid, eq_groupToken hgid]
    | none =>
      dsimp only
      rw [plain, hgid, isNone_none, Bool.true_and, Bool.not_eq_false'] at hplain
      rw [if_pos hplain]

theorem count_trailed (nested : Str → List Str) {n : Str} (h : ∀ name, n ∉ nested name) (xs : List Str) :
    (xs.flatMap fun name => name :: nested name).count n = xs.count n := by
  induction xs with
  | nil => rfl
  | cons x xs ih =>
    rw [flatMap_cons, count_append, count_cons, ih,
      count_eq_zero.mpr (h x), count_cons]
    omega

/-- A project that is no duplicate is in the flattened order once for every place it has. -/
theorem count_flattenForProjectOrder (h : Whole layout)
    {projects : List ProjectInfo} {n : Str}
    (hn : ∀ p ∈ projects, isDuplicate p (projects.map ProjectInfo.name) = true → p.name ≠ n) :
    (flattenForProjectOrder layout projects).count n = layout.times n := by
  have hnested : ∀ name, n ∉ nestedDuplicates layout.groups projects name := by
    intro name hin
    obtain ⟨p, hp, heq⟩ := List.mem_map.mp hin
    obtain ⟨hmem, hdup⟩ := mem_filter.mp hp
    rw [Bool.and_eq_true, Bool.and_eq_true] at hdup
    exact hn p hmem hdup.1.1 heq
  have hassoc : flattenForProjectOrder layout projects
      = (layout.order.flatMap (expand layout.groups)).flatMap fun name =>
          name :: nestedDuplicates layout.groups projects name := by
    rw [flattenForProjectOrder, flatMap_assoc]
  rw [hassoc, count_trailed _ hnested, (perm_expand h).count_eq]
  rfl

end Lpm.Sidebar
