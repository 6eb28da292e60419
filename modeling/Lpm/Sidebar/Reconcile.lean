/-
What the self-healing pass makes of a stored layout: how often a name stands in what comes
out, when every project stands there once and a second pass changes nothing, and what the pass
keeps of a layout that is whole.

A member is given up when an earlier folder claims it. Within one folder a name that stands
twice is not, and a project whose name is read as a slot gets no place at the top level.
-/
import Lpm.Sidebar.Places

set_option autoImplicit false

namespace Lpm.Sidebar

open List

open RustText Distinct

variable {layout : SidebarLayout} {top all : List Str} {groups : List ProjectGroup} {n : Str}

/-- How often the first folder that has a name as a member names it. -/
def firstCount (groups : List ProjectGroup) (name : Str) : ℕ :=
  ((groups.find? fun g => name ∈ g.members).map fun g => g.members.count name).getD 0

/-- The first folder that has the name as a member has it once; or none does, and the name is
not read as a slot. -/
def NamedOnce (groups : List ProjectGroup) (name : Str) : Prop :=
  if membership groups name then firstCount groups name = 1 else plain name = true

instance (groups : List ProjectGroup) (name : Str) : Decidable (NamedOnce groups name) :=
  inferInstanceAs (Decidable
    (if membership groups name then firstCount groups name = 1 else plain name = true))

/-! ## The folders -/

theorem firstCount_cons (g : ProjectGroup) (rest : List ProjectGroup) (n : Str) :
    firstCount (g :: rest) n = if n ∈ g.members then g.members.count n else firstCount rest n := by
  rw [firstCount, find?_cons]
  by_cases h : n ∈ g.members
  · rw [if_pos h, decide_eq_true h]
    rfl
  · rw [if_neg h, decide_eq_false h]
    rfl

theorem firstCount_pos : 0 < firstCount groups n ↔ membership groups n = true := by
  induction groups with
  | nil => simp [firstCount, membership]
  | cons g rest ih =>
    have hcons : membership (g :: rest) n = (decide (n ∈ g.members) || membership rest n) := rfl
    rw [firstCount_cons, hcons, Bool.or_eq_true, decide_eq_true_eq]
    by_cases h : n ∈ g.members
    · rw [if_pos h, count_pos_iff]
      exact ⟨Or.inl, fun _ => h⟩
    · rw [if_neg h, ih]
      exact ⟨Or.inr, fun hor => hor.resolve_left h⟩

theorem firstCount_le : firstCount groups n ≤ (groups.flatMap ProjectGroup.members).count n := by
  induction groups with
  | nil => exact Nat.le_refl 0
  | cons g rest ih =>
    rw [firstCount_cons, flatMap_cons, count_append]
    split_ifs <;> omega

theorem count_claimMembers (groups : List ProjectGroup) (claimed : List Str) (n : Str) :
    ((claimMembers claimed groups).flatMap ProjectGroup.members).count n
      = if n ∈ claimed then 0 else firstCount groups n := by
  induction groups generalizing claimed with
  | nil => simp [claimMembers, firstCount]
  | cons g rest ih =>
    rw [claimMembers, flatMap_cons, count_append, ih, firstCount_cons]
    dsimp only
    by_cases hclaimed : n ∈ claimed
    · have hzero : (g.members.filter fun m => m ∉ claimed).count n = 0 := by
        rw [count_eq_zero]
        intro hin
        exact absurd hclaimed (by simpa using (mem_filter.mp hin).2)
      rw [hzero, if_pos (mem_append_left _ hclaimed), if_pos hclaimed]
    · have hall : (g.members.filter fun m => m ∉ claimed).count n = g.members.count n :=
        count_filter (by simpa using hclaimed)
      rw [hall, if_neg hclaimed]
      by_cases hmem : n ∈ g.members
      · have hin : n ∈ claimed ++ g.members.filter fun m => m ∉ claimed :=
          mem_append_right _ (mem_filter.mpr ⟨hmem, by simpa using hclaimed⟩)
        rw [if_pos hin, if_pos hmem, Nat.add_zero]
      · have hnot : n ∉ claimed ++ g.members.filter fun m => m ∉ claimed := by
          intro hin
          rcases mem_append.mp hin with h | h
          · exact hclaimed h
          · exact hmem (mem_filter.mp h).1
        rw [if_neg hnot, if_neg hmem, count_eq_zero.mpr hmem, Nat.zero_add]

theorem ids_claimMembers (groups : List ProjectGroup) (claimed : List Str) :
    (claimMembers claimed groups).map ProjectGroup.id = groups.map ProjectGroup.id := by
  induction groups generalizing claimed with
  | nil => rfl
  | cons g rest ih =>
    rw [claimMembers, map_cons, map_cons, ih]

theorem membership_claimMembers (groups : List ProjectGroup) (n : Str) :
    membership (claimMembers [] groups) n = membership groups n := by
  rw [Bool.eq_iff_iff, membership_iff_mem, ← count_pos_iff, count_claimMembers,
    if_neg not_mem_nil, firstCount_pos]

theorem mem_claimMembers {claimed : List Str} {g : ProjectGroup} (h : g ∈ claimMembers claimed groups) :
    ∃ old ∈ groups, g.id = old.id ∧ (∀ m ∈ g.members, m ∈ old.members ∧ m ∉ claimed) := by
  induction groups generalizing claimed with
  | nil => exact nomatch h
  | cons first rest ih =>
    rw [claimMembers] at h
    rcases mem_cons.mp h with rfl | hin
    · refine ⟨first, mem_cons_self, rfl, fun m hm => ?_⟩
      obtain ⟨hmem, hnot⟩ := mem_filter.mp hm
      exact ⟨hmem, by simpa using hnot⟩
    · obtain ⟨old, hold, hid, hmembers⟩ := ih hin
      refine ⟨old, mem_cons_of_mem _ hold, hid, fun m hm => ?_⟩
      obtain ⟨hmem, hnot⟩ := hmembers m hm
      exact ⟨hmem, fun hc => hnot (mem_append_left _ hc)⟩

/-- What was claimed once is not claimed again: folder by folder the second pass filters out
what the first one did. -/
theorem claimMembers_again (groups : List ProjectGroup) (claimed : List Str) :
    claimMembers claimed (claimMembers claimed groups) = claimMembers claimed groups := by
  induction groups generalizing claimed with
  | nil => rfl
  | cons g rest ih =>
    have hfilter : (g.members.filter fun m => m ∉ claimed).filter (fun m => m ∉ claimed)
        = g.members.filter fun m => m ∉ claimed := by
      rw [List.filter_filter]
      simp only [Bool.and_self]
    simp only [claimMembers, hfilter, ih]

/-! ## The order -/

/-- The order that comes out: the slots that stay, every folder's, every project that has no
place yet, each taken once. -/
theorem reconcile_order (layout : SidebarLayout) (top all : List Str) :
    (reconcile layout top all).order
      = pushed (pushed (pushed [] (layout.order.filter (keeps (claimMembers [] layout.groups) top all)))
          ((claimMembers [] layout.groups).map fun g => groupToken g.id))
          (top.filter fun name => !membership (claimMembers [] layout.groups) name) := by
  rw [reconcile, pushed, pushed, pushed, foldl_map, foldl_filter, foldl_filter]

theorem reconcile_groups (layout : SidebarLayout) (top all : List Str) :
    (reconcile layout top all).groups = claimMembers [] layout.groups := rfl

theorem nodup_reconcile_order (layout : SidebarLayout) (top all : List Str) :
    (reconcile layout top all).order.Nodup := by
  rw [reconcile_order]
  exact nodup_pushed (nodup_pushed (nodup_pushed nodup_nil))

theorem mem_reconcile_order {token : Str} :
    token ∈ (reconcile layout top all).order
      ↔ (token ∈ layout.order ∧ keeps (claimMembers [] layout.groups) top all token = true)
        ∨ (∃ g ∈ layout.groups, groupToken g.id = token)
        ∨ (token ∈ top ∧ membership layout.groups token = false) := by
  have hids : (∃ g ∈ claimMembers [] layout.groups, groupToken g.id = token)
      ↔ ∃ g ∈ layout.groups, groupToken g.id = token := by
    have hmap := ids_claimMembers layout.groups []
    constructor
    · rintro ⟨g, hg, htok⟩
      have hid : g.id ∈ layout.groups.map ProjectGroup.id := hmap ▸ List.mem_map_of_mem hg
      obtain ⟨g', hg', heq⟩ := List.mem_map.mp hid
      exact ⟨g', hg', by rw [heq, htok]⟩
    · rintro ⟨g, hg, htok⟩
      have hid : g.id ∈ (claimMembers [] layout.groups).map ProjectGroup.id := by
        rw [hmap]
        exact List.mem_map_of_mem hg
      obtain ⟨g', hg', heq⟩ := List.mem_map.mp hid
      exact ⟨g', hg', by rw [heq, htok]⟩
  rw [reconcile_order, mem_pushed, mem_pushed, mem_pushed, mem_filter, mem_filter, List.mem_map,
    hids, membership_claimMembers, Bool.not_eq_true', or_assoc]
  simp only [not_mem_nil, false_or]

theorem keeps_plain (h : plain n = true) :
    keeps groups top all n = ((n ∈ top || n ∉ all) && !membership groups n) := by
  rw [plain, Bool.and_eq_true, Option.isNone_iff_eq_none, Bool.not_eq_true'] at h
  rw [keeps, h.1, h.2]
  rfl

/-- A project's name stands loose where no folder claims it and it is to be at the top level or
not known at all. -/
theorem plain_mem_reconcile (h : plain n = true) :
    n ∈ (reconcile layout top all).order
      ↔ membership layout.groups n = false ∧ (n ∈ top ∨ (n ∈ layout.order ∧ n ∉ all)) := by
  have hnot : ¬ ∃ g ∈ layout.groups, groupToken g.id = n := by
    rintro ⟨g, -, heq⟩
    exact ne_groupToken g.has_id h heq.symm
  rw [mem_reconcile_order, keeps_plain h, membership_claimMembers]
  simp only [hnot, false_or, Bool.and_eq_true, Bool.or_eq_true, decide_eq_true_eq, Bool.not_eq_true']
  tauto

/-- How often a name stands in what comes out. -/
theorem times_reconcile (layout : SidebarLayout) (top all : List Str) (n : Str) :
    (reconcile layout top all).times n
      = if membership layout.groups n then firstCount layout.groups n
        else if plain n ∧ (n ∈ top ∨ (n ∈ layout.order ∧ n ∉ all)) then 1 else 0 := by
  have hmembers : ((reconcile layout top all).groups.flatMap ProjectGroup.members).count n
      = firstCount layout.groups n := by
    rw [reconcile_groups, count_claimMembers, if_neg not_mem_nil]
  have hloose : ((reconcile layout top all).order.filter plain).count n
      = if plain n = true ∧ n ∈ (reconcile layout top all).order then 1 else 0 := by
    have hnodup := (nodup_reconcile_order layout top all).filter plain
    by_cases h : plain n = true ∧ n ∈ (reconcile layout top all).order
    · rw [if_pos h, count_eq_one_of_mem hnodup (mem_filter.mpr ⟨h.2, h.1⟩)]
    · rw [if_neg h, count_eq_zero]
      intro hin
      obtain ⟨hmem, hplain⟩ := mem_filter.mp hin
      exact h ⟨hplain, hmem⟩
  rw [times_eq, hmembers, hloose]
  by_cases hm : membership layout.groups n = true
  · rw [if_pos hm, if_neg]
    · exact Nat.zero_add _
    · rintro ⟨hplain, hin⟩
      have hfalse := ((plain_mem_reconcile hplain).mp hin).1
      rw [hm] at hfalse
      exact nomatch hfalse
  · have hzero : firstCount layout.groups n = 0 := by
      by_contra hne
      exact hm (firstCount_pos.mp (Nat.pos_of_ne_zero hne))
    rw [Bool.not_eq_true] at hm
    rw [hzero, Nat.add_zero, hm, if_neg Bool.false_ne_true]
    refine if_congr ⟨?_, ?_⟩ rfl rfl
    · rintro ⟨hplain, hin⟩
      exact ⟨hplain, ((plain_mem_reconcile hplain).mp hin).2⟩
    · rintro ⟨hplain, hin⟩
      exact ⟨hplain, (plain_mem_reconcile hplain).mpr ⟨hm, hin⟩⟩

/-! ## When the pass does what it is for -/

theorem times_reconcile_eq_one (htop : n ∈ top) :
    (reconcile layout top all).times n = 1 ↔ NamedOnce layout.groups n := by
  rw [times_reconcile, NamedOnce]
  by_cases hm : membership layout.groups n = true
  · rw [if_pos hm, if_pos hm]
  · rw [if_neg hm, if_neg hm]
    by_cases hplain : plain n = true
    · rw [if_pos ⟨hplain, Or.inl htop⟩]
      exact ⟨fun _ => hplain, fun _ => rfl⟩
    · rw [if_neg fun h => hplain h.1]
      exact ⟨fun h => absurd h Nat.zero_ne_one, fun h => absurd h hplain⟩

/-- Where no project that stands nowhere is read as a slot, a second pass changes nothing. -/
theorem reconcile_again (h : ∀ name ∈ top, membership layout.groups name = false → plain name = true) :
    reconcile (reconcile layout top all) top all = reconcile layout top all := by
  have hgroups : (reconcile (reconcile layout top all) top all).groups
      = (reconcile layout top all).groups := claimMembers_again layout.groups []
  have horder : (reconcile (reconcile layout top all) top all).order
      = (reconcile layout top all).order := by
    -- every token of the first pass is kept by the second
    have hkeeps : ∀ token ∈ (reconcile layout top all).order,
        keeps (claimMembers [] layout.groups) top all token = true := by
      intro token htoken
      rcases mem_reconcile_order.mp htoken with hkept | ⟨g, hg, rfl⟩ | ⟨htop, hfree⟩
      · exact hkept.2
      · rw [keeps, truthy_groupToken g.has_id]
        dsimp only
        rw [ids_claimMembers, decide_eq_true_eq]
        exact List.mem_map_of_mem hg
      · rw [keeps_plain (h token htop hfree), membership_claimMembers, hfree]
        simp [htop]
    rw [reconcile_order, reconcile_groups, claimMembers_again, filter_eq_self.mpr hkeeps]
    have hself : pushed [] (reconcile layout top all).order = (reconcile layout top all).order := by
      rw [pushed_of_nodup (by rw [nil_append]; exact nodup_reconcile_order layout top all),
        nil_append]
    have htokens : ∀ token ∈ (claimMembers [] layout.groups).map fun g => groupToken g.id,
        token ∈ (reconcile layout top all).order := by
      intro token htoken
      rw [reconcile_order, mem_pushed, mem_pushed]
      exact Or.inl (Or.inr htoken)
    have hnames : ∀ name ∈ top.filter fun name => !membership (claimMembers [] layout.groups) name,
        name ∈ (reconcile layout top all).order := by
      intro name hname
      rw [reconcile_order, mem_pushed]
      exact Or.inr hname
    rw [hself, pushed_of_subset htokens, pushed_of_subset hnames]
  cases hr : reconcile (reconcile layout top all) top all with
  | mk order groups =>
    rw [hr] at hgroups horder
    dsimp only at hgroups horder
    rw [hgroups, horder]

/-- The pass puts every project in one place, and there for good, exactly where every project
is named once. -/
theorem reconcile_exact :
    ((∀ name ∈ top, (reconcile layout top all).times name = 1)
        ∧ reconcile (reconcile layout top all) top all = reconcile layout top all)
      ↔ ∀ name ∈ top, NamedOnce layout.groups name := by
  constructor
  · intro h name hname
    exact (times_reconcile_eq_one hname).mp (h.1 name hname)
  · intro h
    refine ⟨fun name hname => (times_reconcile_eq_one hname).mpr (h name hname), ?_⟩
    refine reconcile_again fun name hname hfree => ?_
    have honce := h name hname
    rw [NamedOnce, hfree, if_neg Bool.false_ne_true] at honce
    exact honce

/-- What comes out is whole. -/
theorem whole_reconcile (top all : List Str) (hids : (layout.groups.map ProjectGroup.id).Nodup)
    (hnames : ∀ g ∈ layout.groups, ∀ m ∈ g.members, plain m = true) :
    Whole (reconcile layout top all) := by
  refine ⟨?_, ?_, ?_⟩
  · rw [reconcile_groups, ids_claimMembers]
    exact hids
  · intro g hg
    obtain ⟨old, hold, hid, -⟩ := mem_claimMembers hg
    refine count_eq_one_of_mem (nodup_reconcile_order layout top all) ?_
    exact mem_reconcile_order.mpr (Or.inr (Or.inl ⟨old, hold, by rw [hid]⟩))
  · intro g hg m hm
    obtain ⟨old, hold, -, hmembers⟩ := mem_claimMembers hg
    exact hnames old hold m (hmembers m hm).1

end Lpm.Sidebar
