/-
What one change of the sidebar does: a move, a drop, a folder made or removed, the pass run
again.

A change is fitting when what it names is there: a move names a project that has a place or is
known, into a folder that exists; a new folder is empty and its id is new. A fitting change of
a whole layout loses no project and makes none up, and leaves the layout whole.
-/
import Lpm.Lib.Transition
import Lpm.Sidebar.Reconcile

set_option autoImplicit false

namespace Lpm.Sidebar

open List Option

open RustText Distinct

/-! ## Steps -/

/-- One change of the layout. -/
inductive Edit
  | moveTopLevel (token : Str) (toIndex : ℤ)
  | moveIntoGroup (name groupId : Str) (toIndex : Option ℤ)
  | moveOutOfGroup (name : Str) (toOrderIndex : ℤ)
  | reorderWithinGroup (groupId name : Str) (toIndex : ℤ)
  | addGroup (group : ProjectGroup) (atIndex : Option ℤ)
  | removeGroup (groupId : Str)
  | drop (activeId overId : Str)
  | reconcile

/-- The layout after a change. -/
def Edit.apply (top all : List Str) (layout : SidebarLayout) : Edit → SidebarLayout
  | .moveTopLevel token i => Sidebar.moveTopLevel layout token i
  | .moveIntoGroup name groupId i => Sidebar.moveIntoGroup layout name groupId i
  | .moveOutOfGroup name i => Sidebar.moveOutOfGroup layout name i
  | .reorderWithinGroup groupId name i => Sidebar.reorderWithinGroup layout groupId name i
  | .addGroup group i => Sidebar.addGroup layout group i
  | .removeGroup groupId => Sidebar.removeGroup layout groupId
  | .drop activeId overId => (resolveSidebarDrop layout activeId overId).getD layout
  | .reconcile => Sidebar.reconcile layout top all

/-- What a change names is there. -/
def Edit.fits (all : List Str) (layout : SidebarLayout) : Edit → Prop
  | .moveTopLevel token _ => token ∈ layout.order
  | .moveIntoGroup name groupId _ =>
    (name ∈ layout.places ∨ name ∈ all) ∧ groupId ∈ layout.groups.map ProjectGroup.id
  | .moveOutOfGroup name _ => name ∈ layout.places ∨ name ∈ all
  | .reorderWithinGroup groupId name _ => ∃ g ∈ layout.groups, g.id = groupId ∧ name ∈ g.members
  | .addGroup group _ =>
    group.members = [] ∧ group.id ∉ layout.groups.map ProjectGroup.id
      ∧ groupToken group.id ∉ layout.order
  | .removeGroup _ => True
  | .drop activeId overId =>
    activeId ≠ "peer:".toList
      ∧ ∀ groupId, dropFolderTarget overId = some groupId → groupId ∈ layout.groups.map ProjectGroup.id
  | .reconcile => True

/-- A change that loses nothing and makes nothing up. A known duplicate may come in and go out:
it stands nowhere while it is nested under its parent. -/
structure Lossless (top all : List Str) (before after : SidebarLayout) : Prop where
  once : ∀ n, before.times n ≤ 1 → after.times n ≤ 1
  kept : ∀ n, n ∈ top ∨ n ∉ all → 0 < before.times n → 0 < after.times n
  known : ∀ n, 0 < after.times n → 0 < before.times n ∨ n ∈ top ∨ n ∈ all

variable {top all : List Str} {layout next : SidebarLayout} {name : Str}

theorem Lossless.of_same (h : ∀ n, next.times n = layout.times n) : Lossless top all layout next where
  once n hn := by rw [h]; exact hn
  kept n _ hn := by rw [h]; exact hn
  known n hn := by rw [h] at hn; exact Or.inl hn

/-- A project that stands in one place afterwards, wherever it stood. -/
theorem Lossless.of_placed (hname : name ∈ layout.places ∨ name ∈ all)
    (h : ∀ n, next.times n = if n = name then 1 else layout.times n) : Lossless top all layout next where
  once n hn := by
    rw [h]
    split_ifs
    · exact Nat.le_refl 1
    · exact hn
  kept n _ hn := by
    rw [h]
    split_ifs
    · exact Nat.one_pos
    · exact hn
  known n hn := by
    rw [h] at hn
    by_cases heq : n = name
    · rw [heq]
      exact hname.imp times_pos.mpr Or.inr
    · rw [if_neg heq] at hn
      exact Or.inl hn

theorem Lossless.trans {later : SidebarLayout} (h : Lossless top all layout next)
    (hlater : Lossless top all next later) : Lossless top all layout later where
  once n hn := hlater.once n (h.once n hn)
  kept n hn hpos := hlater.kept n hn (h.kept n hn hpos)
  known n hpos := (hlater.known n hpos).elim (h.known n) Or.inr

/-! ## Moves -/

variable (h : Whole layout)
include h

theorem moveOutOfGroup_lossless (hplain : plain name = true)
    (hname : name ∈ layout.places ∨ name ∈ all) (i : ℤ) :
    Lossless top all layout (moveOutOfGroup layout name i) ∧ Whole (moveOutOfGroup layout name i) := by
  refine ⟨Lossless.of_placed hname fun n => ?_, (h.detach hplain).insert_loose i hplain⟩
  have htimes := times_insert_loose (detach layout name) i hplain n
  rw [times_detach] at htimes
  rw [moveOutOfGroup, htimes]
  split_ifs <;> rfl

theorem moveIntoGroup_lossless (hplain : plain name = true)
    (hname : name ∈ layout.places ∨ name ∈ all) {groupId : Str}
    (hgroup : groupId ∈ layout.groups.map ProjectGroup.id) (i : Option ℤ) :
    Lossless top all layout (moveIntoGroup layout name groupId i)
      ∧ Whole (moveIntoGroup layout name groupId i) := by
  have hbase := h.detach hplain
  rw [← ids_detach layout name] at hgroup
  obtain ⟨g, hg, rfl⟩ := List.mem_map.mp hgroup
  constructor
  · refine Lossless.of_placed hname fun n => ?_
    have htimes := times_inGroup hbase hg (fun members => insertAt members (i.getD members.length) name) n
    have hcount := (perm_insertAt g.members (i.getD g.members.length) name).count_eq n
    rw [count_cons] at hcount
    rw [hcount, times_detach] at htimes
    rw [moveIntoGroup]
    by_cases heq : n = name
    · rw [if_pos heq] at htimes ⊢
      rw [if_pos (by rw [heq]; exact beq_self_eq_true name)] at htimes
      omega
    · rw [if_neg heq] at htimes ⊢
      rw [if_neg (by simpa using Ne.symm heq)] at htimes
      omega
  · refine hbase.inGroup g.id fun members hmembers m hm => ?_
    rcases mem_cons.mp ((perm_insertAt members _ name).mem_iff.mp hm) with rfl | hin
    · exact hplain
    · exact hmembers m hin

theorem moveTopLevel_lossless {token : Str} (htoken : token ∈ layout.order) (i : ℤ) :
    Lossless top all layout (moveTopLevel layout token i) ∧ Whole (moveTopLevel layout token i) := by
  have hperm := perm_insertAt (without layout.order token) i token
  constructor
  · by_cases hplain : plain token = true
    -- a project's slot: it has one, and what a folder has of the name stays
    · have hcount : ∀ n, ((moveTopLevel layout token i).order.filter plain).count n
          = if n = token then 1 else (layout.order.filter plain).count n := by
        intro n
        rw [moveTopLevel, (hperm.filter plain).count_eq, filter_cons_of_pos hplain,
          filter_without, count_cons, count_without]
        by_cases heq : n = token
        · rw [if_pos heq, if_pos heq, heq, if_pos (beq_self_eq_true token)]
        · rw [if_neg heq, if_neg heq, if_neg (by simpa using Ne.symm heq), Nat.add_zero]
      have hold : 0 < (layout.order.filter plain).count token :=
        count_pos_iff.mpr (mem_filter.mpr ⟨htoken, hplain⟩)
      have htimes : ∀ n, (moveTopLevel layout token i).times n
          = if n = token then 1 + (layout.groups.flatMap ProjectGroup.members).count n
            else layout.times n := by
        intro n
        rw [times_eq, times_eq, hcount]
        split_ifs <;> rfl
      refine ⟨fun n hn => ?_, fun n _ hn => ?_, fun n hn => Or.inl ?_⟩
      · rw [htimes]
        by_cases heq : n = token
        · rw [heq, times_eq] at hn
          rw [if_pos heq, heq]
          omega
        · rw [if_neg heq]
          exact hn
      · rw [htimes]
        split_ifs
        · omega
        · exact hn
      · rw [htimes] at hn
        by_cases heq : n = token
        · rw [heq, times_eq]
          omega
        · rw [if_neg heq] at hn
          exact hn
    -- a folder's slot or a Mac's
    · refine Lossless.of_same fun n => ?_
      have hfilter : (without layout.order token).filter plain = layout.order.filter plain := by
        rw [filter_without]
        refine without_of_not_mem fun hin => ?_
        exact hplain (mem_filter.mp hin).2
      rw [times_eq, times_eq, moveTopLevel, (hperm.filter plain).count_eq, filter_cons_of_neg hplain,
        hfilter]
  · refine ⟨h.ids, fun g hg => ?_, h.names⟩
    rw [moveTopLevel, hperm.count_eq, count_cons, count_without]
    by_cases heq : groupToken g.id = token
    · rw [if_pos heq, heq, if_pos (beq_self_eq_true token)]
    · rw [if_neg heq, if_neg (by simpa using Ne.symm heq), Nat.add_zero]
      exact h.slot g hg

theorem reorderWithinGroup_lossless {g : ProjectGroup} (hg : g ∈ layout.groups)
    (hmem : name ∈ g.members) (i : ℤ) :
    Lossless top all layout (reorderWithinGroup layout g.id name i)
      ∧ Whole (reorderWithinGroup layout g.id name i) := by
  have hpos : 0 < g.members.count name := count_pos_iff.mpr hmem
  -- the members are what they were, with the name put in once
  have htimes : ∀ n, (reorderWithinGroup layout g.id name i).times n + g.members.count n
      = layout.times n + if n = name then 1 else g.members.count n := by
    intro n
    have hstep := times_inGroup h hg (fun members => insertAt (without members name) i name) n
    have hcount := (perm_insertAt (without g.members name) i name).count_eq n
    rw [count_cons, count_without] at hcount
    rw [hcount] at hstep
    rw [reorderWithinGroup, hstep]
    by_cases heq : n = name
    · rw [if_pos heq, if_pos heq, heq, if_pos (beq_self_eq_true name)]
    · rw [if_neg heq, if_neg heq, if_neg (by simpa using Ne.symm heq), Nat.add_zero]
  have hmembers : g.members.count name ≤ layout.times name := by
    have hrest := count_removed h.ids hg name
    rw [times_eq]
    omega
  constructor
  · refine ⟨fun n hn => ?_, fun n _ hn => ?_, fun n hn => Or.inl ?_⟩
    · have heq := htimes n
      by_cases hn' : n = name
      · rw [if_pos hn', hn'] at heq
        rw [hn'] at hn ⊢
        omega
      · rw [if_neg hn'] at heq
        omega
    · have heq := htimes n
      by_cases hn' : n = name
      · rw [if_pos hn', hn'] at heq
        rw [hn']
        omega
      · rw [if_neg hn'] at heq
        omega
    · have heq := htimes n
      by_cases hn' : n = name
      · rw [hn']
        omega
      · rw [if_neg hn'] at heq
        omega
  · refine h.inGroup g.id fun members hall m hm => ?_
    rcases mem_cons.mp ((perm_insertAt (without members name) i name).mem_iff.mp hm) with rfl | hin
    · exact h.names g hg m hmem
    · exact hall m (mem_without.mp hin).1

/-! ## Folders made and removed -/

theorem addGroup_lossless {group : ProjectGroup} (hempty : group.members = [])
    (hid : group.id ∉ layout.groups.map ProjectGroup.id) (hslot : groupToken group.id ∉ layout.order)
    (i : Option ℤ) :
    Lossless top all layout (addGroup layout group i) ∧ Whole (addGroup layout group i) := by
  have hperm := perm_insertAt layout.order (i.getD layout.order.length) (groupToken group.id)
  have hplain := plain_groupToken group.has_id
  constructor
  · refine Lossless.of_same fun n => ?_
    rw [times_eq, times_eq, addGroup, (hperm.filter plain).count_eq,
      filter_cons_of_neg (by rw [hplain]; exact Bool.false_ne_true), flatMap_append,
      flatMap_singleton, hempty, append_nil]
  · refine ⟨?_, fun g hg => ?_, fun g hg => ?_⟩
    · rw [addGroup, map_append]
      exact h.ids.append (nodup_singleton _) (disjoint_singleton.mpr hid)
    · rw [addGroup, hperm.count_eq, count_cons]
      rcases mem_append.mp hg with hold | hnew
      · have hne : groupToken group.id ≠ groupToken g.id := fun heq =>
          hid (groupToken_injective heq ▸ List.mem_map_of_mem hold)
        rw [if_neg (by simpa using hne), h.slot g hold]
      · rw [mem_singleton.mp hnew, count_eq_zero.mpr hslot, if_pos (beq_self_eq_true _)]
    · rcases mem_append.mp hg with hold | hnew
      · exact h.names g hold
      · rw [mem_singleton.mp hnew, hempty]
        exact fun m hm => nomatch hm

theorem removeGroup_lossless (groupId : Str) :
    Lossless top all layout (removeGroup layout groupId) ∧ Whole (removeGroup layout groupId) := by
  rw [removeGroup]
  cases hfind : groupById layout.groups groupId with
  | none => exact ⟨Lossless.of_same fun _ => rfl, h⟩
  | some g =>
    have hg : g ∈ layout.groups := mem_of_find?_eq_some hfind
    have hid : g.id = groupId := by simpa using find?_some hfind
    subst hid
    have htok : groupToken g.id ∈ layout.order := by
      rw [← count_pos_iff, h.slot g hg]
      exact Nat.one_pos
    -- the slot of the folder gives way to its members
    have hold : layout.order.Perm (groupToken g.id :: layout.order.erase (groupToken g.id)) :=
      perm_cons_erase htok
    have hnew : (layout.order.take (layout.order.idxOf (groupToken g.id)) ++ g.members
        ++ layout.order.drop (layout.order.idxOf (groupToken g.id) + 1)).Perm
        (g.members ++ layout.order.erase (groupToken g.id)) := by
      rw [erase_eq_eraseIdx_of_idxOf rfl, eraseIdx_eq_take_drop_succ,
        ← append_assoc]
      exact perm_append_comm.append_right _
    have hplain := plain_groupToken g.has_id
    dsimp only
    rw [if_pos htok]
    constructor
    · refine Lossless.of_same fun n => ?_
      have hspilled : (g.members.filter plain).count n = g.members.count n := by
        rw [filter_eq_self.mpr (h.names g hg)]
      have hrest := count_removed h.ids hg n
      rw [times_eq, times_eq]
      dsimp only
      rw [(hnew.filter plain).count_eq, (hold.filter plain).count_eq, filter_append,
        count_append, hspilled, filter_cons_of_neg (by rw [hplain]; exact Bool.false_ne_true)]
      omega
    · refine ⟨h.ids.sublist (filter_sublist.map _), fun x hx => ?_, fun x hx => ?_⟩
      · obtain ⟨hin, hne⟩ := mem_filter.mp hx
        -- the other folders keep their slots
        have hid : groupToken g.id ≠ groupToken x.id := fun heq =>
          absurd (groupToken_injective heq).symm (by simpa using hne)
        have hnone : g.members.count (groupToken x.id) = 0 := by
          rw [count_eq_zero]
          intro hm
          exact ne_groupToken x.has_id (h.names g hg _ hm) rfl
        have hslot := h.slot x hin
        rw [hold.count_eq, count_cons_of_ne hid] at hslot
        rw [hnew.count_eq, count_append, hnone, hslot]
      · exact h.names x (mem_filter.mp hx).1

omit h

/-! ## Drops -/

/-- What an id that is classified stands for, and where. -/
def Stands (layout : SidebarLayout) (id : Str) : SidebarNode → Prop
  | .group gid => id = groupToken gid ∧ gid ∈ layout.groups.map ProjectGroup.id
  | .peer _ => id ∈ layout.order
  | .loose name =>
    name = id ∧ id ∈ layout.order ∧ truthy (groupIdOf id) = none ∧ truthy (peerSlugOfToken id) = none
  | .member name gid =>
    name = id ∧ (∃ g ∈ layout.groups, g.id = gid ∧ name ∈ g.members)

theorem classify_stands {id : Str} {node : SidebarNode} (h : classify layout id = some node) :
    Stands layout id node := by
  rw [classify] at h
  -- a folder first, then a Mac, then a member, then a slot of its own
  cases hgroup : truthy (groupIdOf id) with
  | some gid =>
    rw [hgroup] at h
    dsimp only at h
    by_cases hsome : (groupById layout.groups gid).isSome = true
    · rw [if_pos hsome] at h
      obtain ⟨g, hfind⟩ := isSome_iff_exists.mp hsome
      have hid : g.id = gid := by simpa using find?_some hfind
      rw [← some.inj h]
      exact ⟨eq_groupToken hgroup, List.mem_map.mpr ⟨g, mem_of_find?_eq_some hfind, hid⟩⟩
    · rw [if_neg hsome] at h
      exact nomatch h
  | none =>
    rw [hgroup] at h
    dsimp only at h
    cases hpeer : truthy (peerSlugOfToken id) with
    | some slug =>
      rw [hpeer] at h
      dsimp only at h
      by_cases hin : id ∈ layout.order
      · rw [if_pos hin] at h
        rw [← some.inj h]
        exact hin
      · rw [if_neg hin] at h
        exact nomatch h
    | none =>
      rw [hpeer] at h
      dsimp only at h
      cases hfind : layout.groups.find? fun g => id ∈ g.members with
      | some owner =>
        rw [hfind] at h
        have hmem : id ∈ owner.members := by simpa using find?_some hfind
        rw [← some.inj h]
        exact ⟨rfl, owner, mem_of_find?_eq_some hfind, rfl, hmem⟩
      | none =>
        rw [hfind] at h
        dsimp only at h
        by_cases hin : id ∈ layout.order
        · rw [if_pos hin] at h
          rw [← some.inj h]
          exact ⟨rfl, hin, hgroup, hpeer⟩
        · rw [if_neg hin] at h
          exact nomatch h

theorem mem_of_groupById {gid : Str} {g : ProjectGroup} (h : groupById layout.groups gid = some g) :
    gid ∈ layout.groups.map ProjectGroup.id :=
  List.mem_map.mpr ⟨g, mem_of_find?_eq_some h, by simpa using find?_some h⟩

/-- What is not in a folder has a slot of its own in the list. -/
theorem Stands.in_order {id : Str} {node : SidebarNode} (h : Stands layout id node) (hwhole : Whole layout)
    (htop : (match node with | .member _ _ => false | _ => true) = true) : id ∈ layout.order := by
  cases node with
  | group gid =>
    obtain ⟨htok, hgid⟩ := h
    obtain ⟨g, hg, rfl⟩ := List.mem_map.mp hgid
    rw [htok, ← count_pos_iff, hwhole.slot g hg]
    exact Nat.one_pos
  | peer slug => exact h
  | loose name => exact h.2.1
  | member name gid => exact nomatch htop

/-- A project stands somewhere in the list. -/
theorem Stands.in_places {id : Str} {node : SidebarNode} (h : Stands layout id node) (hbare : id ≠ "peer:".toList)
    (hproject : isSection node = false) : id ∈ layout.places := by
  cases node with
  | group _ | peer _ => exact nomatch hproject
  | loose name =>
    obtain ⟨-, hin, hgroup, hpeer⟩ := h
    exact mem_places.mpr (Or.inl ⟨hin, plain_of_truthy hgroup hpeer hbare⟩)
  | member name gid =>
    obtain ⟨rfl, home, hhome, -, hmem⟩ := h
    exact mem_places.mpr (Or.inr (membership_iff.mpr ⟨home, hhome, hmem⟩))

/-- What a drop can do: one of the moves, of what was dragged. -/
inductive Dropped (layout : SidebarLayout) (active : Str) : SidebarLayout → Prop
  | top (i : ℤ) (hin : active ∈ layout.order) : Dropped layout active (moveTopLevel layout active i)
  | into (gid : Str) (i : Option ℤ) (hin : active ∈ layout.places)
    (hgroup : gid ∈ layout.groups.map ProjectGroup.id) :
    Dropped layout active (moveIntoGroup layout active gid i)
  | out (i : ℤ) (hin : active ∈ layout.places) : Dropped layout active (moveOutOfGroup layout active i)
  | within (g : ProjectGroup) (i : ℤ) (hg : g ∈ layout.groups) (hmem : active ∈ g.members) :
    Dropped layout active (reorderWithinGroup layout g.id active i)

theorem resolveSidebarDrop_dropped (h : Whole layout) {active «over» : Str}
    (hbare : active ≠ "peer:".toList)
    (htarget : ∀ gid, dropFolderTarget «over» = some gid → gid ∈ layout.groups.map ProjectGroup.id)
    (hdrop : resolveSidebarDrop layout active «over» = some next) : Dropped layout active next := by
  rw [resolveSidebarDrop] at hdrop
  by_cases hsame : active = «over»
  · rw [if_pos hsame] at hdrop
    exact nomatch hdrop
  rw [if_neg hsame] at hdrop
  cases hactive : classify layout active with
  | none =>
    rw [hactive] at hdrop
    exact nomatch hdrop
  | some a =>
    rw [hactive] at hdrop
    have hstands := classify_stands hactive
    have hin := hstands.in_order h
    have hplaces := hstands.in_places hbare
    cases htgt : dropFolderTarget «over» with
    | some gid =>
      rw [htgt] at hdrop
      dsimp only at hdrop
      cases a with
      | group _ | peer _ => exact nomatch hdrop
      | loose name =>
        obtain ⟨rfl, -⟩ := hstands
        exact some.inj hdrop ▸ .into gid none (hplaces rfl) (htarget gid htgt)
      | member name own =>
        obtain ⟨rfl, -⟩ := hstands
        obtain ⟨-, heq⟩ := ite_none_left_eq_some.mp hdrop
        exact some.inj heq ▸ .into gid none (hplaces rfl) (htarget gid htgt)
    | none =>
      rw [htgt] at hdrop
      cases hover : classify layout «over» with
      | none =>
        rw [hover] at hdrop
        exact nomatch hdrop
      | some o =>
        rw [hover] at hdrop
        -- a section reorders, a loose project and a member go where they are dropped
        cases a with
        | group _ | peer _ =>
          cases o with
          | member _ _ => exact nomatch hdrop
          | group _ | peer _ | loose _ => exact some.inj hdrop ▸ .top _ (hin rfl)
        | loose name =>
          have hname : name = active := hstands.1
          subst hname
          cases o with
          | member other gid =>
            obtain ⟨g, hfind, heq⟩ := map_eq_some_iff.mp hdrop
            exact heq ▸ .into gid _ (hplaces rfl) (mem_of_groupById hfind)
          | group _ | peer _ | loose _ => exact some.inj hdrop ▸ .top _ (hin rfl)
        | member name own =>
          obtain ⟨rfl, home, hhome, hown, hmem⟩ := hstands
          cases o with
          | member other gid =>
            obtain ⟨g, hfind, heq⟩ := map_eq_some_iff.mp hdrop
            by_cases hsection : own = gid
            · rw [if_pos hsection, ← hsection, ← hown] at heq
              exact heq ▸ .within home _ hhome hmem
            · rw [if_neg hsection] at heq
              exact heq ▸ .into gid _ (hplaces rfl) (mem_of_groupById hfind)
          | group _ | peer _ | loose _ => exact some.inj hdrop ▸ .out _ (hplaces rfl)

theorem Dropped.lossless (h : Whole layout) {active : Str} (hdrop : Dropped layout active next) :
    Lossless top all layout next ∧ Whole next := by
  cases hdrop with
  | top i hin => exact moveTopLevel_lossless h hin i
  | into gid i hin hgroup => exact moveIntoGroup_lossless h (h.plain_of_mem hin) (Or.inl hin) hgroup i
  | out i hin => exact moveOutOfGroup_lossless h (h.plain_of_mem hin) (Or.inl hin) i
  | within g i hg hmem => exact reorderWithinGroup_lossless h hg hmem i

/-! ## The pass run again -/

theorem reconcile_lossless (h : Whole layout) :
    Lossless top all layout (reconcile layout top all) ∧ Whole (reconcile layout top all) := by
  refine ⟨⟨fun n hn => ?_, fun n hn hpos => ?_, fun n hpos => ?_⟩, whole_reconcile top all h.ids h.names⟩
  · rw [times_reconcile]
    rw [times_eq] at hn
    have hle := @firstCount_le layout.groups n
    split_ifs <;> omega
  · rw [times_reconcile]
    by_cases hm : membership layout.groups n = true
    · rw [if_pos hm]
      exact firstCount_pos.mpr hm
    · rw [if_neg hm]
      have hloose := (mem_places.mp (times_pos.mp hpos)).resolve_right hm
      rw [if_pos ⟨hloose.2, hn.imp id fun hout => ⟨hloose.1, hout⟩⟩]
      exact Nat.one_pos
  · rw [times_reconcile] at hpos
    by_cases hm : membership layout.groups n = true
    · exact Or.inl (times_pos.mpr (mem_places.mpr (Or.inr hm)))
    · rw [if_neg hm] at hpos
      by_cases hplain : plain n = true ∧ (n ∈ top ∨ (n ∈ layout.order ∧ n ∉ all))
      · rcases hplain.2 with htop | hin
        · exact Or.inr (Or.inl htop)
        · exact Or.inl (times_pos.mpr (mem_places.mpr (Or.inl ⟨hin.1, hplain.1⟩)))
      · rw [if_neg hplain] at hpos
        exact absurd hpos (Nat.lt_irrefl 0)

/-! ## Any change -/

theorem Edit.lossless (h : Whole layout) (hall : ∀ n ∈ all, plain n = true) {edit : Edit}
    (hfits : edit.fits all layout) :
    Lossless top all layout (edit.apply top all layout) ∧ Whole (edit.apply top all layout) := by
  have hplain : ∀ {name}, name ∈ layout.places ∨ name ∈ all → plain name = true := fun hname =>
    hname.elim h.plain_of_mem (hall _)
  cases edit with
  | moveTopLevel token i => exact moveTopLevel_lossless h hfits i
  | moveIntoGroup name groupId i => exact moveIntoGroup_lossless h (hplain hfits.1) hfits.1 hfits.2 i
  | moveOutOfGroup name i => exact moveOutOfGroup_lossless h (hplain hfits) hfits i
  | reorderWithinGroup groupId name i =>
    obtain ⟨g, hg, rfl, hmem⟩ := hfits
    exact reorderWithinGroup_lossless h hg hmem i
  | addGroup group i => exact addGroup_lossless h hfits.1 hfits.2.1 hfits.2.2 i
  | removeGroup groupId => exact removeGroup_lossless h groupId
  | drop active «over» =>
    rw [Edit.apply]
    cases hdrop : resolveSidebarDrop layout active «over» with
    | none => exact ⟨Lossless.of_same fun _ => rfl, h⟩
    | some next => exact (resolveSidebarDrop_dropped h hfits.1 hfits.2 hdrop).lossless h
  | reconcile => exact reconcile_lossless h

/-! ## The sidebar over time

A stored layout is reconciled, then changed by moves, drops, new
folders and folders removed, with the pass run again in between. Over fitting changes from a
stored layout in which every project is named once, every project keeps one place. -/

open RustText Transition

variable {top all : List Str} {stored layout : SidebarLayout}

/-! ## The sidebar -/

/-- The sidebar from a stored layout on. -/
def sidebar (stored : SidebarLayout) (top all : List Str) : System SidebarLayout Edit where
  init layout := layout = reconcile stored top all
  step layout edit next := next = edit.apply top all layout

/-- A stored layout every later step can rest on: the folders have ids of their own, no member
is read as a slot, and every project is named once. -/
structure Clean (stored : SidebarLayout) (top all : List Str) : Prop where
  ids : (stored.groups.map ProjectGroup.id).Nodup
  names : ∀ g ∈ stored.groups, ∀ m ∈ g.members, plain m = true
  once : ∀ n, n ∈ top ∨ n ∈ all → NamedOnce stored.groups n

theorem Clean.plain (h : Clean stored top all) {n : Str} (hn : n ∈ top ∨ n ∈ all) :
    plain n = true := by
  have honce := h.once n hn
  rw [NamedOnce] at honce
  by_cases hm : membership stored.groups n = true
  · obtain ⟨g, hg, hmem⟩ := membership_iff.mp hm
    exact h.names g hg n hmem
  · rw [if_neg hm] at honce
    exact honce

/-- What holds of every layout the sidebar gets to. -/
structure Kept (top all : List Str) (start layout : SidebarLayout) : Prop where
  once : ∀ n ∈ top, layout.times n = 1
  flat : ∀ n ∈ top, ∀ projects : List ProjectInfo,
    (∀ p ∈ projects, isDuplicate p (projects.map ProjectInfo.name) = true → p.name ≠ n) →
      (flattenForProjectOrder layout projects).count n = 1
  nested : ∀ n ∈ all, layout.times n ≤ 1
  same : ∀ n, n ∈ top ∨ n ∉ all → (n ∈ layout.places ↔ n ∈ start.places)

/-! ## Every layout reached -/

theorem reached_whole (h : Clean stored top all)
    (hreach : Reachable ((sidebar stored top all).when (Edit.fits all)) layout) : Whole layout := by
  refine Reachable.invariant ?_ ?_ hreach
  · rintro layout rfl
    exact whole_reconcile top all h.ids h.names
  · rintro layout edit next hwhole ⟨hfits, rfl⟩
    exact (Edit.lossless hwhole (fun n hn => h.plain (Or.inr hn)) hfits).2

theorem reached_lossless (h : Clean stored top all)
    (hreach : Reachable ((sidebar stored top all).when (Edit.fits all)) layout) :
    Lossless top all (reconcile stored top all) layout := by
  induction hreach with
  | start hinit => exact hinit ▸ Lossless.of_same fun _ => rfl
  | next hreach hstep ih =>
    obtain ⟨hfits, rfl⟩ := hstep
    have hplain := fun n hn => h.plain (n := n) (Or.inr hn)
    exact ih.trans (Edit.lossless (reached_whole h hreach) hplain hfits).1

theorem Lossless.kept_all (h : Clean stored top all) (hwhole : Whole layout)
    (hlossless : Lossless top all (reconcile stored top all) layout) :
    Kept top all (reconcile stored top all) layout := by
  have hstart : ∀ n, n ∈ top ∨ n ∈ all → (reconcile stored top all).times n ≤ 1 := by
    intro n hn
    rw [times_reconcile]
    have honce := h.once n hn
    rw [NamedOnce] at honce
    by_cases hm : membership stored.groups n = true
    · rw [if_pos hm] at honce ⊢
      exact Nat.le_of_eq honce
    · rw [if_neg hm]
      split_ifs <;> omega
  have hone : ∀ n ∈ top, layout.times n = 1 := by
    intro n hn
    have hle := hlossless.once n (hstart n (Or.inl hn))
    have hpos := hlossless.kept n (Or.inl hn)
      (by rw [(times_reconcile_eq_one hn).mpr (h.once n (Or.inl hn))]; exact Nat.one_pos)
    omega
  refine ⟨hone, fun n hn projects hdup => ?_, fun n hn => ?_, fun n hn => ?_⟩
  · rw [count_flattenForProjectOrder hwhole hdup]
    exact hone n hn
  · exact hlossless.once n (hstart n (Or.inr hn))
  · rw [← times_pos, ← times_pos]
    refine ⟨fun hpos => ?_, hlossless.kept n hn⟩
    rcases hn with htop | hout
    · rw [(times_reconcile_eq_one htop).mpr (h.once n (Or.inl htop))]
      exact Nat.one_pos
    · rcases hlossless.known n hpos with hold | htop | hin
      · exact hold
      · rw [(times_reconcile_eq_one htop).mpr (h.once n (Or.inl htop))]
        exact Nat.one_pos
      · exact absurd hin hout

/-- **No project is lost and none is doubled.** The pass puts every project in one place, and
there for good, exactly where every project is named once. And from a clean layout, over any
fitting changes, every project keeps exactly one place and stands once in the flattened order,
a duplicate has at most one, and no other name comes in or goes. -/
theorem nothing_lost (stored : SidebarLayout) (top all : List Str) :
    (((∀ n ∈ top, (reconcile stored top all).times n = 1)
        ∧ reconcile (reconcile stored top all) top all = reconcile stored top all)
      ↔ ∀ n ∈ top, NamedOnce stored.groups n)
    ∧ (Clean stored top all → ∀ layout,
        Reachable ((sidebar stored top all).when (Edit.fits all)) layout →
          Kept top all (reconcile stored top all) layout) := by
  refine ⟨reconcile_exact, fun h layout hreach => ?_⟩
  exact Lossless.kept_all h (reached_whole h hreach) (reached_lossless h hreach)

/-- A project dragged out of its folder onto a loose one. -/
def filed : SidebarLayout where
  order := ["b".toList, "group:f".toList]
  groups := [⟨"f".toList, "Front".toList, false, ["a".toList], by decide⟩]

theorem nothing_lost_dragged_out :
    Kept ["a".toList, "b".toList] ["a".toList, "b".toList]
      (reconcile filed ["a".toList, "b".toList] ["a".toList, "b".toList])
      ⟨["a".toList, "b".toList, "group:f".toList], [⟨"f".toList, "Front".toList, false, [], by decide⟩]⟩ := by
  have hclean : Clean filed ["a".toList, "b".toList] ["a".toList, "b".toList] := by
    refine ⟨by decide, by decide, fun n hn => ?_⟩
    have hin : n = "a".toList ∨ n = "b".toList := by simpa using hn
    rcases hin with rfl | rfl <;> decide
  refine (nothing_lost filed _ _).2 hclean _ ?_
  refine Reachable.next (a := .drop "a".toList "b".toList) (Reachable.start rfl) ⟨⟨by decide, ?_⟩, rfl⟩
  intro groupId h
  exact nomatch h

/-- A folder that has a project twice keeps it twice. -/
theorem twice_in_one_folder :
    ¬ ∀ (stored : SidebarLayout) (names : List Str), ∀ n ∈ names, (reconcile stored names names).times n = 1 := by
  intro h
  have hone := h ⟨["group:f".toList], [⟨"f".toList, "Front".toList, false, ["a".toList, "a".toList], by decide⟩]⟩
    ["a".toList] "a".toList mem_cons_self
  exact absurd hone (by decide)

end Lpm.Sidebar
