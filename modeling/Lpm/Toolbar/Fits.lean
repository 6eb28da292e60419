/-
Layouts that fit the actions and zones they are about: the same lists, with every button and
zone in one of them and once. The model's layout is one, and every move of a button or a zone
keeps it one.
-/
import Lpm.Lib.Transition
import Lpm.Toolbar.Lists

set_option autoImplicit false

namespace Lpm.Toolbar

open List Option

open Distinct StableSort Transition

variable {actions : List ActionInfo} {zones : List ZoneInfo} {layout : ActionsLayout}

/-! ## Lists by group -/

/-- A layout has a group's list when it is a row's or has the key. -/
theorem mem_groupsOf {g : ActionGroup} :
    g ∈ groupsOf layout ↔ match g with
      | .zone key => key ∈ layout.zones.map Prod.fst
      | _ => True := by
  rw [groupsOf]
  cases g <;> simp

theorem zoneList_map (entries : List (Text × List Text)) (f : Text → List Text → List Text) (key : Text) :
    ((entries.map fun entry => (entry.1, f entry.1 entry.2)).find? fun entry => entry.1 = key).map Prod.snd
      = ((entries.find? fun entry => entry.1 = key).map Prod.snd).map (f key) := by
  induction entries with
  | nil => rfl
  | cons entry rest ih =>
    rw [map_cons, find?_cons, find?_cons]
    by_cases h : entry.1 = key
    · simp [h]
    · simp only [h, decide_false]
      exact ih

theorem zoneList_isSome {key : Text} : (zoneList layout key).isSome = true ↔ key ∈ layout.zones.map Prod.fst := by
  rw [zoneList, isSome_map, find?_isSome]
  simp

/-- A list that is not empty is one of the layout's. -/
theorem mem_groupsOf_of_mem {g : ActionGroup} {id : Text} (h : id ∈ listOf layout g) : g ∈ groupsOf layout := by
  rw [mem_groupsOf]
  cases g with
  | header => trivial
  | footer => trivial
  | zone key =>
    dsimp only
    rw [← zoneList_isSome]
    cases hlist : zoneList layout key with
    | none =>
      rw [listOf, hlist] at h
      exact nomatch h
    | some ids => rfl

/-- What a move makes of a list: it loses what was dragged, and the target gains it. -/
theorem listOf_applyMove {draggedId : Text} {target : DropTarget} (htarget : target.group ∈ groupsOf layout)
    (hzone : (isZoneItemId draggedId && isZoneGroup target.group) = false) (g : ActionGroup)
    (hg : g ∈ groupsOf layout) :
    listOf (applyMove layout draggedId target) g
      = if g = target.group then spliced (without (listOf layout g) draggedId) target.index draggedId
        else without (listOf layout g) draggedId := by
  rw [applyMove, if_neg (not_not.mpr htarget), hzone, if_neg Bool.false_ne_true]
  cases g with
  | header => rfl
  | footer => rfl
  | zone key =>
    rw [mem_groupsOf] at hg
    obtain ⟨ids, hids⟩ := isSome_iff_exists.mp (zoneList_isSome.mpr hg)
    have hmap := zoneList_map layout.zones (fun k ids => if ActionGroup.zone k = target.group then
      spliced (without ids draggedId) target.index draggedId else without ids draggedId) key
    rw [listOf, listOf, hids, zoneList]
    dsimp only
    rw [hmap, ← zoneList, hids]
    rfl

theorem keys_applyMove (layout : ActionsLayout) (draggedId : Text) (target : DropTarget) :
    (applyMove layout draggedId target).zones.map Prod.fst = layout.zones.map Prod.fst := by
  rw [applyMove]
  by_cases htarget : target.group ∉ groupsOf layout
  · rw [if_pos htarget]
  · rw [if_neg htarget]
    by_cases hzone : (isZoneItemId draggedId && isZoneGroup target.group) = true
    · rw [if_pos hzone]
    · rw [if_neg hzone, List.map_map]
      rfl

theorem perm_spliced (ids : List Text) (index : ℤ) (id : Text) : (spliced ids index id).Perm (id :: ids) := by
  rw [spliced]
  refine perm_insertIdx id ids ?_
  omega

theorem mem_without {ids : List Text} {id x : Text} : x ∈ without ids id ↔ x ∈ ids ∧ x ≠ id := by
  simp [without]

/-! ## Fitting -/

/-- What stands in the lists: the buttons that are shown, and the zones. -/
def Stands (actions : List ActionInfo) (zones : List ZoneInfo) (id : Text) : Prop :=
  (∃ a ∈ actions, a.name = id) ∨ ∃ z ∈ zones, zoneItemId z.name = id

/-- The same lists, with every button and zone in one of them and once. -/
structure Fits (actions : List ActionInfo) (zones : List ZoneInfo) (layout : ActionsLayout) : Prop where
  keys : layout.zones.map Prod.fst = pushed [] (zones.flatMap listKeysOfZone)
  each : ∀ g, (listOf layout g).Nodup
  apart : ∀ g g' id, id ∈ listOf layout g → id ∈ listOf layout g' → g = g'
  stands : ∀ g, ∀ id ∈ listOf layout g, Stands actions zones id
  shown : ∀ a ∈ actions, (shownIn zones a).isSome = true → ∃ g, a.name ∈ listOf layout g
  placed : ∀ z ∈ zones, ∃ row, zoneItemId z.name ∈ listOf layout (groupOfRow row)
  inner : ∀ key, ∀ id ∈ listOf layout (.zone key), isZoneItemId id = false

theorem isZoneGroup_groupOfRow (row : ZoneDisplay) : isZoneGroup (groupOfRow row) = false := by
  cases row <;> rfl

theorem Fits.applyMove (h : Fits actions zones layout) {draggedId : Text}
    (hdragged : Stands actions zones draggedId) (target : DropTarget) :
    Fits actions zones (applyMove layout draggedId target) := by
  by_cases htarget : target.group ∈ groupsOf layout
  swap
  · rw [Toolbar.applyMove, if_pos htarget]
    exact h
  by_cases hzone : (isZoneItemId draggedId && isZoneGroup target.group) = true
  · rw [Toolbar.applyMove, if_neg (not_not.mpr htarget), if_pos hzone]
    exact h
  rw [Bool.not_eq_true] at hzone
  have hlist := fun g hg => listOf_applyMove htarget hzone g hg
  have hkeys := keys_applyMove layout draggedId target
  have hgroup : ∀ g, g ∈ groupsOf (Toolbar.applyMove layout draggedId target) ↔ g ∈ groupsOf layout := by
    intro g
    rw [mem_groupsOf, mem_groupsOf, hkeys]
  -- what stands in a list now: what was dragged in the target, all else where it stood
  have hmem : ∀ g id, id ∈ listOf (Toolbar.applyMove layout draggedId target) g ↔
      (g = target.group ∧ id = draggedId) ∨ (id ∈ listOf layout g ∧ id ≠ draggedId) := by
    intro g id
    by_cases hg : g ∈ groupsOf layout
    · rw [hlist g hg]
      by_cases heq : g = target.group
      · rw [if_pos heq, (perm_spliced _ _ _).mem_iff, mem_cons, mem_without]
        simp [heq]
      · rw [if_neg heq, mem_without]
        simp [heq]
    · constructor
      · intro hin
        exact absurd ((hgroup g).mp (mem_groupsOf_of_mem hin)) hg
      · rintro (⟨rfl, -⟩ | ⟨hin, -⟩)
        · exact absurd htarget hg
        · exact absurd (mem_groupsOf_of_mem hin) hg
  refine ⟨?_, ?_, ?_, ?_, ?_, ?_, ?_⟩
  · rw [hkeys]
    exact h.keys
  · intro g
    by_cases hg : g ∈ groupsOf layout
    · rw [hlist g hg]
      have hnodup : (without (listOf layout g) draggedId).Nodup := (h.each g).filter _
      by_cases heq : g = target.group
      · rw [if_pos heq, (perm_spliced _ _ _).nodup_iff, nodup_cons]
        exact ⟨fun hin => (mem_without.mp hin).2 rfl, hnodup⟩
      · rw [if_neg heq]
        exact hnodup
    · have hnil : listOf (Toolbar.applyMove layout draggedId target) g = [] := by
        rw [eq_nil_iff_forall_not_mem]
        intro id hin
        exact hg ((hgroup g).mp (mem_groupsOf_of_mem hin))
      rw [hnil]
      exact nodup_nil
  · intro g g' id hin hin'
    rcases (hmem g id).mp hin with ⟨heq, hid⟩ | ⟨hold, hne⟩
    · rcases (hmem g' id).mp hin' with ⟨heq', -⟩ | ⟨-, hne⟩
      · rw [heq, heq']
      · exact absurd hid hne
    · rcases (hmem g' id).mp hin' with ⟨-, hid⟩ | ⟨hold', -⟩
      · exact absurd hid hne
      · exact h.apart g g' id hold hold'
  · intro g id hin
    rcases (hmem g id).mp hin with ⟨-, rfl⟩ | ⟨hold, -⟩
    · exact hdragged
    · exact h.stands g id hold
  · intro a ha hshown
    by_cases heq : a.name = draggedId
    · exact ⟨target.group, (hmem _ _).mpr (Or.inl ⟨rfl, heq⟩)⟩
    · obtain ⟨g, hg⟩ := h.shown a ha hshown
      exact ⟨g, (hmem _ _).mpr (Or.inr ⟨hg, heq⟩)⟩
  · intro z hz
    by_cases heq : zoneItemId z.name = draggedId
    · rw [← heq, isZoneItemId_zoneItemId, Bool.true_and] at hzone
      cases hgroup : target.group with
      | header => exact ⟨.header, (hmem _ _).mpr (Or.inl ⟨hgroup.symm, heq⟩)⟩
      | footer => exact ⟨.footer, (hmem _ _).mpr (Or.inl ⟨hgroup.symm, heq⟩)⟩
      | zone key =>
        rw [hgroup] at hzone
        exact nomatch hzone
    · obtain ⟨row, hrow⟩ := h.placed z hz
      exact ⟨row, (hmem _ _).mpr (Or.inr ⟨hrow, heq⟩)⟩
  · intro key id hin
    rcases (hmem _ id).mp hin with ⟨heq, rfl⟩ | ⟨hold, -⟩
    · rw [← heq] at hzone
      simpa [isZoneGroup] using hzone
    · exact h.inner key id hold

/-! ## The model's layout -/

theorem keys_build (actions : List ActionInfo) (zones : List ZoneInfo) :
    (buildActionsModel actions zones).layout.zones.map Prod.fst
      = pushed [] (zones.flatMap listKeysOfZone) := by
  rw [buildActionsModel, List.map_map]
  exact List.map_id _

theorem zoneList_build {key : Text} (hkey : key ∈ zones.flatMap listKeysOfZone) :
    zoneList (buildActionsModel actions zones).layout key
      = some ((actions.filter fun a => shownIn zones a = some (.zone key)).map ActionInfo.name) := by
  have hmem : key ∈ pushed [] (zones.flatMap listKeysOfZone) := mem_pushed.mpr (Or.inr hkey)
  rw [zoneList, buildActionsModel]
  dsimp only
  have hnodup : (((pushed [] (zones.flatMap listKeysOfZone)).map fun key =>
      (key, (actions.filter fun a => shownIn zones a = some (.zone key)).map ActionInfo.name)).map
        Prod.fst).Nodup := by
    rw [List.map_map]
    have hid := List.map_id (pushed [] (zones.flatMap listKeysOfZone))
    exact hid.symm ▸ nodup_pushed nodup_nil
  have hentry : (key, (actions.filter fun a => shownIn zones a = some (.zone key)).map ActionInfo.name)
      ∈ (pushed [] (zones.flatMap listKeysOfZone)).map fun key =>
        (key, (actions.filter fun a => shownIn zones a = some (.zone key)).map ActionInfo.name) :=
    List.mem_map.mpr ⟨key, hmem, rfl⟩
  have hfind := find_of_nodup hnodup hentry
  dsimp only at hfind
  rw [hfind, map_some]

/-- What the model shows in a list: the actions of that list, and in a row the row's zones. -/
theorem mem_listOf_build {g : ActionGroup} {id : Text} :
    id ∈ listOf (buildActionsModel actions zones).layout g
      ↔ (∃ a ∈ actions, a.name = id ∧ shownIn zones a = some g)
        ∨ ∃ z ∈ zones, zoneItemId z.name = id ∧ groupOfRow (zoneDisplayOf z) = g := by
  -- the two rows are built alike
  have hrow : ∀ row, id ∈ listOf (buildActionsModel actions zones).layout (groupOfRow row)
      ↔ (∃ a ∈ actions, a.name = id ∧ shownIn zones a = some (groupOfRow row))
        ∨ ∃ z ∈ zones, zoneItemId z.name = id ∧ groupOfRow (zoneDisplayOf z) = groupOfRow row := by
    intro row
    have hinj : ∀ r r' : ZoneDisplay, groupOfRow r = groupOfRow r' ↔ r = r' := by
      intro r r'
      cases r <;> cases r' <;> simp [groupOfRow]
    have hlist : listOf (buildActionsModel actions zones).layout (groupOfRow row)
        = (rowItems row (actions.filter fun a => shownIn zones a = some (groupOfRow row)) zones
            fun key => actions.filter fun a => shownIn zones a = some (.zone key)).map RowItem.id := by
      cases row <;> rfl
    rw [hlist, (rowItems_ids_perm _ _ _ _).mem_iff, mem_append, List.mem_map, List.mem_map]
    simp only [mem_filter, decide_eq_true_eq, hinj]
    constructor
    · rintro (⟨a, ⟨ha, hs⟩, hid⟩ | ⟨z, ⟨hz, hr⟩, hid⟩)
      · exact Or.inl ⟨a, ha, hid, hs⟩
      · exact Or.inr ⟨z, hz, hid, hr⟩
    · rintro (⟨a, ha, hid, hs⟩ | ⟨z, hz, hid, hr⟩)
      · exact Or.inl ⟨a, ⟨ha, hs⟩, hid⟩
      · exact Or.inr ⟨z, ⟨hz, hr⟩, hid⟩
  cases g with
  | header => exact hrow .header
  | footer => exact hrow .footer
  | zone key =>
    have hno : ¬ ∃ z ∈ zones, zoneItemId z.name = id ∧ groupOfRow (zoneDisplayOf z) = .zone key := by
      rintro ⟨z, -, -, heq⟩
      have hfalse := isZoneGroup_groupOfRow (zoneDisplayOf z)
      rw [heq] at hfalse
      exact nomatch hfalse
    rw [or_iff_left hno]
    -- a list has a key of some zone, or is not written
    by_cases hkey : key ∈ zones.flatMap listKeysOfZone
    · rw [listOf, zoneList_build hkey, getD_some, List.mem_map]
      simp only [mem_filter, decide_eq_true_eq]
      constructor
      · rintro ⟨a, ⟨ha, hs⟩, hid⟩
        exact ⟨a, ha, hid, hs⟩
      · rintro ⟨a, ha, hid, hs⟩
        exact ⟨a, ⟨ha, hs⟩, hid⟩
    · constructor
      · intro hin
        have hgroup := mem_groupsOf.mp (mem_groupsOf_of_mem hin)
        rw [keys_build] at hgroup
        exact absurd ((mem_pushed.mp hgroup).resolve_left not_mem_nil) hkey
      · rintro ⟨a, -, -, hs⟩
        exact absurd (shownIn_isGroup hs) hkey

variable (h : Listed actions zones)
include h

theorem Listed.eq_of_name {a b : ActionInfo} (ha : a ∈ actions)
    (hb : b ∈ actions) (heq : a.name = b.name) : a = b :=
  inj_on_of_nodup_map h.names ha hb heq

theorem Listed.ne_zoneItemId {a : ActionInfo} (ha : a ∈ actions) (name : Text) :
    a.name ≠ zoneItemId name := by
  intro heq
  have hfalse := h.buttons a ha
  rw [heq, isZoneItemId_zoneItemId] at hfalse
  exact nomatch hfalse

/-- An action stands in the list it is shown in. -/
theorem Listed.mem_build_action {a : ActionInfo} (ha : a ∈ actions) (g : ActionGroup) :
    a.name ∈ listOf (buildActionsModel actions zones).layout g ↔ shownIn zones a = some g := by
  rw [mem_listOf_build]
  constructor
  · rintro (⟨b, hb, hname, hs⟩ | ⟨z, -, hname, -⟩)
    · rw [← h.eq_of_name hb ha hname]
      exact hs
    · exact absurd hname.symm (h.ne_zoneItemId ha z.name)
  · intro hs
    exact Or.inl ⟨a, ha, rfl, hs⟩

/-- A zone stands in the row of its display. -/
theorem Listed.mem_build_zone {z : ZoneInfo} (hz : z ∈ zones) (g : ActionGroup) :
    zoneItemId z.name ∈ listOf (buildActionsModel actions zones).layout g
      ↔ groupOfRow (zoneDisplayOf z) = g := by
  rw [mem_listOf_build]
  constructor
  · rintro (⟨a, ha, hname, -⟩ | ⟨w, hw, hname, hg⟩)
    · exact absurd hname (h.ne_zoneItemId ha z.name)
    · rw [← inj_on_of_nodup_map h.zoneNames hw hz (zoneItemId_injective hname)]
      exact hg
  · intro hg
    exact Or.inr ⟨z, hz, rfl, hg⟩

theorem Listed.nodup_build (g : ActionGroup) :
    (listOf (buildActionsModel actions zones).layout g).Nodup := by
  have hrow : ∀ row (inZone : Text → List ActionInfo) (p : ActionInfo → Bool),
      ((rowItems row (actions.filter p) zones inZone).map RowItem.id).Nodup := by
    intro row inZone p
    rw [(rowItems_ids_perm _ _ _ _).nodup_iff]
    refine List.Nodup.append (h.names.sublist (filter_sublist.map _)) ?_ ?_
    · have hcomp : (zones.filter fun zone => zoneDisplayOf zone = row).map (fun zone => zoneItemId zone.name)
          = ((zones.filter fun zone => zoneDisplayOf zone = row).map ZoneInfo.name).map zoneItemId := by
        rw [List.map_map]
        rfl
      rw [hcomp]
      exact (h.zoneNames.sublist (filter_sublist.map _)).map fun _ _ => zoneItemId_injective
    · intro id hin hin'
      obtain ⟨a, ha, rfl⟩ := List.mem_map.mp hin
      obtain ⟨z, -, heq⟩ := List.mem_map.mp hin'
      exact h.ne_zoneItemId (mem_filter.mp ha).1 z.name heq.symm
  cases g with
  | header => exact hrow _ _ _
  | footer => exact hrow _ _ _
  | zone key =>
    rw [listOf]
    cases hlist : zoneList (buildActionsModel actions zones).layout key with
    | none => exact nodup_nil
    | some ids =>
      have hkey := zoneList_isSome.mp (isSome_iff_exists.mpr ⟨ids, hlist⟩)
      rw [keys_build] at hkey
      rw [zoneList_build ((mem_pushed.mp hkey).resolve_left not_mem_nil)] at hlist
      rw [← some.inj hlist]
      exact h.names.sublist (filter_sublist.map _)

theorem Listed.fits_build :
    Fits actions zones (buildActionsModel actions zones).layout := by
  refine ⟨keys_build actions zones, h.nodup_build, ?_, ?_, ?_, ?_, ?_⟩
  · intro g g' id hin hin'
    rcases mem_listOf_build.mp hin with ⟨a, ha, rfl, hs⟩ | ⟨z, hz, rfl, hg⟩
    · rw [(h.mem_build_action ha g').mp hin'] at hs
      exact (some.inj hs).symm
    · rw [← hg, ← (h.mem_build_zone hz g').mp hin']
  · intro g id hin
    rcases mem_listOf_build.mp hin with ⟨a, ha, hname, -⟩ | ⟨z, hz, hname, -⟩
    · exact Or.inl ⟨a, ha, hname⟩
    · exact Or.inr ⟨z, hz, hname⟩
  · intro a ha hs
    obtain ⟨g, hg⟩ := isSome_iff_exists.mp hs
    exact ⟨g, (h.mem_build_action ha g).mpr hg⟩
  · intro z hz
    exact ⟨zoneDisplayOf z, (h.mem_build_zone hz _).mpr rfl⟩
  · intro key id hin
    rcases mem_listOf_build.mp hin with ⟨a, ha, rfl, -⟩ | ⟨z, -, -, hg⟩
    · exact h.buttons a ha
    · have hfalse := isZoneGroup_groupOfRow (zoneDisplayOf z)
      rw [hg] at hfalse
      exact nomatch hfalse

omit h

/-! ## Drags -/

/-- The layouts that drags of the listed buttons and zones lead to. -/
def drags (actions : List ActionInfo) (zones : List ZoneInfo) :
    System ActionsLayout (Text × DropTarget) where
  init layout := layout = (buildActionsModel actions zones).layout
  step layout drag next := Stands actions zones drag.1 ∧ next = applyMove layout drag.1 drag.2

theorem Listed.fits_dragged (h : Listed actions zones) (hreach : Reachable (drags actions zones) layout) :
    Fits actions zones layout := by
  refine Reachable.invariant ?_ ?_ hreach
  · rintro layout rfl
    exact h.fits_build
  · rintro layout ⟨id, target⟩ next hfits ⟨hstands, rfl⟩
    exact hfits.applyMove hstands target

end Lpm.Toolbar
