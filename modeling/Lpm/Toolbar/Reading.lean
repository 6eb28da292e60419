/-
Reading a layout off actions and zones. The items of a list stand in the strict order of their
spots, which the positions, the names and the kinds give; so a layout whose lists have the
items the model shows there, in the order of the spots, is the layout the model reads.
-/
import Lpm.Toolbar.Fits

set_option autoImplicit false

namespace Lpm.Toolbar

open List Option

open Distinct StableSort

variable {actions : List ActionInfo} {zones : List ZoneInfo} {layout : ActionsLayout}

/-- What an item of a list is ordered by. -/
def spotOf (actions : List ActionInfo) (zones : List ZoneInfo) (id : Text) : Spot :=
  match actions.find? fun a => a.name = id with
  | some a => spot a.positioned false
  | none =>
    match zones.find? fun z => zoneItemId z.name = id with
    | some z => spot z.positioned true
    | none => spot ⟨id, none⟩ false

variable (h : Listed actions zones)
include h

theorem Listed.spotOf_action {a : ActionInfo} (ha : a ∈ actions) :
    spotOf actions zones a.name = spot a.positioned false := by
  rw [spotOf, find_of_nodup h.names ha]

theorem Listed.spotOf_zone {z : ZoneInfo} (hz : z ∈ zones) :
    spotOf actions zones (zoneItemId z.name) = spot z.positioned true := by
  have hnone : (actions.find? fun a => a.name = zoneItemId z.name) = none := by
    rw [find?_eq_none]
    intro a ha
    simpa using h.ne_zoneItemId ha z.name
  have hnodup : (zones.map fun z => zoneItemId z.name).Nodup := by
    have hcomp : (zones.map fun z => zoneItemId z.name) = (zones.map ZoneInfo.name).map zoneItemId := by
      rw [List.map_map]
      rfl
    rw [hcomp]
    exact h.zoneNames.map fun _ _ => zoneItemId_injective
  have hfind := @find_of_nodup ZoneInfo Text _ (fun z => zoneItemId z.name) zones z hnodup hz
  rw [spotOf, hnone]
  dsimp only
  rw [hfind]

/-- The lists the model shows are in the order of the spots, the zones' lists where the
actions come in the order of the positions. -/
theorem Listed.build_strict (g : ActionGroup)
    (hsorted : isZoneGroup g = true → actions.Pairwise fun a b => rank a.positioned < rank b.positioned) :
    (listOf (buildActionsModel actions zones).layout g).Pairwise fun x y =>
      spotOf actions zones x < spotOf actions zones y := by
  have hrow : ∀ row (inZone : Text → List ActionInfo) (p : ActionInfo → Bool),
      ((rowItems row (actions.filter p) zones inZone).map RowItem.id).Pairwise fun x y =>
        spotOf actions zones x < spotOf actions zones y := by
    intro row inZone p
    have hstrict := rowItems_strict row inZone (h.names.sublist ((filter_sublist (p := p)).map _))
      h.zoneNames
    have hspot : ∀ item ∈ rowItems row (actions.filter p) zones inZone,
        spotOf actions zones item.id = spot item.positioned item.isZone := by
      intro item hitem
      rw [rowItems, sortWith_eq, (sortBy_perm _ _).mem_iff, mem_append] at hitem
      rcases hitem with hin | hin
      · obtain ⟨a, ha, rfl⟩ := List.mem_map.mp hin
        exact h.spotOf_action (mem_filter.mp ha).1
      · obtain ⟨z, hz, rfl⟩ := List.mem_map.mp hin
        exact h.spotOf_zone (mem_filter.mp hz).1
    rw [pairwise_map]
    refine hstrict.imp_of_mem fun {x y} hx hy hlt => ?_
    rw [hspot x hx, hspot y hy]
    exact hlt
  -- header and footer rows place their actions among the zones
  cases g with
  | header => exact hrow _ _ _
  | footer => exact hrow _ _ _
  | zone key =>
    rw [listOf]
    cases hlist : zoneList (buildActionsModel actions zones).layout key with
    | none => exact List.Pairwise.nil
    | some ids =>
      have hkey := zoneList_isSome.mp (isSome_iff_exists.mpr ⟨ids, hlist⟩)
      rw [keys_build] at hkey
      rw [zoneList_build ((mem_pushed.mp hkey).resolve_left not_mem_nil)] at hlist
      rw [getD_some, ← some.inj hlist, pairwise_map]
      refine ((hsorted rfl).filter _).imp_of_mem fun {a b} ha hb hlt => ?_
      rw [h.spotOf_action (mem_filter.mp ha).1, h.spotOf_action (mem_filter.mp hb).1, spot, spot,
        Prod.Lex.toLex_lt_toLex]
      exact Or.inl hlt

/-- **Reading.** The model of actions and zones has the lists of a layout, when every action is
shown and every zone displayed where the layout has it and the lists are in the order of the
spots. -/
theorem Listed.build_reads
    (hsorted : actions.Pairwise fun a b => rank a.positioned < rank b.positioned)
    (heach : ∀ g, (listOf layout g).Nodup)
    (hstands : ∀ g, ∀ id ∈ listOf layout g, Stands actions zones id)
    (hactions : ∀ a ∈ actions, ∀ g, shownIn zones a = some g ↔ a.name ∈ listOf layout g)
    (hzones : ∀ z ∈ zones, ∀ g, groupOfRow (zoneDisplayOf z) = g ↔ zoneItemId z.name ∈ listOf layout g)
    (hstrict : ∀ g, (listOf layout g).Pairwise fun x y => spotOf actions zones x < spotOf actions zones y)
    (g : ActionGroup) : listOf (buildActionsModel actions zones).layout g = listOf layout g := by
  refine eq_of_strict (h.build_strict g fun _ => hsorted) (hstrict g) ?_
  refine (perm_ext_iff_of_nodup (h.nodup_build g) (heach g)).mpr fun id => ?_
  constructor
  · intro hin
    rcases mem_listOf_build.mp hin with ⟨a, ha, rfl, hs⟩ | ⟨z, hz, rfl, hg⟩
    · exact (hactions a ha g).mp hs
    · exact (hzones z hz g).mp hg
  · intro hin
    rcases hstands g id hin with ⟨a, ha, rfl⟩ | ⟨z, hz, rfl⟩
    · exact (h.mem_build_action ha g).mpr ((hactions a ha g).mpr hin)
    · exact (h.mem_build_zone hz g).mpr ((hzones z hz g).mpr hin)

omit h

/-- Layouts of the same keys and the same lists are the same. -/
theorem sameLayout_of_lists {a b : ActionsLayout}
    (hkeys : (a.zones.map Prod.fst).Perm (b.zones.map Prod.fst))
    (hlists : ∀ g, listOf a g = listOf b g) : sameLayout a b = true := by
  have hlength : a.zones.length = b.zones.length := by
    rw [← length_map Prod.fst, hkeys.length_eq, length_map]
  have hzones : ∀ entry ∈ a.zones, zoneList b entry.1 = zoneList a entry.1 := by
    intro entry hentry
    have hkey : entry.1 ∈ a.zones.map Prod.fst := List.mem_map_of_mem hentry
    obtain ⟨ids, hids⟩ := isSome_iff_exists.mp (zoneList_isSome.mpr hkey)
    obtain ⟨ids', hids'⟩ := isSome_iff_exists.mp (zoneList_isSome.mpr (hkeys.mem_iff.mp hkey))
    have hlist := hlists (.zone entry.1)
    rw [listOf, listOf, hids, hids', getD_some, getD_some] at hlist
    rw [hids, hids', hlist]
  have hheader : a.header = b.header := hlists .header
  have hfooter : a.footer = b.footer := hlists .footer
  rw [sameLayout, hheader, hfooter, hlength]
  simpa using hzones

theorem zoneList_of_sameLayout {a b : ActionsLayout} (h : sameLayout a b = true) {key : Text}
    (hkey : key ∈ a.zones.map Prod.fst) : zoneList b key = zoneList a key := by
  rw [sameLayout, Bool.and_eq_true, List.all_eq_true] at h
  obtain ⟨entry, hentry, rfl⟩ := List.mem_map.mp hkey
  simpa using h.2 entry hentry

/-! ## What a written layout says

Of every action and zone: its place as its position where its list
is written, the list's display and layer where it changed lists, and nothing where the list is
left as it was. So what is written is shown where the layout has it. -/

open Distinct StableSort

variable {actions : List ActionInfo} {zones : List ZoneInfo} {layout : ActionsLayout}
  {before : Option ActionsLayout}

/-! ## Maps -/

section
variable {β : Type*} {sets : List (Text × β)} {key : Text} {b : β}

theorem mapGet_of_unique (hin : (key, b) ∈ sets) (hunique : ∀ b', (key, b') ∈ sets → b' = b) :
    mapGet sets key = some b := by
  rw [mapGet]
  cases hfind : sets.reverse.find? fun entry => entry.1 = key with
  | none =>
    have hnot := find?_eq_none.mp hfind (key, b) (mem_reverse.mpr hin)
    simp at hnot
  | some entry =>
    have hmem := mem_reverse.mp (mem_of_find?_eq_some hfind)
    have hkey : entry.1 = key := by simpa using find?_some hfind
    obtain ⟨k, b'⟩ := entry
    dsimp only at hkey
    rw [hkey] at hmem
    rw [map_some, hunique b' hmem]

theorem mapGet_of_not_mem (h : ∀ b, (key, b) ∉ sets) : mapGet sets key = none := by
  rw [mapGet, map_eq_none_iff, find?_eq_none]
  intro entry hentry hkey
  rw [decide_eq_true_eq] at hkey
  obtain ⟨k, b⟩ := entry
  dsimp only at hkey
  exact h b (hkey ▸ mem_reverse.mp hentry)

end

/-! ## What is set -/

theorem mem_zipIdx_iff {ids : List Text} {id : Text} {i : ℕ} : (id, i) ∈ ids.zipIdx ↔ ids[i]? = some id := by
  rw [mem_zipIdx_iff_getElem?]

theorem mem_visit {g : ActionGroup} {key : Text} {u : ActionUpdate} :
    (key, u) ∈ visit actions layout before zones g
      ↔ untouched (listOf layout g) (startList before g) = false
        ∧ ∃ i, (listOf layout g)[i]? = some key ∧ isZoneItemId key = false
          ∧ ∃ a, actionOf actions key = some a ∧ u = actionUpdate actions layout before zones g a i := by
  rw [visit]
  dsimp only
  by_cases hun : untouched (listOf layout g) (startList before g) = true
  · rw [if_pos hun, hun]
    simp
  · rw [if_neg hun, mem_filterMap]
    rw [Bool.not_eq_true] at hun
    constructor
    · rintro ⟨⟨id, i⟩, hmem, heq⟩
      refine ⟨hun, i, ?_⟩
      dsimp only at heq
      by_cases hitem : isZoneItemId id = true
      · rw [if_pos hitem] at heq
        exact nomatch heq
      · rw [if_neg hitem] at heq
        obtain ⟨a, ha, hpair⟩ := map_eq_some_iff.mp heq
        cases hpair
        exact ⟨mem_zipIdx_iff.mp hmem, by simpa using hitem, a, ha, rfl⟩
    · rintro ⟨-, i, hi, hitem, a, ha, rfl⟩
      refine ⟨(key, i), mem_zipIdx_iff.mpr hi, ?_⟩
      dsimp only
      rw [hitem, if_neg Bool.false_ne_true, ha]
      rfl

theorem mem_visitZones {row : ZoneDisplay} {name : Text} {u : ZoneUpdate} :
    (name, u) ∈ visitZones layout before zones row
      ↔ untouched (listOf layout (groupOfRow row)) (startList before (groupOfRow row)) = false
        ∧ ∃ i id, (listOf layout (groupOfRow row))[i]? = some id ∧ isZoneItemId id = true
          ∧ zoneNameOfItem id = name ∧ u = zoneUpdate before zones row name i := by
  rw [visitZones]
  dsimp only
  by_cases hun : untouched (listOf layout (groupOfRow row)) (startList before (groupOfRow row)) = true
  · rw [if_pos hun, hun]
    simp
  · rw [if_neg hun, mem_filterMap]
    rw [Bool.not_eq_true] at hun
    constructor
    · rintro ⟨⟨id, i⟩, hmem, heq⟩
      refine ⟨hun, i, id, mem_zipIdx_iff.mp hmem, ?_⟩
      dsimp only at heq
      by_cases hitem : isZoneItemId id = true
      · rw [if_pos hitem] at heq
        cases heq
        exact ⟨hitem, rfl, rfl⟩
      · rw [if_neg hitem] at heq
        exact nomatch heq
    · rintro ⟨-, i, id, hi, hitem, rfl, rfl⟩
      refine ⟨(id, i), mem_zipIdx_iff.mpr hi, ?_⟩
      dsimp only
      rw [if_pos hitem]

/-- A name stands at one place of one list. -/
theorem Fits.place_unique (h : Fits actions zones layout) {g g' : ActionGroup} {i i' : ℕ} {id : Text}
    (hi : (listOf layout g)[i]? = some id) (hi' : (listOf layout g')[i']? = some id) : g = g' ∧ i = i' := by
  have heq := h.apart g g' id (mem_of_getElem? hi) (mem_of_getElem? hi')
  subst heq
  refine ⟨rfl, ?_⟩
  obtain ⟨hlt, -⟩ := List.getElem?_eq_some_iff.mp hi
  exact (getElem?_inj hlt (h.each g)).mp (hi.trans hi'.symm)

theorem Listed.actionOf_eq (h : Listed actions zones) {a : ActionInfo} (ha : a ∈ actions) :
    actionOf actions a.name = some a := by
  have hnodup : (actions.reverse.map ActionInfo.name).Nodup := by
    rw [map_reverse, nodup_reverse]
    exact h.names
  exact find_of_nodup hnodup (mem_reverse.mpr ha)

/-- A button of a list that is written gets what its place there says. -/
theorem Listed.get_written (h : Listed actions zones) (hfits : Fits actions zones layout) {a : ActionInfo}
    (ha : a ∈ actions) {g : ActionGroup} {i : ℕ} (hi : (listOf layout g)[i]? = some a.name)
    (hwritten : untouched (listOf layout g) (startList before g) = false) :
    mapGet (buildLayoutUpdates actions layout before zones).actions a.name
      = some (actionUpdate actions layout before zones g a i) := by
  refine mapGet_of_unique ?_ ?_
  · refine mem_flatMap.mpr ⟨g, mem_groupsOf_of_mem (mem_of_getElem? hi), ?_⟩
    exact mem_visit.mpr ⟨hwritten, i, hi, h.buttons a ha, a, h.actionOf_eq ha, rfl⟩
  · intro u hu
    obtain ⟨g', -, hvisit⟩ := mem_flatMap.mp hu
    obtain ⟨-, i', hi', -, a', ha', rfl⟩ := mem_visit.mp hvisit
    rw [h.actionOf_eq ha] at ha'
    obtain ⟨rfl, rfl⟩ := hfits.place_unique hi hi'
    rw [some.inj ha']

/-- A button of no list that is written gets nothing. -/
theorem get_left {name : Text}
    (h : ∀ g, name ∈ listOf layout g → untouched (listOf layout g) (startList before g) = true) :
    mapGet (buildLayoutUpdates actions layout before zones).actions name = none := by
  refine mapGet_of_not_mem fun u hu => ?_
  obtain ⟨g, -, hvisit⟩ := mem_flatMap.mp hu
  obtain ⟨hwritten, i, hi, -⟩ := mem_visit.mp hvisit
  rw [h g (mem_of_getElem? hi)] at hwritten
  exact nomatch hwritten

theorem Fits.get_zone_written (hfits : Fits actions zones layout) {name : Text} {row : ZoneDisplay} {i : ℕ}
    (hi : (listOf layout (groupOfRow row))[i]? = some (zoneItemId name))
    (hwritten : untouched (listOf layout (groupOfRow row)) (startList before (groupOfRow row)) = false) :
    mapGet (buildLayoutUpdates actions layout before zones).zones name
      = some (zoneUpdate before zones row name i) := by
  have hmem : ∀ r u, (name, u) ∈ visitZones layout before zones r → r = row ∧ u = zoneUpdate before zones row name i := by
    intro r u hu
    obtain ⟨-, i', id, hi', hitem, hname, rfl⟩ := mem_visitZones.mp hu
    rw [← zoneItemId_zoneNameOfItem hitem, hname] at hi'
    obtain ⟨hg, rfl⟩ := hfits.place_unique hi hi'
    have hrow : r = row := by
      cases r <;> cases row <;> first | rfl | exact nomatch hg
    subst hrow
    exact ⟨rfl, rfl⟩
  refine mapGet_of_unique ?_ ?_
  · have hin : (name, zoneUpdate before zones row name i) ∈ visitZones layout before zones row :=
      mem_visitZones.mpr ⟨hwritten, i, zoneItemId name, hi, isZoneItemId_zoneItemId name,
        zoneNameOfItem_zoneItemId name, rfl⟩
    cases row with
    | header => exact mem_append_left _ hin
    | footer => exact mem_append_right _ hin
  · intro u hu
    rcases mem_append.mp hu with hin | hin
    · exact (hmem _ u hin).2
    · exact (hmem _ u hin).2

theorem get_zone_left {name : Text}
    (h : ∀ row, zoneItemId name ∈ listOf layout (groupOfRow row) →
      untouched (listOf layout (groupOfRow row)) (startList before (groupOfRow row)) = true) :
    mapGet (buildLayoutUpdates actions layout before zones).zones name = none := by
  have hmem : ∀ r u, (name, u) ∉ visitZones layout before zones r := by
    intro r u hu
    obtain ⟨hwritten, i, id, hi, hitem, hname, -⟩ := mem_visitZones.mp hu
    rw [← zoneItemId_zoneNameOfItem hitem, hname] at hi
    rw [h r (mem_of_getElem? hi)] at hwritten
    exact nomatch hwritten
  refine mapGet_of_not_mem fun u hu => ?_
  rcases mem_append.mp hu with hin | hin
  · exact hmem _ u hin
  · exact hmem _ u hin

end Lpm.Toolbar
