/-
A layout that drags lead to reads back as it was written. What stood before is what the model
shows, so a button's display and layer are written exactly when they no longer name its list;
and a list that is left as it was still stands in its order, since the actions come in the
order of the positions.
-/
import Lpm.Toolbar.Reading
import Mathlib.Tactic.Linarith

set_option autoImplicit false

namespace Lpm.Toolbar

open List Option

open Distinct StableSort Transition

variable {actions : List ActionInfo} {zones : List ZoneInfo} {layout : ActionsLayout}
  {before : Option ActionsLayout}

/-- The layout a drag started from is the one the model had, when it is passed. -/
def FromStart (actions : List ActionInfo) (zones : List ZoneInfo) (before : Option ActionsLayout) : Prop :=
  before = none ∨ before = some (buildActionsModel actions zones).layout

/-! ## What there was before -/

theorem Fits.key_mem (h : Fits actions zones layout) {key : Text} (hkey : key ∈ layout.zones.map Prod.fst) :
    key ∈ zones.flatMap listKeysOfZone := by
  rw [h.keys] at hkey
  exact (mem_pushed.mp hkey).resolve_left not_mem_nil

theorem Fits.isGroup (h : Fits actions zones layout) {g : ActionGroup} {id : Text}
    (hin : id ∈ listOf layout g) : IsGroup zones g := by
  cases g with
  | header => trivial
  | footer => trivial
  | zone key => exact h.key_mem (mem_groupsOf.mp (mem_groupsOf_of_mem hin))

theorem Listed.previous_eq (h : Listed actions zones) (hfits : Fits actions zones layout)
    (hstart : FromStart actions zones before) {a : ActionInfo} (ha : a ∈ actions) :
    previous layout before zones a = shownIn zones a := by
  rw [previous, h.groupOfAction_eq a fun key => hfits.key_mem]
  rcases hstart with rfl | rfl
  · rfl
  · rw [bind_some]
    cases hgroup : groupOf (buildActionsModel actions zones).layout a.name with
    | none => rfl
    | some g =>
      have hin : a.name ∈ listOf (buildActionsModel actions zones).layout g := by
        simpa using find?_some hgroup
      rw [some_or, (h.mem_build_action ha g).mp hin]

theorem Listed.startRow_eq (h : Listed actions zones) (hstart : FromStart actions zones before)
    {z : ZoneInfo} (hz : z ∈ zones) : startRow before zones z.name = some (zoneDisplayOf z) := by
  have hnodup : (zones.reverse.map ZoneInfo.name).Nodup := by
    rw [map_reverse, nodup_reverse]
    exact h.zoneNames
  rw [startRow, find_of_nodup hnodup (mem_reverse.mpr hz)]
  rcases hstart with rfl | rfl
  · rfl
  · have hheader : zoneItemId z.name ∈ (buildActionsModel actions zones).layout.header ↔ _ :=
      h.mem_build_zone hz .header
    have hfooter : zoneItemId z.name ∈ (buildActionsModel actions zones).layout.footer ↔ _ :=
      h.mem_build_zone hz .footer
    rw [bind_some, rowOfZone]
    cases hrow : zoneDisplayOf z with
    | header =>
      rw [hrow] at hheader
      rw [if_pos (hheader.mpr rfl)]
      rfl
    | footer =>
      rw [hrow] at hheader hfooter
      have hnot : zoneItemId z.name ∉ (buildActionsModel actions zones).layout.header := fun hin =>
        nomatch hheader.mp hin
      rw [if_neg hnot, if_pos (hfooter.mpr rfl)]
      rfl

/-- A list that is left alone is the model's. -/
theorem FromStart.list_eq (hstart : FromStart actions zones before) {g : ActionGroup}
    (hleft : untouched (listOf layout g) (startList before g) = true) :
    listOf (buildActionsModel actions zones).layout g = listOf layout g := by
  rw [untouched, decide_eq_true_eq, startList] at hleft
  rcases hstart with rfl | rfl
  · exact nomatch hleft
  · rw [bind_some] at hleft
    cases g with
    | header => exact some.inj hleft
    | footer => exact some.inj hleft
    | zone key =>
      dsimp only at hleft
      rw [listOf, hleft]
      rfl

/-! ## What is written -/

/-- An action as it is written. -/
def newAction (actions : List ActionInfo) (layout : ActionsLayout) (before : Option ActionsLayout)
    (zones : List ZoneInfo) (a : ActionInfo) : ActionInfo :=
  ((mapGet (buildLayoutUpdates actions layout before zones).actions a.name).map fun u => u.write a).getD a

/-- A zone as it is written. -/
def newZone (actions : List ActionInfo) (layout : ActionsLayout) (before : Option ActionsLayout)
    (zones : List ZoneInfo) (z : ZoneInfo) : ZoneInfo :=
  ((mapGet (buildLayoutUpdates actions layout before zones).zones z.name).map fun u => u.write z).getD z

theorem newAction_name (a : ActionInfo) : (newAction actions layout before zones a).name = a.name := by
  rw [newAction]
  cases mapGet (buildLayoutUpdates actions layout before zones).actions a.name <;> rfl

theorem newZone_name (z : ZoneInfo) : (newZone actions layout before zones z).name = z.name := by
  rw [newZone]
  cases mapGet (buildLayoutUpdates actions layout before zones).zones z.name <;> rfl

theorem newZone_layers (z : ZoneInfo) : (newZone actions layout before zones z).layers = z.layers := by
  rw [newZone]
  cases mapGet (buildLayoutUpdates actions layout before zones).zones z.name <;> rfl

theorem written_actions_perm (actions : List ActionInfo) (zones : List ZoneInfo) (layout : ActionsLayout)
    (before : Option ActionsLayout) :
    (written actions zones layout before).1.Perm (actions.map (newAction actions layout before zones)) := by
  rw [written, sortWith_eq]
  exact sortBy_perm _ _

theorem written_zones_perm (actions : List ActionInfo) (zones : List ZoneInfo) (layout : ActionsLayout)
    (before : Option ActionsLayout) :
    (written actions zones layout before).2.Perm (zones.map (newZone actions layout before zones)) := by
  rw [written]
  dsimp only
  by_cases hnil : (buildLayoutUpdates actions layout before zones).zones = []
  · have hsame : zones.map (newZone actions layout before zones) = zones := by
      conv_rhs => rw [← List.map_id zones]
      refine map_congr_left fun z _ => ?_
      rw [newZone, hnil]
      rfl
    rw [if_pos hnil, hsame]
  · rw [if_neg hnil, sortWith_eq]
    exact sortBy_perm _ _

/-- Where an action is shown depends on the names and layers of the zones. -/
theorem shownIn_congr {zones' : List ZoneInfo} {f : ZoneInfo → ZoneInfo} (hzones : (zones.map ZoneInfo.name).Nodup)
    (hperm : zones'.Perm (zones.map f)) (hname : ∀ z, (f z).name = z.name)
    (hlayers : ∀ z, (f z).layers = z.layers) (a : ActionInfo) : shownIn zones' a = shownIn zones a := by
  have hlayersOf : ∀ z, layersOf (f z) = layersOf z := fun z => by rw [layersOf, layersOf, hlayers]
  have hkeysOf : ∀ z, listKeysOfZone (f z) = listKeysOfZone z := fun z => by
    rw [listKeysOfZone, listKeysOfZone, hlayersOf, hname]
  have hmem : ∀ key, key ∈ zones'.flatMap listKeysOfZone ↔ key ∈ zones.flatMap listKeysOfZone := by
    intro key
    rw [(hperm.flatMap_right _).mem_iff, flatMap_map, funext hkeysOf]
  have hnames : zones'.map ZoneInfo.name |>.Perm (zones.map ZoneInfo.name) := by
    have hmap := hperm.map ZoneInfo.name
    have hcomp : ZoneInfo.name ∘ f = ZoneInfo.name := funext hname
    rw [List.map_map, hcomp] at hmap
    exact hmap
  -- a zone is found by its name, which it has alone
  have hfind : ∀ name, (zoneByName zones' name).map (fun zone => listKeyForAction zone a.layer)
      = (zoneByName zones name).map fun zone => listKeyForAction zone a.layer := by
    intro name
    cases hold : zoneByName zones name with
    | some z =>
      obtain ⟨hz, rfl⟩ := zoneByName_some hold
      have hnodup : (zones'.reverse.map ZoneInfo.name).Nodup := by
        rw [map_reverse, nodup_reverse]
        exact hnames.nodup_iff.mpr hzones
      have hin : f z ∈ zones'.reverse :=
        mem_reverse.mpr (hperm.mem_iff.mpr (List.mem_map_of_mem hz))
      have hnew := find_of_nodup hnodup hin
      rw [hname] at hnew
      rw [zoneByName, hnew, map_some, map_some, listKeyForAction, listKeyForAction, hlayersOf,
        hname]
    | none =>
      cases hnew : zoneByName zones' name with
      | none => rfl
      | some z' =>
        obtain ⟨hz', rfl⟩ := zoneByName_some hnew
        obtain ⟨z, hz, rfl⟩ := List.mem_map.mp (hperm.mem_iff.mp hz')
        have hnot := find?_eq_none.mp hold z (mem_reverse.mpr hz)
        rw [hname] at hnot
        simp at hnot
  have hkey : (if isHeaderDisplay a.display then none else zoneByName zones' a.display).map
      (fun zone => listKeyForAction zone a.layer)
      = (if isHeaderDisplay a.display then none else zoneByName zones a.display).map
        fun zone => listKeyForAction zone a.layer := by
    split_ifs
    · rfl
    · exact hfind _
  rw [shownIn, shownIn, hkey]
  simp only [hmem]

variable (h : Listed actions zones)
include h

variable (hfits : Fits actions zones layout)
include hfits

/-- What is written is shown where the layout has it. -/
theorem Listed.shownIn_newAction
    (hstart : FromStart actions zones before) {a : ActionInfo} (ha : a ∈ actions) (g : ActionGroup) :
    shownIn zones (newAction actions layout before zones a) = some g ↔ a.name ∈ listOf layout g := by
  have hshown : ∀ g, a.name ∈ listOf layout g →
      shownIn zones (newAction actions layout before zones a) = some g := by
    intro g hin
    by_cases hleft : untouched (listOf layout g) (startList before g) = true
    · have hnone : mapGet (buildLayoutUpdates actions layout before zones).actions a.name = none := by
        refine get_left fun g' hin' => ?_
        rw [hfits.apart g' g a.name hin' hin]
        exact hleft
      rw [newAction, hnone]
      refine (h.mem_build_action ha g).mp ?_
      rw [hstart.list_eq hleft]
      exact hin
    · rw [Bool.not_eq_true] at hleft
      obtain ⟨i, hi⟩ := getElem?_of_mem hin
      rw [newAction, h.get_written hfits ha hi hleft, map_some, getD_some, actionUpdate,
        h.previous_eq hfits hstart ha]
      by_cases hsame : shownIn zones a = some g
      · rw [if_neg (not_not.mpr hsame)]
        exact hsame
      · rw [if_pos hsame]
        refine h.shownIn_of_display (hfits.isGroup hin) rfl fun l hl => ?_
        rw [ActionUpdate.write]
        dsimp only
        rw [hl]
  constructor
  · intro hs
    by_cases hany : ∃ g', a.name ∈ listOf layout g'
    · obtain ⟨g', hin⟩ := hany
      rw [hshown g' hin] at hs
      rw [← some.inj hs]
      exact hin
    -- an action of no list was in none and is left as it is
    · have hnone : mapGet (buildLayoutUpdates actions layout before zones).actions a.name = none :=
        get_left fun g' hin' => absurd ⟨g', hin'⟩ hany
      rw [newAction, hnone] at hs
      exact absurd (hfits.shown a ha (isSome_iff_exists.mpr ⟨g, hs⟩)) hany
  · exact hshown g

/-- And a zone is displayed in the row the layout has it in. -/
theorem Listed.display_newZone
    (hstart : FromStart actions zones before) {z : ZoneInfo} (hz : z ∈ zones) (g : ActionGroup) :
    groupOfRow (zoneDisplayOf (newZone actions layout before zones z)) = g
      ↔ zoneItemId z.name ∈ listOf layout g := by
  obtain ⟨row, hin⟩ := hfits.placed z hz
  have hdisplay : zoneDisplayOf (newZone actions layout before zones z) = row := by
    by_cases hleft : untouched (listOf layout (groupOfRow row)) (startList before (groupOfRow row)) = true
    · have hnone : mapGet (buildLayoutUpdates actions layout before zones).zones z.name = none := by
        refine get_zone_left fun row' hin' => ?_
        rw [hfits.apart _ _ _ hin' hin]
        exact hleft
      rw [← hstart.list_eq hleft, h.mem_build_zone hz] at hin
      rw [newZone, hnone, map_none, getD_none]
      cases hrow : zoneDisplayOf z <;> rw [hrow] at hin <;> cases row <;> first | rfl | exact nomatch hin
    · rw [Bool.not_eq_true] at hleft
      obtain ⟨i, hi⟩ := getElem?_of_mem hin
      rw [newZone, hfits.get_zone_written hi hleft, map_some, getD_some, zoneUpdate,
        h.startRow_eq hstart hz]
      by_cases hsame : zoneDisplayOf z = row
      · rw [if_pos (Or.inr (congrArg some hsame))]
        exact hsame
      · rw [if_neg (by simpa using hsame)]
        cases row <;> rfl
  constructor
  · rintro rfl
    rw [hdisplay]
    exact hin
  · intro hin'
    rw [hdisplay]
    exact hfits.apart _ _ _ hin hin'

/-! ## The order of what is written -/

omit hfits in
theorem Listed.written (layout : ActionsLayout) (before : Option ActionsLayout) :
    Listed (written actions zones layout before).1 (written actions zones layout before).2 := by
  have hnames : ((actions.map (newAction actions layout before zones)).map ActionInfo.name)
      = actions.map ActionInfo.name := by
    rw [List.map_map]
    exact map_congr_left fun a _ => newAction_name a
  have hzones : ((zones.map (newZone actions layout before zones)).map ZoneInfo.name)
      = zones.map ZoneInfo.name := by
    rw [List.map_map]
    exact map_congr_left fun z _ => newZone_name z
  have hactionsPerm := written_actions_perm actions zones layout before
  have hzonesPerm := written_zones_perm actions zones layout before
  refine ⟨?_, ?_, ?_, ?_, ?_⟩
  · rw [(hactionsPerm.map _).nodup_iff, hnames]
    exact h.names
  · intro a' ha'
    obtain ⟨a, ha, rfl⟩ := List.mem_map.mp (hactionsPerm.mem_iff.mp ha')
    rw [newAction_name]
    exact h.buttons a ha
  · rw [(hzonesPerm.map _).nodup_iff, hzones]
    exact h.zoneNames
  · intro z' hz'
    obtain ⟨z, hz, rfl⟩ := List.mem_map.mp (hzonesPerm.mem_iff.mp hz')
    rw [newZone_name]
    exact h.words z hz
  · intro z' hz'
    obtain ⟨z, hz, rfl⟩ := List.mem_map.mp (hzonesPerm.mem_iff.mp hz')
    rw [layersOf, newZone_layers]
    exact h.layers z hz

omit hfits in
theorem Listed.spotOf_newAction {a : ActionInfo} (ha : a ∈ actions) :
    spotOf (Toolbar.written actions zones layout before).1 (Toolbar.written actions zones layout before).2 a.name
      = spot (newAction actions layout before zones a).positioned false := by
  have hin : newAction actions layout before zones a ∈ (Toolbar.written actions zones layout before).1 :=
    (written_actions_perm _ _ _ _).mem_iff.mpr (List.mem_map_of_mem ha)
  have hspot := (h.written layout before).spotOf_action hin
  rw [newAction_name] at hspot
  exact hspot

omit hfits in
theorem Listed.spotOf_newZone {z : ZoneInfo} (hz : z ∈ zones) :
    spotOf (Toolbar.written actions zones layout before).1 (Toolbar.written actions zones layout before).2
        (zoneItemId z.name) = spot (newZone actions layout before zones z).positioned true := by
  have hin : newZone actions layout before zones z ∈ (Toolbar.written actions zones layout before).2 :=
    (written_zones_perm _ _ _ _).mem_iff.mpr (List.mem_map_of_mem hz)
  have hspot := (h.written layout before).spotOf_zone hin
  rw [newZone_name] at hspot
  exact hspot

/-- In a list that is written an item's position is its place. -/
theorem Listed.position_written
    {g : ActionGroup} (hwritten : untouched (listOf layout g) (startList before g) = false) {i : ℕ} {id : Text}
    (hi : (listOf layout g)[i]? = some id) :
    ∃ p isZone, spotOf (Toolbar.written actions zones layout before).1
        (Toolbar.written actions zones layout before).2 id = spot p isZone
      ∧ p.position = some ((i : ℚ) + 1) := by
  rcases hfits.stands g id (mem_of_getElem? hi) with ⟨a, ha, rfl⟩ | ⟨z, hz, rfl⟩
  · refine ⟨_, _, h.spotOf_newAction ha, ?_⟩
    rw [newAction, h.get_written hfits ha hi hwritten, map_some, getD_some, actionUpdate]
    split_ifs <;> rfl
  · obtain ⟨row, hrow⟩ := hfits.placed z hz
    have hg := hfits.apart _ _ _ (mem_of_getElem? hi) hrow
    subst hg
    refine ⟨_, _, h.spotOf_newZone hz, ?_⟩
    rw [newZone, hfits.get_zone_written hi hwritten, map_some, getD_some, zoneUpdate]
    split_ifs <;> rfl

/-- In a list that is left alone an item is what it was. -/
theorem Listed.spotOf_left {g : ActionGroup}
    (hleft : untouched (listOf layout g) (startList before g) = true) {id : Text}
    (hin : id ∈ listOf layout g) :
    spotOf (Toolbar.written actions zones layout before).1 (Toolbar.written actions zones layout before).2 id
      = spotOf actions zones id := by
  rcases hfits.stands g id hin with ⟨a, ha, rfl⟩ | ⟨z, hz, rfl⟩
  · have hnone : mapGet (buildLayoutUpdates actions layout before zones).actions a.name = none := by
      refine get_left fun g' hin' => ?_
      rw [hfits.apart g' g a.name hin' hin]
      exact hleft
    rw [h.spotOf_newAction ha, h.spotOf_action ha, newAction, hnone]
    rfl
  · have hnone : mapGet (buildLayoutUpdates actions layout before zones).zones z.name = none := by
      refine get_zone_left fun row hin' => ?_
      rw [hfits.apart _ _ _ hin' hin]
      exact hleft
    rw [h.spotOf_newZone hz, h.spotOf_zone hz, newZone, hnone]
    rfl

theorem Listed.strict_written
    (hstart : FromStart actions zones before)
    (hsorted : before.isSome = true → sortWith ActionInfo.positioned actions = actions) (g : ActionGroup) :
    (listOf layout g).Pairwise fun x y =>
      spotOf (Toolbar.written actions zones layout before).1 (Toolbar.written actions zones layout before).2 x
        < spotOf (Toolbar.written actions zones layout before).1
            (Toolbar.written actions zones layout before).2 y := by
  by_cases hleft : untouched (listOf layout g) (startList before g) = true
  · have hsome : before.isSome = true := by
      cases before with
      | none => exact nomatch hleft
      | some start => rfl
    have hactions := sortWith_strict h.names
    rw [hsorted hsome] at hactions
    have hstrict := h.build_strict g fun _ => hactions
    rw [hstart.list_eq hleft] at hstrict
    refine hstrict.imp_of_mem fun {x y} hx hy hlt => ?_
    rw [h.spotOf_left hfits hleft hx, h.spotOf_left hfits hleft hy]
    exact hlt
  · rw [Bool.not_eq_true] at hleft
    rw [pairwise_iff_getElem]
    intro i j hi hj hij
    obtain ⟨p, b, hp, hpos⟩ := h.position_written hfits hleft (getElem?_eq_getElem hi)
    obtain ⟨q, c, hq, hpos'⟩ := h.position_written hfits hleft (getElem?_eq_getElem hj)
    rw [hp, hq, spot, spot, Prod.Lex.toLex_lt_toLex]
    refine Or.inl (rank_lt_of_position hpos hpos' ?_)
    have hcast : (i : ℚ) < (j : ℚ) := by exact_mod_cast hij
    linarith

/-! ## Reading back -/

/-- A layout that fits reads back as it was written. -/
theorem Listed.reads_written (hstart : FromStart actions zones before)
    (hsorted : before.isSome = true → sortWith ActionInfo.positioned actions = actions) :
    sameLayout (buildActionsModel (Toolbar.written actions zones layout before).1
      (Toolbar.written actions zones layout before).2).layout layout = true := by
  have hactionsPerm := written_actions_perm actions zones layout before
  have hzonesPerm := written_zones_perm actions zones layout before
  have hkeysOf : ∀ z, listKeysOfZone (newZone actions layout before zones z) = listKeysOfZone z := by
    intro z
    rw [listKeysOfZone, listKeysOfZone, layersOf, layersOf, newZone_layers, newZone_name]
  refine sameLayout_of_lists ?_ ?_
  · rw [keys_build, hfits.keys]
    refine (perm_ext_iff_of_nodup (nodup_pushed nodup_nil) (nodup_pushed nodup_nil)).mpr
      fun key => ?_
    rw [mem_pushed, mem_pushed, (hzonesPerm.flatMap_right _).mem_iff, flatMap_map, funext hkeysOf]
  · refine (h.written layout before).build_reads ?_ hfits.each ?_ ?_ ?_ (h.strict_written hfits hstart hsorted)
    · refine sortWith_strict ?_
      have hmap : (applyActionUpdates actions (buildLayoutUpdates actions layout before zones).actions).map
          ActionInfo.name = actions.map ActionInfo.name := by
        rw [applyActionUpdates, List.map_map]
        exact map_congr_left fun a _ => newAction_name a
      rw [hmap]
      exact h.names
    · intro g id hin
      rcases hfits.stands g id hin with ⟨a, ha, rfl⟩ | ⟨z, hz, rfl⟩
      · exact Or.inl ⟨_, hactionsPerm.mem_iff.mpr (List.mem_map_of_mem ha), newAction_name a⟩
      · exact Or.inr ⟨_, hzonesPerm.mem_iff.mpr (List.mem_map_of_mem hz), by rw [newZone_name]⟩
    · intro a' ha' g
      obtain ⟨a, ha, rfl⟩ := List.mem_map.mp (hactionsPerm.mem_iff.mp ha')
      rw [shownIn_congr h.zoneNames hzonesPerm newZone_name newZone_layers, newAction_name]
      exact h.shownIn_newAction hfits hstart ha g
    · intro z' hz' g
      obtain ⟨z, hz, rfl⟩ := List.mem_map.mp (hzonesPerm.mem_iff.mp hz')
      rw [newZone_name]
      exact h.display_newZone hfits hstart hz g

omit hfits

omit h

/-- **A layout reads back as made.** From the actions and zones the bars get, every layout drags
lead to has every item once and none missing, and written down it reads back the same: without
the layout before in any case, with it when the actions come in the order of the positions. -/
theorem layout_reads_back (h : Listed actions zones) (hreach : Reachable (drags actions zones) layout) :
    Fits actions zones layout
      ∧ sameLayout (buildActionsModel (Toolbar.written actions zones layout none).1
          (Toolbar.written actions zones layout none).2).layout layout = true
      ∧ (sortWith ActionInfo.positioned actions = actions →
          sameLayout (buildActionsModel
            (Toolbar.written actions zones layout (some (buildActionsModel actions zones).layout)).1
            (Toolbar.written actions zones layout (some (buildActionsModel actions zones).layout)).2).layout
            layout = true) := by
  have hfits := h.fits_dragged hreach
  refine ⟨hfits, ?_, fun hsorted => ?_⟩
  · exact h.reads_written hfits (Or.inl rfl) fun hsome => nomatch hsome
  · exact h.reads_written hfits (Or.inr rfl) fun _ => hsorted

/-- Two buttons of one zone, in the order of their names. -/
def listed : List ActionInfo :=
  [{ name := units "api", display := units "dev" }, { name := units "web", display := units "dev" }]

def devZone : List ZoneInfo := [{ name := units "dev" }]

/-- One of them dragged into the header, before the zone. -/
def draggedOut : ActionsLayout :=
  applyMove (buildActionsModel listed devZone).layout (units "web") ⟨.header, 0⟩

theorem layout_reads_back_dragged_out :
    sameLayout (buildActionsModel (Toolbar.written listed devZone draggedOut none).1
        (Toolbar.written listed devZone draggedOut none).2).layout draggedOut = true
      ∧ sameLayout (buildActionsModel
          (Toolbar.written listed devZone draggedOut (some (buildActionsModel listed devZone).layout)).1
          (Toolbar.written listed devZone draggedOut (some (buildActionsModel listed devZone).layout)).2).layout
          draggedOut = true := by
  have hlisted : Listed listed devZone := ⟨by decide, by decide, by decide, by decide, by decide⟩
  have hweb : Stands listed devZone (units "web") :=
    Or.inl ⟨_, mem_cons_of_mem _ mem_cons_self, rfl⟩
  have hreach : Reachable (drags listed devZone) draggedOut :=
    Reachable.next (a := (units "web", ⟨.header, 0⟩)) (Reachable.start rfl) ⟨hweb, rfl⟩
  have hsorted : sortWith ActionInfo.positioned listed = listed := by
    rw [sortWith_eq]
    exact sortBy_of_pairwise (pairwise_pair.mpr (le_of_lt (rank_lt_of_name rfl rfl (by decide))))
  have hback := layout_reads_back hlisted hreach
  exact ⟨hback.2.1, hback.2.2 hsorted⟩

/-! ## A list that does not come in the order of the positions -/

/-- A layout that is as it was writes nothing. -/
theorem updates_unmoved (actions : List ActionInfo) (zones : List ZoneInfo) (layout : ActionsLayout) :
    buildLayoutUpdates actions layout (some layout) zones = ⟨[], []⟩ := by
  have hleft : ∀ g ∈ groupsOf layout, untouched (listOf layout g) (startList (some layout) g) = true := by
    intro g hg
    rw [untouched, decide_eq_true_eq]
    cases g with
    | header => rfl
    | footer => rfl
    | zone key =>
      obtain ⟨ids, hids⟩ := isSome_iff_exists.mp (zoneList_isSome.mpr (mem_groupsOf.mp hg))
      rw [startList, bind_some, listOf, hids]
      exact hids
  have hactions : (groupsOf layout).flatMap (visit actions layout (some layout) zones) = [] := by
    rw [flatMap_eq_nil_iff]
    intro g hg
    rw [visit, if_pos (hleft g hg)]
  have hzones : ∀ row, visitZones layout (some layout) zones row = [] := by
    intro row
    have hg : groupOfRow row ∈ groupsOf layout := by
      cases row <;> exact mem_groupsOf.mpr trivial
    rw [visitZones, if_pos (hleft _ hg)]
  rw [buildLayoutUpdates, hactions, hzones, hzones]
  rfl

theorem unsorted_list_reordered :
    ¬ ∀ (actions : List ActionInfo) (zones : List ZoneInfo) (layout : ActionsLayout),
      Reachable (drags actions zones) layout →
        sameLayout (buildActionsModel
          (Toolbar.written actions zones layout (some (buildActionsModel actions zones).layout)).1
          (Toolbar.written actions zones layout (some (buildActionsModel actions zones).layout)).2).layout
          layout = true := by
  intro h
  have hsame := h listed.reverse devZone (buildActionsModel listed.reverse devZone).layout
    (Reachable.start rfl)
  have hsorted : sortWith ActionInfo.positioned listed.reverse = listed := by
    refine eq_of_strict (sortWith_strict (by decide)) ?_ ?_
    · exact pairwise_pair.mpr (rank_lt_of_name rfl rfl (by decide))
    · rw [sortWith_eq]
      exact (sortBy_perm _ _).trans (reverse_perm _)
  have hkey : units "dev" ∈ devZone.flatMap listKeysOfZone := by decide
  have happly : applyActionUpdates listed.reverse [] = listed.reverse := rfl
  rw [Toolbar.written, updates_unmoved, happly, hsorted, if_pos rfl] at hsame
  have hin : units "dev" ∈ (buildActionsModel listed devZone).layout.zones.map Prod.fst := by
    rw [keys_build]
    exact mem_pushed.mpr (Or.inr hkey)
  have hlist := zoneList_of_sameLayout hsame hin
  rw [zoneList_build hkey, zoneList_build hkey] at hlist
  exact absurd hlist (by decide)

end Lpm.Toolbar
