/-
Writing a layout down (`actionsLayoutUpdates.ts`): every button and zone gets its place among
its row's or list's items as its position, and a button that changed lists its display and
layer, a zone that changed rows its display. With the layout a drag started from, a row or
list that is as it was is left alone.
-/
import Lpm.Lib.SortedList
import Lpm.Toolbar.Layout
import Mathlib.Data.Prod.Lex
import Mathlib.Order.WithBot

set_option autoImplicit false

namespace Lpm.Toolbar

open List

/-! ## Updates -/

/-- `undefined` leaves the layer, `null` drops it, a string sets it. -/
inductive LayerUpdate
  | leave
  | drop
  | set (layer : Text)
deriving DecidableEq

structure ActionUpdate where
  position : ℚ
  display : Option Text := none
  layer : LayerUpdate := .leave
  section_ : Text
deriving DecidableEq

structure ZoneUpdate where
  position : ℚ
  display : Option ZoneDisplay := none
deriving DecidableEq

/-- What was set in the two maps, in that order. -/
structure LayoutUpdates where
  actions : List (Text × ActionUpdate)
  zones : List (Text × ZoneUpdate)

/-- `get` of a map: what was set last under the key. -/
def mapGet {β : Type*} (sets : List (Text × β)) (key : Text) : Option β :=
  (sets.reverse.find? fun entry => entry.1 = key).map Prod.snd

/-! ## Building them -/

/-- The group an action's display and layer name. -/
def groupOfAction (action : ActionInfo) (zones : List ZoneInfo) (layout : ActionsLayout) :
    Option ActionGroup :=
  if isHeaderDisplay action.display then some .header
  else if isFooterDisplay action.display then some .footer
  else if action.display = units "menu" then none
  else
    match zones.find? fun zone => zone.name = action.display with
    | some zone => some (.zone (listKeyForAction zone action.layer))
    | none =>
      match listKeysInLayout layout action.display with
      | [] => some .header
      | first :: rest =>
        let named (key : Text) := (layerOfListKey key).isSome && layerOfListKey key = action.layer
        some (.zone (((first :: rest).find? named).getD first))

def isLayerGroup : Option ActionGroup → Bool
  | some (.zone listKey) => (layerOfListKey listKey).isSome
  | _ => false

/-- `keys` is what the list held at the start. -/
def untouched (keys : List Text) (start : Option (List Text)) : Bool := start = some keys

section
variable (current : List ActionInfo) (layout : ActionsLayout) (before : Option ActionsLayout)
  (zones : List ZoneInfo)

/-- The action a key of the maps stands for: the last one of the name. -/
def actionOf (key : Text) : Option ActionInfo := current.reverse.find? fun action => action.name = key

/-- `previous.get(action.name)`. -/
def previous (action : ActionInfo) : Option ActionGroup :=
  (before.bind fun start => groupOf start action.name).or (groupOfAction action zones layout)

/-- `hadLayer.has(key)`. -/
def hadLayer (key : Text) : Bool :=
  current.any fun action => action.name = key &&
    (action.layer.isSome || isLayerGroup (previous layout before zones action))

variable (group : ActionGroup)

/-- What the list of a group was when the drag started. -/
def startList : Option (List Text) :=
  before.bind fun start =>
    match group with
    | .header => some start.header
    | .footer => some start.footer
    | .zone listKey => zoneList start listKey

def displayOfGroup : ActionGroup → Text
  | .header => units "header"
  | .footer => units "footer"
  | .zone listKey => zoneOfListKey listKey

def layerOfGroup : ActionGroup → Option Text
  | .zone listKey => layerOfListKey listKey
  | _ => none

/-- What is written for a button at an index of a group's list. -/
def actionUpdate (action : ActionInfo) (index : ℕ) : ActionUpdate :=
  let section_ := if action.type = units "terminal" then units "terminals" else units "actions"
  if previous layout before zones action ≠ some group then
    { position := index + 1
      display := some (displayOfGroup group)
      layer :=
        match layerOfGroup group with
        | some layer => .set layer
        | none => if hadLayer current layout before zones action.name then .drop else .leave
      section_ }
  else { position := index + 1, section_ }

/-- The buttons of one list. -/
def visit : List (Text × ActionUpdate) :=
  let keys := listOf layout group
  if untouched keys (startList before group) then []
  else keys.zipIdx.filterMap fun (key, index) =>
    if isZoneItemId key then none
    else (actionOf current key).map fun action =>
      (key, actionUpdate current layout before zones group action index)

/-- The row a zone was in. -/
def startRow (name : Text) : Option ZoneDisplay :=
  (before.bind fun start => rowOfZone start name).or
    ((zones.reverse.find? fun zone => zone.name = name).map zoneDisplayOf)

def groupOfRow : ZoneDisplay → ActionGroup
  | .header => .header
  | .footer => .footer

/-- What is written for a zone at an index of a row. -/
def zoneUpdate (row : ZoneDisplay) (name : Text) (index : ℕ) : ZoneUpdate :=
  let start := startRow before zones name
  if start = none ∨ start = some row then { position := index + 1 }
  else { position := index + 1, display := some row }

/-- The zones of one row. -/
def visitZones (row : ZoneDisplay) : List (Text × ZoneUpdate) :=
  let keys := listOf layout (groupOfRow row)
  if untouched keys (startList before (groupOfRow row)) then []
  else keys.zipIdx.filterMap fun (key, index) =>
    if isZoneItemId key then
      some (zoneNameOfItem key, zoneUpdate before zones row (zoneNameOfItem key) index)
    else none

def buildLayoutUpdates : LayoutUpdates where
  actions := (groupsOf layout).flatMap (visit current layout before zones)
  zones := visitZones layout before zones .header ++ visitZones layout before zones .footer

end

/-! ## Writing them -/

def ActionUpdate.write (update : ActionUpdate) (action : ActionInfo) : ActionInfo :=
  { action with
    position := some update.position
    display := update.display.getD action.display
    layer :=
      match update.layer with
      | .leave => action.layer
      | .drop => none
      | .set layer => some layer }

variable (actions : List ActionInfo)

def applyActionUpdates (updates : List (Text × ActionUpdate)) :
    List ActionInfo :=
  actions.map fun action => ((mapGet updates action.name).map fun u => u.write action).getD action

def ZoneUpdate.write (update : ZoneUpdate) (zone : ZoneInfo) : ZoneInfo :=
  { zone with
    position := some update.position
    display := update.display.or zone.display }

variable (zones : List ZoneInfo)

def applyZoneUpdates (updates : List (Text × ZoneUpdate)) : List ZoneInfo :=
  zones.map fun zone => ((mapGet updates zone.name).map fun u => u.write zone).getD zone

/-- The actions and zones as the store has them after a layout was written, both in the order
the next listing gives (`applyActionsLayoutToStore`). -/
def written (layout : ActionsLayout)
    (before : Option ActionsLayout) : List ActionInfo × List ZoneInfo :=
  let updates := buildLayoutUpdates actions layout before zones
  (sortWith ActionInfo.positioned (applyActionUpdates actions updates.actions),
    if updates.zones = [] then zones
    else sortWith ZoneInfo.positioned (applyZoneUpdates zones updates.zones))

/-! ## The order of the bars

Comparing two entries is comparing their ranks, the position with none
behind all others and then the name, so a row is sorted by rank; where a button and a zone have
one rank the button stands first, as it comes first. -/

open StableSort

/-! ## Ranks -/

/-- What entries are ordered by. -/
abbrev Rank := WithTop ℚ ×ₗ Text

def rank (p : Positioned) : Rank := toLex (p.position.elim ⊤ fun q => (q : WithTop ℚ), p.name)

theorem compareNames_isLE (a b : Text) : (compareNames a b).isLE = true ↔ a ≤ b := by
  rw [compareNames]
  by_cases hab : a < b
  · rw [if_pos hab]
    exact ⟨fun _ => le_of_lt hab, fun _ => rfl⟩
  · rw [if_neg hab]
    by_cases hba : b < a
    · rw [if_pos hba]
      exact ⟨fun h => absurd h (by decide), fun h => absurd h (not_le_of_gt hba)⟩
    · rw [if_neg hba]
      exact ⟨fun _ => not_lt.mp hba, fun _ => rfl⟩

theorem comparePosition_isLE (a b : Positioned) :
    (comparePosition a b).isLE = true ↔ rank a ≤ rank b := by
  obtain ⟨an, ap⟩ := a
  obtain ⟨bn, bp⟩ := b
  rw [rank, rank, Prod.Lex.toLex_le_toLex]
  cases ap with
  | none =>
    cases bp with
    | none =>
      rw [comparePosition, compareNames_isLE]
      simp
    | some q =>
      rw [comparePosition]
      simp
  | some p =>
    cases bp with
    | none =>
      rw [comparePosition]
      simp
    | some q =>
      rw [comparePosition]
      simp only [Option.elim_some, WithTop.coe_lt_coe, WithTop.coe_inj]
      by_cases hpq : p < q
      · rw [if_pos hpq]
        exact ⟨fun _ => Or.inl hpq, fun _ => rfl⟩
      · rw [if_neg hpq]
        by_cases hqp : q < p
        · rw [if_pos hqp]
          refine ⟨fun h => absurd (id h : false = true) Bool.false_ne_true, fun h => ?_⟩
          rcases h with h | h
          · exact absurd h hpq
          · exact absurd h.1 (ne_of_gt hqp)
        · have heq : p = q := le_antisymm (not_lt.mp hqp) (not_lt.mp hpq)
          rw [if_neg hqp, Ordering.eq_then, compareNames_isLE]
          exact ⟨fun h => Or.inr ⟨heq, h⟩, fun h => h.elim (fun hlt => absurd hlt hpq) And.right⟩

theorem sortWith_eq {α : Type*} (of : α → Positioned) (items : List α) :
    sortWith of items = sortBy (fun x => rank (of x)) items := by
  rw [sortWith, sortBy]
  congr 1
  funext a b
  rw [Bool.eq_iff_iff, comparePosition_isLE, decide_eq_true_eq]

theorem rank_name {a b : Positioned} (h : rank a = rank b) : a.name = b.name :=
  congrArg (fun r => (ofLex r).2) h

theorem rank_lt_of_position {a b : Positioned} {p q : ℚ} (ha : a.position = some p)
    (hb : b.position = some q) (h : p < q) : rank a < rank b := by
  rw [rank, rank, Prod.Lex.toLex_lt_toLex, ha, hb]
  exact Or.inl (WithTop.coe_lt_coe.mpr h)

theorem rank_lt_of_name {a b : Positioned} (ha : a.position = none) (hb : b.position = none)
    (h : a.name < b.name) : rank a < rank b := by
  rw [rank, rank, Prod.Lex.toLex_lt_toLex, ha, hb]
  exact Or.inr ⟨rfl, h⟩

/-! ## Lists of actions -/

/-- Actions of names of their own, in the order of the positions, are so strictly. -/
theorem sortWith_strict {actions : List ActionInfo} (h : (actions.map ActionInfo.name).Nodup) :
    (sortWith ActionInfo.positioned actions).Pairwise fun a b =>
      rank a.positioned < rank b.positioned := by
  rw [sortWith_eq]
  have hsorted := sortBy_pairwise (fun a : ActionInfo => rank a.positioned) actions
  have hnodup : ((sortBy (fun a : ActionInfo => rank a.positioned) actions).map ActionInfo.name).Nodup :=
    ((sortBy_perm _ _).map _).nodup_iff.mpr h
  have hne : (sortBy (fun a : ActionInfo => rank a.positioned) actions).Pairwise fun a b => a.name ≠ b.name :=
    pairwise_map.mp hnodup
  refine (hsorted.and hne).imp fun {a b} hab => ?_
  exact lt_of_le_of_ne hab.1 fun heq => hab.2 (rank_name heq)

/-! ## Rows -/

def RowItem.isZone : RowItem → Bool
  | .zone _ _ _ => true
  | _ => false

/-- What the items of a row are ordered by: the rank, and buttons before zones. -/
abbrev Spot := Rank ×ₗ Bool

def spot (p : Positioned) (isZone : Bool) : Spot := toLex (rank p, isZone)

/-- A row stands in the strict order of its spots. -/
theorem rowItems_strict (row : ZoneDisplay) {actions : List ActionInfo} {zones : List ZoneInfo}
    (inZone : Text → List ActionInfo) (hactions : (actions.map ActionInfo.name).Nodup)
    (hzones : (zones.map ZoneInfo.name).Nodup) :
    (rowItems row actions zones inZone).Pairwise fun a b =>
      spot a.positioned a.isZone < spot b.positioned b.isZone := by
  have hrefine := @sortBy_refines _ _ _ (fun x : RowItem => rank x.positioned) _
    (fun a b => a.isZone = false ∧ b.isZone = true)
    (actions.map RowItem.action ++ (zones.filter fun zone => zoneDisplayOf zone = row).map fun zone =>
      RowItem.zone zone ((zoneLayerViews zone inZone).flatMap ZoneLayerView.actions)
        (zoneLayerViews zone inZone)) ?_
  · rw [rowItems, sortWith_eq]
    refine hrefine.imp fun {a b} hab => ?_
    rw [spot, spot, Prod.Lex.toLex_lt_toLex]
    rcases hab with hlt | ⟨heq, ha, hb⟩
    · exact Or.inl hlt
    · refine Or.inr ⟨heq, ?_⟩
      rw [ha, hb]
      exact Bool.false_lt_true
  -- two buttons of one rank have one name, and so do two zones
  · rw [pairwise_append, pairwise_map, pairwise_map]
    refine ⟨?_, ?_, ?_⟩
    · refine (pairwise_map.mp hactions).imp fun hne heq => ?_
      exact absurd (rank_name heq) hne
    · refine ((pairwise_map.mp hzones).filter _).imp fun hne heq => ?_
      exact absurd (rank_name heq) hne
    · intro a ha b hb _
      obtain ⟨a', -, rfl⟩ := List.mem_map.mp ha
      obtain ⟨b', -, rfl⟩ := List.mem_map.mp hb
      exact ⟨rfl, rfl⟩

theorem rowItems_ids_perm (row : ZoneDisplay) (actions : List ActionInfo) (zones : List ZoneInfo)
    (inZone : Text → List ActionInfo) :
    ((rowItems row actions zones inZone).map RowItem.id).Perm
      (actions.map ActionInfo.name ++
        (zones.filter fun zone => zoneDisplayOf zone = row).map fun zone => zoneItemId zone.name) := by
  rw [rowItems, sortWith_eq]
  refine ((sortBy_perm _ _).map RowItem.id).trans ?_
  rw [map_append, List.map_map, List.map_map]
  exact List.Perm.refl _

end Lpm.Toolbar
