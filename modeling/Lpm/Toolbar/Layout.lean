/-
The layout of the action bars: which buttons and zones stand in the header and the footer and
which buttons in each zone's lists, and the move a drag makes of it (`actionsDndLayout.ts`,
`zoneLayers.ts`).

A string is the list of its UTF-16 code units here: names are compared with `<`, which goes by
those.
-/
import Lpm.Lib.Distinct
import Mathlib.Algebra.Order.Ring.Rat
import Mathlib.Data.List.Lex
import Mathlib.Data.List.Sort

set_option autoImplicit false

namespace Lpm.Toolbar

abbrev Text := List ℕ

/-- The code units of a text in ASCII. -/
def units (s : String) : Text := s.toList.map Char.toNat

/-! ## Buttons and zones -/

/-- What the bars read of an action. -/
structure ActionInfo where
  name : Text
  display : Text
  layer : Option Text := none
  position : Option ℚ := none
  type : Text := []
deriving DecidableEq

inductive ZoneDisplay
  | header
  | footer
deriving DecidableEq

structure LayerInfo where
  name : Text
deriving DecidableEq

/-- What the bars read of a zone. -/
structure ZoneInfo where
  name : Text
  display : Option ZoneDisplay := none
  position : Option ℚ := none
  layers : Option (List LayerInfo) := none
deriving DecidableEq

def isHeaderDisplay (d : Text) : Bool := d = [] || d = units "header" || d = units "button"

def isFooterDisplay (d : Text) : Bool := d = units "footer"

variable (zone : ZoneInfo)

def zoneDisplayOf : ZoneDisplay :=
  if zone.display = some .footer then .footer else .header

/-! ## List keys -/

def slash : ℕ := 47

/-- A zone's list: the zone's name, or `zone/layer`. -/
def zoneListKey (zone : Text) (layer : Option Text) : Text :=
  match layer with
  | some (c :: cs) => zone ++ slash :: c :: cs
  | _ => zone

def zoneOfListKey (key : Text) : Text := key.takeWhile fun c => c ≠ slash

def layerOfListKey (key : Text) : Option Text :=
  if slash ∈ key then some ((key.dropWhile fun c => c ≠ slash).drop 1) else none

def layersOf : List LayerInfo := zone.layers.getD []

def listKeysOfZone : List Text :=
  if layersOf zone = [] then [zone.name]
  else (layersOf zone).map fun layer => zoneListKey zone.name (some layer.name)

/-- The list an action with a layer stands in: that layer's, or the first one's. -/
def listKeyForAction (layer : Option Text) : Text :=
  match layersOf zone with
  | [] => zone.name
  | first :: rest =>
    let found := ((first :: rest).find? fun l => some l.name = layer).getD first
    zoneListKey zone.name (some found.name)

/-! ## Layouts -/

/-- The bars' rows and the zones' lists by their keys. -/
structure ActionsLayout where
  header : List Text
  footer : List Text
  zones : List (Text × List Text)
deriving DecidableEq

/-- Where a button can live: a row, or one of a zone's lists. -/
inductive ActionGroup
  | header
  | footer
  | zone (listKey : Text)
deriving DecidableEq

def isZoneGroup : ActionGroup → Bool
  | .zone _ => true
  | _ => false

def zoneItemId (name : Text) : Text := units "@zone/" ++ name

def isZoneItemId (id : Text) : Bool := (units "@zone/").isPrefixOf id

def zoneNameOfItem (id : Text) : Text := id.drop (units "@zone/").length

variable (layout : ActionsLayout)

/-- `zones[listKey]`. -/
def zoneList (listKey : Text) : Option (List Text) :=
  (layout.zones.find? fun entry => entry.1 = listKey).map Prod.snd

def listOf : ActionGroup → List Text
  | .header => layout.header
  | .footer => layout.footer
  | .zone listKey => (zoneList layout listKey).getD []

def groupsOf : List ActionGroup :=
  .header :: .footer :: layout.zones.map fun entry => .zone entry.1

def groupOf (id : Text) : Option ActionGroup :=
  (groupsOf layout).find? fun group => id ∈ listOf layout group

def listKeysInLayout (zone : Text) : List Text :=
  (layout.zones.map Prod.fst).filter fun key => zoneOfListKey key = zone

/-- The row a zone's item stands in. -/
def rowOfZone (name : Text) : Option ZoneDisplay :=
  if zoneItemId name ∈ layout.header then some .header
  else if zoneItemId name ∈ layout.footer then some .footer
  else none

/-- The same rows and the same lists under the same keys. -/
def sameLayout (a b : ActionsLayout) : Bool :=
  a.header = b.header && a.footer = b.footer && a.zones.length = b.zones.length
    && a.zones.all fun entry => zoneList b entry.1 = zoneList a entry.1

/-! ## Moves -/

structure DropTarget where
  group : ActionGroup
  index : ℤ

def without (ids : List Text) (id : Text) : List Text := ids.filter fun x => x ≠ id

/-- `splice(Math.max(0, Math.min(index, length)), 0, id)`. -/
def spliced (ids : List Text) (index : ℤ) (id : Text) : List Text :=
  ids.insertIdx (max 0 (min index ids.length)).toNat id

/-- What was dragged goes to its new place; a zone never goes inside a zone. -/
def applyMove (draggedId : Text) (target : DropTarget) : ActionsLayout :=
  if target.group ∉ groupsOf layout then layout
  else if isZoneItemId draggedId && isZoneGroup target.group then layout
  else
    let put (group : ActionGroup) (ids : List Text) : List Text :=
      if group = target.group then spliced (without ids draggedId) target.index draggedId
      else without ids draggedId
    { header := put .header layout.header
      footer := put .footer layout.footer
      zones := layout.zones.map fun entry => (entry.1, put (.zone entry.1) entry.2) }

/-! ## What the bars show

`actionsLayoutModel.ts`: every button in the row or the zone's list its
display and layer name, the rows in the order of the positions, the zones' lists in the order
the actions come in. -/

open Distinct

/-! ## Order -/

structure Positioned where
  name : Text
  position : Option ℚ

def compareNames (a b : Text) : Ordering := if a < b then .lt else if b < a then .gt else .eq

/-- Positioned entries first; ties and unpositioned entries by name. -/
def comparePosition (a b : Positioned) : Ordering :=
  match a.position, b.position with
  | some ap, some bp =>
    (if ap < bp then Ordering.lt else if bp < ap then .gt else .eq).then (compareNames a.name b.name)
  | some _, none => .lt
  | none, some _ => .gt
  | none, none => compareNames a.name b.name

/-- The sort of the standard library, which is stable. -/
def sortWith {α : Type*} (of : α → Positioned) (items : List α) : List α :=
  items.mergeSort fun a b => (comparePosition (of a) (of b)).isLE

def ActionInfo.positioned (action : ActionInfo) : Positioned := ⟨action.name, action.position⟩

def ZoneInfo.positioned (zone : ZoneInfo) : Positioned := ⟨zone.name, zone.position⟩

/-! ## Rows -/

/-- One of a zone's button lists: a layer, or the whole zone when it has no layers. -/
structure ZoneLayerView where
  key : Text
  layer : Option LayerInfo
  ids : List Text
  actions : List ActionInfo

/-- One spot in a row: a button, or a zone with its buttons. -/
inductive RowItem
  | action (action : ActionInfo)
  | zone (zone : ZoneInfo) (actions : List ActionInfo) (layers : List ZoneLayerView)

def RowItem.id : RowItem → Text
  | .action a => a.name
  | .zone z _ _ => zoneItemId z.name

def RowItem.positioned : RowItem → Positioned
  | .action a => a.positioned
  | .zone z _ _ => z.positioned

def zoneLayerViews (zone : ZoneInfo) (inZone : Text → List ActionInfo) : List ZoneLayerView :=
  (listKeysOfZone zone).mapIdx fun index key =>
    { key, layer := (layersOf zone)[index]?, ids := (inZone key).map ActionInfo.name, actions := inZone key }

def rowItems (row : ZoneDisplay) (actions : List ActionInfo) (zones : List ZoneInfo)
    (inZone : Text → List ActionInfo) : List RowItem :=
  let entries := actions.map RowItem.action ++
    (zones.filter fun zone => zoneDisplayOf zone = row).map fun zone =>
      let layers := zoneLayerViews zone inZone
      RowItem.zone zone (layers.flatMap ZoneLayerView.actions) layers
  sortWith RowItem.positioned entries

/-- Past the highest position in the row; an item without one counts as its index + 1. -/
def nextPosition (items : List RowItem) : ℚ :=
  items.zipIdx.foldl (fun m item => max m (item.1.positioned.position.getD (item.2 + 1))) 0 + 1

/-! ## The model -/

structure ActionsModel where
  headerItems : List RowItem
  footerItems : List RowItem
  layout : ActionsLayout
  nextHeaderPosition : ℚ
  nextFooterPosition : ℚ

variable (zones : List ZoneInfo)

/-- `new Map(zones.map((zone) => [zone.name, zone])).get(name)`: the last zone of a name. -/
def zoneByName (name : Text) : Option ZoneInfo :=
  zones.reverse.find? fun zone => zone.name = name

/-- Where an action is shown: in no list when it is in the menu, in the header when its display
names no zone. -/
def shownIn (action : ActionInfo) : Option ActionGroup :=
  let zone := if isHeaderDisplay action.display then none else zoneByName zones action.display
  let listKey := zone.map fun zone => listKeyForAction zone action.layer
  if isFooterDisplay action.display then some .footer
  else if action.display = units "menu" then none
  else
    match listKey with
    | some key => if key ∈ zones.flatMap listKeysOfZone then some (.zone key) else some .header
    | none => some .header

def buildActionsModel (actions : List ActionInfo) (zones : List ZoneInfo) : ActionsModel :=
  let listKeys := zones.flatMap listKeysOfZone
  let inZone (key : Text) := actions.filter fun action => shownIn zones action = some (.zone key)
  let headerItems := rowItems .header (actions.filter fun action => shownIn zones action = some .header)
    zones inZone
  let footerItems := rowItems .footer (actions.filter fun action => shownIn zones action = some .footer)
    zones inZone
  { headerItems, footerItems
    layout :=
      { header := headerItems.map RowItem.id
        footer := footerItems.map RowItem.id
        -- an object has a key once, where it first came
        zones := (pushed [] listKeys).map fun key => (key, (inZone key).map ActionInfo.name) }
    nextHeaderPosition := nextPosition headerItems
    nextFooterPosition := nextPosition footerItems }

end Lpm.Toolbar
