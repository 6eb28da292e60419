/-
Which button stands in which list. A list key names its zone and its layer, an action's display
and layer name one list, and the model shows every action there and nowhere else; a layout is
fit for some actions and zones when it has the same lists with every button and zone once, and
every move keeps it so.
-/
import Lpm.Toolbar.Order
import Mathlib.Data.List.TakeWhile

set_option autoImplicit false

namespace Lpm.Toolbar

open List Option

open Distinct StableSort

/-! ## Actions and zones as the bars get them -/

/-- Actions and zones of names of their own. A button's name is no zone item's; a zone's name
is no word a display has a meaning for and has no slash, and the layers of a zone are told
apart by their names. -/
structure Listed (actions : List ActionInfo) (zones : List ZoneInfo) : Prop where
  names : (actions.map ActionInfo.name).Nodup
  buttons : ∀ a ∈ actions, isZoneItemId a.name = false
  zoneNames : (zones.map ZoneInfo.name).Nodup
  words : ∀ z ∈ zones, isHeaderDisplay z.name = false ∧ isFooterDisplay z.name = false
    ∧ z.name ≠ units "menu" ∧ slash ∉ z.name
  layers : ∀ z ∈ zones, ((layersOf z).map LayerInfo.name).Nodup ∧ ∀ l ∈ layersOf z, l.name ≠ []

variable {actions : List ActionInfo} {zones : List ZoneInfo} {layout : ActionsLayout}

/-! ## Zone items -/

theorem isZoneItemId_zoneItemId (name : Text) : isZoneItemId (zoneItemId name) = true :=
  isPrefixOf_iff_prefix.mpr (prefix_append _ _)

theorem zoneNameOfItem_zoneItemId (name : Text) : zoneNameOfItem (zoneItemId name) = name :=
  drop_left

theorem zoneItemId_zoneNameOfItem {id : Text} (h : isZoneItemId id = true) :
    zoneItemId (zoneNameOfItem id) = id := by
  obtain ⟨rest, hrest⟩ := isPrefixOf_iff_prefix.mp h
  have hdrop : zoneNameOfItem id = rest := by
    rw [← hrest, zoneNameOfItem, drop_left]
  rw [hdrop, zoneItemId, hrest]

theorem zoneItemId_injective {a b : Text} (h : zoneItemId a = zoneItemId b) : a = b :=
  append_cancel_left h

/-! ## List keys -/

theorem takeWhile_append_slash {name rest : Text} (h : slash ∉ name) :
    (name ++ slash :: rest).takeWhile (fun c => c ≠ slash) = name := by
  rw [takeWhile_append_of_pos]
  · simp
  · intro c hc
    simpa using fun heq : c = slash => h (heq ▸ hc)

theorem dropWhile_append_slash {name rest : Text} (h : slash ∉ name) :
    (name ++ slash :: rest).dropWhile (fun c => c ≠ slash) = slash :: rest := by
  rw [dropWhile_append_of_pos]
  · simp
  · intro c hc
    simpa using fun heq : c = slash => h (heq ▸ hc)

theorem takeWhile_slash {name : Text} (h : slash ∉ name) :
    name.takeWhile (fun c => c ≠ slash) = name := by
  rw [takeWhile_eq_self_iff]
  intro c hc
  simpa using fun heq : c = slash => h (heq ▸ hc)

theorem zoneListKey_some {zone layer : Text} (h : layer ≠ []) :
    zoneListKey zone (some layer) = zone ++ slash :: layer := by
  cases layer with
  | nil => exact absurd rfl h
  | cons c cs => rfl

variable {z : ZoneInfo}

/-- A key of a zone's: the zone's name, or that with the name of one of its layers. -/
theorem mem_listKeysOfZone {key : Text} :
    key ∈ listKeysOfZone z ↔ (layersOf z = [] ∧ key = z.name)
      ∨ ∃ l ∈ layersOf z, zoneListKey z.name (some l.name) = key := by
  rw [listKeysOfZone]
  by_cases h : layersOf z = []
  · rw [if_pos h, mem_singleton]
    simp [h]
  · rw [if_neg h, List.mem_map]
    simp [h]

/-- A key names its zone. -/
theorem Listed.zoneOfListKey_eq (h : Listed actions zones) (hz : z ∈ zones) {key : Text}
    (hkey : key ∈ listKeysOfZone z) : zoneOfListKey key = z.name := by
  obtain ⟨-, -, -, hslash⟩ := h.words z hz
  rcases mem_listKeysOfZone.mp hkey with ⟨-, rfl⟩ | ⟨l, hl, rfl⟩
  · exact takeWhile_slash hslash
  · rw [zoneListKey_some ((h.layers z hz).2 l hl), zoneOfListKey, takeWhile_append_slash hslash]

/-- And it is the list of an action that names its layer, or any where it has none. -/
theorem Listed.listKeyForAction_eq (h : Listed actions zones) (hz : z ∈ zones) {key : Text}
    (hkey : key ∈ listKeysOfZone z) {layer : Option Text}
    (hlayer : ∀ l, layerOfListKey key = some l → layer = some l) : listKeyForAction z layer = key := by
  obtain ⟨-, -, -, hslash⟩ := h.words z hz
  rcases mem_listKeysOfZone.mp hkey with ⟨hnone, rfl⟩ | ⟨l, hl, rfl⟩
  · rw [listKeyForAction, hnone]
  · have hne := (h.layers z hz).2 l hl
    rw [zoneListKey_some hne] at hlayer ⊢
    have hname : layer = some l.name := by
      refine hlayer l.name ?_
      rw [layerOfListKey, if_pos (by simp), dropWhile_append_slash hslash, drop_one, tail_cons]
    cases hlayers : layersOf z with
    | nil =>
      rw [hlayers] at hl
      exact nomatch hl
    | cons first rest =>
      rw [listKeyForAction, hlayers]
      dsimp only
      have hfind : ((first :: rest).find? fun x => some x.name = layer) = some l := by
        have hfun : (fun x : LayerInfo => decide (some x.name = layer))
            = fun x => decide (x.name = l.name) := by
          funext x
          rw [hname]
          simp
        rw [hfun, ← hlayers]
        exact find_of_nodup (h.layers z hz).1 hl
      rw [hfind, getD_some, zoneListKey_some hne]

theorem listKeyForAction_mem (z : ZoneInfo) (layer : Option Text) :
    listKeyForAction z layer ∈ listKeysOfZone z := by
  rw [mem_listKeysOfZone, listKeyForAction]
  cases hlayers : layersOf z with
  | nil => exact Or.inl ⟨rfl, rfl⟩
  | cons first rest =>
    refine Or.inr ⟨((first :: rest).find? fun l => some l.name = layer).getD first, ?_, rfl⟩
    cases hf : (first :: rest).find? fun l => some l.name = layer with
    | none => exact mem_cons_self
    | some found => exact mem_of_find?_eq_some hf

/-! ## Where an action is shown -/

theorem Listed.zoneByName_eq (h : Listed actions zones) (hz : z ∈ zones) :
    zoneByName zones z.name = some z := by
  have hnodup : (zones.reverse.map ZoneInfo.name).Nodup := by
    rw [map_reverse, nodup_reverse]
    exact h.zoneNames
  exact find_of_nodup hnodup (mem_reverse.mpr hz)

theorem zoneByName_some {name : Text} (h : zoneByName zones name = some z) :
    z ∈ zones ∧ z.name = name := by
  rw [zoneByName] at h
  exact ⟨mem_reverse.mp (mem_of_find?_eq_some h), by simpa using find?_some h⟩

/-- The lists the zones have, and the rows. -/
def IsGroup (zones : List ZoneInfo) : ActionGroup → Prop
  | .zone key => key ∈ zones.flatMap listKeysOfZone
  | _ => True

theorem shownIn_isGroup {a : ActionInfo} {g : ActionGroup} (h : shownIn zones a = some g) : IsGroup zones g := by
  rw [shownIn] at h
  by_cases hfooter : isFooterDisplay a.display = true
  · rw [if_pos hfooter] at h
    exact some.inj h ▸ trivial
  · rw [if_neg hfooter] at h
    by_cases hmenu : a.display = units "menu"
    · rw [if_pos hmenu] at h
      exact nomatch h
    · rw [if_neg hmenu] at h
      split at h
      next key _ =>
        by_cases hkey : key ∈ zones.flatMap listKeysOfZone
        · rw [if_pos hkey] at h
          exact some.inj h ▸ hkey
        · rw [if_neg hkey] at h
          exact some.inj h ▸ trivial
      · exact some.inj h ▸ trivial

/-- An action is shown in the list its display and layer name. -/
theorem Listed.shownIn_of_display (h : Listed actions zones) {a : ActionInfo} {g : ActionGroup}
    (hg : IsGroup zones g) (hdisplay : a.display = displayOfGroup g)
    (hlayer : ∀ l, layerOfGroup g = some l → a.layer = some l) : shownIn zones a = some g := by
  rw [shownIn]
  cases g with
  | header =>
    have hd : a.display = units "header" := hdisplay
    rw [hd]
    rfl
  | footer =>
    have hd : a.display = units "footer" := hdisplay
    rw [hd]
    rfl
  | zone key =>
    obtain ⟨z, hz, hkey⟩ := mem_flatMap.mp hg
    obtain ⟨hheader, hfooter, hmenu, -⟩ := h.words z hz
    have hd : a.display = z.name := hdisplay.trans (h.zoneOfListKey_eq hz hkey)
    rw [hd, hfooter, hheader, if_neg Bool.false_ne_true, if_neg hmenu, if_neg Bool.false_ne_true,
      h.zoneByName_eq hz, map_some, h.listKeyForAction_eq hz hkey hlayer]
    dsimp only
    rw [if_pos (mem_flatMap.mpr ⟨z, hz, hkey⟩)]

/-- The writer reads the group off an action as the model does. -/
theorem Listed.groupOfAction_eq (h : Listed actions zones) (a : ActionInfo)
    (hkeys : ∀ key ∈ layout.zones.map Prod.fst, key ∈ zones.flatMap listKeysOfZone) :
    groupOfAction a zones layout = shownIn zones a := by
  rw [groupOfAction, shownIn]
  dsimp only
  by_cases hheader : isHeaderDisplay a.display = true
  · have hfooter : isFooterDisplay a.display = false := by
      rw [isHeaderDisplay, Bool.or_eq_true, Bool.or_eq_true, decide_eq_true_eq, decide_eq_true_eq,
        decide_eq_true_eq] at hheader
      rcases hheader with (heq | heq) | heq <;> rw [heq] <;> rfl
    have hmenu : a.display ≠ units "menu" := by
      intro heq
      rw [heq] at hheader
      exact absurd hheader (by decide)
    rw [if_pos hheader, if_pos hheader, hfooter, if_neg Bool.false_ne_true, if_neg hmenu]
    rfl
  · rw [if_neg hheader, if_neg hheader]
    by_cases hfooter : isFooterDisplay a.display = true
    · rw [if_pos hfooter, if_pos hfooter]
    · rw [if_neg hfooter, if_neg hfooter]
      by_cases hmenu : a.display = units "menu"
      · rw [if_pos hmenu, if_pos hmenu]
      · rw [if_neg hmenu, if_neg hmenu]
        cases hfind : zones.find? fun zone => zone.name = a.display with
        | some z =>
          have hz := mem_of_find?_eq_some hfind
          have hname : z.name = a.display := by simpa using find?_some hfind
          rw [← hname, h.zoneByName_eq hz, map_some]
          dsimp only
          rw [if_pos (mem_flatMap.mpr ⟨z, hz, listKeyForAction_mem z a.layer⟩)]
        | none =>
          have hnone : zoneByName zones a.display = none := by
            cases hby : zoneByName zones a.display with
            | none => rfl
            | some z =>
              obtain ⟨hz, hname⟩ := zoneByName_some hby
              have hnot := find?_eq_none.mp hfind z hz
              rw [hname] at hnot
              simp at hnot
          -- the keys of the layout are those of zones, and no zone has the name
          have hlist : listKeysInLayout layout a.display = [] := by
            rw [listKeysInLayout, filter_eq_nil_iff]
            intro key hkey hzone
            rw [decide_eq_true_eq] at hzone
            obtain ⟨z, hz, hin⟩ := mem_flatMap.mp (hkeys key hkey)
            have hnot := find?_eq_none.mp hfind z hz
            rw [← hzone, h.zoneOfListKey_eq hz hin] at hnot
            simp at hnot
          rw [hnone, hlist]
          rfl

end Lpm.Toolbar
