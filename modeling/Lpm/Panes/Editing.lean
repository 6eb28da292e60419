/-
Editing a pane tree: finding a pane by its id, the path to it, splitting it, taking it out and
the pane next to it (`paneTree.ts`).

A split has its two sides by its type, so no edit leaves one with fewer. The source returns the
very node where an edit changed nothing below it; as values the two are the same.
-/
import Lpm.Panes.PersistedTree

set_option autoImplicit false

namespace Lpm.Panes

open List Option

/-! ## The panes of a tree -/

structure PaneLeaf where
  id : String
  tabs : List TerminalInstance
  activeTabIdx : ℤ
  activeServiceName : Option String
  deriving DecidableEq

def PaneLeaf.node (p : PaneLeaf) : PaneNode :=
  .leaf p.id p.tabs p.activeTabIdx p.activeServiceName

/-- `walkPanes` with a push onto `out`. -/
def collectPanes : PaneNode → List PaneLeaf
  | .leaf id tabs activeTabIdx activeServiceName => [⟨id, tabs, activeTabIdx, activeServiceName⟩]
  | .split _ _ a b => collectPanes a ++ collectPanes b

def paneIds (node : PaneNode) : List String := (collectPanes node).map PaneLeaf.id

def findPane (node : PaneNode) (paneId : String) : Option PaneLeaf :=
  match node with
  | .leaf id tabs activeTabIdx activeServiceName =>
    if id = paneId then some ⟨id, tabs, activeTabIdx, activeServiceName⟩ else none
  | .split _ _ a b => (findPane a paneId).or (findPane b paneId)

def firstPaneId : PaneNode → String
  | .leaf id .. => id
  | .split _ _ a _ => firstPaneId a

def lastPaneId : PaneNode → String
  | .leaf id .. => id
  | .split _ _ _ b => lastPaneId b

/-! ## Paths -/

/-- Whether the pane is below `node`. The steps of the path are pushed on the way back up. -/
def buildPanePath (node : PaneNode) (paneId : String) (out : List ℤ) : Bool × List ℤ :=
  match node with
  | .leaf id .. => (id = paneId, out)
  | .split _ _ a b =>
    let (found, out) := buildPanePath a paneId out
    if found then (true, out ++ [0])
    else
      let (found, out) := buildPanePath b paneId out
      if found then (true, out ++ [1]) else (false, out)

/-- Each step of a path is 0 (take `a`) or 1 (take `b`). -/
def panePath (node : PaneNode) (paneId : String) : Option (List ℤ) :=
  let (found, out) := buildPanePath node paneId []
  if found then some out.reverse else none

def paneAtPath (node : PaneNode) : List ℤ → Option PaneLeaf
  | [] =>
    match node with
    | .leaf id tabs activeTabIdx activeServiceName => some ⟨id, tabs, activeTabIdx, activeServiceName⟩
    | .split .. => none
  | step :: path =>
    match node with
    | .leaf .. => none
    | .split _ _ a b =>
      if step = 0 then paneAtPath a path else if step = 1 then paneAtPath b path else none

/-! ## Edits -/

def isPane (node : PaneNode) (paneId : String) : Bool :=
  match node with
  | .leaf id .. => id = paneId
  | .split .. => false

def siblingPaneId (node : PaneNode) (paneId : String) : Option String :=
  match node with
  | .leaf .. => none
  | .split _ _ a b =>
    if isPane a paneId then some (firstPaneId b)
    else if isPane b paneId then some (lastPaneId a)
    else (siblingPaneId a paneId).or (siblingPaneId b paneId)

def mapPane (node : PaneNode) (paneId : String) (fn : PaneLeaf → PaneLeaf) : PaneNode :=
  match node with
  | .leaf id tabs activeTabIdx activeServiceName =>
    if id = paneId then (fn ⟨id, tabs, activeTabIdx, activeServiceName⟩).node
    else .leaf id tabs activeTabIdx activeServiceName
  | .split direction ratio a b =>
    .split direction ratio (mapPane a paneId fn) (mapPane b paneId fn)

def replacePane (node : PaneNode) (paneId : String) (replacement : PaneNode) : PaneNode :=
  match node with
  | .leaf id tabs activeTabIdx activeServiceName =>
    if id = paneId then replacement else .leaf id tabs activeTabIdx activeServiceName
  | .split direction ratio a b =>
    .split direction ratio (replacePane a paneId replacement) (replacePane b paneId replacement)

/-- The sibling of the pane that is removed takes the place of their split. -/
def removePane (node : PaneNode) (paneId : String) : Option PaneNode :=
  match node with
  | .leaf id tabs activeTabIdx activeServiceName =>
    if id = paneId then none else some (.leaf id tabs activeTabIdx activeServiceName)
  | .split direction ratio a b =>
    if isPane a paneId then some b
    else if isPane b paneId then some a
    else
      match removePane a paneId, removePane b paneId with
      | none, _ => some b
      | some _, none => some a
      | some a, some b => some (.split direction ratio a b)

/-- The pane becomes child `a` of a split, and the new pane child `b`. -/
def splitAtPane (node : PaneNode) (paneId : String) (direction : SplitDirection)
    (newPane : PaneLeaf) : PaneNode :=
  match findPane node paneId with
  | none => node
  | some existing => replacePane node paneId (.split direction (1 / 2) existing.node newPane.node)

/-! ## Where a pane stands -/

section
variable {node a b : PaneNode} {direction : SplitDirection} {ratio : ℚ} {p : PaneLeaf}
  {paneId : String} {l r : List PaneLeaf} {path : List ℤ}

/-- A pane stands on one side of a split. -/
theorem around_split (h : collectPanes (.split direction ratio a b) = l ++ p :: r) :
    (∃ r', collectPanes a = l ++ p :: r' ∧ r = r' ++ collectPanes b) ∨
      ∃ l', collectPanes b = l' ++ p :: r ∧ l = collectPanes a ++ l' := by
  rw [collectPanes, append_eq_append_iff] at h
  rcases h with ⟨l', hl, hb⟩ | ⟨rest, ha, hrest⟩
  · exact Or.inr ⟨l', hb, hl⟩
  · cases rest with
    | nil =>
      rw [nil_append] at hrest
      rw [append_nil] at ha
      exact Or.inr ⟨[], hrest.symm, by rw [ha, append_nil]⟩
    | cons q rest =>
      rw [cons_append] at hrest
      obtain ⟨rfl, hr⟩ := List.cons.inj hrest
      exact Or.inl ⟨rest, ha, hr⟩

/-- A tree of one pane has none around it. -/
theorem around_leaf {q : PaneLeaf} (h : [q] = l ++ p :: r) : q = p ∧ l = [] ∧ r = [] := by
  rcases append_eq_singleton_iff.mp h.symm with ⟨rfl, hcons⟩ | ⟨-, hnil⟩
  · cases hcons
    exact ⟨rfl, rfl, rfl⟩
  · exact nomatch hnil

theorem mem_paneIds (h : collectPanes node = l ++ p :: r) : p.id ∈ paneIds node := by
  rw [paneIds, h]
  exact List.mem_map_of_mem (mem_append_right _ mem_cons_self)

@[simp] theorem paneIds_split :
    paneIds (.split direction ratio a b) = paneIds a ++ paneIds b := map_append

theorem collectPanes_ne_nil (node : PaneNode) : collectPanes node ≠ [] := by
  induction node with
  | leaf => exact cons_ne_nil _ _
  | split direction ratio a b iha ihb =>
    intro h
    exact iha (append_eq_nil_iff.mp h).1

theorem head_paneIds (node : PaneNode) : (paneIds node).head? = some (firstPaneId node) := by
  induction node with
  | leaf => rfl
  | split direction ratio a b iha ihb =>
    rw [paneIds_split, head?_append, iha, firstPaneId]
    rfl

theorem getLast_paneIds (node : PaneNode) : (paneIds node).getLast? = some (lastPaneId node) := by
  induction node with
  | leaf => rfl
  | split direction ratio a b iha ihb =>
    rw [paneIds_split, getLast?_append, ihb, lastPaneId]
    rfl

/-- A node that is the pane has no other. -/
theorem isPane_iff : isPane node paneId = true ↔ ∃ p, collectPanes node = [p] ∧ p.id = paneId := by
  cases node with
  | leaf id tabs activeTabIdx activeServiceName =>
    rw [isPane, decide_eq_true_eq]
    constructor
    · intro h
      exact ⟨_, rfl, h⟩
    · rintro ⟨p, hp, hid⟩
      obtain rfl := singleton_inj.mp hp
      exact hid
  | split direction ratio a b =>
    constructor
    · intro h
      exact nomatch h
    · rintro ⟨p, hp, -⟩
      rcases append_eq_singleton_iff.mp hp with ⟨ha, -⟩ | ⟨-, hb⟩
      · exact absurd ha (collectPanes_ne_nil a)
      · exact absurd hb (collectPanes_ne_nil b)

theorem isPane_of_alone (hp : collectPanes node = l ++ p :: r) (h : l ++ r = []) :
    isPane node p.id = true := by
  obtain ⟨rfl, rfl⟩ := append_eq_nil_iff.mp h
  exact isPane_iff.mpr ⟨p, hp, rfl⟩

theorem alone_of_isPane (h : isPane node p.id = true) (hp : collectPanes node = l ++ p :: r) :
    l = [] ∧ r = [] := by
  obtain ⟨q, hq, -⟩ := isPane_iff.mp h
  exact (around_leaf (hq.symm.trans hp)).2

variable (h : paneId ∉ paneIds node)
include h

theorem isPane_of_not_mem : isPane node paneId = false := by
  rw [← Bool.not_eq_true, isPane_iff]
  rintro ⟨p, hp, rfl⟩
  exact h (mem_paneIds (l := []) hp)

/-! ## An id that is not in the tree -/

theorem buildPanePath_of_not_mem (out : List ℤ) :
    buildPanePath node paneId out = (false, out) := by
  induction node with
  | leaf id tabs activeTabIdx activeServiceName =>
    have hid : id ≠ paneId := fun heq => h (mem_singleton.mpr heq.symm)
    rw [buildPanePath, decide_eq_false hid]
  | split direction ratio a b iha ihb =>
    rw [paneIds_split, mem_append, not_or] at h
    simp only [buildPanePath, iha h.1, ihb h.2, Bool.false_eq_true, if_false]

theorem findPane_of_not_mem : findPane node paneId = none := by
  induction node with
  | leaf id tabs activeTabIdx activeServiceName =>
    exact if_neg fun heq => h (mem_singleton.mpr heq.symm)
  | split direction ratio a b iha ihb =>
    rw [paneIds_split, mem_append, not_or] at h
    rw [findPane, iha h.1, ihb h.2, none_or]

theorem replacePane_of_not_mem (replacement : PaneNode) :
    replacePane node paneId replacement = node := by
  induction node with
  | leaf id tabs activeTabIdx activeServiceName =>
    exact if_neg fun heq => h (mem_singleton.mpr heq.symm)
  | split direction ratio a b iha ihb =>
    rw [paneIds_split, mem_append, not_or] at h
    rw [replacePane, iha h.1, ihb h.2]

theorem removePane_of_not_mem : removePane node paneId = some node := by
  induction node with
  | leaf id tabs activeTabIdx activeServiceName =>
    exact if_neg fun heq => h (mem_singleton.mpr heq.symm)
  | split direction ratio a b iha ihb =>
    rw [paneIds_split, mem_append, not_or] at h
    rw [removePane, isPane_of_not_mem h.1, isPane_of_not_mem h.2, iha h.1, ihb h.2]
    rfl

theorem siblingPaneId_of_not_mem : siblingPaneId node paneId = none := by
  induction node with
  | leaf => rfl
  | split direction ratio a b iha ihb =>
    rw [paneIds_split, mem_append, not_or] at h
    rw [siblingPaneId, isPane_of_not_mem h.1, isPane_of_not_mem h.2, iha h.1, ihb h.2]
    rfl

omit h

/-- The ids of the two sides of a split are apart. -/
theorem nodup_sides (paneId : String) (h : (paneIds (.split direction ratio a b)).Nodup) :
    (paneIds a).Nodup ∧ (paneIds b).Nodup ∧
      (paneId ∈ paneIds a → paneId ∉ paneIds b) ∧ (paneId ∈ paneIds b → paneId ∉ paneIds a) := by
  rw [paneIds_split, nodup_append] at h
  obtain ⟨ha, hb, hapart⟩ := h
  refine ⟨ha, hb, ?_, ?_⟩
  · intro hmem hmem'
    exact hapart paneId hmem paneId hmem' rfl
  · intro hmem hmem'
    exact hapart paneId hmem' paneId hmem rfl

/-! ## The laws -/

theorem mem_of_paneAtPath (h : paneAtPath node path = some p) : p ∈ collectPanes node := by
  induction path generalizing node with
  | nil =>
    cases node with
    | leaf =>
      cases h
      exact mem_singleton_self _
    | split => exact nomatch h
  | cons step path ih =>
    cases node with
    | leaf => exact nomatch h
    | split direction ratio a b =>
      rw [paneAtPath] at h
      rw [collectPanes, mem_append]
      by_cases hzero : step = 0
      · rw [if_pos hzero] at h
        exact Or.inl (ih h)
      · by_cases hone : step = 1
        · rw [if_neg hzero, if_pos hone] at h
          exact Or.inr (ih h)
        · rw [if_neg hzero, if_neg hone] at h
          exact nomatch h

/-- Some path leads to every pane. -/
theorem exists_path (h : p ∈ collectPanes node) : ∃ path, paneAtPath node path = some p := by
  induction node with
  | leaf => exact ⟨[], congrArg some (mem_singleton.mp h).symm⟩
  | split direction ratio a b iha ihb =>
    rcases mem_append.mp h with ha | hb
    · obtain ⟨path, hpath⟩ := iha ha
      exact ⟨0 :: path, hpath⟩
    · obtain ⟨path, hpath⟩ := ihb hb
      exact ⟨1 :: path, hpath⟩

variable (hnodup : (paneIds node).Nodup)
include hnodup

/-- The path that leads to a pane is the one that is built, from its end. -/
theorem buildPanePath_of_paneAtPath
    (h : paneAtPath node path = some p) (out : List ℤ) :
    buildPanePath node p.id out = (true, out ++ path.reverse) := by
  induction path generalizing node with
  | nil =>
    cases node with
    | leaf =>
      cases h
      rw [buildPanePath, decide_eq_true rfl, reverse_nil, append_nil]
    | split => exact nomatch h
  | cons step path ih =>
    cases node with
    | leaf => exact nomatch h
    | split direction ratio a b =>
      obtain ⟨hnodupa, hnodupb, -, hapart⟩ := nodup_sides p.id hnodup
      rw [paneAtPath] at h
      by_cases hzero : step = 0
      · rw [if_pos hzero] at h
        simp only [buildPanePath, ih hnodupa h, if_true, hzero, reverse_cons, append_assoc]
      · by_cases hone : step = 1
        · rw [if_neg hzero, if_pos hone] at h
          have hnot := buildPanePath_of_not_mem (hapart (List.mem_map_of_mem (mem_of_paneAtPath h))) out
          simp only [buildPanePath, hnot, ih hnodupb h, Bool.false_eq_true, if_false, if_true, hone,
            reverse_cons, append_assoc]
        · rw [if_neg hzero, if_neg hone] at h
          exact nomatch h

theorem panePath_of_paneAtPath (h : paneAtPath node path = some p) :
    panePath node p.id = some path := by
  simp only [panePath, buildPanePath_of_paneAtPath hnodup h, if_true, nil_append,
    reverse_reverse]

theorem findPane_of_mem (h : p ∈ collectPanes node) :
    findPane node p.id = some p := by
  induction node with
  | leaf =>
    obtain rfl := mem_singleton.mp h
    exact if_pos rfl
  | split direction ratio a b iha ihb =>
    obtain ⟨hnodupa, hnodupb, -, hapart⟩ := nodup_sides p.id hnodup
    rcases mem_append.mp h with ha | hb
    · rw [findPane, iha hnodupa ha, some_or]
    · rw [findPane, findPane_of_not_mem (hapart (List.mem_map_of_mem hb)), ihb hnodupb hb,
        none_or]

/-- What a pane is replaced by stands where it stood. -/
theorem collectPanes_replacePane (hp : collectPanes node = l ++ p :: r)
    (replacement : PaneNode) :
    collectPanes (replacePane node p.id replacement) = l ++ collectPanes replacement ++ r := by
  induction node generalizing l r with
  | leaf =>
    obtain ⟨rfl, rfl, rfl⟩ := around_leaf hp
    rw [replacePane, if_pos rfl, nil_append, append_nil]
  | split direction ratio a b iha ihb =>
    obtain ⟨hnodupa, hnodupb, hleft, hright⟩ := nodup_sides p.id hnodup
    rcases around_split hp with ⟨r', ha, rfl⟩ | ⟨l', hb, rfl⟩
    · rw [replacePane, collectPanes, iha hnodupa ha,
        replacePane_of_not_mem (hleft (mem_paneIds ha)), append_assoc _ r']
    · rw [replacePane, collectPanes, ihb hnodupb hb,
        replacePane_of_not_mem (hright (mem_paneIds hb)), append_assoc, append_assoc,
        append_assoc]

theorem collectPanes_splitAtPane
    (hp : collectPanes node = l ++ p :: r) (direction : SplitDirection) (newPane : PaneLeaf) :
    collectPanes (splitAtPane node p.id direction newPane) = l ++ p :: newPane :: r := by
  have hmem : p ∈ collectPanes node := by
    rw [hp]
    exact mem_append_right _ mem_cons_self
  rw [splitAtPane, findPane_of_mem hnodup hmem]
  dsimp only
  rw [collectPanes_replacePane hnodup hp, append_assoc]
  rfl

omit hnodup in
/-- `mapPane` changes the pane where it stands, and no other. -/
theorem collectPanes_mapPane (node : PaneNode) (paneId : String) (fn : PaneLeaf → PaneLeaf) :
    collectPanes (mapPane node paneId fn)
      = (collectPanes node).map fun p => if p.id = paneId then fn p else p := by
  induction node with
  | leaf id tabs activeTabIdx activeServiceName =>
    rw [mapPane, collectPanes, map_singleton]
    split_ifs
    · rfl
    · rfl
  | split direction ratio a b iha ihb =>
    rw [mapPane, collectPanes, collectPanes, iha, ihb, map_append]

/-- Where a pane is removed the others stay, in their order, and nothing is left where there
are none. -/
theorem removePane_around (hp : collectPanes node = l ++ p :: r) :
    (l ++ r = [] → removePane node p.id = none) ∧
      (l ++ r ≠ [] → ∃ rest, removePane node p.id = some rest ∧ collectPanes rest = l ++ r) := by
  induction node generalizing l r with
  | leaf =>
    obtain ⟨rfl, rfl, rfl⟩ := around_leaf hp
    refine ⟨fun _ => if_pos rfl, fun hne => absurd rfl hne⟩
  | split direction ratio a b iha ihb =>
    obtain ⟨hnodupa, hnodupb, hleft, hright⟩ := nodup_sides p.id hnodup
    rcases around_split hp with ⟨r', ha, rfl⟩ | ⟨l', hb, rfl⟩
    · have hb := hleft (mem_paneIds ha)
      refine ⟨fun hnil => absurd (append_eq_nil_iff.mp (append_eq_nil_iff.mp hnil).2).2
        (collectPanes_ne_nil b), fun _ => ?_⟩
      by_cases halone : isPane a p.id = true
      · obtain ⟨rfl, rfl⟩ := alone_of_isPane halone ha
        exact ⟨b, if_pos halone, rfl⟩
      · obtain ⟨rest, hrest, hothers⟩ := (iha hnodupa ha).2 fun hnil => halone (isPane_of_alone ha hnil)
        refine ⟨.split direction ratio rest b, ?_, ?_⟩
        · rw [removePane, if_neg halone, isPane_of_not_mem hb, hrest, removePane_of_not_mem hb]
          rfl
        · rw [collectPanes, hothers, append_assoc]
    · have ha := hright (mem_paneIds hb)
      refine ⟨fun hnil => absurd (append_eq_nil_iff.mp (append_eq_nil_iff.mp hnil).1).1
        (collectPanes_ne_nil a), fun _ => ?_⟩
      by_cases halone : isPane b p.id = true
      · obtain ⟨rfl, rfl⟩ := alone_of_isPane halone hb
        refine ⟨a, ?_, (append_nil _).symm.trans (congrArg (· ++ []) (append_nil _).symm)⟩
        rw [removePane, isPane_of_not_mem ha, if_neg Bool.false_ne_true, if_pos halone]
      · obtain ⟨rest, hrest, hothers⟩ := (ihb hnodupb hb).2 fun hnil => halone (isPane_of_alone hb hnil)
        refine ⟨.split direction ratio a rest, ?_, ?_⟩
        · rw [removePane, isPane_of_not_mem ha, if_neg Bool.false_ne_true, if_neg halone, hrest,
            removePane_of_not_mem ha]
        · rw [collectPanes, hothers, append_assoc]

/-- The sibling of a pane stands right behind it or right in front of it. -/
theorem siblingPaneId_around (hp : collectPanes node = l ++ p :: r)
    (hne : l ++ r ≠ []) : ∃ q, siblingPaneId node p.id = some q ∧
      ((r.map PaneLeaf.id).head? = some q ∨ (l.map PaneLeaf.id).getLast? = some q) := by
  induction node generalizing l r with
  | leaf =>
    obtain ⟨-, rfl, rfl⟩ := around_leaf hp
    exact absurd rfl hne
  | split direction ratio a b iha ihb =>
    obtain ⟨hnodupa, hnodupb, hleft, hright⟩ := nodup_sides p.id hnodup
    rcases around_split hp with ⟨r', ha, rfl⟩ | ⟨l', hb, rfl⟩
    · have hb := hleft (mem_paneIds ha)
      by_cases halone : isPane a p.id = true
      · obtain ⟨rfl, rfl⟩ := alone_of_isPane halone ha
        exact ⟨firstPaneId b, if_pos halone, Or.inl (head_paneIds b)⟩
      · obtain ⟨q, hq, hnext⟩ := iha hnodupa ha fun hnil => halone (isPane_of_alone ha hnil)
        refine ⟨q, ?_, hnext.imp ?_ id⟩
        · rw [siblingPaneId, if_neg halone, isPane_of_not_mem hb, hq]
          rfl
        · intro hhead
          rw [map_append, head?_append, hhead]
          rfl
    · have ha := hright (mem_paneIds hb)
      by_cases halone : isPane b p.id = true
      · obtain ⟨rfl, rfl⟩ := alone_of_isPane halone hb
        refine ⟨lastPaneId a, ?_, Or.inr ?_⟩
        · rw [siblingPaneId, isPane_of_not_mem ha, if_neg Bool.false_ne_true, if_pos halone]
        · rw [append_nil]
          exact getLast_paneIds a
      · obtain ⟨q, hq, hnext⟩ := ihb hnodupb hb fun hnil => halone (isPane_of_alone hb hnil)
        refine ⟨q, ?_, hnext.imp id ?_⟩
        · rw [siblingPaneId, isPane_of_not_mem ha, if_neg Bool.false_ne_true, if_neg halone, hq,
            siblingPaneId_of_not_mem ha, none_or]
        · intro hlast
          rw [map_append, getLast?_append, hlast]
          rfl

omit hnodup

/-- Finding, splitting and removing a pane, and its sibling: all that is said of a pane whose
others stand `l` in front of it and `r` behind it. -/
theorem pane_edits (hnodup : (paneIds node).Nodup) (hp : collectPanes node = l ++ p :: r) :
    (∃ path, panePath node p.id = some path) ∧
      (∀ path, panePath node p.id = some path ↔ paneAtPath node path = some p) ∧
      (removePane node p.id = none ↔ l ++ r = []) ∧
      (∀ rest, removePane node p.id = some rest → collectPanes rest = l ++ r) ∧
      (∀ direction newPane,
        collectPanes (splitAtPane node p.id direction newPane) = l ++ p :: newPane :: r) ∧
      (l ++ r ≠ [] → ∃ q rest, siblingPaneId node p.id = some q ∧
        ((r.map PaneLeaf.id).head? = some q ∨ (l.map PaneLeaf.id).getLast? = some q) ∧
        removePane node p.id = some rest ∧ q ∈ paneIds rest) := by
  have hmem : p ∈ collectPanes node := by
    rw [hp]
    exact mem_append_right _ mem_cons_self
  obtain ⟨path, hpath⟩ := exists_path hmem
  have hbuilt := panePath_of_paneAtPath hnodup hpath
  obtain ⟨hlast, hothers⟩ := removePane_around hnodup hp
  refine ⟨⟨path, hbuilt⟩, ?_, ?_, ?_, collectPanes_splitAtPane hnodup hp, ?_⟩
  · intro path'
    constructor
    · intro h
      obtain rfl := some.inj (hbuilt.symm.trans h)
      exact hpath
    · exact panePath_of_paneAtPath hnodup
  · refine ⟨fun hnone => ?_, hlast⟩
    -- with another pane left there is a tree to keep
    by_contra hne
    obtain ⟨rest, hrest, -⟩ := hothers hne
    exact nomatch hnone.symm.trans hrest
  · intro rest hrest
    by_cases hnil : l ++ r = []
    · exact nomatch (hlast hnil).symm.trans hrest
    · obtain ⟨rest', hrest', hleaves⟩ := hothers hnil
      obtain rfl := some.inj (hrest.symm.trans hrest')
      exact hleaves
  · intro hne
    obtain ⟨q, hq, hnext⟩ := siblingPaneId_around hnodup hp hne
    obtain ⟨rest, hrest, hleaves⟩ := hothers hne
    refine ⟨q, rest, hq, hnext, hrest, ?_⟩
    rw [paneIds, hleaves, map_append, mem_append]
    rcases hnext with hhead | htail
    · exact Or.inr (mem_of_head? hhead)
    · exact Or.inl (mem_of_getLast? htail)

end

/-- The middle one of three panes. -/
theorem pane_edits_three :
    panePath (.split .row (1 / 2) (.leaf "a" [] 0 none)
      (.split .col (1 / 3) (.leaf "b" [] 0 none) (.leaf "c" [] 0 none))) "b" = some [1, 0] :=
  ((@pane_edits (.split .row (1 / 2) (.leaf "a" [] 0 none)
    (.split .col (1 / 3) (.leaf "b" [] 0 none) (.leaf "c" [] 0 none)))
    ⟨"b", [], 0, none⟩ [⟨"a", [], 0, none⟩] [⟨"c", [], 0, none⟩] (by decide) rfl).2.1 [1, 0]).mpr rfl

end Lpm.Panes
