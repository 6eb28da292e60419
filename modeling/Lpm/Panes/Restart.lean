/-
Terminal tabs survive a restart: persisting a pane tree and restoring it, when every terminal
starts.

Only terminal tabs are persisted, and a pane that is left with neither a terminal nor a
service to show is gone, its split collapsing to the other side. What is left of the tree
comes back as it was, pane by pane. The index of the active tab is persisted as it counts
among all the tabs of its pane, so it names the same tab only where terminals alone stand in
front of it.
-/
import Lpm.Panes.PersistedTree
import Mathlib.Data.List.Forall2

set_option autoImplicit false

namespace Lpm.Panes

open List Option

/-! ## What survives -/

/-- A restored tab is the terminal tab it was: all that was persisted of it. A local pty is a
fresh one and a missing history key is made up, so these two are not compared there. -/
structure SameTab (t t' : TerminalInstance) : Prop where
  terminal : isTerminalTab t' = true
  label : t'.label = t.label
  sessionTitle : t'.sessionTitle = truthy t.sessionTitle
  sessionTitleId : t'.sessionTitleId = truthy t.sessionTitleId
  sessionTitleSource : t'.sessionTitleSource = t.sessionTitleSource
  historyKey : truthy t.historyKey ≠ none → t'.historyKey = t.historyKey
  memory : t'.memory = t.memory
  startCmd : t'.startCmd = truthy t.startCmd
  resumeCmd : t'.resumeCmd = truthy t.resumeCmd
  agentEnded : t'.agentEnded = t.agentEnded
  actionName : t'.actionName = truthy t.actionName
  pinned : t'.pinned = t.pinned
  emoji : t'.emoji = truthy t.emoji
  color : t'.color = truthy t.color
  fromHost : t'.fromHost = t.fromHost
  forkOf : t'.forkOf = t.forkOf

/-- The tree without the panes that have neither a terminal tab nor a service to show. -/
def surviving : PaneNode → Option PaneNode
  | .leaf id tabs activeTabIdx activeServiceName =>
    if tabs.filter isTerminalTab = [] ∧ truthy activeServiceName = none then none
    else some (.leaf id tabs activeTabIdx activeServiceName)
  | .split direction ratio a b =>
    match surviving a, surviving b with
    | some a, some b => some (.split direction ratio a b)
    | some a, none => some a
    | none, b => b

/-- A restored tree is of the same shape, with the same terminal tabs in every pane in the same
order. Where the active tab was a terminal, behind terminals only, it is active again. -/
inductive Survived : PaneNode → PaneNode → Prop
  | leaf {id id' : String} {tabs tabs' : List TerminalInstance} {active active' : ℤ}
    {service service' : Option String}
    (htabs : List.Forall₂ SameTab (tabs.filter isTerminalTab) tabs')
    (hservice : service' = truthy service)
    (hactive : ∀ (i : ℕ) (t : TerminalInstance), active = i → tabs[i]? = some t →
      isTerminalTab t = true → (∀ t ∈ tabs.take i, isTerminalTab t = true) →
      active' = i ∧ ∃ t', tabs'[i]? = some t' ∧ SameTab t t') :
    Survived (.leaf id tabs active service) (.leaf id' tabs' active' service')
  | split {direction : SplitDirection} {ratio : ℚ} {a b a' b' : PaneNode} (ha : Survived a a')
    (hb : Survived b b') : Survived (.split direction ratio a b) (.split direction ratio a' b')

/-- Every terminal that is asked for is there or starts. -/
def EveryTabStarts (env : Env) (path : List Bool) : PersistedPaneNode → Prop
  | .leaf tabs _ _ => ∀ i t, (tabs.getD [])[i]? = some t →
      ∃ r, reifyTab (env.answers path i) t = .fulfilled (some r)
  | .halfSplit => True
  | .split _ _ a b => EveryTabStarts env (path ++ [false]) a ∧ EveryTabStarts env (path ++ [true]) b

/-! ## One tab -/

@[simp] theorem truthy_truthy (s : Option String) : truthy (truthy s) = truthy s := by
  rw [truthy, truthy, Option.filter_filter]
  simp

theorem sameTab_restored (t : TerminalInstance) (r : ReifiedTab) (randomUUID : String) :
    SameTab t (restoredTab (persistedTab t) r randomUUID) where
  terminal := rfl
  label := rfl
  sessionTitle := truthy_truthy _
  sessionTitleId := truthy_truthy _
  sessionTitleSource := rfl
  historyKey hkey := by
    obtain ⟨key, hsome⟩ := ne_none_iff_exists'.mp hkey
    have hkept : t.historyKey = some key := (filter_eq_some_iff.mp hsome).1
    change some ((truthy t.historyKey).getD randomUUID) = t.historyKey
    rw [hsome, hkept]
    rfl
  memory := rfl
  startCmd := truthy_truthy _
  resumeCmd := truthy_truthy _
  agentEnded := rfl
  actionName := truthy_truthy _
  pinned := rfl
  emoji := truthy_truthy _
  color := truthy_truthy _
  fromHost := rfl
  forkOf := rfl

/-! ## One pane -/

/-- With every tab started, the surviving tabs are all of them, each at its own index. -/
theorem gather_all (tabs : List (PersistedTab × Answers))
    (hstarts : ∀ tab ∈ tabs, ∃ r, reifyTab tab.2 tab.1 = .fulfilled (some r)) (g : Gathered) :
    ∃ restored, (tabs.foldl Gathered.add g).tabs = g.tabs ++ restored
      ∧ (tabs.foldl Gathered.add g).newIdx
        = g.newIdx ++ (List.range' g.tabs.length tabs.length).map (fun i : ℕ => (i : ℤ))
      ∧ List.Forall₂ (fun tab t' => ∃ r, t' = restoredTab tab.1 r tab.2.randomUUID) tabs restored := by
  induction tabs generalizing g with
  | nil => exact ⟨[], (append_nil _).symm, (append_nil _).symm, .nil⟩
  | cons tab tabs ih =>
    obtain ⟨r, hr⟩ := hstarts tab (mem_cons_self ..)
    have hadd : (g.add tab).tabs = g.tabs ++ [restoredTab tab.1 r tab.2.randomUUID] := by
      simp only [Gathered.add, hr]
    have hadd' : (g.add tab).newIdx = g.newIdx ++ [(g.tabs.length : ℤ)] := by
      simp only [Gathered.add, hr]
    obtain ⟨restored, htabs, hidx, hall⟩ := ih (fun t ht => hstarts t (mem_cons_of_mem _ ht)) (g.add tab)
    refine ⟨restoredTab tab.1 r tab.2.randomUUID :: restored, ?_, ?_, .cons ⟨r, rfl⟩ hall⟩
    · rw [foldl_cons, htabs, hadd, append_assoc]
      rfl
    · rw [foldl_cons, hidx, hadd, hadd', length_append, length_cons, length_nil,
        append_assoc, length_cons, range'_succ]
      rfl

/-- A tab behind terminals only keeps its index when the others are taken out. -/
theorem getElem_filter_terminals {tabs : List TerminalInstance} {i : ℕ} {t : TerminalInstance}
    (hget : tabs[i]? = some t) (ht : isTerminalTab t = true)
    (hbefore : ∀ t ∈ tabs.take i, isTerminalTab t = true) :
    (tabs.filter isTerminalTab)[i]? = some t := by
  obtain ⟨hlt, hget⟩ := List.getElem?_eq_some_iff.mp hget
  have hsplit : tabs = tabs.take i ++ t :: tabs.drop (i + 1) := by
    rw [← hget, getElem_cons_drop, take_append_drop]
  have hlength : (tabs.take i).length = i := length_take_of_le (Nat.le_of_lt hlt)
  rw [hsplit, filter_append, filter_eq_self.mpr hbefore, filter_cons_of_pos ht,
    getElem?_append_right (by omega), hlength, Nat.sub_self]
  rfl

/-- With every tab started the active index is the persisted one, kept within the tabs. -/
theorem activeIdx_all {g : Gathered} {n : ℕ} (hlength : g.tabs.length = n)
    (hidx : g.newIdx = (List.range' 0 n).map (fun i : ℕ => (i : ℤ))) (active : Option ℤ) :
    activeIdx active n g = clampIdx active n := by
  rw [activeIdx, hlength, hidx, getElem?_map]
  by_cases hzero : n = 0
  · subst hzero
    rw [range'_zero]
    rfl
  · have hclamp : 0 ≤ clampIdx active n ∧ (clampIdx active n).toNat < n := by
      cases active with
      | none =>
        rw [clampIdx]
        omega
      | some active =>
        rw [clampIdx, if_neg hzero]
        omega
    rw [getElem?_range' hclamp.2]
    simp only [map_some, getD_some]
    rw [if_pos (by omega)]
    omega

/-- A pane comes back with its terminal tabs, if it has any or a service to show. -/
theorem reifyLeaf_survived {env : Env} {path : List Bool} {tabs : List TerminalInstance}
    (hstarts : ∀ i t, ((tabs.filter isTerminalTab).map persistedTab)[i]? = some t →
      ∃ r, reifyTab (env.answers path i) t = .fulfilled (some r))
    (active : ℤ) (service : Option String) :
    ∃ restored, List.Forall₂ SameTab (tabs.filter isTerminalTab) restored
      ∧ (reifyLeaf env path ((tabs.filter isTerminalTab).map persistedTab) (some active) service).node
        = if restored = [] ∧ truthy service = none then none
          else some (.leaf (env.nextId path) restored (clampIdx (some active) restored.length)
            (truthy service)) := by
  set terminals := tabs.filter isTerminalTab with hterminals
  set asked := (terminals.map persistedTab).mapIdx fun i t => (t, env.answers path i) with hasked
  have hall : ∀ tab ∈ asked, ∃ r, reifyTab tab.2 tab.1 = .fulfilled (some r) := by
    intro tab hin
    obtain ⟨i, hi, rfl⟩ := mem_mapIdx.mp hin
    exact hstarts i _ (getElem?_eq_getElem hi)
  obtain ⟨restored, htabs, hidx, hrestored⟩ := gather_all asked hall {}
  have hlength : asked.length = terminals.length := by
    rw [hasked, length_mapIdx, length_map]
  have hlength' : restored.length = terminals.length := by
    rw [← hrestored.length_eq, hlength]
  have hsame : List.Forall₂ SameTab terminals restored := by
    rw [forall₂_iff_get] at hrestored ⊢
    refine ⟨hlength'.symm, fun i hi hi' => ?_⟩
    obtain ⟨r, hr⟩ := hrestored.2 i (by omega) hi'
    rw [hr]
    simp only [hasked, get_eq_getElem, getElem_mapIdx, getElem_map]
    exact sameTab_restored _ _ _
  refine ⟨restored, hsame, ?_⟩
  have htabs' : (asked.foldl Gathered.add {}).tabs = restored := htabs
  have hidx' : (asked.foldl Gathered.add {}).newIdx
      = (List.range' 0 (terminals.map persistedTab).length).map (fun i : ℕ => (i : ℤ)) := by
    rw [length_map, ← hlength]
    exact hidx
  -- no tab is lost, so the active index is only clamped
  have hactive := @activeIdx_all (asked.foldl Gathered.add {}) (terminals.map persistedTab).length
    (by rw [htabs', length_map, hlength']) hidx' (some active)
  rw [reifyLeaf]
  by_cases hempty : terminals.map persistedTab = [] ∧ truthy service = none
  · have hnone : restored = [] := by
      rw [← length_eq_zero_iff, hlength', ← length_map persistedTab, hempty.1]
      rfl
    rw [if_pos hempty, if_pos ⟨hnone, hempty.2⟩]
  · rw [if_neg hempty]
    rw [length_map, ← hlength'] at hactive
    simp only [← hasked, htabs', length_map, ← hlength', hactive]

/-! ## The tree -/

theorem direction_back (direction : SplitDirection) :
    (if some (directionName direction) = some "col" then SplitDirection.col else .row) = direction := by
  cases direction with
  | row => rfl
  | col => rfl

/-- Restoring what was persisted of a tree gives back what survives of it. -/
theorem reifyTree_survived {env : Env} {path : List Bool} (node : PaneNode)
    (hstarts : EveryTabStarts env path (treeToPersisted node)) :
    match surviving node with
    | none => (reifyTree env path (treeToPersisted node)).node = none
    | some kept => ∃ restored, (reifyTree env path (treeToPersisted node)).node = some restored
      ∧ Survived kept restored := by
  induction node generalizing path with
  | leaf id tabs active service =>
    obtain ⟨restored, hsame, hnode⟩ := @reifyLeaf_survived env path tabs hstarts active (truthy service)
    rw [truthy_truthy] at hnode
    have hempty : restored = [] ↔ tabs.filter isTerminalTab = [] := by
      rw [← length_eq_zero_iff, ← length_eq_zero_iff, hsame.length_eq]
    rw [surviving]
    by_cases hgone : tabs.filter isTerminalTab = [] ∧ truthy service = none
    · rw [if_pos hgone]
      rw [if_pos ⟨hempty.mpr hgone.1, hgone.2⟩] at hnode
      exact hnode
    · rw [if_neg hgone]
      rw [if_neg (fun hcond => hgone ⟨hempty.mp hcond.1, hcond.2⟩)] at hnode
      refine ⟨_, hnode, .leaf hsame rfl fun i t hactive hget ht hbefore => ?_⟩
      have hfiltered := getElem_filter_terminals hget ht hbefore
      obtain ⟨hlt, hfiltered⟩ := List.getElem?_eq_some_iff.mp hfiltered
      have hlt' : i < restored.length := by
        rw [← hsame.length_eq]
        exact hlt
      refine ⟨?_, restored[i], getElem?_eq_getElem hlt', ?_⟩
      · rw [hactive, clampIdx, if_neg (by omega)]
        omega
      · rw [← hfiltered]
        exact (forall₂_iff_get.mp hsame).2 i hlt hlt'
  | split direction ratio a b iha ihb =>
    have ha := @iha (path ++ [false]) hstarts.1
    have hb := @ihb (path ++ [true]) hstarts.2
    have hnode : (reifyTree env path (treeToPersisted (.split direction ratio a b))).node
        = joined (some (directionName direction)) (some ratio)
          (reifyTree env (path ++ [false]) (treeToPersisted a)).node
          (reifyTree env (path ++ [true]) (treeToPersisted b)).node := rfl
    rw [hnode, surviving]
    -- a side that is gone leaves the other one
    rcases hka : surviving a with _ | ka
    · rw [hka] at ha
      rw [ha]
      rcases hkb : surviving b with _ | kb
      · rw [hkb] at hb
        rw [hb]
        rfl
      · rw [hkb] at hb
        obtain ⟨b', hb', hsame⟩ := hb
        rw [hb']
        exact ⟨b', rfl, hsame⟩
    · rw [hka] at ha
      obtain ⟨a', ha', hsame⟩ := ha
      rw [ha']
      rcases hkb : surviving b with _ | kb
      · rw [hkb] at hb
        rw [hb]
        exact ⟨a', rfl, hsame⟩
      · rw [hkb] at hb
        obtain ⟨b', hb', hsame'⟩ := hb
        rw [hb']
        refine ⟨_, rfl, ?_⟩
        simp only [direction_back, getD_some]
        exact .split hsame hsame'

/-- Persisting a pane tree and restoring it, with every terminal starting, gives back the tree
without the panes that had neither a terminal tab nor a service to show: of the same shape,
with the same terminal tabs in every pane in the same order, and with the same terminal
active where it was active behind terminals only. -/
theorem tabs_survive_restart (env : Env) (node : PaneNode)
    (hstarts : EveryTabStarts env [] (treeToPersisted node)) :
    (surviving node = none → (reifyTree env [] (treeToPersisted node)).node = none) ∧
    ∀ kept, surviving node = some kept → ∃ restored,
      (reifyTree env [] (treeToPersisted node)).node = some restored ∧ Survived kept restored := by
  have h := reifyTree_survived node hstarts
  constructor
  · intro hgone
    rw [hgone] at h
    exact h
  · intro kept hkept
    rw [hkept] at h
    exact h

/-- A machine on which everything starts. -/
def startsAll : Env where
  answers path i :=
    { adopts := true, follows := false, exists_ := true
      started := some (String.ofList (path.map fun side => if side then 'b' else 'a') ++ toString i)
      randomUUID := "uuid" }
  nextId _ := "pane-1"

def shell (label : String) : TerminalInstance := { id := label, label, historyKey := some label }

def page : TerminalInstance := { id := "page", label := "Browser", kind := some .browser }

theorem startsAll_starts (path : List Bool) (node : PersistedPaneNode) :
    EveryTabStarts startsAll path node := by
  induction node generalizing path with
  | leaf tabs active service =>
    intro i t _
    rw [reifyTab]
    split
    · split_ifs with hmarked hadopts hhost hexists hhere
      · exact ⟨_, rfl⟩
      · exact absurd rfl hadopts
      · exact absurd rfl hadopts
      · exact ⟨_, rfl⟩
      · exact absurd rfl hexists
      · exact absurd rfl hexists
    · exact ⟨_, rfl⟩
  | split direction ratio a b iha ihb => exact ⟨iha _, ihb _⟩
  | halfSplit => trivial

theorem tabs_survive_restart_two : ∃ restored,
    (reifyTree startsAll [] (treeToPersisted (.leaf "p" [shell "one", page, shell "two"] 0 none))).node
      = some restored ∧ Survived (.leaf "p" [shell "one", page, shell "two"] 0 none) restored :=
  (tabs_survive_restart startsAll _ (startsAll_starts _ _)).2 _ rfl

/-- A pane with nothing but a browser takes its split with it; and with a browser in front of
it the active terminal gives way to the next one. -/
theorem restart_changes_tree :
    (EveryTabStarts startsAll [] (treeToPersisted (.split .row (1 / 2) (.leaf "p" [page] 0 none)
        (.leaf "q" [shell "one"] 0 none)))
      ∧ ∃ tabs, (reifyTree startsAll [] (treeToPersisted (.split .row (1 / 2) (.leaf "p" [page] 0 none)
        (.leaf "q" [shell "one"] 0 none)))).node = some (.leaf "pane-1" tabs 0 none))
    ∧ EveryTabStarts startsAll [] (treeToPersisted (.leaf "p" [page, shell "one", shell "two"] 1 none))
      ∧ ∃ one two, (reifyTree startsAll []
          (treeToPersisted (.leaf "p" [page, shell "one", shell "two"] 1 none))).node
          = some (.leaf "pane-1" [one, two] 1 none)
        ∧ one.label = "one" ∧ two.label = "two" := by
  refine ⟨⟨startsAll_starts _ _, _, rfl⟩, startsAll_starts _ _, _, _, rfl, rfl, rfl⟩

end Lpm.Panes
