/-
Pane trees and how they outlive a restart: the trees of `paneTree.ts`, what `treeToPersisted`
writes of one and what `reifyTree` makes of it again (`persistedTree.ts`).

Restoring asks for terminals while it goes: whether a peer still has one, whether one is
still running here, and for a fresh one. What comes back is an answer for every tab, given by
the place of its pane and its own; starting one may fail.
-/
import Mathlib.Algebra.Order.Ring.Rat

set_option autoImplicit false

namespace Lpm.Panes

/-! ## Pane trees -/

inductive SplitDirection where
  | row
  | col
  deriving DecidableEq

inductive SessionTitleSource where
  | vendor
  | manual
  deriving DecidableEq

structure TabFork where
  label : String
  at_ : ℤ
  deriving DecidableEq

structure TerminalMemoryRef where
  session : Option String
  deriving DecidableEq

inductive AgentSessionProvider where
  | claude
  | codex
  deriving DecidableEq

structure AgentSessionRef where
  provider : AgentSessionProvider
  sessionId : String
  deriving DecidableEq

inductive TabKind where
  | terminal
  | browser
  | memory
  | toolkit
  | files
  | automations
  | commands
  deriving DecidableEq

/-- A tab. A flag that is absent is off. -/
structure TerminalInstance where
  id : String
  label : String
  sessionTitle : Option String := none
  sessionTitleId : Option String := none
  sessionTitleSource : Option SessionTitleSource := none
  agentSession : Option AgentSessionRef := none
  historyKey : Option String := none
  memory : Option TerminalMemoryRef := none
  startCmd : Option String := none
  resumeCmd : Option String := none
  agentEnded : Bool := false
  actionName : Option String := none
  pinned : Bool := false
  emoji : Option String := none
  color : Option String := none
  peerAdopted : Bool := false
  fromHost : Bool := false
  restoreHere : Bool := false
  forkOf : Option TabFork := none
  kind : Option TabKind := none
  deriving DecidableEq

variable (t : TerminalInstance)

/-- True for real PTY-backed terminal tabs (the default kind). -/
def isTerminalTab : Bool := t.kind = none || t.kind = some .terminal

inductive PaneNode where
  | leaf (id : String) (tabs : List TerminalInstance) (activeTabIdx : ℤ)
    (activeServiceName : Option String)
  | split (direction : SplitDirection) (ratio : ℚ) (a b : PaneNode)
  deriving DecidableEq

def clampIdx (idx : Option ℤ) (length : ℕ) : ℤ :=
  match idx with
  | none => 0
  | some idx => if length = 0 then 0 else max 0 (min idx (length - 1))

/-- An empty string is as good as none. -/
def truthy (s : Option String) : Option String := s.filter fun s => s ≠ ""

/-! ## Peers -/

/-- Eight lowercase hex digits in front, and what stands behind them. -/
def behind_slug (s : List Char) : Option (List Char) :=
  if (s.take 8).length = 8 ∧ (s.take 8).all fun c =>
    ('0' ≤ c ∧ c ≤ '9') ∨ ('a' ≤ c ∧ c ≤ 'f')
  then some (s.drop 8) else none

def behind (start s : List Char) : Option (List Char) :=
  if start.isPrefixOf s then some (s.drop start.length) else none

/-- `NAME_RE`. -/
def isPeerName (value : List Char) : Bool :=
  (((behind "peer-".toList value).bind behind_slug).bind (behind "-".toList)).isSome

/-- How a Windows host writes an absolute path. -/
def winHostPath : List Char → Bool
  | '\\' :: '\\' :: _ => true
  | c :: ':' :: sep :: _ =>
    (('A' ≤ c && c ≤ 'Z') || ('a' ≤ c && c ≤ 'z')) && (sep = '\\' || sep = '/')
  | _ => false

/-- `ROOT_RE`. -/
def isPeerRoot (value : List Char) : Bool :=
  ((behind "/@peer-".toList value).bind behind_slug).any fun rest =>
    "/".toList.isPrefixOf rest || "~/".toList.isPrefixOf rest || winHostPath rest

/-- True for any marked identifier (name or root form). -/
def isPeerMarked (value : String) : Bool := isPeerName value.toList || isPeerRoot value.toList

/-! ## What is persisted -/

structure PersistedTab where
  label : Option String
  sessionTitle : Option String := none
  sessionTitleId : Option String := none
  sessionTitleSource : Option SessionTitleSource := none
  historyKey : Option String := none
  memory : Option TerminalMemoryRef := none
  startCmd : Option String := none
  resumeCmd : Option String := none
  agentEnded : Bool := false
  actionName : Option String := none
  pinned : Bool := false
  emoji : Option String := none
  color : Option String := none
  id : Option String := none
  fromHost : Bool := false
  restoreHere : Bool := false
  forkOf : Option TabFork := none
  deriving DecidableEq

/-- `halfSplit` is a split without one of its sides, as a file may hold one. -/
inductive PersistedPaneNode where
  | leaf (tabs : Option (List PersistedTab)) (activeTabIdx : Option ℤ)
    (activeServiceName : Option String)
  | split (direction : Option String) (ratio : Option ℚ) (a b : PersistedPaneNode)
  | halfSplit

/-- What `treeToPersisted` writes of a terminal tab. -/
def persistedTab : PersistedTab :=
  { label := some t.label
    id := if isPeerMarked t.id || t.peerAdopted then some t.id else none
    fromHost := t.fromHost
    restoreHere := t.peerAdopted && t.restoreHere
    sessionTitle := truthy t.sessionTitle
    sessionTitleId := truthy t.sessionTitleId
    sessionTitleSource := t.sessionTitleSource
    historyKey := truthy t.historyKey
    memory := t.memory
    startCmd := truthy t.startCmd
    resumeCmd := truthy t.resumeCmd
    agentEnded := t.agentEnded
    actionName := truthy t.actionName
    pinned := t.pinned
    emoji := truthy t.emoji
    color := truthy t.color
    forkOf := t.forkOf }

def directionName : SplitDirection → String
  | .row => "row"
  | .col => "col"

def treeToPersisted : PaneNode → PersistedPaneNode
  | .leaf _ tabs activeTabIdx activeServiceName =>
    .leaf (some ((tabs.filter isTerminalTab).map persistedTab)) (some activeTabIdx)
      (truthy activeServiceName)
  | .split direction ratio a b =>
    .split (some (directionName direction)) (some ratio) (treeToPersisted a) (treeToPersisted b)

/-! ## Restoring -/

structure ReifiedTab where
  id : String
  adopted : Bool
  replacedPeer : Bool := false

/-- How a promise settles. -/
inductive Settled where
  | rejected
  | fulfilled (value : Option ReifiedTab)

/-- What is answered for one tab: `shouldAdoptPeerTerminal`, `askHostFollows`, whether a
terminal of this machine is still there, the fresh one if it starts, and a random UUID. -/
structure Answers where
  adopts : Bool
  follows : Bool
  exists_ : Bool
  started : Option String
  randomUUID : String

/-- The answers for the tabs of every pane, and the ids that panes get. -/
structure Env where
  answers : List Bool → ℕ → Answers
  nextId : List Bool → String

def startFresh (answers : Answers) (replacedPeer : Bool) : Settled :=
  match answers.started with
  | some id => .fulfilled (some { id, adopted := false, replacedPeer })
  | none => .rejected

/-- The pty backing a restored tab: an existing one when the tab wraps a pty someone else owns,
a freshly started one otherwise, and none when the tab has nothing left to back it. -/
def reifyTab (answers : Answers) (t : PersistedTab) : Settled :=
  match truthy t.id with
  | some id =>
    if isPeerMarked id then
      if answers.adopts then .fulfilled (some { id, adopted := true })
      else if t.fromHost || answers.follows then .fulfilled none
      else startFresh answers true
    else if answers.exists_ then .fulfilled (some { id, adopted := true })
    else if !t.restoreHere then .fulfilled none
    else startFresh answers false
  | none => startFresh answers false

/-- `makeTerminal`, of a tab that was restored. -/
def restoredTab (t : PersistedTab) (r : ReifiedTab) (randomUUID : String) : TerminalInstance :=
  { id := r.id
    label := t.label.getD "Terminal"
    sessionTitle := truthy t.sessionTitle
    sessionTitleId := truthy t.sessionTitleId
    sessionTitleSource := t.sessionTitleSource
    historyKey := some (t.historyKey.getD randomUUID)
    memory := t.memory
    startCmd := truthy t.startCmd
    resumeCmd := truthy t.resumeCmd
    agentEnded := t.agentEnded
    actionName := truthy t.actionName
    pinned := t.pinned
    emoji := truthy t.emoji
    color := truthy t.color
    peerAdopted := r.adopted && !isPeerMarked r.id
    fromHost := t.fromHost
    restoreHere := r.adopted && t.restoreHere
    forkOf := t.forkOf }

/-- What the tabs of a pane come to: the surviving tabs, the index among them of every
persisted tab or -1, and what the caller is told. -/
structure Gathered where
  tabs : List TerminalInstance := []
  newIdx : List ℤ := []
  startedIds : List String := []
  dropped : List PersistedTab := []
  discarded : List PersistedTab := []
  replacedIds : List String := []

def Gathered.add (g : Gathered) (tab : PersistedTab × Answers) : Gathered :=
  let (t, answers) := tab
  match reifyTab answers t with
  | .rejected => { g with newIdx := g.newIdx ++ [-1], dropped := g.dropped ++ [t] }
  | .fulfilled none => { g with newIdx := g.newIdx ++ [-1], discarded := g.discarded ++ [t] }
  | .fulfilled (some r) =>
    { g with
      startedIds := if r.adopted then g.startedIds else g.startedIds ++ [r.id]
      replacedIds := if r.replacedPeer then g.replacedIds ++ [r.id] else g.replacedIds
      newIdx := g.newIdx ++ [(g.tabs.length : ℤ)]
      tabs := g.tabs ++ [restoredTab t r answers.randomUUID] }

/-- The index of the active tab among the surviving ones. -/
def activeIdx (activeTabIdx : Option ℤ) (persisted : ℕ) (g : Gathered) : ℤ :=
  let savedActive := (g.newIdx[(clampIdx activeTabIdx persisted).toNat]?).getD (-1)
  if savedActive ≥ 0 then savedActive else clampIdx activeTabIdx g.tabs.length

/-- A restored tree, and what the caller is told of the tabs. Panes are restored side by side;
what is told of them is put in the order of the tree here. -/
structure Reified where
  node : Option PaneNode
  startedIds : List String := []
  dropped : List PersistedTab := []
  discarded : List PersistedTab := []
  replacedIds : List String := []

def reifyLeaf (env : Env) (path : List Bool) (persistedTabs : List PersistedTab)
    (activeTabIdx : Option ℤ) (activeServiceName : Option String) : Reified :=
  if persistedTabs = [] ∧ truthy activeServiceName = none then { node := none }
  else
    let g := (persistedTabs.mapIdx fun i t => (t, env.answers path i)).foldl Gathered.add {}
    { node :=
        if g.tabs = [] ∧ truthy activeServiceName = none then none
        else some (.leaf (env.nextId path) g.tabs (activeIdx activeTabIdx persistedTabs.length g)
          (truthy activeServiceName))
      startedIds := g.startedIds
      dropped := g.dropped
      discarded := g.discarded
      replacedIds := g.replacedIds }

/-- A split whose side came back empty collapses to its sibling. -/
def joined (direction : Option String) (ratio : Option ℚ) : Option PaneNode → Option PaneNode → Option PaneNode
  | some a, some b =>
    some (.split (if direction = some "col" then .col else .row) (ratio.getD (1 / 2)) a b)
  | some a, none => some a
  | none, b => b

def reifyTree (env : Env) (path : List Bool) : PersistedPaneNode → Reified
  | .leaf tabs activeTabIdx activeServiceName =>
    reifyLeaf env path (tabs.getD []) activeTabIdx activeServiceName
  | .halfSplit => { node := none }
  | .split direction ratio a b =>
    let a := reifyTree env (path ++ [false]) a
    let b := reifyTree env (path ++ [true]) b
    { node := joined direction ratio a.node b.node
      startedIds := a.startedIds ++ b.startedIds
      dropped := a.dropped ++ b.dropped
      discarded := a.discarded ++ b.discarded
      replacedIds := a.replacedIds ++ b.replacedIds }

end Lpm.Panes
