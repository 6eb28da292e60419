/-
The sidebar's layout and everything that changes it, as `components/sidebarLayout.ts` has it.

A layout is the order of the top level, a list of tokens, and the folders with their members.
A token is a project's name, `group:<id>` for a folder or `peer:<slug>` for the section of a
paired Mac; nothing but its first letters tells which, so a project whose name begins that way
is read as a slot.
-/
import Lpm.Lib.Distinct
import Lpm.Lib.RustText

set_option autoImplicit false

namespace Lpm.Sidebar

open RustText Distinct

/-! ## Tokens -/

/-- A folder. The loader drops one without an id, and a new one gets a fresh id. -/
structure ProjectGroup where
  id : Str
  name : Str
  collapsed : Bool
  members : List Str
  has_id : id ≠ []
deriving DecidableEq

structure SidebarLayout where
  order : List Str
  groups : List ProjectGroup
deriving DecidableEq

/-- What the layout reads of a project. -/
structure ProjectInfo where
  name : Str
  parentName : Option Str := none

def groupToken (id : Str) : Str := "group:".toList ++ id

variable (token : Str)

def groupIdOf : Option Str := strip_prefix "group:".toList token

def peerSlugOfToken : Option Str := strip_prefix "peer:".toList token

def isPeerToken : Bool := "peer:".toList.isPrefixOf token

/-- An id as a condition reads it: the empty one is as good as none. -/
def truthy (id : Option Str) : Option Str := id.filter fun s => s ≠ []

/-- Resolve either folder drop id form back to its group id. -/
def dropFolderTarget (id : Str) : Option Str :=
  strip_prefix "folder-nest:".toList id <|> strip_prefix "folder-body:".toList id

/-! ## Lists -/

def clamp (i min max : ℤ) : ℤ := Max.max min (Min.min i max)

variable (xs : List Str)

/-- `splice(clamp(i, 0, length), 0, x)`. -/
def insertAt (i : ℤ) (x : Str) : List Str :=
  xs.insertIdx (clamp i 0 xs.length).toNat x

def indexOf (x : Str) : ℤ := if x ∈ xs then xs.idxOf x else -1

def without (x : Str) : List Str := xs.filter fun t => t ≠ x

/-! ## Folders -/

variable (groups : List ProjectGroup)

def groupById (id : Str) : Option ProjectGroup :=
  groups.find? fun g => g.id = id

/-- `membershipMap(groups).has(name)`. -/
def membership (name : Str) : Bool :=
  groups.any fun g => name ∈ g.members

/-- A project is a duplicate when its parent is there. -/
def isDuplicate (project : ProjectInfo) (present : List Str) : Bool :=
  (truthy project.parentName).any fun parent => parent ∈ present

/-- The nested duplicates of a project, in project-list order. A duplicate explicitly placed in
a folder is excluded: it renders as a member on the folder's level. -/
def nestedDuplicates (projects : List ProjectInfo) (parent : Str) :
    List Str :=
  (projects.filter fun p =>
    isDuplicate p (projects.map ProjectInfo.name) && !membership groups p.name
      && p.parentName == some parent).map ProjectInfo.name

/-! ## Moves -/

variable (layout : SidebarLayout)

/-- Remove a project name from wherever it currently sits. -/
def detach (name : Str) : SidebarLayout where
  order := without layout.order name
  groups := layout.groups.map fun g =>
    if name ∈ g.members then { g with members := without g.members name } else g

/-- Change the members of the folders with an id. -/
def inGroup (groups : List ProjectGroup) (groupId : Str) (f : List Str → List Str) :
    List ProjectGroup :=
  groups.map fun g => if g.id = groupId then { g with members := f g.members } else g

def moveTopLevel (token : Str) (toIndex : ℤ) : SidebarLayout where
  order := insertAt (without layout.order token) toIndex token
  groups := layout.groups

/-- Move a project into a folder at an optional position (default: end). -/
def moveIntoGroup (name groupId : Str) (toIndex : Option ℤ) :
    SidebarLayout :=
  let base := detach layout name
  { order := base.order
    groups := inGroup base.groups groupId fun members =>
      insertAt members (toIndex.getD members.length) name }

def moveOutOfGroup (name : Str) (toOrderIndex : ℤ) : SidebarLayout :=
  let base := detach layout name
  { order := insertAt base.order toOrderIndex name, groups := base.groups }

def reorderWithinGroup (groupId name : Str) (toIndex : ℤ) :
    SidebarLayout where
  order := layout.order
  groups := inGroup layout.groups groupId fun members =>
    insertAt (without members name) toIndex name

def addGroup (group : ProjectGroup) (atIndex : Option ℤ) :
    SidebarLayout where
  order := insertAt layout.order (atIndex.getD layout.order.length) (groupToken group.id)
  groups := layout.groups ++ [group]

/-- Delete a folder: its members spill back into the top-level order at the folder's former
position, then the folder is dropped. -/
def removeGroup (groupId : Str) : SidebarLayout :=
  match groupById layout.groups groupId with
  | none => layout
  | some g =>
    let tok := groupToken groupId
    let pos := layout.order.idxOf tok
    { order :=
        if tok ∈ layout.order then layout.order.take pos ++ g.members ++ layout.order.drop (pos + 1)
        else layout.order ++ g.members
      groups := layout.groups.filter fun x => x.id ≠ groupId }

/-! ## Drops -/

/-- What a sortable id represents in the current layout. -/
inductive SidebarNode
  | group (id : Str)
  | peer (slug : Str)
  | loose (name : Str)
  | member (name groupId : Str)
deriving DecidableEq

def isSection : SidebarNode → Bool
  | .group _ | .peer _ => true
  | _ => false

variable (layout : SidebarLayout)

def classify (id : Str) : Option SidebarNode :=
  match truthy (groupIdOf id) with
  | some gid => if (groupById layout.groups gid).isSome then some (.group gid) else none
  | none =>
    match truthy (peerSlugOfToken id) with
    | some slug => if id ∈ layout.order then some (.peer slug) else none
    | none =>
      match layout.groups.find? fun g => id ∈ g.members with
      | some owner => some (.member id owner.id)
      | none => if id ∈ layout.order then some (.loose id) else none

/-- A drag dropped on a target: the next layout, or `none` for a no-op or a move that is not
allowed. Folders and peer sections only ever reorder. -/
def resolveSidebarDrop (activeId overId : Str) : Option SidebarLayout :=
  if activeId = overId then none
  else
    match classify layout activeId with
    | none => none
    | some a =>
      match dropFolderTarget overId with
      | some folderTarget =>
        match a with
        | .group _ | .peer _ => none
        | .member name groupId =>
          if groupId = folderTarget then none else some (moveIntoGroup layout name folderTarget none)
        | .loose name => some (moveIntoGroup layout name folderTarget none)
      | none =>
        match classify layout overId with
        | none => none
        | some o =>
          if isSection a then
            match o with
            | .member _ _ => none
            | _ => some (moveTopLevel layout activeId (indexOf layout.order overId))
          else
            match o, a with
            | .member «over» groupId, .member name own =>
              (groupById layout.groups groupId).map fun g =>
                let overIdx := indexOf g.members «over»
                if own = groupId then reorderWithinGroup layout groupId name overIdx
                else moveIntoGroup layout name groupId (some overIdx)
            | .member «over» groupId, .loose name =>
              (groupById layout.groups groupId).map fun g =>
                moveIntoGroup layout name groupId (some (indexOf g.members «over»))
            | _, .member name _ =>
              some (moveOutOfGroup layout name (indexOf layout.order overId))
            | _, _ => some (moveTopLevel layout activeId (indexOf layout.order overId))

/-! ## The flat order -/

variable (groups : List ProjectGroup)

/-- `byId.get(gid)`: a map keeps the last folder of an id. -/
def lastById (gid : Str) : Option ProjectGroup :=
  groupById groups.reverse gid

/-- What one top-level token stands for: a folder's members, nothing for a peer's slot, a
project. -/
def expand (token : Str) : List Str :=
  match truthy (groupIdOf token) with
  | some gid => ((lastById groups gid).map ProjectGroup.members).getD []
  | none => if isPeerToken token then [] else [token]

/-- The flat all-projects order: every project trailed by its nested duplicates. -/
def flattenForProjectOrder (projects : List ProjectInfo) : List Str :=
  layout.order.flatMap fun token =>
    (expand layout.groups token).flatMap fun name =>
      name :: nestedDuplicates layout.groups projects name

/-! ## Reconcile -/

/-- Each folder loses the members an earlier one claimed. -/
def claimMembers : (claimed : List Str) → List ProjectGroup → List ProjectGroup
  | _, [] => []
  | claimed, g :: rest =>
    let members := g.members.filter fun m => m ∉ claimed
    { g with members } :: claimMembers (claimed ++ members) rest

variable (topLevelNames memberNames : List Str)

/-- Whether a slot of the stored order stays. A loose one stays unless it is known not to belong
there: a known project that isn't top-level, or one a folder claims. -/
def keeps (token : Str) : Bool :=
  match truthy (groupIdOf token) with
  | some gid => gid ∈ groups.map ProjectGroup.id
  | none =>
    isPeerToken token ||
      ((token ∈ topLevelNames || token ∉ memberNames) && !membership groups token)

/-- The self-healing pass run after a project-list refresh. `topLevelNames` are the names
eligible to sit loose at the top level, `memberNames` every project's. The source's `seen` has
what was pushed on `order` and nothing else. -/
def reconcile : SidebarLayout :=
  let groups := claimMembers [] layout.groups
  let kept := layout.order.foldl (fun order token =>
    if keeps groups topLevelNames memberNames token then push order token else order) []
  let tokens := groups.foldl (fun order g => push order (groupToken g.id)) kept
  let order := topLevelNames.foldl (fun order name =>
    if !membership groups name then push order name else order) tokens
  { order, groups }

end Lpm.Sidebar
