/-
The planner of `peersync.rs`: from the inventories of two machines and the bases
they agreed on, the units that have to cross, in which direction, and whether an
edit is lost by it.

The five kinds of unit are an enumeration here and a string in the code; the key
of a unit in the sidecar is the same string as there. A plan is the items of each
kind in turn, each kind in key order.
-/
import Lpm.Sync.State
import Mathlib.Data.Prod.Lex
import Mathlib.Data.String.Basic

set_option autoImplicit false

open OrdMap

namespace Lpm.Sync

/-! ## Inventories -/

/-- The kinds of unit that cross. -/
inductive Kind where
  | project
  | global
  | template
  | skill
  | kept_skill
  deriving DecidableEq

/-- The kind as it stands on the wire and in a sidecar key. -/
def Kind.text : Kind → String
  | .project => "project"
  | .global => "global"
  | .template => "template"
  | .skill => "skill"
  | .kept_skill => "kept-skill"

variable (kind : Kind) (name : String)

/-- `item_key`. -/
def item_key : String := kind.text ++ "/" ++ name

/-- What a machine says about one unit. -/
structure ItemDigest where
  hash : String
  mtime : ℤ
  rev : ℕ
  device : String
  deleted : Bool
  /-- A project file nobody has configured yet. -/
  scaffold : Bool
  deriving DecidableEq

/-- `skillsync_kept::KeptSkills`: a unit is `<project>/<skill>`, and `held` ones
stay as they are on this machine. -/
structure KeptSkills where
  repos : BTreeMap String String
  skills : BTreeMap String ItemDigest
  held : List String

/-- A machine's inventory. -/
structure DigestMap where
  projects : BTreeMap String ItemDigest
  globals : BTreeMap String ItemDigest
  templates : BTreeMap String ItemDigest
  /-- `none` from a machine that does not sync skills or cannot read its list. -/
  skills : Option (BTreeMap String ItemDigest)
  held_skills : List String
  kept_skills : Option KeptSkills
  project_extends : BTreeMap String (List String)
  device : String

/-- `DigestMap::default()`. -/
def DigestMap.empty : DigestMap :=
  { projects := ∅, globals := ∅, templates := ∅, skills := none, held_skills := [],
    kept_skills := none, project_extends := ∅, device := "" }

/-- `DigestMap::get`. -/
def DigestMap.get (self : DigestMap) (kind : Kind) (name : String) : Option ItemDigest :=
  match kind with
  | .project => self.projects[name]?
  | .global => self.globals[name]?
  | .template => self.templates[name]?
  | .skill => self.skills.bind fun skills => skills[name]?
  | .kept_skill => self.kept_skills.bind fun kept => kept.skills[name]?

/-! ## One unit -/

inductive Direction where
  | toLocal
  | toRemote
  deriving DecidableEq

/-- One step of a plan. -/
structure SyncItem where
  kind : Kind
  name : String
  direction : Direction
  local_mtime : ℤ
  remote_mtime : ℤ
  conflict : Bool
  deleted : Bool
  deriving DecidableEq

/-- `item`. -/
def item (direction : Direction) (local_mtime remote_mtime : ℤ)
    (conflict deleted : Bool) : SyncItem :=
  { kind, name, direction, local_mtime, remote_mtime, conflict, deleted }

/-- One machine's contribution to a decision. The content key is `none` when the
unit is absent there. -/
structure SideInfo where
  ck : Option String
  rev : ℕ
  device : String
  mtime : ℤ
  deleted : Bool
  scaffold : Bool

/-- `side_info`: a tombstone counts as absent in a legacy plan. -/
def side_info (d : Option ItemDigest) (legacy : Bool) : SideInfo :=
  match d with
  | some x =>
    if x.deleted && !legacy then
      { ck := some TOMBSTONE, rev := x.rev, device := x.device, mtime := x.mtime,
        deleted := true, scaffold := false }
    else if !x.deleted then
      { ck := some x.hash, rev := x.rev, device := x.device, mtime := x.mtime,
        deleted := false, scaffold := x.scaffold && !legacy }
    else
      { ck := none, rev := 0, device := "", mtime := 0, deleted := false, scaffold := false }
  | none =>
    { ck := none, rev := 0, device := "", mtime := 0, deleted := false, scaffold := false }

/-- `one_sided`: a live unit is created on the other machine, and a tombstone with
nothing there needs nothing. -/
def one_sided (side : SideInfo) (direction : Direction) :
    Option SyncItem :=
  if side.deleted then none
  else some (match direction with
    | .toRemote => item kind name .toRemote side.mtime 0 false false
    | .toLocal => item kind name .toLocal 0 side.mtime false false)

/-- `resolve_no_base`: with no agreed base, a tombstone yields to a live copy, a
scaffold to a real config, and everything else follows the modification time. Only
projects and skills settle an equal time by content. -/
def resolve_no_base (l r : SideInfo) (legacy : Bool) : SyncItem :=
  if !l.deleted && r.deleted then item kind name .toRemote l.mtime r.mtime false false
  else if l.deleted && !r.deleted then item kind name .toLocal l.mtime r.mtime false false
  else if (kind = .project ∨ kind = .skill ∨ kind = .kept_skill) ∧ !legacy then
    let (dir, conflict) :=
      if l.scaffold && !r.scaffold then (Direction.toLocal, false)
      else if !l.scaffold && r.scaffold then (Direction.toRemote, false)
      else if toLex (l.mtime, option_key l.ck) < toLex (r.mtime, option_key r.ck)
      then (Direction.toLocal, true)
      else (Direction.toRemote, true)
    item kind name dir l.mtime r.mtime conflict false
  else
    let dir := if l.mtime < r.mtime then Direction.toLocal else Direction.toRemote
    item kind name dir l.mtime r.mtime false false

/-- `decide_both`: both machines have the unit and they differ. Against a base, a
side that moved alone wins; a scaffold that moved never replaces a real config; and
where both moved the higher (revision, device, content) wins. -/
def decide_both (l r : SideInfo) (base : Option BaseState)
    (legacy : Bool) : SyncItem :=
  let lc := l.ck.getD ""
  let rc := r.ck.getD ""
  match base with
  | some b =>
    let bc := b.content_key
    let local_moved := lc != bc
    let remote_moved := rc != bc
    let replaces_config (moved : Bool) (new other : SideInfo) : Bool :=
      kind = .project && moved && new.scaffold && !other.scaffold
    if replaces_config remote_moved r l then
      item kind name .toRemote l.mtime r.mtime true l.deleted
    else if replaces_config local_moved l r then
      item kind name .toLocal l.mtime r.mtime true r.deleted
    else if local_moved && remote_moved then
      let local_wins : Bool :=
        toLex (r.rev, toLex (r.device, rc)) < toLex (l.rev, toLex (l.device, lc))
      if local_wins then item kind name .toRemote l.mtime r.mtime true l.deleted
      else item kind name .toLocal l.mtime r.mtime true r.deleted
    else if remote_moved then item kind name .toLocal l.mtime r.mtime false r.deleted
    else item kind name .toRemote l.mtime r.mtime false l.deleted
  | none => resolve_no_base kind name l r legacy

/-- `resolve_pair`. -/
def resolve_pair (ld rd : Option ItemDigest)
    (bases : BTreeMap String BaseState) (legacy : Bool) : Option SyncItem :=
  let l := side_info ld legacy
  let r := side_info rd legacy
  match l.ck, r.ck with
  | none, none => none
  | some lc, some rc =>
    if lc = rc then none
    else
      let base := if legacy then none else bases[item_key kind name]?
      some (decide_both kind name l r base legacy)
  | some _, none => one_sided kind name l .toRemote
  | none, some _ => one_sided kind name r .toLocal

/-! ## The whole plan -/

/-- `skillsync_kept::split`: the project and the skill of a unit. -/
def split (unit : String) : Option (String × String) :=
  (RustText.rsplit_once '/' unit.toList).map fun (a, b) => (String.ofList a, String.ofList b)

/-- `skillsync_kept::paired`: both machines read the unit's project, from the same
repository. -/
def paired (a b : KeptSkills) (unit : String) : Bool :=
  (split unit).any fun (project, _) =>
    match a.repos[project]?, b.repos[project]? with
    | some x, some y => x == y
    | _, _ => false

/-- `skillsync_kept::shared_units`. -/
def shared_units (a b : KeptSkills) : List String :=
  ordered_set ((a.skills.keys ++ b.skills.keys).filter fun u =>
    paired a b u && !a.held.contains u && !b.held.contains u)

variable (lm rm : DigestMap)

/-- `referenced_templates`: what a project on both machines extends, in either
copy of it. -/
def referenced_templates : List String :=
  ordered_set (lm.projects.keys.flatMap fun name =>
    if rm.projects.contains name then
      (lm.project_extends[name]?).getD [] ++ (rm.project_extends[name]?).getD []
    else [])

variable (bases : BTreeMap String BaseState) (legacy : Bool)

/-- The loop over the projects both machines have. -/
def project_items :
    List SyncItem :=
  lm.projects.toList.filterMap fun (name, l) =>
    (rm.projects[name]?).bind fun r => resolve_pair .project name (some l) (some r) bases legacy

/-- The loop over the global files of either machine. A layout file goes with the
skills it sorts. -/
def global_items :
    List SyncItem :=
  let skills := (option_zip lm.skills rm.skills).filter fun _ => !legacy
  let global_keys :=
    ((ordered_set (lm.globals.keys ++ rm.globals.keys)).filter syncable_global).filter
      fun n => skills.isSome || !is_layout_file n
  global_keys.filterMap fun name =>
    resolve_pair .global name lm.globals[name]? rm.globals[name]? bases legacy

/-- The loop over the templates a shared project extends. -/
def template_items :
    List SyncItem :=
  (referenced_templates lm rm).filterMap fun name =>
    resolve_pair .template name lm.templates[name]? rm.templates[name]? bases legacy

/-- The loop over the skills of either machine, less the ones one of them holds. -/
def skill_items :
    List SyncItem :=
  match (option_zip lm.skills rm.skills).filter fun _ => !legacy with
  | some (l, r) =>
    let free n := !lm.held_skills.contains n && !rm.held_skills.contains n
    (ordered_set ((l.keys ++ r.keys).filter free)).filterMap fun name =>
      resolve_pair .skill name l[name]? r[name]? bases legacy
  | none => []

/-- The loop over the project skills kept out of Git. -/
def kept_items :
    List SyncItem :=
  match (option_zip lm.kept_skills rm.kept_skills).filter fun _ => !legacy with
  | some (l, r) =>
    (shared_units l r).filterMap fun unit =>
      resolve_pair .kept_skill unit l.skills[unit]? r.skills[unit]? bases legacy
  | none => []

/-- `plan_core`, its five loops in the order the code runs them. -/
def plan_core :
    List SyncItem :=
  project_items lm rm bases legacy ++ global_items lm rm bases legacy
    ++ template_items lm rm bases legacy ++ skill_items lm rm bases legacy
    ++ kept_items lm rm bases legacy

/-- `compute_plan_v2`: the revision-aware plan. -/
def compute_plan_v2 :
    List SyncItem :=
  plan_core lm rm bases false

end Lpm.Sync
