/-
What a machine has on disk and the inventory it makes of it: `local_digest_map` of
`peersync.rs` and the digests under it.

A file is what its parser makes of it: an object by key, some other value, or
nothing the parser can read. The hash functions, the parser's complaints and the
reading of a project's `extends` are parameters.

A link in the place of one of the fixed global files is read and written as the file
it leads to. Below a synced directory the inventory passes links over.
-/
import Lpm.Sync.Plan

set_option autoImplicit false

open OrdMap RustText

namespace Lpm.Sync

open Option

/-! ## Contents -/

/-- The content of a unit, `V` being the values of a key and `B` raw bytes. -/
inductive Content (V B : Type) where
  | mapping (map : BTreeMap String V)
  | value (v : V)
  | bytes (b : B)

/-- The functions of the outside world. -/
structure Codec (V B : Type) where
  sha256_hex : Content V B → String
  /-- A digest is hex digits. -/
  hex_ne : ∀ c, sha256_hex c ≠ TOMBSTONE
  /-- `skillsync::wire_digest`, of the files a skill consists of. -/
  wire_digest : Content V B → String
  /-- `hash_canonical` of an object, its keys in order. -/
  hash_object : List (String × V) → String
  /-- `hash_canonical` of any other value. -/
  hash_value : V → String
  extends_of : Content V B → List String
  parse_error : Content V B → String
  /-- What the file system says of a file that isn't there. -/
  not_found : String
  /-- The `{:?}` form of a name. -/
  debug : String → String
  /-- `config::validate_name`. -/
  validate_name : String → Except String Unit
  /-- What a skill store checks before it touches a folder. -/
  skill_check : Kind → String → Except String Unit
  /-- `telegramsync::adopt`. -/
  adopt : Content V B → Except String Unit

/-- Every portable key that creating a project writes. -/
def SCAFFOLD_KEYS : List String := ["name", "label", "services"]

section
variable {V B : Type} (cx : Codec V B)

/-- `for k in keys { map.remove(k) }`. -/
def without (keys : List String) (map : BTreeMap String V) : BTreeMap String V :=
  keys.foldl (fun m k => m.erase k) map

/-- The digest of an object less the keys that stay on the machine. -/
def portable_hash (local_keys : List String) (c : Content V B) : Except String String :=
  match c with
  | .mapping map => .ok (cx.hash_object (without local_keys map).toList)
  | .value v => .ok (cx.hash_value v)
  | .bytes _ => .error (cx.parse_error c)

variable (c : Content V B)

/-- `project_digest`. -/
def project_digest : Except String String :=
  portable_hash cx PROJECT_LOCAL_KEYS c

/-- `settings_digest`. -/
def settings_digest : Except String String := portable_hash cx PER_MACHINE_KEYS c

/-- `global_digest`. -/
def global_digest (relpath : String) (c : Content V B) : Except String String :=
  if relpath = "settings.json" then settings_digest cx c else .ok (cx.sha256_hex c)

/-- `portable_digest`. -/
def portable_digest (kind : Kind) (name : String) (c : Content V B) : Except String String :=
  match kind with
  | .project => project_digest cx c
  | .template => .ok (cx.sha256_hex c)
  | .skill | .kept_skill => .ok (cx.wire_digest c)
  | .global => global_digest cx name c

/-- `project_is_scaffold`. -/
def project_is_scaffold : Bool :=
  match c with
  | .mapping map => map.keys.all fun k => SCAFFOLD_KEYS.contains k || PROJECT_LOCAL_KEYS.contains k
  | _ => false

end

/-! ## The files of a machine -/

/-- A file and when it was written. -/
structure Stored (V B : Type) where
  content : Content V B
  mtime : ℤ

/-- The two files a template can be kept in, `<name>.yml` and `<name>.yaml`, and
whether the directory lists the second after the first. -/
structure TemplateFiles (V B : Type) where
  yml : Option (Stored V B)
  yaml : Option (Stored V B)
  yaml_last : Bool

/-- The symbolic link that the path of a file below a synced directory goes over. -/
inductive Link where
  /-- The file's own name is one. -/
  | file
  /-- A directory above it is one, which leads to a directory or to nothing. -/
  | dir (leads : Bool)
  deriving DecidableEq

structure Disk (V B : Type) where
  projects : BTreeMap String (Stored V B)
  /-- The files under their names, also those that links lead to. -/
  globals : BTreeMap String (Stored V B)
  links : BTreeMap String Link
  templates : BTreeMap String (TemplateFiles V B)
  /-- `none` when the skills list can't be read. -/
  skills : Option (BTreeMap String (Stored V B))
  held_skills : List String
  kept_repos : BTreeMap String String
  kept_skills : BTreeMap String (Stored V B)
  kept_held : List String

section
variable {V B : Type} (cx : Codec V B) (t : TemplateFiles V B)

/-- The file the inventory describes a template by: the listing goes by the stem,
and of two files the later one stays. -/
def TemplateFiles.listed : Option (Stored V B) :=
  match t.yml, t.yaml with
  | some yml, some yaml => some (if t.yaml_last then yaml else yml)
  | some yml, none => some yml
  | none, yaml => yaml

/-- `template_read_path`: the file a template is sent from. -/
def TemplateFiles.read : Option (Stored V B) := t.yml.or t.yaml

variable (disk : Disk V B) (kind : Kind) (name : String)

def Disk.link : Option Link := if is_deletable_global name then disk.links[name]? else none

/-- `collect_global_dir`, which goes over no link. -/
def Disk.global_file : Option (Stored V B) :=
  if (disk.link name).isSome then none else disk.globals[name]?

/-- The file a unit is listed by. -/
def Disk.file : Option (Stored V B) :=
  match kind with
  | .project => disk.projects[name]?
  | .global => disk.global_file name
  | .template => disk.templates[name]?.bind fun t => t.listed
  | .skill => disk.skills.bind fun skills => skills[name]?
  | .kept_skill => disk.kept_skills[name]?

/-- The entry of one file that has a digest. -/
def item_digest (s : Stored V B) : Option ItemDigest :=
  match portable_digest cx kind name s.content with
  | .ok hash =>
    some { hash, mtime := s.mtime, rev := 0, device := "", deleted := false,
           scaffold := kind = .project && project_is_scaffold s.content }
  | .error _ => none

/-- `local_digest_map` up to the point where it looks at the sidecar. -/
def Disk.read : DigestMap :=
  { projects := disk.projects.filterMap (item_digest cx .project)
    globals := disk.globals.filterMap fun name s =>
      if (disk.link name).isSome then none else item_digest cx .global name s
    templates := disk.templates.filterMap fun name t =>
      t.listed.bind (item_digest cx .template name)
    skills := disk.skills.map fun skills => skills.filterMap (item_digest cx .skill)
    held_skills := disk.held_skills
    kept_skills := some
      { repos := disk.kept_repos
        skills := disk.kept_skills.filterMap (item_digest cx .kept_skill)
        held := disk.kept_held }
    project_extends := disk.projects.filterMap fun name s =>
      (item_digest cx .project name s).map fun _ => cx.extends_of s.content
    device := "" }

theorem read_get :
    (disk.read cx).get kind name = (disk.file kind name).bind (item_digest cx kind name) := by
  rcases kind with _ | _ | _ | _ | _
  · simp [Disk.read, DigestMap.get, Disk.file]
  · simp only [Disk.read, DigestMap.get, Disk.file, Disk.global_file,
      Std.TreeMap.getElem?_filterMap]
    by_cases hlink : (disk.link name).isSome = true
    · simp [hlink]
    · simp [hlink]
  · simp [Disk.read, DigestMap.get, Disk.file, bind_assoc]
  · rcases hskills : disk.skills with _ | skills <;>
      simp [Disk.read, DigestMap.get, Disk.file, hskills]
  · simp [Disk.read, DigestMap.get, Disk.file]

/-- A file on disk is never listed as deleted. -/
theorem item_digest_live {kind : Kind} {name : String} {s : Stored V B} {d : ItemDigest}
    (h : item_digest cx kind name s = some d) :
    portable_digest cx kind name s.content = .ok d.hash ∧ d.deleted = false := by
  unfold item_digest at h
  rcases hhash : portable_digest cx kind name s.content with e | hash
  · rw [hhash] at h
    cases h
  · rw [hhash] at h
    rw [← some.inj h]
    exact ⟨rfl, rfl⟩

end

/-! ## Sidecar keys -/

/-- The name of the unit a sidecar key names, when it is of the given kind:
`skill_of`, `kept_unit_of` and `strip_prefix("global/")`. -/
def unit_of (kind : Kind) (key : String) : Option String :=
  Option.map String.ofList <| strip_prefix (kind.text ++ "/").toList key.toList

/-- `tombstone_eligible`. -/
def tombstone_eligible (key : String) : Bool := (unit_of .global key).any is_deletable_global

theorem unit_of_item_key (kind : Kind) (name : String) :
    unit_of kind (item_key kind name) = some name := by
  unfold unit_of item_key
  rw [String.toList_append (s := kind.text ++ "/"), strip_prefix_append]
  simp

theorem item_key_of_unit {kind : Kind} {key name : String} (h : unit_of kind key = some name) :
    key = item_key kind name := by
  unfold unit_of at h
  obtain ⟨rest, hrest, rfl⟩ := map_eq_some_iff.mp h
  have := strip_prefix_eq hrest
  apply String.toList_injective
  rw [this, item_key]
  simp

/-- Two units with one key are one unit: no kind has a slash in it. -/
theorem item_key_inj {kind kind' : Kind} {name name' : String}
    (h : item_key kind name = item_key kind' name') : kind = kind' ∧ name = name' := by
  have hkind : kind = kind' := by
    have hcut : ∀ (kind : Kind) (name : String),
        split_once '/' (item_key kind name).toList = some (kind.text.toList, name.toList) := by
      intro kind name
      have hlist : (item_key kind name).toList = kind.text.toList ++ '/' :: name.toList := by
        simp [item_key]
      rw [hlist]
      refine split_once_append ?_ _
      rcases kind with _ | _ | _ | _ | _ <;> decide
    have hsome := hcut kind name
    rw [h, hcut kind' name'] at hsome
    have htext : kind'.text.toList = kind.text.toList := (Prod.ext_iff.mp (some.inj hsome)).1
    rcases kind with _ | _ | _ | _ | _ <;> rcases kind' with _ | _ | _ | _ | _ <;>
      first | rfl | exact absurd htext (by decide)
  subst hkind
  have hname := unit_of_item_key kind name
  rw [h, unit_of_item_key kind name'] at hname
  exact ⟨rfl, (some.inj hname).symm⟩

/-! ## `reconcile_and_attach` -/

variable (dm : DigestMap)

/-- The keys and digests of what is on disk, the five kinds one after another. -/
def present_units : BTreeMap String String :=
  let add (kind : Kind) (m : BTreeMap String ItemDigest) (present : BTreeMap String String) :=
    collect (fun n d => some (item_key kind n, d.hash)) m present
  add .kept_skill ((dm.kept_skills.map (·.skills)).getD ∅) <| add .skill (dm.skills.getD ∅) <|
    add .template dm.templates <| add .global dm.globals <| add .project dm.projects ∅

/-- The units whose absence means a deletion: files under a synced directory, and
skills when the list could be read and does not hold the name. -/
def tombstones_for (key : String) : Bool :=
  tombstone_eligible key
    || (unit_of .skill key).any fun n => dm.skills.isSome && !dm.held_skills.contains n

/-- The revision and author of a unit's sidecar entry, put on its digest. -/
def decorate (entry : Option ItemState) (d : ItemDigest) : ItemDigest :=
  match entry with
  | some it => { d with rev := it.rev, device := it.device }
  | none => d

variable (state : SyncState) (kind : Kind)

def attach (m : BTreeMap String ItemDigest) :
    BTreeMap String ItemDigest :=
  m.map fun n d => decorate state.items[item_key kind n]? d

/-- What the inventory says of a unit the sidecar knows was deleted. -/
def tombstone_digest (it : ItemState) : ItemDigest :=
  { hash := "", mtime := 0, rev := it.rev, device := it.device, deleted := true,
    scaffold := false }

/-- The deleted units of a kind, put over the inventory. -/
def bury_units (eligible : String → Bool)
    (m : BTreeMap String ItemDigest) : BTreeMap String ItemDigest :=
  collect (fun key it =>
    if it.deleted then
      ((unit_of kind key).filter eligible).map fun name => (name, tombstone_digest it)
    else none) state.items m

variable (s : SyncState)

/-- `reconcile_and_attach`. -/
def reconcile_and_attach : DigestMap × SyncState :=
  let state := (s.reconcile (present_units dm) (tombstones_for dm)).1
  ({ dm with
      projects := attach state .project dm.projects
      globals := bury_units state .global is_deletable_global (attach state .global dm.globals)
      templates := attach state .template dm.templates
      skills := dm.skills.map fun skills =>
        bury_units state .skill (fun _ => true) (attach state .skill skills)
      kept_skills := dm.kept_skills.map fun kept =>
        { kept with
          skills := bury_units state .kept_skill (fun _ => true)
            (attach state .kept_skill kept.skills) }
      device := state.device }, state)

/-- The units an inventory lists when they are deleted. -/
def carries_tombstone (name : String) : Bool :=
  match kind with
  | .project | .template => false
  | .global => is_deletable_global name
  | .skill => dm.skills.isSome
  | .kept_skill => dm.kept_skills.isSome

theorem add_present_get (kind' : Kind) (m : BTreeMap String ItemDigest)
    (present : BTreeMap String String) (kind : Kind) (name : String) :
    (collect (fun n d => some (item_key kind' n, d.hash)) m present)[item_key kind name]?
      = if kind' = kind then (m[name]?.map (·.hash)).or present[item_key kind name]?
        else present[item_key kind name]? := by
  by_cases hkind : kind' = kind
  · rw [if_pos hkind, hkind]
    rcases hm : m[name]? with _ | d
    · refine collect_get_untouched m present ?_
      intro n d hn b hb
      have hkey := (Prod.ext_iff.mp (some.inj hb)).1
      rw [(item_key_inj hkey).2, hm] at hn
      cases hn
    · refine collect_get present hm rfl ?_
      intro n d' b hb
      exact (item_key_inj (Prod.ext_iff.mp (some.inj hb)).1).2
  · rw [if_neg hkind]
    refine collect_get_untouched m present ?_
    intro n d _ b hb
    exact hkind (item_key_inj (Prod.ext_iff.mp (some.inj hb)).1).1

theorem present_units_get (name : String) :
    (present_units dm)[item_key kind name]? = (dm.get kind name).map (·.hash) := by
  rcases kind with _ | _ | _ | _ | _
  · simp [present_units, add_present_get, DigestMap.get]
  · simp [present_units, add_present_get, DigestMap.get]
  · simp [present_units, add_present_get, DigestMap.get]
  · rcases hs : dm.skills with _ | skills <;>
      simp [present_units, add_present_get, DigestMap.get, hs]
  · rcases hk : dm.kept_skills with _ | kept <;>
      simp [present_units, add_present_get, DigestMap.get, hk]

theorem bury_units_get (eligible : String → Bool)
    (m : BTreeMap String ItemDigest) (name : String) :
    (bury_units state kind eligible m)[name]?
      = match state.items[item_key kind name]?.filter fun it => it.deleted && eligible name with
        | some it => some (tombstone_digest it)
        | none => m[name]? := by
  -- what is written under the name comes from its own key
  have hkey : ∀ (key : String) (it : ItemState) (b : ItemDigest),
      (if it.deleted then
        ((unit_of kind key).filter eligible).map fun name => (name, tombstone_digest it)
      else none) = some (name, b) → key = item_key kind name ∧ it.deleted = true ∧
        eligible name = true := by
    intro key it b h
    split_ifs at h with hdel
    obtain ⟨n, hn, heq⟩ := map_eq_some_iff.mp h
    obtain rfl : n = name := (Prod.ext_iff.mp heq).1
    obtain ⟨hunit, helig⟩ := filter_eq_some_iff.mp hn
    exact ⟨item_key_of_unit hunit, hdel, helig⟩
  rcases hit : state.items[item_key kind name]?.filter fun it => it.deleted && eligible name
    with _ | it
  · rw [hit]
    refine collect_get_untouched state.items m ?_
    intro key it hentry b hb
    obtain ⟨rfl, hdel, helig⟩ := hkey key it b hb
    rw [hentry] at hit
    simp [hdel, helig] at hit
  · obtain ⟨hentry, hcond⟩ := filter_eq_some_iff.mp hit
    rw [Bool.and_eq_true] at hcond
    rw [hit]
    refine collect_get m hentry ?_ ?_
    · simp [hcond.1, hcond.2, unit_of_item_key]
    · intro key it' b hb
      exact (hkey key it' b hb).1

/-- What the finished inventory says of a unit: a tombstone when it is one the
inventory carries and the sidecar has it deleted, and else what was read from disk. -/
theorem reconcile_and_attach_get (kind : Kind) (name : String) :
    (reconcile_and_attach dm s).1.get kind name
      = match (reconcile_and_attach dm s).2.items[item_key kind name]?.filter
            fun it => it.deleted && carries_tombstone dm kind name with
        | some it => some (tombstone_digest it)
        | none =>
          (dm.get kind name).map (decorate (reconcile_and_attach dm s).2.items[item_key kind name]?)
        := by
  rcases kind with _ | _ | _ | _ | _
  · simp [reconcile_and_attach, DigestMap.get, attach, carries_tombstone]
  · simp [reconcile_and_attach, DigestMap.get, attach, carries_tombstone, bury_units_get]
  · simp [reconcile_and_attach, DigestMap.get, attach, carries_tombstone]
  · rcases hs : dm.skills with _ | skills <;>
      simp [reconcile_and_attach, DigestMap.get, attach, carries_tombstone, bury_units_get, hs]
  · rcases hk : dm.kept_skills with _ | kept <;>
      simp [reconcile_and_attach, DigestMap.get, attach, carries_tombstone, bury_units_get, hk]

/-- The sidecar entry of a unit afterwards. -/
theorem reconcile_and_attach_entry (kind : Kind) (name : String) :
    (reconcile_and_attach dm s).2.items[item_key kind name]?
      = match dm.get kind name with
        | some d => some (observe s.device s.items[item_key kind name]? d.hash)
        | none => s.items[item_key kind name]?.map fun entry =>
            if vanished (present_units dm) (tombstones_for dm) (item_key kind name) entry
            then entry.bury s.device else entry := by
  rw [show (reconcile_and_attach dm s).2 = (s.reconcile (present_units dm) (tombstones_for dm)).1
    from rfl, reconcile_items_get, present_units_get]
  rcases dm.get kind name with _ | d <;> rfl

end Lpm.Sync
