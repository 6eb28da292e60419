/-
Sending a unit and writing one that came in: `read_item`, `apply_item` and
`delete_item` of `peersync.rs` over the files of a machine.

Content that crosses is parsed content here, and a deletion crosses as no content.
Of the writes that the file system refuses there are those over a link that leads nowhere.
-/
import Lpm.Lib.Fallible
import Lpm.Sync.Disk

set_option autoImplicit false

open OrdMap RustText Fallible

namespace Lpm.Sync

open List Option

/-! ## Names -/

/-- `safe_global_rel`. -/
def safe_global_rel (name : String) : Except String Unit :=
  let normal : Component → Bool
    | .normal _ => true
    | _ => false
  if (components name.toList).any fun c => !normal c then
    .error ("unsafe global path: " ++ name)
  else if syncable_global name then .ok ()
  else .error ("global not permitted: " ++ name)

section
variable {V B : Type} (cx : Codec V B)

/-- `validate_simple_name`. -/
def validate_simple_name (name : String) : Except String Unit :=
  let chars := name.toList
  if chars.isEmpty || chars.contains '/' || chars.contains '\\' || name = "." || name = ".." then
    .error ("invalid name: " ++ cx.debug name)
  else .ok ()

/-! ## Sending -/

/-- `without_account_list`. -/
def without_account_list (c : Content V B) : Content V B :=
  match c with
  | .mapping map => .mapping (map.erase "claudeAccounts")
  | c => c

/-- `fs::read` of a file that may not be there. -/
def read_file (file : Option (Stored V B)) : Except String (Content V B) :=
  match file with
  | some s => .ok s.content
  | none => .error cx.not_found

variable (disk : Disk V B)

/-- `read_item`. -/
def read_item (kind : Kind) (name : String) : Except String (Content V B) :=
  match kind with
  | .project =>
    (cx.validate_name name).bind fun _ =>
      (read_file cx disk.projects[name]?).map without_account_list
  | .template =>
    match validate_simple_name cx name, disk.templates[name]?.bind fun t => t.read with
    | .ok _, some s => .ok s.content
    | _, _ => .error ("template not found: " ++ name)
  | .global => (safe_global_rel name).bind fun _ => read_file cx disk.globals[name]?
  | .skill =>
    (cx.skill_check .skill name).bind fun _ => read_file cx (disk.file .skill name)
  | .kept_skill =>
    (cx.skill_check .kept_skill name).bind fun _ => read_file cx disk.kept_skills[name]?

/-! ## Writing -/

/-- The file of a unit written or replaced. A template goes to its `.yml`. -/
def Disk.write (kind : Kind) (name : String) (s : Stored V B) : Disk V B :=
  match kind with
  | .project => { disk with projects := disk.projects.insert name s }
  | .global => { disk with globals := disk.globals.insert name s }
  | .template =>
    let files := disk.templates[name]?.getD { yml := none, yaml := none, yaml_last := false }
    { disk with templates := disk.templates.insert name { files with yml := some s } }
  | .skill => { disk with skills := disk.skills.map fun skills => skills.insert name s }
  | .kept_skill => { disk with kept_skills := disk.kept_skills.insert name s }

/-- The outcome of applying one received unit: the portable digests of what came in
and of what is on disk now. -/
structure Applied where
  incoming : String
  stored : String
  deleted : Bool

/-- The keys of a map that stay on this machine, taken from its own copy. -/
def keep_local (keys : List String) (own map : BTreeMap String V) : BTreeMap String V :=
  keys.foldl (fun m k =>
    match own[k]? with
    | some v => m.insert k v
    | none => m.erase k) map

/-- The object a file holds, empty when it holds none. -/
def Content.object (c : Content V B) : BTreeMap String V :=
  match c with
  | .mapping map => map
  | _ => ∅

/-- `apply_project`. -/
def apply_project (now : ℤ) (name : String) (incoming : Content V B) :
    Except String (Disk V B × String) :=
  (cx.validate_name name).bind fun _ =>
    match disk.projects[name]? with
    | none => .error ("project not present locally: " ++ name)
    | some own =>
      match incoming, own.content with
      | .bytes b, _ => .error (cx.parse_error (.bytes b))
      | _, .bytes b => .error (cx.parse_error (.bytes b))
      | .mapping map, c =>
        let written : Content V B := .mapping (keep_local PROJECT_LOCAL_KEYS c.object map)
        (project_digest cx incoming).map fun stored =>
          (disk.write .project name ⟨written, now⟩, stored)
      | .value v, _ =>
        (project_digest cx incoming).map fun stored =>
          (disk.write .project name ⟨.value v, now⟩, stored)

/-- `apply_template`. -/
def apply_template (now : ℤ) (name : String) (incoming : Content V B) :
    Except String (Disk V B × String) :=
  (validate_simple_name cx name).bind fun _ =>
    .ok (disk.write .template name ⟨incoming, now⟩, cx.sha256_hex incoming)

variable (incoming current : BTreeMap String V)

/-- The maps of `merge_settings_bytes`: every incoming key wins, and then this
machine's own values of the per-machine keys are put back. -/
def merge_settings : BTreeMap String V :=
  let keep := PER_MACHINE_KEYS.filterMap fun k => current[k]?.map fun v => (k, v)
  keep.foldl (fun m p => m.insert p.1 p.2) (upsert_all (fun _ v => v) incoming current)

/-- `merge_settings_bytes`: what comes in has to be an object, and a file here that
is none counts as empty. -/
def merge_settings_bytes (incoming : Content V B) (current : Option (Stored V B)) :
    Except String (Content V B) :=
  match incoming with
  | .mapping map =>
    .ok (.mapping (merge_settings map ((current.map fun s => s.content.object).getD ∅)))
  | c => .error (cx.parse_error c)

/-- A global file that a link leads nowhere for, which `fsatomic::write` finds no place for. -/
def Disk.dangles (name : String) : Bool :=
  match disk.link name with
  | none => false
  | some .file => disk.globals[name]?.isNone
  | some (.dir leads) => !leads

variable (now : ℤ)

/-- `apply_global`, which writes what a link leads to. -/
def apply_global (name : String) (incoming : Content V B) :
    Except String (Disk V B × String) :=
  (safe_global_rel name).bind fun _ =>
    (if name = "settings.json" then merge_settings_bytes cx incoming disk.globals[name]?
      else .ok incoming).bind fun written =>
      if disk.dangles name then .error cx.not_found
      else (global_digest cx name written).map fun stored =>
        (disk.write .global name ⟨written, now⟩, stored)

variable (kind : Kind) (name : String)

/-- `skillsync::apply` and `skillsync_kept::apply`: the folder is replaced whole. -/
def apply_skill
    (incoming : Content V B) : Except String (Disk V B × String) :=
  (cx.skill_check kind name).bind fun _ =>
    if kind = .skill ∧ disk.skills.isNone then .error cx.not_found
    else .ok (disk.write kind name ⟨incoming, now⟩, cx.wire_digest incoming)

/-- `telegramlink::FILE`. -/
def TELEGRAM_FILE : String := "telegram.json"

/-- The branches of `apply_item` for a unit that is not a deletion. -/
def apply_content
    (incoming : Content V B) : Except String (Disk V B × String) :=
  match kind with
  | .project => apply_project cx disk now name incoming
  | .template => apply_template cx disk now name incoming
  | .skill => apply_skill cx disk now .skill name incoming
  | .kept_skill => apply_skill cx disk now .kept_skill name incoming
  | .global =>
    (if name = TELEGRAM_FILE then cx.adopt incoming else .ok ()).bind fun _ =>
      apply_global cx disk now name incoming

/-- `delete_global`. Of a link it is the link that goes. -/
def delete_global : Except String (Disk V B) :=
  if is_deletable_global name then
    (safe_global_rel name).map fun _ =>
      { disk with
        globals := disk.globals.erase name
        links := if disk.link name = some .file then disk.links.erase name else disk.links }
  else .error ("global not deletable: " ++ name)

/-- `delete_item`. -/
def delete_item : Except String (Disk V B) :=
  match kind with
  | .global => delete_global disk name
  | .skill =>
    (cx.skill_check .skill name).map fun _ =>
      { disk with skills := disk.skills.map fun skills => skills.erase name }
  | .kept_skill =>
    (cx.skill_check .kept_skill name).map fun _ =>
      { disk with kept_skills := disk.kept_skills.erase name }
  | other => .error ("cannot delete " ++ other.text ++ ": only global files and skills")

/-- `apply_item`. -/
def apply_item
    (content : Option (Content V B)) : Except String (Disk V B × Applied) :=
  match content with
  | none =>
    (delete_item cx disk kind name).map fun disk =>
      (disk, { incoming := "", stored := "", deleted := true })
  | some incoming =>
    (portable_digest cx kind name incoming).bind fun digest =>
      (apply_content cx disk now kind name incoming).map fun (disk, stored) =>
        (disk, { incoming := digest, stored, deleted := false })

/-! ## Keys that stay and keys that cross -/

theorem without_get (keys : List String) (map : BTreeMap String V) (k : String) :
    (without keys map)[k]? = if k ∈ keys then none else map[k]? := by
  unfold without
  induction keys generalizing map with
  | nil => simp
  | cons key keys ih =>
    rw [foldl_cons, ih, Std.TreeMap.getElem?_erase]
    by_cases hk : k ∈ keys
    · simp [hk]
    · by_cases hkey : key = k
      · simp [hkey]
      · have hne : ¬ k = key := fun h => hkey h.symm
        simp [hk, hkey, hne]

/-- Two objects that agree on every key that crosses have one portable digest. -/
theorem portable_hash_congr {keys : List String} {m m' : BTreeMap String V}
    (h : ∀ k ∉ keys, m[k]? = m'[k]?) :
    portable_hash cx keys (.mapping m : Content V B) = portable_hash cx keys (.mapping m') := by
  have hlist : (without keys m).toList = (without keys m').toList := by
    refine toList_congr ?_
    intro k
    rw [without_get, without_get]
    by_cases hk : k ∈ keys
    · rw [if_pos hk, if_pos hk]
    · rw [if_neg hk, if_neg hk, h k hk]
  simp only [portable_hash, hlist]

theorem keep_local_get {keys : List String} (own map : BTreeMap String V) {k : String}
    (h : k ∉ keys) : (keep_local keys own map)[k]? = map[k]? := by
  unfold keep_local
  induction keys generalizing map with
  | nil => rfl
  | cons key keys ih =>
    rw [mem_cons, not_or] at h
    have hne : ¬ key = k := fun heq => h.1 heq.symm
    rw [foldl_cons, ih _ h.2]
    rcases own[key]? with _ | v
    · simp [Std.TreeMap.getElem?_erase, hne]
    · simp [Std.TreeMap.getElem?_insert, hne]

/-- The keys a merge does not give back to this machine: what came in, and else what
was there. -/
theorem merge_settings_get {k : String} (h : k ∉ PER_MACHINE_KEYS) :
    (merge_settings incoming current)[k]? = incoming[k]?.or current[k]? := by
  have hkeep : ∀ (l : List (String × V)) (m : BTreeMap String V), (∀ p ∈ l, p.1 ≠ k) →
      (l.foldl (fun m p => m.insert p.1 p.2) m)[k]? = m[k]? := by
    intro l
    induction l with
    | nil => intro m _; rfl
    | cons p l ih =>
      intro m hl
      have hne := hl p mem_cons_self
      rw [foldl_cons, ih _ fun q hq => hl q (mem_cons_of_mem p hq)]
      simp [Std.TreeMap.getElem?_insert, hne]
  unfold merge_settings
  rw [hkeep, upsert_all_get]
  · rcases incoming[k]? with _ | v <;> rfl
  · intro p hp
    obtain ⟨key, hkey, hv⟩ := mem_filterMap.mp hp
    obtain ⟨v, _, rfl⟩ := map_eq_some_iff.mp hv
    rintro rfl
    exact h hkey

/-- A merge that is sent back changes nothing that crosses: every key of the first
copy is in it already. -/
theorem merge_settings_back {k : String} (h : k ∉ PER_MACHINE_KEYS) :
    (merge_settings (merge_settings incoming current) incoming)[k]?
      = (merge_settings incoming current)[k]? := by
  rw [merge_settings_get _ _ h, merge_settings_get _ _ h]
  rcases incoming[k]? with _ | v
  · simp
  · simp

/-! ## What is on disk afterwards -/

/-- The content a write leaves on disk. -/
def landed (incoming : Content V B) :
    Content V B :=
  match kind with
  | .project =>
    match incoming with
    | .mapping map =>
      let own := (disk.projects[name]?.map fun s => s.content.object).getD ∅
      .mapping (keep_local PROJECT_LOCAL_KEYS own map)
    | c => c
  | .global =>
    if name = "settings.json" then
      let own := (disk.globals[name]?.map fun s => s.content.object).getD ∅
      .mapping (merge_settings incoming.object own)
    else incoming
  | _ => incoming

variable {name : String} {disk disk' : Disk V B}

theorem apply_project_ok {now : ℤ}
    {incoming : Content V B} {stored : String}
    (h : apply_project cx disk now name incoming = .ok (disk', stored)) :
    disk' = disk.write .project name ⟨landed disk .project name incoming, now⟩ ∧
      project_digest cx (landed disk .project name incoming) = .ok stored := by
  unfold apply_project at h
  obtain ⟨_, _, h⟩ := bind_ok h
  rcases hown : disk.projects[name]? with _ | own
  · rw [hown] at h
    cases h
  · rw [hown] at h
    dsimp only at h
    split at h
    · cases h
    · cases h
    · obtain ⟨d, hd, heq⟩ := map_ok h
      cases heq
      simp only [landed, hown, map_some, getD_some]
      refine ⟨trivial, ?_⟩
      rw [← hd]
      exact portable_hash_congr cx fun k hk => keep_local_get own.content.object _ hk
    · obtain ⟨d, hd, heq⟩ := map_ok h
      cases heq
      exact ⟨rfl, hd⟩

theorem apply_global_ok {now : ℤ}
    {incoming : Content V B} {stored : String}
    (h : apply_global cx disk now name incoming = .ok (disk', stored)) :
    disk' = disk.write .global name ⟨landed disk .global name incoming, now⟩ ∧
      global_digest cx name (landed disk .global name incoming) = .ok stored ∧
      disk.dangles name = false ∧
      (name = "settings.json" → incoming = .mapping incoming.object) := by
  unfold apply_global at h
  obtain ⟨_, _, h⟩ := bind_ok h
  obtain ⟨written, hwritten, h⟩ := bind_ok h
  by_cases hdangles : disk.dangles name = true
  · rw [if_pos hdangles] at h
    cases h
  rw [if_neg hdangles] at h
  rw [Bool.not_eq_true] at hdangles
  obtain ⟨d, hd, heq⟩ := map_ok h
  cases heq
  by_cases hname : name = "settings.json"
  · rw [if_pos hname] at hwritten
    rcases incoming with map | v | b
    · obtain rfl := Except.ok.inj hwritten
      simp only [landed, if_pos hname, Content.object]
      exact ⟨trivial, hd, hdangles, fun _ => trivial⟩
    · cases hwritten
    · cases hwritten
  · rw [if_neg hname] at hwritten
    obtain rfl := Except.ok.inj hwritten
    simp only [landed, if_neg hname]
    exact ⟨trivial, hd, hdangles, fun h => absurd h hname⟩

variable {kind : Kind}

/-- A write that went through left the content on disk that its digest is of. -/
theorem apply_content_ok {now : ℤ}
    {incoming : Content V B} {stored : String}
    (h : apply_content cx disk now kind name incoming = .ok (disk', stored)) :
    disk' = disk.write kind name ⟨landed disk kind name incoming, now⟩ ∧
      portable_digest cx kind name (landed disk kind name incoming) = .ok stored ∧
      (kind = .skill → disk.skills.isSome = true) ∧
      (kind = .global → disk.dangles name = false ∧
        (name = "settings.json" → incoming = .mapping incoming.object)) := by
  have hskill : ∀ kind, apply_skill cx disk now kind name incoming = .ok (disk', stored) →
      disk' = disk.write kind name ⟨incoming, now⟩ ∧ cx.wire_digest incoming = stored ∧
        (kind = .skill → disk.skills.isSome = true) := by
    intro kind h
    obtain ⟨_, _, h⟩ := bind_ok h
    split_ifs at h with hunread
    obtain ⟨hdisk, hstored⟩ := Prod.ext_iff.mp (Except.ok.inj h)
    refine ⟨hdisk.symm, hstored, ?_⟩
    intro hk
    rw [isSome_iff_ne_none]
    simpa [hk] using hunread
  rcases kind with _ | _ | _ | _ | _
  · have hproject := apply_project_ok cx h
    exact ⟨hproject.1, hproject.2, nofun, nofun⟩
  · obtain ⟨_, _, h⟩ := bind_ok h
    have hglobal := apply_global_ok cx h
    exact ⟨hglobal.1, hglobal.2.1, nofun, fun _ => hglobal.2.2⟩
  · obtain ⟨_, _, h⟩ := bind_ok h
    obtain ⟨hdisk, hstored⟩ := Prod.ext_iff.mp (Except.ok.inj h)
    exact ⟨hdisk.symm, congrArg Except.ok hstored, nofun, nofun⟩
  · have hs := hskill .skill h
    exact ⟨hs.1, congrArg Except.ok hs.2.1, hs.2.2, nofun⟩
  · have hs := hskill .kept_skill h
    exact ⟨hs.1, congrArg Except.ok hs.2.1, nofun, nofun⟩

/-- Only a settings merge can leave something else on disk than what came in. -/
theorem landed_digest (disk : Disk V B) (incoming : Content V B)
    (h : ¬ (kind = .global ∧ name = "settings.json")) :
    portable_digest cx kind name (landed disk kind name incoming)
      = portable_digest cx kind name incoming := by
  rcases kind with _ | _ | _ | _ | _
  · rcases incoming with map | v | b
    · exact portable_hash_congr cx fun k hk => keep_local_get _ map hk
    · rfl
    · rfl
  · simp only [true_and] at h
    simp only [landed, if_neg h]
  · rfl
  · rfl
  · rfl

/-- A template kept in a `.yaml` that the directory lists after the `.yml`: the
inventory describes the template by it, whatever the `.yml` holds. -/
def Disk.yaml_shadows (disk : Disk V B) (kind : Kind) (name : String) : Bool :=
  kind = .template && disk.templates[name]?.any fun t => t.yaml.isSome && t.yaml_last

theorem yaml_shadows_file {disk : Disk V B}
    (h : disk.yaml_shadows kind name = true) :
    kind = .template ∧ ∃ s, disk.file kind name = some s := by
  simp only [Disk.yaml_shadows, Bool.and_eq_true, decide_eq_true_eq] at h
  obtain ⟨rfl, h⟩ := h
  refine ⟨rfl, ?_⟩
  rcases ht : disk.templates[name]? with _ | ⟨yml, yaml, last⟩
  · rw [ht] at h
    cases h
  · rw [ht] at h
    rcases yaml with _ | yaml
    · cases h
    · rcases yml with _ | yml <;> simp [Disk.file, ht, TemplateFiles.listed]

theorem write_link (disk : Disk V B) (kind : Kind) (name : String) (s : Stored V B) :
    (disk.write kind name s).link = disk.link := by
  cases kind <;> rfl

/-- The file a unit is listed by after a write, when it is no global file over a link. -/
theorem write_file (disk : Disk V B) (kind : Kind) (name : String) (s : Stored V B)
    (h : kind = .skill → disk.skills.isSome = true)
    (hlink : kind = .global → disk.link name = none) :
    (disk.write kind name s).file kind name
      = if disk.yaml_shadows kind name then disk.file kind name else some s := by
  rcases kind with _ | _ | _ | _ | _
  · simp [Disk.write, Disk.file, Disk.yaml_shadows]
  · rw [Disk.file, Disk.global_file, write_link, hlink rfl]
    simp [Disk.write, Disk.yaml_shadows]
  · rcases ht : disk.templates[name]? with _ | ⟨yml, yaml, last⟩
    · simp [Disk.write, Disk.file, Disk.yaml_shadows, ht, TemplateFiles.listed]
    · rcases yml with _ | yml <;> rcases yaml with _ | yaml <;> rcases last with _ | _ <;>
        simp [Disk.write, Disk.file, Disk.yaml_shadows, ht, TemplateFiles.listed]
  · obtain ⟨skills, hskills⟩ := isSome_iff_exists.mp (h rfl)
    simp [Disk.write, Disk.file, Disk.yaml_shadows, hskills]
  · simp [Disk.write, Disk.file, Disk.yaml_shadows]

/-- A deletion that went through leaves no file, and only crosses where the
inventory carries tombstones. -/
theorem delete_item_ok
    (h : delete_item cx disk kind name = .ok disk') :
    disk'.file kind name = none ∧
      (kind = .skill → disk'.skills.isSome = disk.skills.isSome) := by
  rcases kind with _ | _ | _ | _ | _
  · cases h
  · change delete_global disk name = _ at h
    unfold delete_global at h
    by_cases hdel : is_deletable_global name = true
    · rw [if_pos hdel] at h
      obtain ⟨_, _, rfl⟩ := map_ok h
      exact ⟨by simp [Disk.file, Disk.global_file], by rintro ⟨⟩⟩
    · rw [if_neg hdel] at h
      cases h
  · cases h
  · obtain ⟨_, _, rfl⟩ := map_ok h
    refine ⟨?_, fun _ => by simp⟩
    rcases disk.skills with _ | skills <;> simp [Disk.file]
  · obtain ⟨_, _, rfl⟩ := map_ok h
    exact ⟨by simp [Disk.file], by rintro ⟨⟩⟩

theorem read_template_ok {disk : Disk V B} {c : Content V B}
    (h : read_item cx disk .template name = .ok c) :
    validate_simple_name cx name = .ok () ∧
      ∃ t s, disk.templates[name]? = some t ∧ t.read = some s ∧ c = s.content := by
  simp only [read_item] at h
  split at h
  next s hname hs =>
    obtain ⟨t, ht, hts⟩ := bind_eq_some_iff.mp hs
    exact ⟨hname, t, s, ht, hts, (Except.ok.inj h).symm⟩
  · cases h

theorem global_file_eq {disk : Disk V B} {s : Stored V B} (h : disk.global_file name = some s) :
    disk.globals[name]? = some s := by
  unfold Disk.global_file at h
  split_ifs at h
  exact h

/-- What is sent is what the unit is listed by, less what never crosses; a template
alone is sent from a file of its own choice. -/
theorem read_item_ok {disk : Disk V B} {c : Content V B} {s : Stored V B}
    (h : read_item cx disk kind name = .ok c) (hkind : kind ≠ .template)
    (hfile : disk.file kind name = some s) :
    portable_digest cx kind name c = portable_digest cx kind name s.content ∧
      (kind = .global → c = s.content) := by
  have hread : ∀ {file : Option (Stored V B)} {c : Content V B}, read_file cx file = .ok c →
      file = some s → c = s.content := by
    rintro _ c hc rfl
    exact (Except.ok.inj hc).symm
  rcases kind with _ | _ | _ | _ | _
  · obtain ⟨_, _, h⟩ := bind_ok h
    obtain ⟨c', hc', rfl⟩ := map_ok h
    obtain rfl := hread hc' hfile
    refine ⟨?_, nofun⟩
    rcases s.content with map | v | b
    · refine portable_hash_congr cx ?_
      intro k hk
      have hne : ¬ "claudeAccounts" = k := by
        rintro rfl
        exact hk (by decide)
      simp [Std.TreeMap.getElem?_erase, hne]
    · rfl
    · rfl
  · obtain ⟨_, _, h⟩ := bind_ok h
    obtain rfl := hread h (global_file_eq hfile)
    exact ⟨rfl, fun _ => rfl⟩
  · exact absurd rfl hkind
  · obtain ⟨_, _, h⟩ := bind_ok h
    obtain rfl := hread h hfile
    exact ⟨rfl, nofun⟩
  · obtain ⟨_, _, h⟩ := bind_ok h
    obtain rfl := hread h hfile
    exact ⟨rfl, nofun⟩

end

end Lpm.Sync
