/-
The actions that a config file leaves out, and what is said of them: `lenient.rs` and the
action checks of `check.rs`.

What `serde_norway` makes of a value is taken as given (`Serde`): whether it reads as one of the
types of `config.rs`, and what it says of a map with one field. Nothing is assumed of it. The field
`actions` of an action that reads is read entry by entry like a section, so a section gives a tree
of actions. An entry that does not read is left out of it with all that is below.
-/
import Lpm.Lib.OrdMap
import Mathlib.Data.List.Induction

set_option autoImplicit false

namespace Lpm.Config

open List Option

open OrdMap

/-! ## Documents -/

/-- A YAML value. A number is kept by the text that `to_string` gives. -/
inductive Value where
  | null
  | bool (b : Bool)
  | number (text : String)
  | string (s : String)
  | sequence (items : List Value)
  | mapping (map : List (Value × Value))
  | tagged (tag : String) (value : Value)

abbrev Mapping := List (Value × Value)

def key_text : Value → Option String
  | .string s => some s
  | .number text => some text
  | .bool b => some (if b then "true" else "false")
  | _ => none

def Value.is (name : String) : Value → Bool
  | .string s => s = name
  | _ => false

def get (map : Mapping) (name : String) : Option Value := (map.find? fun e => e.1.is name).map Prod.snd

/-- `Mapping::remove`: the last entry takes the place of the one removed. -/
def remove (map : Mapping) (name : String) : Option (Value × Mapping) :=
  (map.findIdx? fun e => e.1.is name).bind fun i =>
    match map[i]?, map.getLast? with
    | some e, some last => some (e.2, map.dropLast.set i last)
    | _, _ => none

/-- What is read and said of values, by the types that they are read as. -/
structure Serde (α : Type*) where
  /-- `from_value` of an `ActionDef`, its own actions aside. -/
  action_def : Value → Option α
  /-- `field_error` of an `ActionFull`, in the user's words. -/
  action_full : Value → Value → Option String
  /-- Whether a value reads as an `ActionInputDef`. -/
  input_def : Value → Bool
  /-- `field_error` of an `ActionInputDef`, in the user's words. -/
  input_field : Value → Value → Option String
  /-- Whether a value reads as an `ActionInputOptionDef`. -/
  input_option : Value → Bool

/-! ## Reading -/

/-- An action that is read: what there is of it but for its own actions, and these by their
names. -/
inductive ActionDef (α : Type*) where
  | mk (own : α) (actions : String → Option (ActionDef α))

def ActionDef.actions {α : Type*} : ActionDef α → String → Option (ActionDef α)
  | .mk _ actions => actions

variable {α : Type*} (serde : Serde α)

theorem sizeOf_get {map : Mapping} {name : String} {v : Value} (h : get map name = some v) : sizeOf v < sizeOf map := by
  obtain ⟨e, he, rfl⟩ := map_eq_some_iff.mp h
  have hlt := sizeOf_lt_of_mem (mem_of_find?_eq_some he)
  have hsnd : sizeOf e.2 < sizeOf e := by
    cases e
    simp only [Prod.mk.sizeOf_spec]
    omega
  omega

mutual

/-- The actions of a section, read entry by entry. -/
def actions (serde : Serde α) (v : Value) : BTreeMap String (ActionDef α) :=
  match v with
  | .mapping map =>
    (map.attach.filterMap fun e =>
      (key_text e.1.1).bind fun name => (from_value serde e.1.2).map fun def_ => (name, def_)).foldl
        (fun m e => m.insert e.1 e.2) ∅
  | _ => ∅
termination_by sizeOf v
decreasing_by
  have hlt := sizeOf_lt_of_mem e.2
  have hsnd : sizeOf e.1.2 < sizeOf e.1 := by
    cases e.1
    simp only [Prod.mk.sizeOf_spec]
    omega
  simp only [Value.mapping.sizeOf_spec]
  omega

/-- `from_value` of an `ActionDef`. -/
def from_value (serde : Serde α) (v : Value) : Option (ActionDef α) :=
  match v with
  | .mapping m =>
    (serde.action_def (.mapping m)).map fun own =>
      .mk own (match _h : get m "actions" with
        | some children => fun name => (actions serde children)[name]?
        | none => fun _ => none)
  | v => (serde.action_def v).map fun own => .mk own fun _ => none
termination_by sizeOf v
decreasing_by
  have hlt := sizeOf_get _h
  simp only [Value.mapping.sizeOf_spec]
  omega

end

/-- The actions of a section of a document. -/
def load (doc : Value) (sect : String) : BTreeMap String (ActionDef α) :=
  match doc with
  | .mapping root =>
    match get root sect with
    | some s => actions serde s
    | none => ∅
  | _ => ∅

/-- A list-form input split into its `key` and the rest of its fields. -/
def split_keyed : Value → Option (String × Value)
  | .mapping map => (remove map "key").bind fun found => (key_text found.1).map fun key => (key, .mapping found.2)
  | _ => none

/-! ## Checking -/

structure Problem where
  path : List String
  message : String
  deriving DecidableEq

def ACTION_SHAPE : String := "expected a command, or a map with cmd, label and the other action settings"

def INPUT_SHAPE : String := "expected a map with label, type, default and the other input settings"

variable (path : List String)

def child (seg : String) : List String := path ++ [seg]

def nth (i : ℕ) : String := "#" ++ toString (i + 1)

def missing (item : Value) (field : String) : Bool :=
  match item with
  | .mapping m => (get m field).isNone
  | _ => false

def options (items : List Value) : List Problem :=
  items.zipIdx.flatMap fun item =>
    if serde.input_option item.1 then []
    else
      let message :=
        if missing item.1 "value" then
          "has no \x60value\x60. An option needs both a label and a value, or can be plain text."
        else if missing item.1 "label" then
          "has no \x60label\x60. An option needs both a label and a value, or can be plain text."
        else "an option is plain text, or a map with both a label and a value"
      [⟨child path (nth item.2), message⟩]

def one_input (v : Value) : List Problem :=
  if serde.input_def v then []
  else
    let found :=
      match v with
      | .mapping m => m.flatMap fun e =>
        match key_text e.1 with
        | none => []
        | some field =>
          match serde.input_field e.1 e.2 with
          | none => []
          | some err =>
            match e.2 with
            | .sequence items =>
              if field = "options" then options serde (child path "options") items else [⟨child path field, err⟩]
            | _ => [⟨child path field, err⟩]
      | _ => []
    if found.isEmpty then [⟨path, INPUT_SHAPE⟩] else found

def inputs (key v : Value) : List Problem :=
  if (serde.action_full key v).isNone then []
  else
    match v with
    | .mapping map => map.flatMap fun e =>
      match key_text e.1 with
      | some name => one_input serde (child path name) e.2
      | none => []
    | .sequence items => items.zipIdx.flatMap fun item =>
      match split_keyed item.1 with
      | some (name, rest) => one_input serde (child path name) rest
      | none => [⟨child path (nth item.2), "each input in a list needs a \x60key\x60"⟩]
    | _ => [⟨path, "expected a map of inputs keyed by name"⟩]

/-- What is said of a field of an action that does not read. -/
def field_problems (e : Value × Value) : List Problem :=
  match key_text e.1 with
  | none => []
  | some field =>
    if field = "actions" then []
    else if field = "inputs" then inputs serde (child path "inputs") e.1 e.2
    else
      match serde.action_full e.1 e.2 with
      | some message => [⟨child path field, message⟩]
      | none => []

/-- What is said of an action itself, its children aside. -/
def own_problems (v : Value) : List Problem :=
  if (serde.action_def v).isSome then []
  else
    match v with
    | .mapping m =>
      let found := m.flatMap (field_problems serde path)
      if found.isEmpty then [⟨path, ACTION_SHAPE⟩] else found
    | _ => [⟨path, ACTION_SHAPE⟩]

mutual

def action_map (serde : Serde α) (path : List String) (v : Value) : List Problem :=
  match v with
  | .mapping map => map.attach.flatMap fun e =>
    match key_text e.1.1 with
    | some name => action serde (child path name) e.1.2
    | none => []
  | .null => []
  | _ => [⟨path, "expected a map of actions keyed by name"⟩]
termination_by sizeOf v
decreasing_by
  have hlt := sizeOf_lt_of_mem e.2
  have hsnd : sizeOf e.1.2 < sizeOf e.1 := by
    cases e.1
    simp only [Prod.mk.sizeOf_spec]
    omega
  simp only [Value.mapping.sizeOf_spec]
  omega

def action (serde : Serde α) (path : List String) (v : Value) : List Problem :=
  match v with
  | .mapping m =>
    (match _h : get m "actions" with
      | some children => action_map serde (child path "actions") children
      | none => []) ++ own_problems serde path (.mapping m)
  | v => own_problems serde path v
termination_by sizeOf v
decreasing_by
  have hlt := sizeOf_get _h
  simp only [Value.mapping.sizeOf_spec]
  omega

end

variable (serde : Serde α)

/-- The problems of the actions of a document, section by section. -/
def dropped_actions : Value → List Problem
  | .mapping root => ["actions", "terminals"].flatMap fun sect =>
    match get root sect with
    | some v => action_map serde [sect] v
    | none => []
  | _ => []

/-! ## Sections and their entries -/

/-- The value of a section that is found below another, under the names of the entries on the
way. -/
inductive Below : Value → List String → Value → Prop
  | here (v : Value) : Below v [] v
  | deeper {map m : Mapping} {k s v : Value} {name : String} {names : List String} (he : (k, .mapping m) ∈ map)
      (hname : key_text k = some name) (hs : get m "actions" = some s) (h : Below s names v) :
      Below (.mapping map) (name :: names) v

/-- The value of a section of a document, at any depth. -/
def SectionAt (doc : Value) (sect : String) (names : List String) (v : Value) : Prop :=
  ∃ root s, doc = .mapping root ∧ sect ∈ ["actions", "terminals"] ∧ get root sect = some s ∧ Below s names v

/-- The path of a section. -/
def section_path (sect : String) (names : List String) : List String :=
  sect :: names.flatMap fun name => [name, "actions"]

/-- The one entry of a name in a section. -/
def Sole (map : Mapping) (name : String) (e : Value × Value) : Prop := (map.filter fun e => key_text e.1 = some name) = [e]

/-- The value of an entry under the names on the way to it, each of which one entry has. -/
inductive Told : Value → List String → String → Value → Prop
  | here {map : Mapping} {name : String} {e : Value × Value} (he : Sole map name e) : Told (.mapping map) [] name e.2
  | deeper {map m : Mapping} {k s v : Value} {name last : String} {names : List String} (he : Sole map name (k, .mapping m))
      (hs : get m "actions" = some s) (h : Told s names last v) : Told (.mapping map) (name :: names) last v

/-- So it is in a document. -/
def ToldAt (doc : Value) (sect : String) (names : List String) (name : String) (v : Value) : Prop :=
  ∃ root s, doc = .mapping root ∧ sect ∈ ["actions", "terminals"] ∧ get root sect = some s ∧ Told s names name v

/-- What is under a name among the actions under the names before it. -/
def find (m : String → Option (ActionDef α)) : List String → String → Option (ActionDef α)
  | [], name => m name
  | first :: names, name => (m first).bind fun def_ => find def_.actions names name

/-- Nothing is loaded under the name of an entry. -/
def LeftOut (doc : Value) (sect : String) (names : List String) (name : String) : Prop :=
  find (fun name => (load serde doc sect)[name]?) names name = none

/-- What is behind the path of an entry, at the entry or below a part of it that is not its own
actions. -/
def OfPart (rest : List String) : Prop := rest = [] ∨ ∃ field more, rest = field :: more ∧ field ≠ "actions"

/-- A problem is reported for an entry, by its path. -/
def Explained (doc : Value) (sect : String) (names : List String) (name : String) : Prop :=
  ∃ p ∈ dropped_actions serde doc, ∃ rest, OfPart rest ∧ p.path = section_path sect names ++ name :: rest

section
variable {serde : Serde α} {map : Mapping} {i : ℕ} {name : String} {a : α} {e : Value × Value} {v : Value}
  {path : List String} {p : Problem}

/-! ## The actions read -/

/-- Of the entries with a name the last one is found. -/
theorem foldl_insert_get {β : Type*} (l : List (String × β)) (init : BTreeMap String β) (name : String) :
    (l.foldl (fun m e => m.insert e.1 e.2) init)[name]?
      = match (l.filter fun e => e.1 = name).getLast? with
        | some e => some e.2
        | none => init[name]? := by
  induction l using List.reverseRecOn with
  | nil => rfl
  | append_singleton l e ih =>
    rw [foldl_append, foldl_cons, foldl_nil, Std.TreeMap.getElem?_insert, filter_append]
    by_cases he : e.1 = name
    · rw [filter_cons_of_pos (by simpa using he), filter_nil, getLast?_append, getLast?_singleton]
      simp [he]
    · rw [filter_cons_of_neg (by simpa using he), filter_nil, append_nil, ih]
      simp [he]

theorem actions_mapping (serde : Serde α) (map : Mapping) :
    actions serde (.mapping map)
      = (map.filterMap fun e => (key_text e.1).bind fun name => (from_value serde e.2).map fun def_ => (name, def_)).foldl
          (fun m e => m.insert e.1 e.2) ∅ := by
  have hunattach := @filterMap_subtype _ _ (· ∈ map) map.attach
    (fun e => (key_text e.1.1).bind fun name => (from_value serde e.1.2).map fun def_ => (name, def_))
    (fun e => (key_text e.1).bind fun name => (from_value serde e.2).map fun def_ => (name, def_)) fun _ _ => rfl
  rw [List.unattach_attach] at hunattach
  rw [actions]
  exact congrArg _ hunattach

/-- An entry that is the only one of its name is loaded as it reads. -/
theorem actions_get (he : Sole map name e) : (actions serde (.mapping map))[name]? = from_value serde e.2 := by
  have hname : key_text e.1 = some name := by
    have hin : e ∈ map.filter fun e => key_text e.1 = some name := he ▸ mem_singleton_self e
    exact of_decide_eq_true (mem_filter.mp hin).2
  have hone : ((map.filterMap fun e => (key_text e.1).bind fun name => (from_value serde e.2).map fun def_ =>
        (name, def_)).filter fun e => e.1 = name)
      = ((from_value serde e.2).map fun def_ => (name, def_)).toList := by
    rw [filter_filterMap]
    have hcongr : (map.filterMap fun e => ((key_text e.1).bind fun name => (from_value serde e.2).map fun def_ =>
          (name, def_)).filter fun e => e.1 = name)
        = (map.filter fun e => key_text e.1 = some name).filterMap fun e => (from_value serde e.2).map fun def_ => (name, def_) := by
      rw [filterMap_filter]
      refine filterMap_congr fun e _ => ?_
      rcases hkey : key_text e.1 with _ | name'
      · simp
      · rcases from_value serde e.2 with _ | def_
        · simp
        · by_cases heq : name' = name
          · simp [heq]
          · simp [heq]
    have hsole : (map.filter fun e => key_text e.1 = some name) = [e] := he
    rw [hcongr, hsole]
    rcases hread : from_value serde e.2 with _ | def_
    · simp [hread]
    · simp [hread]
  rw [actions_mapping, foldl_insert_get, hone]
  rcases from_value serde e.2 with _ | def_
  · rfl
  · rfl

theorem from_value_eq_none : from_value serde v = none ↔ serde.action_def v = none := by
  cases v with
  | mapping m => rw [from_value, map_eq_none_iff]
  | null | bool | number | string | sequence | tagged =>
    rw [from_value, map_eq_none_iff]
    exact nofun

theorem from_value_actions {m : Mapping} {s : Value} {def_ : ActionDef α} (hs : get m "actions" = some s)
    (h : from_value serde (.mapping m) = some def_) : def_.actions = fun name => (actions serde s)[name]? := by
  rw [from_value] at h
  obtain ⟨own, -, rfl⟩ := map_eq_some_iff.mp h
  rw [ActionDef.actions]
  split
  next heq =>
    rw [some.inj (hs.symm.trans heq)]
  next heq =>
    exact nomatch hs.symm.trans heq

/-! ## What is said of one action -/

theorem options_path {items : List Value} (h : p ∈ options serde path items) : ∃ rest, p.path = path ++ rest := by
  obtain ⟨item, -, hp⟩ := mem_flatMap.mp h
  by_cases hread : serde.input_option item.1 = true
  · rw [if_pos hread] at hp
    exact absurd hp not_mem_nil
  · rw [if_neg hread] at hp
    obtain rfl := mem_singleton.mp hp
    exact ⟨_, rfl⟩

theorem one_input_path (h : p ∈ one_input serde path v) : ∃ rest, p.path = path ++ rest := by
  have hself : ∀ {message : String}, p ∈ [(⟨path, message⟩ : Problem)] → ∃ rest, p.path = path ++ rest := by
    intro message hp
    obtain rfl := mem_singleton.mp hp
    exact ⟨[], (append_nil _).symm⟩
  have hchild : ∀ {seg message : String}, p ∈ [(⟨child path seg, message⟩ : Problem)] → ∃ rest, p.path = path ++ rest := by
    intro seg message hp
    obtain rfl := mem_singleton.mp hp
    exact ⟨[seg], rfl⟩
  unfold one_input at h
  dsimp only at h
  split_ifs at h with hread hnone
  · exact absurd h not_mem_nil
  · exact hself h
  · split at h
    · obtain ⟨e, -, hp⟩ := mem_flatMap.mp h
      split at hp
      · exact absurd hp not_mem_nil
      · split at hp
        · exact absurd hp not_mem_nil
        · split at hp
          · split_ifs at hp
            · obtain ⟨rest, hrest⟩ := options_path hp
              exact ⟨_, by rw [hrest, child, append_assoc]⟩
            · exact hchild hp
          · exact hchild hp
    · exact absurd h not_mem_nil

theorem inputs_path {key : Value} (h : p ∈ inputs serde path key v) : ∃ rest, p.path = path ++ rest := by
  have hinput : ∀ {seg : String} {v : Value}, p ∈ one_input serde (child path seg) v → ∃ rest, p.path = path ++ rest := by
    intro seg v hp
    obtain ⟨rest, hrest⟩ := one_input_path hp
    exact ⟨_, by rw [hrest, child, append_assoc]⟩
  unfold inputs at h
  split_ifs at h
  · exact absurd h not_mem_nil
  · split at h
    · obtain ⟨e, -, hp⟩ := mem_flatMap.mp h
      split at hp
      · exact hinput hp
      · exact absurd hp not_mem_nil
    · obtain ⟨item, -, hp⟩ := mem_flatMap.mp h
      split at hp
      · exact hinput hp
      · obtain rfl := mem_singleton.mp hp
        exact ⟨_, rfl⟩
    · obtain rfl := mem_singleton.mp h
      exact ⟨[], (append_nil _).symm⟩

theorem field_problems_path (h : p ∈ field_problems serde path e) :
    ∃ field more, p.path = path ++ field :: more ∧ field ≠ "actions" := by
  unfold field_problems at h
  split at h
  · exact absurd h not_mem_nil
  next field hfield =>
    split_ifs at h with hactions hinputs
    · exact absurd h not_mem_nil
    · obtain ⟨rest, hrest⟩ := inputs_path h
      exact ⟨"inputs", rest, by rw [hrest, child, append_assoc]; rfl, by decide⟩
    · split at h
      · obtain rfl := mem_singleton.mp h
        exact ⟨field, [], rfl, hactions⟩
      · exact absurd h not_mem_nil

/-- What is said of an action itself is said at its path or below a part that is not its own
actions, and nothing is said of one that reads. -/
theorem own_problems_path (h : p ∈ own_problems serde path v) :
    serde.action_def v = none ∧ ∃ rest, OfPart rest ∧ p.path = path ++ rest := by
  have hself : ∀ {message : String}, p ∈ [(⟨path, message⟩ : Problem)] → ∃ rest, OfPart rest ∧ p.path = path ++ rest := by
    intro message hp
    obtain rfl := mem_singleton.mp hp
    exact ⟨[], .inl rfl, (append_nil _).symm⟩
  unfold own_problems at h
  split_ifs at h with hread
  · exact absurd h not_mem_nil
  · refine ⟨not_isSome_iff_eq_none.mp hread, ?_⟩
    split at h
    · dsimp only at h
      split_ifs at h
      · exact hself h
      · obtain ⟨e, -, hp⟩ := mem_flatMap.mp h
        obtain ⟨field, more, hpath, hne⟩ := field_problems_path hp
        exact ⟨field :: more, .inr ⟨field, more, rfl, hne⟩, hpath⟩
    · exact hself h

/-- And something is said of one that does not. -/
theorem own_problems_ne_nil (h : serde.action_def v = none) (path : List String) : own_problems serde path v ≠ [] := by
  unfold own_problems
  rw [h, isSome_none, if_neg Bool.false_ne_true]
  split
  · dsimp only
    split_ifs with hempty
    · exact cons_ne_nil _ _
    · intro hnil
      rw [hnil] at hempty
      exact hempty rfl
  · exact cons_ne_nil _ _

/-! ## The walk -/

theorem action_map_mapping (serde : Serde α) (path : List String) (map : Mapping) :
    action_map serde path (.mapping map) = map.flatMap fun e =>
      match key_text e.1 with
      | some name => action serde (child path name) e.2
      | none => [] := by
  have hunattach := @flatMap_subtype _ _ (· ∈ map) map.attach
    (fun e => match key_text e.1.1 with
      | some name => action serde (child path name) e.1.2
      | none => [])
    (fun e => match key_text e.1 with
      | some name => action serde (child path name) e.2
      | none => []) fun _ _ => rfl
  rw [List.unattach_attach] at hunattach
  rw [action_map]
  exact hunattach

theorem action_none {m : Mapping} (h : get m "actions" = none) (serde : Serde α) (path : List String) :
    action serde path (.mapping m) = own_problems serde path (.mapping m) := by
  rw [action]
  split
  next heq =>
    exact nomatch h.symm.trans heq
  · rfl

theorem action_some {m : Mapping} {children : Value} (h : get m "actions" = some children) (serde : Serde α)
    (path : List String) :
    action serde path (.mapping m)
      = action_map serde (child path "actions") children ++ own_problems serde path (.mapping m) := by
  rw [action]
  split
  next heq =>
    rw [some.inj (h.symm.trans heq)]
  next heq =>
    exact nomatch h.symm.trans heq

theorem action_other (h : ∀ m, v ≠ .mapping m) (serde : Serde α) (path : List String) :
    action serde path v = own_problems serde path v := by
  rw [action]
  exact h

/-- A problem with an action is its own, or one of its children's. -/
theorem mem_action : p ∈ action serde path v
    ↔ p ∈ own_problems serde path v
      ∨ ∃ m s, v = .mapping m ∧ get m "actions" = some s ∧ p ∈ action_map serde (child path "actions") s := by
  by_cases hmap : ∃ m, v = .mapping m
  · obtain ⟨m, rfl⟩ := hmap
    rcases h : get m "actions" with _ | s
    · rw [action_none h]
      constructor
      · exact .inl
      · rintro (hown | ⟨m', s, heq, hs, -⟩)
        · exact hown
        · obtain rfl := Value.mapping.inj heq
          exact nomatch h.symm.trans hs
    · rw [action_some h, mem_append]
      constructor
      · rintro (hchild | hown)
        · exact .inr ⟨m, s, rfl, h, hchild⟩
        · exact .inl hown
      · rintro (hown | ⟨m', s', heq, hs, hchild⟩)
        · exact .inr hown
        · obtain rfl := Value.mapping.inj heq
          obtain rfl := some.inj (h.symm.trans hs)
          exact .inl hchild
  · rw [action_other fun m hm => hmap ⟨m, hm⟩]
    constructor
    · exact .inl
    · rintro (hown | ⟨m, s, heq, -⟩)
      · exact hown
      · exact absurd ⟨m, heq⟩ hmap

theorem mem_action_map {map : Mapping} : p ∈ action_map serde path (.mapping map)
    ↔ ∃ e ∈ map, ∃ name, key_text e.1 = some name ∧ p ∈ action serde (child path name) e.2 := by
  rw [action_map_mapping, mem_flatMap]
  constructor
  · rintro ⟨e, he, hp⟩
    split at hp
    next name hname =>
      exact ⟨e, he, name, hname, hp⟩
    · exact absurd hp not_mem_nil
  · rintro ⟨e, he, name, hname, hp⟩
    refine ⟨e, he, ?_⟩
    rw [hname]
    exact hp

/-- From a section the walk goes on to the sections of its entries. -/
theorem Value.section_induction {P : Value → Prop}
    (h : ∀ v, (∀ map k m s, v = .mapping map → (k, Value.mapping m) ∈ map → get m "actions" = some s → P s) → P v)
    (v : Value) : P v := by
  induction hn : sizeOf v using Nat.strong_induction_on generalizing v with
  | h n ih =>
    refine h v ?_
    rintro map k m s rfl he hs
    refine ih (sizeOf s) ?_ s rfl
    have hin := sizeOf_lt_of_mem he
    have hget := sizeOf_get hs
    simp only [Prod.mk.sizeOf_spec, mapping.sizeOf_spec] at hin hn
    omega

theorem section_path_deeper (sect name : String) (names : List String) :
    section_path sect (names ++ [name]) = child (child (section_path sect names) name) "actions" := by
  simp [section_path, child]

/-- Each problem is of an entry that does not read, or of a section that is no map. -/
theorem problem_of (sect : String) (v : Value) (names : List String)
    (h : p ∈ action_map serde (section_path sect names) v) :
    (∃ below w, Below v below w ∧ w ≠ .null ∧ (∀ map, w ≠ .mapping map) ∧ p.path = section_path sect (names ++ below))
      ∨ ∃ below map e name rest, Below v below (.mapping map) ∧ e ∈ map ∧ key_text e.1 = some name
          ∧ serde.action_def e.2 = none ∧ OfPart rest ∧ p.path = section_path sect (names ++ below) ++ name :: rest := by
  induction v using Value.section_induction generalizing names with
  | h v ih =>
    cases v with
    | mapping map =>
      obtain ⟨⟨k, e⟩, he, name, hname, hp⟩ := mem_action_map.mp h
      rcases mem_action.mp hp with hown | ⟨m, s, rfl, hs, hchild⟩
      · obtain ⟨hread, rest, hpart, hpath⟩ := own_problems_path hown
        refine .inr ⟨[], map, (k, e), name, rest, .here _, he, hname, hread, hpart, ?_⟩
        rw [hpath, append_nil, child, append_assoc]
        rfl
      · rw [← section_path_deeper] at hchild
        rcases ih map k m s rfl he hs (names ++ [name]) hchild with
          ⟨below, w, hbelow, hnull, hmap, hpath⟩ | ⟨below, map', e', name', rest, hbelow, hrest⟩
        · refine .inl ⟨name :: below, w, .deeper he hname hs hbelow, hnull, hmap, ?_⟩
          rw [hpath, append_assoc]
          rfl
        · refine .inr ⟨name :: below, map', e', name', rest, .deeper he hname hs hbelow, ?_⟩
          rw [append_assoc] at hrest
          exact hrest
    | null =>
      rw [action_map] at h
      exact absurd h not_mem_nil
    | bool | number | string | sequence | tagged =>
      left
      refine ⟨[], _, .here _, nofun, nofun, ?_⟩
      rw [action_map] at h
      · obtain rfl := mem_singleton.mp h
        rw [append_nil]
      · exact nofun
      · exact nofun

/-- Something is said of each entry that does not read. -/
theorem problem_for {sect : String} {names below : List String} {map : Mapping} (hbelow : Below v below (.mapping map))
    (he : e ∈ map) (hname : key_text e.1 = some name) (hread : serde.action_def e.2 = none) :
    ∃ p ∈ action_map serde (section_path sect names) v, ∃ rest, OfPart rest
      ∧ p.path = section_path sect (names ++ below) ++ name :: rest := by
  generalize hw : Value.mapping map = w at hbelow
  induction hbelow generalizing names with
  | here v =>
    subst hw
    obtain ⟨p, hp⟩ := exists_mem_of_ne_nil _
      (own_problems_ne_nil hread (child (section_path sect names) name))
    obtain ⟨-, rest, hpart, hpath⟩ := own_problems_path hp
    refine ⟨p, mem_action_map.mpr ⟨e, he, name, hname, mem_action.mpr (.inl hp)⟩, rest, hpart, ?_⟩
    rw [hpath, append_nil, child, append_assoc]
    rfl
  | @deeper map' m k s v name' below he' hname' hs hbelow ih =>
    obtain ⟨p, hp, rest, hpart, hpath⟩ := @ih (names ++ [name']) hw
    rw [section_path_deeper] at hp
    refine ⟨p, mem_action_map.mpr ⟨_, he', name', hname', mem_action.mpr (.inr ⟨m, s, rfl, hs, hp⟩)⟩, rest, hpart, ?_⟩
    rw [hpath, append_assoc]
    rfl

/-- Something is said of a section that is no map. -/
theorem problem_for_section {sect : String} {names below : List String} {w : Value} (hbelow : Below v below w)
    (hnull : w ≠ .null) (hmap : ∀ map, w ≠ .mapping map) :
    ∃ p ∈ action_map serde (section_path sect names) v, p.path = section_path sect (names ++ below) := by
  induction hbelow generalizing names with
  | here v =>
    refine ⟨⟨section_path sect names, "expected a map of actions keyed by name"⟩, ?_, by rw [append_nil]⟩
    rw [action_map]
    · exact mem_singleton.mpr rfl
    · exact hmap
    · exact hnull
  | @deeper map' m k s v name' below he' hname' hs hbelow ih =>
    obtain ⟨p, hp, hpath⟩ := @ih (names ++ [name']) hnull hmap
    rw [section_path_deeper] at hp
    refine ⟨p, mem_action_map.mpr ⟨_, he', name', hname', mem_action.mpr (.inr ⟨m, s, rfl, hs, hp⟩)⟩, ?_⟩
    rw [hpath, append_assoc]
    rfl

/-! ## Paths -/

/-- A path tells the entry it is of. -/
theorem section_path_inj {sect sect' name name' : String} {names names' rest rest' : List String} (hrest : OfPart rest)
    (hrest' : OfPart rest')
    (h : section_path sect names ++ name :: rest = section_path sect' names' ++ name' :: rest') :
    sect = sect' ∧ names = names' ∧ name = name' := by
  have hactions : ∀ {rest more : List String}, OfPart rest → rest ≠ "actions" :: more := by
    rintro rest more (rfl | ⟨field, tail, rfl, hne⟩) heq
    · exact nomatch heq
    · exact hne (List.cons.inj heq).1
  refine ⟨(List.cons.inj h).1, ?_⟩
  replace h := (List.cons.inj h).2
  induction names generalizing names' with
  | nil =>
    cases names' with
    | nil => exact ⟨rfl, (List.cons.inj h).1⟩
    | cons n names' => exact absurd (List.cons.inj h).2 (hactions hrest)
  | cons n names ih =>
    cases names' with
    | nil => exact absurd (List.cons.inj h).2.symm (hactions hrest')
    | cons n' names' =>
      obtain ⟨hn, h⟩ := List.cons.inj h
      obtain ⟨hnames, hname⟩ := ih (List.cons.inj h).2
      exact ⟨by rw [hn, hnames], hname⟩

/-- And is not the path of a section. -/
theorem section_path_ne {sect sect' name : String} {names names' rest : List String} (hrest : OfPart rest) :
    section_path sect names ++ name :: rest ≠ section_path sect' names' := by
  intro h
  replace h := (List.cons.inj h).2
  induction names generalizing names' with
  | nil =>
    cases names' with
    | nil => exact nomatch h
    | cons n names' =>
      have htail := (List.cons.inj h).2
      rcases hrest with rfl | ⟨field, more, rfl, hne⟩
      · exact nomatch htail
      · exact hne (List.cons.inj htail).1
  | cons n names ih =>
    cases names' with
    | nil => exact nomatch h
    | cons n' names' => exact ih (List.cons.inj (List.cons.inj h).2).2

variable {doc : Value} {sect : String} {names : List String}

theorem mem_dropped_actions : p ∈ dropped_actions serde doc
    ↔ ∃ root s sect, doc = .mapping root ∧ sect ∈ ["actions", "terminals"] ∧ get root sect = some s
        ∧ p ∈ action_map serde (section_path sect []) s := by
  cases doc with
  | mapping root =>
    rw [dropped_actions, mem_flatMap]
    constructor
    · rintro ⟨sect, hsect, hp⟩
      split at hp
      next s hs =>
        exact ⟨root, s, sect, rfl, hsect, hs, hp⟩
      · exact absurd hp not_mem_nil
    · rintro ⟨root', s, sect, heq, hsect, hs, hp⟩
      obtain rfl := Value.mapping.inj heq
      refine ⟨sect, hsect, ?_⟩
      rw [hs]
      exact hp
  | null | bool | number | string | sequence | tagged =>
    constructor
    · intro h
      exact absurd h not_mem_nil
    · rintro ⟨root, s, sect, heq, -⟩
      exact nomatch heq

/-- A problem is reported for an entry when it, or another of its path, does not read. -/
theorem explained_iff : Explained serde doc sect names name
    ↔ ∃ map, SectionAt doc sect names (.mapping map) ∧ ∃ e ∈ map, key_text e.1 = some name ∧ serde.action_def e.2 = none := by
  constructor
  · rintro ⟨p, hp, rest, hpart, hpath⟩
    obtain ⟨root, s, sect', hdoc, hsect, hs, hp⟩ := mem_dropped_actions.mp hp
    rcases problem_of sect' s [] hp with ⟨below, w, -, -, -, hat⟩ | ⟨below, map, e, name', rest', hbelow, he, hname, hread, hpart', hat⟩
    · exact absurd (hpath.symm.trans hat) (section_path_ne hpart)
    · obtain ⟨rfl, rfl, rfl⟩ := section_path_inj hpart hpart' (hpath.symm.trans hat)
      exact ⟨map, ⟨root, s, hdoc, hsect, hs, hbelow⟩, e, he, hname, hread⟩
  · rintro ⟨map, ⟨root, s, hdoc, hsect, hs, hbelow⟩, e, he, hname, hread⟩
    obtain ⟨p, hp, rest, hpart, hpath⟩ := @problem_for α serde name e s sect [] names map hbelow he hname hread
    exact ⟨p, mem_dropped_actions.mpr ⟨root, s, sect, hdoc, hsect, hs, hp⟩, rest, hpart, hpath⟩

/-! ## Every action left out is explained -/

/-- An entry with this name, under these names, does not read. -/
def Unread (serde : Serde α) (s : Value) (names : List String) (name : String) : Prop :=
  ∃ map, Below s names (.mapping map) ∧ ∃ e ∈ map, key_text e.1 = some name ∧ serde.action_def e.2 = none

theorem Sole.mem (h : Sole map name e) : e ∈ map ∧ key_text e.1 = some name := by
  have hin : e ∈ map.filter fun e => key_text e.1 = some name := h ▸ mem_singleton_self e
  obtain ⟨hmem, hname⟩ := mem_filter.mp hin
  exact ⟨hmem, of_decide_eq_true hname⟩

theorem Sole.eq {e' : Value × Value} (h : Sole map name e) (he' : e' ∈ map) (hname : key_text e'.1 = some name) : e' = e := by
  have hin : e' ∈ map.filter fun e => key_text e.1 = some name := mem_filter.mpr ⟨he', decide_eq_true hname⟩
  rw [show (map.filter fun e => key_text e.1 = some name) = [e] from h] at hin
  exact mem_singleton.mp hin

theorem unread_here (h : Sole map name e) : Unread serde (.mapping map) [] name ↔ serde.action_def e.2 = none := by
  constructor
  · rintro ⟨map', hbelow, e', he', hname, hread⟩
    cases hbelow with
    | here =>
      rw [← h.eq he' hname]
      exact hread
  · intro hread
    exact ⟨map, .here _, e, h.mem.1, h.mem.2, hread⟩

theorem unread_deeper {m : Mapping} {k s : Value} {first : String} (h : Sole map first (k, .mapping m))
    (hs : get m "actions" = some s) : Unread serde (.mapping map) (first :: names) name ↔ Unread serde s names name := by
  constructor
  · rintro ⟨map', hbelow, hrest⟩
    cases hbelow with
    | deeper he hname hs' hbelow =>
      have heq := h.eq he hname
      obtain rfl := Value.mapping.inj (Prod.mk.inj heq).2
      obtain rfl := some.inj (hs'.symm.trans hs)
      exact ⟨map', hbelow, hrest⟩
  · rintro ⟨map', hbelow, hrest⟩
    exact ⟨map', .deeper h.mem.1 h.mem.2 hs hbelow, hrest⟩

/-- An entry is loaded unless it, or one on the way to it, does not read. -/
theorem Told.find_none {s : Value} (h : Told s names name v) :
    find (fun name => (actions serde s)[name]?) names name = none
      ↔ ∃ names' name', names' ++ [name'] <+: names ++ [name] ∧ Unread serde s names' name' := by
  induction h with
  | @here map name e he =>
    rw [find, actions_get he, from_value_eq_none, ← unread_here he]
    constructor
    · intro hread
      exact ⟨[], name, prefix_rfl, hread⟩
    · rintro ⟨names', name', hpre, hread⟩
      cases names' with
      | nil =>
        obtain rfl := (cons_prefix_cons.mp hpre).1
        exact hread
      | cons n names' => exact absurd (prefix_nil.mp (cons_prefix_cons.mp hpre).2) (by simp)
  | @deeper map m k s v first last names he hs _ ih =>
    rw [find, actions_get he]
    have hfirst : from_value serde (.mapping m) = none ↔ Unread serde (.mapping map) [] first := by
      rw [from_value_eq_none, unread_here he]
    constructor
    · intro hnone
      rcases hread : from_value serde (.mapping m) with _ | def_
      · exact ⟨[], first, by simp, hfirst.mp hread⟩
      · rw [hread, bind_some, from_value_actions hs hread] at hnone
        obtain ⟨names', name', hpre, hunread⟩ := ih.mp hnone
        exact ⟨first :: names', name', cons_prefix_cons.mpr ⟨rfl, hpre⟩, (unread_deeper he hs).mpr hunread⟩
    · rintro ⟨names', name', hpre, hunread⟩
      rcases hread : from_value serde (.mapping m) with _ | def_
      · rfl
      · rw [bind_some, from_value_actions hs hread]
        cases names' with
        | nil =>
          obtain rfl := (cons_prefix_cons.mp hpre).1
          exact nomatch (hfirst.mpr hunread).symm.trans hread
        | cons n names' =>
          obtain ⟨rfl, hrest⟩ := cons_prefix_cons.mp hpre
          exact ih.mpr ⟨names', name', hrest, (unread_deeper he hs).mp hunread⟩

/-- An entry that is told by its path is left out just when a problem is reported for it or for an
entry that it is below. -/
def EntriesExplained (serde : Serde α) (doc : Value) : Prop :=
  ∀ sect names name v, ToldAt doc sect names name v →
    (LeftOut serde doc sect names name
      ↔ ∃ names' name', names' ++ [name'] <+: names ++ [name] ∧ Explained serde doc sect names' name')

/-- A problem is reported for a section of another shape. -/
def SectionsExplained (serde : Serde α) (doc : Value) : Prop :=
  ∀ sect names v, SectionAt doc sect names v → v ≠ .null → (∀ map, v ≠ .mapping map) →
    ∃ p ∈ dropped_actions serde doc, p.path = section_path sect names

/-- Every section is a map, or empty, and all of its entries read. -/
def AllLoad (serde : Serde α) (doc : Value) : Prop :=
  ∀ sect names v, SectionAt doc sect names v →
    v = .null ∨ ∃ map, v = .mapping map ∧ ∀ e ∈ map, (key_text e.1).isSome ∧ (from_value serde e.2).isSome

theorem entriesExplained (serde : Serde α) (doc : Value) : EntriesExplained serde doc := by
  rintro sect names name v ⟨root, s, rfl, hsect, hs, htold⟩
  have hload : load serde (.mapping root) sect = actions serde s := by
    rw [load, hs]
  have hexplained : ∀ names name, Explained serde (.mapping root) sect names name ↔ Unread serde s names name := by
    intro names name
    rw [explained_iff]
    constructor
    · rintro ⟨map, ⟨root', s', heq, -, hs', hbelow⟩, hunread⟩
      obtain rfl := Value.mapping.inj heq
      obtain rfl := some.inj (hs'.symm.trans hs)
      exact ⟨map, hbelow, hunread⟩
    · rintro ⟨map, hbelow, hunread⟩
      exact ⟨map, ⟨root, s, rfl, hsect, hs, hbelow⟩, hunread⟩
  simp only [hexplained]
  rw [LeftOut, hload]
  exact htold.find_none

theorem sectionsExplained (serde : Serde α) (doc : Value) : SectionsExplained serde doc := by
  rintro sect names v ⟨root, s, hdoc, hsect, hs, hbelow⟩ hnull hmap
  obtain ⟨p, hp, hpath⟩ := @problem_for_section α serde s sect [] names v hbelow hnull hmap
  exact ⟨p, mem_dropped_actions.mpr ⟨root, s, sect, hdoc, hsect, hs, hp⟩, hpath⟩

theorem no_problem_of_allLoad (h : AllLoad serde doc) : dropped_actions serde doc = [] := by
  rw [eq_nil_iff_forall_not_mem]
  intro p hp
  obtain ⟨root, s, sect, hdoc, hsect, hs, hp⟩ := mem_dropped_actions.mp hp
  rcases problem_of sect s [] hp with ⟨below, w, hbelow, hnull, hmap, -⟩ | ⟨below, map, e, name, rest, hbelow, he, -, hread, -⟩
  · rcases h sect below w ⟨root, s, hdoc, hsect, hs, hbelow⟩ with hw | ⟨map, hw, -⟩
    · exact hnull hw
    · exact hmap map hw
  · rcases h sect below _ ⟨root, s, hdoc, hsect, hs, hbelow⟩ with hw | ⟨map', hw, hall⟩
    · exact nomatch hw
    · obtain rfl := Value.mapping.inj hw
      have hsome := (hall e he).2
      rw [from_value_eq_none.mpr hread] at hsome
      cases hsome

end

/-- Whatever reads and whatever is said of it, each entry that is left out of what is loaded is
explained, by what is said of it or of an entry that it is below, and only those are. -/
theorem dropped_explained (serde : Serde α) (doc : Value) :
    EntriesExplained serde doc ∧ SectionsExplained serde doc ∧ (AllLoad serde doc → dropped_actions serde doc = []) :=
  ⟨entriesExplained serde doc, sectionsExplained serde doc, no_problem_of_allLoad⟩

/-- What reads commands: text, or a map whose `cmd` is text when it has one. -/
def commands : Serde String where
  action_def v := match v with
    | .string s => some s
    | .mapping m => match get m "cmd" with
      | some (.string s) => some s
      | some _ => none
      | none => some ""
    | _ => none
  action_full key v := match key, v with
    | .string "cmd", .sequence _ => some "expected text, found a list"
    | _, _ => none
  input_def _ := false
  input_field _ _ := none
  input_option _ := false

/-- A menu whose own command does not read, with an action that does, and another action. -/
def menu : Mapping :=
  [(.string "deploy", .mapping [(.string "cmd", .sequence [.number "1"]), (.string "actions", .mapping [(.string "prod", .string "x")])]),
    (.string "build", .string "make")]

def menu_doc : Value := .mapping [(.string "actions", .mapping menu)]

theorem prod_told : ToldAt menu_doc "actions" ["deploy"] "prod" (.string "x") := by
  refine ⟨_, _, rfl, by decide, by rfl, .deeper (by rfl) (by rfl) ?_⟩
  exact @Told.here [(.string "prod", .string "x")] "prod" (.string "prod", .string "x") (by rfl)

theorem menu_problems : dropped_actions commands menu_doc = [⟨["actions", "deploy", "cmd"], "expected text, found a list"⟩] := by
  decide +kernel

/-- The action below is left out, for what is said of the menu. -/
theorem prod_explained :
    LeftOut commands menu_doc "actions" ["deploy"] "prod"
      ↔ ∃ names' name', names' ++ [name'] <+: ["deploy", "prod"] ∧ Explained commands menu_doc "actions" names' name' :=
  (dropped_explained commands menu_doc).1 "actions" ["deploy"] "prod" _ prod_told

/-- And nothing is said at its path. -/
theorem action_below_dropped :
    ToldAt menu_doc "actions" ["deploy"] "prod" (.string "x") ∧ LeftOut commands menu_doc "actions" ["deploy"] "prod"
      ∧ ¬ Explained commands menu_doc "actions" ["deploy"] "prod" := by
  refine ⟨prod_told, ?_, ?_⟩
  · rw [LeftOut, find]
    have hnone : (load commands menu_doc "actions")["deploy"]? = none := by
      have hload : load commands menu_doc "actions" = actions commands (.mapping menu) := rfl
      rw [hload, @actions_get _ commands menu "deploy" _ (by rfl)]
      exact from_value_eq_none.mpr rfl
    rw [hnone]
    rfl
  · rintro ⟨p, hp, rest, -, hpath⟩
    rw [menu_problems] at hp
    obtain rfl := mem_singleton.mp hp
    exact absurd hpath (by simp [section_path])

end Lpm.Config
