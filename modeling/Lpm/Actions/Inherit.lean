/-
What an entry takes from the entries above it, and what `keepInherited` writes.

A setting is a working directory, a port conflict rule, a type or one variable of the
environment. What an entry itself says of a setting is a steady reading, and what it has is
what the nearest entry on the way says (`given`); `inherited_at_get` shows that
`inheritedAt` computes this for every entry its path finds.
-/
import Lpm.Actions.Lookup

set_option autoImplicit false

namespace Lpm.Actions

open List Option

/-! ## Settings -/

inductive Setting where
  | field (name : String) (h : name ∈ INHERITED_FIELDS)
  | env (name : String)

/-- The value of a setting among what was collected. -/
def Inherited.get (found : Inherited) : Setting → Option Yaml
  | .field name _ => (found.fields.get name).map Yaml.str
  | .env name => found.env.get name

/-- The text an entry gives for a field: an empty one is none. -/
def own_field (node : Yaml) (field : String) : Option String :=
  match node.get field with
  | some (.str value) => if value ≠ "" then some value else none
  | _ => none

/-- The environment an entry has itself. -/
def own_env (node : Yaml) : Items Yaml := ((node.get "env").bind Yaml.pairs).getD []

/-- What an entry says of a setting. The last of two variables with one name counts. -/
def own (s : Setting) (node : Yaml) : Option Yaml :=
  match s with
  | .field name _ => (own_field node name).map Yaml.str
  | .env name => Items.get name (own_env node).reverse

/-! ## One entry -/

section
variable {found : Inherited} {node : Yaml} {name : String}

/-- A fold of writes gives the last value, or what stood before. -/
theorem get_take_env (found env : Items Yaml) :
    (take_env found env).get name = (Items.get name env.reverse).or (found.get name) := by
  induction env generalizing found with
  | nil => rfl
  | cons item env ih =>
    obtain ⟨k, v⟩ := item
    have hstep : take_env found ((k, v) :: env) = take_env (found.set k v) env := rfl
    rw [hstep, ih, reverse_cons, Items.get_append, Items.get_set]
    rcases Items.get name env.reverse with _ | w
    · rw [none_or, none_or]
      by_cases hk : name = k
      · rw [if_pos hk, hk, Items.get_cons_self]
        rfl
      · rw [if_neg hk, Items.get_cons_other (Ne.symm hk)]
        rfl
    · rfl

theorem take_field_eq (fields : Items Yaml) (found : Items String) (field : String) :
    take_field fields found field
      = ((own_field (.map fields) field).map fun value => found.set field value).getD found := by
  have hnode : Yaml.get field (.map fields) = fields.get field := rfl
  rw [take_field, own_field, hnode]
  rcases fields.get field with _ | (value | text | list | inner)
  · rfl
  · simp only
    split_ifs
    · rfl
    · rfl
  · rfl
  · rfl
  · rfl

theorem get_take_field {fields : Items Yaml} (found : Items String) (field : String) :
    (take_field fields found field).get name
      = if name = field then (own_field (.map fields) name).or (found.get name) else found.get name := by
  rw [take_field_eq]
  by_cases hname : name = field
  · rw [if_pos hname, hname]
    rcases own_field (.map fields) field with _ | value
    · rfl
    · exact Items.get_set_self
  · rw [if_neg hname]
    rcases own_field (.map fields) field with _ | value
    · rfl
    · exact Items.get_set_other hname

theorem get_take_fields {fields : Items Yaml} (names : List String) (found : Items String) :
    (names.foldl (take_field fields) found).get name
      = if name ∈ names then (own_field (.map fields) name).or (found.get name) else found.get name := by
  induction names generalizing found with
  | nil => rfl
  | cons field names ih =>
    rw [foldl_cons, ih, get_take_field]
    by_cases hname : name = field
    · have hmem : name ∈ field :: names := by
        rw [hname]
        exact mem_cons_self
      rw [if_pos hname, if_pos hmem]
      split_ifs
      · rcases own_field (.map fields) name with _ | v
        · rfl
        · rfl
      · rfl
    · rw [if_neg hname]
      by_cases hmem : name ∈ names
      · rw [if_pos hmem, if_pos (mem_cons_of_mem field hmem)]
      · rw [if_neg hmem, if_neg (by simp [hname, hmem])]

/-- One entry of the way: what it says, or what stood before. -/
theorem take_from_get (found : Inherited) (node : Yaml) (s : Setting) :
    (take_from found node).get s = (own s node).or (found.get s) := by
  cases node with
  | map fields =>
    cases s with
    | field name h =>
      show ((INHERITED_FIELDS.foldl (take_field fields) found.fields).get name).map Yaml.str = _
      rw [get_take_fields, if_pos h, own, Inherited.get]
      rcases own_field (.map fields) name with _ | v
      · rfl
      · rfl
    | env name =>
      have henv : own_env (.map fields) = ((Items.get "env" fields).bind Yaml.pairs).getD [] := rfl
      rw [own, henv, Inherited.get, Lpm.Actions.take_from, Inherited.get]
      dsimp only
      rcases Items.get "env" fields with _ | (text | text | list | env)
      · rfl
      · rfl
      · rfl
      · rfl
      · exact get_take_env _ _
  | str text => cases s <;> rfl
  | lit text => cases s <;> rfl
  | seq items => cases s <;> rfl

end

/-! ## The way to an entry -/

/-- What the last entry says that says anything, or what stood before. -/
def nearest {α : Type*} (way : List (Option α)) (start : Option α) : Option α :=
  way.foldl (fun found own => own.or found) start

theorem nearest_append {α : Type*} (a b : List (Option α)) (start : Option α) :
    nearest (a ++ b) start = nearest b (nearest a start) := foldl_append

theorem nearest_or {α : Type*} (way : List (Option α)) (start : Option α) :
    nearest way start = (nearest way none).or start := by
  induction way generalizing start with
  | nil => rfl
  | cons own way ih =>
    have hcons : ∀ start, nearest (own :: way) start = nearest way (own.or start) := fun _ => rfl
    rw [hcons, hcons, ih, ih (own.or none)]
    rcases nearest way none with _ | v
    · rcases own with _ | w
      · rfl
      · rfl
    · rfl

variable (s : Setting)

/-- What an entry has of a setting: its section's, or what the nearest entry says. -/
def given (doc : Doc) (place : Place) : Option Yaml :=
  (said_at (own s) doc place).bind fun way => nearest way ((top_level_defaults place.1).get s)

theorem get_foldl_take_from (nodes : List Yaml) (found : Inherited) (s : Setting) :
    (nodes.foldl take_from found).get s = nearest (nodes.map (own s)) (found.get s) := by
  induction nodes generalizing found with
  | nil => rfl
  | cons node nodes ih =>
    rw [foldl_cons, ih, take_from_get]
    rfl

/-- Readings go entry by entry. -/
theorem said_map {β γ : Type*} (g : β → γ) (read : Yaml → β) (items : Items Yaml) (path : List String) :
    said (fun node => g (read node)) items path = (said read items path).map (List.map g) := by
  induction path generalizing items with
  | nil => rfl
  | cons key rest ih =>
    rw [said_cons, said_cons]
    rcases items.get key with _ | node
    · rfl
    · rw [bind_some, bind_some, ih, Option.map_map, Option.map_map]
      rfl

variable {segs : List String} {nodes : List Yaml}

/-- A walk along a part of a path ends at the entry there. -/
theorem walk_take {node : Yaml}
    (h : said id (children node) segs = some nodes) (i : ℕ) (hi : i ≤ segs.length) :
    ∃ value, walk node (segs.take i) = some value ∧ (node :: nodes)[i]? = some value := by
  induction segs generalizing node nodes i with
  | nil =>
    obtain rfl : i = 0 := by simpa using hi
    exact ⟨node, rfl, rfl⟩
  | cons seg segs ih =>
    cases i with
    | zero => exact ⟨node, rfl, rfl⟩
    | succ i =>
      rw [said_cons] at h
      obtain ⟨child, hchild, hbelow⟩ := bind_eq_some_iff.mp h
      obtain ⟨below, hsaid, rfl⟩ := map_eq_some_iff.mp hbelow
      obtain ⟨value, hwalk, hget⟩ := ih hsaid i (by simpa using hi)
      refine ⟨value, ?_, hget⟩
      rcases hpeek : peek_children_of node with _ | acts
      · rw [children, hpeek] at hchild
        cases hchild
      · rw [children_of_peek hpeek] at hchild
        rw [take_succ_cons, walk, hpeek, bind_some, hchild, bind_some, hwalk]

/-- The entries on the way, as `findEntryByPath` finds them one by one. -/
theorem find_take {doc : Doc} {sect top : String}
    (hseen : Seen doc (sect, top :: segs)) (hsaid : said_at id doc (sect, top :: segs) = some nodes) :
    (∃ node, find_top_entry doc top = some (sect, node))
      ∧ ∀ i ≤ segs.length, ∃ e, find_entry_by_path doc ((top :: segs).take (i + 1)) = some e
        ∧ nodes[i]? = some e.value := by
  rw [said_at, said_cons] at hsaid
  obtain ⟨node, hget, hbelow⟩ := bind_eq_some_iff.mp hsaid
  obtain ⟨below, hsaid', rfl⟩ := map_eq_some_iff.mp hbelow
  have htop := find_top_of_seen hseen hget
  refine ⟨⟨node, htop⟩, fun i hi => ?_⟩
  obtain ⟨value, hwalk, hat⟩ := walk_take hsaid' i hi
  have hfind : find_entry_by_path doc ((top :: segs).take (i + 1))
      = some ⟨sect, (top :: segs.take i).dropLast, (top :: segs.take i).getLastD top, value⟩ := by
    rw [take_succ_cons, find_entry_by_path, htop, bind_some, hwalk]
    rfl
  exact ⟨_, hfind, hat⟩

/-- A loop over the positions of a list is a loop over the list. -/
theorem foldl_range {σ α : Type*} (turn : σ → α → σ) (g : σ → ℕ → σ) (l : List α)
    (h : ∀ i a, l[i]? = some a → ∀ found, g found i = turn found a) (start : σ) :
    (List.range l.length).foldl g start = l.foldl turn start := by
  induction l using List.reverseRecOn with
  | nil => rfl
  | append_singleton l a ih =>
    have hlast : (l ++ [a])[l.length]? = some a := by simp
    have hbefore : ∀ i b, l[i]? = some b → ∀ found, g found i = turn found b := by
      intro i b hb
      obtain ⟨hi, -⟩ := List.getElem?_eq_some_iff.mp hb
      exact h i b (by rw [getElem?_append_left hi, hb])
    rw [length_append, length_singleton, range_succ, foldl_append, foldl_append,
      ih hbefore, foldl_cons, foldl_nil, foldl_cons, foldl_nil, h _ _ hlast]

/-- `inheritedAt` gives an entry that its path finds what it has. -/
theorem inherited_at_get {doc : Doc} {sect top : String}
    (hseen : Seen doc (sect, top :: segs)) (hsaid : said_at id doc (sect, top :: segs) = some nodes) (s : Setting) :
    (inherited_at doc (top :: segs)).get s = given s doc (sect, top :: segs) := by
  obtain ⟨⟨node, htop⟩, hfind⟩ := find_take hseen hsaid
  have hlength : nodes.length = (top :: segs).length := length_said hsaid
  have hloop : inherited_at doc (top :: segs) = nodes.foldl take_from (top_level_defaults sect) := by
    unfold inherited_at
    simp only [headD_cons, htop]
    rw [← hlength]
    apply foldl_range
    intro i value hvalue found
    obtain ⟨hi, -⟩ := List.getElem?_eq_some_iff.mp hvalue
    rw [hlength, length_cons] at hi
    obtain ⟨e, he, hat⟩ := hfind i (by omega)
    rw [hvalue] at hat
    rw [he, some.inj hat]
  have hway : said_at (own s) doc (sect, top :: segs) = some (nodes.map (own s)) := by
    have hmap := said_map (own s) id ((section_map doc sect).getD []) (top :: segs)
    rw [said_at] at hsaid
    rw [hsaid] at hmap
    exact hmap
  rw [hloop, get_foldl_take_from, given, hway]
  rfl

/-! ## What is written onto a moved entry -/

theorem steady_own : Steady (own s) where
  set fields field value h := by
    have hget : ∀ name, name ∉ ["actions", "position"] →
        Yaml.get name (.map (fields.set field value)) = Yaml.get name (.map fields) := by
      intro name hname
      exact Items.get_set_other fun heq => hname (heq ▸ h)
    cases s with
    | field name hfield =>
      have hname : name ∉ ["actions", "position"] := by
        simp only [INHERITED_FIELDS, mem_cons, not_mem_nil, or_false] at hfield
        rcases hfield with rfl | rfl | rfl <;> decide
      rw [own, own, own_field, own_field, hget name hname]
    | env name => rw [own, own, own_env, own_env, hget "env" (by decide)]
  delete fields field h := by
    have hget : ∀ name, name ∉ "actions" :: PLACEMENT_KEYS →
        Yaml.get name (.map (fields.delete field)) = Yaml.get name (.map fields) := by
      intro name hname
      exact Items.get_delete_other fun heq => hname (heq ▸ h)
    cases s with
    | field name hfield =>
      have hname : name ∉ "actions" :: PLACEMENT_KEYS := by
        simp only [INHERITED_FIELDS, mem_cons, not_mem_nil, or_false] at hfield
        rcases hfield with rfl | rfl | rfl <;> decide
      rw [own, own, own_field, own_field, hget name hname]
    | env name => rw [own, own, own_env, own_env, hget "env" (by decide)]
  widened node := by
    cases s with
    | field name h =>
      simp only [INHERITED_FIELDS, mem_cons, not_mem_nil, or_false] at h
      rcases h with rfl | rfl | rfl <;> cases node <;> rfl
    | env name => cases node <;> rfl

/-- A field that stands in an entry with no text, so that it says nothing and is still taken. -/
def blank (node : Yaml) : Bool :=
  match s with
  | .field name _ => (widened (some node)).has name && (own_field node name).isNone
  | .env _ => false

/-- What `inheritedAt` collects: no empty text, and no variable twice. -/
structure Proper (found : Inherited) : Prop where
  text : ∀ name, found.fields.get name ≠ some ""
  once : found.env.keys.Nodup

theorem get_keep_fields (had : Inherited) (names : List String) (fields : Items Yaml) (name : String) :
    (names.foldl (keep_field had) fields).get name
      = if name ∈ names then (fields.get name).or ((had.fields.get name).map Yaml.str) else fields.get name := by
  -- one field first: it is written where it is missing and was inherited
  have hone : ∀ (fields : Items Yaml) field, (keep_field had fields field).get name
      = if name = field then (fields.get name).or ((had.fields.get name).map Yaml.str) else fields.get name := by
    intro fields field
    unfold keep_field
    by_cases hname : name = field
    · rw [if_pos hname, hname]
      rcases hget : had.fields.get field with _ | value
      · rw [map_none, or_none]
      · simp only
        split_ifs with hhas
        · obtain ⟨v, hv⟩ := isSome_iff_exists.mp hhas
          rw [hv]
          rfl
        · rw [Bool.not_eq_true, Items.has_eq_false] at hhas
          rw [hhas, Items.get_set_self]
          rfl
    · rw [if_neg hname]
      split
      · split_ifs
        · rfl
        · exact Items.get_set_other hname
      · rfl
  induction names generalizing fields with
  | nil => rfl
  | cons field names ih =>
    rw [foldl_cons, ih, hone]
    by_cases hname : name = field
    · have hmem : name ∈ field :: names := by
        rw [hname]
        exact mem_cons_self
      rw [if_pos hname, if_pos hmem]
      split_ifs
      · rcases fields.get name with _ | v
        · rw [none_or, Option.or_self]
        · rfl
      · rfl
    · rw [if_neg hname]
      by_cases hmem : name ∈ names
      · rw [if_pos hmem, if_pos (mem_cons_of_mem field hmem)]
      · rw [if_neg hmem, if_neg (by simp [hname, hmem])]

/-- The variables that are written go behind an entry's own, which keep their values. -/
theorem get_keep_variables (env own : Items Yaml) (name : String) :
    Items.get name (env.foldl keep_variable own).reverse
      = if own.has name = true then Items.get name own.reverse else env.get name := by
  induction env generalizing own with
  | nil =>
    rw [foldl_nil]
    split_ifs with hhas
    · rfl
    · rw [Bool.not_eq_true, ← Items.has_reverse, Items.has_eq_false] at hhas
      rw [hhas, Items.get_nil]
  | cons item env ih =>
    obtain ⟨k, v⟩ := item
    rw [foldl_cons, ih, keep_variable]
    by_cases hk : own.has k = true
    · rw [if_pos hk]
      split_ifs with hhas
      · rfl
      · rw [Items.get_cons_other]
        rintro rfl
        exact hhas hk
    · rw [if_neg hk]
      rw [Bool.not_eq_true, Items.has_eq_false] at hk
      rw [Items.has, Items.get_set, Items.set_new hk, reverse_append, reverse_singleton,
        singleton_append]
      by_cases hname : name = k
      · rw [if_pos hname, hname, Items.get_cons_self, Items.get_cons_self, Items.has, hk]
        rfl
      · rw [if_neg hname, Items.get_cons_other (Ne.symm hname), Items.get_cons_other (Ne.symm hname)]
        rfl

theorem same_value_eq {a b : Yaml} (h : same_value a b = true) : a = b := by
  cases a <;> cases b <;> simp_all [same_value]

section
variable {had gets : Inherited} {node : Yaml}

/-- The fields of a kept node: its own, then what it had and would lose. -/
theorem get_kept_field (had gets : Inherited) (node : Yaml) {name : String} (h : name ∈ INHERITED_FIELDS) :
    own_field (kept_node had gets node) name
      = own_field (.map ((lost_fields had gets).foldl (keep_field had) (widened (some node)))) name := by
  unfold kept_node
  split_ifs with hlost
  · rw [Bool.and_eq_true, List.isEmpty_iff] at hlost
    have hsame := (steady_own (.field name h)).widened node
    rw [hlost.1, foldl_nil]
    exact (map_injective (fun _ _ => Yaml.str.inj) hsame).symm
  · have hne : name ≠ "env" := by
      rintro rfl
      exact absurd h (by decide)
    unfold keep_env
    split_ifs
    · rfl
    · have hget : ∀ (fields : Items Yaml) (env : Yaml),
          Yaml.get name (.map (fields.set "env" env)) = Yaml.get name (.map fields) := fun fields env =>
        Items.get_set_other hne
      rw [own_field, own_field, hget]

/-- The environment of a kept node: its own, then what it had and would lose. -/
theorem own_env_kept (had gets : Inherited) (node : Yaml) :
    own_env (kept_node had gets node) = (lost_env had gets).foldl keep_variable (own_env node) := by
  have hwidened : own_env (.map (widened (some node))) = own_env node := by cases node <;> rfl
  have hfields : own_env (.map ((lost_fields had gets).foldl (keep_field had) (widened (some node)))) = own_env node := by
    have hget : Yaml.get "env" (.map ((lost_fields had gets).foldl (keep_field had) (widened (some node))))
        = Yaml.get "env" (.map (widened (some node))) := by
      show Items.get "env" (List.foldl _ _ _) = Items.get "env" _
      rw [get_keep_fields, if_neg]
      intro hmem
      exact absurd (mem_of_mem_filter hmem) (by decide)
    rw [← hwidened, own_env, own_env, hget]
  unfold kept_node
  split_ifs with hlost
  · rw [Bool.and_eq_true, List.isEmpty_iff, List.isEmpty_iff] at hlost
    rw [hlost.2]
    rfl
  · unfold keep_env
    split_ifs with henv
    · rw [List.isEmpty_iff] at henv
      rw [henv, hfields]
      rfl
    · rw [← hfields]
      show ((Items.get "env" (Items.set "env" _ _)).bind Yaml.pairs).getD [] = _
      rw [Items.get_set_self]
      rfl

variable {s : Setting}

/-- What an entry says itself is left as it is. -/
theorem own_kept_some {v : Yaml} (h : own s node = some v) : own s (kept_node had gets node) = some v := by
  cases s with
  | field name hname =>
    obtain ⟨text, htext, rfl⟩ := map_eq_some_iff.mp h
    rw [own, get_kept_field had gets node hname]
    have hwidened : Items.get name (widened (some node)) = Yaml.get name node := by
      cases node with
      | map fields => rfl
      | str s => exact nomatch htext
      | lit s => exact nomatch htext
      | seq items => exact nomatch htext
    have hget : ∃ value, Yaml.get name node = some value := by
      unfold own_field at htext
      rcases hvalue : Yaml.get name node with _ | value
      · rw [hvalue] at htext
        exact nomatch htext
      · exact ⟨value, rfl⟩
    obtain ⟨value, hvalue⟩ := hget
    have hkept : Yaml.get name (.map ((lost_fields had gets).foldl (keep_field had) (widened (some node))))
        = Yaml.get name node := by
      show Items.get name (List.foldl _ _ _) = _
      rw [get_keep_fields, hwidened, hvalue]
      split_ifs <;> rfl
    rw [own_field, hkept, ← own_field, htext]
    rfl
  | env name =>
    rw [own, own_env_kept, get_keep_variables, ← Items.has_reverse]
    change Items.get name (own_env node).reverse = some v at h
    rw [Items.has, h]
    rfl

/-- What an entry had from above it still has, of itself or from its new place. -/
theorem own_kept_or {v : Yaml} (hproper : Proper had) (h : own s node = none)
    (hblank : blank s node = false) (hhad : had.get s = some v) :
    (own s (kept_node had gets node)).or (gets.get s) = some v := by
  cases s with
  | field name hname =>
    obtain ⟨text, htext, rfl⟩ := map_eq_some_iff.mp hhad
    have hnone : own_field node name = none := map_eq_none_iff.mp h
    have hget : Items.get name (widened (some node)) = none := by
      rw [blank, hnone, isNone_none, Bool.and_true, Items.has_eq_false] at hblank
      exact hblank
    have hne : text ≠ "" := by
      rintro rfl
      exact hproper.text name htext
    rw [own, get_kept_field had gets node hname, own_field]
    have hkept : Yaml.get name (.map ((lost_fields had gets).foldl (keep_field had) (widened (some node))))
        = if name ∈ lost_fields had gets then some (Yaml.str text) else none := by
      show Items.get name (List.foldl _ _ _) = _
      rw [get_keep_fields, hget, htext]
      rfl
    rw [hkept]
    by_cases hlost : name ∈ lost_fields had gets
    · rw [if_pos hlost]
      simp only [if_pos hne]
      rfl
    · rw [if_neg hlost]
      -- a field that is not lost is given again
      have hgets : gets.fields.get name = some text := by
        by_contra hdiffers
        apply hlost
        rw [lost_fields, mem_filter]
        refine ⟨hname, ?_⟩
        rw [htext, any_some, decide_eq_true hne, decide_eq_true hdiffers]
        rfl
      rw [Inherited.get, hgets]
      rfl
  | env name =>
    change Items.get name (own_env node).reverse = none at h
    change had.env.get name = some v at hhad
    have hhas : (own_env node).has name = false := by
      rw [← Items.has_reverse, Items.has_eq_false, h]
    have hlost : (lost_env had gets).get name
        = (some v).filter fun v => !(gets.env.get name).any fun value => same_value value v := by
      rw [lost_env, Items.get_filter_nodup _ hproper.once, hhad]
    rw [own, own_env_kept, get_keep_variables, if_neg (by rw [hhas]; simp), hlost, Inherited.get, filter_some]
    split_ifs with hdiffers
    · rfl
    · rw [Bool.not_eq_true, Bool.not_eq_false'] at hdiffers
      rcases hgets : gets.env.get name with _ | w
      · rw [hgets] at hdiffers
        exact nomatch hdiffers
      · rw [hgets] at hdiffers
        rw [none_or, same_value_eq hdiffers]

/-- A field that stands in an entry with no text is not written. -/
theorem own_kept_blank (hblank : blank s node = true) : own s (kept_node had gets node) = none := by
  cases s with
  | field name hname =>
    rw [blank, Bool.and_eq_true, isNone_iff_eq_none] at hblank
    have hsame : own_field (.map (widened (some node))) name = none := by
      have hw := (steady_own (.field name hname)).widened node
      rw [own, own, hblank.2, map_none, map_eq_none_iff] at hw
      exact hw
    obtain ⟨value, hvalue⟩ := isSome_iff_exists.mp hblank.1
    rw [own, get_kept_field had gets node hname]
    have hkept : Yaml.get name (.map ((lost_fields had gets).foldl (keep_field had) (widened (some node))))
        = Yaml.get name (.map (widened (some node))) := by
      show Items.get name (List.foldl _ _ _) = Items.get name _
      rw [get_keep_fields, hvalue]
      split_ifs <;> rfl
    rw [own_field, hkept, ← own_field, hsame]
    rfl
  | env name => exact nomatch hblank

theorem own_none_of_blank (hblank : blank s node = true) : own s node = none := by
  cases s with
  | field name hname =>
    rw [blank, Bool.and_eq_true, isNone_iff_eq_none] at hblank
    rw [own, hblank.2]
    rfl
  | env name => exact nomatch hblank

end

/-! ## What `inheritedAt` collects -/

theorem proper_defaults (sect : String) : Proper (top_level_defaults sect) := by
  unfold top_level_defaults
  split_ifs
  · refine ⟨fun name => ?_, nodup_nil⟩
    show Items.get name [("type", "terminal")] ≠ some ""
    by_cases hname : name = "type"
    · rw [hname]
      decide
    · rw [Items.get_cons_other (Ne.symm hname)]
      exact nofun
  · exact ⟨fun name => by simp, nodup_nil⟩

theorem Proper.take_from {found : Inherited} (h : Proper found) (node : Yaml) : Proper (take_from found node) := by
  cases node with
  | map fields =>
    refine ⟨fun name => ?_, ?_⟩
    · show Items.get name (INHERITED_FIELDS.foldl (take_field fields) found.fields) ≠ some ""
      rw [get_take_fields]
      split_ifs
      · have hown : own_field (.map fields) name ≠ some "" := by
          rw [own_field]
          split
          · split_ifs with hne
            · exact fun heq => hne (some.inj heq)
            · simp
          · simp
        rcases hvalue : own_field (.map fields) name with _ | value
        · exact h.text name
        · rw [hvalue] at hown
          exact hown
      · exact h.text name
    · have htake : ∀ (env found : Items Yaml), found.keys.Nodup → (take_env found env).keys.Nodup := by
        intro env
        induction env with
        | nil => exact fun _ hf => hf
        | cons item env ih => exact fun _ hf => ih _ (Items.nodup_set hf)
      unfold Lpm.Actions.take_from
      dsimp only
      split
      · exact htake _ _ h.once
      · exact h.once
  | str text => exact h
  | lit text => exact h
  | seq items => exact h

theorem proper_inherited_at (doc : Doc) (path : List String) : Proper (inherited_at doc path) := by
  unfold inherited_at
  refine foldlRecOn _ _ ?_ fun found h i _ => ?_
  · split
    · exact proper_defaults _
    · exact ⟨fun name => by simp, nodup_nil⟩
  · split
    · exact h.take_from _
    · exact h

end Lpm.Actions
