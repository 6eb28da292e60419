/-
The actions of a config document: `actionConfig.ts` and the lookups of
`actionsStructural.ts`.

A document is a YAML map. Its `actions` and `terminals` sections hold entries by key, and
an entry that is a map may hold more entries under `actions`. A path is the keys from a
section down; in the source it is one string, with `:` between the keys.
-/
import Lpm.Lib.Items

set_option autoImplicit false

namespace Lpm.Actions

/-! ## Nodes -/

/-- A YAML node. A scalar that is no text (a number, a boolean, null) is kept by its text. -/
inductive Yaml where
  | str (s : String)
  | lit (s : String)
  | seq (items : List Yaml)
  | map (items : List (String × Yaml))

/-- The pairs of a node for which `isMap` holds. -/
def Yaml.pairs : Yaml → Option (Items Yaml)
  | .map items => some items
  | _ => none

/-- `get(key, true)` of a node that may be no map. -/
def Yaml.get (key : String) (node : Yaml) : Option Yaml := node.pairs.bind (Items.get key)

variable (node : Yaml)

/-- `peekChildrenOf`. -/
def peek_children_of : Option (Items Yaml) := (node.get "actions").bind Yaml.pairs

def children : Items Yaml := (peek_children_of node).getD []

/-- The command of an entry: a text is one, and a map has it under `cmd`. -/
def own_cmd : Yaml → Option String
  | .str s => some s
  | .map items =>
    match Items.get "cmd" items with
    | some (.str s) => some s
    | _ => none
  | _ => none

/-- `hasDefaultCmd`. -/
def has_default_cmd : Bool := (own_cmd node).isSome

/-- What `trim` takes away. -/
def is_space (c : Char) : Bool :=
  [0x9, 0xA, 0xB, 0xC, 0xD, 0x20, 0xA0, 0x1680, 0x2028, 0x2029, 0x202F, 0x205F, 0x3000, 0xFEFF].contains c.toNat
    || (0x2000 ≤ c.toNat && c.toNat ≤ 0x200A)

/-- `hasActionBody`. -/
def has_action_body : Yaml → Bool
  | .str s => !s.toList.all is_space
  | .map items => Items.has "cmd" items || Items.has "actions" items
  | _ => false

/-! ## Sections and paths -/

abbrev Doc := Items Yaml

def ACTION_SECTIONS : List String := ["actions", "terminals"]

variable (doc : Doc)

/-- A section that is a map. -/
def section_map (section_ : String) : Option (Items Yaml) :=
  (doc.get section_).bind Yaml.pairs

/-- `findActionSection`: the first section that has the key. -/
def find_action_section (key : String) : Option (String × Items Yaml) :=
  ACTION_SECTIONS.findSome? fun name =>
    (section_map doc name).bind fun node => if node.has key then some (name, node) else none

/-- An entry and where it stands: its section, the path of the entry that holds it, and its
key. The path is empty for an entry of the section itself. -/
structure PathEntry where
  sect : String
  above : List String
  key : String
  value : Yaml

/-- `findTopEntry`. -/
def find_top_entry (key : String) : Option (String × Yaml) :=
  (find_action_section doc key).bind fun found => (found.2.get key).map fun value => (found.1, value)

/-- Down through each node's `actions`. -/
def walk : Yaml → List String → Option Yaml
  | node, [] => some node
  | node, seg :: segs =>
    (peek_children_of node).bind fun acts => (acts.get seg).bind fun child => walk child segs

/-- `findEntryByPath`. -/
def find_entry_by_path : List String → Option PathEntry
  | [] => none
  | top :: segs =>
    (find_top_entry doc top).bind fun found => (walk found.2 segs).map fun value =>
      { sect := found.1, above := (top :: segs).dropLast, key := (top :: segs).getLastD top, value }

/-- The entries that the entry at a path holds. -/
def items_at : List String → Items Yaml → Items Yaml
  | [], items => items
  | key :: rest, items =>
    match items.get key with
    | some node => items_at rest (children node)
    | none => []

variable (sect : String)

/-- The same in a section of a document. -/
def held_at (path : List String) : Items Yaml :=
  items_at path ((section_map doc sect).getD [])

/-! ## Changes in place -/

/-- Change the entries that the entry at a path holds. -/
def update_items (f : Items Yaml → Items Yaml) : List String → Items Yaml → Items Yaml
  | [], items => f items
  | key :: rest, items =>
    match items.get key with
    | some (.map fields) =>
      match (Items.get "actions" fields).bind Yaml.pairs with
      | some acts => items.set key (.map (Items.set "actions" (.map (update_items f rest acts)) fields))
      | none => items
    | _ => items

/-- Change the entries of a section, or of the entry at a path in it. -/
def update (above : List String) (f : Items Yaml → Items Yaml) : Doc :=
  match section_map doc sect with
  | some items => doc.set sect (.map (update_items f above items))
  | none => doc

/-! ## The structural edits

`actionsStructural.ts`. The source holds on to nodes it has found and changes them later. A node that is held on
to is written here as the place it stood at: its section and the path of the entry that
holds it. Taking an entry out leaves every place outside of it as it was; a place inside
of it has left the document, and what is written there is written to no document. -/

/-! ## Errors -/

def conflict_error (key : String) : String :=
  "an action named \"" ++ key ++ "\" already exists at the destination"

def not_here : String := "this menu's items come from another config file"

/-! ## Widening -/

/-- `asMap`: the pairs of the map that stands under a key from now on, made of what stood
there. -/
def widened : Option Yaml → Items Yaml
  | some (.map fields) => fields
  | some (.str s) => [("cmd", .str s)]
  | _ => []

/-! ## What an item takes from above -/

/-- The fields `cwd`, `portConflict` and `type`, and the environment. -/
structure Inherited where
  fields : Items String
  env : Items Yaml

def INHERITED_FIELDS : List String := ["cwd", "portConflict", "type"]

def take_field (node : Items Yaml) (found : Items String) (field : String) : Items String :=
  match node.get field with
  | some (.str value) => if value ≠ "" then found.set field value else found
  | _ => found

def take_env (found : Items Yaml) (env : Items Yaml) : Items Yaml :=
  env.foldl (fun found item => found.set item.1 item.2) found

/-- One turn of the loop of `inheritedAt`. -/
def take_from (found : Inherited) : Yaml → Inherited
  | .map node => {
      fields := INHERITED_FIELDS.foldl (take_field node) found.fields
      env := match Items.get "env" node with
        | some (.map env) => take_env found.env env
        | _ => found.env }
  | _ => found

/-- `topLevelDefaults`. -/
def top_level_defaults : Inherited :=
  { fields := if sect = "terminals" then [("type", "terminal")] else [], env := [] }

/-- `inheritedAt`. -/
def inherited_at (path : List String) : Inherited :=
  let start := match find_top_entry doc (path.headD "") with
    | some (sect, _) => top_level_defaults sect
    | none => { fields := [], env := [] }
  (List.range path.length).foldl (fun found i =>
    match find_entry_by_path doc (path.take (i + 1)) with
    | some entry => take_from found entry.value
    | none => found) start

/-- `===` of two values of an environment: two objects are never the same. -/
def same_value : Yaml → Yaml → Bool
  | .str a, .str b => a = b
  | .lit a, .lit b => a = b && a ≠ "NaN"
  | _, _ => false

/-- The fields that would be lost. -/
def lost_fields (had gets : Inherited) : List String :=
  INHERITED_FIELDS.filter fun field =>
    (had.fields.get field).any fun value => value ≠ "" && gets.fields.get field ≠ some value

/-- The part of the environment that would be lost. -/
def lost_env (had gets : Inherited) : Items Yaml :=
  had.env.filter fun item => !(gets.env.get item.1).any fun value => same_value value item.2

/-- Write a field that the entry does not name itself. -/
def keep_field (had : Inherited) (map : Items Yaml) (field : String) : Items Yaml :=
  match had.fields.get field with
  | some value => if map.has field then map else map.set field (.str value)
  | none => map

/-- Write a variable that the entry does not name itself. -/
def keep_variable (own : Items Yaml) (item : String × Yaml) : Items Yaml :=
  if own.has item.1 then own else own.set item.1 item.2

/-- Write what the entry's own environment does not name. -/
def keep_env (env : Items Yaml) (map : Items Yaml) : Items Yaml :=
  if env.isEmpty then map
  else
    let own := ((map.get "env").bind Yaml.pairs).getD []
    map.set "env" (.map (env.foldl keep_variable own))

/-- `keepInherited`. -/
def keep_inherited (had gets : Inherited) (key : String) (container : Items Yaml) : Items Yaml :=
  let fields := lost_fields had gets
  let env := lost_env had gets
  if fields.isEmpty && env.isEmpty then container
  else
    let map := widened (container.get key)
    container.set key (.map (keep_env env (fields.foldl (keep_field had) map)))

/-! ## Order -/

/-- The pairs of an order that are there, each once, and the pairs that are left. -/
def pick : List String → Items Yaml → Items Yaml × Items Yaml
  | [], left => ([], left)
  | key :: order, left =>
    match left.get key with
    | some value =>
      let (picked, rest) := pick order (left.delete key)
      ((key, value) :: picked, rest)
    | none => pick order left

/-- Write every entry's position into it, from a number on. -/
def stamp : ℕ → Items Yaml → Items Yaml
  | _, [] => []
  | n, (key, value) :: rest =>
    (key, .map (Items.set "position" (.lit (toString n)) (widened (some value)))) :: stamp (n + 1) rest

variable (order : List String)

def reorder (container : Items Yaml) : Items Yaml :=
  let (picked, left) := pick order container
  stamp 1 (picked ++ left)

/-- `reorderMenu`. -/
def reorder_menu (parent_path : List String) (order : List String) : Doc :=
  match find_entry_by_path doc parent_path with
  | some entry =>
    match peek_children_of entry.value with
    | some _ => update doc entry.sect parent_path (reorder order)
    | none => doc
  | none => doc

/-- `positionedOrder`; `true` is behind. -/
def positioned_order (child «over» : String) (after : Bool) :
    Option (List String) :=
  let without := order.filter fun key => key ≠ child
  match without.findIdx? fun key => key = «over» with
  | some i => some (without.insertIdx (if after then i + 1 else i) child)
  | none => none

/-- `arrayMove`. -/
def array_move (i j : ℕ) : List String :=
  match order[i]? with
  | some key => (order.eraseIdx i).insertIdx j key
  | none => order

/-! ## Attaching -/

/-- Put a node under the `actions` of the entry at a key, which is widened for it, and write
onto the node what it would lose. -/
def attach (key leaf : String) (node : Yaml) (had gets : Inherited) (container : Items Yaml) :
    Items Yaml :=
  let fields := widened (container.get key)
  let acts := ((Items.get "actions" fields).bind Yaml.pairs).getD []
  container.set key (.map (Items.set "actions"
    (.map (keep_inherited had gets leaf (acts.set leaf node))) fields))

/-- Whether a place lies in the entry at a path, and goes where that entry goes. -/
def inside (path above : List String) : Bool := path.isPrefixOf above

/-- Attach to an entry that was found before an entry was taken out. -/
def attach_to (gone : List String) (target : PathEntry) (leaf : String) (node : Yaml)
    (had gets : Inherited) : Doc :=
  if inside gone target.above then doc
  else update doc target.sect target.above (attach target.key leaf node had gets)

/-- The keys of the target's children once the node is among them. -/
def child_keys (gone : List String) (target : PathEntry) (leaf : String) : List String :=
  if inside gone target.above then (children target.value).keys ++ [leaf]
  else (held_at doc target.sect (target.above ++ [target.key])).keys

/-! ## The edits -/

section
variable (doc : Doc) (order_of : List String → List String)

def PLACEMENT_KEYS : List String := ["position", "display", "layer"]

/-- A node without its place in a bar. -/
def unplaced : Yaml → Yaml
  | .map fields => .map (PLACEMENT_KEYS.foldl (fun fields key => Items.delete key fields) fields)
  | node => node

/-- `nestEntry`. -/
def nest_entry (source_path target_path : List String) : Except String Doc :=
  if source_path = target_path then .ok doc
  else
    match find_entry_by_path doc source_path, find_entry_by_path doc target_path with
    | some source, some target =>
      if !has_action_body target.value then .error not_here
      else if (children target.value).has source.key then .error (conflict_error source.key)
      else
        let leaf := source.key
        let had := inherited_at doc source_path
        let gets := inherited_at doc target_path
        let doc := update doc source.sect source.above (Items.delete source.key)
        let doc := attach_to doc source_path target leaf (unplaced source.value) had gets
        let shown := order_of target_path
        let keys := if shown.isEmpty then child_keys doc source_path target leaf else shown
        .ok (reorder_menu doc target_path (keys.filter (fun key => key ≠ leaf) ++ [leaf]))
    | _, _ => .ok doc

variable (parent_path : List String) (child_key : String)

/-- `detachChild`. -/
def detach_child : Option (Yaml × Doc) :=
  match find_entry_by_path doc parent_path with
  | some parent =>
    match (children parent.value).get child_key with
    | some node => some (node, update doc parent.sect parent_path (Items.delete child_key))
    | none => none
  | none => none

/-- `collapseMenu`. -/
def collapse_menu : Doc :=
  match find_entry_by_path doc parent_path with
  | some parent =>
    match parent.value with
    | .map fields =>
      if (children parent.value).isEmpty then
        if has_default_cmd parent.value then
          update doc parent.sect parent.above (Items.set parent.key (.map (Items.delete "actions" fields)))
        else update doc parent.sect parent.above (Items.delete parent.key)
      else doc
    | _ => doc
  | none => doc

/-- `extractToTop`. -/
def extract_to_top : Except String Doc :=
  if (find_top_entry doc child_key).isSome then .error (conflict_error child_key)
  else
    let had := inherited_at doc parent_path
    match detach_child doc parent_path child_key with
    | none => .error not_here
    | some (node, doc) =>
      let sect := ((find_entry_by_path doc parent_path).map PathEntry.sect).getD "actions"
      let items := (section_map doc sect).getD []
      let gets := top_level_defaults sect
      let doc := doc.set sect (.map (keep_inherited had gets child_key (items.set child_key node)))
      .ok (collapse_menu doc parent_path)

/-- `extractOnto`. -/
def extract_onto (target_path : List String)
    («over» : Option String) (position : Option Bool) : Except String Doc :=
  match find_entry_by_path doc target_path with
  | none => .error not_here
  | some target =>
    if !has_action_body target.value then .error not_here
    else if (children target.value).has child_key then .error (conflict_error child_key)
    else
      let had := inherited_at doc parent_path
      let gets := inherited_at doc target_path
      match detach_child doc parent_path child_key with
      | none => .error not_here
      | some (node, doc) =>
        let gone := parent_path ++ [child_key]
        let doc := attach_to doc gone target child_key node had gets
        let shown := order_of target_path
        let keys := if shown.isEmpty then child_keys doc gone target child_key else shown
        let order := keys.filter (fun key => key ≠ child_key) ++ [child_key]
        let next := match «over», position with
          | some «over», some after =>
            if «over» = "" then order else (positioned_order order child_key «over» after).getD order
          | _, _ => order
        .ok (collapse_menu (reorder_menu doc target_path next) parent_path)

/-- Put a list in the place of an entry, or behind it. -/
def splice (key : String) (here : Items Yaml) (container : Items Yaml) : Items Yaml :=
  container.flatMap fun item => if item.1 = key then here else [item]

/-- `ungroupMenu`. -/
def ungroup_menu (path : List String) : Except String Doc :=
  match find_entry_by_path doc path with
  | some entry =>
    match entry.value with
    | .map fields =>
      let child_pairs := children entry.value
      let survives := has_default_cmd entry.value
      let siblings := held_at doc entry.sect entry.above
      match child_pairs.find? fun pair =>
          (siblings.any fun item => item.1 ≠ entry.key && item.1 = pair.1)
            || (survives && pair.1 = entry.key) with
      | some pair => .error (conflict_error pair.1)
      | none =>
        let here := if survives then (entry.key, .map (Items.delete "actions" fields)) :: child_pairs
          else child_pairs
        .ok (update doc entry.sect entry.above (splice entry.key here))
    | _ => .ok doc
  | none => .ok doc

inductive StructuralOp where
  | nest (source target : List String)
  | ungroup (path : List String)
  | extract_onto (parent : List String) (child : String) (target : List String)
    («over» : Option String) (position : Option Bool)
  | extract_to_top (parent : List String) (child : String)
  | reorder_menu (parent : List String) (child «over» : String) (position : Option Bool)

/-- `applyOpToDoc`. -/
def apply_op_to_doc : StructuralOp → Except String Doc
  | .nest source target => nest_entry doc order_of source target
  | .ungroup path => ungroup_menu doc path
  | .extract_onto parent child target «over» position =>
    extract_onto doc order_of parent child target «over» position
  | .extract_to_top parent child => extract_to_top doc parent child
  | .reorder_menu parent child «over» position =>
    let order := order_of parent
    match order.findIdx? (fun key => key = child), order.findIdx? (fun key => key = «over») with
    | some i, some j =>
      if child = «over» then .ok doc
      else
        match position with
        | some after =>
          match positioned_order order child «over» after with
          | some next => .ok (reorder_menu doc parent next)
          | none => .ok doc
        | none =>
          if i = j then .ok doc else .ok (reorder_menu doc parent (array_move order i j))
    | _, _ => .ok doc

end

end Lpm.Actions
