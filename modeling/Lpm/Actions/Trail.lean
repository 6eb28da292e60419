/-
What the entries on the way to a place say, and what the edits of `actionsStructural.ts`
do to that.

A reading takes something from each entry: its command, or the settings it hands down. A
steady reading does not see what the edits write by the way: the entries an entry holds,
and where it sits. For a steady reading an edit is what it does to the lookups of one
container, and `said_update_below` and `said_update_other` carry that to the whole.
-/
import Lpm.Actions.Document
import Mathlib.Data.List.Basic

set_option autoImplicit false

namespace Lpm.Actions

open List Option

variable {β : Type*} {read : Yaml → β}

/-! ## Readings -/

/-- What the entries on a path say, from the top down. -/
def said (read : Yaml → β) (items : Items Yaml) : List String → Option (List β)
  | [] => some []
  | key :: rest =>
    (items.get key).bind fun node => (said read (children node) rest).map (read node :: ·)

/-- A reading that does not see an entry's own entries, nor its place in a bar. -/
structure Steady (read : Yaml → β) : Prop where
  set : ∀ (fields : Items Yaml) {field : String} (value : Yaml), field ∈ ["actions", "position"] →
    read (.map (fields.set field value)) = read (.map fields)
  delete : ∀ (fields : Items Yaml) {field : String}, field ∈ "actions" :: PLACEMENT_KEYS →
    read (.map (fields.delete field)) = read (.map fields)
  widened : ∀ node : Yaml, read (.map (widened (some node))) = read node

/-- The entries an entry holds. -/
theorem children_set_actions (fields acts : Items Yaml) :
    children (.map (fields.set "actions" (.map acts))) = acts := by
  show (((Items.get "actions" (fields.set "actions" (.map acts))).bind Yaml.pairs)).getD [] = acts
  rw [Items.get_set_self]
  rfl

theorem children_set_other {field : String} (h : field ≠ "actions") (fields : Items Yaml) (value : Yaml) :
    children (.map (fields.set field value)) = children (.map fields) := by
  show ((Items.get "actions" (fields.set field value)).bind Yaml.pairs).getD [] = _
  rw [Items.get_set_other (Ne.symm h)]
  rfl

theorem children_delete_other {field : String} (h : field ≠ "actions") (fields : Items Yaml) :
    children (.map (fields.delete field)) = children (.map fields) := by
  show ((Items.get "actions" (fields.delete field)).bind Yaml.pairs).getD [] = _
  rw [Items.get_delete_other (Ne.symm h)]
  rfl

theorem children_delete_actions (fields : Items Yaml) :
    children (.map (Items.delete "actions" fields)) = [] := by
  show ((Items.get "actions" (Items.delete "actions" fields)).bind Yaml.pairs).getD [] = []
  rw [Items.get_delete_self]
  rfl

theorem children_widened (node : Yaml) : children (.map (widened (some node))) = children node := by
  cases node <;> rfl

theorem children_of_peek {node : Yaml} {acts : Items Yaml} (h : peek_children_of node = some acts) :
    children node = acts := by
  rw [children, h]
  rfl

/-- An entry that holds another has a map of entries. -/
theorem peek_of_child {node child : Yaml} {key : String} (h : (children node).get key = some child) :
    peek_children_of node = some (children node) := by
  rcases hpeek : peek_children_of node with _ | acts
  · rw [children, hpeek] at h
    exact nomatch h
  · rw [children_of_peek hpeek]

theorem said_cons (read : Yaml → β) (items : Items Yaml) (key : String) (rest : List String) :
    said read items (key :: rest)
      = (items.get key).bind fun node => (said read (children node) rest).map (read node :: ·) := rfl

variable (items : Items Yaml)

theorem said_set (key k : String) (node : Yaml) (rest : List String) :
    said read (items.set key node) (k :: rest)
      = if k = key then (said read (children node) rest).map (read node :: ·)
        else said read items (k :: rest) := by
  rw [said_cons, Items.get_set]
  split_ifs
  · rfl
  · rfl

theorem said_delete (key k : String) (rest : List String) :
    said read (items.delete key) (k :: rest) = if k = key then none else said read items (k :: rest) := by
  rw [said_cons, Items.get_delete]
  split_ifs
  · rfl
  · rfl

theorem length_said {items : Items Yaml} {path : List String} {l : List β} (h : said read items path = some l) :
    l.length = path.length := by
  induction path generalizing items l with
  | nil => rw [← some.inj h, length_nil, length_nil]
  | cons key rest ih =>
    rw [said_cons] at h
    obtain ⟨node, -, hbelow⟩ := bind_eq_some_iff.mp h
    obtain ⟨below, hsaid, rfl⟩ := map_eq_some_iff.mp hbelow
    rw [length_cons, length_cons, ih hsaid]

/-- A path of two parts: what is said above, then what is said in the container there. -/
theorem said_append (above below : List String) :
    said read items (above ++ below)
      = (said read items above).bind fun top =>
          (said read (items_at above items) below).map (top ++ ·) := by
  induction above generalizing items with
  | nil =>
    show _ = (said read items below).map (fun l => l)
    rw [Option.map_id']
    rfl
  | cons first above ih =>
    rw [cons_append, said_cons, said_cons, items_at]
    rcases items.get first with _ | node
    · rfl
    · simp only [bind_some]
      rw [ih]
      rcases said read (children node) above with _ | top
      · rfl
      · simp only [bind_some, map_some, Option.map_map]
        rfl

/-! ## Edits that move nothing -/

/-- Two containers that say the same. -/
def Same (read : Yaml → β) (a b : Items Yaml) : Prop := ∀ path, said read a path = said read b path

theorem Same.refl (a : Items Yaml) : Same read a a := fun _ => rfl

/-- The same node by node is enough. -/
theorem Same.of_get {a b : Items Yaml}
    (h : ∀ key, (a.get key).map (fun node => (read node, children node))
      = (b.get key).map fun node => (read node, children node)) : Same read a b := by
  intro path
  cases path with
  | nil => rfl
  | cons key rest =>
    have hkey := h key
    rw [said_cons, said_cons]
    rcases ha : a.get key with _ | node
    · rw [ha, map_none, Eq.comm, map_eq_none_iff] at hkey
      rw [hkey]
    · rw [ha, map_some, Eq.comm, map_eq_some_iff] at hkey
      obtain ⟨other, hb, heq⟩ := hkey
      obtain ⟨hread, hchildren⟩ := Prod.mk.inj heq
      rw [hb, bind_some, bind_some, hread, hchildren]

section
variable {key : String}

theorem get_pick (order : List String) (items : Items Yaml) :
    Items.get key ((pick order items).1 ++ (pick order items).2) = items.get key := by
  induction order generalizing items with
  | nil => rfl
  | cons first order ih =>
    rw [pick]
    rcases hfirst : items.get first with _ | value
    · exact ih items
    · have hrest := ih (items.delete first)
      simp only [cons_append]
      by_cases hkey : first = key
      · rw [hkey, Items.get_cons_self, ← hkey, hfirst]
      · rw [Items.get_cons_other hkey, hrest, Items.get_delete_other (Ne.symm hkey)]

theorem get_stamp (n : ℕ) (items : Items Yaml) :
    ∃ m : ℕ, Items.get key (stamp n items) = (items.get key).map fun value =>
      .map (Items.set "position" (.lit (toString m)) (widened (some value))) := by
  induction items generalizing n with
  | nil => exact ⟨0, rfl⟩
  | cons item rest ih =>
    obtain ⟨k, value⟩ := item
    rw [stamp]
    by_cases hkey : k = key
    · rw [hkey, Items.get_cons_self, Items.get_cons_self]
      exact ⟨n, rfl⟩
    · rw [Items.get_cons_other hkey, Items.get_cons_other hkey]
      exact ih (n + 1)

theorem same_reorder (hread : Steady read) (order : List String) (container : Items Yaml) :
    Same read (reorder order container) container := by
  apply Same.of_get
  intro key
  obtain ⟨m, hstamp⟩ := @get_stamp key 1 ((pick order container).1 ++ (pick order container).2)
  rw [reorder, hstamp, get_pick, Option.map_map]
  congr 1
  funext node
  show (read (.map (Items.set "position" _ (widened (some node)))),
    children (.map (Items.set "position" _ (widened (some node))))) = _
  rw [hread.set _ _ (by decide), hread.widened, children_set_other (by decide), children_widened]

end

/-! ## Changes deep in a document -/

/-- Every entry on the way has entries of its own. -/
def reaches : List String → Items Yaml → Prop
  | [], _ => True
  | key :: rest, items => ∃ node acts, items.get key = some node ∧ peek_children_of node = some acts
    ∧ reaches rest acts

section
variable {f : Items Yaml → Items Yaml} {items : Items Yaml} {key : String}

theorem items_at_cons {node : Yaml} (hget : items.get key = some node) (rest : List String) :
    items_at (key :: rest) items = items_at rest (children node) := by
  rw [items_at, hget]

theorem update_items_cons {rest : List String} {node : Yaml} {acts : Items Yaml}
    (hget : items.get key = some node) (hacts : peek_children_of node = some acts) :
    ∃ fields : Items Yaml, node = .map fields ∧ update_items f (key :: rest) items
      = items.set key (.map (fields.set "actions" (.map (update_items f rest acts)))) := by
  cases node with
  | map fields =>
    refine ⟨fields, rfl, ?_⟩
    rw [update_items, hget]
    have hfields : (Items.get "actions" fields).bind Yaml.pairs = some acts := hacts
    simp only [hfields]
  | str s | lit s | seq l => exact absurd hacts (by simp [peek_children_of, Yaml.get, Yaml.pairs])

/-- A change that reaches no container changes nothing. -/
theorem update_items_stays {rest : List String}
    (h : ¬ ∃ node acts, items.get key = some node ∧ peek_children_of node = some acts) :
    update_items f (key :: rest) items = items := by
  rw [update_items]
  rcases hget : items.get key with _ | node
  · rfl
  · cases node with
    | map fields =>
      rcases hacts : (Items.get "actions" fields).bind Yaml.pairs with _ | acts
      · simp only [hacts]
      · exact absurd ⟨_, acts, hget, hacts⟩ h
    | str s => rfl
    | lit s => rfl
    | seq l => rfl

/-- A change below an entry leaves every key where it is. -/
theorem has_update_items (above : List String) (habove : above ≠ []) (key : String) :
    (update_items f above items).has key = items.has key := by
  cases above with
  | nil => exact absurd rfl habove
  | cons first rest =>
    by_cases hreach : ∃ node acts, items.get first = some node ∧ peek_children_of node = some acts
    · obtain ⟨node, acts, hget, hacts⟩ := hreach
      obtain ⟨fields, -, hupdate⟩ := @update_items_cons f items first rest node acts hget hacts
      rw [hupdate, Items.has, Items.has, Items.get_set]
      split_ifs with hkey
      · rw [hkey, hget]
        rfl
      · rfl
    · rw [update_items_stays hreach]

theorem said_update_below (hread : Steady read) {above : List String} (h : reaches above items)
    (key : String) (rest : List String) :
    said read (update_items f above items) (above ++ key :: rest)
      = (said read items above).bind fun top =>
          (said read (f (items_at above items)) (key :: rest)).map (top ++ ·) := by
  induction above generalizing items with
  | nil =>
    show _ = (said read (f items) (key :: rest)).map (fun l => l)
    rw [Option.map_id']
    rfl
  | cons first above ih =>
    obtain ⟨node, acts, hget, hacts, hreach⟩ := h
    obtain ⟨fields, rfl, hupdate⟩ := @update_items_cons f items first above node acts hget hacts
    rw [hupdate, items_at_cons hget, cons_append, said_set, if_pos rfl, children_set_actions,
      ih hreach, hread.set _ _ (by decide), said_cons read items first above, hget, bind_some,
      children_of_peek hacts]
    rcases said read acts above with _ | top
    · rfl
    · simp only [bind_some, map_some, Option.map_map]
      rfl

variable {above path : List String}

theorem said_update_other (hread : Steady read)
    (h : ∀ key rest, path ≠ above ++ key :: rest) :
    said read (update_items f above items) path = said read items path := by
  induction above generalizing items path with
  | nil =>
    cases path with
    | nil => rfl
    | cons key rest => exact absurd rfl (h key rest)
  | cons first above ih =>
    by_cases hreach : ∃ node acts, items.get first = some node ∧ peek_children_of node = some acts
    · obtain ⟨node, acts, hget, hacts⟩ := hreach
      obtain ⟨fields, rfl, hupdate⟩ := @update_items_cons f items first above node acts hget hacts
      rw [hupdate]
      cases path with
      | nil => rfl
      | cons key rest =>
        rw [said_set]
        split_ifs with hkey
        · have hrest : said read (update_items f above acts) rest = said read acts rest := by
            apply ih
            intro k q heq
            exact h k q (by rw [hkey, heq, cons_append])
          rw [said_cons, hkey, hget, bind_some, children_set_actions, hread.set _ _ (by decide),
            hrest, children_of_peek hacts]
        · rfl
    · rw [update_items_stays hreach]

/-- A way that the change of its container keeps open is open afterwards. -/
theorem reaches_update_items
    (hf : ∀ rest, path = above ++ rest → reaches rest (items_at above items) → reaches rest (f (items_at above items)))
    (h : reaches path items) : reaches path (update_items f above items) := by
  induction above generalizing path items with
  | nil => exact hf path rfl h
  | cons first above ih =>
    cases path with
    | nil => trivial
    | cons k rest =>
      by_cases hreach : ∃ node acts, items.get first = some node ∧ peek_children_of node = some acts
      · obtain ⟨node, acts, hget, hacts⟩ := hreach
        obtain ⟨fields, -, hupdate⟩ := @update_items_cons f items first above node acts hget hacts
        rw [hupdate]
        obtain ⟨other, acts', hget', hacts', hreach'⟩ := h
        by_cases hk : k = first
        · subst hk
          obtain rfl : node = other := some.inj (hget.symm.trans hget')
          obtain rfl : acts = acts' := some.inj (hacts.symm.trans hacts')
          rw [items_at_cons hget, children_of_peek hacts] at hf
          refine ⟨_, update_items f above acts, Items.get_set_self, ?_, ?_⟩
          · show (Items.get "actions" (Items.set "actions" _ fields)).bind Yaml.pairs = _
            rw [Items.get_set_self]
            rfl
          · exact ih (fun rest' heq => hf rest' (by rw [heq, cons_append])) hreach'
        · exact ⟨other, acts', by rw [Items.get_set_other hk, hget'], hacts', hreach'⟩
      · rw [update_items_stays hreach]
        exact h

/-- A change that keeps what its container says keeps it all. -/
theorem Same.update_items (hread : Steady read) {above : List String}
    (h : Same read (f (items_at above items)) (items_at above items)) :
    Same read (update_items f above items) items := by
  induction above generalizing items with
  | nil => exact h
  | cons first above ih =>
    by_cases hreach : ∃ node acts, items.get first = some node ∧ peek_children_of node = some acts
    · obtain ⟨node, acts, hget, hacts⟩ := hreach
      obtain ⟨fields, rfl, hupdate⟩ := @update_items_cons f items first above node acts hget hacts
      rw [items_at_cons hget, children_of_peek hacts] at h
      have hbelow := ih h
      intro path
      rw [hupdate]
      cases path with
      | nil => rfl
      | cons key rest =>
        rw [said_set]
        split_ifs with hkey
        · rw [said_cons, hkey, hget, bind_some, children_set_actions, hread.set _ _ (by decide),
            hbelow rest, children_of_peek hacts]
        · rfl
    · rw [update_items_stays hreach]
      exact Same.refl items

end

end Lpm.Actions
