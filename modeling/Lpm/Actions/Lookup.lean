/-
What `findEntryByPath` finds of the entries that have a command: an entry is found at its
path unless it stands in `terminals` and `actions` has an entry with the first key of the
path. So an edit keeps entries found that brings no new key into a section.
-/
import Lpm.Actions.Commands

set_option autoImplicit false

namespace Lpm.Actions

open List Option

/-! ## What a path finds afterwards -/

variable (doc : Doc)

/-- A section has an entry with the key. -/
def top_has (sect key : String) : Bool := ((section_map doc sect).getD []).has key

/-- A path finds the entry of its place, and not one of the other section. -/
def Found (place : Place) : Prop :=
  (find_entry_by_path doc place.2).map PathEntry.sect = some place.1

/-- The lookup comes to the section of a place. -/
def Seen (place : Place) : Prop :=
  place.1 = "actions" ∨ place.1 = "terminals" ∧ top_has doc "actions" (place.2.headD "") = false

section
variable {doc : Doc} {sect s key : String} {path above : List String} {place : Place} {c : String}

theorem find_action_section_eq (doc : Doc) (key : String) :
    find_action_section doc key
      = if top_has doc "actions" key = true then some ("actions", (section_map doc "actions").getD [])
        else if top_has doc "terminals" key = true then some ("terminals", (section_map doc "terminals").getD [])
        else none := by
  have hone : ∀ name, ((section_map doc name).bind fun node => if node.has key then some (name, node) else none)
      = if top_has doc name key = true then some (name, (section_map doc name).getD []) else none := by
    intro name
    unfold top_has
    rcases section_map doc name with _ | node
    · rfl
    · rfl
  rw [find_action_section, ACTION_SECTIONS, findSome?_cons, hone, findSome?_cons, hone,
    findSome?_nil]
  split_ifs <;> rfl

theorem seen_of_find {e : PathEntry} (h : find_entry_by_path doc path = some e) :
    Seen doc (e.sect, path) := by
  cases path with
  | nil => exact nomatch h
  | cons top segs =>
    rw [find_entry_by_path] at h
    obtain ⟨⟨sect, node⟩, htop, hrest⟩ := bind_eq_some_iff.mp h
    obtain ⟨value, -, rfl⟩ := map_eq_some_iff.mp hrest
    obtain ⟨items, hfound, -⟩ := find_top_entry_some htop
    rw [find_action_section_eq] at hfound
    split_ifs at hfound with hactions
    · exact Or.inl (Prod.mk.inj (some.inj hfound)).1.symm
    · exact Or.inr ⟨(Prod.mk.inj (some.inj hfound)).1.symm, by simpa using hactions⟩

variable {items : Items Yaml} {segs : List String} {top : String}

/-- What is said at a path is said on a walk. -/
theorem walk_of_said {β : Type*} {read : Yaml → β} {l : List β}
    (h : said read items (top :: segs) = some l) :
    ∃ node value, items.get top = some node ∧ walk node segs = some value := by
  induction segs generalizing items top l with
  | nil =>
    rw [said_cons] at h
    obtain ⟨node, hget, -⟩ := bind_eq_some_iff.mp h
    exact ⟨node, node, hget, rfl⟩
  | cons seg segs ih =>
    rw [said_cons] at h
    obtain ⟨node, hget, hbelow⟩ := bind_eq_some_iff.mp h
    obtain ⟨below, hsaid, -⟩ := map_eq_some_iff.mp hbelow
    obtain ⟨child, value, hchild, hwalk⟩ := ih hsaid
    refine ⟨node, value, hget, ?_⟩
    rcases hpeek : peek_children_of node with _ | acts
    · rw [children, hpeek] at hchild
      cases hchild
    · rw [children_of_peek hpeek] at hchild
      rw [walk, hpeek, bind_some, hchild, bind_some, hwalk]

theorem said_of_cmd (h : cmd_at doc place = some c) :
    ∃ top segs l, place.2 = top :: segs ∧ said_at own_cmd doc place = some l := by
  obtain ⟨l, hsaid, hlast⟩ := bind_eq_some_iff.mp h
  rcases hpath : place.2 with _ | ⟨top, segs⟩
  · rw [said_at, hpath] at hsaid
    obtain rfl : [] = l := some.inj hsaid
    cases hlast
  · exact ⟨top, segs, l, rfl, hsaid⟩

/-- A key leads to the entry of a section that is seen. -/
theorem find_top_of_seen {node : Yaml} (hseen : Seen doc (s, top :: segs))
    (hget : ((section_map doc s).getD []).get top = some node) : find_top_entry doc top = some (s, node) := by
  have hhas : top_has doc s top = true := by
    rw [top_has, Items.has, hget]
    rfl
  rw [find_top_entry, find_action_section_eq]
  rcases hseen with hs | ⟨hs, hno⟩
  · change s = "actions" at hs
    rw [hs] at hhas hget
    rw [if_pos hhas, bind_some, hget, hs]
    rfl
  · change s = "terminals" at hs
    change top_has doc "actions" top = false at hno
    rw [hs] at hhas hget
    rw [hno, if_neg (by simp), if_pos hhas, bind_some, hget, hs]
    rfl

/-- For an entry that is there, the section is all the lookup can go wrong with. -/
theorem found_of_seen {β : Type*} {read : Yaml → β} {l : List β}
    (hsaid : said_at read doc (s, top :: segs) = some l) (hseen : Seen doc (s, top :: segs)) :
    Found doc (s, top :: segs) := by
  obtain ⟨node, value, hget, hwalk⟩ := walk_of_said hsaid
  rw [Found, find_entry_by_path, find_top_of_seen hseen hget, bind_some, hwalk]
  rfl

theorem found_iff_seen (h : cmd_at doc place = some c) : Found doc place ↔ Seen doc place := by
  obtain ⟨s, path⟩ := place
  obtain ⟨top, segs, l, hpath, hsaid⟩ := said_of_cmd h
  change path = top :: segs at hpath
  subst hpath
  constructor
  · intro hfound
    obtain ⟨e, he, hsect⟩ := map_eq_some_iff.mp hfound
    have hseen := seen_of_find he
    rw [hsect] at hseen
    exact hseen
  · exact found_of_seen hsaid

/-- A key that no section has leads to no entry. -/
theorem top_has_of_none (h : find_top_entry doc key = none) (hs : s ∈ ACTION_SECTIONS) :
    top_has doc s key = false := by
  by_contra hhas
  rw [Bool.not_eq_false] at hhas
  have hsome : ∀ name, top_has doc name key = true →
      ∃ v, ((section_map doc name).getD []).get key = some v := fun name h => isSome_iff_exists.mp h
  rw [find_top_entry, find_action_section_eq] at h
  simp only [ACTION_SECTIONS, mem_cons, not_mem_nil, or_false] at hs
  by_cases hactions : top_has doc "actions" key = true
  · obtain ⟨v, hv⟩ := hsome _ hactions
    rw [if_pos hactions, bind_some, hv] at h
    exact nomatch h
  · rcases hs with rfl | rfl
    · exact hactions hhas
    · obtain ⟨v, hv⟩ := hsome _ hhas
      rw [if_neg hactions, if_pos hhas, bind_some, hv] at h
      exact nomatch h

/-- A change adds to the keys of its section what its container gets. -/
theorem top_has_update {f : Items Yaml → Items Yaml} (h : top_has (update doc sect above f) s key = true) :
    top_has doc s key = true
      ∨ above = [] ∧ s = sect ∧ (f ((section_map doc sect).getD [])).has key = true := by
  unfold top_has at h
  rcases hsect : section_map doc sect with _ | items
  · rw [update, hsect] at h
    exact Or.inl h
  · rw [section_map_update hsect] at h
    split_ifs at h with hs
    · by_cases habove : above = []
      · subst habove
        exact Or.inr ⟨rfl, hs, h⟩
      · refine Or.inl ?_
        rw [top_has, hs, hsect]
        rw [getD_some, has_update_items above habove] at h
        exact h
    · exact Or.inl h

theorem top_has_reorder_menu (order : List String) (h : top_has (reorder_menu doc path order) s key = true) :
    top_has doc s key = true := by
  unfold reorder_menu at h
  rcases hfind : find_entry_by_path doc path with _ | e
  · rw [hfind] at h
    exact h
  · obtain ⟨hpath, -⟩ := find_entry_stands hfind
    simp only [hfind] at h
    split at h
    · rcases top_has_update h with hhas | ⟨hnil, -⟩
      · exact hhas
      · exact absurd (hpath.symm.trans hnil) (by simp)
    · exact h

variable {k : String}

theorem has_set {v : Yaml} (h : (items.set k v).has key = true) :
    key = k ∨ items.has key = true := by
  rw [Items.has, Items.get_set] at h
  split_ifs at h with hk
  · exact Or.inl hk
  · exact Or.inr h

theorem has_delete (h : (items.delete k).has key = true) :
    items.has key = true := by
  rw [Items.has, Items.get_delete] at h
  split_ifs at h
  · cases h
  · exact h

/-- The key of an entry of a section. -/
theorem Stands.top_has {value : Yaml} (h : Stands doc sect [] key value items) :
    top_has doc sect key = true := by
  have hget : items.get key = some value := h.get
  rw [Lpm.Actions.top_has, h.sect, getD_some, Items.has, hget]
  rfl

theorem top_has_collapse_menu (h : top_has (collapse_menu doc path) s key = true) :
    top_has doc s key = true := by
  unfold collapse_menu at h
  rcases hfind : find_entry_by_path doc path with _ | e
  · rw [hfind] at h
    exact h
  · obtain ⟨-, -, items, hstands⟩ := find_entry_stands hfind
    simp only [hfind] at h
    split at h
    · split_ifs at h
      · rcases top_has_update h with hhas | ⟨habove, hs, hset⟩
        · exact hhas
        · rcases has_set hset with hkey | hhas
          · rw [habove] at hstands
            rw [hs, hkey]
            exact hstands.top_has
          · rw [hs]
            exact hhas
      · rcases top_has_update h with hhas | ⟨-, hs, hdelete⟩
        · exact hhas
        · rw [hs]
          exact has_delete hdelete
      · exact h
    · exact h

theorem top_has_taken_out (h : top_has (update doc sect above (Items.delete k)) s key = true) :
    top_has doc s key = true := by
  rcases top_has_update h with hhas | ⟨-, hs, hdelete⟩
  · exact hhas
  · rw [hs]
    exact has_delete hdelete

theorem top_has_transfer {tsect k tkey leaf : String} {tabove : List String} {node tvalue : Yaml}
    {titems : Items Yaml} {had gets : Inherited} (ht : Stands doc tsect tabove tkey tvalue titems)
    (h : top_has (transfer doc sect above k tsect tabove tkey leaf node had gets) s key = true) :
    top_has doc s key = true := by
  rcases top_has_update h with hhas | ⟨habove, hs, hset⟩
  · exact top_has_taken_out hhas
  · rcases has_set hset with hkey | hhas
    · rw [habove] at ht
      rw [hs, hkey]
      exact ht.top_has
    · rw [hs]
      exact top_has_taken_out hhas

theorem top_has_put_top {leaf : String} {node : Yaml} {had gets : Inherited}
    (h : top_has (put_top doc sect leaf node had gets) s key = true) :
    s = sect ∧ key = leaf ∨ top_has doc s key = true := by
  rw [top_has, put_top, section_map_set] at h
  split_ifs at h with hs
  · by_cases hkey : key = leaf
    · exact Or.inl ⟨hs, hkey⟩
    · rw [getD_some, Items.has, get_keep_inherited Items.get_set_self, if_neg hkey,
        Items.get_set_other hkey] at h
      rw [hs]
      exact Or.inr h
  · exact Or.inr h

/-- The first key of a place with a command is there. -/
theorem top_has_of_cmd (h : cmd_at doc place ≠ none) : top_has doc place.1 (place.2.headD "") = true := by
  obtain ⟨c, hc⟩ := ne_none_iff_exists'.mp h
  obtain ⟨top, segs, l, hpath, hsaid⟩ := said_of_cmd hc
  rw [said_at, hpath] at hsaid
  obtain ⟨node, value, hget, -⟩ := walk_of_said hsaid
  rw [hpath, top_has, Items.has]
  show (((section_map doc place.1).getD []).get top).isSome = true
  rw [hget]
  rfl

end

end Lpm.Actions
