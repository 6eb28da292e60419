/-
Tidy documents: every entry has a command or holds an entry, and no key stands in both
sections, so that `findEntryByPath` finds each entry at its path.

What an edit does to the entries is said by place: what stands there, and whether it has a
command. A dead button is then a bare node, and the lemmas on branches say what taking an
entry out and putting it elsewhere leaves bare.
-/
import Lpm.Actions.Drag
import Lpm.Lib.Bare

set_option autoImplicit false

namespace Lpm.Actions

open List Option

open Moves

/-! ## Tidy documents -/

/-- An entry that is no dead button. -/
def alive (node : Yaml) : Bool := has_default_cmd node || !(children node).isEmpty

variable (doc : Doc)

/-- No key stands in both sections. -/
def Apart : Prop :=
  ∀ key, ¬ (top_has doc "actions" key = true ∧ top_has doc "terminals" key = true)

structure Tidy (doc : Doc) : Prop where
  alive : ∀ sect ∈ ACTION_SECTIONS, ∀ above key node, (held_at doc sect above).get key = some node →
    alive node = true
  apart : Apart doc

/-- Every entry is what its path leads to. -/
def AllFound : Prop :=
  ∀ sect ∈ ACTION_SECTIONS, ∀ above key node, (held_at doc sect above).get key = some node →
    find_entry_by_path doc (above ++ [key]) = some { sect, above, key, value := node }

/-! ## What stands at a place -/

/-- The command of the entry at a place, if an entry stands there. -/
def word_at (place : Place) : Option (Option String) :=
  (said_at own_cmd doc place).bind List.getLast?

/-- An entry with a command. -/
def Bears (word : Option String) : Prop := word ≠ none

def InSections (sect : String) : Prop := sect ∈ ACTION_SECTIONS

section
variable {doc : Doc} {sect s : String} {above path : List String} {key : String} {value : Yaml} {items : Items Yaml}

theorem items_at_of_said_none {β : Type*} {read : Yaml → β} (h : said read items above = none) :
    items_at above items = [] := by
  induction above generalizing items with
  | nil => exact nomatch h
  | cons first above ih =>
    rw [said_cons] at h
    rw [items_at]
    rcases hget : items.get first with _ | node
    · rfl
    · rw [hget, bind_some, map_eq_none_iff] at h
      exact ih h

theorem items_at_append (items : Items Yaml) (above rest : List String) :
    items_at (above ++ rest) items = items_at rest (items_at above items) := by
  induction above generalizing items with
  | nil => rfl
  | cons first above ih =>
    rw [cons_append, items_at, items_at]
    rcases items.get first with _ | node
    · cases rest with
      | nil => rfl
      | cons k rest => rfl
    · exact ih (children node)

/-- An entry's own entries are those held at its place. -/
theorem held_at_below (h : (held_at doc sect above).get key = some value) :
    held_at doc sect (above ++ [key]) = children value := by
  rw [held_at, items_at_append]
  exact items_at_cons h []

theorem word_at_below (doc : Doc) (sect : String) (above : List String) (key : String) :
    word_at doc (sect, above ++ [key]) = ((held_at doc sect above).get key).map own_cmd := by
  rw [word_at, said_at, said_append, held_at]
  rcases htop : said own_cmd ((section_map doc sect).getD []) above with _ | top
  · rw [items_at_of_said_none htop]
    rfl
  · rw [bind_some, said_cons]
    rcases (items_at above ((section_map doc sect).getD [])).get key with _ | node
    · rfl
    · show (top ++ [own_cmd node]).getLast? = some (own_cmd node)
      exact getLast?_concat

/-- A section's keys are the places of one key. -/
theorem top_has_iff : top_has doc sect key = true ↔ word_at doc (sect, [key]) ≠ none := by
  have hword := word_at_below doc sect [] key
  rw [nil_append] at hword
  rw [hword, top_has, Items.has, isSome_iff_ne_none]
  show _ ↔ (Items.get key ((section_map doc sect).getD [])).map own_cmd ≠ none
  rw [ne_eq, ne_eq, map_eq_none_iff]

/-- An edit that brings no key into a section keeps the sections apart. -/
theorem Apart.of_top_has {doc' : Doc} (h : Apart doc)
    (hkeys : ∀ s k, top_has doc' s k = true → top_has doc s k = true) : Apart doc' :=
  fun k hboth => h k ⟨hkeys _ k hboth.1, hkeys _ k hboth.2⟩

/-- An entry below the top is held by an entry. -/
theorem rooted_word_at (doc : Doc) : Rooted (word_at doc) := by
  rintro ⟨s, path⟩ k hword
  cases path with
  | nil => exact Or.inl rfl
  | cons first above =>
    refine Or.inr fun hnone => ?_
    rw [below, word_at_below, held_at] at hword
    dsimp only at hword
    rcases hsaid : said own_cmd ((section_map doc s).getD []) (first :: above) with _ | l
    · rw [items_at_of_said_none hsaid] at hword
      exact hword rfl
    · rw [word_at, said_at, hsaid, bind_some, getLast?_eq_none_iff] at hnone
      have hlength := length_said hsaid
      rw [hnone, length_nil, length_cons] at hlength
      omega

theorem alive_eq_false {node : Yaml} : alive node = false ↔ own_cmd node = none ∧ children node = [] := by
  rw [alive, Bool.or_eq_false_iff, has_default_cmd, isSome_eq_false_iff, isNone_iff_eq_none,
    Bool.not_eq_false', List.isEmpty_iff]

theorem eq_nil_of_get {items : Items Yaml} (h : ∀ k, items.get k = none) : items = [] := by
  cases items with
  | nil => rfl
  | cons item rest =>
    have hfirst := h item.1
    rw [Items.get_cons_self] at hfirst
    exact nomatch hfirst

/-- A dead button is a bare node. -/
theorem bare_iff (h : (held_at doc sect above).get key = some value) :
    Moves.Bare Bears (word_at doc) (sect, above ++ [key]) ↔ alive value = false := by
  have hhere : word_at doc (sect, above ++ [key]) = some (own_cmd value) := by
    rw [word_at_below, h]
    rfl
  have hbelow : ∀ k, word_at doc (below (sect, above ++ [key]) k) = ((children value).get k).map own_cmd := by
    intro k
    rw [below, word_at_below, held_at_below h]
  rw [alive_eq_false]
  constructor
  · rintro ⟨⟨c, hc, hbears⟩, hno⟩
    rw [hhere] at hc
    rw [Bears, ne_eq, not_not] at hbears
    refine ⟨(some.inj hc).trans hbears, eq_nil_of_get fun k => ?_⟩
    have hk := hno k
    rw [hbelow, map_eq_none_iff] at hk
    exact hk
  · rintro ⟨hcmd, hchildren⟩
    refine ⟨⟨none, by rw [hhere, hcmd], fun hbears => hbears rfl⟩, fun k => ?_⟩
    rw [hbelow, hchildren]
    rfl

theorem alive_iff (doc : Doc) :
    (∀ sect ∈ ACTION_SECTIONS, ∀ above key node, (held_at doc sect above).get key = some node → alive node = true)
      ↔ Alive Bears InSections (word_at doc) := by
  constructor
  · rintro h ⟨s, path⟩ hs hbare
    rcases eq_nil_or_concat path with rfl | ⟨above, key, rfl⟩
    · obtain ⟨c, hc, -⟩ := hbare.1
      exact nomatch hc
    · rw [concat_eq_append] at hbare
      rcases hget : (held_at doc s above).get key with _ | node
      · obtain ⟨c, hc, -⟩ := hbare.1
        rw [word_at_below, hget] at hc
        exact nomatch hc
      · rw [bare_iff hget, h s hs above key node hget] at hbare
        exact nomatch hbare
  · intro h sect hs above key node hget
    by_contra hdead
    rw [Bool.not_eq_true] at hdead
    exact h (sect, above ++ [key]) hs ((bare_iff hget).mpr hdead)

/-- A document is tidy if no place is bare and no key leads to two. -/
theorem tidy_iff : Tidy doc ↔ Alive Bears InSections (word_at doc) ∧ Apart doc :=
  ⟨fun h => ⟨(alive_iff doc).mp h.alive, h.apart⟩, fun h => ⟨(alive_iff doc).mpr h.1, h.2⟩⟩

theorem word_at_taken_out (h : Stands doc sect above key value items) (place : Place) :
    word_at (update doc sect above (Items.delete key)) place
      = if Under (sect, above ++ [key]) place then none else word_at doc place := by
  rw [word_at, said_taken_out steady_own_cmd h]
  split_ifs
  · rfl
  · rfl

theorem word_at_reorder_menu (doc : Doc) (path order : List String) (place : Place) :
    word_at (reorder_menu doc path order) place = word_at doc place := by
  rw [word_at, word_at, said_reorder_menu steady_own_cmd]

/-! ## What a path finds -/

theorem said_of_word {place : Place} (h : word_at doc place ≠ none) :
    ∃ top segs l, place.2 = top :: segs ∧ said_at own_cmd doc place = some l := by
  obtain ⟨w, hw⟩ := ne_none_iff_exists'.mp h
  obtain ⟨l, hsaid, hlast⟩ := bind_eq_some_iff.mp hw
  rcases hpath : place.2 with _ | ⟨top, segs⟩
  · rw [said_at, hpath] at hsaid
    obtain rfl : [] = l := some.inj hsaid
    cases hlast
  · exact ⟨top, segs, l, rfl, hsaid⟩

/-- An entry that the lookup comes to is found. -/
theorem find_of_word (hword : word_at doc (s, path) ≠ none) (hseen : Seen doc (s, path)) :
    ∃ e, find_entry_by_path doc path = some e ∧ e.sect = s := by
  obtain ⟨top, segs, l, hpath, hsaid⟩ := said_of_word hword
  change path = top :: segs at hpath
  subst hpath
  exact map_eq_some_iff.mp (found_of_seen hsaid hseen)

/-- What a path finds is the entry held there. -/
theorem held_of_find {e : PathEntry} (h : find_entry_by_path doc path = some e) :
    path = e.above ++ [e.key] ∧ InSections e.sect ∧ (held_at doc e.sect e.above).get e.key = some e.value := by
  obtain ⟨hpath, hmem, items, hstands⟩ := find_entry_stands h
  refine ⟨hpath, hmem, ?_⟩
  rw [held_at, hstands.sect]
  exact hstands.get

/-- Where no key is in both sections, an entry is seen. -/
theorem seen_of_apart (h : Apart doc) (hs : InSections s)
    (hword : word_at doc (s, path) ≠ none) : Seen doc (s, path) := by
  rw [InSections, ACTION_SECTIONS, mem_cons, mem_singleton] at hs
  rcases hs with hs | hs
  · exact Or.inl hs
  · refine Or.inr ⟨hs, ?_⟩
    by_contra hhas
    rw [Bool.not_eq_false] at hhas
    obtain ⟨top, segs, l, hpath, hsaid⟩ := said_of_word hword
    change path = top :: segs at hpath
    obtain ⟨node, value, hget, -⟩ := walk_of_said (hpath ▸ hsaid)
    have hterminals : top_has doc "terminals" top = true := by
      rw [top_has, Items.has, ← hs, hget]
      rfl
    rw [hpath] at hhas
    exact h top ⟨hhas, hterminals⟩

/-- A path that goes on leads into the same section. -/
theorem sect_of_starts {e t : PathEntry} {target : List String} (he : find_entry_by_path doc path = some e)
    (ht : find_entry_by_path doc target = some t) (hstarts : path <+: target) : t.sect = e.sect := by
  obtain ⟨rest, rfl⟩ := hstarts
  cases path with
  | nil => exact nomatch he
  | cons top segs =>
    rw [find_entry_by_path] at he
    rw [cons_append, find_entry_by_path] at ht
    obtain ⟨found, htop, hrest⟩ := bind_eq_some_iff.mp he
    obtain ⟨value, -, rfl⟩ := map_eq_some_iff.mp hrest
    rw [htop, bind_some] at ht
    obtain ⟨value', -, rfl⟩ := map_eq_some_iff.mp ht
    rfl

/-- In a tidy document every path leads to its entry. -/
theorem Tidy.all_found (h : Tidy doc) : AllFound doc := by
  intro sect hs above key node hget
  have hword : word_at doc (sect, above ++ [key]) ≠ none := by
    rw [word_at_below, hget]
    exact some_ne_none _
  obtain ⟨e, he, hsect⟩ := find_of_word hword (seen_of_apart h.apart hs hword)
  obtain ⟨hpath, -, hheld⟩ := held_of_find he
  obtain ⟨habove, hkey⟩ := append_inj' hpath rfl
  obtain rfl : key = e.key := (List.cons.inj hkey).1
  rw [hsect, ← habove, hget] at hheld
  rw [he]
  obtain ⟨esect, eabove, ekey, evalue⟩ := e
  simp only at hsect habove hheld ⊢
  rw [hsect, habove, some.inj hheld]

end

/-! ## What `collapseMenu` does by place

It takes out the entry it is given when that is a bare node, and nothing else. It does so for maps only. The entry it is given has lost an item and was a map of items
before, so it is one: `Opens` is that, and no edit closes what another entry has. -/

open Moves

/-- The entry at a place has a map of entries, empty or not. -/
def Opens (doc : Doc) (place : Place) : Prop :=
  ∃ items, section_map doc place.1 = some items ∧ reaches place.2 items

section
variable {doc : Doc} {sect tsect : String} {above path : List String} {key leaf : String} {place : Place}
  {value node : Yaml} {items : Items Yaml} {had gets : Inherited} {f : Items Yaml → Items Yaml}

/-! ## Edits that close no entry -/

theorem opens_update
    (hf : ∀ items rest, section_map doc sect = some items → place = (sect, above ++ rest) →
      reaches rest (items_at above items) → reaches rest (f (items_at above items)))
    (h : Opens doc place) : Opens (update doc sect above f) place := by
  obtain ⟨items, hsect, hreach⟩ := h
  by_cases hs : place.1 = sect
  · rw [hs] at hsect
    refine ⟨update_items f above items, by rw [section_map_update hsect, if_pos hs], ?_⟩
    exact reaches_update_items (fun rest heq => hf items rest hsect (Prod.ext hs heq)) hreach
  · refine ⟨items, ?_, hreach⟩
    rcases hmap : section_map doc sect with _ | m
    · rw [update, hmap]
      exact hsect
    · rw [section_map_update hmap, if_neg hs, hsect]

theorem opens_taken_out (h : Opens doc place) (hnot : ¬ Under (sect, above ++ [key]) place) :
    Opens (update doc sect above (Items.delete key)) place := by
  refine opens_update (fun items rest hsect hplace hrest => ?_) h
  have hstarts : ¬ [] ++ [key] <+: rest := by
    rintro ⟨rest', heq⟩
    rw [hplace] at hnot
    refine hnot ⟨rfl, rest', ?_⟩
    rw [← heq, nil_append, append_assoc]
  exact @reaches_delete [] key (items_at above items) rest hrest hstarts

theorem peek_set_other {field : String} (h : field ≠ "actions") (fields : Items Yaml) (value : Yaml) :
    peek_children_of (.map (fields.set field value)) = peek_children_of (.map fields) := by
  show (Items.get "actions" (fields.set field value)).bind Yaml.pairs = _
  rw [Items.get_set_other (Ne.symm h)]
  rfl

theorem peek_widened (node : Yaml) : peek_children_of (.map (widened (some node))) = peek_children_of node := by
  cases node <;> rfl

theorem opens_reorder_menu (path order : List String) (h : Opens doc place) :
    Opens (reorder_menu doc path order) place := by
  unfold reorder_menu
  rcases find_entry_by_path doc path with _ | e
  · exact h
  · simp only
    split
    · refine opens_update (fun items rest _ _ hrest => ?_) h
      cases rest with
      | nil => trivial
      | cons k rest =>
        obtain ⟨node, acts, hget, hacts, hreach⟩ := hrest
        obtain ⟨m, hstamp⟩ := @get_stamp k 1
          ((pick order (items_at path items)).1 ++ (pick order (items_at path items)).2)
        rw [get_pick, hget] at hstamp
        exact ⟨_, acts, hstamp, by rw [peek_set_other (by decide), peek_widened, hacts], hreach⟩
    · exact h

/-- An entry that goes where no entry of its key is leaves all others open. -/
theorem opens_attach {tabove : List String} {tkey : String} (h : Opens doc place)
    (hfree : word_at doc (tsect, tabove ++ [tkey] ++ [leaf]) = none) :
    Opens (update doc tsect tabove (attach tkey leaf node had gets)) place := by
  refine opens_update (fun items rest hsect _ hrest => ?_) h
  cases rest with
  | nil => trivial
  | cons k rest =>
    obtain ⟨other, acts, hget, hacts, hreach⟩ := hrest
    by_cases hk : k = tkey
    · subst hk
      have hheld : (held_at doc tsect tabove).get k = some other := by
        rw [held_at, hsect]
        exact hget
      rw [word_at_below, held_at_below hheld, map_eq_none_iff] at hfree
      obtain ⟨host, hhost, -, hchildren⟩ :=
        @get_attach _ own_cmd k leaf node had gets (items_at tabove items) steady_own_cmd
      have hleaf := hchildren leaf
      rw [if_pos rfl] at hleaf
      rw [hget, getD_some] at hchildren
      refine ⟨host, children host, hhost, peek_of_child hleaf, ?_⟩
      rw [← children_of_peek hacts] at hreach
      cases rest with
      | nil => trivial
      | cons j rest =>
        obtain ⟨child, acts', hchild, hrest⟩ := hreach
        have hj : j ≠ leaf := by
          rintro rfl
          cases hchild.symm.trans hfree
        exact ⟨child, acts', by rw [hchildren, if_neg hj, hchild], hrest⟩
    · exact ⟨other, acts, by rw [get_attach_other hk, hget], hacts, hreach⟩

theorem opens_put_top (h : Opens doc place) (hnot : ¬ Under (sect, [leaf]) place) :
    Opens (put_top doc sect leaf node had gets) place := by
  obtain ⟨items, hsect, hreach⟩ := h
  by_cases hs : place.1 = sect
  · refine ⟨_, by rw [put_top, section_map_set, if_pos hs], ?_⟩
    rw [← hs, hsect, getD_some]
    rcases hpath : place.2 with _ | ⟨k, rest⟩
    · trivial
    · have hk : k ≠ leaf := by
        rintro rfl
        exact hnot ⟨hs, rest, hpath.symm⟩
      rw [hpath] at hreach
      obtain ⟨other, acts, hget, hacts, hrest⟩ := hreach
      refine ⟨other, acts, ?_, hacts, hrest⟩
      rw [get_keep_inherited Items.get_set_self, if_neg hk, Items.get_set_other hk, hget]
  · exact ⟨items, by rw [put_top, section_map_set, if_neg hs, hsect], hreach⟩

/-! ## Collapsing -/

/-- A bare entry that was a map of entries goes. -/
theorem word_at_collapse_bare {e : PathEntry} (hfind : find_entry_by_path doc path = some e)
    (hopens : Opens doc (e.sect, path)) (hbare : Moves.Bare Bears (word_at doc) (e.sect, path)) :
    word_at (collapse_menu doc path) place = if Under (e.sect, path) place then none else word_at doc place := by
  obtain ⟨hpath, -, items, hstands⟩ := find_entry_stands hfind
  obtain ⟨-, -, hheld⟩ := held_of_find hfind
  rw [hpath, bare_iff hheld, alive_eq_false] at hbare
  -- a way through the entry is a way into a map
  have hmap : ∃ fields, e.value = .map fields := by
    obtain ⟨items', hsect, hreach⟩ := hopens
    obtain rfl : items' = items := some.inj (hsect.symm.trans hstands.sect)
    have hget := hstands.get
    have hlast : ∀ (above : List String) (items : Items Yaml), reaches (above ++ [e.key]) items →
        (items_at above items).get e.key = some e.value → ∃ fields, e.value = .map fields := by
      intro above
      induction above with
      | nil =>
        rintro items ⟨node, acts, hnode, hacts, -⟩ hget
        obtain rfl : node = e.value := some.inj (hnode.symm.trans hget)
        cases hvalue : e.value with
        | map fields => exact ⟨fields, rfl⟩
        | str s | lit s | seq l => rw [hvalue] at hacts; exact nomatch hacts
      | cons first above ih =>
        rintro items ⟨node, acts, hnode, hacts, hreach⟩ hget
        rw [items_at_cons hnode, children_of_peek hacts] at hget
        exact ih acts hreach hget
    exact hlast e.above _ (hpath ▸ hreach) hget
  obtain ⟨fields, hvalue⟩ := hmap
  unfold collapse_menu
  simp only [hfind]
  have hcmd : ¬ has_default_cmd (.map fields) = true := by
    rw [has_default_cmd, ← hvalue, hbare.1]
    simp
  rw [hvalue] at hbare
  simp only [hvalue]
  rw [if_pos (List.isEmpty_iff.mpr hbare.2), if_neg hcmd, word_at_taken_out hstands, ← hpath]

/-- Any other entry stays. -/
theorem word_at_collapse_stays {e : PathEntry} (hfind : find_entry_by_path doc path = some e)
    (hstay : ¬ Moves.Bare Bears (word_at doc) (e.sect, path)) : word_at (collapse_menu doc path) place = word_at doc place := by
  obtain ⟨hpath, -, hheld⟩ := held_of_find hfind
  rw [hpath, bare_iff hheld, alive_eq_false] at hstay
  rw [word_at, word_at, said_collapse_stays steady_own_cmd hfind hstay]

end

end Lpm.Actions
