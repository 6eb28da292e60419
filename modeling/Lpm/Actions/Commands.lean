/-
The commands of a document by place, and that an entry which goes from one place to another
takes the commands below it along: `transfer_relocates`.
-/
import Lpm.Actions.Relocate

set_option autoImplicit false

namespace Lpm.Actions

open List Option

open Moves

/-! ## Commands -/

/-- The command at a place. -/
def cmd_at (doc : Doc) (place : Place) : Option String :=
  (said_at own_cmd doc place).bind fun words => words.getLast?.join

theorem steady_own_cmd : Steady own_cmd where
  set fields field value h := by
    have hne : "cmd" ≠ field := by
      rintro rfl
      exact absurd h (by decide)
    rw [own_cmd, own_cmd, Items.get_set_other hne]
  delete fields field h := by
    have hne : "cmd" ≠ field := by
      rintro rfl
      exact absurd h (by decide)
    rw [own_cmd, own_cmd, Items.get_delete_other hne]
  widened node := by cases node <;> rfl

/-- The settings that are written onto a node leave its command. -/
theorem own_cmd_kept_node : ∀ (had gets : Inherited) (node : Yaml), own_cmd (kept_node had gets node) = own_cmd node :=
  read_kept_node
    (fun field h fields value => by
      have hne : "cmd" ≠ field := (ne_of_mem_of_not_mem h (by decide)).symm
      rw [own_cmd, own_cmd, Items.get_set_other hne])
    steady_own_cmd.widened

/-- A node without its place in a bar has the same entries and says the same. -/
theorem read_unplaced_of {β : Type*} {read : Yaml → β} (hdelete : ∀ field ∈ PLACEMENT_KEYS,
      ∀ fields : Items Yaml, read (.map (fields.delete field)) = read (.map fields))
    (node : Yaml) : read (unplaced node) = read node := by
  cases node with
  | map fields =>
    show read (.map (PLACEMENT_KEYS.foldl (fun fields key => Items.delete key fields) fields)) = _
    simp only [PLACEMENT_KEYS, foldl_cons, foldl_nil]
    rw [hdelete _ (by decide), hdelete _ (by decide), hdelete _ (by decide)]
  | str s => rfl
  | lit s => rfl
  | seq items => rfl

theorem children_unplaced : ∀ node : Yaml, children (unplaced node) = children node :=
  read_unplaced_of fun _ h => children_delete_other (ne_of_mem_of_not_mem h (by decide))

theorem read_unplaced {β : Type*} {read : Yaml → β} (hread : Steady read) :
    ∀ node : Yaml, read (unplaced node) = read node :=
  read_unplaced_of fun _ h fields => hread.delete fields (mem_cons_of_mem _ h)

/-- A node at the end of a path has the last word. -/
theorem last_of_said (words : Option (List (Option String))) (top : List (Option String)) (own : Option String) :
    (words.map fun below => top ++ own :: below).bind (fun words => words.getLast?.join)
      = words.bind fun below => (own :: below).getLast?.join := by
  rcases words with _ | below
  · rfl
  · show (top ++ own :: below).getLast?.join = (own :: below).getLast?.join
    rw [getLast?_append_of_ne_nil _ (cons_ne_nil _ _)]

section
variable {doc : Doc} {sect : String} {above : List String} {key : String} {value : Yaml}
  {items : Items Yaml}

theorem Stands.cmd_below (h : Stands doc sect above key value items) (rest : List String) :
    cmd_at doc (sect, above ++ key :: rest)
      = (said own_cmd (children value) rest).bind fun below => (own_cmd value :: below).getLast?.join := by
  obtain ⟨top, -, hsaid⟩ := h.said_below own_cmd rest
  rw [cmd_at, hsaid, last_of_said]

/-- A node with no entries has a command at its own place only. -/
theorem Stands.cmd_bare (h : Stands doc sect above key value items) (hbare : children value = [])
    (hcmd : own_cmd value = none) (rest : List String) : cmd_at doc (sect, above ++ key :: rest) = none := by
  rw [h.cmd_below, hbare]
  cases rest with
  | nil =>
    rw [hcmd]
    rfl
  | cons k rest => rfl

end

/-! ## Edits that keep every command where it is -/

section
variable {β : Type*} {read : Yaml → β}

theorem said_reorder_menu (hread : Steady read) (doc : Doc) (path order : List String) (place : Place) :
    said_at read (reorder_menu doc path order) place = said_at read doc place := by
  unfold reorder_menu
  rcases hfind : find_entry_by_path doc path with _ | e
  · rfl
  · obtain ⟨-, -, items, hstands⟩ := find_entry_stands hfind
    simp only
    split
    · exact same_update hread hstands.sect (same_reorder hread order _) place
    · rfl

/-- An entry with a command or an entry stays, and at most loses an empty map of entries. -/
theorem said_collapse_stays (hread : Steady read) {doc : Doc} {path : List String} {e : PathEntry}
    (hfind : find_entry_by_path doc path = some e) (h : ¬ (own_cmd e.value = none ∧ children e.value = []))
    (place : Place) : said_at read (collapse_menu doc path) place = said_at read doc place := by
  obtain ⟨-, -, items, hstands⟩ := find_entry_stands hfind
  unfold collapse_menu
  simp only [hfind]
  split
  next fields hvalue =>
    split_ifs with hempty hcmd
    -- the empty `actions` go
    · refine same_update hread hstands.sect (Same.of_get fun k => ?_) place
      rw [Items.get_set]
      split_ifs with hk
      · rw [hk, hstands.get, hvalue]
        rw [List.isEmpty_iff, hvalue] at hempty
        rw [map_some, map_some, hread.delete _ (by decide), children_delete_actions, hempty]
      · rfl
    · rw [has_default_cmd, not_isSome_iff_eq_none] at hcmd
      exact absurd ⟨hcmd, List.isEmpty_iff.mp hempty⟩ h
    · rfl
  · rfl

/-- A collapsed menu has lost at most an entry with no command and no entries. -/
theorem said_collapse_menu (hread : Steady read) (doc : Doc) (path : List String) (place : Place) :
    said_at read (collapse_menu doc path) place = said_at read doc place
      ∨ said_at read (collapse_menu doc path) place = none ∧ cmd_at doc place = none := by
  rcases hfind : find_entry_by_path doc path with _ | e
  · refine Or.inl ?_
    unfold collapse_menu
    rw [hfind]
  · by_cases hdead : own_cmd e.value = none ∧ children e.value = []
    · obtain ⟨-, -, items, hstands⟩ := find_entry_stands hfind
      obtain ⟨hcmd, hempty⟩ := hdead
      have hnocmd : ¬ has_default_cmd e.value = true := by
        rw [has_default_cmd, hcmd]
        simp
      unfold collapse_menu
      simp only [hfind]
      split
      · rw [if_pos (List.isEmpty_iff.mpr hempty), if_neg hnocmd, said_taken_out hread hstands]
        split_ifs with hunder
        · refine Or.inr ⟨rfl, ?_⟩
          obtain ⟨rest, rfl⟩ := hunder.split
          rw [append_assoc, singleton_append]
          exact hstands.cmd_bare hempty hcmd rest
        · exact Or.inl rfl
      · exact Or.inl rfl
    · exact Or.inl (said_collapse_stays hread hfind hdead place)

theorem cmd_at_reorder_menu (doc : Doc) (path order : List String) (place : Place) :
    cmd_at (reorder_menu doc path order) place = cmd_at doc place := by
  rw [cmd_at, cmd_at, said_reorder_menu steady_own_cmd]

theorem cmd_at_collapse_menu (doc : Doc) (path : List String) (place : Place) :
    cmd_at (collapse_menu doc path) place = cmd_at doc place := by
  rcases said_collapse_menu steady_own_cmd doc path place with h | ⟨h, hcmd⟩
  · rw [cmd_at, cmd_at, h]
  · rw [hcmd, cmd_at, h]
    rfl

end

/-! ## From one place to another -/

section
variable {doc : Doc} {sect tsect : String} {above tabove : List String} {key tkey leaf : String}
  {value node tvalue : Yaml} {items titems : Items Yaml} {had gets : Inherited}

variable {β : Type*}

/-- What the other end of a drag is when the entry is out: it still says what it said, or it
was the entry itself, and a new one stands for it. -/
theorem target_left {read : Yaml → β} (hread : Steady read) (h : Stands doc sect above key value items)
    (ht : Stands doc tsect tabove tkey tvalue titems)
    (hout : ¬ Under (sect, above ++ [key]) (tsect, tabove)) :
    ∃ items', section_map (update doc sect above (Items.delete key)) tsect = some items'
      ∧ reaches tabove items'
      ∧ (((tsect, tabove ++ [tkey]) = (sect, above ++ [key]) ∧ (items_at tabove items').get tkey = none)
        ∨ ((tsect, tabove ++ [tkey]) ≠ (sect, above ++ [key])
          ∧ ∃ left, (items_at tabove items').get tkey = some left ∧ read left = read tvalue)) := by
  by_cases hself : (tsect, tabove ++ [tkey]) = (sect, above ++ [key])
  · obtain ⟨rfl, hpath⟩ := Prod.mk.inj hself
    obtain ⟨rfl, hkey⟩ := append_inj' hpath rfl
    obtain rfl : tkey = key := (List.cons.inj hkey).1
    have hstarts : ¬ tabove ++ [tkey] <+: tabove := fun hstarts => by
      have hlength := hstarts.length_le
      rw [length_append, length_singleton] at hlength
      omega
    have hreach := @reaches_delete tabove tkey items tabove h.reach hstarts
    refine ⟨_, by rw [section_map_update h.sect, if_pos rfl], hreach, Or.inl ⟨rfl, ?_⟩⟩
    have hgone := said_taken_out steady_own_cmd h (tsect, tabove ++ [tkey])
    rw [if_pos ⟨rfl, prefix_rfl⟩, said_at_update h.sect, if_pos rfl, said_append] at hgone
    obtain ⟨top, htop⟩ := @said_of_reaches _ own_cmd _ _ hreach
    rw [htop, bind_some, map_eq_none_iff, said_cons] at hgone
    rcases hget : (items_at tabove (update_items (Items.delete tkey) tabove items)).get tkey with _ | left
    · rfl
    · rw [hget] at hgone
      exact nomatch hgone
  -- else the target does not stand under the entry
  · have hnot : ¬ Under (sect, above ++ [key]) (tsect, tabove ++ [tkey]) := by
      rintro ⟨hs, rest, heq⟩
      rcases eq_nil_or_concat rest with rfl | ⟨rest, last, rfl⟩
      · rw [append_nil] at heq
        exact hself (Prod.ext hs heq.symm)
      · rw [concat_eq_append] at heq
        have heq' : (above ++ [key] ++ rest) ++ [last] = tabove ++ [tkey] := by
          rw [append_assoc]
          exact heq
        exact hout ⟨hs, rest, (append_inj' heq' rfl).1⟩
    obtain ⟨left, items', hstands, hleft⟩ := h.left hread ht hnot
    exact ⟨items', hstands.sect, hstands.reach, Or.inr ⟨hself, left, hstands.get, hleft⟩⟩

/-- The document with the entry taken out and its node put in. -/
def transfer (doc : Doc) (sect : String) (above : List String) (key : String) (tsect : String)
    (tabove : List String) (tkey leaf : String) (node : Yaml) (had gets : Inherited) : Doc :=
  update (update doc sect above (Items.delete key)) tsect tabove (attach tkey leaf node had gets)

/-- Everything the node holds is at its new place, below what its new place says. -/
theorem said_transfer_leaf {read : Yaml → β} (hread : Steady read)
    (h : Stands doc sect above key value items) (ht : Stands doc tsect tabove tkey tvalue titems)
    (hout : ¬ Under (sect, above ++ [key]) (tsect, tabove)) (rest : List String) :
    ∃ top, said_at read (transfer doc sect above key tsect tabove tkey leaf node had gets)
          (tsect, tabove ++ [tkey, leaf] ++ rest)
        = (said read (children node) rest).map (top ++ read (kept_node had gets node) :: ·)
      ∧ (((tsect, tabove ++ [tkey]) ≠ (sect, above ++ [key]) ∧ said_at read doc (tsect, tabove ++ [tkey]) = some top)
        ∨ ((tsect, tabove ++ [tkey]) = (sect, above ++ [key])
          ∧ ∃ before, said_at read doc (sect, above) = some before ∧ top = before ++ [read (.map [])])) := by
  obtain ⟨items', hsect', hreach', hhost⟩ := target_left hread h ht hout
  obtain ⟨top, htop, hsaid⟩ := said_attach_leaf hread hsect' hreach' tkey leaf node had gets rest
  rw [said_taken_out hread h, if_neg hout] at htop
  have hplace : tabove ++ [tkey, leaf] ++ rest = tabove ++ tkey :: leaf :: rest := by
    rw [append_assoc]
    rfl
  refine ⟨top ++ [read (((items_at tabove items').get tkey).getD (.map []))], ?_, ?_⟩
  · rw [hplace, transfer, hsaid]
    congr 1
    funext below
    rw [append_assoc]
    rfl
  · rcases hhost with ⟨hself, hnone⟩ | ⟨hne, left, hget, hleft⟩
    · refine Or.inr ⟨hself, top, ?_, by rw [hnone]; rfl⟩
      obtain ⟨rfl, hpath⟩ := Prod.mk.inj hself
      obtain ⟨rfl, -⟩ := append_inj' hpath rfl
      exact htop
    · refine Or.inl ⟨hne, ?_⟩
      obtain ⟨top', htop', hthere⟩ := ht.said_below read []
      rw [htop] at htop'
      rw [hthere, ← some.inj htop', hget, ← hleft]
      rfl

/-- Every place that is not among the new ones. -/
theorem said_transfer_other {read : Yaml → β} (hread : Steady read)
    (h : Stands doc sect above key value items) (ht : Stands doc tsect tabove tkey tvalue titems)
    (hout : ¬ Under (sect, above ++ [key]) (tsect, tabove)) {place : Place}
    (hleaf : ¬ Under (tsect, tabove ++ [tkey, leaf]) place)
    (hnew : place = (sect, above ++ [key]) → place ≠ (tsect, tabove ++ [tkey])) :
    said_at read (transfer doc sect above key tsect tabove tkey leaf node had gets) place
      = if Under (sect, above ++ [key]) place then none else said_at read doc place := by
  obtain ⟨items', hsect', hreach', hhost⟩ := target_left hread h ht hout
  rw [transfer, said_attach_other hread hsect' hreach' hleaf, said_taken_out hread h]
  intro hplace
  rcases hhost with ⟨hself, -⟩ | ⟨-, left, hget, -⟩
  · exact absurd hplace (hnew (hplace.trans hself))
  · rw [hget]
    exact some_ne_none left

/-- The commands go along. -/
theorem transfer_relocates (h : Stands doc sect above key value items)
    (ht : Stands doc tsect tabove tkey tvalue titems) (hout : ¬ Under (sect, above ++ [key]) (tsect, tabove))
    (hfree : (children tvalue).has leaf = false) (hcmd : own_cmd node = own_cmd value)
    (hchildren : children node = children value) :
    Relocated (cmd_at doc) (cmd_at (transfer doc sect above key tsect tabove tkey leaf node had gets))
      (sect, above ++ [key]) (tsect, tabove ++ [tkey, leaf]) := by
  refine ⟨fun rest => ?_, fun rest _ => ?_, fun {place} hsource htarget => ?_, fun {place} hsource htarget => ?_⟩
  · obtain ⟨top, hsaid, -⟩ :=
      @said_transfer_leaf doc sect tsect above tabove key tkey leaf value node tvalue items titems had gets _ own_cmd
        steady_own_cmd h ht hout rest
    rw [cmd_at, hsaid, last_of_said, own_cmd_kept_node, hcmd, hchildren, append_assoc, singleton_append,
      h.cmd_below]
  · have hplace : tabove ++ [tkey, leaf] ++ rest = tabove ++ tkey :: leaf :: rest := by
      rw [append_assoc]
      rfl
    rw [hplace, ht.cmd_below, said_cons, Items.has_eq_false.mp hfree]
    rfl
  · have hnew : place = (sect, above ++ [key]) → place ≠ (tsect, tabove ++ [tkey]) := fun hplace =>
      absurd ⟨congrArg Prod.fst hplace, hplace ▸ prefix_rfl⟩ hsource
    rw [cmd_at, said_transfer_other steady_own_cmd h ht hout htarget hnew, if_neg hsource]
    rfl
  · by_cases hself : place = (tsect, tabove ++ [tkey]) ∧ place = (sect, above ++ [key])
    -- the entry that stands for the one that went has no command
    · obtain ⟨rfl, hplace⟩ := hself
      obtain ⟨items', hsect', hreach', hhost⟩ := target_left steady_own_cmd h ht hout
      obtain ⟨top, -, hsaid⟩ := said_attach_host steady_own_cmd hsect' hreach' tkey leaf node had gets
      rcases hhost with ⟨-, hnone⟩ | ⟨hne, -⟩
      · rw [cmd_at, transfer, hsaid, hnone, bind_some, getLast?_append_of_ne_nil _ (cons_ne_nil _ _)]
        rfl
      · exact absurd hplace hne
    · rw [cmd_at, said_transfer_other steady_own_cmd h ht hout htarget fun hplace hnew => hself ⟨hnew, hplace⟩,
        if_pos hsource]
      rfl

end

end Lpm.Actions
