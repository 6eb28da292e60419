/-
No drag loses an action: every entry that has a command still has it after an edit of
`actionsStructural.ts`, at one place, and no other entry comes to have one.

`lands` says where an edit takes every place. The two edits it cannot speak for are kept
apart: one whose target goes along with the entry that is moved (`into_itself`), and one
that lets an item out of a menu next to an entry of the other section with the same key
(`hides`).
-/
import Lpm.Actions.Lookup

set_option autoImplicit false

namespace Lpm.Actions

open List Option

open Moves

/-! ## Where an edit takes every place -/

variable (doc : Doc)

def lands : StructuralOp → Place → Place
  | .nest source target =>
    if source = target then id
    else
      match find_entry_by_path doc source, find_entry_by_path doc target with
      | some s, some t => relocate (s.sect, source) (t.sect, target ++ [s.key])
      | _, _ => id
  | .ungroup path =>
    match find_entry_by_path doc path with
    | some e =>
      match e.value with
      | .map _ => rise e.sect e.above e.key
      | _ => id
    | none => id
  | .extract_onto parent child target _ _ =>
    match find_entry_by_path doc parent, find_entry_by_path doc target with
    | some p, some t => relocate (p.sect, parent ++ [child]) (t.sect, target ++ [child])
    | _, _ => id
  | .extract_to_top parent child =>
    match find_entry_by_path doc parent with
    | some p => relocate (p.sect, parent ++ [child]) (p.sect, [child])
    | none => id
  | .reorder_menu _ _ _ _ => id

/-- The target stands below the entry that is moved, and goes where that goes. -/
def into_itself : StructuralOp → Bool
  | .nest source target => inside source target.dropLast
  | .extract_onto parent child target _ _ => inside (parent ++ [child]) target.dropLast
  | _ => false

/-- A menu of a section is dissolved, and one of its items has the key of an entry of the
other section. -/
def hides : StructuralOp → Bool
  | .ungroup path =>
    match find_entry_by_path doc path with
    | some e => e.above.isEmpty && (children e.value).keys.any fun key =>
        ACTION_SECTIONS.any fun sect => sect ≠ e.sect && top_has doc sect key
    | none => false
  | _ => false

/-- What an edit does to the entries with a command: each goes to a place of its own and keeps
its command, there is no other, and what a path found before a path finds afterwards. -/
structure Keeps (doc doc' : Doc) (goes : Place → Place) : Prop where
  moved : Moved (cmd_at doc) (cmd_at doc') goes
  seen : ∀ place, Seen doc place → cmd_at doc place ≠ none → Seen doc' (goes place)

theorem Keeps.refl : Keeps doc doc id :=
  ⟨Moved.stay fun _ => rfl, fun _ h _ => h⟩

/-- Edits that move no command and add no key change nothing more. -/
theorem Keeps.then_stay {doc doc' later : Doc} {goes : Place → Place} (h : Keeps doc doc' goes)
    (hstay : ∀ place, cmd_at later place = cmd_at doc' place)
    (hkeys : ∀ key, top_has later "actions" key = true → top_has doc' "actions" key = true) :
    Keeps doc later goes := by
  refine ⟨h.moved.then_stay hstay, fun place hseen hcmd => ?_⟩
  rcases h.seen place hseen hcmd with hs | ⟨hs, hno⟩
  · exact Or.inl hs
  · refine Or.inr ⟨hs, ?_⟩
    by_contra hhas
    rw [Bool.not_eq_false] at hhas
    rw [hkeys _ hhas] at hno
    exact nomatch hno

section
variable {doc : Doc} {sect tsect : String} {above tabove : List String} {key tkey : String}
  {value node tvalue : Yaml} {items titems : Items Yaml}

theorem transfer_keeps (leaf : String) (had gets : Inherited) (h : Stands doc sect above key value items)
    (ht : Stands doc tsect tabove tkey tvalue titems) (hseen : Seen doc (tsect, tabove ++ [tkey]))
    (hout : ¬ Under (sect, above ++ [key]) (tsect, tabove)) (hfree : (children tvalue).has leaf = false)
    (hcmd : own_cmd node = own_cmd value) (hchildren : children node = children value) :
    Keeps doc (transfer doc sect above key tsect tabove tkey leaf node had gets)
      (relocate (sect, above ++ [key]) (tsect, tabove ++ [tkey] ++ [leaf])) := by
  have htarget : tabove ++ [tkey] ++ [leaf] = tabove ++ [tkey, leaf] := append_assoc _ _ _
  have hkeys : ∀ k, top_has doc "actions" k = false →
      top_has (transfer doc sect above key tsect tabove tkey leaf node had gets) "actions" k = false := by
    intro k hno
    by_contra hhas
    rw [Bool.not_eq_false] at hhas
    rw [top_has_transfer ht hhas] at hno
    exact nomatch hno
  refine ⟨htarget ▸ (transfer_relocates h ht hout hfree hcmd hchildren).moves, fun place hplace _ => ?_⟩
  by_cases hunder : Under (sect, above ++ [key]) place
  · obtain ⟨rest, rfl⟩ := hunder.split
    rw [relocate_append]
    have hhead : ((tabove ++ [tkey] ++ [leaf]) ++ rest).headD "" = (tabove ++ [tkey]).headD "" := by
      cases tabove <;> rfl
    rcases hseen with hs | ⟨hs, hno⟩
    · exact Or.inl hs
    · refine Or.inr ⟨hs, ?_⟩
      rw [hhead]
      exact hkeys _ hno
  · rw [relocate_other hunder]
    rcases hplace with hs | ⟨hs, hno⟩
    · exact Or.inl hs
    · exact Or.inr ⟨hs, hkeys _ hno⟩

end

/-! ## Edit by edit -/

section
variable {doc doc' : Doc} {order_of : List String → List String} {goes : Place → Place}

theorem reorder_keeps (h : Keeps doc doc' goes) (path order : List String) :
    Keeps doc (reorder_menu doc' path order) goes :=
  h.then_stay (cmd_at_reorder_menu doc' path order) fun _ hhas => top_has_reorder_menu order hhas

theorem collapse_keeps (h : Keeps doc doc' goes) (path : List String) :
    Keeps doc (collapse_menu doc' path) goes :=
  h.then_stay (cmd_at_collapse_menu doc' path) fun _ hhas => top_has_collapse_menu hhas

/-- The target of an edit stands outside of what is moved. -/
theorem not_under_of_inside {sect tsect : String} {source above : List String} (h : inside source above = false) :
    ¬ Under (sect, source) (tsect, above) := by
  rintro ⟨-, hstarts⟩
  rw [inside, isPrefixOf_iff_prefix.mpr hstarts] at h
  exact nomatch h

/-- A nested entry stays where it is, or is taken out and put below the target. -/
theorem nest_entry_ok {source target : List String} (h : nest_entry doc order_of source target = .ok doc') :
    ((source = target ∨ find_entry_by_path doc source = none ∨ find_entry_by_path doc target = none) ∧ doc' = doc) ∨
    ∃ s t order, source ≠ target ∧ find_entry_by_path doc source = some s ∧ find_entry_by_path doc target = some t ∧
      (children t.value).has s.key = false ∧
      doc' = reorder_menu (attach_to (update doc s.sect s.above (Items.delete s.key)) source t s.key
        (unplaced s.value) (inherited_at doc source) (inherited_at doc target)) target order := by
  unfold nest_entry at h
  by_cases hsame : source = target
  · rw [if_pos hsame] at h
    exact .inl ⟨.inl hsame, (Except.ok.inj h).symm⟩
  rw [if_neg hsame] at h
  rcases hs : find_entry_by_path doc source with _ | s
  · rw [hs] at h
    exact .inl ⟨.inr (.inl rfl), (Except.ok.inj h).symm⟩
  rcases ht : find_entry_by_path doc target with _ | t
  · rw [hs, ht] at h
    exact .inl ⟨.inr (.inr rfl), (Except.ok.inj h).symm⟩
  rw [hs, ht] at h
  simp only at h
  by_cases hbody : (!has_action_body t.value) = true
  · rw [if_pos hbody] at h
    cases h
  by_cases hconflict : (children t.value).has s.key = true
  · rw [if_neg hbody, if_pos hconflict] at h
    cases h
  rw [if_neg hbody, if_neg hconflict] at h
  rw [Bool.not_eq_true] at hconflict
  exact .inr ⟨s, t, _, hsame, rfl, rfl, hconflict, (Except.ok.inj h).symm⟩

theorem dropLast_of_find {t : PathEntry} {target : List String} (ht : find_entry_by_path doc target = some t) :
    target.dropLast = t.above := by
  rw [(find_entry_stands ht).1]
  exact dropLast_concat

theorem nest_keeps {source target : List String} (h : nest_entry doc order_of source target = .ok doc')
    (hinto : inside source target.dropLast = false) : Keeps doc doc' (lands doc (.nest source target)) := by
  simp only [lands]
  obtain ⟨hnone, rfl⟩ | ⟨s, t, order, hsame, hs, ht, hconflict, rfl⟩ := nest_entry_ok h
  · split
    · exact Keeps.refl doc'
    · split
      · next hs ht =>
        rw [hs, ht] at hnone
        simp_all
      · exact Keeps.refl doc'
  · obtain ⟨hspath, -, sitems, hsource⟩ := find_entry_stands hs
    obtain ⟨htpath, -, titems, htarget⟩ := find_entry_stands ht
    rw [dropLast_of_find ht] at hinto
    rw [if_neg hsame, hs, ht, attach_to, if_neg (by rw [hinto]; simp)]
    have hseen := seen_of_find ht
    have hunder := @not_under_of_inside s.sect t.sect source t.above hinto
    rw [hspath] at hunder
    rw [htpath] at hseen
    have hkeeps := transfer_keeps s.key (inherited_at doc source) (inherited_at doc target) hsource htarget
      hseen hunder hconflict (read_unplaced steady_own_cmd s.value) (children_unplaced s.value)
    rw [← hspath, ← htpath] at hkeeps
    exact reorder_keeps hkeeps _ _

variable {child : String} {parent : List String}

theorem detach_child_some {node : Yaml}
    (h : detach_child doc parent child = some (node, doc')) :
    ∃ p items, find_entry_by_path doc parent = some p ∧ (children p.value).get child = some node
      ∧ Stands doc p.sect parent child node items ∧ doc' = update doc p.sect parent (Items.delete child) := by
  unfold detach_child at h
  rcases hp : find_entry_by_path doc parent with _ | p
  · rw [hp] at h
    exact nomatch h
  · rw [hp] at h
    simp only at h
    rcases hchild : (children p.value).get child with _ | n
    · rw [hchild] at h
      exact nomatch h
    · rw [hchild] at h
      cases h
      obtain ⟨hpath, -, items, hstands⟩ := find_entry_stands hp
      exact ⟨p, items, rfl, hchild, hpath ▸ hstands.child hchild, rfl⟩

theorem extract_onto_ok {target : List String} {«over» : Option String}
    {position : Option Bool} (h : extract_onto doc order_of parent child target «over» position = .ok doc') :
    ∃ p t node items order, find_entry_by_path doc parent = some p ∧ find_entry_by_path doc target = some t ∧
      (children p.value).get child = some node ∧ Stands doc p.sect parent child node items ∧
      (children t.value).has child = false ∧
      doc' = collapse_menu (reorder_menu (attach_to (update doc p.sect parent (Items.delete child)) (parent ++ [child])
        t child node (inherited_at doc parent) (inherited_at doc target)) target order) parent := by
  unfold extract_onto at h
  rcases ht : find_entry_by_path doc target with _ | t
  · rw [ht] at h
    cases h
  rw [ht] at h
  simp only at h
  by_cases hbody : (!has_action_body t.value) = true
  · rw [if_pos hbody] at h
    cases h
  by_cases hconflict : (children t.value).has child = true
  · rw [if_neg hbody, if_pos hconflict] at h
    cases h
  rw [if_neg hbody, if_neg hconflict] at h
  rcases hdetach : detach_child doc parent child with _ | ⟨node, out⟩
  · rw [hdetach] at h
    cases h
  rw [hdetach] at h
  obtain ⟨p, items, hp, hchild, hstands, rfl⟩ := detach_child_some hdetach
  rw [Bool.not_eq_true] at hconflict
  exact ⟨p, t, node, items, _, hp, rfl, hchild, hstands, hconflict, (Except.ok.inj h).symm⟩

theorem extract_onto_keeps {parent target : List String} {«over» : Option String}
    {position : Option Bool} (h : extract_onto doc order_of parent child target «over» position = .ok doc')
    (hinto : inside (parent ++ [child]) target.dropLast = false) :
    Keeps doc doc' (lands doc (.extract_onto parent child target «over» position)) := by
  simp only [lands]
  obtain ⟨p, t, node, items, order, hp, ht, -, hstands, hconflict, rfl⟩ := extract_onto_ok h
  obtain ⟨htpath, -, titems, htarget⟩ := find_entry_stands ht
  rw [dropLast_of_find ht] at hinto
  have hseen := seen_of_find ht
  rw [htpath] at hseen
  have hkeeps := transfer_keeps child (inherited_at doc parent) (inherited_at doc target) hstands htarget
    hseen (not_under_of_inside hinto) hconflict rfl rfl
  rw [← htpath] at hkeeps
  rw [hp, ht, attach_to, if_neg (by rw [hinto]; simp)]
  exact collapse_keeps (reorder_keeps hkeeps _ _) _

/-- The parent of the entry taken out is still found where it was. -/
theorem find_parent_left {p : PathEntry} {node : Yaml} {items : Items Yaml}
    (hp : find_entry_by_path doc parent = some p) (hstands : Stands doc p.sect parent child node items) :
    ((find_entry_by_path (update doc p.sect parent (Items.delete child)) parent).map PathEntry.sect).getD "actions"
      = p.sect := by
  obtain ⟨hpath, -, pitems, hparent⟩ := find_entry_stands hp
  obtain ⟨top, -, hsaid⟩ := hparent.said_below own_cmd []
  rw [← hpath] at hsaid
  have hnot : ¬ Under (p.sect, parent ++ [child]) (p.sect, parent) := by
    rintro ⟨-, hstarts⟩
    have hlength : (parent ++ [child]).length ≤ parent.length := hstarts.length_le
    rw [length_append, length_singleton] at hlength
    omega
  have hafter := said_taken_out steady_own_cmd hstands (p.sect, parent)
  rw [if_neg hnot, hsaid] at hafter
  have hseen : Seen (update doc p.sect parent (Items.delete child)) (p.sect, parent) := by
    rcases seen_of_find hp with hs | ⟨hs, hno⟩
    · exact Or.inl hs
    · refine Or.inr ⟨hs, ?_⟩
      by_contra hhas
      rw [Bool.not_eq_false] at hhas
      rw [top_has_taken_out hhas] at hno
      exact nomatch hno
  rcases hcases : parent with _ | ⟨first, rest⟩
  · rw [hcases] at hp
    exact nomatch hp
  · rw [hcases] at hafter hseen
    have hfound : (find_entry_by_path (update doc p.sect (first :: rest) (Items.delete child)) (first :: rest)).map
        PathEntry.sect = some p.sect := found_of_seen hafter hseen
    rw [hfound]
    rfl

theorem extract_to_top_ok (h : extract_to_top doc parent child = .ok doc') :
    ∃ p node items, find_top_entry doc child = none ∧ find_entry_by_path doc parent = some p ∧
      (children p.value).get child = some node ∧ Stands doc p.sect parent child node items ∧
      doc' = collapse_menu (put_top (update doc p.sect parent (Items.delete child)) p.sect child node
        (inherited_at doc parent) (top_level_defaults p.sect)) parent := by
  unfold extract_to_top at h
  by_cases hconflict : (find_top_entry doc child).isSome = true
  · rw [if_pos hconflict] at h
    cases h
  rw [if_neg hconflict] at h
  rcases hdetach : detach_child doc parent child with _ | ⟨node, out⟩
  · simp only [hdetach] at h
    cases h
  simp only [hdetach] at h
  obtain ⟨p, items, hp, hchild, hstands, rfl⟩ := detach_child_some hdetach
  rw [find_parent_left hp hstands] at h
  exact ⟨p, node, items, not_isSome_iff_eq_none.mp hconflict, hp, hchild, hstands, (Except.ok.inj h).symm⟩

theorem extract_to_top_keeps (h : extract_to_top doc parent child = .ok doc') :
    Keeps doc doc' (lands doc (.extract_to_top parent child)) := by
  simp only [lands]
  obtain ⟨p, node, items, hconflict, hp, -, hstands, rfl⟩ := extract_to_top_ok h
  obtain ⟨-, hmem, -⟩ := find_entry_stands hp
  rw [hp]
  refine collapse_keeps ⟨Relocated.moves ?_, ?_⟩ parent
  · refine ⟨fun rest => ?_, fun rest _ => ?_, fun {place} hsource htarget => ?_,
      fun {place} hsource htarget => ?_⟩
    · have hleaf := @said_put_top_leaf _ (update doc p.sect parent (Items.delete child)) p.sect child node
        (inherited_at doc parent) (top_level_defaults p.sect) own_cmd rest
      rw [append_assoc, singleton_append, hstands.cmd_below]
      show cmd_at _ (p.sect, child :: rest) = _
      rw [cmd_at, hleaf, own_cmd_kept_node]
      exact last_of_said _ [] _
    · have hno := top_has_of_none hconflict hmem
      show cmd_at doc (p.sect, child :: rest) = none
      rw [cmd_at, said_at, said_cons, Items.has_eq_false.mp hno]
      rfl
    · have hput := @said_put_top_other _ own_cmd (update doc p.sect parent (Items.delete child)) p.sect child node
        (inherited_at doc parent) (top_level_defaults p.sect) place htarget
      rw [cmd_at, hput, said_taken_out steady_own_cmd hstands, if_neg hsource]
      rfl
    · have hput := @said_put_top_other _ own_cmd (update doc p.sect parent (Items.delete child)) p.sect child node
        (inherited_at doc parent) (top_level_defaults p.sect) place htarget
      rw [cmd_at, hput, said_taken_out steady_own_cmd hstands, if_pos hsource]
      rfl
  · intro place hplace hcmd
    -- the key at the top is new to both sections
    have hnew : ∀ k, top_has doc "actions" k = false → (p.sect = "actions" → k ≠ child) →
        top_has (put_top (update doc p.sect parent (Items.delete child)) p.sect child node
          (inherited_at doc parent) (top_level_defaults p.sect)) "actions" k = false := by
      intro k hno hne
      by_contra hhas
      rw [Bool.not_eq_false] at hhas
      rcases top_has_put_top hhas with ⟨hs, hk⟩ | hold
      · exact hne hs.symm hk
      · rw [top_has_taken_out hold] at hno
        cases hno
    by_cases hunder : Under (p.sect, parent ++ [child]) place
    · obtain ⟨rest, rfl⟩ := hunder.split
      rw [relocate_append]
      rcases seen_of_find hp with hs | ⟨hs, -⟩
      · exact Or.inl hs
      · refine Or.inr ⟨hs, hnew child (top_has_of_none hconflict (by decide)) fun hs' => ?_⟩
        exact absurd (hs'.symm.trans hs) (by decide)
    · rw [relocate_other hunder]
      rcases hplace with hs | ⟨hs, hno⟩
      · exact Or.inl hs
      · refine Or.inr ⟨hs, hnew _ hno fun _ hk => ?_⟩
        have hhas := top_has_of_cmd hcmd
        rw [hk, hs, top_has_of_none hconflict (by decide)] at hhas
        cases hhas

variable {fields items : Items Yaml} {above : List String}

/-- A dissolved menu gives its items to the container it stood in. -/
theorem dissolves {sect : String} {key : String}
    (h : Stands doc sect above key (.map fields) items)
    (hclash : ∀ k, (children (.map fields)).has k = true → clashes key fields (items_at above items) k = false) :
    Dissolved (cmd_at doc) (cmd_at (update doc sect above (splice key (stands_in key fields)))) sect above key
      fun k => (children (.map fields)).has k = true := by
  have hnone : ∀ {k : String}, ¬ (children (.map fields)).has k = true → (children (.map fields)).get k = none :=
    fun hk => Items.has_eq_false.mp (Bool.not_eq_true _ ▸ hk)
  refine ⟨fun {k} rest hk => ?_, fun {k} rest hk => ?_, fun {k} rest hk hne => ?_, fun hk => ?_, fun hk => ?_,
    fun hk k rest => ?_, fun {place} hplace => ?_⟩
  · obtain ⟨top, -, hsaid⟩ := said_risen steady_own_cmd h hclash hk rest
    obtain ⟨top', -, hbelow⟩ := h.said_below own_cmd (k :: rest)
    rw [cmd_at, hsaid, cmd_at, hbelow, said_cons]
    rcases (children (.map fields)).get k with _ | node
    · rfl
    · rw [bind_some, Option.map_map, Option.map_map]
      have hsplit : ∀ below : List (Option String), top' ++ own_cmd (.map fields) :: own_cmd node :: below
          = (top' ++ [own_cmd (.map fields)]) ++ own_cmd node :: below := by
        intro below
        rw [append_assoc]
        rfl
      have hdeep : ((fun below => top' ++ own_cmd (.map fields) :: below) ∘ fun below => own_cmd node :: below)
          = fun below => (top' ++ [own_cmd (.map fields)]) ++ own_cmd node :: below := funext hsplit
      rw [hdeep, last_of_said]
      exact last_of_said _ top _
  · rw [h.cmd_below, said_cons, hnone hk]
    rfl
  -- the key is free, since the child does not clash
  · have hno := hclash k hk
    rw [clashes, Bool.or_eq_false_iff] at hno
    have hget : (items_at above items).get k = none := by
      rw [Items.get_eq_none]
      intro hmem
      obtain ⟨item, hitem, rfl⟩ := List.mem_map.mp hmem
      have hany := List.any_eq_false.mp hno.1 item hitem
      rw [decide_eq_true hne, decide_eq_true rfl] at hany
      exact hany rfl
    rw [cmd_at, said_at, h.sect, getD_some, said_append, said_cons, hget]
    rcases said own_cmd items above with _ | top
    · rfl
    · rfl
  · have hno := hclash key hk
    rw [clashes, Bool.or_eq_false_iff, Bool.and_eq_false_iff] at hno
    have hcmd : own_cmd (.map fields) = none := by
      rcases hno.2 with hcmd | hne
      · rw [has_default_cmd, isSome_eq_false_iff, isNone_iff_eq_none] at hcmd
        exact hcmd
      · exact absurd rfl (of_decide_eq_false hne)
    rw [h.cmd_below, hcmd]
    rfl
  · have hsaid := said_dissolved steady_own_cmd h hclash (by simpa using hk) []
    rw [cmd_at, hsaid]
    by_cases hcmd : has_default_cmd (.map fields) = true
    · rw [if_pos ⟨hcmd, rfl⟩]
      rfl
    · rw [if_neg (fun hboth => hcmd hboth.1), h.cmd_below]
      rw [has_default_cmd, not_isSome_iff_eq_none] at hcmd
      rw [hcmd]
      rfl
  · have hsaid := said_dissolved steady_own_cmd h hclash (by simpa using hk) (k :: rest)
    rw [if_neg (fun hboth => by cases hboth.2)] at hsaid
    rw [cmd_at, hsaid]
    rfl
  · rw [cmd_at, said_beside steady_own_cmd h hclash hplace]
    rfl

theorem top_has_dissolved {sect s key k : String}
    (h : Stands doc sect above key (.map fields) items)
    (hclash : ∀ k, (children (.map fields)).has k = true → clashes key fields (items_at above items) k = false)
    (hhas : top_has (update doc sect above (splice key (stands_in key fields))) s k = true) :
    top_has doc s k = true
      ∨ above = [] ∧ sect = s ∧ (children (.map fields)).has k = true := by
  rcases top_has_update hhas with hold | ⟨habove, hs, hnew⟩
  · exact Or.inl hold
  · subst habove
    have hkey : items.has key = true := by
      have hget : items.get key = some (.map fields) := h.get
      rw [Items.has, hget]
      rfl
    rw [h.sect, getD_some, Items.has, get_stands_in hkey hclash] at hnew
    by_cases hchild : (children (.map fields)).has k = true
    · exact Or.inr ⟨rfl, hs.symm, hchild⟩
    · refine Or.inl ?_
      rw [top_has, hs, h.sect, getD_some]
      rw [if_neg hchild] at hnew
      by_cases hk : k = key
      · rw [hk]
        exact hkey
      · rw [if_neg hk] at hnew
        exact hnew

/-- What the check of `ungroupMenu` comes to. -/
theorem no_clash {sect key : String}
    (h : Stands doc sect above key (.map fields) items)
    (hfind : (children (.map fields)).find? (fun pair =>
      ((held_at doc sect above).any fun item => item.1 ≠ key && item.1 = pair.1)
        || (has_default_cmd (.map fields) && pair.1 = key)) = none)
    (k : String) (hk : (children (.map fields)).has k = true) : clashes key fields (items_at above items) k = false := by
  have hheld : held_at doc sect above = items_at above items := by
    rw [held_at, h.sect]
    rfl
  rw [Items.has_eq_true] at hk
  obtain ⟨pair, hpair, rfl⟩ := List.mem_map.mp hk
  have hno := find?_eq_none.mp hfind pair hpair
  rw [Bool.not_eq_true, hheld] at hno
  exact hno

theorem ungroup_keeps {path : List String} (h : ungroup_menu doc path = .ok doc')
    (hhides : hides doc (.ungroup path) = false) : Keeps doc doc' (lands doc (.ungroup path)) := by
  unfold ungroup_menu at h
  simp only [lands]
  simp only [hides] at hhides
  rcases he : find_entry_by_path doc path with _ | e
  · rw [he] at h
    obtain rfl := Except.ok.inj h
    exact Keeps.refl doc
  · rw [he] at h hhides
    obtain ⟨hpath, hmem, items, hstands⟩ := find_entry_stands he
    have hsees := seen_of_find he
    obtain ⟨sect, above, key, value⟩ := e
    simp only at h hhides hpath hmem hstands hsees ⊢
    cases value with
    | str text | lit text | seq list =>
      obtain rfl := Except.ok.inj h
      exact Keeps.refl doc
    | map fields =>
      simp only at h
      split at h
      · cases h
      next hfind =>
        obtain rfl := Except.ok.inj h
        have hclash := no_clash hstands hfind
        show Keeps doc (update doc sect above (splice key (stands_in key fields))) (rise sect above key)
        refine ⟨(dissolves hstands hclash).moves, fun place hplace hcmd => ?_⟩
        -- what the section is asked for is not hidden by a promoted key
        have hnew : ∀ k, top_has doc "actions" k = false →
            (above = [] → sect = "actions" → (children (.map fields)).has k = false) →
            top_has (update doc sect above (splice key (stands_in key fields))) "actions" k = false := by
          intro k hno hchild
          by_contra hhas
          rw [Bool.not_eq_false] at hhas
          rcases top_has_dissolved hstands hclash hhas with hold | ⟨habove, hs, hhas'⟩
          · rw [hold] at hno
            cases hno
          · rw [hchild habove hs] at hhas'
            cases hhas'
        -- a promoted key is in no other section
        have hclear : above = [] → ∀ k, (children (.map fields)).has k = true → ∀ s ∈ ACTION_SECTIONS, s ≠ sect →
            top_has doc s k = false := by
          intro habove k hk s hs hne
          rw [habove, isEmpty_nil, Bool.true_and] at hhides
          have hany := List.any_eq_false.mp hhides k (Items.has_eq_true.mp hk)
          rw [Bool.not_eq_true] at hany
          have hone := List.any_eq_false.mp hany s hs
          rw [decide_eq_true hne, Bool.true_and, Bool.not_eq_true] at hone
          exact hone
        by_cases hbelow : ∃ k rest, place = (sect, above ++ key :: k :: rest)
        · obtain ⟨k, rest, rfl⟩ := hbelow
          rw [rise_below]
          rcases hsees with hs | ⟨hs, hno⟩
          · exact Or.inl hs
          · refine Or.inr ⟨hs, ?_⟩
            change sect = "terminals" at hs
            have hk : (children (.map fields)).has k = true := by
              by_contra hk
              exact hcmd ((dissolves hstands hclash).below rest hk)
            cases above with
            | nil =>
              have hother : "actions" ≠ sect := by
                rw [hs]
                decide
              exact hnew k (hclear rfl k hk "actions" (by decide) hother) fun _ hs' => absurd hs'.symm hother
            | cons first above =>
              rw [hpath] at hno
              exact hnew first hno fun hnil => by cases hnil
        · rw [rise_other fun k rest heq => hbelow ⟨k, rest, heq⟩]
          rcases hplace with hs | ⟨hs, hno⟩
          · exact Or.inl hs
          · refine Or.inr ⟨hs, hnew _ hno fun habove hs' => ?_⟩
            by_contra hk
            rw [Bool.not_eq_false] at hk
            have hne : place.1 ≠ sect := by
              rw [hs, hs']
              decide
            have hlacks := hclear habove _ hk place.1 (by rw [hs]; decide) hne
            rw [top_has_of_cmd hcmd] at hlacks
            cases hlacks

end

theorem reorder_op {parent : List String} {child «over» : String} {position : Option Bool}
    {doc doc' : Doc} {order_of : List String → List String}
    (h : apply_op_to_doc doc order_of (.reorder_menu parent child «over» position) = .ok doc') :
    doc' = doc ∨ ∃ order, doc' = reorder_menu doc parent order := by
  simp only [apply_op_to_doc] at h
  split at h
  · split at h
    · exact Or.inl (Except.ok.inj h).symm
    · split at h
      · split at h
        · exact Or.inr ⟨_, (Except.ok.inj h).symm⟩
        · exact Or.inl (Except.ok.inj h).symm
      · split at h
        · exact Or.inl (Except.ok.inj h).symm
        · exact Or.inr ⟨_, (Except.ok.inj h).symm⟩
  · exact Or.inl (Except.ok.inj h).symm

/-! ## No action is lost -/

/-- Two actions, and the document after the second is dropped onto the first. -/
def build_and_deploy : Doc := [("actions", .map [("build", .str "make"), ("deploy", .str "ship")])]

def deploy_in_build : Doc :=
  [("actions", .map [("build", .map [("cmd", .str "make"),
    ("actions", .map [("deploy", .map [("cmd", .str "ship"), ("position", .lit "1")])])])])]

theorem nest_deploy : apply_op_to_doc build_and_deploy (fun _ => []) (.nest ["deploy"] ["build"]) = .ok deploy_in_build := by
  rfl

theorem cmd_at_build_and_deploy {place : Place} (h : cmd_at build_and_deploy place = some "make") :
    place = ("actions", ["build"]) := by
  obtain ⟨s, path⟩ := place
  have hsect : section_map build_and_deploy s
      = if s = "actions" then some [("build", .str "make"), ("deploy", .str "ship")] else none := by
    unfold section_map build_and_deploy
    by_cases hs : s = "actions"
    · rw [hs, Items.get_cons_self, if_pos rfl]
      rfl
    · rw [Items.get_cons_other (Ne.symm hs), if_neg hs]
      rfl
  rw [cmd_at, said_at, hsect] at h
  rcases path with _ | ⟨k, rest⟩
  · cases h
  · by_cases hs : s = "actions"
    · rw [if_pos hs, getD_some, said_cons] at h
      by_cases hbuild : k = "build"
      · rw [hbuild, Items.get_cons_self] at h
        cases rest with
        | nil => rw [hs, hbuild]
        | cons k' rest => cases h
      · rw [Items.get_cons_other (Ne.symm hbuild)] at h
        by_cases hdeploy : k = "deploy"
        · rw [hdeploy, Items.get_cons_self] at h
          cases rest with
          | nil => exact absurd (some.inj h) (by decide)
          | cons k' rest => cases h
        · rw [Items.get_cons_other (Ne.symm hdeploy)] at h
          cases h
    · rw [if_neg hs] at h
      cases h

end Lpm.Actions
