/-
Edit by edit, when a tidy document is tidy afterwards: `tidy_edit_iff`.
-/
import Lpm.Actions.Strands

set_option autoImplicit false

namespace Lpm.Actions

open List Option

open Moves

section
variable {doc doc' : Doc} {order_of : List String → List String}

theorem tidy_congr (h : ∀ place, word_at doc' place = word_at doc place) : Tidy doc' ↔ Tidy doc := by
  have hwords : word_at doc' = word_at doc := funext h
  have hkeys : ∀ s k, top_has doc' s k = true ↔ top_has doc s k = true := by
    intro s k
    rw [top_has_iff, top_has_iff, hwords]
  rw [tidy_iff, tidy_iff, hwords]
  simp only [Apart, hkeys]

theorem tidy_reorder_menu (path order : List String) : Tidy (reorder_menu doc path order) ↔ Tidy doc :=
  tidy_congr (word_at_reorder_menu doc path order)

/-- Where every entry is alive there is nothing to collapse. -/
theorem tidy_collapse_alive (h : Tidy doc) (path : List String) : Tidy (collapse_menu doc path) := by
  rcases hfind : find_entry_by_path doc path with _ | e
  · unfold collapse_menu
    rw [hfind]
    exact h
  · have hsect := (held_of_find hfind).2.1
    have hstay : ¬ Moves.Bare Bears (word_at doc) (e.sect, path) := (tidy_iff.mp h).1 (e.sect, path) hsect
    rw [tidy_congr fun place => word_at_collapse_stays hfind hstay]
    exact h

/-! ## Dragging an entry onto another -/

theorem nest_tidy {source target : List String} (h : Tidy doc) (hok : nest_entry doc order_of source target = .ok doc') :
    Tidy doc' ↔ strands doc (.nest source target) = false := by
  rw [strands]
  obtain ⟨hnone, rfl⟩ | ⟨s, t, order, hsame, hs, ht, hconflict, rfl⟩ := nest_entry_ok hok
  · refine ⟨fun _ => ?_, fun _ => h⟩
    rcases hnone with rfl | hnone | hnone <;> simp [*]
  · rw [decide_eq_true hsame, Bool.true_and, hs, ht]
    obtain ⟨hspath, hsect, sitems, hsource⟩ := find_entry_stands hs
    have hword : word_at doc (s.sect, s.above ++ [s.key]) ≠ none := by
      rw [hsource.word_below []]
      exact some_ne_none _
    rw [hspath] at hsame ⊢
    rw [tidy_reorder_menu, tidy_iff]
    have htaken := @taken_moved doc s.sect s.above s.key s.value (unplaced s.value) sitems
      (inherited_at doc (s.above ++ [s.key])) (inherited_at doc target) target t h hsect hsource ht hconflict
      (Ne.symm hsame) (read_unplaced steady_own_cmd s.value) (children_unplaced s.value)
    have halive := alive_iff_of_bare htaken.bare hsect
    rw [halive, isSome_some, isSome_some, Bool.true_and, Bool.true_and,
      ← empties_iff hword (seen_of_apart h.apart hsect hword), Bool.not_eq_true]
    exact ⟨fun hdoc => hdoc.1, fun hdoc => ⟨hdoc, h.apart.of_top_has fun _ _ => top_has_moved ht⟩⟩

theorem extract_onto_tidy {parent target : List String} {child : String} {«over» : Option String}
    {position : Option Bool} (h : Tidy doc)
    (hok : extract_onto doc order_of parent child target «over» position = .ok doc') :
    Tidy doc' ↔ strands doc (.extract_onto parent child target «over» position) = false := by
  rw [strands]
  obtain ⟨p, t, node, items, order, hp, ht, hnode, hstands, hconflict, rfl⟩ := extract_onto_ok hok
  obtain ⟨hpath, hsect, hheld⟩ := held_of_find hp
  by_cases hself : target = parent ++ [child]
  -- the entry is held by a new one in its place
  · rw [decide_eq_false (not_not.mpr hself), Bool.false_and, Bool.false_and, Bool.false_and]
    refine ⟨fun _ => rfl, fun _ => tidy_collapse_alive ?_ parent⟩
    rw [tidy_reorder_menu, tidy_iff]
    refine ⟨?_, h.apart.of_top_has fun _ _ => top_has_moved ht⟩
    have hchild : (held_at doc p.sect parent).get child = some node := by
      rw [held_at, hstands.sect]
      exact hstands.get
    have hfound := h.all_found p.sect hsect parent child node hchild
    rw [← hself, ht] at hfound
    cases hfound
    have hout : inside (parent ++ [child]) parent = false := by
      rw [← Bool.not_eq_true, inside, isPrefixOf_iff_prefix]
      exact fun hstarts => not_under_above (p.sect, parent) child ⟨rfl, hstarts⟩
    unfold attach_to
    rw [if_neg (by rw [hout]; simp)]
    exact transfer_wraps hstands rfl rfl (tidy_iff.mp h).1
  · rw [decide_eq_true hself, Bool.true_and]
    have htaken := @taken_moved doc p.sect parent child node node items (inherited_at doc parent)
      (inherited_at doc target) target t h hsect hstands ht hconflict hself rfl rfl
    have hopens : Opens doc (p.sect, parent) := ⟨items, hstands.sect, hstands.reach⟩
    have hchild : (children p.value).has child = true := by
      rw [Items.has, hnode]
      rfl
    have hwords : ∀ order, word_at (reorder_menu (attach_to (update doc p.sect parent (Items.delete child))
          (parent ++ [child]) t child node (inherited_at doc parent) (inherited_at doc target)) target order)
        = word_at (attach_to (update doc p.sect parent (Items.delete child)) (parent ++ [child]) t child node
          (inherited_at doc parent) (inherited_at doc target)) :=
      fun order => funext (word_at_reorder_menu _ target order)
    rw [tidy_collapse_iff h hp hchild (by rw [hwords]; exact htaken)
      (opens_reorder_menu target _ (opens_moved hstands hopens (not_under_above (p.sect, parent) child) ht hconflict))
      (h.apart.of_top_has fun _ _ hhas => top_has_moved ht (top_has_reorder_menu _ hhas))]
    -- the menu above is the target if its path is
    have habove : (t.sect, target) ≠ (p.sect, p.above) ↔ target ≠ parent.dropLast := by
      rw [hpath, dropLast_concat]
      refine ⟨fun hne heq => hne ?_, fun hne heq => hne (congrArg Prod.snd heq)⟩
      have hstarts : target <+: parent := by
        rw [heq, hpath]
        exact prefix_append _ _
      rw [heq, ← sect_of_starts ht hp hstarts]
    rw [habove, Bool.and_eq_false_iff, Bool.and_eq_false_iff, decide_eq_false_iff_not, ← Bool.not_eq_true,
      ← Bool.not_eq_true]
    tauto

theorem extract_to_top_tidy {parent : List String} {child : String} (h : Tidy doc)
    (hok : extract_to_top doc parent child = .ok doc') :
    Tidy doc' ↔ strands doc (.extract_to_top parent child) = false := by
  rw [strands]
  obtain ⟨p, node, items, hconflict, hp, hnode, hstands, rfl⟩ := extract_to_top_ok hok
  obtain ⟨hpath, hsect, hheld⟩ := held_of_find hp
  have hfree := top_has_of_none hconflict hsect
  have hword : word_at doc (p.sect, parent) ≠ none := by
    rw [hpath, word_at_below, hheld]
    exact some_ne_none _
  have hthere : word_at doc (below (p.sect, parent) child) ≠ none := by
    rw [below, hstands.word_below []]
    exact some_ne_none _
  have hchild : (children p.value).has child = true := by
    rw [Items.has, hnode]
    rfl
  have hmoved := @put_top_relocates_words doc p.sect parent child node items (inherited_at doc parent)
    (top_level_defaults p.sect) hstands hfree
  have hnone : word_at doc (below (p.sect, []) child) = none := by
    by_contra hsome
    rw [below, nil_append, ← ne_eq, ← top_has_iff, hfree] at hsome
    cases hsome
  have htaken := hmoved.taken (rooted_word_at doc) (tidy_iff.mp h).1 hthere hnone hsect
  have hout := not_under_above (p.sect, parent) child
  have hopens : Opens (put_top (update doc p.sect parent (Items.delete child)) p.sect child node
      (inherited_at doc parent) (top_level_defaults p.sect)) (p.sect, parent) := by
    refine opens_put_top (opens_taken_out ⟨items, hstands.sect, hstands.reach⟩ hout) fun hunder => ?_
    obtain ⟨rest, heq⟩ := Under.split hunder
    have hnone' := hmoved.free rest (heq ▸ hout)
    exact hword (heq ▸ hnone')
  have hapart : Apart (put_top (update doc p.sect parent (Items.delete child)) p.sect child node
      (inherited_at doc parent) (top_level_defaults p.sect)) := by
    rintro k ⟨hactions, hterminals⟩
    have hno : ∀ s ∈ ACTION_SECTIONS, top_has doc s k = true → k ≠ child := by
      rintro s hs hhas rfl
      rw [top_has_of_none hconflict hs] at hhas
      cases hhas
    rcases top_has_put_top hactions with ⟨hs, hk⟩ | hold
    · rcases top_has_put_top hterminals with ⟨hs', -⟩ | hold'
      · exact absurd (hs.trans hs'.symm) (by decide)
      · exact hno _ (by decide) (top_has_taken_out hold') hk
    · rcases top_has_put_top hterminals with ⟨-, hk⟩ | hold'
      · exact hno _ (by decide) (top_has_taken_out hold) hk
      · exact h.apart k ⟨top_has_taken_out hold, top_has_taken_out hold'⟩
  -- the menu above is left so only if there is one
  have habove : empties doc parent = true → (p.sect, []) ≠ (p.sect, p.above) := by
    intro hempties heq
    have hnil : [] = p.above := congrArg Prod.snd heq
    rw [hpath, ← hnil] at hempties
    cases hempties
  have hiff := tidy_collapse_iff h hp hchild htaken hopens hapart
  rw [hiff, Bool.and_eq_false_iff, ← Bool.not_eq_true, ← Bool.not_eq_true]
  tauto

/-! ## Dissolving a menu -/

variable {fields items : Items Yaml}

/-- A dissolved menu leaves no dead entry. -/
theorem dissolved_alive {sect : String} {above : List String} {key : String}
    (h : Stands doc sect above key (.map fields) items)
    (hclash : ∀ k, (children (.map fields)).has k = true → clashes key fields (items_at above items) k = false)
    (halive : Alive Bears InSections (word_at doc)) :
    Alive Bears InSections (word_at (update doc sect above (splice key (stands_in key fields)))) := by
  have hcmd : Bears (own_cmd (.map fields)) ↔ has_default_cmd (.map fields) = true := by
    rw [Bears, has_default_cmd, isSome_iff_ne_none]
  refine @alive_dissolved _ _ _ Bears InSections (word_at doc) _ (sect, above) key
    (fun k => (children (.map fields)).has k = true) (own_cmd (.map fields)) ?_ ?_ ?_ ?_ ?_ ?_ ?_ ?_ halive
  · exact h.word_below []
  · intro k hk
    have hheld : (held_at doc sect above).get key = some (.map fields) := by
      rw [held_at, h.sect]
      exact h.get
    rw [below, below, word_at_below] at hk
    dsimp only at hk
    rw [held_at_below hheld, ne_eq, map_eq_none_iff] at hk
    exact isSome_iff_ne_none.mpr hk
  · intro k rest hk
    -- what was said last of it is said last where it rose to
    obtain ⟨top, -, hsaid⟩ := said_risen steady_own_cmd h hclash hk rest
    rw [word_at, hsaid, h.word_below, said_cons]
    rcases (children (.map fields)).get k with _ | node
    · rfl
    · rw [bind_some]
      rcases said own_cmd (children node) rest with _ | below
      · rfl
      · show (top ++ own_cmd node :: below).getLast?
          = ([own_cmd (.map fields)] ++ own_cmd node :: below).getLast?
        rw [getLast?_append_of_ne_nil _ (cons_ne_nil _ _),
          getLast?_append_of_ne_nil _ (cons_ne_nil _ _)]
  · intro hk hbears
    have hsaid := said_dissolved steady_own_cmd h hclash (by simpa using hk) []
    -- a menu with a command of its own stays, without its items
    rw [if_pos ⟨hcmd.mp hbears, rfl⟩] at hsaid
    rw [below, word_at, hsaid]
    exact h.word_below []
  · intro hk hbears
    have hsaid := said_dissolved steady_own_cmd h hclash (by simpa using hk) []
    rw [if_neg fun hboth => hbears (hcmd.mpr hboth.1)] at hsaid
    rw [below, word_at, hsaid]
    rfl
  · intro hk hbears
    -- an item under the menu's own key would clash with its command
    have hno := hclash key hk
    rw [clashes, hcmd.mp hbears, decide_eq_true rfl, Bool.true_and, Bool.or_true] at hno
    cases hno
  · intro hk k rest
    have hsaid := said_dissolved steady_own_cmd h hclash (by simpa using hk) (k :: rest)
    rw [if_neg fun hboth => by cases hboth.2] at hsaid
    rw [word_at, hsaid]
    rfl
  · intro place hplace
    rw [word_at, said_beside steady_own_cmd h hclash hplace]
    rfl

/-- The sections stay apart unless a promoted key stands in the other one. -/
theorem apart_dissolved_iff {sect : String} {above : List String} {key : String}
    (hapart : Apart doc) (hmem : sect ∈ ACTION_SECTIONS) (h : Stands doc sect above key (.map fields) items)
    (hclash : ∀ k, (children (.map fields)).has k = true → clashes key fields (items_at above items) k = false) :
    Apart (update doc sect above (splice key (stands_in key fields)))
      ↔ (above.isEmpty && (children (.map fields)).keys.any fun k =>
          ACTION_SECTIONS.any fun s => s ≠ sect && top_has doc s k) = false := by
  have hhides : (above.isEmpty && (children (.map fields)).keys.any fun k =>
        ACTION_SECTIONS.any fun s => s ≠ sect && top_has doc s k) = true
      ↔ above = [] ∧ ∃ k, (children (.map fields)).has k = true ∧ ∃ s ∈ ACTION_SECTIONS, s ≠ sect ∧ top_has doc s k = true := by
    simp only [Bool.and_eq_true, List.isEmpty_iff, List.any_eq_true, decide_eq_true_eq, Items.has_eq_true]
  rw [← Bool.not_eq_true, hhides]
  constructor
  · rintro hdoc ⟨rfl, k, hk, s, hs, hne, hhas⟩
    have hkey : items.has key = true := by
      have hget : items.get key = some (.map fields) := h.get
      rw [Items.has, hget]
      rfl
    -- the promoted key is in its section, and the other section has it still
    have hnew : top_has (update doc sect [] (splice key (stands_in key fields))) sect k = true := by
      rw [top_has, section_map_update h.sect, if_pos rfl, getD_some]
      show ((splice key (stands_in key fields) items).get k).isSome = true
      rw [get_stands_in hkey hclash, if_pos hk]
      exact hk
    have hold : top_has (update doc sect [] (splice key (stands_in key fields))) s k = true := by
      rw [top_has, section_map_update h.sect, if_neg hne]
      exact hhas
    simp only [ACTION_SECTIONS, mem_cons, not_mem_nil, or_false] at hs hmem
    rcases hs with rfl | rfl
    · rcases hmem with rfl | rfl
      · exact hne rfl
      · exact hdoc k ⟨hold, hnew⟩
    · rcases hmem with rfl | rfl
      · exact hdoc k ⟨hnew, hold⟩
      · exact hne rfl
  · rintro hhid k ⟨hactions, hterminals⟩
    rcases top_has_dissolved h hclash hactions with hold | ⟨habove, hs, hk⟩
    · rcases top_has_dissolved h hclash hterminals with hold' | ⟨habove, hs, hk⟩
      · exact hapart k ⟨hold, hold'⟩
      · exact hhid ⟨habove, k, hk, "actions", by decide, by rw [hs]; decide, hold⟩
    · rcases top_has_dissolved h hclash hterminals with hold' | ⟨-, hs', -⟩
      · exact hhid ⟨habove, k, hk, "terminals", by decide, by rw [hs]; decide, hold'⟩
      · exact absurd (hs.symm.trans hs') (by decide)

theorem ungroup_tidy {path : List String} (h : Tidy doc) (hok : ungroup_menu doc path = .ok doc') :
    Tidy doc' ↔ strands doc (.ungroup path) = false := by
  unfold ungroup_menu at hok
  rw [strands, hides]
  rcases he : find_entry_by_path doc path with _ | e
  · rw [he] at hok
    obtain rfl := Except.ok.inj hok
    exact ⟨fun _ => rfl, fun _ => h⟩
  · rw [he] at hok
    obtain ⟨-, hmem, items, hstands⟩ := find_entry_stands he
    obtain ⟨sect, above, key, value⟩ := e
    simp only at hok hmem hstands ⊢
    cases value with
    | str text | lit text | seq list =>
      obtain rfl := Except.ok.inj hok
      exact ⟨fun _ => Bool.and_false _, fun _ => h⟩
    | map fields =>
      simp only at hok
      split at hok
      · cases hok
      next hfind =>
        obtain rfl := Except.ok.inj hok
        have hclash := no_clash hstands hfind
        show Tidy (update doc sect above (splice key (stands_in key fields))) ↔ _
        rw [tidy_iff, ← apart_dissolved_iff h.apart hmem hstands hclash]
        exact ⟨fun hdoc => hdoc.2, fun hapart => ⟨dissolved_alive hstands hclash (tidy_iff.mp h).1, hapart⟩⟩

end

/-! ## Documents written out -/

/-- No entry of a container, and none below it, is dead. -/
def LiveBelow (items : Items Yaml) : Prop :=
  ∀ above key node, (items_at above items).get key = some node → alive node = true

theorem LiveBelow.nil : LiveBelow [] := by
  intro above key node hget
  cases above with
  | nil => exact nomatch hget
  | cons first above => exact nomatch hget

theorem LiveBelow.cons {k : String} {v : Yaml} {rest : Items Yaml} (hv : alive v = true)
    (hbelow : LiveBelow (children v)) (hrest : LiveBelow rest) : LiveBelow ((k, v) :: rest) := by
  intro above key node hget
  cases above with
  | nil =>
    by_cases hk : k = key
    · rw [items_at, hk, Items.get_cons_self] at hget
      rw [← some.inj hget]
      exact hv
    · rw [items_at, Items.get_cons_other hk] at hget
      exact hrest [] key node hget
  | cons first above =>
    by_cases hk : k = first
    · have hfirst : Items.get first ((k, v) :: rest) = some v := by rw [hk, Items.get_cons_self]
      rw [items_at_cons hfirst] at hget
      exact hbelow above key node hget
    · rw [items_at, Items.get_cons_other hk] at hget
      exact hrest (first :: above) key node hget

theorem Tidy.of_sections {doc : Doc} (hactions : LiveBelow ((section_map doc "actions").getD []))
    (hterminals : LiveBelow ((section_map doc "terminals").getD [])) (hapart : Apart doc) : Tidy doc := by
  refine ⟨fun sect hs above key node hget => ?_, hapart⟩
  rw [ACTION_SECTIONS, mem_cons, mem_singleton] at hs
  rcases hs with rfl | rfl
  · exact hactions above key node hget
  · exact hterminals above key node hget

theorem tidy_build_and_deploy : Tidy build_and_deploy := by
  refine Tidy.of_sections ?_ LiveBelow.nil fun k hboth => nomatch hboth.2
  exact LiveBelow.cons rfl LiveBelow.nil (LiveBelow.cons rfl LiveBelow.nil LiveBelow.nil)

/-- A menu whose only entry is a menu with one action, and the document after that action is
let out to the top: the inner menu is gone, and the outer one is empty. -/
def build_in_jobs : Doc :=
  [("actions", .map [("ci", .map [("actions", .map [("jobs", .map [("actions", .map [("build", .str "make")])])])])])]

def build_let_out : Doc := [("actions", .map [("ci", .map [("actions", .map [])]), ("build", .str "make")])]

end Lpm.Actions
