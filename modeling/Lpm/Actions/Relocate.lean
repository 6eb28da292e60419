/-
An entry taken out of a document at one place and put in at another, with everything below
it: what all the drags of `actionsStructural.ts` come down to.

`said_taken_out` and `said_attach_leaf`, `said_attach_other` are the two halves, for any
steady reading; `Transfer` puts them together.
-/
import Lpm.Actions.Trail
import Lpm.Lib.Moves

set_option autoImplicit false

namespace Lpm.Actions

open List Option

open Moves

variable {β : Type*} {read : Yaml → β}

/-! ## Places of a document -/

/-- A section and the keys from there down. -/
abbrev Place := String × List String

/-- What the entries on the way to a place say. -/
def said_at (read : Yaml → β) (doc : Doc) (place : Place) : Option (List β) :=
  said read ((section_map doc place.1).getD []) place.2

section
variable {doc : Doc} {sect s : String} {above path : List String} {key k : String} {value : Yaml}
  {f : Items Yaml → Items Yaml} {items : Items Yaml}

theorem section_map_set (items : Items Yaml) :
    section_map (doc.set sect (.map items)) s = if s = sect then some items else section_map doc s := by
  unfold section_map
  rw [Items.get_set]
  split_ifs
  · rfl
  · rfl

theorem section_map_update (h : section_map doc sect = some items) :
    section_map (update doc sect above f) s
      = if s = sect then some (update_items f above items) else section_map doc s := by
  rw [update, h]
  exact section_map_set _

theorem said_at_update (h : section_map doc sect = some items) :
    said_at read (update doc sect above f) (s, path)
      = if s = sect then said read (update_items f above items) path else said_at read doc (s, path) := by
  unfold said_at
  rw [section_map_update h]
  split_ifs
  · rfl
  · rfl

/-- An entry stands at a place. -/
structure Stands (doc : Doc) (sect : String) (above : List String) (key : String) (value : Yaml)
    (items : Items Yaml) : Prop where
  sect : section_map doc sect = some items
  reach : reaches above items
  get : (items_at above items).get key = some value

/-- A change of a container that changes nothing said there changes nothing said anywhere. -/
theorem same_update (hread : Steady read) (hsect : section_map doc sect = some items)
    (h : Same read (f (items_at above items)) (items_at above items)) (place : Place) :
    said_at read (update doc sect above f) place = said_at read doc place := by
  obtain ⟨s, path⟩ := place
  rw [said_at_update hsect]
  split_ifs with hs
  · rw [said_at, hs, hsect]
    exact h.update_items hread path
  · rfl

/-! ## What a path finds -/

theorem find_action_section_some (h : find_action_section doc key = some (sect, items)) :
    section_map doc sect = some items ∧ items.has key = true ∧ sect ∈ ACTION_SECTIONS := by
  obtain ⟨n, hn, hfound⟩ := exists_of_findSome?_eq_some h
  obtain ⟨node, hnode, hhas⟩ := bind_eq_some_iff.mp hfound
  split_ifs at hhas with hkey
  cases hhas
  exact ⟨hnode, hkey, hn⟩

theorem find_top_entry_some (h : find_top_entry doc key = some (sect, value)) :
    ∃ items, find_action_section doc key = some (sect, items) ∧ items.get key = some value := by
  obtain ⟨⟨name, items⟩, hfound, hget⟩ := bind_eq_some_iff.mp h
  obtain ⟨v, hv, heq⟩ := map_eq_some_iff.mp hget
  cases heq
  exact ⟨items, hfound, hv⟩

theorem walk_reaches {top : String} {node : Yaml} {segs : List String} (hget : items.get top = some node)
    (hwalk : walk node segs = some value) :
    reaches (top :: segs).dropLast items
      ∧ (items_at (top :: segs).dropLast items).get ((top :: segs).getLastD top) = some value := by
  induction segs generalizing top node items with
  | nil =>
    obtain rfl : node = value := some.inj hwalk
    exact ⟨trivial, hget⟩
  | cons seg segs ih =>
    rw [walk] at hwalk
    obtain ⟨acts, hacts, hrest⟩ := bind_eq_some_iff.mp hwalk
    obtain ⟨child, hchild, hwalk'⟩ := bind_eq_some_iff.mp hrest
    obtain ⟨hreach, hlast⟩ := ih hchild hwalk'
    have hdrop : (top :: seg :: segs).dropLast = top :: (seg :: segs).dropLast := rfl
    have hlastD : (top :: seg :: segs).getLastD top = (seg :: segs).getLastD seg := by
      rw [getLastD_cons, getLastD_cons, getLastD_cons]
    rw [hdrop, hlastD, items_at_cons hget, children_of_peek hacts]
    exact ⟨⟨node, acts, hget, hacts, hreach⟩, hlast⟩

theorem find_entry_stands {e : PathEntry} (h : find_entry_by_path doc path = some e) :
    path = e.above ++ [e.key] ∧ e.sect ∈ ACTION_SECTIONS
      ∧ ∃ items, Stands doc e.sect e.above e.key e.value items := by
  cases path with
  | nil => exact nomatch h
  | cons top segs =>
    rw [find_entry_by_path] at h
    obtain ⟨⟨sect, node⟩, htop, hrest⟩ := bind_eq_some_iff.mp h
    obtain ⟨value, hwalk, rfl⟩ := map_eq_some_iff.mp hrest
    obtain ⟨items, hfound, hget⟩ := find_top_entry_some htop
    obtain ⟨hsect, -, hmem⟩ := find_action_section_some hfound
    obtain ⟨hreach, hlast⟩ := walk_reaches hget hwalk
    refine ⟨?_, hmem, items, hsect, hreach, hlast⟩
    have hne : top :: segs ≠ [] := by simp
    have hlastD : (top :: segs).getLastD top = (top :: segs).getLast hne := by
      rw [getLastD_eq_getLast?, getLast?_eq_some_getLast hne]
      rfl
    show top :: segs = (top :: segs).dropLast ++ [(top :: segs).getLastD top]
    rw [hlastD]
    exact (dropLast_append_getLast hne).symm

theorem said_of_reaches (h : reaches above items) : ∃ top, said read items above = some top := by
  induction above generalizing items with
  | nil => exact ⟨[], rfl⟩
  | cons first above ih =>
    obtain ⟨node, acts, hget, hacts, hreach⟩ := h
    obtain ⟨top, htop⟩ := ih hreach
    refine ⟨read node :: top, ?_⟩
    rw [said_cons, hget, bind_some, children_of_peek hacts, htop]
    rfl

/-- What is said on the way to what an entry holds. -/
theorem Stands.said_below (h : Stands doc sect above key value items) (read : Yaml → β) (rest : List String) :
    ∃ top, said_at read doc (sect, above) = some top
      ∧ said_at read doc (sect, above ++ key :: rest)
        = (said read (children value) rest).map (top ++ read value :: ·) := by
  obtain ⟨top, htop⟩ := @said_of_reaches β read above items h.reach
  refine ⟨top, by rw [said_at, h.sect]; exact htop, ?_⟩
  rw [said_at, h.sect, getD_some, said_append, htop, bind_some, said_cons, h.get,
    bind_some, Option.map_map]
  rfl

/-- A child of an entry stands below it. -/
theorem Stands.child (h : Stands doc sect above key value items) {child : String} {node : Yaml}
    (hchild : (children value).get child = some node) :
    Stands doc sect (above ++ [key]) child node items := by
  have hacts := peek_of_child hchild
  have hstep : ∀ (above : List String) (items : Items Yaml), reaches above items →
      (items_at above items).get key = some value →
      reaches (above ++ [key]) items ∧ items_at (above ++ [key]) items = children value := by
    intro above
    induction above with
    | nil =>
      intro items _ hget
      exact ⟨⟨value, children value, hget, hacts, trivial⟩, items_at_cons hget []⟩
    | cons first above ih =>
      rintro items ⟨node, acts, hfirst, hpeek, hreach⟩ hget
      rw [items_at_cons hfirst, children_of_peek hpeek] at hget
      obtain ⟨hr, hi⟩ := ih acts hreach hget
      refine ⟨⟨node, acts, hfirst, hpeek, hr⟩, ?_⟩
      rw [cons_append, items_at_cons hfirst, children_of_peek hpeek, hi]
  obtain ⟨hreach, hat⟩ := hstep above items h.reach h.get
  exact ⟨h.sect, hreach, by rw [hat]; exact hchild⟩

end

/-! ## Taking an entry out -/

section
variable {doc : Doc} {sect : String} {above : List String} {key : String} {value : Yaml}
  {items : Items Yaml}

theorem said_taken_out (hread : Steady read) (h : Stands doc sect above key value items) (place : Place) :
    said_at read (update doc sect above (Items.delete key)) place
      = if Under (sect, above ++ [key]) place then none else said_at read doc place := by
  obtain ⟨s, path⟩ := place
  rw [said_at_update h.sect]
  by_cases hs : s = sect
  · rw [if_pos hs]
    by_cases hpath : ∃ k rest, path = above ++ k :: rest
    · obtain ⟨k, rest, rfl⟩ := hpath
      rw [said_update_below hread h.reach, said_delete]
      by_cases hk : k = key
      · have hunder : Under (sect, above ++ [key]) (s, above ++ k :: rest) :=
          ⟨hs, rest, by rw [hk, append_assoc, singleton_append]⟩
        rw [if_pos hk, if_pos hunder]
        obtain ⟨top, htop⟩ := @said_of_reaches β read above items h.reach
        rw [htop]
        rfl
      · have hunder : ¬ Under (sect, above ++ [key]) (s, above ++ k :: rest) := by
          rintro ⟨-, rest', heq⟩
          rw [append_assoc, singleton_append] at heq
          exact hk (List.cons.inj (append_cancel_left heq)).1.symm
        rw [if_neg hk, if_neg hunder, said_at, hs, h.sect, getD_some, said_append]
    · have hunder : ¬ Under (sect, above ++ [key]) (s, path) := by
        rintro ⟨-, rest, heq⟩
        rw [append_assoc, singleton_append] at heq
        exact hpath ⟨key, rest, heq.symm⟩
      rw [said_update_other hread fun k rest heq => hpath ⟨k, rest, heq⟩, if_neg hunder, said_at, hs,
        h.sect, getD_some]
  · have hunder : ¬ Under (sect, above ++ [key]) (s, path) := fun hunder => hs hunder.1
    rw [if_neg hs, if_neg hunder]

/-- What does not lead through the entry still leads somewhere. -/
theorem reaches_delete {path : List String} (h : reaches path items) (hnot : ¬ above ++ [key] <+: path) :
    reaches path (update_items (Items.delete key) above items) := by
  refine reaches_update_items (fun rest heq hrest => ?_) h
  cases rest with
  | nil => trivial
  | cons k rest =>
    obtain ⟨node, acts, hget, hacts, hreach⟩ := hrest
    have hk : k ≠ key := by
      rintro rfl
      exact hnot ⟨rest, by rw [heq, append_assoc, singleton_append]⟩
    exact ⟨node, acts, by rw [Items.get_delete_other hk, hget], hacts, hreach⟩

/-- An entry outside of the one taken out stands where it stood and says what it said, though
it may have lost a child. -/
theorem Stands.left (hread : Steady read) (h : Stands doc sect above key value items) {tsect tkey : String}
    {tabove : List String} {tvalue : Yaml} {titems : Items Yaml}
    (ht : Stands doc tsect tabove tkey tvalue titems)
    (hnot : ¬ Under (sect, above ++ [key]) (tsect, tabove ++ [tkey])) :
    ∃ left items', Stands (update doc sect above (Items.delete key)) tsect tabove tkey left items'
      ∧ read left = read tvalue := by
  have hinside : ∀ hs : tsect = sect, ¬ above ++ [key] <+: tabove := fun hs hstarts =>
    hnot ⟨hs, hstarts.trans (prefix_append _ _)⟩
  have hsaid := said_taken_out hread h (tsect, tabove ++ [tkey])
  rw [if_neg hnot] at hsaid
  obtain ⟨top, -, hhad⟩ := ht.said_below read []
  rw [hhad] at hsaid
  -- the way down is still there
  have hway : ∃ items', section_map (update doc sect above (Items.delete key)) tsect = some items'
      ∧ reaches tabove items' := by
    rw [section_map_update h.sect]
    split_ifs with hs
    · refine ⟨_, rfl, reaches_delete ?_ (hinside hs)⟩
      have hitems : titems = items := by
        have hsect := ht.sect
        rw [hs, h.sect] at hsect
        exact (some.inj hsect).symm
      exact hitems ▸ ht.reach
    · exact ⟨titems, ht.sect, ht.reach⟩
  obtain ⟨items', hsect', hreach'⟩ := hway
  rw [said_at, hsect', getD_some, said_append] at hsaid
  obtain ⟨top', htop'⟩ := @said_of_reaches β read tabove items' hreach'
  rw [htop', bind_some, said_cons] at hsaid
  rcases hget : (items_at tabove items').get tkey with _ | left
  · rw [hget] at hsaid
    exact nomatch hsaid
  · refine ⟨left, items', ⟨hsect', hreach', hget⟩, ?_⟩
    rw [hget] at hsaid
    have hlists : top' ++ [read left] = top ++ [read tvalue] := some.inj hsaid
    exact (List.cons.inj (append_inj' hlists rfl).2).1

end

/-! ## Putting a node in -/

/-- The node with the settings that are written onto it. -/
def kept_node (had gets : Inherited) (node : Yaml) : Yaml :=
  if (lost_fields had gets).isEmpty && (lost_env had gets).isEmpty then node
  else .map (keep_env (lost_env had gets)
    ((lost_fields had gets).foldl (keep_field had) (widened (some node))))

theorem get_keep_inherited {had gets : Inherited} {key k : String} {container : Items Yaml} {node : Yaml}
    (h : container.get key = some node) :
    (keep_inherited had gets key container).get k
      = if k = key then some (kept_node had gets node) else container.get k := by
  unfold keep_inherited kept_node
  simp only [h]
  by_cases hlost : ((lost_fields had gets).isEmpty && (lost_env had gets).isEmpty) = true
  · rw [if_pos hlost, if_pos hlost]
    split_ifs with hk
    · rw [hk, h]
    · rfl
  · rw [if_neg hlost, if_neg hlost, Items.get_set]

/-- The settings that are written onto a node are not seen by a reading that sees no setting. -/
theorem read_kept_node {β : Type*} {read : Yaml → β} (hset : ∀ field ∈ "env" :: INHERITED_FIELDS,
      ∀ (fields : Items Yaml) value, read (.map (fields.set field value)) = read (.map fields))
    (hwidened : ∀ node : Yaml, read (.map (widened (some node))) = read node)
    (had gets : Inherited) (node : Yaml) : read (kept_node had gets node) = read node := by
  have henv : ∀ env fields : Items Yaml, read (.map (keep_env env fields)) = read (.map fields) := by
    intro env fields
    unfold keep_env
    split_ifs
    · rfl
    · exact hset _ mem_cons_self _ _
  have hfields : ∀ names ⊆ INHERITED_FIELDS, ∀ fields : Items Yaml,
      read (.map (names.foldl (keep_field had) fields)) = read (.map fields) := by
    intro names hnames
    induction names with
    | nil => exact fun fields => rfl
    | cons name names ih =>
      intro fields
      obtain ⟨hname, hnames⟩ := cons_subset.mp hnames
      rw [foldl_cons, ih hnames]
      unfold keep_field
      split
      · split_ifs
        · rfl
        · exact hset _ (mem_cons_of_mem _ hname) _ _
      · rfl
  unfold kept_node
  split_ifs
  · rfl
  · rw [henv, hfields (lost_fields had gets) (filter_subset_self _), hwidened]

/-- The settings go beside the entries of a node. -/
theorem children_kept_node : ∀ (had gets : Inherited) (node : Yaml),
    children (kept_node had gets node) = children node :=
  read_kept_node (fun _ h fields value => children_set_other (ne_of_mem_of_not_mem h (by decide)) fields value)
    children_widened

section
variable {key leaf : String} {node : Yaml} {had gets : Inherited} {container : Items Yaml}

/-- The entry at the key, as it is after a node was attached to it. -/
theorem get_attach (hread : Steady read) :
    ∃ host, (attach key leaf node had gets container).get key = some host
      ∧ read host = read ((container.get key).getD (.map []))
      ∧ ∀ k, (children host).get k = if k = leaf then some (kept_node had gets node)
          else (children ((container.get key).getD (.map []))).get k := by
  have hwidened : widened (container.get key) = widened (some ((container.get key).getD (.map []))) := by
    rcases container.get key with _ | v
    · rfl
    · rfl
  refine ⟨_, Items.get_set_self, ?_, fun k => ?_⟩
  · rw [hread.set _ _ (by decide), hwidened, hread.widened]
  · rw [children_set_actions, get_keep_inherited Items.get_set_self, hwidened]
    split_ifs with hk
    · rfl
    · rw [Items.get_set_other hk, ← children_widened ((container.get key).getD (.map []))]
      rfl

theorem get_attach_other {k : String} (h : k ≠ key) :
    (attach key leaf node had gets container).get k = container.get k :=
  Items.get_set_other h

end

section
variable {doc : Doc} {sect : String} {above : List String} {key leaf : String} {node : Yaml}
  {had gets : Inherited} {items : Items Yaml}

/-- Everything the attached node holds is at its new place. -/
theorem said_attach_leaf (hread : Steady read) (hsect : section_map doc sect = some items)
    (hreach : reaches above items) (key leaf : String) (node : Yaml) (had gets : Inherited) (rest : List String) :
    ∃ top, said_at read doc (sect, above) = some top
      ∧ said_at read (update doc sect above (attach key leaf node had gets)) (sect, above ++ key :: leaf :: rest)
        = (said read (children node) rest).map fun below =>
            top ++ read (((items_at above items).get key).getD (.map [])) :: read (kept_node had gets node) :: below := by
  obtain ⟨top, htop⟩ := @said_of_reaches β read above items hreach
  refine ⟨top, by rw [said_at, hsect]; exact htop, ?_⟩
  obtain ⟨host, hget, hhost, hchildren⟩ :=
    @get_attach β read key leaf node had gets (items_at above items) hread
  rw [said_at_update hsect, if_pos rfl, said_update_below hread hreach, htop, bind_some, said_cons,
    hget, bind_some, said_cons, hchildren, if_pos rfl, bind_some, children_kept_node, hhost,
    Option.map_map, Option.map_map]
  rfl

/-- The entry attached to says what it said, or nothing when it was not there. -/
theorem said_attach_host (hread : Steady read) (hsect : section_map doc sect = some items)
    (hreach : reaches above items) (key leaf : String) (node : Yaml) (had gets : Inherited) :
    ∃ top, said_at read doc (sect, above) = some top
      ∧ said_at read (update doc sect above (attach key leaf node had gets)) (sect, above ++ [key])
        = some (top ++ [read (((items_at above items).get key).getD (.map []))]) := by
  obtain ⟨top, htop⟩ := @said_of_reaches β read above items hreach
  refine ⟨top, by rw [said_at, hsect]; exact htop, ?_⟩
  obtain ⟨host, hget, hhost, -⟩ :=
    @get_attach β read key leaf node had gets (items_at above items) hread
  rw [said_at_update hsect, if_pos rfl, said_update_below hread hreach, htop, bind_some, said_cons,
    hget, bind_some, hhost]
  rfl

/-- Every other place says what it said, but for the entry attached to when it was not there. -/
theorem said_attach_other (hread : Steady read) (hsect : section_map doc sect = some items)
    (hreach : reaches above items) {place : Place} (hleaf : ¬ Under (sect, above ++ [key, leaf]) place)
    (hhost : place = (sect, above ++ [key]) → (items_at above items).get key ≠ none) :
    said_at read (update doc sect above (attach key leaf node had gets)) place = said_at read doc place := by
  obtain ⟨s, path⟩ := place
  rw [said_at_update hsect]
  by_cases hs : s = sect
  · rw [if_pos hs]
    have hdoc : said_at read doc (s, path) = said read items path := by
      rw [said_at, hs, hsect]
      rfl
    rw [hdoc]
    by_cases hpath : ∃ k rest, path = above ++ k :: rest
    · obtain ⟨k, rest, rfl⟩ := hpath
      rw [said_update_below hread hreach, said_append]
      obtain ⟨top, htop⟩ := @said_of_reaches β read above items hreach
      rw [htop, bind_some, bind_some]
      congr 1
      rw [said_cons, said_cons]
      by_cases hk : k = key
      · obtain ⟨host, hget, hreads, hchildren⟩ :=
          @get_attach β read key leaf node had gets (items_at above items) hread
        rw [hk, hget, bind_some, hreads]
        rcases hwas : (items_at above items).get key with _ | v
        -- a new entry holds the leaf alone
        · rw [hwas] at hchildren
          cases rest with
          | nil => exact absurd hwas (hhost (by rw [hs, hk]))
          | cons k' rest =>
            have hk' : k' ≠ leaf := by
              rintro rfl
              exact hleaf ⟨hs, rest, by rw [hk, append_assoc]; rfl⟩
            rw [said_cons, hchildren, if_neg hk']
            rfl
        · rw [hwas] at hchildren
          rw [getD_some, bind_some]
          cases rest with
          | nil => rfl
          | cons k' rest =>
            have hk' : k' ≠ leaf := by
              rintro rfl
              exact hleaf ⟨hs, rest, by rw [hk, append_assoc]; rfl⟩
            rw [said_cons, said_cons, hchildren, if_neg hk']
            rfl
      · rw [get_attach_other hk]
    · rw [said_update_other hread fun k rest heq => hpath ⟨k, rest, heq⟩]
  · rw [if_neg hs]

end

/-! ## Putting a node at the top -/

section
variable {doc : Doc} {sect leaf : String} {node : Yaml} {had gets : Inherited}

/-- The document with a node under a key of a section. -/
def put_top (doc : Doc) (sect leaf : String) (node : Yaml) (had gets : Inherited) : Doc :=
  doc.set sect (.map (keep_inherited had gets leaf (((section_map doc sect).getD []).set leaf node)))

theorem said_put_top_leaf (read : Yaml → β) (rest : List String) :
    said_at read (put_top doc sect leaf node had gets) (sect, leaf :: rest)
      = (said read (children node) rest).map (read (kept_node had gets node) :: ·) := by
  rw [said_at, put_top, section_map_set, if_pos rfl, getD_some, said_cons,
    get_keep_inherited Items.get_set_self, if_pos rfl, bind_some, children_kept_node]

theorem said_put_top_other {place : Place} (h : ¬ Under (sect, [leaf]) place) :
    said_at read (put_top doc sect leaf node had gets) place = said_at read doc place := by
  obtain ⟨s, path⟩ := place
  rw [said_at, put_top, section_map_set]
  split_ifs with hs
  · change s = sect at hs
    rw [said_at, hs]
    cases path with
    | nil => rfl
    | cons k rest =>
      have hk : k ≠ leaf := by
        rintro rfl
        exact h ⟨hs, rest, rfl⟩
      rw [getD_some, said_cons, get_keep_inherited Items.get_set_self, if_neg hk,
        Items.get_set_other hk]
      rfl
  · rfl

end

/-! ## Dissolving an entry -/

section
variable {key k : String} {here container : Items Yaml}

theorem get_splice_here (hhere : here.has k = true) (hkey : container.has key = true)
    (hclash : ∀ item ∈ container, item.1 ≠ key → item.1 ≠ k) :
    (splice key here container).get k = here.get k := by
  induction container with
  | nil => exact nomatch hkey
  | cons item rest ih =>
    obtain ⟨c, v⟩ := item
    rw [splice, flatMap_cons, Items.get_append]
    rw [forall_mem_cons] at hclash
    by_cases hc : c = key
    · obtain ⟨w, hw⟩ := isSome_iff_exists.mp hhere
      rw [if_pos hc, hw]
      rfl
    · have hkey' : Items.has key rest = true := by
        rw [Items.has, Items.get_cons_other hc] at hkey
        exact hkey
      rw [if_neg hc, Items.get_cons_other (hclash.1 hc)]
      exact ih hkey' hclash.2

theorem get_splice_other (hhere : here.has k = false) :
    (splice key here container).get k = if k = key then none else container.get k := by
  induction container with
  | nil =>
    split_ifs
    · rfl
    · rfl
  | cons item rest ih =>
    obtain ⟨c, v⟩ := item
    rw [splice, flatMap_cons, Items.get_append]
    by_cases hc : c = key
    · rw [if_pos hc, Items.has_eq_false.mp hhere, none_or]
      show Items.get k (splice key here rest) = _
      rw [ih]
      split_ifs with hk
      · rfl
      · rw [Items.get_cons_other (fun h => hk (h.symm.trans hc))]
    · rw [if_neg hc]
      show (Items.get k [(c, v)]).or (Items.get k (splice key here rest)) = _
      rw [ih]
      by_cases hk : c = k
      · have hkey : ¬ k = key := fun h => hc (hk.trans h)
        rw [hk, Items.get_cons_self, Items.get_cons_self, if_neg hkey, if_neg hkey]
        rfl
      · rw [Items.get_cons_other hk, Items.get_cons_other hk]
        rfl

end

/-- What an entry leaves in its place: its children, behind itself if it has a command. -/
def stands_in (key : String) (fields : Items Yaml) : Items Yaml :=
  if has_default_cmd (.map fields) then (key, .map (Items.delete "actions" fields)) :: children (.map fields)
  else children (.map fields)

/-- A child's key is taken where the child would go. -/
def clashes (key : String) (fields container : Items Yaml) (k : String) : Bool :=
  (container.any fun item => item.1 ≠ key && item.1 = k) || (has_default_cmd (.map fields) && k = key)

section
variable {key : String} {fields container : Items Yaml}

theorem get_stands_in {k : String} (hkey : container.has key = true)
    (hclash : ∀ k, (children (.map fields)).has k = true → clashes key fields container k = false) :
    (splice key (stands_in key fields) container).get k
      = if (children (.map fields)).has k = true then (children (.map fields)).get k
        else if k = key then
          if has_default_cmd (.map fields) = true then some (.map (Items.delete "actions" fields)) else none
        else container.get k := by
  -- the own entry, when there is one, is the only thing besides the children
  have hhere : ∀ k', (stands_in key fields).get k'
      = if has_default_cmd (.map fields) = true ∧ k' = key then some (.map (Items.delete "actions" fields))
        else (children (.map fields)).get k' := by
    intro k'
    unfold stands_in
    by_cases hcmd : has_default_cmd (.map fields) = true
    · rw [if_pos hcmd]
      by_cases hk' : k' = key
      · rw [if_pos ⟨hcmd, hk'⟩, hk', Items.get_cons_self]
      · rw [if_neg (fun h => hk' h.2), Items.get_cons_other (Ne.symm hk')]
    · rw [if_neg hcmd, if_neg (fun h => hcmd h.1)]
  by_cases hchild : (children (.map fields)).has k = true
  · have hno := hclash k hchild
    rw [clashes, Bool.or_eq_false_iff, Bool.and_eq_false_iff] at hno
    have hself : ¬ (has_default_cmd (.map fields) = true ∧ k = key) := by
      rintro ⟨hcmd, hk⟩
      rcases hno.2 with h | h
      · rw [hcmd] at h
        exact nomatch h
      · exact absurd hk (of_decide_eq_false h)
    have hget := hhere k
    rw [if_neg hself] at hget
    have hhas : (stands_in key fields).has k = true := by rw [Items.has, hget]; exact hchild
    rw [if_pos hchild, get_splice_here hhas hkey, hget]
    intro item hitem hne heq
    have hany := List.any_eq_false.mp hno.1 item hitem
    rw [decide_eq_true hne, decide_eq_true heq] at hany
    exact hany rfl
  · rw [if_neg hchild]
    rw [Bool.not_eq_true] at hchild
    by_cases hself : has_default_cmd (.map fields) = true ∧ k = key
    · have hget := hhere k
      rw [if_pos hself] at hget
      have hhas : (stands_in key fields).has k = true := by rw [Items.has, hget]; rfl
      rw [if_pos hself.2, if_pos hself.1, get_splice_here hhas hkey, hget]
      intro item _ hne heq
      exact hne (heq.trans hself.2)
    · have hget := hhere k
      rw [if_neg hself] at hget
      have hhas : (stands_in key fields).has k = false := by rw [Items.has, hget]; exact hchild
      rw [get_splice_other hhas]
      by_cases hk : k = key
      · rw [if_pos hk, if_pos hk, if_neg fun hcmd => hself ⟨hcmd, hk⟩]
      · rw [if_neg hk, if_neg hk]

end

section
variable {doc : Doc} {sect : String} {above : List String} {key : String} {fields items : Items Yaml}

/-- The children of a dissolved entry are said where the entry stood. -/
theorem said_risen (hread : Steady read) (h : Stands doc sect above key (.map fields) items)
    (hclash : ∀ k, (children (.map fields)).has k = true → clashes key fields (items_at above items) k = false)
    {k : String} (hk : (children (.map fields)).has k = true) (rest : List String) :
    ∃ top, said_at read doc (sect, above) = some top
      ∧ said_at read (update doc sect above (splice key (stands_in key fields))) (sect, above ++ k :: rest)
        = (said read (children (.map fields)) (k :: rest)).map (top ++ ·) := by
  obtain ⟨top, htop⟩ := @said_of_reaches β read above items h.reach
  refine ⟨top, by rw [said_at, h.sect]; exact htop, ?_⟩
  have hkey : (items_at above items).has key = true := by
    rw [Items.has, h.get]
    rfl
  rw [said_at_update h.sect, if_pos rfl, said_update_below hread h.reach, htop, bind_some, said_cons,
    get_stands_in hkey hclash, if_pos hk, said_cons]

/-- A dissolved entry that has a command stays, without its entries; one that has none goes. -/
theorem said_dissolved (hread : Steady read) (h : Stands doc sect above key (.map fields) items)
    (hclash : ∀ k, (children (.map fields)).has k = true → clashes key fields (items_at above items) k = false)
    (hk : (children (.map fields)).has key = false) (rest : List String) :
    said_at read (update doc sect above (splice key (stands_in key fields))) (sect, above ++ key :: rest)
      = if has_default_cmd (.map fields) = true ∧ rest = [] then said_at read doc (sect, above ++ [key])
        else none := by
  obtain ⟨top, htop⟩ := @said_of_reaches β read above items h.reach
  have hkey : (items_at above items).has key = true := by
    rw [Items.has, h.get]
    rfl
  rw [said_at_update h.sect, if_pos rfl, said_update_below hread h.reach, htop, bind_some, said_cons,
    get_stands_in hkey hclash, hk, if_neg (by simp), if_pos rfl]
  by_cases hcmd : has_default_cmd (.map fields) = true
  · rw [if_pos hcmd, bind_some, children_delete_actions, hread.delete _ (by decide)]
    cases rest with
    | nil =>
      rw [if_pos ⟨hcmd, rfl⟩, said_at, h.sect, getD_some, said_append, htop, bind_some, said_cons,
        h.get]
      rfl
    | cons k rest =>
      rw [if_neg (fun hno => by cases hno.2)]
      rfl
  · rw [if_neg hcmd, if_neg (fun hno => hcmd hno.1)]
    rfl

/-- Everything else is said as before. -/
theorem said_beside (hread : Steady read) (h : Stands doc sect above key (.map fields) items)
    (hclash : ∀ k, (children (.map fields)).has k = true → clashes key fields (items_at above items) k = false)
    {place : Place} (hplace : ∀ k rest, (children (.map fields)).has k = true ∨ k = key →
      place ≠ (sect, above ++ k :: rest)) :
    said_at read (update doc sect above (splice key (stands_in key fields))) place = said_at read doc place := by
  obtain ⟨s, path⟩ := place
  rw [said_at_update h.sect]
  split_ifs with hs
  · have hkey : (items_at above items).has key = true := by
      rw [Items.has, h.get]
      rfl
    rw [said_at, hs, h.sect, getD_some]
    by_cases hpath : ∃ k rest, path = above ++ k :: rest
    · obtain ⟨k, rest, rfl⟩ := hpath
      have hk : ¬ (children (.map fields)).has k = true := fun hk => hplace k rest (Or.inl hk) (by rw [hs])
      have hne : k ≠ key := fun hk => hplace k rest (Or.inr hk) (by rw [hs])
      rw [said_update_below hread h.reach, said_append, said_cons, get_stands_in hkey hclash, if_neg hk,
        if_neg hne, said_cons]
    · exact said_update_other hread fun k rest heq => hpath ⟨k, rest, heq⟩
  · rfl

end

end Lpm.Actions
