/-
Which edits leave a tidy document tidy.

An edit that takes an entry out can leave the entry that held it with nothing. The edits
that let an item out of a menu take away that menu when it is left so, but not the menu
above it; `nestEntry` takes away none. An edit that dissolves a menu of a section asks
for the keys of that section only, and a promoted item may have the key of an entry of the
other one.
-/
import Lpm.Actions.Tidy

set_option autoImplicit false

namespace Lpm.Actions

open List Option

open Moves

/-! ## The edits that strand an entry -/

/-- The entry that holds the one at a path has no command and holds no other. -/
def empties (doc : Doc) (path : List String) : Bool :=
  match find_entry_by_path doc path.dropLast with
  | some holder =>
    !has_default_cmd holder.value && (children holder.value).keys.all fun key => key = path.getLastD ""
  | none => false

/-- The edit leaves a dead entry, or two of one key. -/
def strands (doc : Doc) : StructuralOp → Bool
  | .nest source target =>
    source ≠ target && (find_entry_by_path doc source).isSome && (find_entry_by_path doc target).isSome
      && empties doc source
  | .ungroup path => hides doc (.ungroup path)
  | .extract_onto parent child target _ _ =>
    target ≠ parent ++ [child] && target ≠ parent.dropLast && empties doc (parent ++ [child]) && empties doc parent
  | .extract_to_top parent child => empties doc (parent ++ [child]) && empties doc parent
  | .reorder_menu _ _ _ _ => false

section
variable {doc : Doc} {sect s tsect : String} {above tabove path : List String} {key tkey leaf : String}
  {value node tvalue : Yaml} {items titems : Items Yaml} {had gets : Inherited}

/-- What `empties` asks for, by place. -/
theorem empties_iff (hword : word_at doc (s, above ++ [key]) ≠ none) (hseen : Seen doc (s, above ++ [key])) :
    empties doc (above ++ [key]) = true ↔ HoldsOnly Bears (word_at doc) (s, above) key := by
  rw [empties, dropLast_concat, getLastD_concat]
  cases above with
  | nil =>
    constructor
    · intro h
      exact nomatch h
    · rintro ⟨⟨c, hc, -⟩, -⟩
      exact nomatch hc
  | cons first above =>
    have hholder : word_at doc (s, first :: above) ≠ none :=
      (rooted_word_at doc (s, first :: above) key hword).resolve_left (cons_ne_nil _ _)
    obtain ⟨e, he, hsect⟩ := find_of_word hholder hseen
    obtain ⟨hpath, -, hheld⟩ := held_of_find he
    rw [he]
    have hhere : word_at doc (s, first :: above) = some (own_cmd e.value) := by
      rw [hpath, word_at_below, ← hsect, hheld]
      rfl
    have hbelow : ∀ k, word_at doc (below (s, first :: above) k) = ((children e.value).get k).map own_cmd := by
      intro k
      rw [below, word_at_below, ← hsect]
      dsimp only
      rw [hpath, held_at_below hheld]
    -- its only child is `key` when no place below it but that one has a word
    have hkeys : ((children e.value).keys.all fun k => decide (k = key)) = true
        ↔ ∀ k, k ≠ key → word_at doc (below (s, first :: above) k) = none := by
      rw [List.all_eq_true]
      constructor
      · intro hall k hk
        rw [hbelow, map_eq_none_iff, Items.get_eq_none]
        intro hmem
        exact hk (of_decide_eq_true (hall k hmem))
      · intro hnone k hmem
        by_contra hk
        have hno := hnone k (fun heq => hk (decide_eq_true heq))
        rw [hbelow, map_eq_none_iff, Items.get_eq_none] at hno
        exact hno hmem
    simp only [Bool.and_eq_true]
    rw [hkeys, has_default_cmd, Bool.not_eq_true', isSome_eq_false_iff, isNone_iff_eq_none]
    refine ⟨fun h => ⟨⟨own_cmd e.value, hhere, fun hbears => hbears h.1⟩, h.2⟩, fun h => ⟨?_, h.2⟩⟩
    obtain ⟨c, hc, hbears⟩ := h.1
    rw [hhere] at hc
    rw [Bears, ne_eq, not_not] at hbears
    exact (some.inj hc).trans hbears

/-! ## The edits by place -/

theorem last_word (words : Option (List (Option String))) (top : List (Option String)) (own : Option String) :
    (words.map fun below => top ++ own :: below).bind List.getLast?
      = words.bind fun below => (own :: below).getLast? := by
  rcases words with _ | below
  · rfl
  · show (top ++ own :: below).getLast? = (own :: below).getLast?
    rw [getLast?_append_of_ne_nil _ (cons_ne_nil _ _)]

variable (h : Stands doc sect above key value items)
include h

theorem Stands.word_below (rest : List String) :
    word_at doc (sect, above ++ key :: rest)
      = (said own_cmd (children value) rest).bind fun below => (own_cmd value :: below).getLast? := by
  obtain ⟨top, -, hsaid⟩ := h.said_below own_cmd rest
  rw [word_at, hsaid, last_word]

/-- An entry that goes below another takes what is below it along. -/
theorem transfer_relocates_words
    (ht : Stands doc tsect tabove tkey tvalue titems) (hout : ¬ Under (sect, above ++ [key]) (tsect, tabove))
    (hself : (tsect, tabove ++ [tkey]) ≠ (sect, above ++ [key]))
    (hfree : (children tvalue).has leaf = false) (hcmd : own_cmd node = own_cmd value)
    (hchildren : children node = children value) :
    Relocated (word_at doc) (word_at (transfer doc sect above key tsect tabove tkey leaf node had gets))
      (below (sect, above) key) (below (tsect, tabove ++ [tkey]) leaf) := by
  have hpath : tabove ++ [tkey] ++ [leaf] = tabove ++ [tkey, leaf] := append_assoc _ _ _
  have hnew : ∀ place : Place, place = (sect, above ++ [key]) → place ≠ (tsect, tabove ++ [tkey]) :=
    fun place heq hhost => hself (hhost.symm.trans heq)
  refine ⟨fun rest => ?_, fun rest _ => ?_, fun {place} hsource htarget => ?_, fun {place} hsource htarget => ?_⟩
  · obtain ⟨top, hsaid, -⟩ :=
      @said_transfer_leaf doc sect tsect above tabove key tkey leaf value node tvalue items titems had gets _ own_cmd
        steady_own_cmd h ht hout rest
    rw [← hpath] at hsaid
    rw [below, below, word_at, hsaid, last_word, own_cmd_kept_node, hcmd, hchildren, append_assoc,
      singleton_append, h.word_below]
  · have hplace : tabove ++ [tkey] ++ [leaf] ++ rest = tabove ++ tkey :: leaf :: rest := by
      simp only [append_assoc, cons_append, nil_append]
    rw [below, hplace, ht.word_below, said_cons, Items.has_eq_false.mp hfree]
    rfl
  · rw [below] at hsource htarget
    rw [hpath] at htarget
    rw [word_at, said_transfer_other steady_own_cmd h ht hout htarget (hnew place), if_neg hsource]
    rfl
  · rw [below] at hsource htarget
    rw [hpath] at htarget
    rw [word_at, said_transfer_other steady_own_cmd h ht hout htarget (hnew place), if_pos hsource]
    rfl

/-- An entry that goes below itself is held by a new entry in its place. -/
theorem transfer_wraps (hcmd : own_cmd node = own_cmd value)
    (hchildren : children node = children value)
    (halive : Alive Bears InSections (word_at doc)) :
    Alive Bears InSections (word_at (transfer doc sect above key sect above key leaf node had gets)) := by
  have hout : ¬ Under (sect, above ++ [key]) (sect, above) := not_under_above (sect, above) key
  -- a place that is neither the new entry nor below the leaf
  have hother : ∀ place : Place, place ≠ (sect, above ++ [key]) → ¬ Under (sect, above ++ [key, leaf]) place →
      word_at (transfer doc sect above key sect above key leaf node had gets) place
        = if Under (sect, above ++ [key]) place then none else word_at doc place := by
    intro place hne hleaf
    rw [word_at, said_transfer_other steady_own_cmd h h hout hleaf fun heq => absurd heq hne]
    split_ifs
    · rfl
    · rfl
  refine @alive_wrapped _ _ _ Bears InSections (word_at doc) _ (sect, above) key leaf ?_ ?_ ?_ ?_ ?_ halive
  · intro rest
    obtain ⟨top, hsaid, -⟩ :=
      @said_transfer_leaf doc sect sect above above key key leaf value node value items items had gets _ own_cmd
        steady_own_cmd h h hout rest
    have hplace : above ++ [key] ++ leaf :: rest = above ++ [key, leaf] ++ rest := by
      simp only [append_assoc, cons_append, nil_append]
    rw [below, hplace, word_at, hsaid, last_word, own_cmd_kept_node, hcmd, hchildren, append_assoc,
      singleton_append, h.word_below]
  · intro k rest hk
    have hunder : Under (sect, above ++ [key]) (sect, above ++ [key] ++ k :: rest) := under_append _ _
    rw [below, hother, if_pos hunder]
    · intro heq
      have hlength := congrArg (fun place => place.2.length) heq
      simp at hlength
    · rintro ⟨-, rest', heq⟩
      simp only [append_assoc, cons_append, nil_append] at heq
      exact hk (List.cons.inj (List.cons.inj (append_cancel_left heq)).2).1.symm
  · intro place hunder
    rw [below] at hunder
    rw [hother, if_neg hunder]
    · rintro rfl
      exact hunder (under_refl _)
    · rintro ⟨hs, hstarts⟩
      refine hunder ⟨hs, List.IsPrefix.trans ⟨[leaf], ?_⟩ hstarts⟩
      rw [append_assoc]
      rfl
  · obtain ⟨items', hsect', hreach', -⟩ := target_left steady_own_cmd h h hout
    obtain ⟨top, -, hsaid⟩ := said_attach_host steady_own_cmd hsect' hreach' key leaf node had gets
    rw [below, word_at, transfer, hsaid, bind_some, getLast?_concat]
    exact some_ne_none _
  · have hword := h.word_below []
    rw [below, hword]
    exact some_ne_none _

/-- An entry that goes to the top of its section takes what is below it along. -/
theorem put_top_relocates_words (hfree : top_has doc sect key = false) :
    Relocated (word_at doc) (word_at (put_top (update doc sect above (Items.delete key)) sect key value had gets))
      (below (sect, above) key) (below (sect, []) key) := by
  have hother : ∀ place : Place, ¬ Under (below (sect, []) key) place →
      word_at (put_top (update doc sect above (Items.delete key)) sect key value had gets) place
        = if Under (sect, above ++ [key]) place then none else word_at doc place := by
    intro place htarget
    have hput := @said_put_top_other _ own_cmd (update doc sect above (Items.delete key)) sect key value had gets
      place htarget
    rw [word_at, hput]
    exact word_at_taken_out h place
  refine ⟨fun rest => ?_, fun rest _ => ?_, fun hsource htarget => ?_, fun hsource htarget => ?_⟩
  · have hleaf := @said_put_top_leaf _ (update doc sect above (Items.delete key)) sect key value had gets own_cmd rest
    have hlast := last_word (said own_cmd (children value) rest) [] (own_cmd value)
    simp only [nil_append] at hlast
    simp only [below, append_assoc, cons_append, nil_append]
    rw [word_at, hleaf, own_cmd_kept_node, hlast, h.word_below]
  · simp only [below, cons_append, nil_append]
    rw [word_at, said_at, said_cons, Items.has_eq_false.mp hfree]
    rfl
  · rw [hother _ htarget]
    exact if_neg hsource
  · rw [hother _ htarget]
    exact if_pos hsource

omit h

/-! ## An entry taken from its menu -/

section
variable {target : List String} {t : PathEntry}

/-- An entry that goes elsewhere, wherever that is. -/
theorem taken_moved (hdoc : Tidy doc) (hs : InSections sect) (h : Stands doc sect above key value items)
    (ht : find_entry_by_path doc target = some t) (hconflict : (children t.value).has key = false)
    (hne : target ≠ above ++ [key]) (hcmd : own_cmd node = own_cmd value) (hchildren : children node = children value) :
    Taken Bears InSections (word_at doc)
      (word_at (attach_to (update doc sect above (Items.delete key)) (above ++ [key]) t key node had gets))
      (sect, above) key (t.sect, target) := by
  have halive := (tidy_iff.mp hdoc).1
  obtain ⟨htpath, -, titems, htarget⟩ := find_entry_stands ht
  have hthere : word_at doc (below (sect, above) key) ≠ none := by
    rw [below, h.word_below []]
    exact some_ne_none _
  unfold attach_to
  by_cases hinto : inside (above ++ [key]) t.above = true
  -- the target goes along, and the document is left without both
  · rw [if_pos hinto]
    have hheld : (held_at doc sect above).get key = some value := by
      rw [held_at, h.sect]
      exact h.get
    have hstarts : above ++ [key] <+: target := by
      rw [htpath]
      exact (List.isPrefixOf_iff_prefix.mp hinto).trans (prefix_append _ _)
    have hsect := sect_of_starts (hdoc.all_found sect hs above key value hheld) ht hstarts
    exact taken_of_cut (word_at_taken_out h) halive ⟨hsect, hstarts⟩
  · rw [if_neg hinto]
    rw [Bool.not_eq_true] at hinto
    have hself : (t.sect, t.above ++ [t.key]) ≠ (sect, above ++ [key]) := by
      rw [← htpath]
      exact fun heq => hne (congrArg Prod.snd heq)
    have hmoved := @transfer_relocates_words doc sect t.sect above t.above key t.key key value node t.value items titems
      had gets h htarget (not_under_of_inside hinto) hself hconflict hcmd hchildren
    rw [← htpath] at hmoved
    have hfree : word_at doc (below (t.sect, target) key) = none := by
      rw [below, word_at_below]
      dsimp only
      rw [htpath, held_at_below (held_of_find ht).2.2, Items.has_eq_false.mp hconflict]
      rfl
    exact hmoved.taken (rooted_word_at doc) halive hthere hfree hs

/-- What was open and is not part of the entry is open. -/
theorem opens_moved {place : Place} (h : Stands doc sect above key value items) (hopens : Opens doc place)
    (hout : ¬ Under (sect, above ++ [key]) place) (ht : find_entry_by_path doc target = some t)
    (hconflict : (children t.value).has key = false) :
    Opens (attach_to (update doc sect above (Items.delete key)) (above ++ [key]) t key node had gets) place := by
  have htaken := opens_taken_out hopens hout
  unfold attach_to
  split_ifs with hinto
  · exact htaken
  · refine opens_attach htaken ?_
    rw [word_at_taken_out h]
    split_ifs
    · rfl
    · rw [word_at_below, held_at_below (held_of_find ht).2.2, Items.has_eq_false.mp hconflict]
      rfl

theorem top_has_moved {k : String} (ht : find_entry_by_path doc target = some t)
    (h : top_has (attach_to (update doc sect above (Items.delete key)) (above ++ [key]) t key node had gets) s k = true) :
    top_has doc s k = true := by
  unfold attach_to at h
  split_ifs at h
  · exact top_has_taken_out h
  · obtain ⟨-, -, titems, htarget⟩ := find_entry_stands ht
    exact top_has_transfer htarget h

end

/-- The menu that an entry was taken from goes when it is left bare, and may leave the one above
it so. -/
theorem tidy_collapse_iff {mid : Doc} {parent : List String} {child : String} {p : PathEntry} {host : Place}
    (hdoc : Tidy doc) (hp : find_entry_by_path doc parent = some p) (hchild : (children p.value).has child = true)
    (htaken : Taken Bears InSections (word_at doc) (word_at mid) (p.sect, parent) child host)
    (hopens : Opens mid (p.sect, parent)) (hapart : Apart mid) :
    Tidy (collapse_menu mid parent)
      ↔ ¬ (empties doc (parent ++ [child]) = true ∧ host ≠ (p.sect, p.above) ∧ empties doc parent = true) := by
  obtain ⟨hpath, hsect, hheld⟩ := held_of_find hp
  have hword : word_at doc (p.sect, parent) ≠ none := by
    rw [hpath, word_at_below, hheld]
    exact some_ne_none _
  have hword' : word_at doc (p.sect, parent ++ [child]) ≠ none := by
    obtain ⟨v, hv⟩ := isSome_iff_exists.mp hchild
    rw [word_at_below, hpath, held_at_below hheld, hv]
    exact some_ne_none _
  have hmid : word_at mid (p.sect, parent) ≠ none := by
    rw [htaken.kept _ (not_under_above (p.sect, parent) child) hword]
    exact hword
  obtain ⟨e, he, hesect⟩ := find_of_word hmid (seen_of_apart hapart hsect hmid)
  have hapart' : Apart (collapse_menu mid parent) := hapart.of_top_has fun _ _ hhas => top_has_collapse_menu hhas
  -- the menu above goes too when it holds nothing else
  have halive : Alive Bears InSections (word_at (collapse_menu mid parent))
      ↔ ¬ (HoldsOnly Bears (word_at doc) (below (p.sect, p.above) p.key) child
        ∧ host ≠ (p.sect, p.above) ∧ HoldsOnly Bears (word_at doc) (p.sect, p.above) p.key) := by
    have hbelow : below (p.sect, p.above) p.key = (p.sect, parent) := by
      rw [below, hpath]
    refine Taken.alive_collapsed (hbelow ▸ htaken) ?_ ?_ hsect
    · intro hbare place
      rw [hbelow, ← hesect] at hbare ⊢
      exact word_at_collapse_bare he (hesect ▸ hopens) hbare
    · intro hstay place
      rw [hbelow, ← hesect] at hstay
      exact word_at_collapse_stays he hstay
  rw [tidy_iff, halive, below]
  dsimp only
  rw [← hpath, ← empties_iff hword' (seen_of_apart hdoc.apart hsect hword')]
  have hparent : empties doc parent = true ↔ HoldsOnly Bears (word_at doc) (p.sect, p.above) p.key := by
    rw [hpath] at hword ⊢
    exact empties_iff hword (seen_of_apart hdoc.apart hsect hword)
  rw [hparent]
  exact ⟨fun h => h.1, fun h => ⟨h, hapart'⟩⟩

end

end Lpm.Actions
