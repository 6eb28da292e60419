/-
When a drag keeps what the entries inherit.

A move writes onto the moved entry what it would lose (`keepInherited`), and fails at it for
a field that stands in the entry with no text: the field says nothing, and is taken all the
same. Dissolving a menu writes nothing, so what the menu itself gives is lost to its items
unless the container above gives the same. `settings_kept_iff` says that this is all there
is.
-/
import Lpm.Actions.Inherit
import Lpm.Actions.Drag

set_option autoImplicit false

namespace Lpm.Actions

open List Option

open Moves

/-! ## The statement -/

/-- Every entry with a command that a path finds has, where it ends up, every setting that
`inheritedAt` gave it before. -/
def KeepsSettings (doc doc' : Doc) (goes : Place → Place) : Prop :=
  ∀ place c, cmd_at doc place = some c → Found doc place →
    cmd_at doc' (goes place) = some c
      ∧ ∀ s v, (inherited_at doc place.2).get s = some v → given s doc' (goes place) = some v

variable (doc : Doc)

/-- No field that stands in the moved entry with no text is one where the entry had
something and its target gives something else, for an entry with a command that takes the
field from there. -/
def Unspoiled (source : Place) (node : Yaml) (had gets : Inherited) : Prop :=
  ∀ s rest below c v, cmd_at doc (source.1, source.2 ++ rest) = some c →
    said (own s) (children node) rest = some below → nearest below none = none →
    blank s node = true → had.get s = some v → gets.get s = some v

/-- The moved entry holds no entry with a command, itself included. -/
def Bare (source : Place) : Prop := ∀ rest, cmd_at doc (source.1, source.2 ++ rest) = none

/-- What an entry with a command takes from the menu is what the menu's container gives. -/
def GivenAbove (menu : PathEntry) : Prop :=
  ∀ s k rest below c v, cmd_at doc (menu.sect, menu.above ++ menu.key :: k :: rest) = some c →
    said (own s) (children menu.value) (k :: rest) = some below → nearest below none = none →
    own s menu.value = some v → given s doc (menu.sect, menu.above) = some v

/-- When an edit keeps every setting. -/
def SettingsStay : StructuralOp → Prop
  | .nest source target =>
    ∀ s t, source ≠ target → find_entry_by_path doc source = some s → find_entry_by_path doc target = some t →
      if inside source target.dropLast then Bare doc (s.sect, source)
      else Unspoiled doc (s.sect, source) s.value (inherited_at doc source) (inherited_at doc target)
  | .ungroup path => ∀ e, find_entry_by_path doc path = some e → GivenAbove doc e
  | .extract_onto parent child target _ _ =>
    ∀ p node, find_entry_by_path doc parent = some p → (children p.value).get child = some node →
      if inside (parent ++ [child]) target.dropLast then Bare doc (p.sect, parent ++ [child])
      else Unspoiled doc (p.sect, parent ++ [child]) node (inherited_at doc parent) (inherited_at doc target)
  | .extract_to_top parent child =>
    ∀ p node, find_entry_by_path doc parent = some p → (children p.value).get child = some node →
      Unspoiled doc (p.sect, parent ++ [child]) node (inherited_at doc parent) (top_level_defaults p.sect)
  | .reorder_menu _ _ _ _ => True

/-! ## One reading for all -/

section
variable {β γ : Type*} {doc doc' : Doc} {place : Place} {c : String}

/-- What is said in one reading is said in every other. -/
theorem said_any {read : Yaml → β} {l : List β} (h : said_at read doc place = some l) (other : Yaml → γ) :
    ∃ nodes, said_at id doc place = some nodes ∧ said_at other doc place = some (nodes.map other) := by
  have hread := said_map read id ((section_map doc place.1).getD []) place.2
  have hother := said_map other id ((section_map doc place.1).getD []) place.2
  rcases hnodes : said id ((section_map doc place.1).getD []) place.2 with _ | nodes
  · rw [hnodes] at hread
    rw [said_at] at h
    cases h.symm.trans hread
  · rw [hnodes] at hother
    exact ⟨nodes, hnodes, hother⟩

/-- `inheritedAt` gives an entry with a command what it has. -/
theorem inherited_at_cmd (hcmd : cmd_at doc place = some c) (hseen : Seen doc place) (s : Setting) :
    (inherited_at doc place.2).get s = given s doc place := by
  obtain ⟨sect, path⟩ := place
  obtain ⟨top, segs, l, hpath, hsaid⟩ := said_of_cmd hcmd
  obtain ⟨nodes, hnodes, -⟩ := said_any hsaid (own s)
  change path = top :: segs at hpath
  subst hpath
  exact inherited_at_get hseen hnodes s

/-- And an entry that a path finds. -/
theorem inherited_at_find {path : List String} {e : PathEntry} (h : find_entry_by_path doc path = some e) (s : Setting) :
    (inherited_at doc path).get s = given s doc (e.sect, path) := by
  obtain ⟨hpath, -, items, hstands⟩ := find_entry_stands h
  obtain ⟨top, -, hsaid⟩ := hstands.said_below own_cmd []
  obtain ⟨nodes, hnodes, -⟩ := said_any hsaid (own s)
  have hseen := seen_of_find h
  rw [← hpath] at hnodes
  cases path with
  | nil => exact nomatch h
  | cons first rest => exact inherited_at_get hseen hnodes s

theorem given_of_said {s : Setting} (h : said_at (own s) doc' place = said_at (own s) doc place) :
    given s doc' place = given s doc place := by
  rw [given, given, h]

end

/-! ## Below an entry -/

section
variable {doc : Doc} {sect : String} {above : List String} {key : String} {value : Yaml} {items : Items Yaml}

/-- What an entry below another has: what is said on the way down, then the other's own, then
what that is given. -/
theorem given_below (h : Stands doc sect above key value items) (s : Setting) {rest : List String}
    {below : List (Option Yaml)} (hbelow : said (own s) (children value) rest = some below) :
    given s doc (sect, above ++ key :: rest) = nearest below ((own s value).or (given s doc (sect, above))) := by
  obtain ⟨top, htop, hsaid⟩ := h.said_below (own s) rest
  rw [given, hsaid, hbelow, given, htop, map_some, bind_some, bind_some, nearest_append]
  rfl

end

/-- A value that is passed down to an entry that says nothing itself. -/
theorem nearest_some_iff {α : Type*} {below : List (Option α)} {own kept old new : Option α}
    (hown : ∀ v, own = some v → kept = some v) :
    (∀ v, nearest below (own.or old) = some v → nearest below (kept.or new) = some v)
      ↔ (nearest below none = none → own = none → ∀ v, old = some v → kept.or new = some v) := by
  constructor
  · intro h hbelow hnone v hv
    have hstep := h v
    rw [nearest_or, nearest_or below (kept.or new), hbelow, none_or, none_or, hnone, none_or] at hstep
    exact hstep hv
  · intro h v hv
    rw [nearest_or] at hv ⊢
    rcases hbelow : nearest below none with _ | w
    · rw [hbelow, none_or] at hv
      rw [none_or]
      rcases ho : own with _ | w
      · rw [ho, none_or] at hv
        exact h hbelow ho v hv
      · rw [ho] at hv
        rw [hown w ho]
        exact hv
    · rw [hbelow] at hv
      exact hv

/-! ## Edits that come after -/

/-- An edit that keeps every command and what it is given. -/
def Quiet (doc later : Doc) : Prop :=
  (∀ place, cmd_at later place = cmd_at doc place)
    ∧ ∀ place s, cmd_at doc place ≠ none → given s later place = given s doc place

theorem Quiet.trans {doc later last : Doc} (h : Quiet doc later) (h' : Quiet later last) : Quiet doc last := by
  refine ⟨fun place => (h'.1 place).trans (h.1 place), fun place s hcmd => ?_⟩
  rw [h'.2 place s (by rw [h.1]; exact hcmd), h.2 place s hcmd]

theorem quiet_reorder (doc : Doc) (path order : List String) : Quiet doc (reorder_menu doc path order) :=
  ⟨cmd_at_reorder_menu doc path order, fun place s _ =>
    given_of_said (said_reorder_menu (steady_own s) doc path order place)⟩

theorem quiet_collapse (doc : Doc) (path : List String) : Quiet doc (collapse_menu doc path) := by
  refine ⟨cmd_at_collapse_menu doc path, fun place s hcmd => ?_⟩
  rcases said_collapse_menu (steady_own s) doc path place with hsame | ⟨-, hnone⟩
  · exact given_of_said hsame
  · exact absurd hnone hcmd

theorem Quiet.keeps_iff {doc doc' later : Doc} {goes : Place → Place} (h : Quiet doc' later) :
    KeepsSettings doc later goes ↔ KeepsSettings doc doc' goes := by
  constructor
  · intro hkeeps place c hcmd hfound
    obtain ⟨hafter, hgiven⟩ := hkeeps place c hcmd hfound
    rw [h.1] at hafter
    refine ⟨hafter, fun s v hv => ?_⟩
    rw [← h.2 (goes place) s (by rw [hafter]; exact some_ne_none c)]
    exact hgiven s v hv
  · intro hkeeps place c hcmd hfound
    obtain ⟨hafter, hgiven⟩ := hkeeps place c hcmd hfound
    refine ⟨by rw [h.1]; exact hafter, fun s v hv => ?_⟩
    rw [h.2 (goes place) s (by rw [hafter]; exact some_ne_none c)]
    exact hgiven s v hv

/-! ## Moving an entry -/

theorem seen_append {doc : Doc} {sect : String} {path : List String} (h : Seen doc (sect, path)) (hne : path ≠ [])
    (rest : List String) : Seen doc (sect, path ++ rest) := by
  have hhead : (path ++ rest).headD "" = path.headD "" := by
    cases path with
    | nil => exact absurd rfl hne
    | cons first path => rfl
  rcases h with hs | ⟨hs, hno⟩
  · exact Or.inl hs
  · exact Or.inr ⟨hs, by rw [hhead]; exact hno⟩

section
variable {doc doc' : Doc} {goes : Place → Place} {source : Place} {node : Yaml} {had gets : Inherited}
  {H G : Setting → Option Yaml}

/-- A move keeps every setting just when no blank field stands in the way. -/
theorem moved_settings (hcmd : ∀ place c, cmd_at doc place = some c → cmd_at doc' (goes place) = some c)
    (hstay : ∀ place c s, cmd_at doc place = some c → ¬ Under source place →
      given s doc' (goes place) = given s doc place)
    (hmoved : ∀ s rest c, cmd_at doc (source.1, source.2 ++ rest) = some c →
      ∃ below, said (own s) (children node) rest = some below
        ∧ given s doc (source.1, source.2 ++ rest) = nearest below ((own s node).or (H s))
        ∧ given s doc' (goes (source.1, source.2 ++ rest))
          = nearest below ((own s (kept_node had gets node)).or (G s)))
    (hseen : ∀ rest, Seen doc (source.1, source.2 ++ rest)) (hproper : Proper had)
    (hH : ∀ s, own s node = none → had.get s = H s) (hG : ∀ s, own s node = none → gets.get s = G s) :
    KeepsSettings doc doc' goes ↔ Unspoiled doc source node had gets := by
  constructor
  · intro hkeeps s rest below c v hc hbelow hnone hblank hhad
    have hown := own_none_of_blank hblank
    obtain ⟨below', hbelow', hold, hnew⟩ := hmoved s rest c hc
    rw [hbelow] at hbelow'
    cases hbelow'
    obtain ⟨-, hgiven⟩ := hkeeps _ c hc ((found_iff_seen hc).mpr (hseen rest))
    have hv := hgiven s v
    rw [inherited_at_cmd hc (hseen rest), hold, hnew, nearest_or, nearest_or below (Option.or _ (G s)), hnone, hown,
      own_kept_blank hblank, ← hH s hown, ← hG s hown, none_or, none_or, none_or,
      none_or] at hv
    exact hv hhad
  · intro hclean place c hc hfound
    refine ⟨hcmd place c hc, fun s => ?_⟩
    rw [inherited_at_cmd hc ((found_iff_seen hc).mp hfound)]
    -- only what stands under the entry can lose a setting
    by_cases hunder : Under source place
    · obtain ⟨rest, rfl⟩ := hunder.split
      obtain ⟨below, hbelow, hold, hnew⟩ := hmoved s rest c hc
      rw [hold, hnew, nearest_some_iff fun v => own_kept_some]
      intro hnone hown v hv
      rw [← hH s hown] at hv
      rw [← hG s hown]
      by_cases hblank : blank s node = true
      · rw [own_kept_blank hblank, none_or]
        exact hclean s rest below c v hc hbelow hnone hblank hv
      · exact own_kept_or hproper hown (by simpa using hblank) hv
    · intro v hv
      rw [hstay place c s hc hunder]
      exact hv

end

section
variable {doc : Doc} {sect tsect : String} {above tabove : List String} {key tkey leaf : String}
  {value node tvalue : Yaml} {items titems : Items Yaml} {had gets : Inherited}

variable (h : Stands doc sect above key value items)
include h

/-- What an entry with a command says is said below the node that is moved. -/
theorem said_of_cmd_below {rest : List String} {c : String}
    (hc : cmd_at doc (sect, above ++ [key] ++ rest) = some c) (s : Setting) :
    ∃ below, said (own s) (children value) rest = some below := by
  obtain ⟨top, segs, l, -, hsaid⟩ := said_of_cmd hc
  obtain ⟨nodes, -, hother⟩ := said_any hsaid (own s)
  obtain ⟨top', -, hthere⟩ := h.said_below (own s) rest
  rw [append_assoc, singleton_append, hthere] at hother
  obtain ⟨below, hbelow, -⟩ := map_eq_some_iff.mp hother
  exact ⟨below, hbelow⟩

/-- A move keeps the settings just when no blank field hides one. -/
theorem transfer_settings
    (ht : Stands doc tsect tabove tkey tvalue titems) (hout : ¬ Under (sect, above ++ [key]) (tsect, tabove))
    (hfree : (children tvalue).has leaf = false) (hcmd : own_cmd node = own_cmd value)
    (hchildren : children node = children value) (hown : ∀ s, own s node = own s value)
    (hseen : Seen doc (sect, above ++ [key])) (hproper : Proper had)
    (hhad : ∀ s, own s node = none → had.get s = given s doc (sect, above))
    (hgets : ∀ s, gets.get s = given s doc (tsect, tabove ++ [tkey])) :
    KeepsSettings doc (transfer doc sect above key tsect tabove tkey leaf node had gets)
        (relocate (sect, above ++ [key]) (tsect, tabove ++ [tkey] ++ [leaf]))
      ↔ Unspoiled doc (sect, above ++ [key]) node had gets := by
  have htarget : tabove ++ [tkey] ++ [leaf] = tabove ++ [tkey, leaf] := append_assoc _ _ _
  have hrelocated : Relocated (cmd_at doc) (cmd_at (transfer doc sect above key tsect tabove tkey leaf node had gets))
      (sect, above ++ [key]) (tsect, tabove ++ [tkey, leaf]) := transfer_relocates h ht hout hfree hcmd hchildren
  -- what the new place gives, which is a new entry when the target was the entry itself
  obtain ⟨G, hG, hgiven⟩ : ∃ G : Setting → Option Yaml, (∀ s, own s node = none → gets.get s = G s)
      ∧ ∀ s rest below, said (own s) (children node) rest = some below →
        given s (transfer doc sect above key tsect tabove tkey leaf node had gets) (tsect, tabove ++ [tkey, leaf] ++ rest)
          = nearest below ((own s (kept_node had gets node)).or (G s)) := by
    by_cases hself : (tsect, tabove ++ [tkey]) = (sect, above ++ [key])
    · refine ⟨fun s => given s doc (sect, above), fun s hnone => ?_, fun s rest below hbelow => ?_⟩
      · have hvalue : said (own s) (children value) [] = some [] := rfl
        rw [hgets, hself, given_below h s hvalue, ← hown, hnone, none_or]
        rfl
      · obtain ⟨top, hsaid, hor⟩ := @said_transfer_leaf doc sect tsect above tabove key tkey leaf value node tvalue
          items titems had gets _ (own s) (steady_own s) h ht hout rest
        rcases hor with ⟨hne, -⟩ | ⟨-, before, hbefore, rfl⟩
        · exact absurd hself hne
        · have hbare : own s (.map []) = none := by cases s <;> rfl
          have hsect : tsect = sect := congrArg Prod.fst hself
          show _ = nearest below ((own s (kept_node had gets node)).or (given s doc (sect, above)))
          rw [given, hsaid, hbelow, given, hbefore, map_some, bind_some, bind_some, hbare,
            append_assoc, nearest_append, hsect]
          rfl
    · refine ⟨fun s => given s doc (tsect, tabove ++ [tkey]), fun s _ => hgets s, fun s rest below hbelow => ?_⟩
      obtain ⟨top, hsaid, hor⟩ := @said_transfer_leaf doc sect tsect above tabove key tkey leaf value node tvalue
        items titems had gets _ (own s) (steady_own s) h ht hout rest
      rcases hor with ⟨-, htop⟩ | ⟨hself', -⟩
      · show _ = nearest below ((own s (kept_node had gets node)).or (given s doc (tsect, tabove ++ [tkey])))
        rw [given, hsaid, hbelow, given, htop, map_some, bind_some, bind_some, nearest_append]
        rfl
      · exact absurd hself' hself
  rw [htarget]
  refine moved_settings (fun place c hc => hrelocated.moves.kept hc) ?_ ?_ (seen_append hseen (by simp)) hproper hhad hG
  · intro place c s hc hunder
    rw [relocate_other hunder]
    have hleaf : ¬ Under (tsect, tabove ++ [tkey, leaf]) place := by
      intro hleaf
      obtain ⟨rest, rfl⟩ := hleaf.split
      rw [hrelocated.free rest hunder] at hc
      cases hc
    have hnew : place = (sect, above ++ [key]) → place ≠ (tsect, tabove ++ [tkey]) := fun hplace =>
      absurd ⟨congrArg Prod.fst hplace, hplace ▸ prefix_rfl⟩ hunder
    apply given_of_said
    rw [said_transfer_other (steady_own s) h ht hout hleaf hnew, if_neg hunder]
  · intro s rest c hc
    obtain ⟨below, hbelow⟩ := said_of_cmd_below h hc s
    refine ⟨below, by rw [hchildren]; exact hbelow, ?_, ?_⟩
    · rw [append_assoc, singleton_append, given_below h s hbelow, hown]
    · rw [relocate_append]
      exact hgiven s rest below (by rw [hchildren]; exact hbelow)

/-- A target below the entry itself: what goes along is gone. -/
theorem taken_out_settings (hseen : Seen doc (sect, above ++ [key]))
    {target : List String} (htarget : above ++ [key] <+: target) :
    KeepsSettings doc (update doc sect above (Items.delete key)) (relocate (sect, above ++ [key]) (sect, target))
      ↔ Bare doc (sect, above ++ [key]) := by
  constructor
  · intro hkeeps rest
    by_contra hcmd
    obtain ⟨c, hc⟩ := ne_none_iff_exists'.mp hcmd
    obtain ⟨hafter, -⟩ := hkeeps _ c hc ((found_iff_seen hc).mpr (seen_append hseen (by simp) rest))
    have hunder : Under (sect, above ++ [key]) (sect, target ++ rest) :=
      ⟨rfl, htarget.trans (prefix_append _ _)⟩
    rw [relocate_append, cmd_at, said_taken_out steady_own_cmd h, if_pos hunder] at hafter
    cases hafter
  · intro hbare place c hc hfound
    have hunder : ¬ Under (sect, above ++ [key]) place := by
      intro hunder
      obtain ⟨rest, rfl⟩ := hunder.split
      rw [hbare rest] at hc
      cases hc
    rw [relocate_other hunder]
    refine ⟨?_, fun s v hv => ?_⟩
    · rw [cmd_at, said_taken_out steady_own_cmd h, if_neg hunder]
      exact hc
    · rw [inherited_at_cmd hc ((found_iff_seen hc).mp hfound)] at hv
      have hsame : given s (update doc sect above (Items.delete key)) place = given s doc place := by
        apply given_of_said
        rw [said_taken_out (steady_own s) h, if_neg hunder]
      rw [hsame]
      exact hv

end

/-! ## Edit by edit -/

section
variable {doc doc' : Doc} {order_of : List String → List String}

theorem keeps_settings_refl (doc : Doc) : KeepsSettings doc doc id := by
  intro place c hc hfound
  refine ⟨hc, fun s v hv => ?_⟩
  rw [inherited_at_cmd hc ((found_iff_seen hc).mp hfound)] at hv
  exact hv

/-- The first key of a path decides the section. -/
theorem same_sect {path longer : List String} {e e' : PathEntry} (hstarts : path <+: longer)
    (h : find_entry_by_path doc path = some e) (h' : find_entry_by_path doc longer = some e') : e'.sect = e.sect := by
  obtain ⟨rest, rfl⟩ := hstarts
  cases path with
  | nil => exact nomatch h
  | cons top segs =>
    rw [cons_append, find_entry_by_path] at h'
    rw [find_entry_by_path] at h
    obtain ⟨found, htop, hrest⟩ := bind_eq_some_iff.mp h
    obtain ⟨value, -, rfl⟩ := map_eq_some_iff.mp hrest
    rw [htop, bind_some] at h'
    obtain ⟨value', -, rfl⟩ := map_eq_some_iff.mp h'
    rfl

/-- Losing its place in a bar makes no field of an entry blank. -/
theorem blank_unplaced (s : Setting) (node : Yaml) : blank s (unplaced node) = blank s node := by
  cases s with
  | env name => rfl
  | field name h =>
    cases node with
    | map fields =>
      have hget : Items.get name (PLACEMENT_KEYS.foldl (fun fields key => Items.delete key fields) fields)
          = Items.get name fields := by
        have hne : ∀ key ∈ PLACEMENT_KEYS, name ≠ key := by
          rintro key hkey rfl
          revert h hkey
          simp only [INHERITED_FIELDS, PLACEMENT_KEYS, mem_cons, not_mem_nil, or_false]
          rintro (rfl | rfl | rfl) <;> decide
        simp only [PLACEMENT_KEYS, foldl_cons, foldl_nil]
        rw [Items.get_delete_other (hne _ (by decide)), Items.get_delete_other (hne _ (by decide)),
          Items.get_delete_other (hne _ (by decide))]
      have hhas : (widened (some (unplaced (.map fields)))).has name = (widened (some (.map fields))).has name := by
        show Items.has name (List.foldl _ _ _) = Items.has name fields
        rw [Items.has, hget]
        rfl
      have hown : own_field (unplaced (.map fields)) name = own_field (.map fields) name := by
        have hyaml : Yaml.get name (unplaced (.map fields)) = Yaml.get name (.map fields) := hget
        rw [own_field, own_field, hyaml]
      rw [blank, blank, hhas, hown]
    | str text => rfl
    | lit text => rfl
    | seq items => rfl

theorem unspoiled_unplaced {source : Place} {node : Yaml} {had gets : Inherited} :
    Unspoiled doc source (unplaced node) had gets ↔ Unspoiled doc source node had gets := by
  unfold Unspoiled
  simp only [children_unplaced, blank_unplaced]

variable {path above : List String}

theorem not_inside (h : ¬ inside path above = true) : inside path above = false := by
  simpa using h

theorem prefix_of_inside (h : inside path above = true) : path <+: above :=
  isPrefixOf_iff_prefix.mp h

theorem nest_settings {source target : List String} (h : nest_entry doc order_of source target = .ok doc') :
    KeepsSettings doc doc' (lands doc (.nest source target)) ↔ SettingsStay doc (.nest source target) := by
  simp only [lands, SettingsStay]
  obtain ⟨hnone, rfl⟩ | ⟨s, t, order, hsame, hs, ht, hconflict, rfl⟩ := nest_entry_ok h
  · refine ⟨fun _ s t hne hs ht => ?_, fun _ => ?_⟩
    · rw [hs, ht] at hnone
      simp_all
    · split
      · exact keeps_settings_refl doc'
      · split
        · next hs ht =>
          rw [hs, ht] at hnone
          simp_all
        · exact keeps_settings_refl doc'
  rw [if_neg hsame, hs, ht]
  obtain ⟨hspath, -, sitems, hsource⟩ := find_entry_stands hs
  obtain ⟨htpath, -, titems, htarget⟩ := find_entry_stands ht
  have hseen := seen_of_find hs
  rw [(quiet_reorder _ _ _).keeps_iff]
  -- the condition is about the two entries that were found
  have hone : (∀ s' t', source ≠ target → some s = some s' → some t = some t' →
      if inside source target.dropLast = true then Bare doc (s'.sect, source)
      else Unspoiled doc (s'.sect, source) s'.value (inherited_at doc source) (inherited_at doc target))
      ↔ if inside source target.dropLast = true then Bare doc (s.sect, source)
        else Unspoiled doc (s.sect, source) s.value (inherited_at doc source) (inherited_at doc target) := by
    constructor
    · exact fun hall => hall s t hsame rfl rfl
    · rintro hone s' t' - hs' -
      cases hs'
      exact hone
  rw [hone, dropLast_of_find ht]
  show KeepsSettings doc _ (relocate (s.sect, source) (t.sect, target ++ [s.key])) ↔ _
  -- the target is below the entry, which is taken out and put nowhere
  by_cases hinto : inside source t.above = true
  · have hstarts : source <+: target := by
      rw [htpath]
      exact (prefix_of_inside hinto).trans (prefix_append _ _)
    rw [if_pos hinto, attach_to, if_pos hinto, same_sect hstarts hs ht]
    have hlonger : source <+: target ++ [s.key] := hstarts.trans (prefix_append _ _)
    rw [hspath] at hseen hlonger ⊢
    exact taken_out_settings hsource hseen hlonger
  · rw [if_neg hinto, attach_to, if_neg hinto, ← unspoiled_unplaced]
    have hunder := @not_under_of_inside s.sect t.sect source t.above (not_inside hinto)
    -- what the entry does not say comes from what it hung on
    have hhad : ∀ r, own r (unplaced s.value) = none → (inherited_at doc source).get r = given r doc (s.sect, s.above) := by
      intro r hnone
      have hbelow : said (own r) (children s.value) [] = some [] := rfl
      rw [read_unplaced (steady_own r)] at hnone
      rw [inherited_at_find hs, hspath, given_below hsource r hbelow, hnone, none_or]
      rfl
    have hgets : ∀ r, (inherited_at doc target).get r = given r doc (t.sect, t.above ++ [t.key]) := by
      intro r
      rw [inherited_at_find ht, ← htpath]
    rw [hspath] at hunder hseen
    have hiff := transfer_settings hsource htarget hunder hconflict
      (read_unplaced steady_own_cmd s.value) (children_unplaced s.value)
      (fun r => read_unplaced (steady_own r) s.value) hseen (proper_inherited_at doc source) hhad hgets
    rw [← hspath, ← htpath] at hiff
    exact hiff

theorem extract_onto_settings {parent target : List String} {child : String} {«over» : Option String}
    {position : Option Bool} (h : extract_onto doc order_of parent child target «over» position = .ok doc') :
    KeepsSettings doc doc' (lands doc (.extract_onto parent child target «over» position))
      ↔ SettingsStay doc (.extract_onto parent child target «over» position) := by
  simp only [lands, SettingsStay]
  obtain ⟨p, t, node, items, order, hp, ht, hchild, hstands, hconflict, rfl⟩ := extract_onto_ok h
  obtain ⟨htpath, -, titems, htarget⟩ := find_entry_stands ht
  rw [((quiet_reorder _ _ _).trans (quiet_collapse _ _)).keeps_iff]
  have hone : (∀ p' n, some p = some p' → (children p'.value).get child = some n →
      if inside (parent ++ [child]) target.dropLast = true then Bare doc (p'.sect, parent ++ [child])
      else Unspoiled doc (p'.sect, parent ++ [child]) n (inherited_at doc parent) (inherited_at doc target))
      ↔ if inside (parent ++ [child]) target.dropLast = true then Bare doc (p.sect, parent ++ [child])
        else Unspoiled doc (p.sect, parent ++ [child]) node (inherited_at doc parent) (inherited_at doc target) := by
    constructor
    · exact fun hall => hall p node rfl hchild
    · rintro hone p' n hp' hn
      cases hp'
      rw [hchild] at hn
      cases hn
      exact hone
  rw [hp, ht, hone, dropLast_of_find ht]
  show KeepsSettings doc _ (relocate (p.sect, parent ++ [child]) (t.sect, target ++ [child])) ↔ _
  have hseen : Seen doc (p.sect, parent ++ [child]) := by
    refine seen_append (seen_of_find hp) ?_ [child]
    rintro rfl
    cases hp
  -- either the target stands inside the entry itself, or apart from it
  by_cases hinto : inside (parent ++ [child]) t.above = true
  · have hstarts : parent ++ [child] <+: target := by
      rw [htpath]
      exact (prefix_of_inside hinto).trans (prefix_append _ _)
    have hparent : parent <+: target := (prefix_append _ _).trans hstarts
    rw [if_pos hinto, attach_to, if_pos hinto, same_sect hparent hp ht]
    exact taken_out_settings hstands hseen (hstarts.trans (prefix_append _ _))
  · rw [if_neg hinto, attach_to, if_neg hinto]
    have hunder := @not_under_of_inside p.sect t.sect (parent ++ [child]) t.above (not_inside hinto)
    have hgets : ∀ r, (inherited_at doc target).get r = given r doc (t.sect, t.above ++ [t.key]) := by
      intro r
      rw [inherited_at_find ht, ← htpath]
    have hiff := transfer_settings hstands htarget hunder hconflict rfl rfl (fun _ => rfl) hseen
      (proper_inherited_at doc parent) (fun r _ => inherited_at_find hp r) hgets
    rw [← htpath] at hiff
    exact hiff

theorem extract_to_top_settings {parent : List String} {child : String}
    (h : extract_to_top doc parent child = .ok doc') :
    KeepsSettings doc doc' (lands doc (.extract_to_top parent child)) ↔ SettingsStay doc (.extract_to_top parent child) := by
  have hkeeps := extract_to_top_keeps h
  simp only [lands, SettingsStay] at hkeeps ⊢
  obtain ⟨p, node, items, hconflict, hp, hchild, hstands, rfl⟩ := extract_to_top_ok h
  rw [(quiet_collapse _ _).keeps_iff]
  -- the condition is about the parent and the child that were found
  have hone : (∀ p' n, some p = some p' → (children p'.value).get child = some n →
      Unspoiled doc (p'.sect, parent ++ [child]) n (inherited_at doc parent) (top_level_defaults p'.sect))
      ↔ Unspoiled doc (p.sect, parent ++ [child]) node (inherited_at doc parent) (top_level_defaults p.sect) := by
    constructor
    · exact fun hall => hall p node rfl hchild
    · rintro hone p' n hp' hn
      cases hp'
      rw [hchild] at hn
      cases hn
      exact hone
  rw [hp] at hkeeps ⊢
  rw [hone]
  show KeepsSettings doc (put_top (update doc p.sect parent (Items.delete child)) p.sect child node
    (inherited_at doc parent) (top_level_defaults p.sect)) (relocate (p.sect, parent ++ [child]) (p.sect, [child])) ↔ _
  have hseen : Seen doc (p.sect, parent ++ [child]) := by
    refine seen_append (seen_of_find hp) ?_ [child]
    rintro rfl
    cases hp
  refine @moved_settings doc _ _ (p.sect, parent ++ [child]) node (inherited_at doc parent) (top_level_defaults p.sect)
    (fun s => given s doc (p.sect, parent)) (fun s => (top_level_defaults p.sect).get s) ?_ ?_ ?_
    (seen_append hseen (by simp)) (proper_inherited_at doc parent) (fun s _ => inherited_at_find hp s) (fun _ _ => rfl)
  · intro place c hc
    have hafter := hkeeps.moved.kept hc
    rw [cmd_at_collapse_menu] at hafter
    exact hafter
  · intro place c s hc hunder
    rw [relocate_other hunder]
    -- the key was free at the top, so nothing stood there
    have hleaf : ¬ Under (p.sect, [child]) place := by
      intro hleaf
      obtain ⟨rest, rfl⟩ := hleaf.split
      have hhas : top_has doc p.sect child = true := top_has_of_cmd (by rw [hc]; exact some_ne_none c)
      obtain ⟨-, hmem, -⟩ := find_entry_stands hp
      rw [top_has_of_none hconflict hmem] at hhas
      cases hhas
    apply given_of_said
    rw [said_put_top_other hleaf, said_taken_out (steady_own s) hstands, if_neg hunder]
  · intro s rest c hc
    obtain ⟨below, hbelow⟩ := said_of_cmd_below hstands hc s
    refine ⟨below, hbelow, ?_, ?_⟩
    · rw [append_assoc, singleton_append, given_below hstands s hbelow]
    · rw [relocate_append]
      show given s _ (p.sect, child :: rest) = _
      rw [given, said_put_top_leaf, hbelow]
      rfl

/-- What a dissolved menu passed down is given by its container, or was taken from nearer. -/
theorem nearest_drop_iff {α : Type*} {below : List (Option α)} {menu above : Option α} :
    (∀ v, nearest below (menu.or above) = some v → nearest below above = some v)
      ↔ (nearest below none = none → ∀ v, menu = some v → above = some v) := by
  constructor
  · intro h hnone v hv
    have hstep := h v
    rw [nearest_or, nearest_or below above, hnone, none_or, none_or, hv] at hstep
    exact hstep rfl
  · intro h v hv
    rw [nearest_or] at hv ⊢
    rcases hbelow : nearest below none with _ | w
    · rw [hbelow, none_or] at hv
      rw [none_or]
      rcases menu with _ | m
      · exact hv
      · obtain rfl : m = v := some.inj hv
        exact h hbelow m rfl
    · rw [hbelow] at hv
      exact hv

/-- Dissolving a menu keeps the settings of its items just when they need nothing of it. -/
theorem dissolved_settings {sect key : String} {above : List String} {fields items : Items Yaml}
    (h : Stands doc sect above key (.map fields) items) (hseen : Seen doc (sect, above ++ [key]))
    (hclash : ∀ k, (children (.map fields)).has k = true → clashes key fields (items_at above items) k = false) :
    KeepsSettings doc (update doc sect above (splice key (stands_in key fields))) (rise sect above key)
      ↔ GivenAbove doc { sect, above, key, value := .map fields } := by
  -- where the commands go is settled: what is left are the settings
  have hdissolved : Dissolved (cmd_at doc) _ sect above key _ := dissolves h hclash
  have hchild : ∀ {k rest c}, cmd_at doc (sect, above ++ key :: k :: rest) = some c →
      (children (.map fields)).has k = true := by
    intro k rest c hc
    by_contra hk
    rw [hdissolved.below rest hk] at hc
    exact nomatch hc
  have hfound : ∀ k rest, Seen doc (sect, above ++ key :: k :: rest) := by
    intro k rest
    have hlonger := seen_append hseen (by simp) (k :: rest)
    rw [append_assoc] at hlonger
    exact hlonger
  -- what an item of the menu is given before and after
  have hgiven : ∀ {k rest c}, cmd_at doc (sect, above ++ key :: k :: rest) = some c → ∀ s,
      ∃ below, said (own s) (children (.map fields)) (k :: rest) = some below
        ∧ given s doc (sect, above ++ key :: k :: rest)
          = nearest below ((own s (.map fields)).or (given s doc (sect, above)))
        ∧ given s (update doc sect above (splice key (stands_in key fields))) (sect, above ++ k :: rest)
          = nearest below (given s doc (sect, above)) := by
    intro k rest c hc s
    have hc' : cmd_at doc (sect, above ++ [key] ++ k :: rest) = some c := by
      rw [append_assoc]
      exact hc
    obtain ⟨below, hbelow⟩ := said_of_cmd_below h hc' s
    refine ⟨below, hbelow, given_below h s hbelow, ?_⟩
    obtain ⟨top, htop, hsaid⟩ := said_risen (steady_own s) h hclash (hchild hc) rest
    rw [given, hsaid, hbelow, given, htop, map_some, bind_some, bind_some, nearest_append]
  constructor
  · intro hkeeps s k rest below c v hc hbelow hnone hv
    obtain ⟨-, hvalues⟩ := hkeeps _ c hc ((found_iff_seen hc).mpr (hfound k rest))
    obtain ⟨below', hbelow', hold, hnew⟩ := hgiven hc s
    obtain rfl : below = below' := some.inj (hbelow.symm.trans hbelow')
    have hvalue := hvalues s
    rw [inherited_at_cmd hc (hfound k rest), hold, rise_below, hnew, nearest_drop_iff] at hvalue
    exact hvalue hnone v hv
  · intro habove place c hc hplace
    refine ⟨hdissolved.moves.kept hc, fun s => ?_⟩
    rw [inherited_at_cmd hc ((found_iff_seen hc).mp hplace)]
    by_cases hunder : ∃ k rest, place = (sect, above ++ key :: k :: rest)
    · obtain ⟨k, rest, rfl⟩ := hunder
      obtain ⟨below, hbelow, hold, hnew⟩ := hgiven hc s
      rw [rise_below, hold, hnew, nearest_drop_iff]
      exact fun hnone v hv => habove s k rest below c v hc hbelow hnone hv
    · have hother : ∀ k rest, place ≠ (sect, above ++ key :: k :: rest) := fun k rest heq => hunder ⟨k, rest, heq⟩
      rw [rise_other hother]
      suffices hsame : given s (update doc sect above (splice key (stands_in key fields))) place = given s doc place by
        rw [hsame]
        exact fun v hv => hv
      apply given_of_said
      by_cases hnear : ∃ k rest, ((children (.map fields)).has k = true ∨ k = key) ∧ place = (sect, above ++ k :: rest)
      · obtain ⟨k, rest, hk, rfl⟩ := hnear
        -- only the menu itself can have a command there
        have hkey : k = key := by
          by_contra hne
          rw [hdissolved.free rest (hk.resolve_right hne) hne] at hc
          exact nomatch hc
        rw [hkey] at hc hother ⊢
        cases rest with
        | cons k' rest => exact absurd rfl (hother k' rest)
        | nil =>
          have hno : (children (.map fields)).has key = false := by
            by_contra hhas
            rw [Bool.not_eq_false] at hhas
            rw [hdissolved.taken hhas] at hc
            exact nomatch hc
          have hcmd : has_default_cmd (.map fields) = true := by
            rw [h.cmd_below] at hc
            have hown : own_cmd (.map fields) = some c := hc
            rw [has_default_cmd, hown]
            rfl
          rw [said_dissolved (steady_own s) h hclash hno, if_pos ⟨hcmd, rfl⟩]
      · exact said_beside (steady_own s) h hclash fun k rest hk heq => hnear ⟨k, rest, hk, heq⟩

theorem ungroup_settings {path : List String} (h : ungroup_menu doc path = .ok doc') :
    KeepsSettings doc doc' (lands doc (.ungroup path)) ↔ SettingsStay doc (.ungroup path) := by
  unfold ungroup_menu at h
  simp only [lands, SettingsStay]
  rcases he : find_entry_by_path doc path with _ | e
  · rw [he] at h
    obtain rfl := Except.ok.inj h
    exact ⟨fun _ e he' => (by cases he'), fun _ => keeps_settings_refl doc⟩
  rw [he] at h
  have hone : (∀ e', some e = some e' → GivenAbove doc e') ↔ GivenAbove doc e := by
    constructor
    · exact fun hall => hall e rfl
    · rintro hone e' he'
      rw [← some.inj he']
      exact hone
  rw [hone]
  obtain ⟨hpath, -, items, hstands⟩ := find_entry_stands he
  have hseen := seen_of_find he
  rw [hpath] at hseen
  obtain ⟨sect, above, key, value⟩ := e
  simp only at h hstands hseen ⊢
  -- an entry that is no map has no items
  have hplain : ∀ plain : Yaml, value = plain → children plain = [] →
      GivenAbove doc { sect, above, key, value } := by
    rintro plain rfl hbare s k rest below c v - hbelow
    rw [hbare] at hbelow
    cases hbelow
  cases value with
  | str text | lit text | seq list =>
    obtain rfl := Except.ok.inj h
    exact ⟨fun _ => hplain _ rfl rfl, fun _ => keeps_settings_refl doc⟩
  | map fields =>
    simp only at h
    split at h
    · cases h
    next hfind =>
      obtain rfl := Except.ok.inj h
      exact dissolved_settings hstands hseen (no_clash hstands hfind)

end

/-! ## When the settings stay -/

/-- An edit that goes through keeps the settings of every entry with a command just when it
dissolves no menu that passes something down which its container does not give, writes over
no field that stands in the moved entry with no text, and drops nothing below itself. -/
theorem settings_kept_iff (doc doc' : Doc) (order_of : List String → List String) (op : StructuralOp)
    (h : apply_op_to_doc doc order_of op = .ok doc') :
    KeepsSettings doc doc' (lands doc op) ↔ SettingsStay doc op := by
  cases op with
  | nest source target => exact nest_settings h
  | ungroup path => exact ungroup_settings h
  | extract_onto parent child target «over» position => exact extract_onto_settings h
  | extract_to_top parent child => exact extract_to_top_settings h
  | reorder_menu parent child «over» position =>
    refine ⟨fun _ => trivial, fun _ => ?_⟩
    rcases reorder_op h with rfl | ⟨order, rfl⟩
    · exact keeps_settings_refl _
    · exact (quiet_reorder doc parent order).keeps_iff.mpr (keeps_settings_refl doc)

/-- Two menus, and the documents before and after an item of one is dropped onto the other. -/
def app_and_ops : Doc :=
  [("actions", .map [("app", .map [("cwd", .str "app"), ("env", .map [("PORT", .lit "80")]),
      ("actions", .map [("run", .str "make"), ("test", .str "check")])]),
    ("ops", .map [("cwd", .str "ops"), ("cmd", .str "tail")])])]

def run_in_ops : Doc :=
  [("actions", .map [("app", .map [("cwd", .str "app"), ("env", .map [("PORT", .lit "80")]),
      ("actions", .map [("test", .str "check")])]),
    ("ops", .map [("cwd", .str "ops"), ("cmd", .str "tail"),
      ("actions", .map [("run", .map [("cmd", .str "make"), ("cwd", .str "app"),
        ("env", .map [("PORT", .lit "80")]), ("position", .lit "1")])])])])]

/-- An item goes from one menu into another and takes both settings of its old one along. -/
theorem settings_kept_iff_extract : KeepsSettings app_and_ops run_in_ops
    (lands app_and_ops (.extract_onto ["app"] "run" ["ops"] none none)) := by
  refine (settings_kept_iff app_and_ops run_in_ops (fun _ => []) _ rfl).mpr fun p node hp hnode => ?_
  cases hp
  cases hnode
  intro s rest below c v _ _ _ hblank
  cases s with
  | env name => cases hblank
  | field name h =>
    -- the item has a command alone, and that is no setting
    have hne : name ≠ "cmd" := by
      rintro rfl
      exact absurd h (by decide)
    simp [blank, widened, Items.has, Items.get, hne.symm] at hblank

/-- A menu with a working directory, and its item alone. -/
def run_in_app : Doc :=
  [("actions", .map [("app", .map [("cwd", .str "app"), ("actions", .map [("run", .str "make")])])])]

def run_alone : Doc := [("actions", .map [("run", .str "make")])]

/-- Dissolving the menu takes the item's working directory away. -/
theorem ungroup_loses_cwd : apply_op_to_doc run_in_app (fun _ => []) (.ungroup ["app"]) = .ok run_alone
    ∧ cmd_at run_in_app ("actions", ["app", "run"]) = some "make"
    ∧ lands run_in_app (.ungroup ["app"]) ("actions", ["app", "run"]) = ("actions", ["run"])
    ∧ (inherited_at run_in_app ["app", "run"]).fields.get "cwd" = some "app"
    ∧ (inherited_at run_alone ["run"]).fields.get "cwd" = none
    ∧ ¬ KeepsSettings run_in_app run_alone (lands run_in_app (.ungroup ["app"])) := by
  refine ⟨rfl, rfl, rfl, rfl, rfl, fun hkeeps => ?_⟩
  obtain ⟨-, hvalues⟩ := hkeeps ("actions", ["app", "run"]) "make" rfl rfl
  have hcwd := hvalues (.field "cwd" (by decide)) (.str "app") rfl
  have hnone : given (.field "cwd" (by decide)) run_alone
      (lands run_in_app (.ungroup ["app"]) ("actions", ["app", "run"])) = none := rfl
  exact nomatch hnone.symm.trans hcwd

end Lpm.Actions
