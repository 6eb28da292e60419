/-
An action moved from one config file to another: `moveActionBetweenDocs` of `actionConfig.ts`.

The entry goes to the section it came from. The lookup takes `actions` before `terminals`,
so an entry of `terminals` is not found in a file that has a placement note for its key
under `actions`. The test for a collision lets such a note pass, since it has no body.
-/
import Lpm.Actions.Lookup

set_option autoImplicit false

namespace Lpm.Actions

open Option

/-! ## The move -/

/-- What a parsed file holds: nothing, or a node. -/
abbrev Contents := Option Yaml

variable (contents : Contents)

/-- The fields that `get` of a document finds. -/
def fields_of : Doc := (contents.bind Yaml.pairs).getD []

/-- `set` of a document. -/
def set_field (field : String) (value : Yaml) : Except String Contents :=
  match contents with
  | none => .ok (some (.map [(field, value)]))
  | some (.map items) => .ok (some (.map (Items.set field value items)))
  | some (.seq _) => .error s!"Expected a valid index, not {field}."
  | some _ => .error "Expected a YAML collection as document contents"

/-- `findActionSection` and the entry there. -/
def entry_of (key : String) : Option (String × Yaml) :=
  find_top_entry (fields_of contents) key

/-- The entry among those of the section, which is a new one where there is no map. -/
def put_entry (target : Contents) (sect key : String) (entry : Yaml) : Except String Contents :=
  match section_map (fields_of target) sect with
  | some items => .ok (some (.map ((fields_of target).set sect (.map (items.set key entry)))))
  | none => set_field target sect (.map [(key, entry)])

/-- The entry out of its section, and the section with it when nothing else is there. -/
def take_entry (source : Contents) (sect key : String) : Contents :=
  let left := ((section_map (fields_of source) sect).getD []).delete key
  if left.isEmpty then some (.map ((fields_of source).delete sect))
  else some (.map ((fields_of source).set sect (.map left)))

/-- How a move ends: what it throws, and the two files. -/
structure Ended where
  thrown : Option String
  source : Contents
  target : Contents

/-- `moveActionBetweenDocs`. -/
def move_action_between_docs (source target : Contents) (key : String) : Ended :=
  match entry_of source key with
  | none => ⟨some s!"Couldn't find \"{key}\" in its config to move it.", source, target⟩
  | some (sect, entry) =>
    if (entry_of target key).any fun found => has_action_body found.2 then
      ⟨some s!"An action named \"{key}\" already exists in that config. Remove or rename it there first.",
        source, target⟩
    else
      match put_entry target sect key entry with
      | .error message => ⟨some message, source, target⟩
      | .ok written => ⟨none, take_entry source sect key, written⟩

/-! ## Entries of a file -/

/-- The entry of a key in one section. -/
def held (sect key : String) : Option Yaml :=
  ((section_map (fields_of contents) sect).getD []).get key

section
variable {source target written : Contents} {sect s key k field : String} {entry : Yaml}

variable (contents : Contents)

/-- The lookup prefers `actions`. -/
theorem entry_of_eq (key : String) :
    entry_of contents key
      = ((held contents "actions" key).map fun e => ("actions", e)).or
          ((held contents "terminals" key).map fun e => ("terminals", e)) := by
  rw [entry_of, find_top_entry, find_action_section_eq]
  unfold top_has Items.has held
  rcases hactions : (((section_map (fields_of contents) "actions").getD []).get key) with _ | e
  · rw [isSome_none, if_neg Bool.false_ne_true, map_none, none_or]
    rcases hterminals : (((section_map (fields_of contents) "terminals").getD []).get key) with _ | e
    · rfl
    · rw [isSome_some, if_pos rfl, bind_some, hterminals]
  · rw [isSome_some, if_pos rfl, bind_some, hactions]
    rfl

theorem entry_of_some (h : entry_of source key = some (sect, entry)) :
    sect = "actions" ∧ held source "actions" key = some entry
      ∨ sect = "terminals" ∧ held source "actions" key = none ∧ held source "terminals" key = some entry := by
  rw [entry_of_eq] at h
  rcases hactions : held source "actions" key with _ | e
  · rw [hactions, map_none, none_or] at h
    obtain ⟨e, he, hpair⟩ := map_eq_some_iff.mp h
    cases hpair
    exact Or.inr ⟨rfl, rfl, he⟩
  · rw [hactions] at h
    cases h
    exact Or.inl ⟨rfl, rfl⟩

/-! ## What each half of the move does -/

/-- One section of a file written anew. -/
theorem held_set (doc : Doc) (items : Items Yaml) :
    held (some (.map (doc.set sect (.map items)))) s k
      = if s = sect then items.get k else held (some (.map doc)) s k := by
  have hfields : ∀ doc : Doc, fields_of (some (.map doc)) = doc := fun _ => rfl
  unfold held
  rw [hfields, hfields, section_map_set]
  split_ifs
  · rfl
  · rfl

theorem held_fields : held (some (.map (fields_of contents))) s k = held contents s k := rfl

theorem held_put (h : put_entry target sect key entry = .ok written) :
    held written s k = if s = sect ∧ k = key then some entry else held target s k := by
  unfold put_entry at h
  rcases hsect : section_map (fields_of target) sect with _ | items
  -- no map stands there, so the section held nothing
  · have hnone : ∀ k, held target sect k = none := by
      intro k
      rw [held, hsect]
      rfl
    have hset : written = some (.map ((fields_of target).set sect (.map [(key, entry)]))) := by
      rw [hsect] at h
      rcases target with _ | (text | text | list | items)
      · exact (Except.ok.inj h).symm
      · exact nomatch h
      · exact nomatch h
      · exact nomatch h
      · exact (Except.ok.inj h).symm
    rw [hset, held_set, held_fields]
    by_cases hs : s = sect
    · rw [if_pos hs, hs, hnone]
      by_cases hk : k = key
      · rw [if_pos ⟨rfl, hk⟩, hk, Items.get_cons_self]
      · rw [if_neg fun h => hk h.2, Items.get_cons_other (Ne.symm hk)]
        rfl
    · rw [if_neg hs, if_neg fun h => hs h.1]
  · rw [hsect] at h
    rw [← Except.ok.inj h, held_set, held_fields, Items.get_set]
    by_cases hs : s = sect
    · rw [if_pos hs, hs, held, hsect, getD_some]
      by_cases hk : k = key
      · rw [if_pos hk, if_pos ⟨rfl, hk⟩]
      · rw [if_neg hk, if_neg fun h => hk h.2]
    · rw [if_neg hs, if_neg fun h => hs h.1]

theorem held_take : held (take_entry source sect key) s k = if s = sect ∧ k = key then none else held source s k := by
  have hget : ∀ k, (((section_map (fields_of source) sect).getD []).delete key).get k
      = if k = key then none else held source sect k := fun k => Items.get_delete
  unfold take_entry
  dsimp only
  split_ifs with hempty hthere hthere
  · obtain ⟨rfl, rfl⟩ := hthere
    have hgone : section_map ((fields_of source).delete s) s = none := by
      rw [section_map, Items.get_delete_self]
      rfl
    rw [held]
    change ((section_map ((fields_of source).delete s) s).getD []).get k = none
    rw [hgone]
    rfl
  · change ((section_map ((fields_of source).delete sect) s).getD []).get k = held source s k
    by_cases hs : s = sect
    -- the section had no other entry
    · have hk : k ≠ key := fun hk => hthere ⟨hs, hk⟩
      have hnone := hget k
      rw [List.isEmpty_iff.mp hempty, Items.get_nil, if_neg hk] at hnone
      rw [hs, section_map, Items.get_delete_self, ← hnone]
      rfl
    · rw [section_map, Items.get_delete_other hs]
      rfl
  · rw [held_set, if_pos hthere.1, hget, if_pos hthere.2]
  · rw [held_set, hget, held_fields]
    by_cases hs : s = sect
    · rw [if_pos hs, hs, if_neg fun hk => hthere ⟨hs, hk⟩]
    · rw [if_neg hs]

/-- A field other than the section is left alone. -/
theorem get_put (h : put_entry target sect key entry = .ok written) (hfield : field ≠ sect) :
    (fields_of written).get field = (fields_of target).get field := by
  unfold put_entry at h
  rcases hsect : section_map (fields_of target) sect with _ | items
  · rw [hsect] at h
    rcases target with _ | (text | text | list | items)
    · rw [← Except.ok.inj h]
      exact Items.get_cons_other (Ne.symm hfield) _
    · exact nomatch h
    · exact nomatch h
    · exact nomatch h
    · rw [← Except.ok.inj h]
      exact Items.get_set_other hfield
  · rw [hsect] at h
    rw [← Except.ok.inj h]
    exact Items.get_set_other hfield

theorem get_take (hfield : field ≠ sect) :
    (fields_of (take_entry source sect key)).get field = (fields_of source).get field := by
  unfold take_entry
  dsimp only
  split_ifs
  · exact Items.get_delete_other hfield
  · exact Items.get_set_other hfield

/-! ## When the entry is found in its new home -/

/-- The file can hold a section: it is empty or a map. -/
def takes_fields : Contents → Bool
  | none => true
  | some (.map _) => true
  | some _ => false

/-- Nothing makes the move throw once the entry is found. -/
def Free (target : Contents) (key : String) : Prop :=
  ((entry_of target key).any fun found => has_action_body found.2) = false ∧ takes_fields target = true

/-- The move is what it should be: the lookup gives the entry in the target and no longer in
the source, and nothing but the entry changes in either file. -/
structure Moved (source target : Contents) (key : String) (after : Ended) : Prop where
  gives : (entry_of after.target key).map Prod.snd = (entry_of source key).map Prod.snd
  gone : (entry_of after.source key).map Prod.snd ≠ (entry_of source key).map Prod.snd
  source_entries : ∀ sect other, other ≠ key → held after.source sect other = held source sect other
  target_entries : ∀ sect other, other ≠ key → held after.target sect other = held target sect other
  source_fields : ∀ field, (∀ found ∈ entry_of source key, field ≠ found.1) →
    (fields_of after.source).get field = (fields_of source).get field
  target_fields : ∀ field, (∀ found ∈ entry_of source key, field ≠ found.1) →
    (fields_of after.target).get field = (fields_of target).get field

/-- A throw, and both files as they were. -/
def Refused (source target : Contents) (after : Ended) : Prop :=
  after.thrown.isSome ∧ after.source = source ∧ after.target = target

/-- No entry of the other section is in the way: a note under `actions` in the target hides
an entry of `terminals`, and an equal entry under `terminals` in the source is found after
that of `actions` is gone. -/
def Clear (source target : Contents) (key : String) : Prop :=
  ∀ sect entry, entry_of source key = some (sect, entry) → Free target key →
    (sect = "terminals" → ∀ note, held target "actions" key = some note → note = entry)
      ∧ (sect = "actions" → held source "terminals" key ≠ some entry)

theorem put_entry_ok (h : takes_fields target = true) : ∃ written, put_entry target sect key entry = .ok written := by
  unfold put_entry
  rcases section_map (fields_of target) sect with _ | items
  · rcases target with _ | (text | text | list | items)
    · exact ⟨_, rfl⟩
    · exact nomatch h
    · exact nomatch h
    · exact nomatch h
    · exact ⟨_, rfl⟩
  · exact ⟨_, rfl⟩

theorem put_entry_error (h : takes_fields target = false) : ∃ message, put_entry target sect key entry = .error message := by
  rcases target with _ | (text | text | list | items)
  · exact nomatch h
  · exact ⟨_, rfl⟩
  · exact ⟨_, rfl⟩
  · exact ⟨_, rfl⟩
  · exact nomatch h

/-- What the lookups give after a move, told by the sections before it. -/
theorem found_after (hfind : entry_of source key = some (sect, entry))
    (hput : put_entry target sect key entry = .ok written) :
    ((entry_of written key).map Prod.snd = some entry ↔
        (sect = "terminals" → ∀ note, held target "actions" key = some note → note = entry))
      ∧ ((entry_of (take_entry source sect key) key).map Prod.snd ≠ some entry ↔
        (sect = "actions" → held source "terminals" key ≠ some entry)) := by
  have hsnd : ∀ contents, (entry_of contents key).map Prod.snd
      = (held contents "actions" key).or (held contents "terminals" key) := by
    intro contents
    rw [entry_of_eq]
    rcases held contents "actions" key with _ | e
    · rcases held contents "terminals" key with _ | e
      · rfl
      · rfl
    · rfl
  rw [hsnd, hsnd, held_put hput, held_put hput, held_take, held_take]
  rcases entry_of_some hfind with ⟨rfl, -⟩ | ⟨rfl, hnot, -⟩
  · have hthere : "actions" = "actions" ∧ key = key := ⟨rfl, rfl⟩
    have hother : ¬("terminals" = "actions" ∧ key = key) := by simp
    rw [if_pos hthere, if_pos hthere, if_neg hother, none_or]
    simp
  · have hthere : "terminals" = "terminals" ∧ key = key := ⟨rfl, rfl⟩
    have hother : ¬("actions" = "terminals" ∧ key = key) := by simp
    rw [if_pos hthere, if_pos hthere, if_neg hother, if_neg hother, hnot, none_or]
    rcases held target "actions" key with _ | note
    · simp
    · simp

/-- A move either throws and changes nothing or does what it should, exactly when no entry
of the other section is in the way. -/
theorem move_clear_iff (source target : Contents) (key : String) :
    (Refused source target (move_action_between_docs source target key)
        ∨ Moved source target key (move_action_between_docs source target key))
      ↔ Clear source target key := by
  unfold move_action_between_docs
  -- no such entry, the key taken, no place for fields, or the entry is put
  rcases hfind : entry_of source key with _ | ⟨sect, entry⟩
  · refine ⟨fun _ sect entry h => ?_, fun _ => Or.inl ⟨rfl, rfl, rfl⟩⟩
    rw [hfind] at h
    exact nomatch h
  by_cases hbody : ((entry_of target key).any fun found => has_action_body found.2) = true
  · simp only [hbody, if_true]
    refine ⟨fun _ _ _ _ hfree => ?_, fun _ => Or.inl ⟨rfl, rfl, rfl⟩⟩
    rw [hfree.1] at hbody
    exact absurd hbody Bool.false_ne_true
  · rw [Bool.not_eq_true] at hbody
    simp only [hbody, Bool.false_eq_true, if_false]
    by_cases htakes : takes_fields target = true
    · obtain ⟨written, hput⟩ := @put_entry_ok target sect key entry htakes
      simp only [hput]
      obtain ⟨hgives, hgone⟩ := found_after hfind hput
      -- what is left to ask is where the key is found after it
      constructor
      · rintro (hrefused | hmoved) s e he -
        · exact absurd hrefused.1 (by simp)
        · rw [hfind] at he
          cases he
          have hnow := hmoved.gives
          have hno := hmoved.gone
          rw [hfind] at hnow hno
          exact ⟨hgives.mp hnow, hgone.mp hno⟩
      · intro hclear
        obtain ⟨hnote, hleft⟩ := hclear sect entry hfind ⟨hbody, htakes⟩
        refine Or.inr ⟨?_, ?_, ?_, ?_, ?_, ?_⟩
        · rw [hfind]
          exact hgives.mpr hnote
        · rw [hfind]
          exact hgone.mpr hleft
        · intro s other hother
          exact held_take.trans (if_neg fun h => hother h.2)
        · intro s other hother
          exact (held_put hput).trans (if_neg fun h => hother h.2)
        · intro field hfield
          exact get_take (hfield _ hfind)
        · intro field hfield
          exact get_put hput (hfield _ hfind)
    · rw [Bool.not_eq_true] at htakes
      obtain ⟨message, hput⟩ := @put_entry_error target sect key entry htakes
      simp only [hput]
      refine ⟨fun _ _ _ _ hfree => ?_, fun _ => Or.inl ⟨rfl, rfl, rfl⟩⟩
      rw [hfree.2] at htakes
      exact absurd htakes (by simp)

/-- A terminal moved to a file that has a placement note for it among the actions: the
lookup there gives the note. -/
theorem note_hides_moved_terminal :
    let source : Contents := some (.map [("terminals", .map [("shell", .map [("cmd", .str "zsh")])])])
    let target : Contents := some (.map [("actions", .map [("shell", .map [("position", .lit "2")])])])
    ¬(Refused source target (move_action_between_docs source target "shell")
      ∨ Moved source target "shell" (move_action_between_docs source target "shell")) := by
  intro source target
  rintro (hrefused | hmoved)
  · exact absurd hrefused.1 (by decide)
  · exact absurd hmoved.gives (by simp [source, target, move_action_between_docs, entry_of, find_top_entry,
      find_action_section, ACTION_SECTIONS, section_map, fields_of, put_entry, take_entry, has_action_body,
      Yaml.pairs, Items.get, Items.has, Items.set, set_field])

end

end Lpm.Actions
