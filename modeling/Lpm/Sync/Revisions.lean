/-
How the revision of a unit moves on one machine.

Three operations write a unit's entry: `reconcile` for the units that changed on disk,
`tombstone` on the user's word, and `set_item` with what `received_state` makes of a unit
that came in. The first two only step a revision up, within the range of a `u64`. The third
takes the sender's revision as it is, and a decision without a base does not look at
revisions (`resolve_no_base`), so a unit may come in under a lower one than is recorded.

What `reconcile` does to one entry is `Bumped` or nothing, and a second pass over what the
first one left finds nothing to do.
-/
import Lpm.Lib.Transition
import Lpm.Sync.Plan

set_option autoImplicit false

open OrdMap Transition

namespace Lpm.Sync

open Option

variable (self : SyncState)

/-- `SyncState::tombstone`. -/
def SyncState.tombstone (key : String) : SyncState × Bool :=
  match self.items[key]? with
  | some entry =>
    if !entry.deleted then ({ self with items := self.items.insert key (entry.bury self.device) }, true)
    else (self, false)
  | none => (self, false)

/-- The recorded revision of a unit, zero for one that never was recorded. -/
def SyncState.rev (key : String) : ℕ := (self.items[key]?.map (·.rev)).getD 0

/-- A unit that came in and was written: what the sender said of it, what was written, and
the revision this machine had read for it before. -/
structure Received where
  digest : String
  rev : ℕ
  device : String
  deleted : Bool
  stored : String
  local_rev : ℕ

inductive Write where
  | reconcile (present : BTreeMap String String) (tombstones_for : String → Bool)
  | tombstone (key : String)
  | receive (key : String) (unit : Received)

/-- The sidecar after one of the operations that write its entries. -/
def SyncState.after : Write → SyncState
  | .reconcile present tombstones_for => (self.reconcile present tombstones_for).1
  | .tombstone key => (self.tombstone key).1
  | .receive key u =>
    self.set_item key
      (received_state u.digest u.rev u.device u.deleted u.stored u.local_rev self.device).1

/-- The runs of the three operations from a given sidecar. -/
def sidecar (start : SyncState) : System SyncState Write where
  init s := s = start
  step s w s' := s' = s.after w

/-- What gives an entry a new revision: its unit has another digest than was recorded, or is
back from a tombstone, or has vanished where that means it was deleted. -/
def Bumped (present : BTreeMap String String) (tombstones_for : String → Bool) (key : String)
    (entry : ItemState) : Prop :=
  (∃ digest, present[key]? = some digest ∧ (entry.deleted = true ∨ entry.digest ≠ digest)) ∨
  (present[key]? = none ∧ entry.deleted = false ∧ tombstones_for key = true)

/-- A write that takes no revision down: no revision is stepped up past the end of a `u64`,
and a unit that comes in has no lower revision than the one recorded. Where keys of this
machine were merged into it, one step above the higher of the two revisions is enough. -/
def Upward (s : SyncState) : Write → Prop
  | .reconcile present tombstones_for => ∀ key entry, s.items[key]? = some entry →
      Bumped present tombstones_for key entry → entry.rev + 1 < 2 ^ 64
  | .tombstone key => ∀ entry, s.items[key]? = some entry → entry.deleted = false →
      entry.rev + 1 < 2 ^ 64
  | .receive key u =>
    if u.deleted = true ∨ u.stored = u.digest then s.rev key ≤ u.rev
    else s.rev key ≤ max u.local_rev u.rev + 1 ∧ max u.local_rev u.rev + 1 < 2 ^ 64

/-! ## One entry -/

theorem next_rev_ne (rev : ℕ) : next_rev rev ≠ rev := by
  unfold next_rev
  omega

theorem next_rev_of_lt {rev : ℕ} (h : rev + 1 < 2 ^ 64) : next_rev rev = rev + 1 :=
  Nat.mod_eq_of_lt h

variable {s : SyncState} {present : BTreeMap String String} {tombstones_for : String → Bool}
  {key : String} {entry : ItemState}

variable (h : s.items[key]? = some entry)
include h

theorem rev_of_get : s.rev key = entry.rev := by
  rw [SyncState.rev, h]
  rfl

omit h in
theorem rev_of_none (h : s.items[key]? = none) : s.rev key = 0 := by
  rw [SyncState.rev, h]
  rfl

/-- The entry `reconcile` leaves where there was one: one revision up, written by this
machine and as the disk has it, where the entry is bumped, and the same entry otherwise. -/
theorem reconcile_entry :
    (Bumped present tombstones_for key entry →
      (s.reconcile present tombstones_for).1.items[key]? = some
        { digest := present[key]?.getD "", rev := next_rev entry.rev, device := s.device,
          deleted := present[key]?.isNone }) ∧
    (¬ Bumped present tombstones_for key entry →
      (s.reconcile present tombstones_for).1.items[key]? = some entry) := by
  rw [reconcile_items_get, h]
  cases hp : present[key]? with
  | some digest =>
    have hbump : Bumped present tombstones_for key entry ↔
        (entry.deleted || entry.digest != digest) = true := by
      simp [Bumped, hp]
    rw [hbump]
    constructor
    · intro hb
      simp [observe, hb]
    · intro hb
      simp [observe, hb]
  | none =>
    have hout : present.contains key = false := by
      rw [Std.TreeMap.contains_eq_isSome_getElem?, hp]
      rfl
    have hbump : Bumped present tombstones_for key entry ↔
        vanished present tombstones_for key entry = true := by
      simp [Bumped, hp, vanished, hout]
    rw [hbump]
    constructor
    · intro hb
      simp [hb, ItemState.bury]
    · intro hb
      simp [hb]

omit h in
/-- A unit that was never recorded is recorded at revision one, where it is present. -/
theorem reconcile_new (h : s.items[key]? = none) :
    (s.reconcile present tombstones_for).1.items[key]? = present[key]?.map fun digest =>
      { digest, rev := 1, device := s.device, deleted := false } := by
  rw [reconcile_items_get, h]
  cases present[key]? with
  | none => rfl
  | some digest => rfl

/-- A revision is stepped up exactly where the entry is bumped. -/
theorem reconcile_rev :
    ((s.reconcile present tombstones_for).1.rev key ≠ entry.rev ↔
      Bumped present tombstones_for key entry) ∧
    (Bumped present tombstones_for key entry →
      (s.reconcile present tombstones_for).1.rev key = next_rev entry.rev) := by
  obtain ⟨hbump, hkeep⟩ := @reconcile_entry s present tombstones_for key entry h
  have hup : Bumped present tombstones_for key entry →
      (s.reconcile present tombstones_for).1.rev key = next_rev entry.rev := by
    intro hb
    rw [rev_of_get (hbump hb)]
  refine ⟨⟨?_, ?_⟩, hup⟩
  · intro hne
    by_contra hb
    exact hne (rev_of_get (hkeep hb))
  · intro hb
    rw [hup hb]
    exact next_rev_ne entry.rev

/-! ## A tombstone -/

theorem tombstone_live (hlive : entry.deleted = false) :
    s.tombstone key = (s.set_item key (entry.bury s.device), true) := by
  rw [SyncState.tombstone, h]
  simp [hlive, SyncState.set_item]

omit h

/-- A unit that no sync saw, and one that is gone already, are left as they are. -/
theorem tombstone_other (h : ¬ ∃ entry, s.items[key]? = some entry ∧ entry.deleted = false) :
    s.tombstone key = (s, false) := by
  rw [SyncState.tombstone]
  cases hitem : s.items[key]? with
  | none => rfl
  | some entry =>
    cases hlive : entry.deleted with
    | true => simp [hlive]
    | false => exact absurd ⟨entry, hitem, hlive⟩ h

/-! ## A second pass -/

/-- What one pass leaves under a key is bumped by no second one. -/
theorem not_bumped_twice (h : (s.reconcile present tombstones_for).1.items[key]? = some entry) :
    ¬ Bumped present tombstones_for key entry := by
  have hseen : ∀ digest, present[key]? = some digest → entry.digest = digest →
      entry.deleted = false → ¬ Bumped present tombstones_for key entry := by
    rintro digest hp hdigest hlive (⟨d, hd, hb⟩ | ⟨hnone, -, -⟩)
    · rw [hp] at hd
      cases hd
      rcases hb with hb | hb
      · rw [hlive] at hb
        exact absurd hb (by decide)
      · exact hb hdigest
    · rw [hp] at hnone
      exact absurd hnone (by simp)
  have hgone : present[key]? = none → entry.deleted = true →
      ¬ Bumped present tombstones_for key entry := by
    rintro hp hdead (⟨d, hd, -⟩ | ⟨-, hlive, -⟩)
    · rw [hp] at hd
      exact absurd hd (by simp)
    · rw [hdead] at hlive
      exact absurd hlive (by decide)
  cases hold : s.items[key]? with
  | none =>
    rw [reconcile_new hold] at h
    obtain ⟨digest, hp, rfl⟩ := map_eq_some_iff.mp h
    exact hseen digest hp rfl rfl
  | some old =>
    obtain ⟨hbump, hkeep⟩ := @reconcile_entry s present tombstones_for key old hold
    by_cases hb : Bumped present tombstones_for key old
    · rw [hbump hb] at h
      cases h
      cases hp : present[key]? with
      | some digest => exact hp ▸ hseen digest hp (by simp [hp]) (by simp [hp])
      | none => exact hp ▸ hgone hp (by simp [hp])
    · rw [hkeep hb] at h
      cases h
      exact hb

/-- `reconcile` reports no change where it records no unit and bumps no entry. -/
theorem reconcile_unchanged
    (hnew : ∀ (key digest : String), present[key]? = some digest → s.items[key]? ≠ none)
    (hold : ∀ (key : String) entry, s.items[key]? = some entry →
      ¬ Bumped present tombstones_for key entry) :
    (s.reconcile present tombstones_for).2 = false := by
  have hget (m : BTreeMap String String) (p : String × String) (hp : p ∈ m.toList) :
      m[p.1]? = some p.2 := Std.TreeMap.mem_toList_iff_getElem?_eq_some.mp hp
  unfold SyncState.reconcile
  dsimp only
  rw [Bool.or_eq_false_iff, List.any_eq_false, List.any_eq_false]
  constructor
  · intro p hp hchange
    have hpresent := hget present p hp
    cases hitem : s.items[p.1]? with
    | none => exact hnew p.1 p.2 hpresent hitem
    | some entry =>
      rw [hitem] at hchange
      refine hold p.1 entry hitem (Or.inl ⟨p.2, hpresent, ?_⟩)
      simpa [observe_changes] using hchange
  · intro p hp hgone
    have hseen := Std.TreeMap.mem_toList_iff_getElem?_eq_some.mp hp
    rw [upsert_all_get] at hseen
    unfold vanished at hgone
    simp only [Bool.and_eq_true, Bool.not_eq_true'] at hgone
    obtain ⟨⟨hlive, hout⟩, helig⟩ := hgone
    have hnone : present[p.1]? = none := by
      rw [Std.TreeMap.contains_eq_isSome_getElem?, isSome_eq_false_iff] at hout
      exact isNone_iff_eq_none.mp hout
    rw [hnone] at hseen
    exact hold p.1 p.2 hseen (Or.inr ⟨hnone, hlive, helig⟩)

/-- A second pass over the same units leaves every entry as it is, and says so. -/
theorem reconcile_twice (s : SyncState) (present : BTreeMap String String)
    (tombstones_for : String → Bool) :
    ((s.reconcile present tombstones_for).1.reconcile present tombstones_for).2 = false ∧
    ∀ key : String,
      ((s.reconcile present tombstones_for).1.reconcile present tombstones_for).1.items[key]?
        = (s.reconcile present tombstones_for).1.items[key]? := by
  constructor
  · apply reconcile_unchanged
    · intro key digest hp hnone
      rw [reconcile_items_get, hp] at hnone
      exact absurd hnone (by simp)
    · intro key entry h
      exact not_bumped_twice h
  · intro key
    cases h : (s.reconcile present tombstones_for).1.items[key]? with
    | some entry => exact (reconcile_entry h).2 (not_bumped_twice h)
    | none =>
      rw [reconcile_new h, map_eq_none_iff]
      by_contra hp
      obtain ⟨digest, hp⟩ := ne_none_iff_exists'.mp hp
      rw [reconcile_items_get, hp] at h
      exact absurd h (by simp)

/-! ## Runs -/

/-- The revision `received_state` records. -/
theorem received_rev (u : Received) (me : String) :
    (received_state u.digest u.rev u.device u.deleted u.stored u.local_rev me).1.rev
      = if u.deleted = true ∨ u.stored = u.digest then u.rev
        else next_rev (max u.local_rev u.rev) := by
  unfold received_state
  dsimp only
  by_cases hdel : u.deleted = true
  · rw [if_pos hdel, if_pos (Or.inl hdel)]
  · rw [if_neg hdel]
    by_cases hstored : u.stored = u.digest
    · rw [if_pos hstored, if_pos (Or.inr hstored)]
    · rw [if_neg hstored, if_neg (not_or.mpr ⟨hdel, hstored⟩)]

theorem set_item_rev (s : SyncState) (key k : String) (state : ItemState) :
    (s.set_item key state).rev k = if key = k then state.rev else s.rev k := by
  unfold SyncState.rev
  rw [set_item_get]
  split_ifs <;> rfl

/-- One write that meets the condition takes no revision down. -/
theorem after_rev_le {w : Write} (h : Upward s w) (key : String) : s.rev key ≤ (s.after w).rev key := by
  cases w with
  | reconcile present tombstones_for =>
    cases hitem : s.items[key]? with
    | none =>
      rw [rev_of_none hitem]
      exact Nat.zero_le _
    | some entry =>
      rw [rev_of_get hitem, SyncState.after]
      -- only a changed or buried entry gets a new revision
      by_cases hb : Bumped present tombstones_for key entry
      · rw [(reconcile_rev hitem).2 hb, next_rev_of_lt (h key entry hitem hb)]
        omega
      · rw [rev_of_get ((reconcile_entry hitem).2 hb)]
  | tombstone k =>
    rw [SyncState.after]
    by_cases hlive : ∃ entry, s.items[k]? = some entry ∧ entry.deleted = false
    · obtain ⟨entry, hitem, hlive⟩ := hlive
      rw [tombstone_live hitem hlive, set_item_rev]
      by_cases hk : k = key
      · subst hk
        rw [if_pos rfl, rev_of_get hitem, ItemState.bury, next_rev_of_lt (h entry hitem hlive)]
        exact Nat.le_succ _
      · rw [if_neg hk]
    · rw [tombstone_other hlive]
  | receive k u =>
    rw [SyncState.after, set_item_rev, received_rev]
    by_cases hk : k = key
    · subst hk
      rw [if_pos rfl]
      rw [Upward] at h
      by_cases hstraight : u.deleted = true ∨ u.stored = u.digest
      · rw [if_pos hstraight] at h ⊢
        exact h
      · rw [if_neg hstraight] at h ⊢
        rw [next_rev_of_lt h.2]
        exact h.1
    · rw [if_neg hk]

/-- In every run whose writes all meet the condition, from any sidecar, no recorded revision
goes down. In any sidecar `reconcile` gives an entry a new revision exactly where it is bumped,
and then the next one; and a second pass over the same units leaves every entry as it is and
reports no change. -/
theorem revisions_grow (start : SyncState) :
    (∀ s, Reachable ((sidecar start).when Upward) s → ∀ key, start.rev key ≤ s.rev key) ∧
    (∀ (s : SyncState) (present : BTreeMap String String) (tombstones_for : String → Bool),
      (∀ key entry, s.items[key]? = some entry →
        ((s.reconcile present tombstones_for).1.rev key ≠ entry.rev ↔
          Bumped present tombstones_for key entry) ∧
        (Bumped present tombstones_for key entry →
          (s.reconcile present tombstones_for).1.rev key = next_rev entry.rev)) ∧
      ((s.reconcile present tombstones_for).1.reconcile present tombstones_for).2 = false ∧
      ∀ key : String,
        ((s.reconcile present tombstones_for).1.reconcile present tombstones_for).1.items[key]?
          = (s.reconcile present tombstones_for).1.items[key]?) := by
  constructor
  · intro s h
    have hinv := @Reachable.invariant _ _ ((sidecar start).when Upward) s
      (fun s => ∀ key, start.rev key ≤ s.rev key)
    refine hinv ?_ ?_ h
    · rintro s rfl key
      exact Nat.le_refl _
    · rintro s w s' hle ⟨hup, rfl⟩ key
      exact (hle key).trans (after_rev_le hup key)
  · intro s present tombstones_for
    exact ⟨fun key entry h => reconcile_rev h, reconcile_twice s present tombstones_for⟩

/-! ## Two machines that share a project -/

/-- The one project of a machine, with a digest. -/
def web (digest : String) : BTreeMap String String :=
  Std.TreeMap.ofList [("project/web", digest)] compare

/-- A machine that edited its project once since it was first seen. -/
def edited : SyncState :=
  (({ device := "A", items := ∅, peers := ∅ } : SyncState).after
    (.reconcile (web "d0") fun _ => false)).after (.reconcile (web "d1") fun _ => false)

theorem edited_entry :
    edited.items["project/web"]? = some { digest := "d1", rev := 2, device := "A", deleted := false } := by
  simp [edited, SyncState.after, reconcile_items_get, web, observe, next_rev]

/-- The project as the other machine has it, after `rev` edits there. -/
def taken (rev : ℕ) : Received :=
  { digest := "d2", rev, device := "B", deleted := false, stored := "d2", local_rev := 2 }

/-- A later revision is taken over, and then the unit is deleted on the user's word. -/
theorem revisions_grow_web :
    edited.rev "project/web" ≤ ((edited.after (.receive "project/web" (taken 5))).after
      (.tombstone "project/web")).rev "project/web" ∧
    ((edited.reconcile (web "d3") fun _ => false).1.rev "project/web" ≠ 2 ↔
      Bumped (web "d3") (fun _ => false) "project/web"
        { digest := "d1", rev := 2, device := "A", deleted := false }) := by
  obtain ⟨hrun, hpass⟩ := revisions_grow edited
  have hstart : Reachable ((sidecar edited).when Upward) edited := .start rfl
  have hup : Upward edited (.receive "project/web" (taken 5)) := by
    rw [Upward, if_pos (Or.inr (by decide)), rev_of_get edited_entry]
    decide
  have htaken := hstart.next ⟨hup, rfl⟩
  have hentry : (edited.after (.receive "project/web" (taken 5))).items["project/web"]?
      = some { digest := "d2", rev := 5, device := "B", deleted := false } := by
    rw [SyncState.after, set_item_get, if_pos rfl]
    rfl
  refine ⟨hrun _ (htaken.next ⟨?_, rfl⟩) _, ((hpass edited _ _).1 _ _ edited_entry).1⟩
  intro entry hitem _
  rw [hentry] at hitem
  cases hitem
  decide

/-- With no base agreed the newer file is taken, and the revision recorded for it is lower than
the one it had. -/
theorem revision_goes_back :
    (resolve_pair .project "web" (some ⟨"d1", 10, 2, "A", false, false⟩)
        (some ⟨"d2", 20, 1, "B", false, false⟩) ∅ false).map (·.direction) = some .toLocal ∧
    ¬ ∀ start s, Reachable (sidecar start) s → ∀ key, start.rev key ≤ s.rev key := by
  refine ⟨by decide, ?_⟩
  intro h
  have hafter := h edited (edited.after (.receive "project/web" (taken 1)))
    ((Reachable.start rfl).next rfl) "project/web"
  rw [SyncState.after, set_item_rev, if_pos rfl, received_rev, rev_of_get edited_entry] at hafter
  exact absurd hafter (by decide)

end Lpm.Sync
