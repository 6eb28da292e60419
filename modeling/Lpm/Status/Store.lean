/-
The status store of `status.rs`: what every agent last reported, by project and key, and
the ways its entries are replaced, amended and cleared.

The source keeps a map of maps and drops a project's map once it is empty; here it is one
map. An entry always stands under its own key, and the store carries that.
-/
import Lpm.Status.DoneHold
import Mathlib.Data.List.AList

set_option autoImplicit false

namespace Lpm.Status

open List Option

/-! ## Reports -/

/-- Carry `turn_start` from the entry being replaced, and stamp `ended_at` when this is the
report that ends the turn. -/
def carry_turn (existing : Option StatusEntry) (incoming : StatusEntry) : StatusEntry :=
  let live := existing.filter fun e => is_live e.value
  let started := live.map fun e => if e.turn_start > 0 then e.turn_start else e.timestamp
  if is_live incoming.value then
    { incoming with
      turn_start := started.getD incoming.timestamp
      ended_at := 0
      queued := (live.map StatusEntry.queued).getD 0 }
  else if incoming.value = STATUS_DONE ∨ incoming.value = STATUS_ERROR then
    { incoming with turn_start := started.getD 0, ended_at := incoming.timestamp }
  else incoming

/-- Re-reporting the same status emits no event, so timestamp and pid don't count. -/
def should_replace (existing incoming : StatusEntry) : Bool :=
  existing.value ≠ incoming.value || existing.icon ≠ incoming.icon
    || existing.color ≠ incoming.color || existing.priority ≠ incoming.priority
    || existing.pane_id ≠ incoming.pane_id

/-- Whether `current` is still the report `seen` was taken of. -/
def same_report (current seen : StatusEntry) : Bool :=
  current.value = seen.value && current.timestamp = seen.timestamp && current.askers = seen.askers

theorem same_report_iff {e seen : StatusEntry} : same_report e seen = true
    ↔ e.value = seen.value ∧ e.timestamp = seen.timestamp ∧ e.askers = seen.askers := by
  rw [same_report, Bool.and_eq_true, Bool.and_eq_true, decide_eq_true_iff, decide_eq_true_iff,
    decide_eq_true_iff, and_assoc]

@[simp] theorem same_report_self (e : StatusEntry) : same_report e e = true :=
  same_report_iff.mpr ⟨rfl, rfl, rfl⟩

section
variable (existing : Option StatusEntry) (e : StatusEntry)

/-- Only what dates the turn is carried. -/
theorem carry_turn_eq : ∃ turn_start ended_at queued,
    carry_turn existing e = { e with turn_start, ended_at, queued } := by
  rw [carry_turn]
  split_ifs
  · exact ⟨_, _, _, rfl⟩
  · exact ⟨_, _, _, rfl⟩
  · exact ⟨_, _, _, rfl⟩

@[simp] theorem carry_turn_key : (carry_turn existing e).key = e.key := by
  obtain ⟨_, _, _, h⟩ := carry_turn_eq existing e
  rw [h]

/-- Whether it is still the report that was seen does not depend on how the turn is dated. -/
@[simp] theorem same_report_carry_turn (seen : StatusEntry) :
    same_report (carry_turn existing e) seen = same_report e seen := by
  obtain ⟨_, _, _, h⟩ := carry_turn_eq existing e
  rw [h]
  rfl

end

/-! ## The store -/

structure Store where
  entries : AList fun _ : Id => StatusEntry
  keyed : ∀ id e, entries.lookup id = some e → e.key = id.2

namespace Store

def empty : Store where
  entries := ∅
  keyed _ _ h := nomatch h

/-- The entry `id` holds right now. -/
def get (s : Store) (id : Id) : Option StatusEntry := s.entries.lookup id

/-- `insert` under the entry's own key. -/
def put (project : String) (e : StatusEntry) (s : Store) : Store where
  entries := s.entries.insert (project, e.key) e
  keyed id e' h := by
    by_cases hid : id = (project, e.key)
    · subst hid
      rw [AList.lookup_insert] at h
      rw [← some.inj h]
    · rw [AList.lookup_insert_ne hid] at h
      exact s.keyed id e' h

def remove (id : Id) (s : Store) : Store where
  entries := s.entries.erase id
  keyed other e h := by
    by_cases hid : other = id
    · rw [hid, AList.lookup_erase] at h
      exact nomatch h
    · rw [AList.lookup_erase_ne hid] at h
      exact s.keyed other e h

theorem lookup_filter (p : Id → StatusEntry → Bool) {entries : AList fun _ : Id => StatusEntry}
    {id : Id} {e : StatusEntry} (hnodup : (entries.entries.filter fun x => p x.1 x.2).NodupKeys) :
    (AList.mk (entries.entries.filter fun x => p x.1 x.2) hnodup).lookup id = some e
      ↔ entries.lookup id = some e ∧ p id e = true := by
  rw [← mem_def, AList.mem_lookup_iff, ← mem_def, AList.mem_lookup_iff,
    mem_filter]

/-- Keep what `keep` says of a project, and everything of the others. -/
def retain_where (project : String) (keep : StatusEntry → Bool) (s : Store) : Store where
  entries :=
    { entries := s.entries.entries.filter fun x => x.1.1 ≠ project || keep x.2
      nodupKeys := s.entries.nodupKeys.sublist filter_sublist }
  keyed id e h := s.keyed id e (((lookup_filter fun id e => id.1 ≠ project || keep e) _).mp h).1

section
variable {s : Store} {id other : Id} {project : String} {e e' : StatusEntry}

theorem get_key (h : s.get id = some e) : e.key = id.2 := s.keyed id e h

theorem get_put_self : (s.put project e).get (project, e.key) = some e := AList.lookup_insert _

theorem get_put_other (h : id ≠ (project, e.key)) : (s.put project e).get id = s.get id :=
  AList.lookup_insert_ne h

theorem get_remove_self : (s.remove id).get id = none := AList.lookup_erase ..

theorem get_remove_other (h : other ≠ id) : (s.remove id).get other = s.get other :=
  AList.lookup_erase_ne h

/-- An entry that is put in place leaves those of the other keys what they are. -/
theorem get_put_cases (h : (s.put project e).get id = some e') :
    id = (project, e.key) ∧ e' = e ∨ id ≠ (project, e.key) ∧ s.get id = some e' := by
  by_cases hid : id = (project, e.key)
  · rw [hid, get_put_self] at h
    exact .inl ⟨hid, (some.inj h).symm⟩
  · rw [get_put_other hid] at h
    exact .inr ⟨hid, h⟩

/-- Taking an entry away brings none. -/
theorem get_of_remove (h : (s.remove id).get other = some e) : s.get other = some e := by
  by_cases hid : other = id
  · rw [hid, get_remove_self] at h
    exact nomatch h
  · rw [get_remove_other hid] at h
    exact h

theorem get_of_retain {keep : StatusEntry → Bool}
    (h : (s.retain_where project keep).get id = some e) : s.get id = some e :=
  ((lookup_filter fun id e => id.1 ≠ project || keep e) _).mp h |>.1

end

/-! ## Reporting -/

/-- A re-report of the state already held keeps the entry it would have replaced, timestamps
and all. What it says about right now is kept. -/
def re_reported (e entry : StatusEntry) : StatusEntry :=
  { e with
    reported_at := entry.timestamp
    reporter_pid := entry.reporter_pid
    tool := entry.tool
    compact := e.compact && entry.compact }

/-- A report that changes something, dated into its turn. A /compact of a session already
working takes back only what it added. -/
def reported (existing : Option StatusEntry) (entry : StatusEntry) : StatusEntry :=
  carry_turn existing { entry with
    reported_at := entry.timestamp
    compact := entry.compact && !existing.any fun e => is_live e.value }

/-- Store a report, handing back the entry as now held when it changed anything. -/
def store (project : String) (entry : StatusEntry) (s : Store) : Store × Option StatusEntry :=
  let existing := s.get (project, entry.key)
  match existing.filter fun e => !should_replace e entry with
  | some e => (s.put project (re_reported e entry), none)
  | none =>
    let entry := reported existing entry
    (s.put project entry, some entry)

/-- Retire what other sessions of the same agent left on `pane` when `key` reports there. -/
def retire_other_sessions (project key pane : String) (s : Store) : Store :=
  if pane = "" then s
  else
    match AgentKind.of_key key with
    | none => s
    | some agent =>
      let other : StatusEntry → Bool := fun e =>
        e.key ≠ key && e.pane_id = pane && starts_with e.key agent.key_prefix
      if agent.keyed_by_session then s.retain_where project fun e => !(other e && is_live e.value)
      else s.retain_where project fun e => !other e

section
variable {s : Store} {id : Id} {project key pane : String} {e entry : StatusEntry}

/-- A report repeats what is held, or puts an entry of its own in place. -/
inductive Reported (project : String) (entry : StatusEntry) (s : Store) :
    Store × Option StatusEntry → Prop
  | repeated {e : StatusEntry} (hget : s.get (project, entry.key) = some e)
    (hsame : should_replace e entry = false) :
    Reported project entry s (s.put project (re_reported e entry), none)
  | replaced (hnew : ∀ e, s.get (project, entry.key) = some e → should_replace e entry = true) :
    Reported project entry s (s.put project (reported (s.get (project, entry.key)) entry),
      some (reported (s.get (project, entry.key)) entry))

theorem store_cases (project : String) (entry : StatusEntry) (s : Store) :
    Reported project entry s (s.store project entry) := by
  rw [store]
  split
  next e hsome =>
    obtain ⟨hget, hsame⟩ := filter_eq_some_iff.mp hsome
    exact .repeated hget (by simpa using hsame)
  next hnone =>
    refine .replaced fun e hget => ?_
    have hkept := filter_eq_none_iff.mp hnone e hget
    simpa using hkept

variable (existing : Option StatusEntry)

@[simp] theorem reported_key :
    (reported existing entry).key = entry.key := by
  rw [reported, carry_turn_key]

@[simp] theorem same_report_reported (seen : StatusEntry) :
    same_report (reported existing entry) seen = same_report entry seen := by
  rw [reported, same_report_carry_turn]
  rfl

theorem get_of_retire (h : (s.retire_other_sessions project key pane).get id = some e) :
    s.get id = some e := by
  rw [retire_other_sessions] at h
  split at h
  · exact h
  · split at h
    · exact h
    · split at h
      · exact get_of_retain h
      · exact get_of_retain h

end

/-! ## Acting on what was observed -/

variable (project : String) (seen : StatusEntry) (s : Store)

/-- The entry that was observed, if the store still holds that report. -/
def unchanged : Option StatusEntry :=
  (s.get (project, seen.key)).filter fun e => same_report e seen

def amend_if_unchanged
    (change : StatusEntry → StatusEntry) (s : Store) : Store × Bool :=
  match s.unchanged project seen with
  | some e => (s.put project (change e), true)
  | none => (s, false)

/-- Remove the entry only if it still holds the report that was observed. -/
def clear_if_unchanged : Store × Bool :=
  match s.unchanged project seen with
  | some _ => (s.remove (project, seen.key), true)
  | none => (s, false)

/-- Replace the observed report with `next`. The turn carries over as with any report. -/
def replace_if_unchanged (seen next : StatusEntry) (s : Store) : Store × Bool :=
  match s.unchanged project seen with
  | some existing => (s.put project (carry_turn (some existing) next), true)
  | none => (s, false)

/-! ## Listing -/

def listed (which : StatusEntry → Bool) : List (String × StatusEntry) :=
  (s.entries.entries.filter fun x => which x.2).map fun x => (x.1.1, x.2)

/-- An agent report that says something is happening on a terminal right now. -/
def live_agent (e : StatusEntry) : Bool := is_agent_key e.key && is_live e.value && e.pane_id ≠ ""

def live_agent_entries : List (String × StatusEntry) := s.listed live_agent

def live_agent_entries_on (project pane_id : String) : List StatusEntry :=
  ((s.listed fun e => e.pane_id = pane_id && is_agent_key e.key && is_live e.value).filter
    fun x => x.1 = project).map Prod.snd

/-- Every entry that names the process it speaks for. -/
def pid_entries : List (String × StatusEntry) := s.listed fun e => e.agent_pid > 0

section
variable {s : Store} {project : String} {e seen : StatusEntry} {which : StatusEntry → Bool}

theorem mem_listed : (project, e) ∈ s.listed which ↔ s.get (project, e.key) = some e ∧ which e = true := by
  rw [listed, List.mem_map]
  constructor
  · rintro ⟨⟨id, e'⟩, hin, heq⟩
    cases heq
    obtain ⟨hin, hwhich⟩ := mem_filter.mp hin
    have hget : s.get id = some e' := AList.mem_lookup_iff.mpr hin
    have hkey : e'.key = id.2 := get_key hget
    refine ⟨?_, hwhich⟩
    rw [hkey]
    exact hget
  · rintro ⟨hget, hwhich⟩
    exact ⟨⟨(project, e.key), e⟩, mem_filter.mpr ⟨AList.mem_lookup_iff.mp hget, hwhich⟩, rfl⟩

theorem mem_live_agent_entries : (project, e) ∈ s.live_agent_entries
    ↔ s.get (project, e.key) = some e ∧ live_agent e = true := mem_listed

theorem unchanged_eq_some : s.unchanged project seen = some e
    ↔ s.get (project, seen.key) = some e ∧ same_report e seen = true := filter_eq_some_iff

theorem get_of_clear {id : Id} (h : (s.clear_if_unchanged project seen).1.get id = some e) :
    s.get id = some e := by
  rw [clear_if_unchanged] at h
  split at h
  · exact get_of_remove h
  · exact h

/-- What is left behind under the key is not the report that was observed. -/
theorem get_clear_self (h : (s.clear_if_unchanged project seen).1.get (project, seen.key) = some e) :
    same_report e seen = false := by
  rw [clear_if_unchanged] at h
  split at h
  · rw [get_remove_self] at h
    exact nomatch h
  next hnone =>
    by_contra hsame
    have hunchanged : s.unchanged project seen = some e :=
      unchanged_eq_some.mpr ⟨h, by simpa using hsame⟩
    rw [hnone] at hunchanged
    exact nomatch hunchanged

end

end Store

end Lpm.Status
