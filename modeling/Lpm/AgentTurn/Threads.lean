/-
The threads around the status store: the reports that come in, each on a thread of its
own, the watches that keys start, and the sweep.

A thread locks what it needs for one statement at a time, so a step is what a thread does
up to its next lock, and any thread may go next. Some fields remember what happened and are
no part of the program: how many reports were stored for an agent, which of them its entry
is of, which have nudged, and what watches and sweeps changed.
-/
import Lpm.Lib.Items
import Lpm.AgentTurn.Turn

set_option autoImplicit false

namespace Lpm.AgentTurn

open Function (update)
open List Option

open Lpm.Status (Id AgentKind StatusEntry Store STATUS_RUNNING STATUS_WAITING is_live)

/-- An entry as it was observed, and how many reports of its agent were stored by then. -/
structure Reading where
  project : String
  entry : StatusEntry
  count : ℕ

def Reading.id (r : Reading) : Id := (r.project, r.entry.key)

/-- A watch is of one project, which its readings name. -/
structure Watch where
  since : ℤ
  seen : List Reading
  click : Bool

/-- An entry cleared, replaced or amended by a watch or a sweep: how many reports of its
agent were stored when it was observed, and how many when it was changed. -/
structure Change where
  id : Id
  read : ℕ
  count : ℕ
  deriving DecidableEq

structure Shared where
  store : Store
  watches : Items Watch
  focused : Items ℤ
  flag : Bool
  stored : Id → ℕ
  /-- Which report the entry is of; none for one that a watch put there. -/
  owner : Id → Option ℕ
  nudged : List (Id × ℕ)
  changes : List Change
  /-- Since the sweep read the live entries a report nudged, or a watch took an answered
  question off an entry. -/
  missed : Bool

variable (sh : Shared)

def Shared.read (project : String) (entry : StatusEntry) : Reading :=
  { project, entry, count := sh.stored (project, entry.key) }

/-- A watch or a sweep is through with one of its readings. -/
def Shared.acted (r : Reading) (store : Store) (changed : Bool) : Shared :=
  { sh with
    store
    changes := if changed then
        sh.changes ++ [{ id := r.id, read := r.count, count := sh.stored r.id }]
      else sh.changes }

/-- Where a thread is. -/
inductive Thread where
  /-- `publish`, before it retires the other sessions on the pane. -/
  | reporting (project : String) (entry : StatusEntry)
  | storing (project : String) (entry : StatusEntry)
  | stored (project : String) (held : StatusEntry) (watched : Bool) (own : ℕ)
  | nudging (id : Id) (own : ℕ)
  /-- The second half of `took_focus`. -/
  | focusing (pane : String) (now : ℤ)
  /-- `on_input`, behind the classification of the key. -/
  | pressing (project pane : String) (key : Key) (now : ℤ)
  | answering (project pane : String) (key : Key) (now : ℤ)
  | watching (pane : String) (watch : Watch)
  /-- `follow` at the top of its loop. -/
  | following (pane : String)
  | looking (pane : String) (since : ℤ)
  | deciding (pane : String) (since : ℤ) (outcome : Outcome)
  | settling (outcome : Outcome) (todo : List Reading)

variable (seen : Seen)

/-- What a thread does next, and what it leaves behind. -/
def Thread.advance : Thread → Shared × List Thread
  | .reporting project entry =>
    ({ sh with store := sh.store.retire_other_sessions project entry.key entry.pane_id },
      [.storing project entry])
  | .storing project entry =>
    let id := (project, entry.key)
    let watched := is_live entry.value || entry.agent_pid > 0
    let own := sh.stored id + 1
    let (store, held) := sh.store.store project entry
    let sh := { sh with store, stored := update sh.stored id own }
    match held with
    | none => (sh, [])
    | some held =>
      ({ sh with owner := update sh.owner id (some own) }, [.stored project held watched own])
  | .stored project held watched own =>
    if held.pane_id ≠ "" ∧ seen.session held.pane_id = none then
      ({ sh with store := (sh.store.clear_if_unchanged project held).1 }, [])
    else (sh, if watched then [.nudging (project, held.key) own] else [])
  | .nudging id own =>
    ({ sh with flag := true, nudged := (id, own) :: sh.nudged, missed := true }, [])
  | .focusing pane now =>
    if (sh.watches.get pane).any fun w => w.click && now - w.since < FOCUS_CLICK_MS then
      ({ sh with watches := sh.watches.delete pane }, [])
    else (sh, [])
  | .pressing project pane key now =>
    if key = .click ∧ ((sh.focused.get pane).any fun at_ => now - at_ < FOCUS_CLICK_MS) = true then
      (sh, [])
    else (sh, [.answering project pane key now])
  | .answering project pane key now =>
    let concerned := (sh.store.live_agent_entries_on project pane).filter fun e =>
      concerns key e && !idle_key seen key project e
    if concerned = [] then (sh, [])
    else
      (sh, [.watching pane
        { since := now, seen := concerned.map (sh.read project), click := key = .click }])
  | .watching pane watch =>
    ({ sh with watches := sh.watches.set pane watch },
      if sh.watches.has pane then [] else [.following pane])
  | .following pane =>
    match sh.watches.get pane with
    | none => (sh, [])
    | some w => (sh, [.looking pane w.since])
  | .looking pane since =>
    match seen.session pane with
    | none => ({ sh with watches := sh.watches.delete pane }, [])
    | some sess =>
      let drew := max sess.last_output since
      let click := (sh.watches.get pane).any Watch.click
      match outcome since drew (sess.outputs_since (seen.now - CADENCE_MS)) click seen.now with
      | none => (sh, [.following pane])
      | some outcome => (sh, [.deciding pane since outcome])
  | .deciding pane since outcome =>
    match sh.watches.get pane with
    | none => (sh, [])
    | some w =>
      if w.since ≠ since then (sh, [.following pane])
      else ({ sh with watches := sh.watches.delete pane }, [.settling outcome w.seen])
  | .settling _ [] => (sh, [])
  | .settling outcome (r :: todo) =>
    let (store, changed) := settle r.project outcome seen.now r.entry sh.store
    let replaced := changed && !several r.entry && outcome = .resumed
    ({ sh.acted r store changed with
        owner := if replaced then update sh.owner r.id none else sh.owner
        missed := sh.missed || (changed && several r.entry) },
      [.settling outcome todo])

/-! ## The sweep thread -/

inductive Sweeper where
  | waiting
  | sleeping
  /-- Going through the live entries. -/
  | looking (todo : List Reading) (left : Bool)
  /-- Going through the entries that name a process. -/
  | checking (todo : List Reading) (left : Bool)

def Sweeper.advance : Sweeper → Option (Shared × Sweeper)
  | .waiting => if sh.flag then some (sh, .sleeping) else none
  | .sleeping =>
    some ({ sh with missed := false },
      .looking (sh.store.live_agent_entries.map fun x => sh.read x.1 x.2) false)
  | .looking (r :: todo) left =>
    if is_stale seen r.project r.entry then
      let (store, cleared) := sh.store.clear_if_unchanged r.project r.entry
      some (sh.acted r store cleared, .looking todo left)
    else some (sh, .looking todo true)
  | .looking [] left =>
    some (sh, .checking (sh.store.pid_entries.map fun x => sh.read x.1 x.2) left)
  | .checking (r :: todo) left =>
    if seen.is_alive r.entry.agent_pid then some (sh, .checking todo true)
    else
      let (store, cleared) := sh.store.clear_if_unchanged r.project r.entry
      some (sh.acted r store cleared, .checking todo left)
  | .checking [] left => some ({ sh with flag := if left then sh.flag else false }, .waiting)

/-! ## The system -/

structure State where
  sh : Shared
  threads : List Thread
  sweeper : Sweeper

inductive Action where
  | report (project : String) (entry : StatusEntry)
  | input (project pane : String) (input : List UInt8) (now : ℤ)
  | advance (thread : ℕ) (seen : Seen)
  | sweep (seen : Seen)

def step (s : State) : Action → Option State
  | .report project entry => some { s with threads := s.threads ++ [.reporting project entry] }
  | .input project pane input now =>
    if input = FOCUS_IN then
      some { s with
        sh.focused := s.sh.focused.set pane now
        threads := s.threads ++ [.focusing pane now] }
    else
      match classify input with
      | none => some s
      | some key => some { s with threads := s.threads ++ [.pressing project pane key now] }
  | .advance thread seen =>
    match s.threads[thread]? with
    | none => none
    | some t =>
      let (sh, behind) := t.advance s.sh seen
      some { s with sh, threads := s.threads.take thread ++ behind ++ s.threads.drop (thread + 1) }
  | .sweep seen => (s.sweeper.advance s.sh seen).map fun (sh, sweeper) => { s with sh, sweeper }

def initial : State where
  sh := {
    store := .empty, watches := [], focused := [], flag := false, stored := fun _ => 0
    owner := fun _ => none, nudged := [], changes := [], missed := false }
  threads := []
  sweeper := .waiting

def turns : Transition.System State Action where
  init s := s = initial
  step s a s' := step s a = some s'

/-! ## What a thread can do -/

/-- What a thread has read and not acted on. -/
def Thread.readings : Thread → List Reading
  | .watching _ watch => watch.seen
  | .settling _ todo => todo
  | _ => []

/-- What the watches that still wait have read. -/
def Shared.watched : List Reading := sh.watches.flatMap fun x => x.2.seen

/-- The threads a key leads to, up to the one that settles its watch. -/
def Thread.of_key : Thread → Bool
  | .reporting _ _ | .storing _ _ | .stored _ _ _ _ | .nudging _ _ => false
  | _ => true

/-- Everything a step of a thread can do. Whatever leads from a key to its watch and from
there to its settling leaves all but the watches alone, and holds on to no reading but those
there were and those it makes. -/
inductive Advanced (sh : Shared) (seen : Seen) : Thread → Shared → List Thread → Prop
  | retired (project : String) (entry : StatusEntry) :
    Advanced sh seen (.reporting project entry)
      { sh with store := sh.store.retire_other_sessions project entry.key entry.pane_id }
      [.storing project entry]
  | repeated {project : String} {entry : StatusEntry} {e : StatusEntry}
    (hget : sh.store.get (project, entry.key) = some e)
    (hsame : Status.should_replace e entry = false) :
    Advanced sh seen (.storing project entry)
      { sh with
        store := sh.store.put project (Status.Store.re_reported e entry)
        stored := update sh.stored (project, entry.key) (sh.stored (project, entry.key) + 1) }
      []
  | replaced {project : String} {entry held : StatusEntry}
    (hnew : ∀ e, sh.store.get (project, entry.key) = some e → Status.should_replace e entry = true)
    (hheld : held = Status.Store.reported (sh.store.get (project, entry.key)) entry) :
    Advanced sh seen (.storing project entry)
      { sh with
        store := sh.store.put project held
        stored := update sh.stored (project, entry.key) (sh.stored (project, entry.key) + 1)
        owner := update sh.owner (project, entry.key)
          (some (sh.stored (project, entry.key) + 1)) }
      [.stored project held (is_live entry.value || entry.agent_pid > 0)
        (sh.stored (project, entry.key) + 1)]
  | retracted (project : String) (held : StatusEntry) (watched : Bool) (own : ℕ) :
    Advanced sh seen (.stored project held watched own)
      { sh with store := (sh.store.clear_if_unchanged project held).1 } []
  | announced (project : String) (held : StatusEntry) (watched : Bool) (own : ℕ) :
    Advanced sh seen (.stored project held watched own) sh
      (if watched then [.nudging (project, held.key) own] else [])
  | nudged (id : Id) (own : ℕ) :
    Advanced sh seen (.nudging id own)
      { sh with flag := true, nudged := (id, own) :: sh.nudged, missed := true } []
  | led {t : Thread} (watches : Items Watch) (behind : List Thread)
    (hbehind : ∀ t' ∈ behind, t'.of_key = true)
    (hread : ∀ r, (r ∈ { sh with watches }.watched ∨ ∃ t' ∈ behind, r ∈ t'.readings) →
      r ∈ sh.watched ∨ r ∈ t.readings ∨ r.count = sh.stored r.id) :
    Advanced sh seen t { sh with watches } behind
  | settled (outcome : Outcome) (r : Reading) (todo : List Reading) :
    Advanced sh seen (.settling outcome (r :: todo))
      (Thread.advance sh seen (.settling outcome (r :: todo))).1 [.settling outcome todo]

theorem advance_cases (t : Thread) :
    Advanced sh seen t (t.advance sh seen).1 (t.advance sh seen).2 := by
  -- a thread that leaves the watches as they are, or takes some away
  have hless : ∀ (watches : Items Watch) (behind : List Thread),
      (∀ x ∈ watches, x ∈ sh.watches) → (∀ t' ∈ behind, t'.of_key = true ∧ t'.readings ⊆ t.readings) →
      Advanced sh seen t { sh with watches } behind := by
    intro watches behind hwatches hbehind
    refine .led watches behind (fun t' ht' => (hbehind t' ht').1) fun r hr => ?_
    rcases hr with hr | ⟨t', ht', hr⟩
    · obtain ⟨x, hx, hr⟩ := mem_flatMap.mp hr
      exact .inl (mem_flatMap.mpr ⟨x, hwatches x hx, hr⟩)
    · exact .inr (.inl ((hbehind t' ht').2 hr))
  have hquiet : ∀ behind : List Thread, (∀ t' ∈ behind, t'.of_key = true ∧ t'.readings ⊆ t.readings) →
      Advanced sh seen t sh behind := fun behind => hless sh.watches behind fun x hx => hx
  have hno : ∀ t' ∈ ([] : List Thread), t'.of_key = true ∧ t'.readings ⊆ t.readings :=
    fun t' ht' => absurd ht' not_mem_nil
  have hone : ∀ t' : Thread, t'.of_key = true → t'.readings = [] →
      ∀ u ∈ [t'], u.of_key = true ∧ u.readings ⊆ t.readings := by
    intro t' hkey hempty u hu
    rw [mem_singleton.mp hu, hempty]
    exact ⟨hkey, nil_subset _⟩
  have hdelete : ∀ pane, ∀ x ∈ sh.watches.delete pane, x ∈ sh.watches :=
    fun pane x hx => (mem_filter.mp hx).1
  cases t with
  | reporting project entry => exact .retired project entry
  | storing project entry =>
    rw [Thread.advance]
    rcases hstore : sh.store.store project entry with ⟨store, held⟩
    have hcases := Status.Store.store_cases project entry sh.store
    rw [hstore] at hcases
    cases hcases with
    | repeated hget hsame => exact .repeated hget hsame
    | replaced hnew => exact .replaced hnew rfl
  | stored project held watched own =>
    rw [Thread.advance]
    split
    · exact .retracted project held watched own
    · exact .announced project held watched own
  | nudging id own => exact .nudged id own
  | focusing pane now =>
    rw [Thread.advance]
    split_ifs
    · exact hless _ _ (hdelete pane) hno
    · exact hquiet _ hno
  | pressing project pane key now =>
    rw [Thread.advance]
    split_ifs
    · exact hquiet _ hno
    · exact hquiet _ (hone _ rfl rfl)
  | answering project pane key now =>
    simp only [Thread.advance]
    split_ifs
    · exact hquiet _ hno
    · refine .led sh.watches _ (fun t' ht' => ?_) fun r hr => ?_
      · rw [mem_singleton.mp ht']
        rfl
      · rcases hr with hr | ⟨t', ht', hr⟩
        · exact .inl hr
        -- what is read now is read at the present count
        · rw [mem_singleton.mp ht'] at hr
          obtain ⟨e, -, rfl⟩ := List.mem_map.mp hr
          exact .inr (.inr rfl)
  | watching pane watch =>
    rw [Thread.advance]
    refine .led (sh.watches.set pane watch) _ (fun t' ht' => ?_) fun r hr => ?_
    · split_ifs at ht'
      · exact absurd ht' not_mem_nil
      · rw [mem_singleton.mp ht']
        rfl
    · rcases hr with hr | ⟨t', ht', hr⟩
      · obtain ⟨x, hx, hr⟩ := mem_flatMap.mp hr
        rcases Items.mem_set hx with heq | hx
        · rw [heq] at hr
          exact .inr (.inl hr)
        · exact .inl (mem_flatMap.mpr ⟨x, hx, hr⟩)
      · split_ifs at ht'
        · exact absurd ht' not_mem_nil
        · rw [mem_singleton.mp ht'] at hr
          exact absurd hr not_mem_nil
  | following pane =>
    rw [Thread.advance]
    split
    · exact hquiet _ hno
    · exact hquiet _ (hone _ rfl rfl)
  | looking pane since =>
    simp only [Thread.advance]
    split
    · exact hless _ _ (hdelete pane) hno
    · split
      · exact hquiet _ (hone _ rfl rfl)
      · exact hquiet _ (hone _ rfl rfl)
  | deciding pane since outcome =>
    rw [Thread.advance]
    split
    · exact hquiet _ hno
    next w hw =>
      split_ifs
      · exact hquiet _ (hone _ rfl rfl)
      · refine .led (sh.watches.delete pane) _ (fun t' ht' => ?_) fun r hr => ?_
        · rw [mem_singleton.mp ht']
          rfl
        -- the readings of the watch go on to be settled
        · left
          rcases hr with hr | ⟨t', ht', hr⟩
          · obtain ⟨x, hx, hr⟩ := mem_flatMap.mp hr
            exact mem_flatMap.mpr ⟨x, hdelete pane x hx, hr⟩
          · rw [mem_singleton.mp ht'] at hr
            exact mem_flatMap.mpr ⟨(pane, w), Items.mem_of_get hw, hr⟩
  | settling outcome todo =>
    cases todo with
    | nil => exact hquiet _ hno
    | cons r todo => exact .settled outcome r todo

/-! ## What a pass can do -/

def Sweeper.readings : Sweeper → List Reading
  | .looking todo _ | .checking todo _ => todo
  | _ => []

/-- The store still held the report of `r`, and what was done to it is the change `c`. -/
def Changed (r : Reading) (c : Change) : Prop :=
  c = { id := r.id, read := r.count, count := sh.stored r.id } ∧
    ∃ e, sh.store.unchanged r.project r.entry = some e

/-- A pass takes entries away, one by one and each because of a reading it has made. -/
structure Passed (sh sh' : Shared) (sweeper sweeper' : Sweeper) : Prop where
  stored : sh'.stored = sh.stored
  nudged : sh'.nudged = sh.nudged
  watches : sh'.watches = sh.watches
  store : ∀ id e, sh'.store.get id = some e → sh.store.get id = some e
  readings : ∀ r ∈ sweeper'.readings, r ∈ sweeper.readings ∨ r.count = sh.stored r.id
  changes : ∀ c ∈ sh'.changes, c ∈ sh.changes ∨ ∃ r ∈ sweeper.readings, Changed sh r c

section
variable {sh sh' : Shared} {sweeper sweeper' : Sweeper} {r : Reading}

theorem mem_acted {store : Store} {changed : Bool} {c : Change}
    (h : c ∈ (sh.acted r store changed).changes) :
    c ∈ sh.changes ∨ changed = true ∧ c = { id := r.id, read := r.count, count := sh.stored r.id } := by
  rw [Shared.acted] at h
  cases changed with
  | false => exact .inl h
  | true =>
    rcases mem_append.mp h with hin | hin
    · exact .inl hin
    · exact .inr ⟨rfl, mem_singleton.mp hin⟩

theorem changed_of_clear {c : Change}
    (h : c ∈ (sh.acted r (sh.store.clear_if_unchanged r.project r.entry).1
      (sh.store.clear_if_unchanged r.project r.entry).2).changes) :
    c ∈ sh.changes ∨ Changed sh r c := by
  rcases mem_acted h with hin | ⟨hchanged, hc⟩
  · exact .inl hin
  · rw [Store.clear_if_unchanged] at hchanged
    split at hchanged
    next e he =>
      exact .inr ⟨hc, e, he⟩
    · cases hchanged

theorem Passed.quiet (h : ∀ r ∈ sweeper'.readings, r ∈ sweeper.readings ∨ r.count = sh.stored r.id)
    (flag missed : Bool) : Passed sh { sh with flag, missed } sweeper sweeper' where
  stored := rfl
  nudged := rfl
  watches := rfl
  store _ _ hin := hin
  readings := h
  changes _ hin := .inl hin

theorem Passed.cleared (hr : r ∈ sweeper.readings)
    (h : ∀ r ∈ sweeper'.readings, r ∈ sweeper.readings) :
    Passed sh (sh.acted r (sh.store.clear_if_unchanged r.project r.entry).1
      (sh.store.clear_if_unchanged r.project r.entry).2) sweeper sweeper' where
  stored := rfl
  nudged := rfl
  watches := rfl
  store _ _ hin := Status.Store.get_of_clear hin
  readings r hin := .inl (h r hin)
  changes _ hin := (changed_of_clear hin).imp_right fun hchanged => ⟨r, hr, hchanged⟩

/-- The readings of a list that is read now. -/
theorem read_now {listed : List (String × StatusEntry)}
    (h : r ∈ listed.map fun x => sh.read x.1 x.2) : r.count = sh.stored r.id := by
  obtain ⟨x, -, rfl⟩ := List.mem_map.mp h
  rfl

theorem sweep_cases {seen : Seen} (h : sweeper.advance sh seen = some (sh', sweeper')) :
    Passed sh sh' sweeper sweeper' := by
  cases sweeper with
  | waiting =>
    rw [Sweeper.advance] at h
    split_ifs at h
    cases h
    exact .quiet (fun r hr => absurd hr not_mem_nil) _ _
  | sleeping =>
    cases h
    refine .quiet (fun r hr => ?_) _ _
    exact .inr (read_now hr)
  | looking todo left =>
    cases todo with
    | nil =>
      cases h
      refine .quiet (fun r hr => ?_) _ _
      exact .inr (read_now hr)
    | cons r todo =>
      rw [Sweeper.advance] at h
      split_ifs at h
      · cases h
        exact .cleared (mem_cons_self ..) fun r hr => mem_cons_of_mem _ hr
      · cases h
        refine .quiet (fun r hr => ?_) _ _
        exact .inl (mem_cons_of_mem _ hr)
  | checking todo left =>
    cases todo with
    | nil =>
      cases h
      exact .quiet (fun r hr => absurd hr not_mem_nil) _ _
    | cons r todo =>
      rw [Sweeper.advance] at h
      split_ifs at h
      · cases h
        refine .quiet (fun r hr => ?_) _ _
        exact .inl (mem_cons_of_mem _ hr)
      · cases h
        exact .cleared (mem_cons_self ..) fun r hr => mem_cons_of_mem _ hr

end

/-! ## What a step is -/

/-- Where the threads start that reports and keys begin. -/
def Thread.starting : Thread → Bool
  | .reporting _ _ | .focusing _ _ | .pressing _ _ _ _ => true
  | _ => false

/-- A step starts a thread, moves one on, or is one of the sweep. -/
inductive Stepped (s s' : State) : Action → Prop
  | started {a : Action} (focused : Items ℤ) (hsh : s'.sh = { s.sh with focused })
    (hsweeper : s'.sweeper = s.sweeper)
    (hthreads : ∀ t ∈ s'.threads, t ∈ s.threads ∨ t.starting = true) : Stepped s s' a
  | advanced {i : ℕ} {seen : Seen} (t : Thread) (hget : s.threads[i]? = some t) (ht : t ∈ s.threads)
    (hsh : s'.sh = (t.advance s.sh seen).1) (hsweeper : s'.sweeper = s.sweeper)
    (hthreads : ∀ t' ∈ s'.threads, t' ∈ (t.advance s.sh seen).2 ∨ t' ∈ s.threads) :
    Stepped s s' (.advance i seen)
  | swept {seen : Seen} (hsweep : s.sweeper.advance s.sh seen = some (s'.sh, s'.sweeper))
    (hthreads : s'.threads = s.threads) : Stepped s s' (.sweep seen)

theorem step_cases {s s' : State} {a : Action} (h : step s a = some s') : Stepped s s' a := by
  cases a with
  | report project entry =>
    cases h
    refine .started s.sh.focused rfl rfl fun t ht => ?_
    rcases mem_append.mp ht with hin | hin
    · exact .inl hin
    · rw [mem_singleton.mp hin]
      exact .inr rfl
  | input project pane input now =>
    rw [step] at h
    split at h
    · cases h
      refine .started (s.sh.focused.set pane now) rfl rfl fun t ht => ?_
      rcases mem_append.mp ht with hin | hin
      · exact .inl hin
      · rw [mem_singleton.mp hin]
        exact .inr rfl
    -- a key that is classified starts a thread, any other input nothing
    · split at h
      · cases h
        exact .started s.sh.focused rfl rfl fun t ht => .inl ht
      · cases h
        refine .started s.sh.focused rfl rfl fun t ht => ?_
        rcases mem_append.mp ht with hin | hin
        · exact .inl hin
        · rw [mem_singleton.mp hin]
          exact .inr rfl
  | advance i seen =>
    rw [step] at h
    split at h
    · exact nomatch h
    next t ht =>
      cases h
      refine .advanced t ht (mem_of_getElem? ht) rfl rfl fun t' ht' => ?_
      rcases mem_append.mp ht' with hin | hin
      · rcases mem_append.mp hin with hin | hin
        · exact .inr (mem_of_mem_take hin)
        · exact .inl hin
      · exact .inr (mem_of_mem_drop hin)
  | sweep seen =>
    rw [step, map_eq_some_iff] at h
    obtain ⟨⟨sh, sweeper⟩, hsweep, rfl⟩ := h
    exact .swept hsweep rfl

def run (s : State) (actions : List Action) : Option State := actions.foldlM step s

theorem reachable_run {s s' : State} (h : Transition.Reachable turns s) {actions : List Action}
    (hrun : run s actions = some s') : Transition.Reachable turns s' :=
  h.run (fun _ _ _ hstep => hstep) hrun

end Lpm.AgentTurn
