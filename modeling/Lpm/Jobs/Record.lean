/-
The history of a job that several machines run: `push_entry` of `jobs.rs`, which
records a run made here, and `merge_runs` of `jobs/machines.rs`, which folds in the
runs another machine answered with.

A run of another machine is known by that machine's name and its time. The state of a
job is cut down to what the two functions read and write. All machines record runs and
answer each other; an answer is what a machine's history holds of its own runs when it is
asked, and may be folded in later, or more than once.
-/
import Lpm.Jobs.Machines
import Lpm.Lib.SortedList
import Lpm.Lib.Transition

set_option autoImplicit false

open SortedList Transition

namespace Lpm.Jobs

open List Option

/-! ## The state -/

def HISTORY_CAP : ℕ := 50

/-- `JobState`, as far as a job's runs go. -/
structure JobState where
  last_run_at : Option ℕ
  history : List HistoryEntry

/-- `is_collapsible`: outcomes whose repeats are one counted entry. -/
def is_collapsible (result : String) : Bool :=
  result == SKIPPED_OVERLAP || result == SKIPPED_PENDING_COPY || result == SKIPPED_CAPACITY
    || result == NOTHING_TO_DO

variable (st : JobState) (entry : HistoryEntry)

/-- The entry at the end of the history, when the new one collapses into it. -/
def collapses_into : Option HistoryEntry :=
  st.history.getLast?.filter fun last => is_collapsible entry.result && last.result == entry.result

/-- `push_entry`. -/
def push_entry : JobState :=
  match collapses_into st entry with
  | some last =>
    let last := { last with
      «at» := entry.at, copy := entry.copy, output := entry.output,
      count := some ((last.count.getD 1 + 1) % 2 ^ 32) }
    { st with history := st.history.dropLast ++ [last] }
  | none => { st with history := keep_last HISTORY_CAP (st.history ++ [entry]) }

/-- A run made here, as `run_pipeline` records it: with `advance` it also moves the
time the next run is counted from. -/
def record_run (advance : Bool) : JobState :=
  let st := push_entry st entry
  if advance then { st with last_run_at := some entry.at } else st

/-! ## Runs of other machines -/

/-- The run of machine `name` at a time. -/
def is_run (name : String) («at» : ℕ) (h : HistoryEntry) : Bool :=
  h.at == «at» && h.ran_on == some name

/-- The entry written for another machine's run. Its copy is a project over there. -/
def foreign_entry (name : String) (run : HistoryEntry) : HistoryEntry :=
  { run with ran_on := some name, copy := none }

/-- One turn of the loop of `merge_runs`. -/
def merge_run (name : String) (st : JobState) (run : HistoryEntry) : JobState :=
  { last_run_at :=
      if run.question.isNone then
        some (st.last_run_at.elim run.at fun l => max l run.at)
      else st.last_run_at
    history := insert_after HistoryEntry.at (foreign_entry name run) st.history }

/-- The loop, with whether a run was added. -/
def merge_loop (name : String) : JobState → List HistoryEntry → JobState × Bool
  | st, [] => (st, false)
  | st, run :: runs =>
    if st.history.any (is_run name run.at) then merge_loop name st runs
    else ((merge_loop name (merge_run name st run) runs).1, true)

/-- `merge_runs`. -/
def merge_runs (name : String) (runs : List HistoryEntry) : JobState × Bool :=
  let (st, added) := merge_loop name st runs
  ({ st with history := keep_last HISTORY_CAP st.history }, added)

/-- The runs `answer` tells another machine of: the ones made here since a time, less
the start marker of a run that is still going. -/
def answered_runs (since : ℕ) (running : Bool) : List HistoryEntry :=
  let runs := st.history.filter fun e =>
    since < e.at && e.ran_on.isNone && Sharing.ran e.result
  if running && runs.getLast?.any (fun e => e.result == FOUND_WORK && e.output.isNone)
  then runs.dropLast else runs

/-! ## The system: machines that record runs and answer each other -/

/-- A run recorded by a machine is its own. -/
structure LocalRun where
  entry : HistoryEntry
  own : entry.ran_on = none

/-- An entry another machine is told of, with the times of the runs it stands for: a run may
have collapsed into it. -/
structure Telling where
  entry : HistoryEntry
  runs : Finset ℕ

/-- What a machine answered, by its name. -/
structure Answered where
  name : String
  tellings : List Telling

structure Machine where
  state : JobState
  /-- The times of the runs that an entry made here stands for, by the time of the entry. -/
  stands : ℕ → Finset ℕ
  /-- What it was told of so far. -/
  told : List (String × Telling)

namespace Machine

variable (m : Machine)

/-- A run is recorded; when it collapses into an entry, what that stood for goes with it. -/
def record (entry : HistoryEntry) (advance : Bool) : Machine :=
  let before := (collapses_into m.state entry).elim entry.at HistoryEntry.at
  { m with
    state := record_run m.state entry advance
    stands := fun t =>
      if t = entry.at then insert entry.at (m.stands before ∪ m.stands entry.at)
      else if t = before then ∅ else m.stands t }

def answers (since : ℕ) (running : Bool) : List Telling :=
  (answered_runs m.state since running).map fun e => ⟨e, m.stands e.at⟩

def folds_in (a : Answered) : Machine :=
  { m with
    state := (merge_runs m.state a.name (a.tellings.map Telling.entry)).1
    told := a.tellings.map (fun t => (a.name, t)) ++ m.told }

/-- An entry of the history stands for the run of a machine, going by what was told. -/
def stands_for (name : String) (run : ℕ) (h : HistoryEntry) : Bool :=
  m.told.any fun p => p.1 == name && is_run name p.2.entry.at h && decide (run ∈ p.2.runs)

end Machine

/-- The machines, and the answers given so far. -/
structure Machines where
  machine : String → Machine
  answers : List Answered

inductive Event where
  | record (m : String) (run : LocalRun) (advance : Bool)
  | answer (m : String) (since : ℕ) (running : Bool)
  | merge (m : String) (a : Answered)

def Machines.after (s : Machines) : Event → Machines
  | .record m run advance =>
    { s with machine := Function.update s.machine m ((s.machine m).record run.entry advance) }
  | .answer m since running => { s with answers := ⟨m, (s.machine m).answers since running⟩ :: s.answers }
  | .merge m a => { s with machine := Function.update s.machine m ((s.machine m).folds_in a) }

/-- What is folded in is an answer that another machine gave. -/
def Event.given (s : Machines) : Event → Prop
  | .merge m a => a ∈ s.answers ∧ a.name ≠ m
  | _ => True

/-- Every interleaving of recorded runs and answers of any machines, from empty histories. -/
def histories : System Machines Event :=
  { init := fun s => (∀ m, (s.machine m).state.history = [] ∧ (s.machine m).stands = (fun _ => ∅) ∧
      (s.machine m).told = []) ∧ s.answers = []
    step := fun s e s' => e.given s ∧ s' = s.after e }

/-- The entries a new one stands behind. -/
def entries_before : List HistoryEntry :=
  if (collapses_into st entry).isSome then st.history.dropLast else st.history

/-- The times of the runs of an answer that are not in the history. -/
def fresh (name : String) (runs : List HistoryEntry) : Finset ℕ :=
  (runs.map HistoryEntry.at).toFinset.filter fun t => ¬ st.history.any (is_run name t)

/-- How much of the history stands from a run on: from its own entry when it is there,
and else the later ones. -/
def onward (name : String) (t : ℕ) : ℕ :=
  if st.history.any (is_run name t) then
    (st.history.dropWhile fun h => !is_run name t h).length
  else st.history.countP fun h => t < h.at

/-- Every run of an answer finds room in the history. -/
def Room (name : String) (runs : List HistoryEntry) : Prop :=
  ∀ run ∈ runs, onward st name run.at + ((fresh st name runs).filter fun t => run.at ≤ t).card ≤ HISTORY_CAP

/-- When recording keeps a history in order and what was told of it true, and folding in an
answer is over with one turn: a run is not earlier than what stands before it or than the time
runs are counted from, and no other run of its machine is of its time; the entry it collapses
into is not another machine's, and no answer has told of it; and every run of an answer finds
room in the history. -/
def Fits (s : Machines) : Event → Prop
  | .record m run advance =>
    (∀ h ∈ entries_before (s.machine m).state run.entry, h.at ≤ run.entry.at) ∧
      (∀ last ∈ collapses_into (s.machine m).state run.entry, last.ran_on = none ∧
        ∀ a ∈ s.answers, a.name = m → ∀ t ∈ a.tellings, t.entry.at ≠ last.at) ∧
      (∀ t, run.entry.at ∉ (s.machine m).stands t) ∧
      (advance = true → ∀ l ∈ (s.machine m).state.last_run_at, l ≤ run.entry.at)
  | .answer _ _ _ => True
  | .merge m a => Room (s.machine m).state a.name (a.tellings.map Telling.entry)

/-! ## One run folded in -/

section
variable {st : JobState} {name : String} {run : HistoryEntry} {t : ℕ}

/-- An entry made here, of a time. -/
def is_own (t : ℕ) (h : HistoryEntry) : Bool := h.at == t && h.ran_on.isNone

@[simp] theorem foreign_entry_at (name : String) (run : HistoryEntry) :
    (foreign_entry name run).at = run.at := rfl

theorem is_run_foreign (name name' : String) (t : ℕ) (run : HistoryEntry) :
    is_run name' t (foreign_entry name run) = (run.at == t && name == name') := by
  simp [is_run, foreign_entry]

theorem merge_run_any (name' : String) :
    (merge_run name st run).history.any (is_run name' t)
      = ((run.at == t && name == name') || st.history.any (is_run name' t)) := by
  rw [Bool.eq_iff_iff, List.any_eq_true, Bool.or_eq_true, List.any_eq_true]
  simp only [merge_run, mem_insert_after]
  constructor
  · rintro ⟨h, rfl | hmem, hrun⟩
    · exact Or.inl (by rwa [is_run_foreign] at hrun)
    · exact Or.inr ⟨h, hmem, hrun⟩
  · rintro (hrun | ⟨h, hmem, hrun⟩)
    · exact ⟨_, Or.inl rfl, by rwa [is_run_foreign]⟩
    · exact ⟨h, Or.inr hmem, hrun⟩

/-- Where a run's own entry stands. -/
theorem onward_of_split (st : JobState) {before later : List HistoryEntry} {r : HistoryEntry}
    (hbefore : ∀ h ∈ before, is_run name t h = false) (hr : is_run name t r = true)
    (hsplit : st.history = before ++ r :: later) : onward st name t = later.length + 1 := by
  have hthere : st.history.any (is_run name t) = true := by
    rw [List.any_eq_true, hsplit]
    exact ⟨r, mem_append_right _ mem_cons_self, hr⟩
  rw [onward, if_pos hthere, hsplit, dropWhile_append_of_pos fun h hh => by simp [hbefore h hh],
    dropWhile_cons_of_neg (by simp [hr]), length_cons]

theorem exists_split (hthere : st.history.any (is_run name t) = true) :
    ∃ before r later, st.history = before ++ r :: later ∧
      (∀ h ∈ before, is_run name t h = false) ∧ is_run name t r = true := by
  rw [← isSome_find?] at hthere
  obtain ⟨r, hfind⟩ := isSome_iff_exists.mp hthere
  obtain ⟨hr, before, later, hsplit, hbefore⟩ := find?_eq_some_iff_append.mp hfind
  refine ⟨before, r, later, hsplit, ?_, hr⟩
  intro h hh
  simpa using hbefore h hh

/-- A run folded in pushes back what stands before it, and nothing else. -/
theorem onward_merge_run (hs : Sorted HistoryEntry.at st.history)
    (hnew : st.history.any (is_run name run.at) = false) :
    onward (merge_run name st run) name t = onward st name t + if t ≤ run.at then 1 else 0 := by
  by_cases hthere : st.history.any (is_run name t) = true
  -- the run's own entry is passed or not
  · have hne : ¬ run.at = t := by
      rintro rfl
      rw [hnew] at hthere
      cases hthere
    obtain ⟨before, r, later, hsplit, hbefore, hr⟩ := exists_split hthere
    have hrt : r.at = t := by
      simp only [is_run, Bool.and_eq_true, beq_iff_eq] at hr
      exact hr.1
    rw [hsplit] at hs
    obtain ⟨before', later', heq, hmem, hlen⟩ := onward_insert_after hs (foreign_entry name run)
    have hbefore' : ∀ h ∈ before', is_run name t h = false := by
      intro h hh
      rcases hmem h hh with rfl | hh
      · rw [is_run_foreign, beq_false_of_ne hne, Bool.false_and]
      · exact hbefore h hh
    rw [onward_of_split st hbefore hr hsplit, onward_of_split (merge_run name st run) hbefore' hr
      (by rw [merge_run, hsplit, heq])]
    simp only [foreign_entry_at, hrt] at hlen
    by_cases hle : t ≤ run.at
    · rw [hlen.1 hle, if_pos hle]
    · rw [hlen.2 hle, if_neg hle]
  · by_cases hrt : run.at = t
    -- the run itself is put in front of what is later
    · obtain ⟨before, later, hsplit, heq, hle, hlt⟩ := insert_after_split hs (foreign_entry name run)
      have hbefore : ∀ h ∈ before, is_run name t h = false := by
        intro h hh
        by_contra hrun
        refine hthere (List.any_eq_true.mpr ⟨h, ?_, by simpa using hrun⟩)
        rw [hsplit]
        exact mem_append_left _ hh
      rw [onward_of_split (merge_run name st run) hbefore
        (r := foreign_entry name run) (by rw [is_run_foreign]; simp [hrt]) heq, onward, if_neg hthere,
        if_pos hrt.ge, hsplit, countP_append]
      have hnone : before.countP (fun h => decide (t < h.at)) = 0 := by
        rw [countP_eq_zero]
        intro h hh
        have := hle h hh
        simp only [foreign_entry_at] at this
        simp only [decide_eq_true_eq, not_lt]
        omega
      have hall : later.countP (fun h => decide (t < h.at)) = later.length := by
        rw [countP_eq_length]
        intro h hh
        have := hlt h hh
        simp only [foreign_entry_at] at this
        simp only [decide_eq_true_eq]
        omega
      rw [hnone, hall]
      omega
    · have hthere' : ¬ (merge_run name st run).history.any (is_run name t) = true := by
        rw [merge_run_any, beq_false_of_ne hrt, Bool.false_and, Bool.false_or]
        exact hthere
      rw [onward, if_neg hthere', onward, if_neg hthere, merge_run,
        insert_after_perm.countP_eq]
      by_cases hle : t ≤ run.at
      · have hlt : t < run.at := by omega
        rw [countP_cons_of_pos (p := fun h : HistoryEntry => decide (t < h.at))
          (a := foreign_entry name run) (decide_eq_true hlt), if_pos hle]
      · have hlt : ¬ t < run.at := by omega
        rw [countP_cons_of_neg (p := fun h : HistoryEntry => decide (t < h.at))
          (a := foreign_entry name run) (by rw [Bool.not_eq_true]; exact decide_eq_false hlt), if_neg hle, Nat.add_zero]

/-! ## A whole answer folded in -/

variable {runs : List HistoryEntry}

theorem mem_fresh :
    t ∈ fresh st name runs ↔
      (∃ run ∈ runs, run.at = t) ∧ ¬ st.history.any (is_run name t) = true := by
  simp [fresh]

/-- A run that is there already adds nothing. -/
theorem fresh_of_listed
    (h : st.history.any (is_run name run.at) = true) :
    fresh st name (run :: runs) = fresh st name runs := by
  ext t
  rw [mem_fresh, mem_fresh]
  constructor
  · rintro ⟨⟨r, hr, rfl⟩, hnew⟩
    rcases mem_cons.mp hr with rfl | hr
    · exact absurd h hnew
    · exact ⟨⟨r, hr, rfl⟩, hnew⟩
  · rintro ⟨⟨r, hr, rfl⟩, hnew⟩
    exact ⟨⟨r, mem_cons_of_mem run hr, rfl⟩, hnew⟩

/-- One that is new is the first of its time. -/
theorem fresh_of_new (runs : List HistoryEntry)
    (h : st.history.any (is_run name run.at) = false) :
    fresh st name (run :: runs) = insert run.at (fresh (merge_run name st run) name runs) ∧
      run.at ∉ fresh (merge_run name st run) name runs := by
  have hthere : (merge_run name st run).history.any (is_run name run.at) = true := by
    rw [merge_run_any]
    simp
  constructor
  · ext t
    rw [Finset.mem_insert, mem_fresh, mem_fresh, merge_run_any]
    simp only [beq_self_eq_true, Bool.and_true, Bool.or_eq_true, beq_iff_eq, not_or]
    constructor
    · rintro ⟨⟨r, hr, rfl⟩, hnew⟩
      rcases mem_cons.mp hr with rfl | hr
      · exact Or.inl rfl
      · by_cases hrun : run.at = r.at
        · exact Or.inl hrun.symm
        · exact Or.inr ⟨⟨r, hr, rfl⟩, hrun, hnew⟩
    · rintro (rfl | ⟨⟨r, hr, rfl⟩, _, hnew⟩)
      · exact ⟨⟨run, mem_cons_self, rfl⟩, by rw [h]; simp⟩
      · exact ⟨⟨r, mem_cons_of_mem run hr, rfl⟩, hnew⟩
  · rw [mem_fresh]
    rintro ⟨_, hnew⟩
    exact hnew hthere

/-- What the loop does to a history that is in order. -/
structure Looped (name : String) (st : JobState) (runs : List HistoryEntry) (st' : JobState) :
    Prop where
  sorted : Sorted HistoryEntry.at st'.history
  /-- Every run is there. -/
  listed : ∀ run ∈ runs, st'.history.any (is_run name run.at) = true
  /-- Nothing is lost. -/
  kept : ∀ h ∈ st.history, h ∈ st'.history
  longer : st.history.length ≤ st'.history.length
  /-- What is new is a run of the answer that was not there. -/
  added : ∀ h ∈ st'.history, h ∈ st.history ∨ h.at ∈ fresh st name runs
  once : (∀ n t, st.history.countP (is_run n t) ≤ 1) → ∀ n t, st'.history.countP (is_run n t) ≤ 1
  own : ∀ t, st'.history.countP (is_own t) = st.history.countP (is_own t)
  onward : ∀ t, st'.history.any (is_run name t) = true → onward st' name t
    = Jobs.onward st name t + ((fresh st name runs).filter fun r => t ≤ r).card
  anchor : ∀ l ∈ st.last_run_at, ∃ l' ∈ st'.last_run_at, l ≤ l'

/-- What the loop of `merge_runs` leaves. -/
theorem merge_loop_looped (name : String) (runs : List HistoryEntry) (hs : Sorted HistoryEntry.at st.history) :
    Looped name st runs (merge_loop name st runs).1 := by
  induction runs generalizing st with
  | nil =>
    refine ⟨hs, by simp, fun h hh => hh, le_rfl, fun h hh => Or.inl hh, id, fun _ => rfl, ?_,
      fun l hl => ⟨l, hl, le_rfl⟩⟩
    intro t _
    simp [merge_loop, fresh]
  | cons run runs ih =>
    -- a run that is listed is passed over, any other is put in
    by_cases hthere : st.history.any (is_run name run.at) = true
    · have hrest := ih hs
      rw [merge_loop, if_pos hthere]
      refine ⟨hrest.sorted, ?_, hrest.kept, hrest.longer, ?_, hrest.once, hrest.own, ?_, hrest.anchor⟩
      · intro r hr
        rcases mem_cons.mp hr with rfl | hr
        · obtain ⟨h, hmem, hrun⟩ := List.any_eq_true.mp hthere
          exact List.any_eq_true.mpr ⟨h, hrest.kept h hmem, hrun⟩
        · exact hrest.listed r hr
      · rw [fresh_of_listed hthere]
        exact hrest.added
      · rw [fresh_of_listed hthere]
        exact hrest.onward
    · have hnew : st.history.any (is_run name run.at) = false := by simpa using hthere
      have hrest := @ih (merge_run name st run) (hs.insert_after (foreign_entry name run))
      obtain ⟨hfresh, hnot⟩ := fresh_of_new runs hnew
      have hthere' : (merge_run name st run).history.any (is_run name run.at) = true := by
        rw [merge_run_any]
        simp
      rw [merge_loop, if_neg hthere]
      refine ⟨hrest.sorted, ?_, ?_, ?_, ?_, ?_, ?_, ?_, ?_⟩
      · intro r hr
        rcases mem_cons.mp hr with rfl | hr
        · obtain ⟨h, hmem, hrun⟩ := List.any_eq_true.mp hthere'
          exact List.any_eq_true.mpr ⟨h, hrest.kept h hmem, hrun⟩
        · exact hrest.listed r hr
      · intro h hh
        exact hrest.kept h (mem_insert_after.mpr (Or.inr hh))
      · refine le_trans ?_ hrest.longer
        rw [merge_run, insert_after_perm.length_eq, length_cons]
        omega
      · intro h hh
        rw [hfresh, Finset.mem_insert]
        rcases hrest.added h hh with hmem | hmem
        · rcases mem_insert_after.mp hmem with rfl | hmem
          · exact Or.inr (Or.inl rfl)
          · exact Or.inl hmem
        · exact Or.inr (Or.inr hmem)
      · intro honce
        refine hrest.once ?_
        intro n t
        rw [merge_run, insert_after_perm.countP_eq]
        by_cases hrun : is_run n t (foreign_entry name run) = true
        -- the run was not there under its name and time
        · rw [countP_cons_of_pos hrun]
          simp only [is_run_foreign, Bool.and_eq_true, beq_iff_eq] at hrun
          obtain ⟨rfl, rfl⟩ := hrun
          have hzero : st.history.countP (is_run name run.at) = 0 := by
            rw [countP_eq_zero]
            intro h hh hrun
            exact hthere (List.any_eq_true.mpr ⟨h, hh, hrun⟩)
          omega
        · rw [countP_cons_of_neg hrun]
          exact honce n t
      · intro t
        rw [hrest.own, merge_run, insert_after_perm.countP_eq, countP_cons_of_neg (by simp [is_own, foreign_entry])]
      · intro t ht
        rw [hrest.onward t ht, onward_merge_run hs hnew, hfresh, Finset.filter_insert]
        by_cases hle : t ≤ run.at
        · rw [if_pos hle, if_pos hle, Finset.card_insert_of_notMem]
          · omega
          · intro hmem
            exact hnot (Finset.mem_filter.mp hmem).1
        · rw [if_neg hle, if_neg hle]
          omega
      · intro l hl
        obtain ⟨l₁, hl₁, hle⟩ : ∃ l₁ ∈ (merge_run name st run).last_run_at, l ≤ l₁ := by
          simp only [merge_run, mem_def] at hl ⊢
          rw [hl]
          by_cases hq : run.question.isNone = true
          · rw [if_pos hq]
            exact ⟨_, rfl, le_max_left _ _⟩
          · rw [if_neg hq]
            exact ⟨l, rfl, le_rfl⟩
        obtain ⟨l₂, hl₂, hle₂⟩ := hrest.anchor l₁ hl₁
        exact ⟨l₂, hl₂, hle.trans hle₂⟩

/-- An answer whose runs are all there changes nothing. -/
theorem merge_loop_of_listed
    (h : ∀ run ∈ runs, st.history.any (is_run name run.at) = true) :
    merge_loop name st runs = (st, false) := by
  induction runs with
  | nil => rfl
  | cons run runs ih =>
    rw [merge_loop, if_pos (h run mem_cons_self)]
    exact ih fun r hr => h r (mem_cons_of_mem run hr)

end

/-! ## What every history keeps -/

/-- A job's state, and the runs of other machines it was told of, by their entries. -/
structure Told where
  state : JobState
  told : List (String × ℕ)

/-- The history is in order and short, no run of another machine is in it twice, and one
this machine was told of is in it, or everything in a full history is as late. -/
structure Kept (s : Told) : Prop where
  sorted : Sorted HistoryEntry.at s.state.history
  short : s.state.history.length ≤ HISTORY_CAP
  once : ∀ name t, s.state.history.countP (is_run name t) ≤ 1
  told : ∀ p ∈ s.told, s.state.history.any (is_run p.1 p.2) = true ∨
    (s.state.history.length = HISTORY_CAP ∧ ∀ h ∈ s.state.history, p.2 ≤ h.at)

theorem at_of_is_run {name : String} {t : ℕ} {h : HistoryEntry} (hr : is_run name t h = true) :
    h.at = t ∧ h.ran_on = some name := by
  simpa [is_run] using hr

/-- An entry made here is nobody's run. -/
theorem not_is_run {h : HistoryEntry} (hown : h.ran_on = none) (name : String) (t : ℕ) :
    ¬ is_run name t h = true := by
  intro hr
  rw [(at_of_is_run hr).2] at hown
  cases hown

/-- Keeping the newest of an ordered list loses a run only to a full history of entries
as late. -/
theorem told_keep_last {l : List HistoryEntry} (hs : Sorted HistoryEntry.at l) {name : String}
    {t : ℕ} (h : l.any (is_run name t) = true) :
    (keep_last HISTORY_CAP l).any (is_run name t) = true ∨
      ((keep_last HISTORY_CAP l).length = HISTORY_CAP ∧
        ∀ h ∈ keep_last HISTORY_CAP l, t ≤ h.at) := by
  obtain ⟨e, he, hrun⟩ := List.any_eq_true.mp h
  by_cases hkept : e ∈ keep_last HISTORY_CAP l
  · exact Or.inl (List.any_eq_true.mpr ⟨e, hkept, hrun⟩)
  · obtain ⟨hlen, hle⟩ := hs.of_dropped he hkept
    rw [(at_of_is_run hrun).1] at hle
    exact Or.inr ⟨hlen, hle⟩

/-- The end of a history an entry collapses into. -/
theorem collapses_into_some {st : JobState} {entry last : HistoryEntry}
    (h : collapses_into st entry = some last) : st.history = st.history.dropLast ++ [last] := by
  have hlast := (filter_eq_some_iff.mp h).1
  exact (dropLast_append_getLast? last hlast).symm

theorem record_run_history (st : JobState) (entry : HistoryEntry) (advance : Bool) :
    (record_run st entry advance).history = (push_entry st entry).history := by
  unfold record_run
  rcases advance with _ | _ <;> rfl

variable {s : Told}

theorem Kept.push_new (hk : Kept s) {run : LocalRun}
    (hnone : collapses_into s.state run.entry = none)
    (hfits : ∀ h ∈ s.state.history, h.at ≤ run.entry.at) :
    Kept { s with state := push_entry s.state run.entry } := by
  have hs : Sorted HistoryEntry.at (s.state.history ++ [run.entry]) := by
    refine pairwise_append.mpr ⟨hk.sorted, pairwise_singleton _ _, ?_⟩
    intro a ha b hb
    rw [mem_singleton.mp hb]
    exact hfits a ha
  have hhist : (push_entry s.state run.entry).history
      = keep_last HISTORY_CAP (s.state.history ++ [run.entry]) := by
    unfold push_entry
    rw [hnone]
  constructor
  · dsimp only
    rw [hhist]
    exact hs.keep_last
  · dsimp only
    rw [hhist]
    exact length_keep_last_le
  · intro name t
    dsimp only
    rw [hhist]
    refine ((drop_sublist _ _).countP_le).trans ?_
    rw [countP_append, countP_singleton, if_neg (not_is_run run.own name t)]
    exact hk.once name t
  · intro p hp
    dsimp only
    rw [hhist]
    rcases hk.told p hp with hthere | ⟨hfull, hle⟩
    · refine told_keep_last hs ?_
      rw [any_append, hthere, Bool.true_or]
    -- a full history has an entry the new one stands behind
    · obtain ⟨h₀, hh₀⟩ : ∃ h₀, h₀ ∈ s.state.history := by
        refine exists_mem_of_length_pos ?_
        rw [hfull]
        decide
      refine Or.inr ⟨length_keep_last (by rw [length_append, hfull]; simp), ?_⟩
      intro h hh
      rcases mem_append.mp (mem_of_mem_drop hh) with hh | hh
      · exact hle h hh
      · rw [mem_singleton.mp hh]
        exact (hle h₀ hh₀).trans (hfits h₀ hh₀)

theorem Kept.push_collapsed (hk : Kept s) {entry last : HistoryEntry}
    (hsome : collapses_into s.state entry = some last) (hown : last.ran_on = none)
    (hfits : ∀ h ∈ s.state.history.dropLast, h.at ≤ entry.at) :
    Kept { s with state := push_entry s.state entry } := by
  -- only the newest entry changes: it moves to the later time
  obtain ⟨last', hhist, hat, hown'⟩ : ∃ last' : HistoryEntry,
      (push_entry s.state entry).history = s.state.history.dropLast ++ [last'] ∧
        last'.at = entry.at ∧ last'.ran_on = none := by
    unfold push_entry
    rw [hsome]
    exact ⟨_, rfl, rfl, hown⟩
  have hsplit := collapses_into_some hsome
  have hlen : (push_entry s.state entry).history.length = s.state.history.length := by
    have hlength := congrArg List.length hsplit
    rw [length_append, length_singleton] at hlength
    rw [hhist, length_append, length_singleton, hlength]
  constructor
  · dsimp only
    rw [hhist]
    refine pairwise_append.mpr ⟨?_, pairwise_singleton _ _, ?_⟩
    · exact hk.sorted.sublist (dropLast_sublist _)
    · intro a ha b hb
      rw [mem_singleton.mp hb, hat]
      exact hfits a ha
  · dsimp only
    rw [hlen]
    exact hk.short
  · intro name t
    dsimp only
    rw [hhist, countP_append, countP_singleton, if_neg (not_is_run hown' name t)]
    exact ((dropLast_sublist _).countP_le).trans (hk.once name t)
  · intro p hp
    dsimp only
    rw [hlen]
    rcases hk.told p hp with hthere | ⟨hfull, hle⟩
    · left
      rw [hsplit, any_append, Bool.or_eq_true] at hthere
      rw [hhist, any_append, Bool.or_eq_true]
      refine Or.inl (hthere.resolve_right ?_)
      rw [any_cons, any_nil, Bool.or_false]
      exact not_is_run hown p.1 p.2
    · refine Or.inr ⟨hfull, ?_⟩
      -- the record is full, so some entry stands before the one that moved
      obtain ⟨h₀, hh₀⟩ : ∃ h₀, h₀ ∈ s.state.history.dropLast := by
        refine exists_mem_of_length_pos ?_
        rw [length_dropLast, hfull]
        decide
      intro h hh
      rw [hhist] at hh
      rcases mem_append.mp hh with hh | hh
      · exact hle h (dropLast_subset _ hh)
      · rw [mem_singleton.mp hh, hat]
        exact (hle h₀ (dropLast_subset _ hh₀)).trans (hfits h₀ hh₀)

theorem Kept.record (hk : Kept s) {run : LocalRun} (advance : Bool)
    (hbefore : ∀ h ∈ entries_before s.state run.entry, h.at ≤ run.entry.at)
    (hown : ∀ last ∈ collapses_into s.state run.entry, last.ran_on = none) :
    Kept { s with state := record_run s.state run.entry advance } := by
  have hpush : Kept { s with state := push_entry s.state run.entry } := by
    rcases hcol : collapses_into s.state run.entry with _ | last
    · refine hk.push_new hcol ?_
      rw [entries_before, hcol] at hbefore
      exact hbefore
    · refine hk.push_collapsed hcol (hown last hcol) ?_
      rw [entries_before, hcol] at hbefore
      exact hbefore
  obtain ⟨hsorted, hshort, honce, htold⟩ := hpush
  rw [← record_run_history s.state run.entry advance] at hsorted hshort honce htold
  exact ⟨hsorted, hshort, honce, htold⟩

theorem merge_runs_history (st : JobState) (name : String) (runs : List HistoryEntry) :
    (merge_runs st name runs).1.history
      = keep_last HISTORY_CAP (merge_loop name st runs).1.history := by
  unfold merge_runs
  rcases merge_loop name st runs with ⟨st', added⟩
  rfl

variable {runs : List HistoryEntry}

/-- Where every run of an answer finds room, every run stays. -/
theorem Kept.merge_listed (hk : Kept s) {name : String}
    (hfits : Room s.state name runs) {run : HistoryEntry} (hrun : run ∈ runs) :
    (merge_runs s.state name runs).1.history.any (is_run name run.at) = true := by
  have hloop := merge_loop_looped name runs hk.sorted
  have hthere := hloop.listed run hrun
  have honward := hloop.onward run.at hthere
  obtain ⟨before, r, later, hsplit, hbefore, hr⟩ := exists_split hthere
  rw [onward_of_split _ hbefore hr hsplit] at honward
  have hroom := hfits run hrun
  rw [merge_runs_history, hsplit]
  exact List.any_eq_true.mpr ⟨r, mem_keep_last (by omega), hr⟩

theorem Kept.merge (hk : Kept s) {name : String}
    (hfits : Room s.state name runs) :
    Kept { state := (merge_runs s.state name runs).1
           told := runs.map (fun run => (name, run.at)) ++ s.told } := by
  have hloop := merge_loop_looped name runs hk.sorted
  constructor
  · exact hloop.sorted.keep_last
  · exact length_keep_last_le
  · intro n t
    exact ((drop_sublist _ _).countP_le).trans (hloop.once hk.once n t)
  · intro p hp
    dsimp only at hp ⊢
    rcases mem_append.mp hp with hp | hp
    · obtain ⟨run, hrun, rfl⟩ := List.mem_map.mp hp
      exact Or.inl (hk.merge_listed hfits hrun)
    · rw [merge_runs_history]
      rcases hk.told p hp with hthere | ⟨hfull, hle⟩
      · refine told_keep_last hloop.sorted ?_
        obtain ⟨h, hh, hrun⟩ := List.any_eq_true.mp hthere
        exact List.any_eq_true.mpr ⟨h, hloop.kept h hh, hrun⟩
      · have hlong : HISTORY_CAP ≤ (merge_loop name s.state runs).1.history.length := by
          rw [← hfull]
          exact hloop.longer
        refine Or.inr ⟨length_keep_last hlong, ?_⟩
        intro h hh
        rcases hloop.added h (mem_of_mem_drop hh) with hold | hnew
        · exact hle h hold
        -- a new run that was earlier than all of a full history had no room
        · obtain ⟨⟨run, hrun, heq⟩, hnot⟩ := mem_fresh.mp hnew
          have hroom := hfits run hrun
          rw [heq, onward, if_neg hnot] at hroom
          have hone : 0 < ((fresh s.state name runs).filter fun t => h.at ≤ t).card := by
            refine Finset.card_pos.mpr ⟨h.at, ?_⟩
            exact Finset.mem_filter.mpr ⟨hnew, le_rfl⟩
          by_contra hlt
          have hall : s.state.history.countP (fun e => h.at < e.at) = HISTORY_CAP := by
            rw [← hfull, countP_eq_length]
            intro e he
            have := hle e he
            simp only [decide_eq_true_eq]
            omega
          omega

/-! ## What the entries stand for -/

/-- An entry of a machine's own stands for its run, no run is stood for twice, and no two such
entries are of one time. -/
structure Own (m : Machine) : Prop where
  apart : ∀ t u r, r ∈ m.stands t → r ∈ m.stands u → t = u
  own : ∀ e ∈ m.state.history, e.ran_on = none → e.at ∈ m.stands e.at
  once : ∀ t, m.state.history.countP (is_own t) ≤ 1

section
variable {m : Machine} {entry : HistoryEntry} {advance : Bool} {r t : ℕ}

theorem mem_stands_record : r ∈ (m.record entry advance).stands t
    ↔ r = entry.at ∧ t = entry.at ∨ ∃ u, r ∈ m.stands u ∧
        t = if u = (collapses_into m.state entry).elim entry.at HistoryEntry.at then entry.at else u := by
  rw [Machine.record]
  generalize (collapses_into m.state entry).elim entry.at HistoryEntry.at = before
  dsimp only
  -- at the new time stands the run and what stood where the entry was
  by_cases ht : t = entry.at
  · rw [if_pos ht, Finset.mem_insert, Finset.mem_union]
    constructor
    · rintro (rfl | hr | hr)
      · exact Or.inl ⟨rfl, ht⟩
      · exact Or.inr ⟨before, hr, by rw [if_pos rfl, ht]⟩
      · refine Or.inr ⟨entry.at, hr, ?_⟩
        rw [ht, ite_self]
    · rintro (⟨rfl, -⟩ | ⟨u, hr, hu⟩)
      · exact Or.inl rfl
      · by_cases hb : u = before
        · exact Or.inr (Or.inl (hb ▸ hr))
        · rw [if_neg hb] at hu
          exact Or.inr (Or.inr (ht ▸ hu ▸ hr))
  · rw [if_neg ht]
    by_cases hb : t = before
    · rw [if_pos hb]
      constructor
      · intro hr
        exact absurd hr (Finset.notMem_empty r)
      · rintro (⟨-, hu⟩ | ⟨u, hr, hu⟩)
        · exact absurd hu ht
        · split_ifs at hu with hub
          · exact absurd hu ht
          · exact absurd (hu.symm.trans hb) hub
    · rw [if_neg hb]
      constructor
      · intro hr
        exact Or.inr ⟨t, hr, by rw [if_neg hb]⟩
      · rintro (⟨-, hu⟩ | ⟨u, hr, hu⟩)
        · exact absurd hu ht
        · split_ifs at hu with hub
          · exact absurd hu ht
          · exact hu ▸ hr

/-- A run is recorded in an entry of its time behind others, which are of other times than the
entry that it takes the place of. -/
theorem Own.record_history (h : Own m) (hown : entry.ran_on = none)
    (hlast : ∀ last ∈ collapses_into m.state entry, last.ran_on = none) :
    ∃ (kept : List HistoryEntry) (last : HistoryEntry),
      (m.record entry advance).state.history.Sublist (kept ++ [last]) ∧ last.at = entry.at ∧ last.ran_on = none ∧
      kept.Sublist m.state.history ∧ ∀ e ∈ kept, e.ran_on = none →
        e.at = (collapses_into m.state entry).elim entry.at HistoryEntry.at → e.at = entry.at := by
  rw [Machine.record]
  dsimp only
  rw [record_run_history, push_entry]
  cases hcol : collapses_into m.state entry with
  | none => exact ⟨m.state.history, entry, drop_sublist _ _, rfl, hown, Sublist.refl _, fun e _ _ he => he⟩
  | some last =>
    refine ⟨m.state.history.dropLast, _, Sublist.refl _, rfl, hlast last hcol, dropLast_sublist _, ?_⟩
    intro e he heown heat
    -- two entries of its own at one time
    have honce := h.once last.at
    rw [collapses_into_some hcol, countP_append, countP_singleton, if_pos (by simp [is_own, hlast last hcol])] at honce
    have hpos := countP_pos_iff.mpr ⟨e, he, (by simp [is_own, heown, heat] : is_own last.at e = true)⟩
    omega

theorem Own.record (h : Own m) (hown : entry.ran_on = none)
    (hlast : ∀ last ∈ collapses_into m.state entry, last.ran_on = none)
    (hnew : ∀ t, entry.at ∉ m.stands t) : Own (m.record entry advance) := by
  obtain ⟨kept, last, hsub, hat, hlastown, hkept, hbefore⟩ := @Own.record_history m entry advance h hown hlast
  -- no entry has the new time yet
  have hfresh : ∀ e ∈ kept, e.ran_on = none → e.at ≠ entry.at := by
    intro e he heown heat
    exact hnew entry.at (heat ▸ h.own e (hkept.subset he) heown)
  constructor
  · intro t u r ht hu
    rcases mem_stands_record.mp ht with ⟨rfl, rfl⟩ | ⟨t₀, hr, rfl⟩ <;>
      rcases mem_stands_record.mp hu with ⟨hr', rfl⟩ | ⟨u₀, hr', rfl⟩
    · rfl
    · exact absurd hr' (hnew u₀)
    · exact absurd (hr' ▸ hr) (hnew t₀)
    · rw [h.apart t₀ u₀ r hr hr']
  · intro e he heown
    refine mem_stands_record.mpr ?_
    rcases mem_append.mp (hsub.subset he) with he | he
    · refine Or.inr ⟨e.at, h.own e (hkept.subset he) heown, ?_⟩
      rw [if_neg fun heat => hfresh e he heown (hbefore e he heown heat)]
    · rw [mem_singleton.mp he, hat]
      exact Or.inl ⟨rfl, rfl⟩
  · intro t
    refine hsub.countP_le.trans ?_
    rw [countP_append, countP_singleton]
    by_cases ht : t = entry.at
    · have hzero : kept.countP (is_own t) = 0 := by
        rw [countP_eq_zero]
        intro e he htrue
        simp only [is_own, Bool.and_eq_true, beq_iff_eq, isNone_iff_eq_none] at htrue
        exact hfresh e he htrue.2 (htrue.1.trans ht)
      rw [hzero]
      split_ifs <;> omega
    · have hne : ¬ is_own t last = true := by
        simp [is_own, hat, Ne.symm ht]
      rw [if_neg hne]
      exact hkept.countP_le.trans (h.once t)

theorem Own.folds_in (h : Own m) (a : Answered) (hs : Sorted HistoryEntry.at m.state.history) : Own (m.folds_in a) := by
  have hle : ∀ t, (m.folds_in a).state.history.countP (is_own t) ≤ m.state.history.countP (is_own t) := by
    intro t
    rw [← (merge_loop_looped a.name (a.tellings.map Telling.entry) hs).own t]
    change ((merge_runs m.state a.name (a.tellings.map Telling.entry)).1.history).countP (is_own t) ≤ _
    rw [merge_runs_history]
    exact (drop_sublist _ _).countP_le
  refine ⟨h.apart, fun e he hown => ?_, fun t => (hle t).trans (h.once t)⟩
  have hpos := countP_pos_iff.mpr ⟨e, he, (by simp [is_own, hown] : is_own e.at e = true)⟩
  obtain ⟨e', he', htrue⟩ := countP_pos_iff.mp (hpos.trans_le (hle e.at))
  simp only [is_own, Bool.and_eq_true, beq_iff_eq, isNone_iff_eq_none] at htrue
  exact htrue.1 ▸ h.own e' he' htrue.2

end

/-! ## What holds of all machines -/

/-- The runs a machine was told of, as its history knows them. -/
def Machine.told_of (m : Machine) : Told :=
  { state := m.state, told := m.told.map fun p => (p.1, p.2.entry.at) }

/-- Every history is kept, and what an answer told of the entries of its machine is so still. -/
structure Sound (s : Machines) : Prop where
  kept : ∀ m, Kept (s.machine m).told_of
  own : ∀ m, Own (s.machine m)
  answers : ∀ a ∈ s.answers, ∀ t ∈ a.tellings,
    t.entry.at ∈ t.runs ∧ t.runs = (s.machine a.name).stands t.entry.at
  told : ∀ m, ∀ p ∈ (s.machine m).told, ∃ a ∈ s.answers, a.name = p.1 ∧ p.2 ∈ a.tellings

section
variable {s : Machines}

/-- What holds of every machine but one, and of what that one becomes. -/
theorem forall_update {P : Machine → Prop} {m : String} {m' : Machine} (hall : ∀ n, P (s.machine n)) (hm : P m') (n : String) :
    P (Function.update s.machine m m' n) := by
  by_cases hn : n = m
  · rw [hn, Function.update_self]
    exact hm
  · rw [Function.update_of_ne hn]
    exact hall n

theorem Sound.record (h : Sound s) {m : String} {run : LocalRun} {advance : Bool} (hfits : Fits s (.record m run advance)) :
    Sound (s.after (.record m run advance)) := by
  obtain ⟨hbefore, hlast, hnew, -⟩ := hfits
  have hown := fun last hin => (hlast last hin).1
  refine ⟨@forall_update s (fun m => Kept m.told_of) m _ h.kept ((h.kept m).record advance hbefore hown),
    @forall_update s Own m _ h.own ((h.own m).record run.own hown hnew), fun a ha t ht => ?_,
    @forall_update s (fun m => ∀ p ∈ m.told, ∃ a ∈ s.answers, a.name = p.1 ∧ p.2 ∈ a.tellings) m _ h.told (h.told m)⟩
  · obtain ⟨hin, hruns⟩ := h.answers a ha t ht
    refine ⟨hin, ?_⟩
    change t.runs = (Function.update s.machine m ((s.machine m).record run.entry advance) a.name).stands t.entry.at
    by_cases hm : a.name = m
    -- an entry that was told of is not the one the run collapses into
    · rw [hm] at hruns
      have hne : t.entry.at ≠ run.entry.at := by
        intro heq
        rw [hruns, heq] at hin
        exact hnew _ hin
      rw [hm, Function.update_self, Machine.record, hruns]
      dsimp only
      rw [if_neg hne, if_neg]
      cases hcol : collapses_into (s.machine m).state run.entry with
      | none => exact hne
      | some last => exact (hlast last hcol).2 a ha hm t ht
    · rw [Function.update_of_ne hm]
      exact hruns

theorem Sound.answer (h : Sound s) (m : String) (since : ℕ) (running : Bool) : Sound (s.after (.answer m since running)) := by
  refine ⟨h.kept, h.own, fun a ha t ht => ?_, fun n p hp => ?_⟩
  · rcases mem_cons.mp ha with rfl | ha
    · obtain ⟨e, he, rfl⟩ := List.mem_map.mp ht
      have hin : e ∈ (s.machine m).state.history.filter fun e => since < e.at && e.ran_on.isNone && Sharing.ran e.result := by
        unfold answered_runs at he
        dsimp only at he
        split_ifs at he
        · exact dropLast_subset _ he
        · exact he
      obtain ⟨hmem, htrue⟩ := mem_filter.mp hin
      simp only [Bool.and_eq_true, isNone_iff_eq_none] at htrue
      exact ⟨(h.own m).own e hmem htrue.1.2, rfl⟩
    · exact h.answers a ha t ht
  · obtain ⟨a, ha, hrest⟩ := h.told n p hp
    exact ⟨a, mem_cons_of_mem _ ha, hrest⟩

theorem Sound.merge (h : Sound s) {m : String} {a : Answered} (ha : a ∈ s.answers) (hfits : Fits s (.merge m a)) :
    Sound (s.after (.merge m a)) := by
  have hkept : Kept ((s.machine m).folds_in a).told_of := by
    have hmerge := (h.kept m).merge hfits
    rw [List.map_map] at hmerge
    rw [Machine.told_of, Machine.folds_in, map_append, List.map_map]
    exact hmerge
  refine ⟨@forall_update s (fun m => Kept m.told_of) m _ h.kept hkept,
    @forall_update s Own m _ h.own ((h.own m).folds_in a (h.kept m).sorted), fun b hb t ht => ?_, ?_⟩
  · obtain ⟨hin, hruns⟩ := h.answers b hb t ht
    refine ⟨hin, hruns.trans ?_⟩
    change _ = (Function.update s.machine m ((s.machine m).folds_in a) b.name).stands t.entry.at
    by_cases hm : b.name = m
    · rw [hm, Function.update_self, Machine.folds_in]
    · rw [Function.update_of_ne hm]
  · refine @forall_update s (fun m => ∀ p ∈ m.told, ∃ a ∈ s.answers, a.name = p.1 ∧ p.2 ∈ a.tellings) m _ h.told fun p hp => ?_
    rcases mem_append.mp hp with hp | hp
    · obtain ⟨t, ht, rfl⟩ := List.mem_map.mp hp
      exact ⟨a, ha, rfl, ht⟩
    · exact h.told m p hp

/-- Every state reached by steps that fit is sound. -/
theorem sound_of_reachable (h : Reachable (histories.when Fits) s) : Sound s := by
  refine h.invariant ?_ ?_
  · rintro s ⟨hempty, hnone⟩
    refine ⟨fun m => ?_, fun m => ?_, by rw [hnone]; simp, fun m => by rw [(hempty m).2.2]; simp⟩
    · obtain ⟨hhist, -, htold⟩ := hempty m
      constructor
      · rw [Machine.told_of, hhist]
        exact List.Pairwise.nil
      · rw [Machine.told_of, hhist]
        exact Nat.zero_le _
      · intro name t
        rw [Machine.told_of, hhist]
        exact Nat.zero_le _
      · intro p hp
        rw [Machine.told_of, htold] at hp
        cases hp
    · obtain ⟨hhist, hstands, -⟩ := hempty m
      refine ⟨fun t u r hr => ?_, by rw [hhist]; simp, fun t => by rw [hhist]; exact Nat.zero_le _⟩
      rw [hstands] at hr
      exact absurd hr (Finset.notMem_empty r)
  · rintro s e s' hsound ⟨hfits, hgiven, rfl⟩
    cases e with
    | record m run advance => exact hsound.record hfits
    | answer m since running => exact hsound.answer m since running
    | merge m a => exact hsound.merge hgiven.1 hfits

/-- A run that a machine was told of is stood for by the entry it was told with. -/
theorem Sound.stands_for_iff (h : Sound s) {m : String} {p : String × Telling} (hp : p ∈ (s.machine m).told) {r : ℕ}
    (hr : r ∈ p.2.runs) (e : HistoryEntry) :
    (s.machine m).stands_for p.1 r e = is_run p.1 p.2.entry.at e := by
  rw [Bool.eq_iff_iff, Machine.stands_for, List.any_eq_true]
  constructor
  · rintro ⟨q, hq, htrue⟩
    simp only [Bool.and_eq_true, beq_iff_eq, decide_eq_true_eq] at htrue
    obtain ⟨⟨hname, hrun⟩, hrq⟩ := htrue
    obtain ⟨a, ha, han, hta⟩ := h.told m p hp
    obtain ⟨b, hb, hbn, htb⟩ := h.told m q hq
    rw [(h.answers a ha p.2 hta).2, han] at hr
    rw [(h.answers b hb q.2 htb).2, hbn, hname] at hrq
    rw [(h.own p.1).apart _ _ r hr hrq]
    exact hrun
  · intro hrun
    exact ⟨p, hp, by simp [hrun, hr]⟩

/-- The time runs are counted from never goes back. -/
theorem anchor_of_fits (h : Sound s) {e : Event} (hfits : Fits s e) (m : String) :
    ∀ l ∈ (s.machine m).state.last_run_at, ∃ l' ∈ ((s.after e).machine m).state.last_run_at, l ≤ l' := by
  intro l hl
  have hother : ∀ {n : String} {m' : Machine}, ¬ m = n →
      ∃ l' ∈ (Function.update s.machine n m' m).state.last_run_at, l ≤ l' := by
    intro n m' hne
    rw [Function.update_of_ne hne]
    exact ⟨l, hl, le_rfl⟩
  cases e with
  | record n run advance =>
    by_cases hm : m = n
    · subst hm
      change ∃ l' ∈ (Function.update s.machine m _ m).state.last_run_at, l ≤ l'
      rw [Function.update_self]
      have hpush : (push_entry (s.machine m).state run.entry).last_run_at = (s.machine m).state.last_run_at := by
        unfold push_entry
        split <;> rfl
      rcases advance with _ | _
      · refine ⟨l, ?_, le_rfl⟩
        change l ∈ (push_entry (s.machine m).state run.entry).last_run_at
        rw [hpush]
        exact hl
      · exact ⟨run.entry.at, rfl, hfits.2.2.2 rfl l hl⟩
    · exact hother hm
  | answer n since running => exact ⟨l, hl, le_rfl⟩
  | merge n a =>
    by_cases hm : m = n
    · subst hm
      change ∃ l' ∈ (Function.update s.machine m _ m).state.last_run_at, l ≤ l'
      rw [Function.update_self]
      exact (merge_loop_looped a.name (a.tellings.map Telling.entry) (h.kept m).sorted).anchor l hl
    · exact hother hm

/-- Over every interleaving of recorded runs and answers of any machines whose steps fit, every
history stays in order and within its cap; a run that a machine was told of is stood for by
exactly one entry as long as the entry it was told with is newer than the oldest one; the time
runs are counted from never goes back; and the same answer again changes nothing. -/
theorem history_merges {s : Machines} (h : Reachable (histories.when Fits) s) (m : String) :
    Sorted HistoryEntry.at (s.machine m).state.history ∧ (s.machine m).state.history.length ≤ HISTORY_CAP ∧
      (∀ p ∈ (s.machine m).told, ∀ r ∈ p.2.runs,
        (∃ oldest ∈ (s.machine m).state.history.head?, oldest.at < p.2.entry.at) →
          (s.machine m).state.history.countP ((s.machine m).stands_for p.1 r) = 1) ∧
      ∀ e, Fits s e →
        (∀ l ∈ (s.machine m).state.last_run_at, ∃ l' ∈ ((s.after e).machine m).state.last_run_at, l ≤ l') ∧
        ∀ a, e = .merge m a →
          merge_runs ((s.after e).machine m).state a.name (a.tellings.map Telling.entry)
            = (((s.after e).machine m).state, false) := by
  have hsound := sound_of_reachable h
  have hk := hsound.kept m
  refine ⟨hk.sorted, hk.short, ?_, ?_⟩
  · rintro p hp r hr ⟨oldest, hhead, hlt⟩
    have hsame : (s.machine m).stands_for p.1 r = is_run p.1 p.2.entry.at := funext (hsound.stands_for_iff hp hr)
    rw [hsame]
    rcases hk.told (p.1, p.2.entry.at) (List.mem_map_of_mem hp) with hthere | ⟨_, hle⟩
    · obtain ⟨e, he, hrun⟩ := List.any_eq_true.mp hthere
      have hpos := countP_pos_iff.mpr ⟨e, he, hrun⟩
      have hone := hk.once p.1 p.2.entry.at
      exact Nat.le_antisymm hone hpos
    · exact absurd (hle oldest (mem_of_mem_head? hhead)) (Nat.not_le.mpr hlt)
  · intro e hfits
    refine ⟨anchor_of_fits hsound hfits m, ?_⟩
    rintro a rfl
    have hlisted := merge_loop_of_listed fun run hrun => hk.merge_listed hfits hrun
    simp only [Machines.after, Function.update_self, Machine.folds_in]
    simp only [Machine.told_of] at hlisted
    unfold merge_runs at hlisted ⊢
    rw [hlisted]
    dsimp only
    rw [keep_last_of_le length_keep_last_le]

end

/-- An outcome at a time and nothing else. -/
def outcome_at (t : ℕ) (result : String) : HistoryEntry :=
  { HistoryEntry.default with «at» := t, result }

/-- A job that no machine has run yet. -/
def no_runs : Machines :=
  { machine := fun _ => { state := { last_run_at := none, history := [] }, stands := fun _ => ∅, told := [] }, answers := [] }

def completes (m : String) (t : ℕ) : Event := .record m ⟨outcome_at t COMPLETED, rfl⟩ true

def finds_nothing (m : String) (t : ℕ) : Event := .record m ⟨outcome_at t NOTHING_TO_DO, rfl⟩ true

/-- A run completed on one machine, and a quiet check on another, which answers. -/
def answered : Machines := ((no_runs.after (completes "Air" 10)).after (finds_nothing "Mini" 100)).after (.answer "Mini" 0 false)

def mini_answer : Answered := ⟨"Mini", (answered.machine "Mini").answers 0 false⟩

/-- The answer is folded in, the machine that gave it completes a run and answers again, and that is
folded in as well. -/
def told_twice : Machines :=
  (((answered.after (.merge "Air" mini_answer)).after (completes "Mini" 160)).after (.answer "Mini" 0 false)).after
    (.merge "Air" ⟨"Mini", ((answered.after (completes "Mini" 160)).machine "Mini").answers 0 false⟩)

/-- Both runs are stood for once. -/
theorem history_merges_twice :
    Sorted HistoryEntry.at (told_twice.machine "Air").state.history ∧ (told_twice.machine "Air").state.history.length ≤ HISTORY_CAP ∧
      (∀ p ∈ (told_twice.machine "Air").told, ∀ r ∈ p.2.runs,
        (∃ oldest ∈ (told_twice.machine "Air").state.history.head?, oldest.at < p.2.entry.at) →
          (told_twice.machine "Air").state.history.countP ((told_twice.machine "Air").stands_for p.1 r) = 1) ∧
      ∀ e, Fits told_twice e →
        (∀ l ∈ (told_twice.machine "Air").state.last_run_at,
          ∃ l' ∈ ((told_twice.after e).machine "Air").state.last_run_at, l ≤ l') ∧
        ∀ a, e = .merge "Air" a →
          merge_runs ((told_twice.after e).machine "Air").state a.name (a.tellings.map Telling.entry)
            = (((told_twice.after e).machine "Air").state, false) := by
  refine history_merges ?_ "Air"
  have hnone : ∀ {t : ℕ}, t ∉ (∅ : Finset ℕ) := fun {t} => Finset.notMem_empty t
  have hstart : Reachable (histories.when Fits) no_runs := .start ⟨fun _ => ⟨rfl, rfl, rfl⟩, rfl⟩
  have hair := hstart.next (a := completes "Air" 10) ⟨⟨by decide, by decide, fun _ => hnone, fun _ l hl => by cases hl⟩, trivial, rfl⟩
  have hmini := hair.next (a := finds_nothing "Mini" 100) ⟨⟨by decide, by decide, fun _ => hnone, fun _ l hl => by cases hl⟩, trivial, rfl⟩
  have hanswer := hmini.next (a := Event.answer "Mini" 0 false) ⟨trivial, trivial, rfl⟩
  have hmerge := hanswer.next (a := Event.merge "Air" mini_answer) ⟨by
    change Room _ _ _
    unfold Room
    decide, ⟨mem_cons_self, by decide⟩, rfl⟩
  have hmore := hmerge.next (a := completes "Mini" 160) ⟨⟨by decide, by decide, fun t ht => by
    rcases mem_stands_record.mp ht with ⟨heq, -⟩ | ⟨u, hu, -⟩
    · exact absurd heq (by decide)
    · exact hnone hu, fun _ l hl => by cases hl; decide⟩, trivial, rfl⟩
  have hagain := hmore.next (a := Event.answer "Mini" 0 false) ⟨trivial, trivial, rfl⟩
  exact hagain.next (a := Event.merge "Air" ⟨"Mini", ((answered.after (completes "Mini" 160)).machine "Mini").answers 0 false⟩)
    ⟨by
      change Room _ _ _
      unfold Room
      decide, ⟨mem_cons_self, by decide⟩, rfl⟩

/-- The quiet check after it is recorded into the other machine's entry: the run this
machine was told of is gone from the history, and the same answer adds it again. -/
theorem told_run_is_lost :
    ∃ s, Reachable histories s ∧ mini_answer ∈ s.answers ∧ (∃ p ∈ (s.machine "Air").told, p.1 = "Mini" ∧ p.2.entry.at = 100 ∧ 100 ∈ p.2.runs) ∧
      (∃ oldest ∈ (s.machine "Air").state.history.head?, oldest.at < 100) ∧
      (s.machine "Air").state.history.countP ((s.machine "Air").stands_for "Mini" 100) = 0 ∧
      (merge_runs (s.machine "Air").state "Mini" (mini_answer.tellings.map Telling.entry)).2 = true := by
  have hstart : Reachable histories no_runs := .start ⟨fun _ => ⟨rfl, rfl, rfl⟩, rfl⟩
  have hair := hstart.next (a := completes "Air" 10) ⟨trivial, rfl⟩
  have hmini := hair.next (a := finds_nothing "Mini" 100) ⟨trivial, rfl⟩
  have hanswer := hmini.next (a := Event.answer "Mini" 0 false) ⟨trivial, rfl⟩
  have hmerge := hanswer.next (a := Event.merge "Air" mini_answer) ⟨⟨mem_cons_self, by decide⟩, rfl⟩
  have hcheck := hmerge.next (a := finds_nothing "Air" 110) ⟨trivial, rfl⟩
  refine ⟨_, hcheck, mem_cons_self, ⟨_, mem_cons_self, rfl, rfl, by decide⟩, ⟨outcome_at 10 COMPLETED, rfl, by decide⟩, ?_, ?_⟩
  · decide
  · decide

end Lpm.Jobs
