/-
Which processes belong to an automation run, as `runguard.rs` tells them.

A run's first process leads a session of its own. Its processes are known by that session,
by their parents, and by sweeps that note every descendant while the chain of parents is
whole. A process is named by its pid and its start. The table is the operating system's,
asked for anew each time; in what order it is walked makes no difference to what is found.
-/
import Lpm.Lib.Transition
import Lpm.Lib.Worklist
import Mathlib.Data.List.Nodup

set_option autoImplicit false

namespace Lpm.RunGuard

open List

/-- A pid and a start. -/
abbrev ProcId := ℕ × ℕ

/-- Every process's pid, parent and start. -/
abbrev Table := List (ℕ × ℕ × ℕ)

def MAX_DEPTH : ℕ := 64

/-- What is kept of a run. `horizon` is the newest start among all processes when the run
ended: a session whose leader is gone is the run's only for a caller that started before. -/
structure Mark where
  leader : ProcId
  seen : List ProcId
  horizon : Option ℕ

variable (t : Table)

def Table.get (pid : ℕ) : Option (ℕ × ℕ) :=
  (t.find? fun row => row.1 = pid).map (·.2)

/-- A process that still holds its pid and start. -/
def Table.live (p : ProcId) : Bool := (t.get p.1).any fun row => row.2 = p.2

def Table.ids : List ProcId := t.map fun row => (row.1, row.2.2)

def Table.children (parent : ℕ) : List ProcId :=
  Table.ids (t.filter fun row => row.2.1 = parent)

/-- The children that are not older than the parent. -/
def Table.follow (parent : ProcId) : List ProcId :=
  (t.children parent.1).filter fun child => parent.2 ≤ child.2

variable (m : Mark)

/-- Adds the live descendants of the run's live processes to `seen`, and drops the ones that
are gone. -/
def note_descendants (t : Table) : Mark :=
  let seen := m.seen.filter t.live
  let frontier := ([m.leader].filter t.live ++ seen).reverse
  { m with seen := Worklist.search t.follow (frontier.length + t.length) frontier seen }

/-- `record`: a sweep, and when the run is ending its last one. -/
def Mark.record (t : Table) (ending : Bool) : Mark :=
  let m := note_descendants m t
  if ending then { m with horizon := some ((t.map (·.2.2)).foldl max 0) } else m

/-- Whether the session's leader says that a caller in it is of the run. -/
def ours (t : Table) (alive : ℕ → Bool) (sid start : ℕ) : Bool :=
  match t.get sid with
  | some (_, leader_start) => leader_start = m.leader.2
  | none => if alive sid then false else m.horizon.all fun h => start ≤ h

/-- The walk up the parents, `depth` of them at most. -/
def climb (t : Table) (marks : List Mark) : ℕ → ℕ → ℕ → Bool
  | 0, _, _ => false
  | depth + 1, current, start =>
    if marks.any fun m => m.leader = (current, start) || m.seen.contains (current, start) then true
    else
      match t.get current with
      | none => false
      | some (parent, _) =>
        if parent ≤ 1 ∨ parent = current then false
        else
          match t.get parent with
          | none => false
          | some (_, parent_start) =>
            if parent_start > start then false else climb t marks depth parent parent_start

def belongs (pid : ℕ) (t : Table) (marks : List Mark) (session : Option ℕ) (alive : ℕ → Bool) :
    Bool :=
  match t.get pid with
  | none => true
  | some (_, start) =>
    (session.any fun sid =>
      (marks.filter fun m => m.leader.1 = sid).any fun m => ours m t alive sid start)
    || climb t marks MAX_DEPTH pid start

/-! ## The table -/

variable {t : Table}

theorem Table.mem_of_get {pid : ℕ} {row : ℕ × ℕ} (h : t.get pid = some row) :
    (pid, row) ∈ t := by
  rw [Table.get, Option.map_eq_some_iff] at h
  obtain ⟨found, hfound, hrow⟩ := h
  have hpid := find?_some hfound
  rw [decide_eq_true_eq] at hpid
  rw [← hpid, ← hrow]
  exact mem_of_find?_eq_some hfound

/-- Each pid is one process's. -/
theorem Table.get_of_mem (hnodup : (t.map (·.1)).Nodup) {pid : ℕ} {row : ℕ × ℕ}
    (h : (pid, row) ∈ t) : t.get pid = some row := by
  cases hget : t.get pid with
  | none =>
      rw [Table.get, Option.map_eq_none_iff, find?_eq_none] at hget
      exact absurd (hget _ h) (by simp)
  | some found =>
      have hmem := Table.mem_of_get hget
      have heq := inj_on_of_nodup_map hnodup hmem h rfl
      rw [Prod.mk.injEq] at heq
      rw [heq.2]

theorem Table.live_iff (t : Table) (p : ProcId) :
    t.live p = true ↔ ∃ parent, t.get p.1 = some (parent, p.2) := by
  rw [Table.live, Option.any_eq_true]
  constructor
  · rintro ⟨⟨parent, start⟩, hget, hstart⟩
    rw [decide_eq_true_eq] at hstart
    exact ⟨parent, by rw [hget, ← hstart]⟩
  · rintro ⟨parent, hget⟩
    exact ⟨(parent, p.2), hget, by simp⟩

theorem Table.mem_follow (t : Table) (parent child : ProcId) :
    child ∈ t.follow parent ↔ (child.1, parent.1, child.2) ∈ t ∧ parent.2 ≤ child.2 := by
  rw [Table.follow, mem_filter, Table.children, Table.ids, List.mem_map, decide_eq_true_eq]
  refine and_congr_left (fun _ => ⟨?_, fun h => ?_⟩)
  · rintro ⟨⟨pid, ppid, start⟩, hrow, rfl⟩
    rw [mem_filter, decide_eq_true_eq] at hrow
    rw [← hrow.2]
    exact hrow.1
  · exact ⟨_, mem_filter.mpr ⟨h, by simp⟩, rfl⟩

/-! ## What a sweep notes -/

theorem record_leader (m : Mark) (t : Table) (ending : Bool) : (m.record t ending).leader = m.leader := by
  cases ending <;> rfl

theorem record_seen (m : Mark) (t : Table) (ending : Bool) :
    (m.record t ending).seen = (note_descendants m t).seen := by
  cases ending <;> rfl

/-- What holds of the first process and of what was seen, as far as they live, and passes to
children holds of what is seen then. -/
theorem note_descendants_of_closed {m : Mark} {P : ProcId → Prop}
    (hleader : t.live m.leader = true → P m.leader) (hseen : ∀ p ∈ m.seen, t.live p = true → P p)
    (hchild : ∀ p, P p → ∀ child ∈ t.follow p, P child) :
    ∀ p ∈ (note_descendants m t).seen, P p := by
  have hkept : ∀ p ∈ m.seen.filter t.live, P p := by
    intro p hp
    rw [mem_filter] at hp
    exact hseen p hp.1 hp.2
  refine Worklist.search_of_closed hchild _ _ _ (fun p hp => ?_) hkept
  rw [mem_reverse, mem_append, mem_filter, mem_singleton] at hp
  rcases hp with ⟨rfl, hlive⟩ | hp
  · exact hleader hlive
  · exact hkept p hp

/-- A sweep keeps what it has seen and lives on. -/
theorem mem_note_descendants {m : Mark} {p : ProcId} (hp : p ∈ m.seen)
    (hlive : t.live p = true) : p ∈ (note_descendants m t).seen :=
  Worklist.mem_search_of_seen _ _ _ p (mem_filter.mpr ⟨hp, hlive⟩)

/-- A sweep sees the children of the first process and of what it has seen. -/
theorem note_descendants_closed {m : Mark} {p child : ProcId}
    (hp : p = m.leader ∧ t.live p = true ∨ p ∈ (note_descendants m t).seen)
    (hchild : child ∈ t.follow p) : child ∈ (note_descendants m t).seen := by
  have hall : ∀ p, ∀ child ∈ t.follow p, child ∈ t.ids := by
    intro p child h
    exact List.mem_map.mpr ⟨_, ((t.mem_follow p child).mp h).1, rfl⟩
  have hfuel : ∀ seen, Worklist.unseen t.ids seen ≤ t.length := fun seen =>
    Nat.le_trans (Worklist.unseen_le _ _) (Nat.le_of_eq (length_map _))
  refine Worklist.search_closed hall _ _ _ (Nat.add_le_add_left (hfuel _) _) p ?_ child hchild
  rcases hp with ⟨rfl, hlive⟩ | hp
  · exact .inl (by simp [mem_filter, hlive])
  · by_cases hold : p ∈ m.seen.filter t.live
    · exact .inl (by rw [mem_reverse, mem_append]; exact .inr hold)
    · exact .inr ⟨hp, hold⟩

/-! ## The processes of a computer

Around one automation run: forks, execs, exits, new sessions,
and the sweeps of the run's watch, in any order.

What the operating system promises is in the guards. A new process never gets the pid of a
process or of a session that still has one, so a pid is given again only once nobody goes by
it. The children of a process that exits become children of init, pid 1, which never exits.
A session is led by the process that made it and passed on to its children; a process that
leads one cannot make another. -/

/-- A live process. What stands below its session is true of it and known to nobody: that it
descends from the run's first process, that the session it is in is the one that process
made, and that some sweep saw its parents up to the run. -/
structure Process where
  pid : ℕ
  ppid : ℕ
  start : ℕ
  session : ℕ
  kin : Prop
  own : Prop
  swept : Prop

def Process.id (p : Process) : ProcId := (p.pid, p.start)

def Process.row (p : Process) : ℕ × ℕ × ℕ := (p.pid, p.ppid, p.start)

/-- The state of the computer, the mark of the run, and the start of the last process that
had each pid. -/
structure State where
  processes : List Process
  mark : Mark
  last : ℕ → Option ℕ

variable (s : State)

def State.table : Table := s.processes.map Process.row

def State.alive (pid : ℕ) : Bool := s.processes.any fun p => p.pid = pid

variable (p : Process)

/-- What the socket is told about a caller. -/
def State.belongs : Bool :=
  RunGuard.belongs p.pid s.table [s.mark] (some p.session) s.alive

/-- The chain of parents up to the run: to its first process, which leads the run's own
session, or to one whose chain was seen before. -/
inductive Chained (ps : List Process) : Process → Prop
  | first {p : Process} (hp : p ∈ ps) (hown : p.own) (hleads : p.session = p.pid) : Chained ps p
  | again {p : Process} (hp : p ∈ ps) (hswept : p.swept) : Chained ps p
  | child {q p : Process} (hq : Chained ps q) (hp : p ∈ ps) (hparent : p.ppid = q.pid) :
      Chained ps p

/-! ## The steps -/

inductive Event where
  | fork (parent : Process) (pid start : ℕ)
  | exec (p : Process)
  | exit (p : Process)
  | setsid (p : Process)
  | sweep
  | finish

def Process.fork (parent : Process) (pid start : ℕ) : Process :=
  { parent with pid, ppid := parent.pid, start, swept := False }

/-- A process after the one with a pid exited. -/
def Process.orphan (gone : ℕ) (p : Process) : Process :=
  { p with ppid := if p.ppid = gone then 1 else p.ppid }

/-- A process after the one with a pid made a session. -/
def Process.lead (leads : ℕ) (p : Process) : Process :=
  { p with
    session := if p.pid = leads then p.pid else p.session
    own := p.pid ≠ leads ∧ p.own }

/-- A process after a sweep. -/
def Process.sweep (ps : List Process) (p : Process) : Process :=
  { p with swept := p.swept ∨ Chained ps p }

def State.fork (parent : Process) (pid start : ℕ) : State :=
  { s with
    processes := parent.fork pid start :: s.processes
    last := Function.update s.last pid (some start) }

def State.exit : State :=
  { s with processes := (s.processes.filter fun q => q.pid ≠ p.pid).map (Process.orphan p.pid) }

def State.setsid : State :=
  { s with processes := s.processes.map (Process.lead p.pid) }

/-- The watch looks: `ending` when the run's first process is done with. -/
def State.record (ending : Bool) : State :=
  { s with
    processes := s.processes.map (Process.sweep s.processes)
    mark := s.mark.record s.table ending }

def step : Event → State → Prop
  | .fork parent pid start, s' =>
    parent ∈ s.processes ∧ 1 < pid ∧ (∀ p ∈ s.processes, p.pid ≠ pid ∧ p.session ≠ pid) ∧
      (∀ before, s.last pid = some before → before ≤ start) ∧ s' = s.fork parent pid start
  | .exec p, s' => p ∈ s.processes ∧ s' = s
  | .exit p, s' => p ∈ s.processes ∧ 1 < p.pid ∧ s' = s.exit p
  | .setsid p, s' => p ∈ s.processes ∧ p.session ≠ p.pid ∧ s' = s.setsid p
  | .sweep, s' => s.mark.horizon = none ∧ s' = s.record false
  | .finish, s' => s.mark.horizon = none ∧ s' = s.record true

/-- The run's first process has just started, in a session of its own. -/
structure Started (s : State) : Prop where
  nodup : (s.processes.map (·.pid)).Nodup
  first : ∃ p ∈ s.processes, p.id = s.mark.leader
  leads : ∀ p ∈ s.processes, p.id = s.mark.leader →
    1 < p.pid ∧ p.session = p.pid ∧ p.own ∧ p.kin
  others : ∀ p ∈ s.processes, p.id ≠ s.mark.leader →
    ¬p.kin ∧ ¬p.own ∧ p.session ≠ s.mark.leader.1
  childless : ∀ p ∈ s.processes, p.ppid ≠ s.mark.leader.1
  parents : ∀ p ∈ s.processes, p.ppid ≤ 1 ∨ ∃ q ∈ s.processes, q.pid = p.ppid
  unswept : ∀ p ∈ s.processes, ¬p.swept
  last : ∀ p ∈ s.processes, s.last p.pid = some p.start
  unseen : s.mark.seen = []
  running : s.mark.horizon = none

def processes : Transition.System State Event where
  init := Started
  step := step

/-! ## The table is the processes' -/

variable {s : State}

theorem State.table_nodup (hnodup : (s.processes.map (·.pid)).Nodup) :
    (s.table.map (·.1)).Nodup := by
  rw [State.table, List.map_map]
  exact hnodup

theorem State.mem_table {row : ℕ × ℕ × ℕ} :
    row ∈ s.table ↔ ∃ p ∈ s.processes, p.row = row :=
  List.mem_map

theorem State.get_of_mem (hnodup : (s.processes.map (·.pid)).Nodup) {p : Process}
    (hp : p ∈ s.processes) : s.table.get p.pid = some (p.ppid, p.start) :=
  Table.get_of_mem (State.table_nodup hnodup) (State.mem_table.mpr ⟨p, hp, rfl⟩)

theorem State.of_get {pid ppid start : ℕ} (h : s.table.get pid = some (ppid, start)) :
    ∃ p ∈ s.processes, p.pid = pid ∧ p.ppid = ppid ∧ p.start = start := by
  obtain ⟨p, hp, hrow⟩ := State.mem_table.mp (Table.mem_of_get h)
  simp only [Process.row, Prod.mk.injEq] at hrow
  exact ⟨p, hp, hrow⟩

theorem State.live_iff (hnodup : (s.processes.map (·.pid)).Nodup) (id : ProcId) :
    s.table.live id = true ↔ ∃ p ∈ s.processes, p.id = id := by
  rw [Table.live_iff]
  constructor
  · rintro ⟨parent, hget⟩
    obtain ⟨p, hp, hpid, -, hstart⟩ := State.of_get hget
    exact ⟨p, hp, by rw [Process.id, hpid, hstart]⟩
  · rintro ⟨p, hp, rfl⟩
    exact ⟨p.ppid, State.get_of_mem hnodup hp⟩

theorem State.mem_follow {parent child : ProcId} (h : child ∈ s.table.follow parent) :
    ∃ p ∈ s.processes, p.id = child ∧ p.ppid = parent.1 ∧ parent.2 ≤ p.start := by
  obtain ⟨hrow, hle⟩ := (Table.mem_follow _ _ _).mp h
  obtain ⟨p, hp, hrow⟩ := State.mem_table.mp hrow
  simp only [Process.row, Prod.mk.injEq] at hrow
  refine ⟨p, hp, ?_, hrow.2.1, hrow.2.2 ▸ hle⟩
  rw [Process.id, hrow.1, hrow.2.2]

theorem State.follow_of_mem {p q : Process} (hp : p ∈ s.processes)
    (hparent : p.ppid = q.pid) (hstart : q.start ≤ p.start) : p.id ∈ s.table.follow q.id :=
  (Table.mem_follow _ _ _).mpr
    ⟨State.mem_table.mpr ⟨p, hp, by rw [Process.row, hparent]; rfl⟩, hstart⟩

/-- The pids of the live are distinct. -/
theorem eq_of_pid {ps : List Process} (hnodup : (ps.map (·.pid)).Nodup) {p q : Process}
    (hp : p ∈ ps) (hq : q ∈ ps) (hpid : p.pid = q.pid) : p = q :=
  inj_on_of_nodup_map hnodup hp hq hpid

end Lpm.RunGuard
