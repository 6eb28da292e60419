/-
What a pane's agent reports of itself: the entries of `status.rs` and the agents of
`agentkind.rs`, told apart by the prefix of their keys.

Times are milliseconds, as the source has them: whole numbers that may be anything.
-/
import Lpm.Lib.Transition
import Mathlib.Data.Int.Notation

set_option autoImplicit false

namespace Lpm.Status

/-! ## Agents -/

inductive AgentKind where
  | claude
  | codex
  | gemini
  | cursor
  | open_code
  | omp
  deriving DecidableEq

def AgentKind.all : List AgentKind := [.claude, .codex, .gemini, .cursor, .open_code, .omp]

def AgentKind.key_prefix : AgentKind → String
  | .claude => "claude_code_"
  | .codex => "codex_"
  | .gemini => "gemini_"
  | .cursor => "cursor_"
  | .open_code => "opencode_"
  | .omp => "omp_"

/-- Whether its keys name a session rather than the pane. -/
def AgentKind.keyed_by_session : AgentKind → Bool
  | .claude | .gemini | .open_code | .omp => true
  | .codex | .cursor => false

/-- `str::starts_with`. -/
def starts_with (s start : String) : Bool := start.toList.isPrefixOf s.toList

def AgentKind.of_key (key : String) : Option AgentKind :=
  AgentKind.all.find? fun agent => starts_with key agent.key_prefix

/-- Whether an agent's hooks report under `key`. -/
def is_agent_key (key : String) : Bool := (AgentKind.of_key key).isSome

/-! ## Entries -/

def STATUS_RUNNING : String := "Running"
def STATUS_DONE : String := "Done"
def STATUS_WAITING : String := "Waiting"
def STATUS_ERROR : String := "Error"

structure StatusEntry where
  key : String
  value : String
  icon : String
  color : String
  priority : ℤ
  timestamp : ℤ
  agent_pid : ℤ
  pane_id : String
  turn_start : ℤ
  ended_at : ℤ
  held : Bool
  queued : ℕ
  reported_at : ℤ
  reporter_pid : ℤ
  tool : Bool
  askers : List String
  form : Bool
  compact : Bool
  seen_at : ℤ
  revived : Bool
  deriving DecidableEq

/-- `StatusEntry::default`. -/
def StatusEntry.default : StatusEntry :=
  { key := "", value := "", icon := "", color := "", priority := 0, timestamp := 0, agent_pid := 0,
    pane_id := "", turn_start := 0, ended_at := 0, held := false, queued := 0, reported_at := 0,
    reporter_pid := 0, tool := false, askers := [], form := false, compact := false, seen_at := 0,
    revived := false }

def MAIN_ASKER : String := "main"

/-- A Waiting a sub-agent raised, which the main thread's own reports don't answer. -/
def StatusEntry.sub_agent_asking (e : StatusEntry) : Bool :=
  e.value = STATUS_WAITING && e.askers.any fun a => a ≠ MAIN_ASKER

/-- A state an agent holds only while something is happening right now. -/
def is_live (value : String) : Bool := value = STATUS_RUNNING || value = STATUS_WAITING

/-! ## Dones that are held

They are held until the work they report is over: `donehold.rs`, with the count of reports
that `status.rs` keeps and what `socketsrv.rs` does around both.

Every report comes in on a thread of its own, every hold has a thread that looks at it
again and again, and the end of a session is a thread too. A thread locks what it needs
for one statement at a time, so a step here is what a thread does between two locks, and
any thread may go next. What a check sees of the tab, the clock and the sub-agents is
read from elsewhere and may be anything. -/

/-! ## The verdict -/

def GRACE_MS : ℤ := 1500
def WAIT_CAP_MS : ℤ := 15 * 60000
def DRAW_CAP_MS : ℤ := 60000
def DRAWING_MS : ℤ := 1000

/-- What may still continue the work a Done reports. -/
structure Why where
  waits : Bool
  drawing : Bool
  deriving DecidableEq

/-- A project and the key an agent reports under. -/
abbrev Id := String × String

/-- A Done that is held. The last field is no part of the program: it remembers which of
its agent's reports the Done was. -/
structure Pending where
  token : ℕ
  rev : ℕ
  since : ℤ
  why : Why
  done : StatusEntry
  was_running : Bool
  extended : Bool
  own : ℕ
  deriving DecidableEq

structure Observed where
  age : ℤ
  rev_moved : Bool
  taken_over : Bool
  gone : Bool
  children : Bool
  children_quiet : Option ℤ
  asking : Bool
  drawing : Bool
  why : Why
  capped_drawing : Bool

variable (o : Observed)

def Observed.handing_back : Bool :=
  o.children_quiet.any fun ago => ago < GRACE_MS || (o.drawing && ago < DRAW_CAP_MS)

def Observed.drawing_on : Bool :=
  o.why.drawing && o.drawing && !(o.capped_drawing && o.age ≥ DRAW_CAP_MS)

/-- Whether the work goes on past the Stop. -/
def Observed.work_goes_on : Bool :=
  o.children || o.asking || o.handing_back || o.drawing_on

inductive Verdict where
  | hold
  | drop
  | publish
  deriving DecidableEq

def verdict : Verdict :=
  if o.rev_moved || o.taken_over || o.gone then .drop
  else
    let waiting := o.why.waits && o.age < WAIT_CAP_MS
    if o.age < GRACE_MS || waiting || o.work_goes_on then .hold else .publish

/-- What a thread reads outside of the holds and the counts: the clock, when the pane drew
last, who is live on it, what is shown for the key, the sub-agents, and the pane ids that
reconnected tabs left behind. -/
structure Seen where
  now : ℤ
  last_output : Option ℤ
  live_on_pane : List StatusEntry
  shown : Option StatusEntry
  busy : Bool
  quiet_since : Option ℤ
  current_pane : String → String

/-- The second half of `observe`, behind the lock on the holds. -/
def observe (agent_key : String) (p : Pending) (rev : ℕ) (seen : Seen) : Observed :=
  let agent := AgentKind.of_key agent_key
  { age := seen.now - p.since
    rev_moved := rev ≠ p.rev
    taken_over := agent.any fun agent => seen.live_on_pane.any fun e =>
      e.key ≠ agent_key && starts_with e.key agent.key_prefix
    gone := p.was_running && !seen.shown.any fun e => is_live e.value
    children := seen.busy
    children_quiet := seen.quiet_since.map fun at_ => seen.now - at_
    asking := seen.shown.any fun e =>
      e.value = STATUS_WAITING && (e.sub_agent_asking || e.timestamp ≥ p.since)
    drawing := seen.last_output.any fun at_ => seen.now - at_ < DRAWING_MS
    why := p.why
    capped_drawing := agent = some .claude }

/-- The Done a hold lets go of. -/
def released (seen : Seen) (p : Pending) : StatusEntry :=
  { p.done with
    pane_id := seen.current_pane p.done.pane_id
    timestamp := if p.extended then seen.now else p.done.timestamp }

/-! ## The holds -/

/-- What was published of a hold: of which agent, by which token, which of the agent's
reports it was, and how many there were by then. -/
structure Publication where
  id : Id
  token : ℕ
  own : ℕ
  rev : ℕ
  entry : StatusEntry

/-- What the threads share. -/
structure Shared where
  held : List (Id × Pending)
  revs : Id → ℕ
  next : ℕ
  published : List Publication

variable (id : Id)

def remove (held : List (Id × Pending)) : List (Id × Pending) :=
  held.filter fun entry => entry.1 ≠ id

def insert (p : Pending) (held : List (Id × Pending)) : List (Id × Pending) :=
  (id, p) :: remove id held

/-- What holds for `id`, while it is still the hold of this token. -/
def holding (held : List (Id × Pending)) (id : Id) (token : ℕ) : Option Pending :=
  (held.lookup id).filter fun p => p.token = token

def extend (token : ℕ) (held : List (Id × Pending)) : List (Id × Pending) :=
  held.map fun entry =>
    if entry.1 = id ∧ entry.2.token = token then (id, { entry.2 with extended := true }) else entry

/-- Count a report. -/
def note_report (revs : Id → ℕ) : Id → ℕ := Function.update revs id (revs id + 1)

/-! ## The threads -/

/-- Where a thread is. -/
inductive Thread where
  /-- A Done was counted and is going to be held. -/
  | reporting (id : Id) (own : ℕ) (done : StatusEntry) (why : Why)
  /-- `hold` has read the count and not locked the holds yet. -/
  | entering (id : Id) (p : Pending)
  /-- A check between two looks. -/
  | sleeping (id : Id) (token : ℕ)
  /-- `observe` has read the hold. -/
  | looking (id : Id) (p : Pending)
  /-- A check behind its verdict. -/
  | extending (id : Id) (token : ℕ)
  | dropping (id : Id) (token : ℕ)
  | taking (id : Id) (token : ℕ)
  /-- `end_session` has taken the hold. -/
  | ending (id : Id) (p : Pending)
  /-- A Done on its way out. -/
  | releasing (id : Id) (p : Pending)

/-- What a thread does next, and what it leaves behind. -/
def Thread.advance (sh : Shared) (seen : Seen) : Thread → Shared × List Thread
  | .reporting id own done why =>
    let p : Pending := {
      token := sh.next, rev := sh.revs id, since := seen.now, why, done
      was_running := seen.shown.any fun e => e.value = STATUS_RUNNING
      extended := false, own }
    ({ sh with next := sh.next + 1 }, [.entering id p])
  | .entering id p => ({ sh with held := insert id p sh.held }, [.sleeping id p.token])
  | .sleeping id token =>
    match holding sh.held id token with
    | some p => (sh, [.looking id p])
    | none => (sh, [])
  | .looking id p =>
    let o := observe id.2 p (sh.revs id) seen
    match verdict o with
    | .hold => (sh, [if o.work_goes_on then .extending id p.token else .sleeping id p.token])
    | .drop => (sh, [.dropping id p.token])
    | .publish => (sh, [.taking id p.token])
  | .extending id token => ({ sh with held := extend id token sh.held }, [.sleeping id token])
  | .dropping id token =>
    match holding sh.held id token with
    | some _ => ({ sh with held := remove id sh.held }, [])
    | none => (sh, [])
  | .taking id token =>
    match holding sh.held id token with
    | some p => ({ sh with held := remove id sh.held }, [.releasing id p])
    | none => (sh, [])
  | .ending id p =>
    if !p.why.waits && !p.why.drawing && sh.revs id = p.rev then (sh, [.releasing id p])
    else (sh, [])
  | .releasing id p =>
    ({ sh with published := sh.published
        ++ [{ id, token := p.token, own := p.own, rev := sh.revs id, entry := released seen p }] }, [])

structure State where
  sh : Shared
  threads : List Thread

/-- `report` is any report that counts and is not held, `done` one that is going to be held;
that one counts unless it is not the agent's own. -/
inductive Action where
  | report (id : Id)
  | done (id : Id) (counts : Bool) (done : StatusEntry) (why : Why)
  | cancel (id : Id)
  | end_session (id : Id)
  | advance (thread : ℕ) (seen : Seen)

def step (s : State) : Action → Option State
  | .report id => some { s with sh.revs := note_report id s.sh.revs }
  | .done id counts done why =>
    let revs := if counts then note_report id s.sh.revs else s.sh.revs
    some { sh := { s.sh with revs }, threads := s.threads ++ [.reporting id (revs id) done why] }
  | .cancel id => some { s with sh.held := remove id s.sh.held }
  | .end_session id =>
    match s.sh.held.lookup id with
    | none => some s
    | some p => some {
        sh := { s.sh with held := remove id s.sh.held }, threads := s.threads ++ [.ending id p] }
  | .advance thread seen =>
    match s.threads[thread]? with
    | none => none
    | some t =>
      let (sh, behind) := t.advance s.sh seen
      some { sh, threads := s.threads.take thread ++ behind ++ s.threads.drop (thread + 1) }

def initial : State :=
  { sh := { held := [], revs := fun _ => 0, next := 0, published := [] }, threads := [] }

def done_hold : Transition.System State Action where
  init s := s = initial
  step s a s' := step s a = some s'

end Lpm.Status
