/-
Which services of a start wait for their dependencies, and when each one goes:
`readyplan.rs`.

A plan holds a node for every service of the start, in dependency order, behind the
services that run already and have a check one of them waits for. One call of `step`
goes over the nodes twice: the results of the probes first, and then the nodes that wait
for nothing any more.

Times are nanoseconds since some start.
-/
import Mathlib.Data.List.Nodup

set_option autoImplicit false

namespace Lpm.Services

/-! ## The plan -/

def NANOS : ℕ := 1000000000

/-- `LATE_LIMIT`. -/
def LATE_LIMIT : ℕ := 600 * NANOS

/-- `readyspec::MAX_TIMEOUT_SECS`. -/
def MAX_TIMEOUT_SECS : ℕ := 3600

/-- A ready check as `ReadySpec::resolve` gives it: its timeout is in range. What it
probes is not looked at here. -/
structure ReadyCheck where
  secs : ℕ
  in_range : 1 ≤ secs ∧ secs ≤ MAX_TIMEOUT_SECS

def ReadyCheck.timeout (c : ReadyCheck) : ℕ := c.secs * NANOS

structure Node where
  name : String
  deps : List String
  check : Option ReadyCheck

inductive ProbeResult where
  | pass
  | wait
  | ended
  deriving DecidableEq

inductive State where
  | pending
  | checking (since : ℕ)
  | ready
  | late (since : ℕ) (reason : String)
  | gave_up (reason : String)
  | released
  deriving DecidableEq

/-- The state of every node, by its name. -/
abbrev States := String → Option State

structure Plan where
  nodes : List Node
  states : States

structure Step where
  launch : List String
  changed : Bool
  done : Bool

/-! ## A new plan -/

/-- What `Plan::new` has put together so far. -/
structure Building where
  nodes : List Node
  states : States
  seen : List String

def Building.add (b : Building) (node : Node) (state : State) : Building :=
  { b with nodes := b.nodes ++ [node], states := Function.update b.states node.name (some state) }

section
variable (batch running : List String) (deps_of : String → List String)
  (check_of : String → Option ReadyCheck) (now : ℕ)

/-- A dependency outside the batch that runs already and has a check gates too. -/
def watch_running (b : Building) (dep : String) : Building :=
  if dep ∉ batch ∧ dep ∈ running ∧ dep ∉ b.seen then
    let b := { b with seen := dep :: b.seen }
    match check_of dep with
    | some check => b.add { name := dep, deps := [], check := some check } (.checking now)
    | none => b
  else b

/-- The loop over the dependencies of the batch. -/
def running_nodes : Building :=
  (batch.flatMap deps_of).foldl (watch_running batch running check_of now)
    { nodes := [], states := fun _ => none, seen := [] }

/-- Whether a service waits for one of its dependencies. -/
def waits (gated deferred : List String) (name : String) : Bool :=
  (deps_of name).any fun d =>
    decide (d ∈ gated) || decide (d ∈ deferred) || (decide (d ∈ batch) && (check_of d).isSome)

/-- One turn of the loop over the batch. -/
def add_service (gated : List String) (s : Building × List String) (name : String) :
    Building × List String :=
  let (b, deferred) := s
  let check := check_of name
  let wait := waits batch deps_of check_of gated deferred name
  let state := if wait then .pending else if check.isSome then .checking now else .ready
  let deferred := if wait then name :: deferred else deferred
  if name ∈ b.seen then (b, deferred)
  else
    ({ b with seen := name :: b.seen }.add { name, deps := deps_of name, check } state, deferred)

/-- `Plan::new`. -/
def Plan.new : Option Plan :=
  let b := running_nodes batch running deps_of check_of now
  if b.nodes.isEmpty && batch.all fun name => (check_of name).isNone then none
  else
    let gated := b.nodes.map Node.name
    let b := (batch.foldl (add_service batch deps_of check_of now gated) (b, [])).1
    some { nodes := b.nodes, states := b.states }

end

/-- `Plan::deferred`. -/
def Plan.deferred (p : Plan) : List String :=
  (p.nodes.map Node.name).filter fun name => p.states name == some .pending

/-! ## A step -/

/-- `Plan::released`. -/
def released (states : States) (name : String) : Bool :=
  match states name with
  | some .pending | some (.checking _) => false
  | _ => true

/-- The timeout of a node's check. -/
def Node.timeout (node : Node) : ℕ := node.check.elim 0 ReadyCheck.timeout

/-- `format!("Not ready after {}s", timeout.as_secs())`. -/
def not_ready_after (timeout : ℕ) : String := "Not ready after " ++ toString (timeout / NANOS) ++ "s"

variable (now : ℕ)

/-- Where the result of a probe takes a node. -/
def next_state (node : Node) (state : State) (result : ProbeResult) : State :=
  match state, result with
  | .checking _, .pass | .late .., .pass => .ready
  | .checking _, .ended | .late .., .ended => .released
  | .checking since, .wait =>
    if now - since ≥ node.timeout then .late since (not_ready_after node.timeout) else state
  | .late since reason, .wait =>
    if now - since ≥ node.timeout + LATE_LIMIT then .gave_up reason else state
  | _, _ => state

/-- One turn of the first loop, with whether anything changed. -/
def probe_node (results : String → Option ProbeResult) (s : States × Bool) (node : Node) :
    States × Bool :=
  match s.1 node.name with
  | none => s
  | some state =>
    let next := next_state now node state ((results node.name).getD .wait)
    if next = state then s else (Function.update s.1 node.name (some next), true)

/-- One turn of the second loop, with what was launched. -/
def release_node (s : States × List String) (node : Node) : States × List String :=
  if s.1 node.name = some .pending ∧ node.deps.all (released s.1) then
    (Function.update s.1 node.name (some (if node.check.isSome then .checking now else .ready)),
      s.2 ++ [node.name])
  else s

def is_done : State → Bool
  | .ready | .released | .gave_up _ => true
  | _ => false

/-- `Plan::step`. Every state is that of a node. -/
def Plan.step (p : Plan) (now : ℕ) (results : String → Option ProbeResult) : Plan × Step :=
  let (states, changed) := p.nodes.foldl (probe_node now results) (p.states, false)
  let (states, launch) := p.nodes.foldl (release_node now) (states, [])
  ({ p with states }, {
    launch
    changed := changed || !launch.isEmpty
    done := (p.nodes.filterMap fun node => states node.name).all is_done })

/-- A call of `step`. -/
structure Call where
  now : ℕ
  results : String → Option ProbeResult

/-- The calls of a start in order, with everything they launched. -/
def Plan.run (p : Plan) : List Call → Plan × List String
  | [] => (p, [])
  | call :: calls =>
    let (p, step) := p.step call.now call.results
    let (p, launched) := p.run calls
    (p, step.launch ++ launched)

end Lpm.Services
