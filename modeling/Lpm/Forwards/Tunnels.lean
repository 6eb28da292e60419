/-
Port tunnels: the requests that open them, the calls that take them down, and the exit.

A tunnel is an ssh child. A request decides on one, looks whether the port has one already,
spawns the child, waits for its listener and registers it, and then stays with it until the
child dies. A removal and a stop take tunnels out of the map first and kill them after. All
of this goes on at once, each step under the one lock it takes, and only a registration
takes two: it holds the generations while it takes its child off the starting list and
pushes. What is suggested to the user is left out: it opens and closes nothing.

The map from projects to their tunnels is one list here, each tunnel with its project.
-/
import Lpm.Lib.Fallible
import Lpm.Lib.Transition

set_option autoImplicit false

open Transition

namespace Lpm.Forwards

open Function (update)

structure PortForward where
  local_port : Nat
  remote_port : Nat
  deriving DecidableEq

/-- A registered tunnel. -/
structure Forward (π : Type) where
  project : π
  id : Nat
  local_port : Nat
  remote_port : Nat
  pid : Nat

def Forward.port_forward {π : Type} (e : Forward π) : PortForward :=
  ⟨e.local_port, e.remote_port⟩

/-- A forward that was decided on, with the project's generation at that moment. -/
structure Request (π : Type) where
  project : π
  remote_port : Int
  local_port : Int
  epoch : Nat

/-- A request and the ssh it spawned. -/
structure Opening (π : Type) where
  request : Request π
  local_port : Nat
  pid : Nat

/-- Why there is no tunnel. -/
inductive Refusal where
  | invalid_remote_port
  | invalid_local_port
  | load_project (e : String)
  | not_remote
  | pick_local_port (e : String)
  | control_dir (e : String)
  | start_ssh (e : String)
  | quitting
  | not_listening (e tail : String)
  | stopped

/-- Where a call stands: a request, a removal or a stop. -/
inductive Phase (π : Type) where
  | unused
  | decided (r : Request π)
  /-- No tunnel was found for the port. -/
  | picks (r : Request π)
  | tracks (o : Opening π)
  | waits (o : Opening π)
  | late (o : Opening π) (e : String)
  | claims (o : Opening π) (id : Nat)
  /-- It has the generations and its child is its own again. -/
  | registers (o : Opening π) (id : Nat)
  | registered (o : Opening π) (id : Nat)
  | serves (o : Opening π) (id : Nat)
  | aborts (o : Opening π) (e : Refusal)
  /-- It waits for its child to be gone. -/
  | reaps (o : Opening π) (e : Refusal)
  | returned (result : Except Refusal PortForward)
  | bumped (project : π)
  | kills (pids : List Nat) (changed : Bool)
  | remembers
  | ended

inductive Exit where
  | running
  | begun (starting : List Nat)
  | bumped (starting : List Nat)
  | kills (pids : List Nat)
  | returned

inductive Proc where
  | unborn
  | alive
  | dead

/-- The app and its children. The last five are kept for the account: the child a call
spawned, the map as a request's look found it, the stops that came after a request was
decided, what became of the last write of the record since the launch, and what was open
when the exit began. -/
structure State (α π : Type) where
  phase : α → Phase π
  exit : Exit
  epochs : π → Option Nat
  epochs_lock : Option α
  forwards : List (Forward π)
  starting : List Nat
  counter : Nat
  record : π → List PortForward
  proc : Nat → Proc
  ssh : α → Option Nat
  seen : α → List (Forward π)
  stopped : α → α → Bool
  last_write : Option (Except String Unit)
  opened : π → List PortForward

inductive Act (π : Type) where
  | decide (project : π) (remote_port local_port : Int)
  | check (info : Except String Bool)
  | spawn (can_bind : Bool) (free : Except String Nat) (dir : Except String Unit)
      (child : Except String Nat)
  | track_starting
  | wait_for_local_listen (io : Except String Unit)
  | unstart (tail : String)
  | claim
  | register
  | remember (io : Except String Unit)
  | kill_own
  | wait_done
  | drop
  | remove (project : π) (local_port : Int)
  | stop (project : π)
  | drain
  | kill

inductive Event (α π : Type) where
  | of (a : α) (act : Act π)
  | begin_quit
  | bump_all
  | take_all
  | kill
  | return_
  | die (pid : Nat)

variable {α π : Type} [DecidableEq α] [DecidableEq π]

def Request.port (r : Request π) : Nat := r.remote_port.toNat

variable (s : State α π)

def State.go (a : α) (p : Phase π) : State α π :=
  { s with phase := update s.phase a p }

def State.quitting : Bool :=
  match s.exit with
  | .running => false
  | _ => true

variable (forwards : List (Forward π))

/-- The tunnels of one project. -/
def tunnels (project : π) : List (Forward π) :=
  forwards.filter (·.project = project)

def saved : π → List PortForward :=
  fun project => (tunnels forwards project).map Forward.port_forward

/-- `remember`: nothing once the app is quitting, and a write that fails is only warned of. -/
def State.remember (io : Except String Unit) : State α π :=
  if s.quitting then s
  else match io with
    | .error e => { s with last_write := some (.error e) }
    | .ok () => { s with record := saved s.forwards, last_write := some (.ok ()) }

def State.kill (pid : Nat) : State α π :=
  { s with proc := update s.proc pid .dead }

variable (r : Request π)

/-- The request up to its look for a tunnel. -/
def check (info : Except String Bool) (forwards : List (Forward π)) :
    Phase π :=
  if ¬ (1 ≤ r.remote_port ∧ r.remote_port ≤ 65535) then .returned (.error .invalid_remote_port)
  else if ¬ (0 ≤ r.local_port ∧ r.local_port ≤ 65535) then
    .returned (.error .invalid_local_port)
  else match info with
    | .error e => .returned (.error (.load_project e))
    | .ok false => .returned (.error .not_remote)
    | .ok true =>
      match (tunnels forwards r.project).find? (·.remote_port = r.port) with
      | some e => .returned (.ok e.port_forward)
      | none => .picks r

/-- The local port: the remote one where it is free, else any. -/
def choose_port (can_bind : Bool) (free : Except String Nat) :
    Except Refusal Nat :=
  if r.local_port = 0 then
    if can_bind then .ok r.port else free.mapError .pick_local_port
  else .ok r.local_port.toNat

def opening (can_bind : Bool) (free : Except String Nat)
    (dir : Except String Unit) (child : Except String Nat) : Except Refusal (Opening π) := do
  let local_port ← choose_port r can_bind free
  dir.mapError .control_dir
  let pid ← child.mapError .start_ssh
  return ⟨r, local_port, pid⟩

/-- The request of a project that is not at its end. -/
def Phase.request : Phase π → Option (Request π)
  | .decided r => some r
  | .picks r => some r
  | .tracks o => some o.request
  | .waits o => some o.request
  | .late o _ => some o.request
  | .claims o _ => some o.request
  | .registers o _ => some o.request
  | .registered o _ => some o.request
  | .serves o _ => some o.request
  | _ => none

/-- The calls a stop finds decided, for the account. -/
def State.stop (b : α) (project : π) : α → α → Bool :=
  update s.stopped b fun a =>
    match (s.phase a).request with
    | some r => decide (r.project = project)
    | none => false

/-- One step of a call. -/
def act (a : α) : Act π → Phase π → Option (State α π)
  | .decide project remote_port local_port, .unused =>
    if s.epochs_lock = none then
      let epoch := (s.epochs project).getD 0
      some { s.go a (.decided ⟨project, remote_port, local_port, epoch⟩) with
        epochs := update s.epochs project (some epoch) }
    else none
  | .check info, .decided r =>
    some { s.go a (check r info s.forwards) with seen := update s.seen a s.forwards }
  | .spawn can_bind free dir child, .picks r =>
    match opening r can_bind free dir child with
    | .error e => some (s.go a (.returned (.error e)))
    | .ok o =>
      match s.proc o.pid with
      | .unborn => some { s.go a (.tracks o) with
          proc := update s.proc o.pid .alive
          ssh := update s.ssh a (some o.pid) }
      | _ => none
  | .track_starting, .tracks o =>
    if s.quitting then some (s.go a (.aborts o .quitting))
    else some { s.go a (.waits o) with starting := s.starting ++ [o.pid] }
  | .wait_for_local_listen (.error e), .waits o => some (s.go a (.late o e))
  | .wait_for_local_listen (.ok ()), .waits o =>
    some { s.go a (.claims o s.counter) with counter := s.counter + 1 }
  | .unstart tail, .late o e =>
    let s' := { s with starting := s.starting.filter (· ≠ o.pid) }
    if o.pid ∈ s.starting then some (s'.go a (.aborts o (.not_listening e tail)))
    else some (s'.go a (.reaps o (.not_listening e tail)))
  | .claim, .claims o id =>
    let s' := { s with starting := s.starting.filter (· ≠ o.pid) }
    if s.epochs_lock = none then
      if o.pid ∉ s.starting then some (s'.go a (.reaps o .stopped))
      else if (s.epochs o.request.project).getD 0 ≠ o.request.epoch then
        some (s'.go a (.aborts o .stopped))
      else some { s'.go a (.registers o id) with epochs_lock := some a }
    else none
  | .register, .registers o id =>
    some { s.go a (.registered o id) with
      forwards := s.forwards ++ [⟨o.request.project, id, o.local_port, o.request.port, o.pid⟩]
      epochs_lock := none }
  | .remember io, .registered o id => some ((s.remember io).go a (.serves o id))
  | .kill_own, .aborts o e => some ((s.kill o.pid).go a (.reaps o e))
  | .wait_done, .reaps o e =>
    match s.proc o.pid with
    | .dead => some (s.go a (.returned (.error e)))
    | _ => none
  | .drop, .serves o id =>
    match s.proc o.pid with
    | .dead =>
      let kept := s.forwards.filter fun e => ¬ (e.project = o.request.project ∧ e.id = id)
      -- a tunnel that was taken out of the map before did not die on its own
      some ({ s with forwards := kept }.go a
        (if kept.length = s.forwards.length then .ended else .remembers))
    | _ => none
  | .remember io, .remembers => some ((s.remember io).go a .ended)
  | .remove project local_port, .unused =>
    let found := fun e : Forward π => decide (e.project = project ∧ (e.local_port : Int) = local_port)
    some ({ s with forwards := s.forwards.eraseP found }.go a
      (match s.forwards.find? found with
      | none => .kills [] false
      | some e => .kills [e.pid] true))
  | .stop project, .unused =>
    if s.epochs_lock = none then
      some { s.go a (.bumped project) with
        epochs := update s.epochs project (some ((s.epochs project).getD 0 + 1))
        stopped := s.stop a project }
    else none
  | .drain, .bumped project =>
    let pids := (tunnels s.forwards project).map Forward.pid
    some ({ s with forwards := s.forwards.filter (·.project ≠ project) }.go a
      (.kills pids (!pids.isEmpty)))
  | .kill, .kills (pid :: pids) changed => some ((s.kill pid).go a (.kills pids changed))
  | .remember io, .kills [] _ => some ((s.remember io).go a .ended)
  | _, _ => none

def step : Event α π → Option (State α π)
  | .of a x => act s a x (s.phase a)
  | .begin_quit =>
    match s.exit with
    | .running => some { s with
        exit := .begun s.starting, starting := [], opened := saved s.forwards }
    | _ => none
  | .bump_all =>
    match s.exit with
    | .begun starting =>
      if s.epochs_lock = none then
        some { s with exit := .bumped starting, epochs := fun p => (s.epochs p).map (· + 1) }
      else none
    | _ => none
  | .take_all =>
    match s.exit with
    | .bumped starting =>
      some { s with exit := .kills (s.forwards.map Forward.pid ++ starting), forwards := [] }
    | _ => none
  | .kill =>
    match s.exit with
    | .kills (pid :: pids) => some { s.kill pid with exit := .kills pids }
    | _ => none
  | .return_ =>
    match s.exit with
    | .kills [] => some { s with exit := .returned }
    | _ => none
  | .die pid =>
    match s.proc pid with
    | .alive => some (s.kill pid)
    | _ => none

variable (record : π → List PortForward)

/-- The app from its launch, with the record that the launch before left. -/
def app : System (State α π) (Event α π) where
  init s := (∀ a, s.phase a = .unused) ∧ s.exit = .running ∧ (∀ p, s.epochs p = none) ∧
    s.epochs_lock = none ∧ s.forwards = [] ∧ s.starting = [] ∧ s.counter = 0 ∧
    s.record = record ∧ (∀ pid, s.proc pid = .unborn) ∧ (∀ a, s.ssh a = none) ∧
    (∀ b a, s.stopped b a = false) ∧ s.last_write = none ∧ ∀ p, s.opened p = []
  step s e s' := step s e = some s'

/-! ## What the condition is about -/

/-- The call changed the map and has yet to write the record. -/
def Phase.unwritten : Phase π → Bool
  | .registered _ _ => true
  | .kills _ changed => changed
  | .remembers => true
  | _ => false

/-- Nothing is to be written: the last write went through, or there was none since the launch
and the launch before left nothing. -/
def State.settled : Prop :=
  (s.last_write = some (.ok ()) ∨ s.last_write = none ∧ ∀ p, record p = []) ∧
    ∀ a, (s.phase a).unwritten = false

/-- A tunnel is registered while none that came since the request's look is there for the
port, the exit begins with nothing to be written, and it returns with no other call still
about to kill what it took. -/
def Spared (s : State α π) : Event α π → Prop
  | .of a .register => ∀ o id, s.phase a = .registers o id →
    ∀ e ∈ tunnels s.forwards o.request.project, e ∉ s.seen a → e.remote_port ≠ o.request.port
  | .begin_quit => s.settled record
  | .return_ => ∀ a pids changed, s.phase a = .kills pids changed → pids = []
  | _ => True

/-- From its look to its registration. -/
def Phase.looked : Phase π → Option (Request π)
  | .decided _ => none
  | .registered _ _ => none
  | .serves _ _ => none
  | p => p.request

/-! ## What a step of a call does -/

/-- On the starting list, unless the exit took it. -/
def Phase.starting : Phase π → Option (Opening π)
  | .waits o => some o
  | .late o _ => some o
  | .claims o _ => some o
  | _ => none

/-- What the record and the account of its writes become. -/
def Wrote (last_write : Option (Except String Unit)) : Prop :=
  s.quitting = true ∧ record = s.record ∧ last_write = s.last_write ∨
  s.quitting = false ∧ last_write = some (.ok ()) ∧ record = saved s.forwards ∨
  s.quitting = false ∧ (∃ e, last_write = some (.error e)) ∧ record = s.record

inductive Took (s : State α π) (a : α) : State α π → Prop
  | decide (r : Request π) (hunused : s.phase a = .unused) (hlock : s.epochs_lock = none)
      (hepoch : r.epoch = (s.epochs r.project).getD 0) :
      Took s a { s.go a (.decided r) with
        epochs := update s.epochs r.project (some r.epoch) }
  | looks (r : Request π) (hphase : s.phase a = .decided r)
      (hnone : ∀ e ∈ tunnels s.forwards r.project, e.remote_port ≠ r.port) :
      Took s a { s.go a (.picks r) with seen := update s.seen a s.forwards }
  | answers (r : Request π) (result : Except Refusal PortForward)
      (hphase : s.phase a = .decided r) :
      Took s a { s.go a (.returned result) with seen := update s.seen a s.forwards }
  | returns (result : Except Refusal PortForward)
      (hphase : (∃ r, s.phase a = .picks r) ∨
        ∃ o e, s.phase a = .reaps o e ∧ s.proc o.pid = .dead) :
      Took s a (s.go a (.returned result))
  | spawn (o : Opening π) (hphase : s.phase a = .picks o.request)
      (hnew : s.proc o.pid = .unborn) :
      Took s a { s.go a (.tracks o) with
        proc := update s.proc o.pid .alive
        ssh := update s.ssh a (some o.pid) }
  | refuse (o : Opening π) (hphase : s.phase a = .tracks o) (hquitting : s.quitting = true) :
      Took s a (s.go a (.aborts o .quitting))
  | track (o : Opening π) (hphase : s.phase a = .tracks o) (hquitting : s.quitting = false) :
      Took s a { s.go a (.waits o) with starting := s.starting ++ [o.pid] }
  | late (o : Opening π) (e : String) (hphase : s.phase a = .waits o) :
      Took s a (s.go a (.late o e))
  | listens (o : Opening π) (hphase : s.phase a = .waits o) :
      Took s a { s.go a (.claims o s.counter) with counter := s.counter + 1 }
  | aborts (o : Opening π) (e : Refusal) (hphase : (s.phase a).starting = some o)
      (hours : o.pid ∈ s.starting) :
      Took s a { s.go a (.aborts o e) with starting := s.starting.filter (· ≠ o.pid) }
  | robbed (o : Opening π) (e : Refusal) (hphase : (s.phase a).starting = some o)
      (hours : o.pid ∉ s.starting) :
      Took s a { s.go a (.reaps o e) with starting := s.starting.filter (· ≠ o.pid) }
  | claim (o : Opening π) (id : Nat) (hphase : s.phase a = .claims o id)
      (hlock : s.epochs_lock = none) (hours : o.pid ∈ s.starting)
      (hepoch : (s.epochs o.request.project).getD 0 = o.request.epoch) :
      Took s a { s.go a (.registers o id) with
        starting := s.starting.filter (· ≠ o.pid), epochs_lock := some a }
  | register (o : Opening π) (id : Nat) (hphase : s.phase a = .registers o id) :
      Took s a { s.go a (.registered o id) with
        forwards := s.forwards ++ [⟨o.request.project, id, o.local_port, o.request.port, o.pid⟩]
        epochs_lock := none }
  | serves (o : Opening π) (id : Nat) (hphase : s.phase a = .registered o id)
      {record : π → List PortForward} {last_write : Option (Except String Unit)}
      (hwrote : Wrote s record last_write) :
      Took s a ({ s with record, last_write }.go a (.serves o id))
  | ended (hphase : s.phase a = .remembers ∨ ∃ changed, s.phase a = .kills [] changed)
      {record : π → List PortForward} {last_write : Option (Except String Unit)}
      (hwrote : Wrote s record last_write) :
      Took s a ({ s with record, last_write }.go a .ended)
  | kill_own (o : Opening π) (e : Refusal) (hphase : s.phase a = .aborts o e) :
      Took s a ((s.kill o.pid).go a (.reaps o e))
  | drop (o : Opening π) (id : Nat) (hphase : s.phase a = .serves o id)
      (hdead : s.proc o.pid = .dead) {kept : List (Forward π)}
      (hkept : kept = s.forwards.filter fun e => ¬ (e.project = o.request.project ∧ e.id = id)) :
      Took s a ({ s with forwards := kept }.go a
        (if kept.length = s.forwards.length then .ended else .remembers))
  | remove (found : Forward π → Bool) (hphase : s.phase a = .unused) :
      Took s a ({ s with forwards := s.forwards.eraseP found }.go a
        (match s.forwards.find? found with
        | none => .kills [] false
        | some e => .kills [e.pid] true))
  | stop (project : π) (hphase : s.phase a = .unused) (hlock : s.epochs_lock = none) :
      Took s a { s.go a (.bumped project) with
        epochs := update s.epochs project (some ((s.epochs project).getD 0 + 1))
        stopped := s.stop a project }
  | drain (project : π) (hphase : s.phase a = .bumped project) {pids : List Nat}
      (hpids : pids = (tunnels s.forwards project).map Forward.pid) :
      Took s a ({ s with forwards := s.forwards.filter (·.project ≠ project) }.go a
        (.kills pids (!pids.isEmpty)))
  | kill (pid : Nat) (pids : List Nat) (changed : Bool)
      (hphase : s.phase a = .kills (pid :: pids) changed) :
      Took s a ((s.kill pid).go a (.kills pids changed))

section
variable {s s' : State α π} {a : α} {x : Act π}

omit [DecidableEq α] in
theorem remember_wrote (io : Except String Unit) :
    ∃ record last_write, s.remember io = { s with record, last_write } ∧
      Wrote s record last_write := by
  unfold State.remember
  split
  · next hquitting => exact ⟨_, _, rfl, Or.inl ⟨hquitting, rfl, rfl⟩⟩
  · next hrunning =>
    have hq := Bool.eq_false_iff.mpr hrunning
    split
    · next e => exact ⟨_, _, rfl, Or.inr (Or.inr ⟨hq, ⟨e, rfl⟩, rfl⟩)⟩
    · exact ⟨_, _, rfl, Or.inr (Or.inl ⟨hq, rfl, rfl⟩)⟩

omit [DecidableEq α] in
/-- A request goes on from its look only where the project has no tunnel for the port. -/
theorem check_phase (r : Request π) (info : Except String Bool) (forwards : List (Forward π)) :
    check r info forwards = .picks r ∧
      (∀ e ∈ tunnels forwards r.project, e.remote_port ≠ r.port) ∨
    ∃ result, check r info forwards = .returned result := by
  unfold check
  split
  · exact Or.inr ⟨_, rfl⟩
  split
  · exact Or.inr ⟨_, rfl⟩
  split
  · exact Or.inr ⟨_, rfl⟩
  · exact Or.inr ⟨_, rfl⟩
  split
  · exact Or.inr ⟨_, rfl⟩
  · next hfind =>
    refine Or.inl ⟨rfl, fun e he hport => ?_⟩
    exact List.find?_eq_none.mp hfind e he (decide_eq_true hport)

omit [DecidableEq π] in
theorem opening_request {r : Request π} {can_bind : Bool} {free : Except String Nat}
    {dir : Except String Unit} {child : Except String Nat} {o : Opening π}
    (h : opening r can_bind free dir child = .ok o) : o.request = r := by
  unfold opening at h
  obtain ⟨local_port, -, h⟩ := Fallible.bind_ok h
  obtain ⟨u, -, h⟩ := Fallible.bind_ok h
  obtain ⟨pid, -, h⟩ := Fallible.bind_ok h
  cases h
  rfl

/-- A step does what one of the rules of `Took` says. -/
theorem act_took (h : act s a x (s.phase a) = some s') : Took s a s' := by
  -- one split a phase that can take the step, in the order of `act`
  unfold act at h
  split at h
  · next project remote_port local_port hphase =>
    split at h
    · next hlock =>
      cases h
      exact .decide _ hphase hlock rfl
    · cases h
  · next info r hphase =>
    cases h
    rcases check_phase r info s.forwards with ⟨hp, hnone⟩ | ⟨result, hp⟩
    · rw [hp]
      exact .looks r hphase hnone
    · rw [hp]
      exact .answers r result hphase
  · next r hphase =>
    split at h
    · cases h
      exact .returns _ (Or.inl ⟨r, hphase⟩)
    · next o ho =>
      split at h
      · next hnew =>
        cases h
        refine .spawn o ?_ hnew
        rw [opening_request ho, hphase]
      · cases h
  · next o hphase =>
    split at h
    · next hquitting =>
      cases h
      exact .refuse o hphase hquitting
    · next hquitting =>
      cases h
      exact .track o hphase (Bool.eq_false_iff.mpr hquitting)
  · next e o hphase =>
    cases h
    exact .late o e hphase
  · next o hphase =>
    cases h
    exact .listens o hphase
  · next tail o e hphase =>
    have hstarting : (s.phase a).starting = some o := by rw [hphase]; rfl
    split at h
    · next hours =>
      cases h
      exact .aborts o _ hstarting hours
    · next hours =>
      cases h
      exact .robbed o _ hstarting hours
  · next o id hphase =>
    have hstarting : (s.phase a).starting = some o := by rw [hphase]; rfl
    split at h
    · next hlock =>
      split at h
      · next hours =>
        cases h
        exact .robbed o _ hstarting hours
      · next hours =>
        split at h
        · cases h
          exact .aborts o _ hstarting (not_not.mp hours)
        · next hepoch =>
          cases h
          exact .claim o id hphase hlock (not_not.mp hours) (not_not.mp hepoch)
    · cases h
  · next o id hphase =>
    cases h
    exact .register o id hphase
  · next io o id hphase =>
    obtain ⟨record, last_write, heq, hwrote⟩ := remember_wrote (s := s) io
    rw [heq] at h
    cases h
    exact .serves o id hphase hwrote
  · next o e hphase =>
    cases h
    exact .kill_own o e hphase
  · next o e hphase =>
    split at h
    · next hdead =>
      cases h
      exact .returns _ (Or.inr ⟨o, e, hphase, hdead⟩)
    · cases h
  · next o id hphase =>
    split at h
    · next hdead =>
      cases h
      exact .drop o id hphase hdead rfl
    · cases h
  · next io hphase =>
    obtain ⟨record, last_write, heq, hwrote⟩ := remember_wrote (s := s) io
    rw [heq] at h
    cases h
    exact .ended (Or.inl hphase) hwrote
  · next project local_port hphase =>
    cases h
    exact .remove _ hphase
  · next project hphase =>
    split at h
    · next hlock =>
      cases h
      exact .stop project hphase hlock
    · cases h
  · next project hphase =>
    cases h
    exact .drain project hphase rfl
  · next pid pids changed hphase =>
    cases h
    exact .kill pid pids changed hphase
  · next io changed hphase =>
    obtain ⟨record, last_write, heq, hwrote⟩ := remember_wrote (s := s) io
    rw [heq] at h
    cases h
    exact .ended (Or.inr ⟨changed, hphase⟩) hwrote
  · cases h

/-! ## What a step of the exit does -/

/-- What the exit has taken and not killed yet. -/
def Exit.pending : Exit → List Nat
  | .running => []
  | .begun starting => starting
  | .bumped starting => starting
  | .kills pids => pids
  | .returned => []

inductive ExitTook (s : State α π) : State α π → Prop
  | begin_quit (hexit : s.exit = .running) :
      ExitTook s { s with
        exit := .begun s.starting, starting := [], opened := saved s.forwards }
  | bump_all (starting : List Nat) (hexit : s.exit = .begun starting)
      (hlock : s.epochs_lock = none) :
      ExitTook s { s with exit := .bumped starting, epochs := fun p => (s.epochs p).map (· + 1) }
  | take_all (starting : List Nat) (hexit : s.exit = .bumped starting) :
      ExitTook s { s with
        exit := .kills (s.forwards.map Forward.pid ++ starting), forwards := [] }
  | kill (pid : Nat) (pids : List Nat) (hexit : s.exit = .kills (pid :: pids)) :
      ExitTook s { s.kill pid with exit := .kills pids }
  | return_ (hexit : s.exit = .kills []) : ExitTook s { s with exit := .returned }
  | die (pid : Nat) (halive : s.proc pid = .alive) : ExitTook s (s.kill pid)

theorem step_took {e : Event α π} (h : step s e = some s') :
    (∃ a x, e = .of a x ∧ act s a x (s.phase a) = some s') ∨ ExitTook s s' := by
  -- a call's step is `act`, the rest are the steps of the exit
  cases e with
  | of a x => exact Or.inl ⟨a, x, rfl, h⟩
  | begin_quit =>
    rw [step] at h
    split at h
    · next hexit =>
      cases h
      exact Or.inr (.begin_quit hexit)
    · cases h
  | bump_all =>
    rw [step] at h
    split at h
    · next starting hexit =>
      split at h
      · next hlock =>
        cases h
        exact Or.inr (.bump_all starting hexit hlock)
      · cases h
    · cases h
  | take_all =>
    rw [step] at h
    split at h
    · next starting hexit =>
      cases h
      exact Or.inr (.take_all starting hexit)
    · cases h
  | kill =>
    rw [step] at h
    split at h
    · next pid pids hexit =>
      cases h
      exact Or.inr (.kill pid pids hexit)
    · cases h
  | return_ =>
    rw [step] at h
    split at h
    · next hexit =>
      cases h
      exact Or.inr (.return_ hexit)
    · cases h
  | die pid =>
    rw [step] at h
    split at h
    · next halive =>
      cases h
      exact Or.inr (.die pid halive)
    · cases h

end

end Lpm.Forwards
