/-
The scheduler that keeps followed projects matching another Mac: `gitfollow.rs`, with
the list of follows it works from, `gitfollowstore.rs`.

The scheduler is one thread. A cycle of it reads the list of follows without any lock,
then takes the engine lock and claims what is due, one batch for every Mac; each batch is
a thread of its own that finishes its follows one after another. Everything else
(following and unfollowing, a pause, a note from the other Mac) comes between two locked
sections, so a step here is one locked section, or one write of the list.

Times are nanoseconds since some start.
-/
import Lpm.Lib.Transition

set_option autoImplicit false

namespace Lpm.GitFollow

/-! ## The list of follows -/

/-- A record of `follow.json`. What a run landed last is not looked at here. -/
structure Follow where
  project : String
  slug : String
  source_root : String
  paused : Option String
  last_error : Option String
  deriving DecidableEq

/-- `Follow::new`. -/
def Follow.new (project slug source_root : String) : Follow :=
  { project, slug, source_root, paused := none, last_error := none }

def Follow.is_paused (f : Follow) : Bool := f.paused.isSome

/-- Add or replace the follow for a project. -/
def put (follow : Follow) : List Follow → List Follow
  | [] => [follow]
  | f :: rest => if f.project = follow.project then follow :: rest else f :: put follow rest

def remove (project : String) (follows : List Follow) : List Follow :=
  follows.filter fun f => f.project ≠ project

/-- Apply a change to one follow, if it is still there. -/
def update (project : String) (change : Follow → Follow) : List Follow → List Follow
  | [] => []
  | f :: rest => if f.project = project then change f :: rest else f :: update project change rest

/-- `prune_missing`. -/
def prune_missing (existing : List String) (follows : List Follow) : List Follow :=
  follows.filter fun f => f.project ∈ existing

/-! ## The engine -/

def SECOND : ℕ := 1000000000

def POLL : ℕ := 10 * SECOND

def HEARTBEAT : ℕ := 60 * SECOND

def U32_MAX : ℕ := 4294967295

/-- `BACKOFF[errors.max(1) - 1]`, the last one from there on. -/
def backoff (errors : ℕ) : ℕ :=
  match errors with
  | 0 | 1 => 30 * SECOND
  | 2 => 120 * SECOND
  | _ => 600 * SECOND

structure Runtime where
  next_at : Option ℕ
  errors : ℕ
  running : Bool
  deriving DecidableEq

/-- `Runtime::default`. -/
def Runtime.default : Runtime := { next_at := none, errors := 0, running := false }

abbrev Runtimes := String → Option Runtime

variable (runtimes : Runtimes) (project : String)

/-- `entry(project).or_default()`. -/
def or_default : Runtime :=
  (runtimes project).getD .default

def is_due (next_at : Option ℕ) (now : ℕ) : Bool :=
  next_at.elim true fun t => now ≥ t

/-- One Mac's due follows for a cycle, less what its thread has finished. -/
structure SourceBatch where
  slug : String
  pushes : Bool
  follows : List Follow

/-- What a cycle has read before it takes the lock. -/
structure Cycle where
  live : List Follow
  ready : List Follow
  pushes : String → Bool

/-- The engine and the threads around it. The last two fields are no part of the program:
they remember for whom a change was noted since the last claim, and whose runtime went
away during a run. -/
structure Engine where
  follows : List Follow
  runtimes : Runtimes
  woken : Bool
  shutdown : Bool
  cycle : Option Cycle
  batches : List SourceBatch
  noted : String → Bool
  dropped : String → Bool

/-- The runs going on, by project. -/
def projects (batches : List SourceBatch) : List String :=
  batches.flatMap fun batch => batch.follows.map Follow.project

/-! ## What the locked sections do -/

inductive Outcome where
  | unchanged
  | synced
  | retry
  | paused (reason : String)

/-- Check at once, whatever went wrong before. -/
def Runtime.hurry (rt : Runtime) : Runtime := { rt with next_at := none, errors := 0 }

/-- `nudge`. -/
def nudge : Runtimes := fun project => (runtimes project).map Runtime.hurry

/-- The projects a note of a Mac is about. -/
def changed_projects (follows : List Follow) (slug cwd : String) : List String :=
  (follows.filter fun f => f.slug = slug ∧ f.source_root = cwd).map Follow.project

def note_change : Runtimes :=
  Function.update runtimes project (some (or_default runtimes project).hurry)

/-- What is still followed keeps its runtime. -/
def retain (live : List Follow) (runtimes : Runtimes) : Runtimes :=
  fun project => if live.any fun f => f.project = project then runtimes project else none

/-- A follow joins the batch of its Mac. -/
def add_to_batch (follow : Follow) (pushed : Bool) : List SourceBatch → List SourceBatch
  | [] => [{ slug := follow.slug, pushes := pushed, follows := [follow] }]
  | batch :: rest =>
    if batch.slug = follow.slug then { batch with follows := batch.follows ++ [follow] } :: rest
    else batch :: add_to_batch follow pushed rest

/-- One turn of the loop of `claim_due`. -/
def claim_follow (pushes : String → Bool) (now : ℕ) (s : Runtimes × List SourceBatch)
    (follow : Follow) : Runtimes × List SourceBatch :=
  let rt := or_default s.1 follow.project
  if rt.running || !is_due rt.next_at now then
    (Function.update s.1 follow.project (some rt), s.2)
  else
    (Function.update s.1 follow.project (some { rt with running := true }),
      add_to_batch follow (pushes follow.slug) s.2)

/-- The locked section of `claim_due`. -/
def claim (c : Cycle) (now : ℕ) (runtimes : Runtimes) : Runtimes × List SourceBatch :=
  c.ready.foldl (claim_follow c.pushes now) (retain c.live runtimes, [])

/-- What `finish` makes of a runtime. -/
def Runtime.finish (rt : Runtime) (outcome : Outcome) (cadence now : ℕ) : Runtime :=
  match outcome with
  | .unchanged | .synced => { running := false, errors := 0, next_at := some (now + cadence) }
  | .retry =>
    let errors := min (rt.errors + 1) U32_MAX
    { running := false, errors, next_at := some (now + backoff errors) }
  | .paused _ => { running := false, errors := 0, next_at := none }

def finish (outcome : Outcome) (cadence now : ℕ) : Runtimes :=
  match runtimes project with
  | some rt => Function.update runtimes project (some (rt.finish outcome cadence now))
  | none => runtimes

/-! ## The list of follows as a cycle reads it -/

def PEER_NOT_CONNECTED : String := "peer not connected"

/-- As it reads on macOS. -/
def MACHINE : String := "Mac"

def availability_note (reason : String) : String :=
  if reason = PEER_NOT_CONNECTED then "that " ++ MACHINE ++ " is not connected" else reason

/-- What to record on a follow that cannot run, if anything. -/
def pending_note (follow : Follow) (reason : String) : Option String :=
  if follow.last_error = some reason then none else some reason

variable (require_git_follow : String → Except String Unit)

/-- One turn of the loop that sorts out which follows can run. -/
def sort_out (s : List Follow × List Follow)
    (follow : Follow) : List Follow × List Follow :=
  match require_git_follow follow.slug with
  | .ok _ => (s.1 ++ [follow], s.2)
  | .error reason =>
    match pending_note follow (availability_note reason) with
    | some note => (s.1, update follow.project (fun f => { f with last_error := some note }) s.2)
    | none => s

/-- What can run of the live follows, and the list with a note on what cannot. -/
def ready_follows (live : List Follow) :
    List Follow × List Follow :=
  (live.filter fun f => !f.is_paused).foldl (sort_out require_git_follow) ([], live)

/-! ## The steps -/

/-- `save` is any write of the list: `put`, `remove`, `update` and `prune_missing` all save
what they have made of an earlier `load`. A note works from a list loaded earlier too. -/
inductive Action where
  | save (follows : List Follow)
  | nudge
  | note_remote_change (loaded : List Follow) (slug cwd : String)
  | follow_resume (project : String)
  | read (existing : List String) (require_git_follow : String → Except String Unit)
    (can_push_changes : String → Bool)
  | claim_due (now : ℕ)
  | finish (thread : ℕ) (outcome : Outcome) (now : ℕ)
  | stop

def step (s : Engine) : Action → Option Engine
  | .save follows => some { s with follows }
  | .nudge => some { s with runtimes := nudge s.runtimes, woken := true }
  | .note_remote_change loaded slug cwd =>
    let changed := changed_projects loaded slug cwd
    if changed.isEmpty then some s
    else
      some { s with
        runtimes := changed.foldl note_change s.runtimes
        woken := true
        noted := fun project => s.noted project || decide (project ∈ changed) }
  | .follow_resume project =>
    some { s with runtimes := note_change s.runtimes project, woken := true }
  | .read existing require_git_follow can_push_changes =>
    -- the scheduler is one thread, so no other cycle is under way
    if s.cycle.isSome then none
    else
      let live := prune_missing existing s.follows
      let (ready, follows) := ready_follows require_git_follow live
      some { s with
        follows
        cycle := some {
          live, ready
          pushes := fun slug => ready.any (fun f => f.slug = slug) && can_push_changes slug } }
  | .claim_due now =>
    match s.cycle with
    | none => none
    | some c =>
      if s.shutdown then some { s with cycle := none }
      else
        let (runtimes, batches) := claim c now s.runtimes
        some { s with
          runtimes, woken := false, cycle := none
          batches := s.batches ++ batches
          noted := fun project => s.noted project && decide (project ∉ projects batches)
          dropped := fun project => s.dropped project
            || decide (project ∈ projects s.batches ∧ project ∉ c.live.map Follow.project) }
  | .finish thread outcome now =>
    match s.batches[thread]? with
    | none => none
    | some batch =>
      match batch.follows with
      | [] => none
      | follow :: rest =>
        let cadence := if batch.pushes then HEARTBEAT else POLL
        some { s with
          runtimes := finish s.runtimes follow.project outcome cadence now
          woken := true
          batches := s.batches.set thread { batch with follows := rest }
          dropped := Function.update s.dropped follow.project false }
  | .stop => some { s with shutdown := true, woken := true }

/-- Nothing runs when the engine starts. -/
def initial (follows : List Follow) : Engine :=
  { follows, runtimes := fun _ => none, woken := false, shutdown := false, cycle := none,
    batches := [], noted := fun _ => false, dropped := fun _ => false }

def engine : Transition.System Engine Action where
  init s := ∃ follows, s = initial follows
  step s a s' := step s a = some s'

end Lpm.GitFollow
