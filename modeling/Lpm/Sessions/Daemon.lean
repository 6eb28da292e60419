/-
The session daemon: a registry of panes under a lock, and requests that are served each on its
own thread. `sessiond.rs`.

A request takes the lock anew for every pane it opens, takes or replaces, so a thread stands
between two of these steps with panes in its hands that no session lists yet, or no more
(`Phase.holds`). A request that only reads the registry is left out, and so is how the
processes under a shell are reaped once the shell is killed.

What the daemon does not keep but the results speak of is kept beside it: all the panes a
request opened, the session it works on with the list it found there, whether another request
has changed that list since, and what was listed and which requests were over when it emptied
what it kills.
-/
import Lpm.Lib.Groups
import Lpm.Lib.RustText
import Lpm.Lib.Transition

set_option autoImplicit false

open RustText Transition

namespace Lpm.Sessions

structure PaneSpec where
  service : Str
  command : Str
  dir : Str
  deriving DecidableEq

/-- A shell in a directory, with a label. -/
structure Pane where
  id : Str
  service : Str
  dir : Str
  deriving DecidableEq

inductive Request where
  | start (session : Str) (panes : List PaneSpec)
  | split (session : Str) (panes : List PaneSpec)
  | send (pane text : Str)
  | kill_pane (pane : Str)
  | kill_session (session : Str)
  | shutdown
  deriving DecidableEq

/-! ## The registry -/

structure Registry where
  sessions : Groups Str Pane := []
  next_pane : ℕ := 0
  deriving DecidableEq

def pane_id (n : ℕ) : Str := '%' :: Nat.toDigits 10 n

namespace Registry

variable (r : Registry)

def next_id : Str × Registry := (pane_id r.next_pane, { r with next_pane := r.next_pane + 1 })

def find (pane : Str) : Option Pane := r.sessions.find fun p => p.id = pane

variable (session : Str)

/-- The panes of a session. -/
def panes : List Pane := r.sessions.get session

/-- A session is taken out of the registry. -/
def take : Registry :=
  { r with sessions := r.sessions.remove session }

def push (pane : Pane) : Registry :=
  { r with sessions := r.sessions.push session pane }

def replace (pane_id : Str) (pane : Pane) : Option Registry :=
  (r.sessions.replace (fun p => p.id = pane_id) pane).map fun sessions => { r with sessions }

def drop_pane (pane : Str) : Registry :=
  { r with sessions := r.sessions.drop fun p => p.id = pane }

def drain : Registry := { r with sessions := [] }

end Registry

/-! ## Serving a request -/

/-- An op that either worked or did not. -/
abbrev Reply : Type := Except Str Unit

inductive Phase where
  /-- The request is counted, and `RETIRING` is to be looked at. -/
  | begun
  | entered
  /-- `open_panes`: the id of the next pane is to be taken. -/
  | opening (session : Str) (specs : List PaneSpec)
  | named (session id : Str) (spec : PaneSpec) (rest : List PaneSpec)
  /-- The pane is open, and to be listed. -/
  | opened (session : Str) (pane : Pane) (rest : List PaneSpec)
  /-- A pane did not open, and those before it are to be dropped. -/
  | failed (error : Str)
  /-- `reopen`: the pane is found, its shell has gone, the new one's id is taken, it is open. -/
  | found (old : Pane)
  | dead (old : Pane)
  | renamed (old : Pane) (id : Str)
  | reopened (old pane : Pane)
  /-- The line is to be typed into the pane that is there. -/
  | typing
  /-- `retire`: waiting for the other requests. -/
  | retiring
  /-- `teardown`: the panes that are still to be closed, and what comes after. -/
  | closing (panes : List Pane) (next : Phase)
  | answering (reply : Reply)
  /-- Nothing more is done for the request; without a reply the client was hung up on. -/
  | «over» (reply : Option Reply)
  deriving DecidableEq

/-- The panes that a thread is about to list or to tear down. -/
def Phase.holds : Phase → List Pane
  | opened _ pane _ | reopened _ pane => [pane]
  | closing panes next => panes ++ next.holds
  | _ => []

/-- The id that a thread has taken for a pane that is not open yet. -/
def Phase.names : Phase → List Str
  | named _ id _ _ | renamed _ id => [id]
  | closing _ next => next.names
  | _ => []

def Phase.is_over : Phase → Bool
  | «over» _ => true
  | _ => false

/-- The reply that a request got, or is about to get. -/
def Phase.reply : Phase → Option Reply
  | answering reply => some reply
  | «over» reply => reply
  | _ => none

/-- A request that is served. -/
structure Call where
  request : Request
  phase : Phase := .begun
  /-- All panes it opened; for `open_panes`, its `opened` once the last one is listed. -/
  opened : List Pane := []
  /-- The session it works on, with what it found there. -/
  session : Option Str := none
  base : List Pane := []
  /-- Another request has changed that session since. -/
  disturbed : Bool := false
  /-- What was listed of what it kills when it took that, and the requests that were over. -/
  took : List Pane := []
  over_then : ℕ → Bool := fun _ => false
  /-- A shutdown saw every other request end. -/
  drained : Bool := false

/-- What the threads share. -/
structure Shared where
  reg : Registry := {}
  /-- The shells that have gone by themselves, and those that were closed. -/
  gone : Str → Bool := fun _ => false
  closed : Str → Bool := fun _ => false
  /-- `RETIRING`. -/
  retiring : Bool := false

/-- Whether what is tried works: a shell is opened, a line is written, the others are waited
for. -/
inductive Outcome where
  | works
  | fails (error : Str)
  deriving DecidableEq

namespace Call

variable (c : Call)

def goes (phase : Phase) : Call := { c with phase }

def answers (reply : Reply) : Call := c.goes (.answering reply)

/-- The session that a pane is listed in. -/
def session_of (r : Registry) (pane : Pane) : Option Str :=
  (r.sessions.find? fun g => g.2.contains pane).map Prod.fst

/-- The call has found its session. -/
def works_on (session : Option Str) (base : List Pane) : Call :=
  { c with session, base }

def finds (r : Registry) (pane : Pane) : Call :=
  c.works_on (session_of r pane) (((session_of r pane).map r.panes).getD [])

/-- `handle`, up to where a lock is given back for the first time. -/
def enter (w : Shared) (ended : ℕ → Bool) (c : Call) : Shared × Call :=
  match c.request with
  | .start session panes =>
    if panes = [] then (w, c.answers (.error "no services to start".toList))
    else ({ w with reg := w.reg.take session },
      (c.works_on (some session) []).goes (.closing (w.reg.panes session) (.opening session panes)))
  | .split session panes =>
    if w.reg.sessions.has session then
      (w, (c.works_on (some session) (w.reg.panes session)).goes (.opening session panes))
    else (w, c.answers (.error ("no session ".toList ++ session)))
  | .send pane _ =>
    match w.reg.find pane with
    | some old => (w, (c.finds w.reg old).goes (.found old))
    | none => (w, c.goes .typing)
  | .kill_pane pane =>
    match w.reg.find pane with
    | some found =>
      ({ w with reg := w.reg.drop_pane pane }, c.goes (.closing [found] (.answering (.ok ()))))
    | none => (w, c.answers (.error ("no pane ".toList ++ pane)))
  | .kill_session session =>
    let panes := w.reg.panes session
    if panes = [] then (w, c.answers (.error ("no session ".toList ++ session)))
    else ({ w with reg := w.reg.take session },
      { c.works_on (some session) [] with
        phase := .closing panes (.answering (.ok ())), took := panes, over_then := ended })
  | .shutdown => ({ w with retiring := true }, c.goes .retiring)

/-- The pane that a shell is opened for. -/
def pane_of (id : Str) (spec : PaneSpec) : Pane := { id, service := spec.service, dir := spec.dir }

/-- One step of a request's thread. `ended` are the requests that are over, `busy` says how many
are not. -/
def step (w : Shared) (ended : ℕ → Bool) (busy : ℕ) (c : Call) (o : Outcome) : Option (Shared × Call) :=
  match c.phase with
  | .begun => some (w, c.goes (if w.retiring then .over none else .entered))
  | .entered => some (c.enter w ended)
  | .opening _ [] => some (w, c.answers (.ok ()))
  | .opening session (spec :: rest) =>
    some ({ w with reg := w.reg.next_id.2 }, c.goes (.named session w.reg.next_id.1 spec rest))
  | .named session id spec rest =>
    match o with
    | .works => some (w, { c with
        phase := .opened session (pane_of id spec) rest, opened := c.opened ++ [pane_of id spec] })
    | .fails error => some (w, c.goes (.failed error))
  | .opened session pane rest =>
    some ({ w with reg := w.reg.push session pane }, c.goes (.opening session rest))
  | .failed error =>
    some ({ w with reg := c.opened.foldl (fun reg pane => reg.drop_pane pane.id) w.reg },
      c.goes (.closing c.opened (.answering (.error error))))
  | .found old => some (w, c.goes (if w.gone old.id then .dead old else .typing))
  | .dead old => some ({ w with reg := w.reg.next_id.2 }, c.goes (.renamed old w.reg.next_id.1))
  | .renamed old id =>
    match o with
    | .works => some (w, { c with
        phase := .reopened old { old with id }, opened := c.opened ++ [{ old with id }] })
    | .fails error => some (w, c.answers (.error error))
  | .reopened old pane =>
    match w.reg.replace old.id pane with
    | some reg => some ({ w with reg }, c.answers (.ok ()))
    | none => some (w, c.goes (.closing [pane] (.answering (.error ("no pane ".toList ++ old.id)))))
  | .typing =>
    match c.request with
    | .send pane _ =>
      match w.reg.find pane, o with
      | some found, .works => some (w, (c.finds w.reg found).answers (.ok ()))
      | some _, .fails error => some (w, c.answers (.error error))
      | none, _ => some (w, c.answers (.error ("no pane ".toList ++ pane)))
    | _ => none
  | .retiring =>
    -- the wait ends with the others, or at its deadline
    if o = .works ∧ 1 < busy then none
    else some ({ w with reg := w.reg.drain },
      { c with
        phase := .closing w.reg.sessions.members (.answering (.ok ()))
        took := w.reg.sessions.members
        over_then := ended
        drained := o = .works })
  | .closing [] next => some (w, c.goes next)
  | .closing (pane :: panes) next =>
    some ({ w with closed := Function.update w.closed pane.id true }, c.goes (.closing panes next))
  | .answering reply => some (w, c.goes (.over (some reply)))
  | .over _ => none

/-- Another request's step: the call notes that its session is not as it was. -/
def sees (w w' : Shared) (c : Call) : Call :=
  match c.session with
  | some session =>
    { c with disturbed := c.disturbed || decide (w'.reg.panes session ≠ w.reg.panes session) }
  | none => c

end Call

/-! ## The daemon -/

structure State where
  shared : Shared := {}
  calls : ℕ → Option Call := fun _ => none
  next_call : ℕ := 0
  /-- The janitor saw no session, and for how many looks in a row it found the daemon quiet. -/
  saw_none : Bool := false
  idle : ℕ := 0
  /-- The process has ended. -/
  exited : Bool := false

inductive Event where
  | begin_ (request : Request)
  | call (i : ℕ) (o : Outcome)
  /-- A shell ends. -/
  | shell_ends (pane : Str)
  | janitor_looks
  | janitor_counts
  | janitor_exits
  /-- The process ends behind a shutdown that was answered. -/
  | exit (i : ℕ)
  deriving DecidableEq

namespace State

variable (s : State)

def is_over (i : ℕ) : Bool :=
  match s.calls i with
  | some c => c.phase.is_over
  | none => false

/-- `IN_FLIGHT`. -/
def in_flight : ℕ := ((List.range s.next_call).filter fun i => !s.is_over i).length

def step : Event → Option State
  | .begin_ request =>
    some { s with
      calls := Function.update s.calls s.next_call (some { request }), next_call := s.next_call + 1 }
  | .call i o => do
    let c ← s.calls i
    let (shared, c') ← c.step s.shared s.is_over s.in_flight o
    return { s with
      shared
      calls := fun j => if j = i then some c' else (s.calls j).map (Call.sees s.shared shared) }
  | .shell_ends pane =>
    some { s with shared := { s.shared with gone := Function.update s.shared.gone pane true } }
  | .janitor_looks => some { s with saw_none := s.shared.reg.sessions.isEmpty }
  | .janitor_counts => some { s with idle := if s.saw_none && s.in_flight = 0 then s.idle + 1 else 0 }
  | .janitor_exits => if 5 ≤ s.idle then some { s with exited := true } else none
  | .exit i =>
    match s.calls i with
    | some c =>
      if c.request = .shutdown ∧ c.phase.reply ≠ none then some { s with exited := true } else none
    | none => none

/-- Nothing happens once the process has ended. -/
def next (e : Event) : Option State := if s.exited then none else s.step e

end State

def system : System State Event where
  init s := s = {}
  step s e s' := s.next e = some s'

end Lpm.Sessions
