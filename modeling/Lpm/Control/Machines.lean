/-
The host of the terminals and the Macs that are paired to it. `control.rs`, `peer/ownership.rs`,
the connection loop of `peer.rs` and that of `peerclient.rs`.

A machine changes what it shows under a lock and tells its surfaces, its peers or its host behind
it, so what is still to be told is kept as a list of tasks that a machine takes up in any order.
A phone is a surface of the host, and is told as a window of the host is.

Terminals have their frames in queues of their own: those of one connection stay in order for
each of them, and nothing here depends on more. What is sent on a connection that has gone is
lost; the host learns that it has gone at some later time (`notice`).
-/
import Lpm.Control.Shown
import Lpm.Lib.Transition

set_option autoImplicit false

open RustText Transition

namespace Lpm.Control

open Function (update)

/-- A frame of a Mac to the host about a terminal. -/
inductive Frame where
  | ctl (op : Op)
  | unsub
  deriving DecidableEq

/-- What a thread has still to tell behind a change. -/
structure Task where
  owner : Option Owner
  /-- The owner is told to every surface. -/
  changed : Bool := false
  /-- The window that asked is told in any case, or the Mac that did, on the connection it used. -/
  answer : Option Owner := none
  reply : Option (Str × ℕ) := none
  /-- `forward_control`. -/
  forward : Option Op := none
  deriving DecidableEq

/-- What one machine has of a terminal. -/
structure Machine where
  shown : Shown := {}
  /-- Whom each surface was last told to be the owner. -/
  told : Key → Option Owner := fun _ => none
  todo : List Task := []

namespace Machine

variable (m : Machine)

/-- `terminal_present_control`, `terminal_claim_control` and `terminal_unpresent_control`. -/
def command (op : Op) (who : Owner) : Machine :=
  let (shown, owner, changed) := m.shown.apply op who
  let answer := if op = .unpresent then none else some who
  -- the host sees a Mac as one surface, shown while any window of the Mac shows it
  let forward := if op = .unpresent ∧ owner ≠ none then none else some op
  { m with shown, todo := m.todo ++ [{ owner, changed, answer, forward }] }

/-- `drop_surface`: a window has closed, or the client has gone. -/
def drop_surface (who : Owner) : Machine :=
  let (shown, owner, changed) := m.shown.unpresent who
  let forward := if owner = none then some Op.unpresent else none
  { m with shown, todo := if changed then m.todo ++ [{ owner, changed, forward }] else m.todo }

/-- `ownership::apply`, for a terminal that is alive. -/
def ctl (op : Op) (who : Owner) (conn : ℕ) : Machine :=
  let (shown, owner, changed) := m.shown.apply op who
  let reply := if !changed && op ≠ .unpresent then some (who.id, conn) else none
  { m with shown, todo := m.todo ++ [{ owner, changed, reply }] }

/-- `note_away`. -/
def note_away (elsewhere : Option Str) : Machine :=
  let away := elsewhere.map fun name => { kind := .away, id := name, label := name }
  let (shown, owner, changed) := m.shown.hold_away away
  { m with shown, todo := if changed then m.todo ++ [{ owner, changed }] else m.todo }

end Machine

/-- What the surfaces of the machine have been told behind a task. -/
def Task.tells (task : Task) (told : Key → Option Owner) : Key → Option Owner :=
  let told := if task.changed then fun _ => task.owner else told
  match task.answer with
  | some who => update told who.key task.owner
  | none => told

/-- A task is done with. -/
def Machine.tells (m : Machine) (k : ℕ) (task : Task) : Machine :=
  { m with told := task.tells m.told, todo := m.todo.eraseIdx k }

/-- A terminal, on all machines and in the frames between them. -/
structure Term where
  host : Machine := {}
  mac : Str → Machine := fun _ => {}
  up : Str → List Frame := fun _ => []
  /-- `owner` frames, each with its `elsewhere`. -/
  down : Str → List (Option Str) := fun _ => []
  /-- The terminal's session is there. -/
  alive : Bool := true

structure State where
  term : Str → Term := fun _ => {}
  /-- The connection of a Mac. -/
  link : Str → Option ℕ := fun _ => none
  next_conn : ℕ := 0
  /-- How many connections of a Mac have gone that the host takes to be there. -/
  ended : Str → ℕ := fun _ => 0
  /-- The terminals that a Mac re-subscribes. -/
  attached : Str → Str → Bool := fun _ _ => false
  host_name : Str := []
  device_name : Str → Str := fun m => m

namespace State

variable (s : State)

/-- A Mac as a surface of the host. -/
def owner (m : Str) : Owner := { kind := .peer, id := m, label := s.device_name m }

/-- `elsewhere` of a frame. -/
def elsewhere (m : Str) (owner : Option Owner) : Option Str :=
  (owner.filter fun o => o.key ≠ (.peer, m)).map fun o => if o.kind = .window then s.host_name else o.label

/-- The frames that a Mac gets for a task of the host: `push_control`, or the direct answer. -/
def frames (t : Term) (m : Str) (task : Task) : List (Option Str) :=
  (if task.changed ∧ (Kind.peer, m) ∈ t.host.shown.keys ∧ s.link m ≠ none then [s.elsewhere m task.owner] else []) ++
  match task.reply with
  | some (to_, conn) => if to_ = m ∧ s.link m = some conn then [s.elsewhere m task.owner] else []
  | none => []

/-- What happens to one terminal. -/
def on (id : Str) (f : Term → Term) : State := { s with term := update s.term id (f (s.term id)) }

end State

namespace Term

variable (t : Term) (m : Str) (f : Machine → Machine)

def at_host : Term := { t with host := f t.host }

def at_mac : Term := { t with mac := update t.mac m (f (t.mac m)) }

def sends_up (frames : List Frame) : Term := { t with up := update t.up m (t.up m ++ frames) }

/-- The host handles a frame. -/
def handle (who : Owner) (conn : ℕ) (frame : Frame) (rest : List Frame) : Term :=
  let t := { t with up := update t.up m rest }
  match frame with
  | .unsub => t.at_host (·.drop_surface who)
  | .ctl .unpresent => t.at_host (·.ctl .unpresent who conn)
  | .ctl op => if t.alive then t.at_host (·.ctl op who conn) else t

end Term

/-- A window of this machine, or a phone on it. -/
def Owner.is_local (o : Owner) : Bool := o.kind = .window || o.kind = .mobile

inductive Event where
  /-- A surface of the host, or a window of a Mac, presents, claims or leaves a terminal. -/
  | host (id : Str) (op : Op) (who : Owner)
  | mac (m id : Str) (op : Op) (who : Owner)
  /-- It leaves every one. -/
  | host_leaves (who : Owner)
  | mac_leaves (m : Str) (who : Owner)
  /-- A task is taken up. -/
  | host_tells (id : Str) (k : ℕ)
  | mac_tells (m id : Str) (k : ℕ)
  /-- The next frame is handled, by the host or by the Mac. -/
  | handle (m id : Str)
  | hold (m id : Str)
  | attach (m id : Str)
  | detach (m id : Str)
  | connect (m : Str)
  | cut (m : Str)
  /-- The host finds that a connection of the Mac has gone. -/
  | notice (m : Str)
  | starts (id : Str)
  | exits (id : Str)

namespace State

variable (s : State)

def step : Event → Option State
  | .host id op who => if who.is_local then some (s.on id (·.at_host (·.command op who))) else none
  | .mac m id op who => if who.is_local then some (s.on id (·.at_mac m (·.command op who))) else none
  | .host_leaves who =>
    if who.is_local then some { s with term := fun id => (s.term id).at_host (·.drop_surface who) } else none
  | .mac_leaves m who =>
    if who.is_local then some { s with term := fun id => (s.term id).at_mac m (·.drop_surface who) } else none
  | .host_tells id k =>
    match (s.term id).host.todo[k]? with
    | some task => some (s.on id fun t =>
        { t.at_host (·.tells k task) with down := fun m => t.down m ++ s.frames t m task })
    | none => none
  | .mac_tells m id k =>
    match ((s.term id).mac m).todo[k]? with
    | some task => some (s.on id fun t => (t.at_mac m (·.tells k task)).sends_up m
        (if s.link m = none then [] else (task.forward.map Frame.ctl).toList))
    | none => none
  | .handle m id =>
    match s.link m, (s.term id).up m with
    | some conn, frame :: rest => some (s.on id (·.handle m (s.owner m) conn frame rest))
    | _, _ => none
  | .hold m id =>
    match (s.term id).down m with
    | elsewhere :: rest => some (s.on id fun t =>
        { t.at_mac m (·.note_away elsewhere) with down := update t.down m rest })
    | [] => none
  | .attach m id =>
    some { s with attached := update s.attached m (update (s.attached m) id true) }
  | .detach m id =>
    let s' := { s with attached := update s.attached m (update (s.attached m) id false) }
    some (s'.on id (·.sends_up m (if s.link m = none then [] else [.unsub])))
  | .connect m =>
    match s.link m with
    | some _ => none
    | none => some { s with
        link := update s.link m (some s.next_conn)
        next_conn := s.next_conn + 1
        -- the host let go of this Mac's control when the link dropped
        term := fun id => (s.term id).sends_up m
          (if s.attached m id ∧ ((s.term id).mac m).shown.owner ≠ none then [.ctl .present] else []) }
  | .cut m =>
    match s.link m with
    | none => none
    | some _ => some { s with
        link := update s.link m none
        ended := update s.ended m (s.ended m + 1)
        term := fun id => { s.term id with
          up := update (s.term id).up m []
          down := update (s.term id).down m [] } }
  | .notice m =>
    if s.ended m = 0 then none
    else some { s with
      ended := update s.ended m (s.ended m - 1)
      term := fun id => (s.term id).at_host (·.drop_surface (s.owner m)) }
  | .starts id => some (s.on id fun t => { t with alive := true })
  | .exits id => some (s.on id fun t => { t with alive := false })

end State

/-- Machines of any names, with nothing shown yet. -/
def system : System State Event where
  init s := ∃ host_name device_name, s = { host_name, device_name }
  step s e s' := s.step e = some s'

end Lpm.Control
