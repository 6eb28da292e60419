/-
The port tunnel: connections to a local port, carried as streams over the link to a paired
machine. `porttunnel.rs` with the queue of `peerclient.rs` it sends through.

Each end of a stream has an entry in a map and two threads: one reads the socket and sends
frames, the other writes what frames bring. The entry holds the sender of the writer's inbox,
so an entry that goes, or gives up its sender, ends the writer once the inbox is empty.

The two machines are one state here. A connection between them has a number, larger than
those of the connections before it, and a queue of frames in each direction; a frame that is
in the queue when the connection ends may or may not arrive. A client may be connected to any
number of hosts, each under its slug.
-/
import Lpm.Lib.Transition

set_option autoImplicit false

open Transition

namespace Lpm.PortTunnel

open Function (update)

/-! ## Frames -/

inductive Frame where
  | tcpOpen (id port : ℕ)
  | tcpData (id : ℕ) (d : List UInt8)
  | tcpClose (id : ℕ)
  deriving DecidableEq

def Frame.id : Frame → ℕ
  | tcpOpen id _ | tcpData id _ | tcpClose id => id

/-! ## One end of a stream -/

/-- An entry of the map: the inbox's sender, and whether the socket is read to its end. -/
structure Stream where
  inbox : Bool
  read_done : Bool
  deriving DecidableEq

/-- Where the thread stands that opens the stream and reads its socket. `tx` is the
connection whose queue it is sending to, once it has looked that up. -/
inductive Reader where
  | absent
  /-- On the client: the entry is there, and `tcpOpen` is to be sent. -/
  | opening (port : ℕ) (tx : Option ℕ)
  /-- On the client: `tcpOpen` could not be sent. -/
  | refused
  /-- On the host: the port is dialled. -/
  | dialing
  /-- On the host: nothing answered, and that is to be sent. -/
  | failing (tx : Option ℕ)
  | failed
  /-- The socket is there, and `run_pipe` starts. -/
  | piping
  | reading
  | sending (bytes : List UInt8) (tx : Option ℕ)
  | closing (tx : Option ℕ)
  /-- `tcpClose` is dealt with, and `on_read_end` is next. -/
  | ending
  | «over»
  deriving DecidableEq

/-- Where the thread stands that writes the socket, or who holds the inbox before it. -/
inductive Writer where
  | absent
  /-- The inbox is there, and no thread reads it yet. -/
  | held
  | writing
  /-- The inbox was read to its end, and the socket is shut for writing. -/
  | shut
  /-- The inbox is given up: a write failed, or there is no socket. -/
  | broken
  deriving DecidableEq

structure End where
  entry : Option Stream := none
  inbox : List (List UInt8) := []
  reader : Reader := .absent
  writer : Writer := .absent
  /-- All that the socket was read. -/
  read : List UInt8 := []
  /-- All that was written to the socket. -/
  written : List UInt8 := []
  /-- Whether a `tcpClose` from the far end took the inbox's sender. -/
  half_closed : Bool := false
  deriving DecidableEq

/-- The thread has the connection it sends to. -/
def Reader.tx : Reader → Option ℕ
  | opening _ tx | failing tx | sending _ tx | closing tx => tx
  | _ => none

def Reader.is_opening : Reader → Bool
  | opening _ _ => true
  | _ => false

/-- What was read and is not sent yet. -/
def Reader.pending : Reader → List UInt8
  | sending bytes _ => bytes
  | _ => []

/-- Somebody can still take what is put in the inbox. -/
def Writer.receives : Writer → Bool
  | held | writing => true
  | _ => false

namespace End

variable (e : End)

/-- `register`. -/
def register (reader : Reader) : End :=
  { e with entry := some { inbox := true, read_done := false }, writer := .held, reader }

/-- `deliver`. -/
def deliver (bytes : List UInt8) : End :=
  match e.entry with
  | some stream =>
    if stream.inbox && e.writer.receives then { e with inbox := e.inbox ++ [bytes] } else e
  | none => e

def end_writing : End :=
  match e.entry with
  | some stream =>
    { e with
      entry := if stream.read_done then none else some { stream with inbox := false }
      half_closed := e.half_closed || stream.inbox }
  | none => e

def end_reading : End :=
  match e.entry with
  | some stream =>
    { e with entry := if stream.inbox then some { stream with read_done := true } else none }
  | none => e

/-- The entry goes, and whoever held the inbox gives it up. -/
def abandon (reader : Reader) : End :=
  { e with entry := none, reader, writer := .broken, inbox := [] }

/-- The inbox has no sender any more. -/
def disconnected : Bool :=
  match e.entry with
  | some stream => !stream.inbox
  | none => true

end End

/-- What the threads of one end do, the sending apart. -/
inductive EndEvent where
  | run_pipe
  /-- The socket cannot be cloned for the second thread. -/
  | clone_fails
  | read (bytes : List UInt8)
  | read_ends
  /-- The queue to send to is looked up. -/
  | take
  | end_reading
  | write
  /-- `write_all` fails after so many bytes. -/
  | write_fails (n : ℕ)
  | shut
  deriving DecidableEq

namespace End

/-- The first half of `send_waiting`: the queue is looked up, and without one the frame is not
sent. -/
def take (e : End) (out : Option ℕ) : Option End :=
  match e.reader, out with
  | .opening port none, some c => some { e with reader := .opening port (some c) }
  | .opening _ none, none => some (e.abandon .refused)
  | .sending bytes none, some c => some { e with reader := .sending bytes (some c) }
  | .sending _ none, none => some { e with reader := .closing none }
  | .closing none, some c => some { e with reader := .closing (some c) }
  | .closing none, none => some { e with reader := .ending }
  | .failing none, some c => some { e with reader := .failing (some c) }
  | .failing none, none => some { e with reader := .failed }
  | _, _ => none

/-- One step of a thread, where `out` is the queue that frames go to. -/
def step (e : End) (out : Option ℕ) : EndEvent → Option End
  | .run_pipe =>
    if e.reader = .piping then some { e with reader := .reading, writer := .writing } else none
  | .clone_fails =>
    if e.reader = .piping then
      some { e with reader := .closing none, writer := .broken, inbox := [] }
    else none
  | .read bytes =>
    if e.reader = .reading then
      some { e with reader := .sending bytes none, read := e.read ++ bytes }
    else none
  | .read_ends => if e.reader = .reading then some { e with reader := .closing none } else none
  | .take => e.take out
  | .end_reading =>
    if e.reader = .ending then some { e.end_reading with reader := .over } else none
  | .write =>
    match e.writer, e.inbox with
    | .writing, bytes :: inbox => some { e with written := e.written ++ bytes, inbox }
    | _, _ => none
  | .write_fails n =>
    match e.writer, e.inbox with
    | .writing, bytes :: _ =>
      some { e with written := e.written ++ bytes.take n, inbox := [], writer := .broken }
    | _, _ => none
  | .shut =>
    if e.writer = .writing ∧ e.inbox = [] ∧ e.disconnected = true then
      some { e with writer := .shut }
    else none

/-- The frame that is sent, for stream `id`, and what comes after: the queue takes it as long
as the connection's thread is there to empty it. -/
def send (e : End) (id : ℕ) (alive : Bool) : Option (ℕ × List Frame × End) :=
  match e.reader with
  | .opening port (some c) =>
    some (if alive then (c, [.tcpOpen id port], { e with reader := .piping })
      else (c, [], e.abandon .refused))
  | .sending bytes (some c) =>
    some (if alive then (c, [.tcpData id bytes], { e with reader := .reading })
      else (c, [], { e with reader := .closing none }))
  | .closing (some c) =>
    some (c, if alive then [.tcpClose id] else [], { e with reader := .ending })
  | .failing (some c) =>
    some (c, if alive then [.tcpClose id] else [], { e with reader := .failed })
  | _ => none

end End

/-! ## The two machines -/

/-- `(peer slug, stream)`. -/
abbrev ClientKey (σ : Type) : Type := σ × ℕ

/-- `(peer connection, stream)`. -/
abbrev HostKey : Type := ℕ × ℕ

structure State (σ : Type) where
  client : ClientKey σ → End := fun _ => {}
  host : HostKey → End := fun _ => {}
  /-- Frames from the client and from the host, by connection. -/
  up : ℕ → List Frame := fun _ => []
  down : ℕ → List Frame := fun _ => []
  /-- The queue that `send_waiting` finds for a machine. -/
  out : σ → Option ℕ := fun _ => none
  /-- The machine a connection is to. -/
  slug_of : ℕ → Option σ := fun _ => none
  /-- The client's thread of the connection empties its queue and takes frames. -/
  client_up : ℕ → Bool := fun _ => false
  /-- The host's does, and takes frames for as long as it listens. -/
  host_up : ℕ → Bool := fun _ => false
  listens : ℕ → Bool := fun _ => false
  /-- The client has dropped the connection's streams after its thread's session. -/
  dropped : ℕ → Bool := fun _ => false
  next_conn : ℕ := 0
  next_id : ℕ := 1
  /-- The connection that a stream's `tcpOpen` was sent on. -/
  opened : ClientKey σ → Option ℕ := fun _ => none

inductive Event (σ : Type) where
  /-- `accept_loop`: a connection to the local port of a forward. -/
  | accept (slug : σ) (port : ℕ)
  | client (key : ClientKey σ) (e : EndEvent)
  | client_send (key : ClientKey σ)
  | host (key : HostKey) (e : EndEvent)
  | host_send (key : HostKey)
  | dial (key : HostKey) (answers : Bool)
  /-- The next frame of a connection arrives at the host, or at the client. -/
  | to_host (c : ℕ)
  | to_client (c : ℕ)
  | connect (slug : σ)
  /-- The queue is given up, by `stop_conn` or behind a session. -/
  | let_go (slug : σ)
  /-- `stop_conn` drops the machine's streams. -/
  | drop_streams (slug : σ)
  | session_ends (c : ℕ)
  /-- Behind its session, the connection's thread drops the machine's streams. -/
  | drop_client_conn (c : ℕ)
  | drop_host_conn (c : ℕ)
  | host_ends (c : ℕ)

section
variable {σ : Type} [DecidableEq σ]

namespace State

variable (s : State σ)

def set_client (key : ClientKey σ) (e : End) : State σ :=
  { s with client := update s.client key e }

def set_host (key : HostKey) (e : End) : State σ :=
  { s with host := update s.host key e }

/-- Frames go into a connection's queue. -/
def send_up (c : ℕ) (frames : List Frame) : State σ :=
  { s with up := update s.up c (s.up c ++ frames) }

def send_down (c : ℕ) (frames : List Frame) : State σ :=
  { s with down := update s.down c (s.down c ++ frames) }

/-- `retain`: the machine's streams go. -/
def forget_slug (slug : σ) : State σ :=
  { s with client := fun key =>
      if key.1 = slug then { s.client key with entry := none } else s.client key }

/-- `handle_host`, for a frame on a connection. A port that is no port is answered at once. -/
def handle_host (c : ℕ) : Frame → State σ
  | .tcpOpen id port =>
    if 0 < port ∧ port < 65536 then s.set_host (c, id) ((s.host (c, id)).register .dialing)
    else if s.host_up c then s.send_down c [.tcpClose id]
    else s
  | .tcpData id d => s.set_host (c, id) ((s.host (c, id)).deliver d)
  | .tcpClose id => s.set_host (c, id) (s.host (c, id)).end_writing

def handle_client (slug : σ) : Frame → State σ
  | .tcpData id d => s.set_client (slug, id) ((s.client (slug, id)).deliver d)
  | .tcpClose id => s.set_client (slug, id) (s.client (slug, id)).end_writing
  | .tcpOpen _ _ => s

/-- The client's thread of a stream sends; the first frame is the one that opens it. -/
def client_send (key : ClientKey σ) : Option (State σ) := do
  let e := s.client key
  let alive := s.client_up (e.reader.tx.getD 0)
  let (c, frames, e') ← e.send key.2 alive
  let opened :=
    if e.reader.is_opening && alive then update s.opened key (some c) else s.opened
  return { (s.set_client key e').send_up c frames with opened }

def host_send (key : HostKey) : Option (State σ) := do
  let (_, frames, e') ← (s.host key).send key.2 (s.host_up key.1)
  return (s.set_host key e').send_down key.1 frames

def step : Event σ → Option (State σ)
  | .accept slug port =>
    some { s.set_client (slug, s.next_id) ((s.client (slug, s.next_id)).register (.opening port none))
      with next_id := s.next_id + 1 }
  | .client key e => do return s.set_client key (← (s.client key).step (s.out key.1) e)
  | .client_send key => s.client_send key
  | .host key e => do return s.set_host key (← (s.host key).step (some key.1) e)
  | .host_send key => s.host_send key
  | .dial key answers =>
    if (s.host key).reader = .dialing then
      some (s.set_host key (if answers then { s.host key with reader := .piping }
        else (s.host key).abandon (.failing none)))
    else none
  | .to_host c =>
    match s.up c with
    | frame :: frames =>
      if s.listens c then some ({ s with up := update s.up c frames }.handle_host c frame)
      else none
    | [] => none
  | .to_client c =>
    match s.down c, s.slug_of c with
    | frame :: frames, some slug =>
      if s.client_up c then
        some ({ s with down := update s.down c frames }.handle_client slug frame)
      else none
    | _, _ => none
  | .connect slug =>
    some { s with
      next_conn := s.next_conn + 1
      out := update s.out slug (some s.next_conn)
      slug_of := update s.slug_of s.next_conn (some slug)
      client_up := update s.client_up s.next_conn true
      host_up := update s.host_up s.next_conn true
      listens := update s.listens s.next_conn true }
  | .let_go slug => some { s with out := update s.out slug none }
  | .drop_streams slug => some (s.forget_slug slug)
  | .session_ends c => some { s with client_up := update s.client_up c false }
  | .drop_client_conn c =>
    match s.slug_of c with
    | some slug =>
      if s.client_up c = false then
        some { s.forget_slug slug with dropped := update s.dropped c true }
      else none
    | none => none
  | .drop_host_conn c =>
    some { s with
      host := fun key => if key.1 = c then { s.host key with entry := none } else s.host key
      listens := update s.listens c false }
  | .host_ends c =>
    if s.listens c = false then some { s with host_up := update s.host_up c false }
    else none

end State

def system : System (State σ) (Event σ) where
  init s := s = {}
  step s e s' := s.step e = some s'

end

end Lpm.PortTunnel
