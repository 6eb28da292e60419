/-
The phone's end of a terminal's output: `TerminalStreams.kt`, which decides what applies
from offsets alone, and `TerminalScreens.kt`, which says whose screen it is handed to.

A method that sends returns what it sends. Offsets are unbounded here; a `Long` has room for
any stream a machine can emit.
-/
import Lpm.Lib.Transition
import Lpm.Terminal.Ring

set_option autoImplicit false

open RustText Utf8

namespace Lpm.Phone

open Function (update)

/-- What the phone sends about its terminals. -/
inductive Wire where
  | sub (id : String) (start : Option ℕ)
  | unsub (id : String)
  deriving DecidableEq

/-- The length of a text in UTF-8. -/
def utf8Size (data : Str) : ℕ := (as_bytes data).length

/-! ## Streams -/

structure TerminalStreams where
  subscribed : List String
  streamOffset : String → Option ℕ
  awaitingSeed : String → Bool

namespace TerminalStreams

def empty : TerminalStreams :=
  { subscribed := [], streamOffset := fun _ => none, awaitingSeed := fun _ => false }

variable (id : String) (s : TerminalStreams)

def subscribe : TerminalStreams × List Wire :=
  ({ subscribed := if id ∈ s.subscribed then s.subscribed else s.subscribed ++ [id]
     streamOffset := update s.streamOffset id none
     awaitingSeed := update s.awaitingSeed id true }, [.sub id none])

def resync : TerminalStreams × List Wire :=
  if id ∉ s.subscribed ∨ s.awaitingSeed id then (s, [])
  else
    ({ s with awaitingSeed := update s.awaitingSeed id true },
      [.sub id (s.streamOffset id)])

def unsubscribe : TerminalStreams × List Wire :=
  ({ subscribed := s.subscribed.filter fun other => other ≠ id
     streamOffset := update s.streamOffset id none
     awaitingSeed := update s.awaitingSeed id false }, [.unsub id])

/-- `resync`, one terminal after the other. -/
def resyncs (ids : List String) : TerminalStreams × List Wire :=
  ids.foldl (fun (s, sent) id => ((s.resync id).1, sent ++ (s.resync id).2)) (s, [])

/-- A new connection: resume every terminal from where its screen got to. -/
def resumeAll : TerminalStreams × List Wire :=
  resyncs { s with awaitingSeed := fun _ => false } s.subscribed

def seeded (off : Option ℕ) (s : TerminalStreams) : TerminalStreams :=
  { s with
    streamOffset := update s.streamOffset id off
    awaitingSeed := update s.awaitingSeed id false }

/-- What `accept` answers for a chunk that applies. -/
def apply (off : Option ℕ) (s : TerminalStreams) : TerminalStreams :=
  match off with
  | some off => { s with streamOffset := update s.streamOffset id (some off) }
  | none => s

/-- Whether an output chunk applies. Anything the pending seed will carry is dropped, and a
chunk starting past where we are means output went missing. -/
def accept (data : Str) (off : Option ℕ) (s : TerminalStreams) :
    TerminalStreams × List Wire × Bool :=
  if s.awaitingSeed id then (s, [], false)
  else
    match off, s.streamOffset id with
    | some o, some known =>
      if o ≤ known then (s, [], false)
      -- as the source has it, `off - size != known`
      else if o ≠ known + utf8Size data then ((s.resync id).1, (s.resync id).2, false)
      else (s.apply id off, [], true)
    | _, _ => (s.apply id off, [], true)

end TerminalStreams

/-! ## Screens -/

/-- A screen that shows a terminal. What stands behind the key is no part of the program: the
offset of the last seed that was handed to it, and the text handed to it since. -/
structure Screen where
  key : ℕ
  seed : Option ℕ
  text : Str

inductive Closed where
  | covered
  | revealed
  | last
  deriving DecidableEq

/-- A stack of screens whose top is handed something. -/
def handed (stack : List Screen) (f : Screen → Screen) : List Screen :=
  match stack.getLast? with
  | some screen => stack.dropLast ++ [f screen]
  | none => stack

/-- The screens showing each terminal, oldest first. -/
abbrev TerminalScreens := String → List Screen

namespace TerminalScreens

variable (screens : TerminalScreens) (id : String)

def current : Option Screen := (screens id).getLast?

def «open» (key : ℕ) : TerminalScreens :=
  update screens id (screens id ++ [{ key, seed := none, text := [] }])

def close (key : ℕ) : TerminalScreens × Closed :=
  let stack := screens id
  if stack = [] then (screens, .last)
  else
    let index := stack.findIdx fun screen => screen.key = key
    if index = stack.length then (screens, .covered)
    else
      let left := stack.eraseIdx index
      (update screens id left,
        if left = [] then .last else if index + 1 = stack.length then .revealed else .covered)

/-- Hand something to the screen on top. -/
def hand (f : Screen → Screen) : TerminalScreens :=
  update screens id (handed (screens id) f)

end TerminalScreens

/-! ## The link to a Mac

What `remote.rs` does for one connected phone, what
`LpmClient` makes of the frames that arrive, and the screens the user opens and closes.

The Mac keeps the recent output of every terminal in a ring. A chunk is pushed to the ring
and then, behind another lock, queued for the phone, which may fail when the queue is full;
the thread of the connection writes the queue to the link, and answers the phone's requests
on the link itself, so a seed overtakes what is queued. The link keeps order. A connection
that is lost takes its queue and everything under way with it, and the next one starts with
nothing subscribed.

Every terminal has a session here for as long as it is looked at, so no `exit` is sent. -/

open Lpm.Terminal (RING_CAP SEED_CAP whole_lines)

/-! ## The rings of the Mac -/

structure Ring where
  buf : List UInt8 := []
  base : ℕ := 0

def Ring.total (r : Ring) : ℕ := r.base + r.buf.length

abbrev Rings := String → Option Ring

/-- The ring with a chunk appended: the oldest bytes fall off once it is full. -/
def Ring.push (r : Ring) (text : Str) : Ring :=
  let buf := r.buf ++ as_bytes text
  let «over» := buf.length - RING_CAP
  if «over» > 0 then { buf := buf.drop «over», base := r.base + «over» } else { r with buf }

variable (rings : Rings) (id : String)

/-- Append a chunk of a terminal's output, returning the stream offset it ends at. -/
def ring_push (text : Str) : Rings × ℕ :=
  let ring := ((rings id).getD {}).push text
  (update rings id (some ring), ring.total)

/-- Recent scrollback to replay onto a fresh screen, with the stream offset it ends at. -/
def ring_seed : Str × ℕ :=
  match rings id with
  | none => ([], 0)
  | some r =>
    let skip := r.buf.length - SEED_CAP
    (whole_lines (from_utf8_lossy (r.buf.drop skip)) (decide (skip > 0) || decide (r.base > 0)),
      r.total)

/-- The output a client missed since a stream offset, with the offset it ends at. -/
def ring_since («from» : ℕ) : Option (Str × ℕ) :=
  match rings id with
  | none => none
  | some r =>
    if «from» < r.base ∨ «from» > r.total then none
    else some (from_utf8_lossy (r.buf.drop («from» - r.base)), r.total)

/-! ## The link -/

/-- What the Mac sends about a terminal. -/
inductive Frame where
  | seed (id : String) (data : Str) (off : Option ℕ) (reset : Bool)
  | output (id : String) (data : Str) (off : Option ℕ)

/-- The answer to a `sub`. -/
def seed_frame (start : Option ℕ) : Frame :=
  match start.bind fun start => ring_since rings id start with
  | some (data, off) => .seed id data (some off) false
  | none => .seed id (ring_seed rings id).1 (some (ring_seed rings id).2) true

structure Connection where
  subs : String → Bool
  queue : List Frame
  /-- A `sub` whose terminal is among `subs` and whose seed is not sent yet. -/
  seeding : Option (String × Option ℕ)
  /-- On the way to the Mac, and on the way to the phone. -/
  up : List Wire
  down : List Frame

def Connection.fresh : Connection :=
  { subs := fun _ => false, queue := [], seeding := none, up := [], down := [] }

/-- The output each terminal has emitted is no part of the program. -/
structure State where
  rings : Rings
  emitted : String → Str
  /-- Chunks in the rings that are not queued yet. -/
  teeing : List (String × Str × ℕ)
  connection : Option Connection
  streams : TerminalStreams
  screens : TerminalScreens

variable (s : State)

/-- What the phone sends while there is no connection is gone. -/
def State.send (sent : List Wire) : State :=
  { s with connection := s.connection.map fun c => { c with up := c.up ++ sent } }

/-- A method of `TerminalStreams` that sends. -/
def State.streaming (f : TerminalStreams → TerminalStreams × List Wire) : State :=
  { s with streams := (f s.streams).1 }.send (f s.streams).2

/-- `dispatch`, of the frames about terminals. -/
def State.dispatch : Frame → State
  | .seed id _ off _ =>
    { s with
      streams := s.streams.seeded id off
      screens := s.screens.hand id fun screen => { screen with seed := off, text := [] } }
  | .output id data off =>
    let (streams, sent, accepted) := s.streams.accept id data off
    let s := { s with streams }.send sent
    if accepted then
      { s with screens := s.screens.hand id fun screen => { screen with text := screen.text ++ data } }
    else s

/-! ## The system -/

inductive Action where
  /-- A terminal emits a chunk, and one that was emitted is queued or dropped. -/
  | push (id : String) (text : Str)
  | tee (chunk : ℕ) (kept : Bool)
  /-- The thread of the connection. -/
  | write
  | read
  | answer
  /-- The next frame arrives on the phone. -/
  | deliver
  | openTerminalScreen (id : String) (key : ℕ)
  | closeTerminalScreen (id : String) (key : ℕ)
  | reseed (id : String)
  | resync (id : String)
  | lost
  | ready

def step : Action → Option State
  | .push id text =>
    let (rings, off) := ring_push s.rings id text
    some { s with
      rings
      emitted := update s.emitted id (s.emitted id ++ text)
      teeing := s.teeing ++ [(id, text, off)] }
  | .tee chunk kept =>
    (s.teeing[chunk]?).map fun (id, text, off) =>
      { s with
        teeing := s.teeing.eraseIdx chunk
        connection := s.connection.map fun c =>
          if c.subs id && kept then { c with queue := c.queue ++ [.output id text (some off)] } else c }
  | .write =>
    match s.connection with
    | some { subs, queue := frame :: queue, seeding := none, up, down } =>
      some { s with connection := some { subs, queue, seeding := none, up, down := down ++ [frame] } }
    | _ => none
  | .read =>
    match s.connection with
    | some { subs, queue, seeding := none, up := .sub id start :: up, down } =>
      some { s with connection := some {
        subs := update subs id true, queue, seeding := some (id, start), up, down } }
    | some { subs, queue, seeding := none, up := .unsub id :: up, down } =>
      some { s with connection := some {
        subs := update subs id false, queue, seeding := none, up, down } }
    | _ => none
  | .answer =>
    match s.connection with
    | some { subs, queue, seeding := some (id, start), up, down } =>
      some { s with connection := some {
        subs, queue, seeding := none, up, down := down ++ [seed_frame s.rings id start] } }
    | _ => none
  | .deliver =>
    match s.connection with
    | some { subs, queue, seeding, up, down := frame :: down } =>
      some ({ s with connection := some { subs, queue, seeding, up, down } }.dispatch frame)
    | _ => none
  | .openTerminalScreen id key =>
    some ({ s with screens := s.screens.open id key }.streaming (·.subscribe id))
  | .closeTerminalScreen id key =>
    let (screens, closed) := s.screens.close id key
    let s := { s with screens }
    match closed with
    | .covered => some s
    | .revealed => some (s.streaming (·.subscribe id))
    | .last => some (s.streaming (·.unsubscribe id))
  | .reseed id => some (s.streaming (·.subscribe id))
  | .resync id => some (s.streaming (·.resync id))
  | .lost => some { s with connection := none }
  | .ready => some ({ s with connection := some .fresh }.streaming TerminalStreams.resumeAll)

def initial : State where
  rings _ := none
  emitted _ := []
  teeing := []
  connection := none
  streams := .empty
  screens _ := []

def phone : Transition.System State Action where
  init s := s = initial
  step s a s' := step s a = some s'

end Lpm.Phone
