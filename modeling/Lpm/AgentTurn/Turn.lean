/-
Turns that end, or resume, without the agent saying so: what `agentturn.rs` reads off a
key, off a pane's output and off a silent terminal.

Everything a thread reads outside of the store and the watches (the clock, the terminals,
the processes, the held finishes and the sub-agents) is one record here and may be anything.
-/
import Lpm.Status.Store

set_option autoImplicit false

namespace Lpm.AgentTurn

open Lpm.Status (Id AgentKind StatusEntry Store STATUS_RUNNING STATUS_WAITING carry_turn)

def QUIET_MS : ℤ := 2000
def WINDOW_MS : ℤ := 4000
def CADENCE_MS : ℤ := 2000
def CADENCE_GAP_MS : ℤ := 500
def GIVE_UP_MS : ℤ := 30000
def FOCUS_CLICK_MS : ℤ := 300
def SILENCE_MS : ℤ := 30000
def TOOL_SILENCE_MS : ℤ := 600000

/-! ## Keys -/

inductive Key where
  | interrupt
  | ctrl_c
  | answer
  | click
  | codex_answer
  deriving DecidableEq

/-- A byte string, written as the source writes it. -/
def bytes (s : String) : List UInt8 := s.toList.map fun c => c.toNat.toUInt8

def classify (input : List UInt8) : Option Key :=
  if input = bytes "\x1b" ∨ input = bytes "\x1b[27u" then some .interrupt
  else if input = bytes "\x03" ∨ input = bytes "\x1b[99;5u" then some .ctrl_c
  else if input = bytes "\r" ∨ input = bytes "\x1b[13u" then some .answer
  else if ["y", "Y", "n", "N", "a"].any fun s => input = bytes s then some .codex_answer
  else if ["1", "2", "3", "4", "5", "6", "7", "8", "9"].any fun s => input = bytes s then some .answer
  else if (bytes "\x1b[<0;").isPrefixOf input && (bytes "M").isSuffixOf input then some .click
  else none

def FOCUS_IN : List UInt8 := bytes "\x1b[I"

/-- Whether `key` can end or answer what `entry` reports. -/
def concerns (key : Key) (entry : StatusEntry) : Bool :=
  match key with
  | .interrupt | .ctrl_c => true
  | .answer | .click => !entry.held && (entry.value = STATUS_WAITING && !entry.form)
  | .codex_answer =>
    !entry.held && (entry.value = STATUS_WAITING && AgentKind.of_key entry.key = some .codex)

/-! ## What a thread reads elsewhere -/

structure Session where
  last_output : ℤ
  recent_output : List ℤ
  output_paused : Bool
  shell_at_prompt : Option Bool
  holds_terminal : ℤ → Bool

def Session.outputs_since (sess : Session) (since : ℤ) : List ℤ :=
  sess.recent_output.filter fun at_ => at_ ≥ since

structure Seen where
  now : ℤ
  session : String → Option Session
  idle : Id → Bool
  waiting_on_work : Id → Bool
  goes_on : Id → Bool
  is_alive : ℤ → Bool

/-- Whether `key` leaves `entry` alone because its session is idle at the prompt while its
finish is held for background work. -/
def idle_key (seen : Seen) (key : Key) (project : String) (entry : StatusEntry) : Bool :=
  key = .interrupt && entry.value = STATUS_RUNNING && seen.idle (project, entry.key)

/-! ## Watches -/

inductive Outcome where
  | ended
  | resumed
  | unsure
  deriving DecidableEq

/-- From `last` on, no two outputs are half a second apart, and the last is not that old. -/
def paced (now last : ℤ) : List ℤ → Bool
  | [] => now - last < CADENCE_GAP_MS
  | at_ :: rest => at_ - last < CADENCE_GAP_MS && paced now at_ rest

/-- Whether output kept coming at a working agent's pace through CADENCE_MS. -/
def steady (recent : List ℤ) (now : ℤ) : Bool :=
  let start := now - CADENCE_MS
  match recent.dropWhile fun at_ => at_ < start with
  | [] => false
  | rest => paced now start rest

/-- What a watch since `since` has seen by `now`. -/
def outcome (since drew : ℤ) (recent : List ℤ) (click : Bool) (now : ℤ) : Option Outcome :=
  if now - max drew since ≥ QUIET_MS then some .ended
  else if now - since ≥ WINDOW_MS && (!click || steady recent now) then some .resumed
  else if now - since ≥ GIVE_UP_MS then some .unsure
  else none

def running_look : AgentKind → String × String
  | .claude => ("bolt", "#4C8DFF")
  | .codex => ("sparkle", "#10A37F")
  | .gemini => ("sparkle", "#4796E3")
  | .cursor => ("bolt", "#8B5CF6")
  | .open_code => ("bolt", "#FAB283")
  | .omp => ("bolt", "#F97316")

/-- The Running report the agent's own hooks would have sent. -/
def running (waiting : StatusEntry) (now : ℤ) : StatusEntry :=
  let look := running_look ((AgentKind.of_key waiting.key).getD .claude)
  { StatusEntry.default with
    key := waiting.key
    value := STATUS_RUNNING
    icon := look.1
    color := look.2
    priority := waiting.priority
    timestamp := now
    pane_id := waiting.pane_id
    reporter_pid := waiting.reporter_pid }

/-- Questions shown one at a time: a key answers the first of several. -/
def several (seen : StatusEntry) : Bool := seen.value = STATUS_WAITING && seen.askers.length > 1

def answer_first (e : StatusEntry) : StatusEntry := { e with askers := e.askers.tail }

/-- What `settle` does about one of the entries a watch has seen, and whether it did it. -/
def settle (project : String) (outcome : Outcome) (now : ℤ) (seen : StatusEntry) (s : Store) :
    Store × Bool :=
  if several seen then
    if outcome = .unsure then (s, false) else s.amend_if_unchanged project seen answer_first
  else
    match outcome with
    | .ended => s.clear_if_unchanged project seen
    | .resumed =>
      if seen.value = STATUS_WAITING then s.replace_if_unchanged project seen (running seen now)
      else (s, false)
    | .unsure => (s, false)

/-- A watch leaves things as they are, or acts on the report it has seen: it takes the
question that was answered off the entry, clears it, or puts a Running in its place. -/
inductive Settled (project : String) (outcome : Outcome) (now : ℤ) (seen : StatusEntry) (s : Store) :
    Store × Bool → Prop
  | left : Settled project outcome now seen s (s, false)
  | amended {e : StatusEntry} (h : s.unchanged project seen = some e) (hseveral : several seen = true)
    (hsure : outcome ≠ .unsure) :
    Settled project outcome now seen s (s.put project (answer_first e), true)
  | cleared {e : StatusEntry} (h : s.unchanged project seen = some e) (hone : several seen = false)
    (hended : outcome = .ended) :
    Settled project outcome now seen s (s.remove (project, seen.key), true)
  | replaced {e : StatusEntry} (h : s.unchanged project seen = some e) (hone : several seen = false)
    (hresumed : outcome = .resumed) :
    Settled project outcome now seen s (s.put project (carry_turn (some e) (running seen now)), true)

theorem settle_cases (project : String) (outcome : Outcome) (now : ℤ) (seen : StatusEntry)
    (s : Store) : Settled project outcome now seen s (settle project outcome now seen s) := by
  unfold settle
  by_cases hseveral : several seen = true
  · rw [if_pos hseveral]
    split_ifs with hunsure
    · exact .left
    · rw [Store.amend_if_unchanged]
      split
      next e h =>
        exact .amended h hseveral hunsure
      · exact .left
  · rw [if_neg hseveral]
    have hone : several seen = false := by simpa using hseveral
    cases outcome with
    | ended =>
      simp only [Store.clear_if_unchanged]
      split
      next e h =>
        exact .cleared h hone rfl
      · exact .left
    | resumed =>
      simp only [Store.replace_if_unchanged]
      split_ifs
      · split
        next e h =>
          exact .replaced h hone rfl
        · exact .left
      · exact .left
    | unsure => exact .left

/-! ## Sweeps -/

/-- Whether a working entry has gone quiet for longer than it can while at work. -/
def silent (entry : StatusEntry) (last_output now : ℤ) (goes_on : Bool) : Bool :=
  let quiet := now - max (max last_output entry.timestamp) entry.reported_at
  if entry.tool || quiet ≥ TOOL_SILENCE_MS then quiet ≥ TOOL_SILENCE_MS
  else quiet ≥ SILENCE_MS && !goes_on

def is_stale (seen : Seen) (project : String) (entry : StatusEntry) : Bool :=
  match seen.session entry.pane_id with
  | none => true
  | some sess =>
    if sess.shell_at_prompt = some true && !sess.holds_terminal entry.reporter_pid then true
    else
      entry.value = STATUS_RUNNING && !seen.waiting_on_work (project, entry.key)
        && !sess.output_paused
        && silent entry sess.last_output seen.now (seen.goes_on (project, entry.key))

end Lpm.AgentTurn
