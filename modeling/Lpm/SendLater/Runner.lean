/-
The schedule of prompts to send later: `send_later_model.rs` and the store of
`send_later.rs`. It decides when a prompt is due or missed; every change that is saved makes
the next revision and leaves as a snapshot.

A prompt's label and images are only handed on, so they are left out. One copy of lpm is the
sender for as long as it runs.
-/
import Lpm.Lib.RustText
import Mathlib.Data.List.Sort

set_option autoImplicit false

open RustText

namespace Lpm.SendLater

open Function (update)
open List

def GRACE_MS : ℤ := 5 * 60 * 1000

def GONE : String := "That prompt is no longer scheduled."
def NOT_SENDER : String :=
  "Another copy of lpm that is open is sending scheduled prompts. Schedule it from that one."
def PAST_TIME : String := "That time has already passed. Pick a time ahead of now."
def NOTHING : String := "There's nothing to send."

/-- Queued to go out once its agent finishes the turn it is on. -/
def KIND_DONE : String := "done"

inductive PromptState where
  | scheduled
  | due
  | missed
deriving DecidableEq

structure ScheduledPrompt where
  id : String
  project_name : String
  history_key : String
  agent : String
  text : Str
  due_at : ℤ
  created_at : ℤ
  state : PromptState
  kind : String
  force : Bool
deriving DecidableEq

structure NewPrompt where
  project_name : String
  history_key : String
  agent : String
  text : Str
  due_at : ℤ
  kind : String

structure Schedule where
  items : List ScheduledPrompt
  rev : ℕ

variable (items : List ScheduledPrompt)

def ids : List String := items.map ScheduledPrompt.id

/-! ## The clock's rules -/

/-- The prompt at a time: due once its time has come, missed when that is noticed too late. -/
def ScheduledPrompt.settle (item : ScheduledPrompt) (now : ℤ) : ScheduledPrompt :=
  if item.state ≠ .scheduled ∨ item.due_at > now then item
  else { item with state := if now - item.due_at > GRACE_MS then .missed else .due }

/-- The list at a time, and whether that changed it. -/
def settle (now : ℤ) : List ScheduledPrompt × Bool :=
  (items.map (·.settle now), items.any fun item => ¬(item.state ≠ .scheduled ∨ item.due_at > now))

def check_due_at (due_at now : ℤ) : Except String Unit :=
  if due_at > now then .ok () else .error PAST_TIME

/-- When a new prompt is due, and the state it starts in. -/
def first_state (kind : String) (due_at now : ℤ) : Except String (ℤ × PromptState) :=
  if kind = KIND_DONE then .ok (now, .due)
  else (check_due_at due_at now).map fun _ => (due_at, .scheduled)

/-! ## The store -/

variable (s : Schedule) (sender : Bool) (saved : Except String Unit)

/-- Apply a change and save it; what cannot be saved is rolled back. -/
def Schedule.mutate
    (change : List ScheduledPrompt → Except String (List ScheduledPrompt)) :
    Except String Schedule :=
  if sender then do
    let items ← change s.items
    match saved with
    | .error e => .error s!"Couldn't save the schedule: {e}"
    | .ok _ => .ok { items, rev := s.rev + 1 }
  else .error NOT_SENDER

/-- The first of the list with an id, changed. -/
def change_first (id : String) (f : ScheduledPrompt → ScheduledPrompt) :
    List ScheduledPrompt → Except String (List ScheduledPrompt)
  | [] => .error GONE
  | item :: rest =>
    if item.id = id then .ok (f item :: rest) else (change_first id f rest).map (item :: ·)

variable (now : ℤ) (id : String)

def Schedule.add (prompt : NewPrompt) : Except String Schedule :=
  if trim prompt.text = [] then .error NOTHING
  else do
    let (due_at, state) ← first_state prompt.kind prompt.due_at now
    s.mutate sender saved fun items => .ok (items ++ [{
      id
      project_name := prompt.project_name
      history_key := prompt.history_key
      agent := prompt.agent
      text := prompt.text
      due_at
      created_at := now
      state
      kind := if prompt.kind = "" then "time" else prompt.kind
      force := false }])

def Schedule.reschedule
    (due_at : ℤ) (kind : Option String) : Except String Schedule := do
  check_due_at due_at now
  s.mutate sender saved (change_first id fun item =>
    { item with due_at, state := .scheduled, force := false, kind := kind.getD item.kind })

def Schedule.send_now :
    Except String Schedule :=
  s.mutate sender saved (change_first id fun item => { item with state := .due, force := true })

/-- The change is made, and the revision counted, also when there is no such prompt. -/
def Schedule.remove :
    Except String Schedule :=
  s.mutate sender saved fun items => .ok (items.eraseP fun item => item.id = id)

/-- A pass of the thread that keeps the time; a save that fails is only printed. -/
def Schedule.tick : Schedule :=
  if (settle s.items now).2 then { items := (settle s.items now).1, rev := s.rev + 1 } else s

/-! ## What a change may bring -/

/-- The next revision, with no prompt that is neither of the one before nor the new one. -/
def Schedule.Next (s s' : Schedule) (new : Option String) : Prop :=
  s'.rev = s.rev + 1 ∧ ∀ id ∈ ids s'.items, id ∈ ids s.items ∨ new = some id

section
variable {s s' : Schedule} {sender : Bool} {saved : Except String Unit}

theorem mutate_next {change : List ScheduledPrompt → Except String (List ScheduledPrompt)}
    {new : Option String} (h : s.mutate sender saved change = .ok s')
    (hchange : ∀ items, change s.items = .ok items →
      ∀ id ∈ ids items, id ∈ ids s.items ∨ new = some id) : s.Next s' new := by
  rw [Schedule.mutate] at h
  split_ifs at h
  cases hitems : change s.items with
  | error e =>
      rw [hitems] at h
      exact nomatch h
  | ok items =>
      rw [hitems] at h
      cases saved with
      | error e => exact nomatch h
      | ok _ =>
          cases h
          exact ⟨rfl, hchange items hitems⟩

variable {id : String}

theorem change_first_ids {f : ScheduledPrompt → ScheduledPrompt}
    (items : List ScheduledPrompt) : ∀ items', change_first id f items = .ok items' →
    (∀ item, (f item).id = item.id) → ids items' = ids items := by
  induction items with
  | nil =>
      intro items' h
      exact nomatch h
  | cons item rest ih =>
      intro items' h hf
      rw [change_first] at h
      by_cases hid : item.id = id
      · rw [if_pos hid] at h
        cases h
        simp [ids, hf]
      · rw [if_neg hid] at h
        cases hrest : change_first id f rest with
        | error e =>
            rw [hrest] at h
            exact nomatch h
        | ok rest' =>
            rw [hrest] at h
            cases h
            have hids := ih rest' hrest hf
            rw [ids, ids] at hids
            simp [ids, hids]

theorem add_next {now : ℤ} {prompt : NewPrompt}
    (h : s.add sender saved now id prompt = .ok s') : s.Next s' (some id) := by
  rw [Schedule.add] at h
  by_cases htext : trim prompt.text = []
  · rw [if_pos htext] at h
    exact nomatch h
  rw [if_neg htext] at h
  cases hfirst : first_state prompt.kind prompt.due_at now with
  | error e =>
      rw [hfirst] at h
      exact nomatch h
  | ok first =>
      rw [hfirst] at h
      simp only [bind, Except.bind] at h
      refine mutate_next h (fun items hitems other hother => ?_)
      cases hitems
      rw [ids, map_append, mem_append] at hother
      rcases hother with hother | hother
      · exact .inl hother
      · rw [map_cons, map_nil, mem_singleton] at hother
        exact .inr (congrArg some hother.symm)

theorem reschedule_next {now due_at : ℤ} {kind : Option String}
    (h : s.reschedule sender saved now id due_at kind = .ok s') : s.Next s' none := by
  rw [Schedule.reschedule] at h
  cases hcheck : check_due_at due_at now with
  | error e =>
      rw [hcheck] at h
      exact nomatch h
  | ok _ =>
      rw [hcheck] at h
      refine mutate_next h (fun items hitems other hother => .inl ?_)
      rwa [change_first_ids s.items items hitems (fun _ => rfl)] at hother

theorem send_now_next (h : s.send_now sender saved id = .ok s') : s.Next s' none := by
  refine mutate_next h (fun items hitems other hother => .inl ?_)
  rwa [change_first_ids s.items items hitems (fun _ => rfl)] at hother

theorem remove_next (h : s.remove sender saved id = .ok s') : s.Next s' none := by
  refine mutate_next h (fun items hitems other hother => .inl ?_)
  cases hitems
  rw [ids, List.mem_map] at hother
  obtain ⟨item, hitem, rfl⟩ := hother
  exact List.mem_map.mpr ⟨item, mem_of_mem_eraseP hitem, rfl⟩

theorem settle_id (item : ScheduledPrompt) (now : ℤ) : (item.settle now).id = item.id := by
  rw [ScheduledPrompt.settle]
  split_ifs
  · rfl
  · rfl
  · rfl

theorem tick_next (s : Schedule) (now : ℤ) : s.tick now = s ∨ s.Next (s.tick now) none := by
  rw [Schedule.tick]
  split_ifs
  · refine .inr ⟨rfl, fun id hid => .inl ?_⟩
    rw [ids, settle, List.map_map, List.mem_map] at hid
    obtain ⟨item, hitem, rfl⟩ := hid
    exact List.mem_map.mpr ⟨item, hitem, (settle_id item now).symm⟩
  · exact .inl rfl

end

/-! ## The sending side

In the main window: the list as `store/sendLater.ts`
mirrors it, the runner of `sendLater/runner.ts` with the rules of `readiness.ts`, and the
terminals' `deliverInput`.

The window runs one thing at a time. An attempt runs until it waits for what holds the
terminal, again until it waits for its payload, and then to its end, so it is three pieces
and anything may happen between them. When the runner looks again (timers, state changes) is
left open: a pump may run at any time. The holds are for display only and are left out.

A tab gets its history key when it is made and keeps it, so the key of a terminal is a
function of its id. -/

/-! ## The mirrored list -/

structure Snapshot where
  rev : ℕ
  sender : Bool
  items : List ScheduledPrompt

/-- `rev` is none until the first list arrives. -/
structure Store where
  items : List ScheduledPrompt
  sender : Bool
  rev : Option ℕ

/-- One older than the list already held is dropped. -/
def Store.applySnapshot (s : Store) (snap : Snapshot) : Store :=
  if s.rev.any fun rev => snap.rev ≤ rev then s
  else
    { items := snap.items.mergeSort fun a b => a.due_at ≤ b.due_at
      sender := snap.sender
      rev := some snap.rev }

def Store.current (s : Store) (id : String) : Option ScheduledPrompt :=
  s.items.find? fun item => item.id = id

/-! ## Whether a terminal takes a prompt now -/

def SENT_SETTLE_MS : ℤ := 20000
def STALE_WORKING_MS : ℤ := 2 * 60000
def SETTLED_QUIET_MS : ℤ := 1500
def SWITCH_RETRY_MS : ℤ := 2000
def STARTING_RETRY_MS : ℤ := 5000
def OCCUPIED_RETRY_MS : ℤ := 10000

inductive Foreground where
  | shell
  | program
  | unknown
deriving DecidableEq

inductive AgentState where
  | needs_you
  | error
  | working
  | done
  | idle
deriving DecidableEq

structure PaneAgentStatus where
  state : AgentState
  since : Option ℤ

inductive SendLaterHold where
  | busy
  | asking
  | starting
  | problem

/-- `quietMs` is none when there was no output. -/
structure ReadinessInput where
  now : ℤ
  force : Bool
  forAgent : Bool
  foreground : Foreground
  agent : Option AgentState
  quietMs : Option ℤ
  switchingModel : Bool
  lastSentAt : Option ℤ
  stoppedOnProblem : Bool

inductive Readiness where
  | ready
  | hold (h : SendLaterHold) (retryAt : Option ℤ)

/-- What a terminal that just took a prompt is left alone for, as far as that goes. -/
def settling (i : ReadinessInput) : Option ℤ :=
  i.lastSentAt.bind fun last => if i.now - last < SENT_SETTLE_MS then some (last + SENT_SETTLE_MS) else none

def readiness (i : ReadinessInput) : Readiness :=
  if i.switchingModel then .hold .busy (some (i.now + SWITCH_RETRY_MS))
  else if i.forAgent && i.foreground = .shell then .hold .starting (some (i.now + STARTING_RETRY_MS))
  else if i.agent = some .needs_you then .hold .asking none
  else if i.forAgent && i.agent ≠ some .working && i.quietMs.any (· < SETTLED_QUIET_MS) then
    .hold .starting (some (i.now + (SETTLED_QUIET_MS - i.quietMs.getD 0)))
  else if i.force then .ready
  else if i.stoppedOnProblem then .hold .problem none
  else if !i.forAgent && i.foreground = .program then .hold .busy (some (i.now + OCCUPIED_RETRY_MS))
  else
    match settling i with
    | some at_ => .hold .busy (some at_)
    | none =>
      if i.agent = some .working then
        if i.quietMs.all (· ≥ STALE_WORKING_MS) then .ready
        else .hold .busy (some (i.now + (STALE_WORKING_MS - i.quietMs.getD 0)))
      else .ready

def stoppedOnProblem (item : ScheduledPrompt) (agent : Option PaneAgentStatus) : Bool :=
  item.kind = KIND_DONE && agent.any fun a => a.state = .error && a.since.getD 0 > item.created_at

/-! ## The terminals -/

/-- Which terminals a delivery runs in, and the deliveries that run, each with its prompt
when it is one of the schedule. -/
structure Terminals where
  delivering : String → Bool
  deliveries : List (String × Option String)

/-- How a terminal stands to an input: it cannot be reached or has ended, the input is one
line that goes in at once, or there is nothing in it. -/
structure Receiver where
  dead : Bool
  glued : Bool
  empty : Bool

/-- A delivery that is under way refuses every other. -/
def Terminals.deliverInput (t : Terminals) (terminal : String) (who : Option String) (r : Receiver) :
    Terminals × Bool :=
  if r.dead then (t, false)
  else if t.delivering terminal then (t, false)
  else if r.glued then (t, true)
  else if r.empty then (t, false)
  else
    ({ delivering := update t.delivering terminal true
       deliveries := (terminal, who) :: t.deliveries }, true)

/-- The delivery in a terminal is through. -/
def Terminals.delivered (t : Terminals) (terminal : String) : Terminals :=
  { delivering := update t.delivering terminal false
    deliveries := t.deliveries.filter fun d => d.1 ≠ terminal }

/-! ## The runner -/

def RETRY_MS : ℤ := 3000
def RETRY_CAP_MS : ℤ := 5 * 60000

/-- An attempt that waits: for what holds its terminal, or for the payload of the prompt it
found due. -/
structure Attempt where
  item : ScheduledPrompt
  target : String
  payload : Option ScheduledPrompt

structure Runner where
  inFlight : String → Bool
  busyTerminals : String → Bool
  sent : String → Bool
  lastSent : String → Option ℤ
  retryAfter : String → Option ℤ
  /-- Until when, if there is such a time, and the agent's state then. -/
  held : String → Option (Option ℤ × Option AgentState)
  failures : String → ℕ
  attempts : List Attempt

/-- What the runner reads in the window: the time, the open terminals of each project and
what their agents report. -/
structure Surroundings where
  now : ℤ
  targets : String → List String
  agent : String → String → Option PaneAgentStatus

section
variable (key_of : String → String)

def findTarget (win : Surroundings) (item : ScheduledPrompt) : Option String :=
  (win.targets item.project_name).find? fun t => key_of t = item.history_key

variable (r : Runner)

/-- The first piece of `attempt`. -/
def Runner.attempt (item : ScheduledPrompt) (target : String) : Runner :=
  { r with
    inFlight := update r.inFlight item.id true
    busyTerminals := update r.busyTerminals item.history_key true
    attempts := { item, target, payload := none } :: r.attempts }

/-- Whether a prompt that was not ready is still left alone. -/
def Runner.waits (win : Surroundings) (item : ScheduledPrompt) (target : String) : Bool :=
  (r.held item.id).any fun (until_, agentState) =>
    until_.all (· > win.now) && agentState = (win.agent item.project_name target).map PaneAgentStatus.state

/-- A prompt of the list, in a pump. -/
def Runner.consider (win : Surroundings) (item : ScheduledPrompt) : Runner :=
  if item.state ≠ .due || r.sent item.id || r.inFlight item.id then r
  else if r.busyTerminals item.history_key then r
  else if (r.retryAfter item.id).any (· > win.now) then r
  else
    let r := { r with retryAfter := update r.retryAfter item.id none }
    match findTarget key_of win item with
    | none => r
    | some target =>
      if r.waits win item target then r
      else { r with held := update r.held item.id none }.attempt item target

def Runner.pump (store : Store) (win : Surroundings) : Runner :=
  if store.sender then
    store.items.foldl (fun r item => r.consider key_of win item)
      { r with sent := fun id => r.sent id && (ids store.items).contains id }
  else r

end

variable (r : Runner)

def Runner.refused (id : String) (now : ℤ) : Runner :=
  let n := r.failures id + 1
  { r with
    failures := update r.failures id n
    retryAfter := update r.retryAfter id (some (now + min (RETRY_MS * 2 ^ (n - 1)) RETRY_CAP_MS)) }

/-- The `finally` of an attempt. -/
def Runner.finish (a : Attempt) : Runner :=
  { r with
    inFlight := update r.inFlight a.item.id false
    busyTerminals := update r.busyTerminals a.item.history_key false
    attempts := r.attempts.filter fun b => b.item.id ≠ a.item.id }

/-- What the attempt learns of its terminal besides. -/
structure Look where
  foreground : Foreground
  quietMs : Option ℤ
  switchingModel : Bool

/-- The second piece: with what holds the terminal known, whether the prompt can go in. -/
def Runner.looked (store : Store) (win : Surroundings) (a : Attempt) (look : Look) : Runner :=
  match store.current a.item.id with
  | none => r.finish a
  | some due =>
    if due.state ≠ .due then r.finish a
    else
      let agent := win.agent due.project_name a.target
      let verdict := readiness {
        now := win.now
        force := due.force
        forAgent := due.agent ≠ ""
        foreground := look.foreground
        agent := agent.map PaneAgentStatus.state
        quietMs := look.quietMs
        switchingModel := look.switchingModel
        lastSentAt := r.lastSent due.history_key
        stoppedOnProblem := stoppedOnProblem due agent }
      match verdict with
      | .hold _ retryAt =>
        { r with held := update r.held due.id (some (retryAt, agent.map PaneAgentStatus.state)) }.finish a
      | .ready =>
        { r with attempts := r.attempts.map fun b =>
            if b.item.id = a.item.id then { b with payload := some due } else b }

/-- The third piece: with the payload, or with none when it could not be built, the prompt is
typed if it is still due. -/
def Runner.built (store : Store) (now : ℤ) (a : Attempt) (payload : Bool)
    (receiver : Receiver) (t : Terminals) : Runner × Terminals × Bool :=
  if payload then
    match store.current a.item.id with
    | none => (r.finish a, t, false)
    | some still =>
      if still.state ≠ .due then (r.finish a, t, false)
      else
        match t.deliverInput a.target (some still.id) receiver with
        | (t, false) => ((r.refused still.id now).finish a, t, false)
        | (t, true) =>
          ({ r with
            sent := update r.sent still.id true
            failures := update r.failures still.id 0
            lastSent := update r.lastSent still.history_key (some now) }.finish a, t, true)
  else ((r.refused a.item.id now).finish a, t, false)

end Lpm.SendLater
