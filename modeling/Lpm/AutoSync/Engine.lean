/-
Automatic sync: one thread that decides which peers to sync and when.

A trigger marks a peer as pending; a pass of the scheduler looks at every peer it knows and
starts a run, defers it, or drops the mark; a run that ends says so. Each of these takes the
one lock. What is done outside of it is a step of its own: a trigger reads the clock before
it waits for the lock, a pass reads the gates of a peer before it applies them, and the
thread parks in another lock section than the one it worked out its wait in.

The `log` of a peer is kept for the account of a run and is not in the program.
-/
import Mathlib.Algebra.Order.Ring.Int
import Lpm.Lib.Transition
import Mathlib.Data.List.Perm.Basic
import Mathlib.Data.List.ReduceOption

set_option autoImplicit false

open Transition

namespace Lpm.AutoSync

open Option

structure Timings where
  quiet_period : Nat
  rate_floor : Nat
  max_idle : Nat
  backoff : Vector Nat 3

/-- In milliseconds. -/
def Timings.default : Timings where
  quiet_period := 2000
  rate_floor := 5000
  max_idle := 60000
  backoff := #v[30000, 120000, 600000]

structure Gates where
  auto_sync : Bool
  enabled : Bool
  connected : Bool
  supports_sync2 : Bool
  pinned : Bool
  deriving DecidableEq

inductive SkipReason where
  | NoPending
  | Running
  | AutoSyncOff
  | Disabled
  | Disconnected
  | Unsupported
  | Unpinned
  deriving DecidableEq

def Gates.first_failure (g : Gates) : Option SkipReason :=
  if !g.auto_sync then some .AutoSyncOff
  else if !g.enabled then some .Disabled
  else if !g.connected then some .Disconnected
  else if !g.supports_sync2 then some .Unsupported
  else if !g.pinned then some .Unpinned
  else none

def Gates.all_open (g : Gates) : Bool :=
  g.first_failure.isNone

inductive Decision where
  | Run
  | Skip (reason : SkipReason)
  | Defer (t : Nat)
  deriving DecidableEq

structure SlugState where
  pending : Bool := false
  running : Bool := false
  quiet_until : Option Nat := none
  rate_until : Option Nat := none
  backoff_until : Option Nat := none
  consecutive_errors : Nat := 0

variable (st : SlugState)

def SlugState.earliest_start : Option Nat :=
  [st.quiet_until, st.rate_until, st.backoff_until].reduceOption.max?

def should_run (gates : Gates) (now : Nat) : Decision :=
  if !st.pending then .Skip .NoPending
  else if st.running then .Skip .Running
  else
    match gates.first_failure with
    | some reason => .Skip reason
    | none =>
      match st.earliest_start with
      | some t => if now < t then .Defer t else .Run
      | none => .Run

def backoff_delay (errors : Nat) (steps : List Nat) : Nat :=
  steps.getD (min (max errors 1 - 1) (steps.length - 1)) 0

def apply_notify (reconnect : Bool) (timings : Timings) (now : Nat) : SlugState :=
  let st := { st with pending := true, quiet_until := some (now + timings.quiet_period) }
  if reconnect then { st with consecutive_errors := 0, backoff_until := none } else st

def apply_tick (gates : Gates) (timings : Timings) (now : Nat) :
    SlugState × Decision :=
  let decision := should_run st gates now
  match decision with
  | .Run =>
    ({ st with
      running := true
      pending := false
      quiet_until := none
      rate_until := some (now + timings.rate_floor) }, decision)
  | .Skip .Running => (st, decision)
  | .Skip _ => ({ st with pending := false }, decision)
  | .Defer _ => (st, decision)

/-- `consecutive_errors` is a `u32` that saturates. -/
def apply_complete (failed : Bool) (timings : Timings) (now : Nat) : SlugState :=
  let st := { st with running := false }
  if failed then
    let errors := min (st.consecutive_errors + 1) (2 ^ 32 - 1)
    { st with
      consecutive_errors := errors
      backoff_until := some (now + backoff_delay errors timings.backoff.toList)
      pending := true }
  else { st with consecutive_errors := 0, backoff_until := none }

/-! ## The account of a peer -/

inductive Entry where
  | triggered (all_open : Bool)
  | reconnected
  /-- A gate closed. -/
  | closed
  /-- A pass decided on a run. -/
  | started (now : Nat)
  | failed (now : Nat)
  | succeeded

/-- How many runs failed since the last success or reconnect. The last entry comes first. -/
def failures : List Entry → Nat
  | .failed _ :: log => failures log + 1
  | .succeeded :: _ => 0
  | .reconnected :: _ => 0
  | _ :: log => failures log
  | [] => 0

/-- How long the last run backs off, if it failed and the peer has not reconnected. -/
def due (timings : Timings) : List Entry → Option Nat
  | .failed now :: log => some (now + backoff_delay (failures log + 1) timings.backoff.toList)
  | .succeeded :: _ => none
  | .reconnected :: _ => none
  | _ :: log => due timings log
  | [] => none

/-- The gates are open since the last trigger, and no run started since. -/
def waits : List Entry → Bool
  | .triggered all_open :: _ => all_open
  | .closed :: _ => false
  | .started _ :: _ => false
  | _ :: log => waits log
  | [] => false

def starts (log : List Entry) : List Nat :=
  log.filterMap fun
    | .started now => some now
    | _ => none

/-! ## The engine -/

/-- Where the scheduler's thread stands. It holds the lock in `pass` and `ticks`. -/
inductive Scheduler (σ : Type) where
  | loop
  | pass (now : Nat) (slugs to_run : List σ) (next_wake : Option Nat)
  | ticks (now : Nat) (slug : σ) (gates : Gates) (slugs to_run : List σ) (next_wake : Option Nat)
  | spawns (now : Nat) (to_run : List σ) (wait : Nat)
  /-- Parked until then, or until it is woken. -/
  | parked (ends : Nat)
  | exited

/-- A call of `notify` that waits for the lock, with the slugs its target names. -/
structure Call (σ : Type) where
  slugs : List σ
  reconnect : Bool
  now : Nat
  deriving DecidableEq

/-- A run that ended, on its way to the lock. -/
structure Completed (σ : Type) where
  slug : σ
  failed : Bool
  now : Nat
  deriving DecidableEq

structure State (σ : Type) where
  now : Nat
  gates : σ → Gates
  /-- The keys of the map; `slugs` is a new entry elsewhere. -/
  keys : List σ
  slugs : σ → SlugState
  woken : Bool
  shutdown : Bool
  calls : List (Call σ)
  runs : List σ
  completed : List (Completed σ)
  scheduler : Scheduler σ
  log : σ → List Entry

inductive Event (σ : Type) where
  | tick
  | set_gates (slug : σ) (gates : Gates)
  | call (slugs : List σ) (reconnect : Bool)
  | notify (c : Call σ)
  | ends (slug : σ) (failed : Bool)
  | complete (c : Completed σ)
  /-- The keys in the order the map gives them. -/
  | pass (slugs : List σ)
  | gates
  | apply
  | unlock
  | spawn
  | park
  | wake
  | stop

variable {σ : Type} [DecidableEq σ]

def Scheduler.locked : Scheduler σ → Bool
  | .pass _ _ _ _ => true
  | .ticks _ _ _ _ _ _ => true
  | _ => false

/-- The runs decided on and not spawned yet. -/
def Scheduler.to_run : Scheduler σ → List σ
  | .pass _ _ to_run _ => to_run
  | .ticks _ _ _ _ to_run _ => to_run
  | .spawns _ to_run _ => to_run
  | _ => []

def State.note (s : State σ) (slug : σ) (st : SlugState) (entries : List Entry) : State σ :=
  { s with
    slugs := Function.update s.slugs slug st
    log := Function.update s.log slug (entries ++ s.log slug) }

def State.notify_one (s : State σ) (timings : Timings) (reconnect : Bool) (now : Nat) (slug : σ) :
    State σ :=
  let triggered := .triggered (s.gates slug).all_open
  let s := { s with keys := if slug ∈ s.keys then s.keys else s.keys ++ [slug] }
  s.note slug (apply_notify (s.slugs slug) reconnect timings now)
    (if reconnect then [triggered, .reconnected] else [triggered])

variable (timings : Timings) (s : State σ)

def step : Event σ → Option (State σ)
  | .tick => some { s with now := s.now + 1 }
  | .set_gates slug gates =>
    let s' := { s with gates := Function.update s.gates slug gates }
    some (if gates.all_open then s' else s'.note slug (s.slugs slug) [.closed])
  | .call slugs reconnect =>
    if slugs = [] then none else some { s with calls := ⟨slugs, reconnect, s.now⟩ :: s.calls }
  | .notify c =>
    if c ∈ s.calls ∧ s.scheduler.locked = false then
      let s' := c.slugs.foldl (State.notify_one · timings c.reconnect c.now) s
      some { s' with calls := s.calls.erase c, woken := true }
    else none
  | .ends slug failed =>
    if slug ∈ s.runs then
      some { s with
        runs := s.runs.erase slug, completed := ⟨slug, failed, s.now⟩ :: s.completed }
    else none
  | .complete c =>
    if c ∈ s.completed ∧ s.scheduler.locked = false then
      let entry := if c.failed then .failed c.now else .succeeded
      let s' := if c.slug ∈ s.keys then
        s.note c.slug (apply_complete (s.slugs c.slug) c.failed timings c.now) [entry] else s
      some { s' with completed := s.completed.erase c, woken := true }
    else none
  | .pass slugs =>
    match s.scheduler with
    | .loop =>
      if s.shutdown then some { s with scheduler := .exited }
      else if slugs.Perm s.keys then
        some { s with woken := false, scheduler := .pass s.now slugs [] none }
      else none
    | _ => none
  | .gates =>
    match s.scheduler with
    | .pass now (slug :: slugs) to_run next_wake =>
      some { s with scheduler := .ticks now slug (s.gates slug) slugs to_run next_wake }
    | _ => none
  | .apply =>
    match s.scheduler with
    | .ticks now slug gates slugs to_run next_wake =>
      let (st, decision) := apply_tick (s.slugs slug) gates timings now
      match decision with
      | .Run =>
        some { s.note slug st [.started now] with
          scheduler := .pass now slugs (to_run ++ [slug]) next_wake }
      | .Defer t =>
        some { s.note slug st [] with
          scheduler := .pass now slugs to_run (some (next_wake.elim t (min · t))) }
      | .Skip _ =>
        some { s.note slug st [] with scheduler := .pass now slugs to_run next_wake }
    | _ => none
  | .unlock =>
    match s.scheduler with
    | .pass now [] to_run next_wake =>
      let wait := next_wake.elim timings.max_idle fun t => min (t - now) timings.max_idle
      some { s with scheduler := .spawns now to_run wait }
    | _ => none
  | .spawn =>
    match s.scheduler with
    | .spawns now (slug :: to_run) wait =>
      some { s with runs := slug :: s.runs, scheduler := .spawns now to_run wait }
    | _ => none
  | .park =>
    match s.scheduler with
    | .spawns _ [] wait =>
      if s.shutdown then some { s with scheduler := .exited }
      else if s.woken then some { s with scheduler := .loop }
      else some { s with scheduler := .parked (s.now + wait) }
    | _ => none
  | .wake =>
    match s.scheduler with
    | .parked _ => some { s with scheduler := .loop }
    | _ => none
  | .stop =>
    if s.scheduler.locked then none else some { s with shutdown := true, woken := true }

def engine : System (State σ) (Event σ) where
  init s := s.keys = [] ∧ s.slugs = (fun _ => {}) ∧ s.woken = false ∧ s.shutdown = false ∧
    s.calls = [] ∧ s.runs = [] ∧ s.completed = [] ∧ s.scheduler = .loop ∧ s.log = fun _ => []
  step s e s' := step timings s e = some s'

/-- How many runs of a peer are going: decided on, and not known to have ended. -/
def State.going (slug : σ) : Nat :=
  s.scheduler.to_run.count slug + s.runs.count slug + (s.completed.map Completed.slug).count slug

/-- The thread parks as long after the pass read the clock as a peer that waits is due later
than `max_idle` after it: at once where one is due before that. -/
def OnTime : Event σ → Prop
  | .park => s.woken = false → ∀ now wait, s.scheduler = .spawns now [] wait →
      ∀ slug, (s.slugs slug).pending = true → (s.slugs slug).running = false →
        ∀ t ∈ (s.slugs slug).earliest_start, s.now ≤ now + (t - now - timings.max_idle)
  | _ => True

/-! ## What each step keeps for one peer

The state of a peer is what its account comes to (`Paced`): the backoff is the one due after
the last failure, the rate floor is counted from the last start, and where the account says
that a trigger waits the peer is pending and its gates are open. A pass can do four things
with a peer (`Ticked`), and each of the laws is read off from these. -/

variable {timings : Timings} {st st' : SlugState} {gates : Gates} {now : Nat}

/-! ## What a pass does with a peer -/

/-- The constraints on a start lie behind. -/
def SlugState.Free (st : SlugState) (now : Nat) : Prop :=
  (∀ t ∈ st.rate_until, t ≤ now) ∧ ∀ t ∈ st.backoff_until, t ≤ now

theorem free_of_earliest (h : ∀ t ∈ st.earliest_start, t ≤ now) : st.Free now := by
  have hle : ∀ t ∈ [st.quiet_until, st.rate_until, st.backoff_until].reduceOption, t ≤ now := by
    intro t ht
    obtain ⟨m, hm⟩ := isSome_iff_exists.mp
      (List.isSome_max?_of_ne_nil (List.ne_nil_of_mem ht))
    have hmax := (List.max?_eq_some_iff.mp hm).2 t ht
    exact Nat.le_trans hmax (h m hm)
  refine ⟨fun t ht => hle t ?_, fun t ht => hle t ?_⟩
  · rw [List.reduceOption_mem_iff, mem_def.mp ht]
    exact List.mem_cons_of_mem _ List.mem_cons_self
  · rw [List.reduceOption_mem_iff, mem_def.mp ht]
    exact List.mem_cons_of_mem _ (List.mem_cons_of_mem _ List.mem_cons_self)

inductive Ticked (timings : Timings) (st : SlugState) (gates : Gates) (now : Nat) :
    SlugState → Decision → Prop where
  | ran (hpending : st.pending = true) (hrunning : st.running = false) (hfree : st.Free now) :
      Ticked timings st gates now
        { st with
          running := true
          pending := false
          quiet_until := none
          rate_until := some (now + timings.rate_floor) } .Run
  | kept (hrunning : st.running = true) : Ticked timings st gates now st (.Skip .Running)
  | dropped (reason : SkipReason)
      (hidle : st.pending = false ∨ st.running = false ∧ gates.all_open = false) :
      Ticked timings st gates now { st with pending := false } (.Skip reason)
  | deferred (t : Nat) (hstart : st.earliest_start = some t) (hlt : now < t) :
      Ticked timings st gates now st (.Defer t)

theorem first_failure_ne_running : gates.first_failure ≠ some .Running := by
  unfold Gates.first_failure
  repeat' split
  all_goals exact fun h => nomatch h

/-- Nothing runs before its earliest start. -/
theorem should_run_open (hpending : st.pending = true) (hrunning : st.running = false)
    (hgates : gates.first_failure = none) :
    (should_run st gates now = .Run ∧ ∀ t ∈ st.earliest_start, t ≤ now) ∨
    ∃ t, should_run st gates now = .Defer t ∧ st.earliest_start = some t ∧ now < t := by
  unfold should_run
  rw [hpending, hrunning, hgates]
  cases hstart : st.earliest_start with
  | none => exact Or.inl ⟨rfl, fun t ht => nomatch ht⟩
  | some t =>
    by_cases hlt : now < t
    · exact Or.inr ⟨t, by simp [hlt], rfl, hlt⟩
    · exact Or.inl ⟨by simp [hlt], fun t' ht' => by cases ht'; exact Nat.not_lt.mp hlt⟩

theorem apply_tick_cases (st : SlugState) (gates : Gates) (timings : Timings) (now : Nat) :
    Ticked timings st gates now (apply_tick st gates timings now).1
      (apply_tick st gates timings now).2 := by
  unfold apply_tick
  by_cases hpending : st.pending = true
  · by_cases hrunning : st.running = true
    · have hskip : should_run st gates now = .Skip .Running := by
        simp [should_run, hpending, hrunning]
      rw [hskip]
      exact .kept hrunning
    · have hidle : st.running = false := Bool.eq_false_iff.mpr hrunning
      cases hgates : gates.first_failure with
      | none =>
        rcases should_run_open hpending hidle hgates with ⟨hrun, hle⟩ | ⟨t, hdefer, hstart, hlt⟩
        · rw [hrun]
          exact .ran hpending hidle (free_of_earliest hle)
        · rw [hdefer]
          exact .deferred t hstart hlt
      | some reason =>
        have hclosed : gates.all_open = false := by rw [Gates.all_open, hgates]; rfl
        have hskip : should_run st gates now = .Skip reason := by
          simp [should_run, hpending, hidle, hgates]
        have hne : reason ≠ .Running := fun he => first_failure_ne_running (he ▸ hgates)
        rw [hskip]
        cases reason with
        | Running => exact absurd rfl hne
        | _ => exact .dropped _ (Or.inr ⟨hidle, hclosed⟩)
  · have hidle : st.pending = false := Bool.eq_false_iff.mpr hpending
    have hskip : should_run st gates now = .Skip .NoPending := by simp [should_run, hidle]
    rw [hskip]
    exact .dropped .NoPending (Or.inl hidle)

/-! ## What a peer's state comes to -/

structure Paced (timings : Timings) (st : SlugState) (all_open : Bool) (log : List Entry) :
    Prop where
  rate : ∀ t ∈ starts log, ∃ r ∈ st.rate_until, t + timings.rate_floor ≤ r
  apart : (starts log).Pairwise fun later earlier => earlier + timings.rate_floor ≤ later
  backoff : st.backoff_until = due timings log
  errors : st.consecutive_errors = min (failures log) (2 ^ 32 - 1)
  backed_off : ∀ t before, .started t :: before <:+ log → ∀ u ∈ due timings before, u ≤ t
  triggered : waits log = true → st.pending = true ∧ all_open = true

theorem Paced.new (timings : Timings) (all_open : Bool) : Paced timings {} all_open [] where
  rate _ ht := absurd ht List.not_mem_nil
  apart := List.Pairwise.nil
  backoff := rfl
  errors := rfl
  backed_off _ _ h := absurd (List.eq_nil_of_suffix_nil h) (List.cons_ne_nil _ _)
  triggered h := nomatch h

section
variable {all_open : Bool} {log : List Entry}

variable (h : Paced timings st all_open log)
include h

theorem Paced.notified (reconnect : Bool) (now : Nat) :
    Paced timings (apply_notify st reconnect timings now) all_open
      ((if reconnect then [.triggered all_open, .reconnected] else [.triggered all_open]) ++ log) := by
  cases reconnect with
  | false =>
    refine ⟨h.rate, h.apart, h.backoff, h.errors, fun t before hs => ?_, fun hw => ⟨rfl, hw⟩⟩
    have hold := (List.suffix_cons_iff.mp hs).resolve_left fun he => nomatch he
    exact h.backed_off t before hold
  | true =>
    refine ⟨h.rate, h.apart, rfl, rfl, fun t before hs => ?_, fun hw => ⟨rfl, hw⟩⟩
    have hold := (List.suffix_cons_iff.mp hs).resolve_left fun he => nomatch he
    have hold' := (List.suffix_cons_iff.mp hold).resolve_left fun he => nomatch he
    exact h.backed_off t before hold'

theorem Paced.ran (hfree : st.Free now) :
    Paced timings
      { st with
        running := true
        pending := false
        quiet_until := none
        rate_until := some (now + timings.rate_floor) } all_open (.started now :: log) := by
  have hlast : ∀ t ∈ starts log, t + timings.rate_floor ≤ now := by
    intro t ht
    obtain ⟨r, hr, hle⟩ := h.rate t ht
    exact Nat.le_trans hle (hfree.1 r hr)
  refine ⟨fun t ht => ⟨_, rfl, ?_⟩, List.pairwise_cons.mpr ⟨hlast, h.apart⟩, h.backoff, h.errors,
    fun t before hs => ?_, fun hw => nomatch hw⟩
  · rcases List.mem_cons.mp ht with rfl | hold
    · exact Nat.le_refl _
    · exact Nat.le_trans (hlast t hold) (Nat.le_add_right _ _)
  · rcases List.suffix_cons_iff.mp hs with he | hold
    · cases he
      rw [← h.backoff]
      exact hfree.2
    · exact h.backed_off t before hold

theorem Paced.dropped (hw : waits log = false) :
    Paced timings { st with pending := false } all_open log :=
  ⟨h.rate, h.apart, h.backoff, h.errors, h.backed_off, fun hw' => absurd hw' (Bool.eq_false_iff.mp hw)⟩

omit h in
/-- Past the last step of the backoff the delay stays the same, so a counter that saturates
gives the delay of all the failures. -/
theorem backoff_delay_saturating (n : Nat) (steps : Vector Nat 3) :
    backoff_delay (min (min n (2 ^ 32 - 1) + 1) (2 ^ 32 - 1)) steps.toList =
      backoff_delay (n + 1) steps.toList := by
  unfold backoff_delay
  rw [Vector.length_toList]
  congr 1
  omega

theorem Paced.completed (failed : Bool) (now : Nat) :
    Paced timings (apply_complete st failed timings now) all_open
      ((if failed then .failed now else .succeeded) :: log) := by
  cases failed with
  | false =>
    refine ⟨h.rate, h.apart, rfl, rfl, fun t before hs => ?_, h.triggered⟩
    have hold := (List.suffix_cons_iff.mp hs).resolve_left fun he => nomatch he
    exact h.backed_off t before hold
  | true =>
    refine ⟨h.rate, h.apart, ?_, ?_, fun t before hs => ?_, fun hw => ⟨rfl, (h.triggered hw).2⟩⟩
    · simp only [apply_complete, if_true, due, h.errors, backoff_delay_saturating]
    · simp only [apply_complete, if_true, failures, h.errors]
      omega
    · have hold := (List.suffix_cons_iff.mp hs).resolve_left fun he => nomatch he
      exact h.backed_off t before hold

/-- A gate closes, or only open ones change. -/
theorem Paced.closed :
    Paced timings st false (.closed :: log) := by
  refine ⟨h.rate, h.apart, h.backoff, h.errors, fun t before hs => ?_, fun hw => nomatch hw⟩
  have hold := (List.suffix_cons_iff.mp hs).resolve_left fun he => nomatch he
  exact h.backed_off t before hold

theorem Paced.opened : Paced timings st true log :=
  ⟨h.rate, h.apart, h.backoff, h.errors, h.backed_off, fun hw => ⟨(h.triggered hw).1, rfl⟩⟩

end

end Lpm.AutoSync
