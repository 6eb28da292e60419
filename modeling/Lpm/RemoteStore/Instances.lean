/-
Any number of processes with one settings file between them.

A save takes the store lock of its process and then the lock of the file, copies the memory,
reads the file, writes it and then takes what it wrote into memory; a refresh reads the
file and then copies from it, under the store lock alone. Any of these steps of one process
may come between two of another, the file may be damaged and come back at any moment, and
a process may be started again wherever it stands.

`changes` is kept for the account: the changes that reached the file, in that order, each
with the memory it was made over.
-/
import Lpm.Lib.Transition
import Lpm.RemoteStore.Store

set_option autoImplicit false

open Transition

namespace Lpm.RemoteStore

open List

variable {Raw δ ν τ ι : Type}

/-- A save under way. What the memory held when it began and the file when it got the lock
are kept for the account. -/
structure Save (Raw δ ν τ : Type) where
  f : Change τ δ ν
  mem : RemoteConfig δ ν
  file : File Raw

/-- Where a process stands. -/
inductive Phase (Raw δ ν τ : Type) where
  | idle
  /-- It has the store lock, not the file's. -/
  | waits (f : Change τ δ ν) (mem : RemoteConfig δ ν)
  | reads (o : Save Raw δ ν τ) (current : RemoteConfig δ ν)
  | writes (o : Save Raw δ ν τ) (current : RemoteConfig δ ν) (out : τ) (next : RemoteConfig δ ν)
      (raw : Option Raw)
  | remembers (o : Save Raw δ ν τ) (out : τ) (next : RemoteConfig δ ν)
  | refreshes
  | adopts (disk : RemoteConfig δ ν)

/-- The save a process is at, once it has got the lock of the file. -/
def Phase.save : Phase Raw δ ν τ → Option (Save Raw δ ν τ)
  | .reads o _ => some o
  | .writes o _ _ _ _ => some o
  | .remembers o _ _ => some o
  | _ => none

/-- A change that reached the file. -/
structure Done (ι τ δ ν : Type) where
  instance_ : ι
  mem : RemoteConfig δ ν
  f : Change τ δ ν

structure State (ι Raw δ ν τ : Type) where
  file : File Raw
  /-- What a read gives instead, as long as the file is damaged. -/
  damage : Option (File Raw)
  flock : Option ι
  mem : ι → RemoteConfig δ ν
  phase : ι → Phase Raw δ ν τ
  changes : List (Done ι τ δ ν)

def State.read (s : State ι Raw δ ν τ) : File Raw := s.damage.getD s.file

inductive Act (τ δ ν : Type) where
  | update (f : Change τ δ ν)
  | lock_file (got : Bool)
  | read_base
  | write (io : Except String Unit)
  | remember
  | refresh_devices
  | try_refresh_devices
  | consult
  | adopt
  | restart

inductive Event (ι Raw τ δ ν : Type) where
  | of (i : ι) (a : Act τ δ ν)
  | hurt (read : File Raw)
  | heal

/-- What a save returns. -/
abbrev Answer (τ : Type) : Type := Except StoreError (Option τ)

variable [DecidableEq ι] [DecidableEq Raw] (c : Serde Raw δ ν) (path : String)

variable (s : State ι Raw δ ν τ)

def State.go (i : ι) (p : Phase Raw δ ν τ) : State ι Raw δ ν τ :=
  { s with phase := Function.update s.phase i p }

/-- Both locks are let go. -/
def State.leave (i : ι) : State ι Raw δ ν τ :=
  { s.go i .idle with flock := if s.flock = some i then none else s.flock }

def State.memorize (i : ι) (cfg : RemoteConfig δ ν) :
    State ι Raw δ ν τ :=
  { s with mem := Function.update s.mem i cfg }

/-- The change is in the file: the bytes replace what was there, damaged or not, and where
the file held them already nothing is written. -/
def State.commit (d : Done ι τ δ ν) (data : Option Raw) :
    State ι Raw δ ν τ :=
  { s with
    file := (data.map .ok).getD s.file
    damage := if data.isSome then none else s.damage
    changes := s.changes ++ [d] }

/-- One step of `update_at` or of `adopt_devices` in a process, and what its save returns
where that ends it. -/
def act (i : ι) : Act τ δ ν → Phase Raw δ ν τ →
    Option (State ι Raw δ ν τ × Option (Answer τ))
  | .update f, .idle => some (s.go i (.waits f (s.mem i)), none)
  | .lock_file true, .waits f mem =>
    if s.flock = none then
      some ({ s.go i (.reads ⟨f, mem, s.file⟩ (s.mem i)) with flock := some i }, none)
    else none
  -- the lock cannot be had: the save goes on without it
  | .lock_file false, .waits f mem => some (s.go i (.reads ⟨f, mem, s.file⟩ (s.mem i)), none)
  | .read_base, .reads o current =>
    match (read_base c path s.read).start current with
    | .error e => some (s.leave i, some (.error e))
    | .ok (next, raw) =>
      match o.f (rebase_owned_settings next current) with
      | none => some (s.leave i, some (.ok none))
      | some (out, next) => some (s.go i (.writes o current out next raw), none)
  | .write io, .writes o current out next raw =>
    match write_config_unless_same c next raw io with
    | .error e => some (s.leave i, some (.error (.Write e)))
    | .ok data => some ((s.commit ⟨i, current, o.f⟩ data).go i (.remembers o out next), none)
  | .remember, .remembers _ out next => some ((s.memorize i next).leave i, some (.ok (some out)))
  | .refresh_devices, .idle => some (s.go i .refreshes, none)
  | .try_refresh_devices, .idle => some (s.go i .refreshes, none)
  -- the store is busy: nothing is read and nothing changed
  | .try_refresh_devices, _ => some (s, none)
  | .consult, .refreshes =>
    match read_base c path s.read with
    | .Disk disk _ => some (s.go i (.adopts disk), none)
    | .FirstRun => some (s.go i .idle, none)
    | .Unusable _ => some (s.go i .idle, none)
  | .adopt, .adopts disk => some ((s.memorize i ((s.mem i).adopt disk)).go i .idle, none)
  | .restart, _ => some ((s.memorize i (load_config c s.read)).leave i, none)
  | _, _ => none

def step :
    Event ι Raw τ δ ν → Option (State ι Raw δ ν τ × Option (ι × Answer τ))
  | .of i a => (act c path s i a (s.phase i)).map fun (s', answer) => (s', answer.map (i, ·))
  | .hurt read => if (read_config c read).isNone then some ({ s with damage := some read }, none)
    else none
  | .heal => some ({ s with damage := none }, none)

def next (e : Event ι Raw τ δ ν) : Option (State ι Raw δ ν τ) :=
  (step c path s e).map Prod.fst

/-- The processes over a file that is not there yet or that one of them wrote. What a
damaged file gives to read is no configuration. -/
def instances (file : File Raw) : System (State ι Raw δ ν τ) (Event ι Raw τ δ ν) where
  init s := s.file = file ∧ (∀ e, read_base c path file ≠ .Unusable e) ∧ s.damage = none ∧
    s.flock = none ∧ (∀ i, s.phase i = .idle) ∧ (∀ i, s.mem i = load_config c file) ∧
    s.changes = []
  step s e s' := ∃ answer, step c path s e = some (s', answer)

/-- Every save gets the lock of the file, and a damaged file is still there. -/
def Locked (_ : State ι Raw δ ν τ) : Event ι Raw τ δ ν → Prop
  | .of _ (.lock_file got) => got = true
  | .hurt read => read ≠ .error .NotFound
  | _ => True

/-- And what is there of a damaged file is not nothing: it cannot be taken for a file that
was never written. -/
def Minded (_ : State ι Raw δ ν τ) : Event ι Raw τ δ ν → Prop
  | .of _ (.lock_file got) => got = true
  | .hurt read => ∃ e, read_base c path read = .Unusable e
  | _ => True

/-! ## The changes one after another -/

/-- The change made over what the one before left, with the settings of its own process on
top. -/
def Done.apply (cfg : RemoteConfig δ ν) (d : Done ι τ δ ν) : RemoteConfig δ ν :=
  match d.f (rebase_owned_settings cfg d.mem) with
  | some (_, next) => next
  | none => cfg

def replay (cfg : RemoteConfig δ ν) (changes : List (Done ι τ δ ν)) : RemoteConfig δ ν :=
  changes.foldl Done.apply cfg

section
variable {c : Serde Raw δ ν} {path : String} {C : State ι Raw δ ν τ → Event ι Raw τ δ ν → Prop}
variable {file : File Raw} {s s' : State ι Raw δ ν τ}

theorem reachable_run {events : List (Event ι Raw τ δ ν)}
    (h : Reachable ((instances c path file).when C) s) (hC : ∀ e ∈ events, ∀ s, C s e)
    (hrun : events.foldlM (next c path) s = some s') :
    Reachable ((instances c path file).when C) s' := by
  refine h.run_when (fun s e s' hnext => ?_) hC hrun
  obtain ⟨⟨_, answer⟩, hstep, rfl⟩ := Option.map_eq_some_iff.mp hnext
  exact ⟨answer, hstep⟩

end

section
variable {cfg : RemoteConfig δ ν} {changes : List (Done ι τ δ ν)} {d : Done ι τ δ ν}

omit [DecidableEq ι] in
theorem replay_concat : replay cfg (changes ++ [d]) = d.apply (replay cfg changes) := by
  rw [replay, foldl_append]
  rfl

omit [DecidableEq ι] in
/-- What every change keeps of the common part holds at the end. -/
theorem replay_keeps {P : Shared δ ν → Prop} (h0 : P cfg.shared)
    (hkeep : ∀ d ∈ changes, ∀ cfg out next, P cfg.shared → d.f cfg = some (out, next) →
      P next.shared) : P (replay cfg changes).shared := by
  induction changes generalizing cfg with
  | nil => exact h0
  | cons d rest ih =>
    refine ih ?_ fun d hd => hkeep d (mem_cons_of_mem _ hd)
    unfold Done.apply
    split
    · next h =>
      exact hkeep d mem_cons_self (rebase_owned_settings cfg d.mem) _ _ h0 h
    · exact h0

end

end Lpm.RemoteStore
