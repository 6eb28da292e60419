/-
Every child that lives is in somebody's hands.
-/
import Lpm.Forwards.Tunnels

set_option autoImplicit false

open Transition

namespace Lpm.Forwards

open List Function

section
variable {α π : Type}

def Phase.opening : Phase π → Option (Opening π)
  | .tracks o => some o
  | .waits o => some o
  | .late o _ => some o
  | .claims o _ => some o
  | .registers o _ => some o
  | .registered o _ => some o
  | .serves o _ => some o
  | .aborts o _ => some o
  | .reaps o _ => some o
  | _ => none

def Phase.id : Phase π → Option Nat
  | .claims _ id => some id
  | .registers _ id => some id
  | .registered _ id => some id
  | .serves _ id => some id
  | _ => none

/-- Its child is its own to go on with or to kill. -/
def Phase.own : Phase π → Option (Opening π)
  | .tracks o => some o
  | .registers o _ => some o
  | .aborts o _ => some o
  | _ => none

/-- It registered its tunnel. -/
def Phase.served : Phase π → Option (Opening π × Nat)
  | .registered o id => some (o, id)
  | .serves o id => some (o, id)
  | _ => none

attribute [local grind] Phase.opening Phase.id Phase.own Phase.served Phase.starting Exit.pending
  Phase.request

section
variable {p : Phase π} {o : Opening π} {id : Nat}

variable (h : p.starting = some o)
include h

@[grind →] theorem starting_opening : p.opening = some o := by
  cases p <;> cases h <;> rfl

@[grind →] theorem starting_request : p.request = some o.request := by
  cases p <;> cases h <;> rfl

@[grind →] theorem starting_served : p.served = none := by
  cases p <;> cases h <;> rfl

@[grind →] theorem starting_own : p.own = none := by
  cases p <;> cases h <;> rfl

omit h

@[grind →] theorem own_opening (h : p.own = some o) : p.opening = some o := by
  cases p <;> cases h <;> rfl

@[grind →] theorem served_opening (h : p.served = some (o, id)) : p.opening = some o := by
  cases p <;> cases h <;> rfl

@[grind →] theorem served_id (h : p.served = some (o, id)) : p.id = some id := by
  cases p <;> cases h <;> rfl

@[grind →] theorem served_request (h : p.served = some (o, id)) : p.request = some o.request := by
  cases p <;> cases h <;> rfl

end

/-- The child of a call is the one it spawned, and no two calls spawned one. -/
structure Children (s : State α π) : Prop where
  ssh : ∀ a o, (s.phase a).opening = some o → s.ssh a = some o.pid
  born : ∀ a pid, s.ssh a = some pid → s.proc pid ≠ .unborn
  inj : ∀ a b pid, s.ssh a = some pid → s.ssh b = some pid → a = b

structure Ids (s : State α π) : Prop where
  lt : ∀ a n, (s.phase a).id = some n → n < s.counter
  inj : ∀ a b n, (s.phase a).id = some n → (s.phase b).id = some n → a = b

/-- Whose tunnels and whose children the map and the starting list hold. -/
structure Listed (s : State α π) : Prop where
  starting : ∀ pid ∈ s.starting, ∃ a o, (s.phase a).starting = some o ∧ o.pid = pid
  entry : ∀ e ∈ s.forwards, ∃ a o, (s.phase a).served = some (o, e.id) ∧ o.pid = e.pid ∧
    o.request.project = e.project

/-- A call goes on with it or kills it, it is starting, it is registered, or it was taken to
be killed. -/
def Held (s : State α π) (pid : Nat) : Prop :=
  (∃ a o, (s.phase a).own = some o ∧ o.pid = pid) ∨ pid ∈ s.starting ∨
  (∃ e ∈ s.forwards, e.pid = pid) ∨
  (∃ a pids changed, s.phase a = .kills pids changed ∧ pid ∈ pids) ∨ pid ∈ s.exit.pending

variable [DecidableEq α] [DecidableEq π] {s s' : State α π} {a : α}

theorem Children.took (hi : Children s) (h : Took s a s') : Children s' := by
  obtain ⟨h1, h2, h3⟩ := hi
  cases h <;> refine ⟨?_, ?_, ?_⟩ <;>
    simp only [State.go, State.kill, update_apply] <;> grind -ring -linarith -ac

theorem Ids.took (hi : Ids s) (h : Took s a s') : Ids s' := by
  obtain ⟨h1, h2⟩ := hi
  cases h <;> refine ⟨?_, ?_⟩ <;>
    simp only [State.go, State.kill, update_apply] <;> grind -ring -linarith -ac

theorem Listed.took (hi : Listed s) (hids : Ids s) (hc : Children s) (h : Took s a s') : Listed s' := by
  obtain ⟨h1, h2⟩ := hi
  obtain ⟨h3, h4⟩ := hids
  obtain ⟨h5, h6, h7⟩ := hc
  cases h <;> refine ⟨?_, ?_⟩ <;>
    simp only [State.go, State.kill, update_apply] <;> grind -ring -linarith -ac

variable {forwards : List (Forward π)}

omit [DecidableEq α] in
theorem mem_tunnels {project : π} {e : Forward π} :
    e ∈ tunnels forwards project ↔ e ∈ forwards ∧ e.project = project := by
  rw [tunnels, mem_filter, decide_eq_true_iff]

omit [DecidableEq α] [DecidableEq π] in
/-- The removal takes the tunnel it finds and leaves the others. -/
theorem mem_eraseP_or_find {found : Forward π → Bool}
    {e : Forward π} (h : e ∈ forwards) :
    e ∈ forwards.eraseP found ∨ forwards.find? found = some e := by
  induction forwards with
  | nil => exact absurd h not_mem_nil
  | cons e' rest ih =>
    cases hfound : found e' with
    | true =>
      rw [eraseP_cons_of_pos hfound, find?_cons_of_pos hfound]
      rcases mem_cons.mp h with rfl | hrest
      · exact Or.inr rfl
      · exact Or.inl hrest
    | false =>
      have hnot : ¬ found e' = true := by simp [hfound]
      rw [eraseP_cons_of_neg hnot, find?_cons_of_neg hnot]
      rcases mem_cons.mp h with rfl | hrest
      · exact Or.inl mem_cons_self
      · exact (ih hrest).imp_left (mem_cons_of_mem e')

theorem Held.took (hheld : ∀ pid, s.proc pid = .alive → Held s pid) (hi : Listed s)
    (hids : Ids s) (h : Took s a s') (pid : Nat) (hp : s'.proc pid = .alive) : Held s' pid := by
  have hh := hheld pid
  obtain ⟨h1, h2⟩ := hi
  obtain ⟨h3, h4⟩ := hids
  unfold Held at hh ⊢
  cases h <;> simp only [State.go, State.kill, update_apply] at hp ⊢
  -- the child goes from the call to the map
  case register o id hphase =>
    have hnew : ∀ e : Forward π, e ∈ s.forwards ++ [e] := fun e =>
      mem_append_right _ (mem_singleton_self e)
    have hpushed := hnew ⟨o.request.project, id, o.local_port, o.request.port, o.pid⟩
    grind -ring -linarith -ac
  -- and from the map to the call that took it out
  case remove found hphase =>
    have hsplit := fun e => @mem_eraseP_or_find π s.forwards found e
    cases hfind : s.forwards.find? found with
    | none | some e => grind -ring -linarith -ac
  case drain project hphase pids hpids =>
    have hsplit : ∀ e ∈ s.forwards,
        e ∈ s.forwards.filter (·.project ≠ project) ∨ e.pid ∈ pids := by
      intro e he
      by_cases hproject : e.project = project
      · right
        rw [hpids]
        exact List.mem_map_of_mem (mem_tunnels.mpr ⟨he, hproject⟩)
      · left
        exact mem_filter.mpr ⟨he, by simpa using hproject⟩
    have hself : (if a = a then Phase.kills pids (!pids.isEmpty) else s.phase a) =
        .kills pids (!pids.isEmpty) := if_pos rfl
    grind -ring -linarith -ac
  all_goals grind -ring -linarith -ac

end

section
variable {α π : Type} [DecidableEq π] {s s' : State α π}

attribute [local grind] Exit.pending

theorem Children.exits (hi : Children s) (h : ExitTook s s') : Children s' := by
  obtain ⟨h1, h2, h3⟩ := hi
  cases h <;> refine ⟨?_, ?_, ?_⟩ <;> simp only [State.kill, update_apply] <;> grind -ring -linarith -ac

theorem Ids.exits (hi : Ids s) (h : ExitTook s s') : Ids s' := by
  obtain ⟨h1, h2⟩ := hi
  cases h <;> exact ⟨h1, h2⟩

theorem Listed.exits (hi : Listed s) (h : ExitTook s s') : Listed s' := by
  obtain ⟨h1, h2⟩ := hi
  cases h <;> refine ⟨?_, ?_⟩ <;> simp only [State.kill] <;> grind -ring -linarith -ac

theorem Held.exits (hheld : ∀ pid, s.proc pid = .alive → Held s pid)
    (h : ExitTook s s') (pid : Nat) (hp : s'.proc pid = .alive) : Held s' pid := by
  have hh := hheld pid
  unfold Held at hh ⊢
  cases h <;> simp only [State.kill, update_apply] at hp ⊢ <;> grind -ring -linarith -ac

end

/-! ## A stop, and the exit

A stop is against the requests decided before it, the exit against all of them. What both rest on is the generation: it only grows, a registration holds it while it
compares and pushes, and a stop bumps it before it empties the map. So a request that a
stop found decided is behind the generation from then on, and what it had registered by
then is in the map for the stop to take. -/

/-- The exit has bumped the generations. -/
def Exit.past_bump : Exit → Bool
  | .running => false
  | .begun _ => false
  | _ => true

/-- And it has emptied the map. -/
def Exit.past_take : Exit → Bool
  | .kills _ => true
  | .returned => true
  | _ => false

section
variable {α π : Type}

attribute [local grind] Phase.opening Phase.id Phase.own Phase.served Phase.starting Exit.pending
  Phase.request Exit.past_bump Exit.past_take State.quitting

structure Epochs (s : State α π) : Prop where
  behind : ∀ a r, (s.phase a).request = some r → ∃ n, s.epochs r.project = some n ∧ r.epoch ≤ n ∧
    ∀ b, s.stopped b a = true → r.epoch < n
  locked : ∀ a o id, s.phase a = .registers o id →
    s.epochs_lock = some a ∧ s.epochs o.request.project = some o.request.epoch
  fresh : ∀ a b, s.phase a = .unused → s.stopped b a = false

/-- What a stopped request had registered is still in the map only before the stop takes it. -/
def Untaken (s : State α π) : Prop :=
  ∀ e ∈ s.forwards, ∀ a o, (s.phase a).served = some (o, e.id) →
    ∀ b, s.stopped b a = true → s.phase b = .bumped e.project

structure Exiting (s : State α π) : Prop where
  starting : s.exit ≠ .running → s.starting = []
  behind : s.exit.past_bump = true → ∀ a o, (s.phase a).starting = some o →
    ∃ n, s.epochs o.request.project = some n ∧ o.request.epoch < n
  registers : s.exit.past_bump = true → ∀ a o id, s.phase a ≠ .registers o id
  forwards : s.exit.past_take = true → s.forwards = []

variable [DecidableEq α] [DecidableEq π] {s s' : State α π} {a : α}

omit [DecidableEq π] in
/-- A stop finds the requests of its project that are not at their end. -/
theorem stop_iff [DecidableEq π] {b c : α} {project : π} :
    s.stop b project c a = true ↔
      if c = b then ∃ r, (s.phase a).request = some r ∧ r.project = project
      else s.stopped c a = true := by
  unfold State.stop
  by_cases hc : c = b
  · subst hc
    rw [update_self, if_pos rfl]
    cases (s.phase a).request with
    | none => simp
    | some r => simp
  · rw [update_of_ne hc, if_neg hc]

theorem Epochs.took (hi : Epochs s) (h : Took s a s') : Epochs s' := by
  obtain ⟨h1, h2, h3⟩ := hi
  cases h <;> refine ⟨?_, ?_, ?_⟩ <;>
    simp only [State.go, State.kill, update_apply, Bool.eq_false_iff, ne_eq, stop_iff]
  -- nobody has stopped a call that begins
  case decide.refine_1 r hunused hlock hepoch =>
    intro b rb hb
    by_cases hba : b = a
    · subst hba
      rw [if_pos rfl] at hb
      obtain rfl : r = rb := Option.some.inj hb
      refine ⟨r.epoch, if_pos rfl, Nat.le_refl _, fun c hc => ?_⟩
      rw [h3 b c hunused] at hc
      cases hc
    · rw [if_neg hba] at hb
      have hbehind := h1 b rb hb
      grind -ring -linarith -ac
  -- the generation is still the one of the decision
  case claim.refine_2 o id hphase hlock hours hepoch =>
    have hr : (s.phase a).request = some o.request := by rw [hphase]; rfl
    have hbehind := h1 a o.request hr
    grind -ring -linarith -ac
  all_goals grind -ring -linarith -ac

theorem Untaken.took (hi : Untaken s) (he : Epochs s) (hl : Listed s) (hids : Ids s)
    (h : Took s a s') : Untaken s' := by
  obtain ⟨h1, h2, h3⟩ := he
  obtain ⟨h4, h5⟩ := hl
  obtain ⟨h6, h7⟩ := hids
  unfold Untaken at hi ⊢
  cases h <;> simp only [State.go, State.kill, update_apply, stop_iff] <;> grind -ring -linarith -ac

variable (hi : Exiting s)
include hi

variable (h : Took s a s')
include h

/-- No request is tracked any more once the exit has begun. -/
theorem Exiting.took_starting :
    s'.exit ≠ .running → s'.starting = [] := by
  have hnone := hi.starting
  cases h <;> simp only [State.go, State.kill] <;> grind -ring -linarith -ac

/-- And every one that is still opening was decided before the exit's bump. -/
theorem Exiting.took_behind :
    s'.exit.past_bump = true → ∀ b o, (s'.phase b).starting = some o →
      ∃ n, s'.epochs o.request.project = some n ∧ o.request.epoch < n := by
  have hnone := hi.starting
  have hbehind := hi.behind
  cases h <;> simp only [State.go, State.kill, update_apply] <;> grind -ring -linarith -ac

/-- So none of them gets to register. -/
theorem Exiting.took_registers :
    s'.exit.past_bump = true → ∀ b o id, s'.phase b ≠ .registers o id := by
  have hbehind := hi.behind
  have hregisters := hi.registers
  cases h <;> simp only [State.go, State.kill, update_apply]
  -- the generation a request compares with is past its own
  case claim o id hphase hlock hours hepoch =>
    intro hbump
    have hs : (s.phase a).starting = some o := by rw [hphase]; rfl
    have hlate := hbehind hbump a o hs
    grind -ring -linarith -ac
  all_goals grind -ring -linarith -ac

theorem Exiting.took_forwards :
    s'.exit.past_take = true → s'.forwards = [] := by
  have hforwards := hi.forwards
  cases h <;> simp only [State.go, State.kill]
  case register o id hphase =>
    intro htake
    have hbump : s.exit.past_bump = true := by
      cases hexit : s.exit <;> rw [hexit] at htake <;> first | rfl | cases htake
    exact absurd hphase (hi.registers hbump a o id)
  all_goals grind -ring -linarith -ac

theorem Exiting.took : Exiting s' :=
  ⟨hi.took_starting h, hi.took_behind h, hi.took_registers h, hi.took_forwards h⟩

end

section
variable {α π : Type} [DecidableEq π] {s s' : State α π}

attribute [local grind] Exit.past_bump Exit.past_take

theorem Epochs.exits (hi : Epochs s) (h : ExitTook s s') : Epochs s' := by
  obtain ⟨h1, h2, h3⟩ := hi
  cases h <;> refine ⟨?_, ?_, ?_⟩ <;> simp only [State.kill] <;> grind -ring -linarith -ac

theorem Untaken.exits (hi : Untaken s) (h : ExitTook s s') : Untaken s' := by
  unfold Untaken at hi ⊢
  cases h <;> simp only [State.kill] <;> grind -ring -linarith -ac

theorem Exiting.exits (hi : Exiting s) (he : Epochs s) (h : ExitTook s s') : Exiting s' := by
  obtain ⟨h1, h2, h3, h4⟩ := hi
  obtain ⟨h5, h6, h7⟩ := he
  cases h <;> refine ⟨?_, ?_, ?_, ?_⟩ <;> simp only [State.kill] <;> grind -ring -linarith -ac

end

end Lpm.Forwards
