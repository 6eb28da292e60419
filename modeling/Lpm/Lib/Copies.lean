/-
A value that threads share under a lock, and save by the copies they take of it.

An operation is a list of turns with the lock. In a turn it changes the value or leaves it
alone and is over; where it is to be saved, a copy is taken under the lock as well, and is
written once the lock is given back. So between a copy and its write another operation may
change the value, take a copy and write it.

The newest copy that is not written, or the saved value where there is none, is the shared
value, unless some operation is still to save a change (`Copies.Fresh`). A write keeps this if
it is of the oldest copy, and only then is it safe that the lock is given back before the write: with
nothing going on, the value is saved (`saved_when_idle`).
-/
import Lpm.Lib.Transition

set_option autoImplicit false

open Transition

namespace Copies

open List Option Function

/-- What an operation does in one turn: nothing, and it is over, or a change. -/
inductive Outcome (σ : Type) where
  | leaves
  | changes (value : σ) (saves : Bool)

abbrev Turn (σ : Type) : Type := σ → Outcome σ

/-- Where an operation stands, with the turns it has left. -/
inductive Phase (σ : Type) where
  | waiting (rest : List (Turn σ))
  /-- The lock is held, and the value is changed. -/
  | changed (saves : Bool) (rest : List (Turn σ))
  /-- The lock is held, and a copy is taken. -/
  | copied (rest : List (Turn σ))
  /-- The lock is given back, and the copy is to be written. -/
  | writing (rest : List (Turn σ))

structure State (σ : Type) where
  value : σ
  file : σ
  holder : Option ℕ := none
  ops : ℕ → Option (Phase σ) := fun _ => none
  /-- The copies not written yet and whose they are, in the order they were taken. -/
  copies : List (ℕ × σ) := []

inductive Event (ω : Type) where
  | start (i : ℕ) (op : ω)
  | turn (i : ℕ)
  | copy (i : ℕ)
  | release (i : ℕ)
  | write (i : ℕ)
  /-- The program ends, at any moment, and reads the file when it is started again. -/
  | restart

variable {σ ω : Type}

/-- An operation goes on with its next turn, or is over. -/
def after (rest : List (Turn σ)) : Option (Phase σ) :=
  if rest = [] then none else some (.waiting rest)

namespace State

variable (s : State σ)

def become (i : ℕ) (phase : Option (Phase σ)) : State σ :=
  { s with ops := Function.update s.ops i phase }

/-- A turn with the lock. -/
def take_turn (i : ℕ) (turn : Turn σ) (rest : List (Turn σ)) : State σ :=
  match turn s.value with
  | .leaves => s.become i none
  | .changes value saves => { s with value, holder := some i }.become i (some (.changed saves rest))

/-- An operation writes the copy it took. -/
def write_copy (i : ℕ) (copy : σ) : State σ :=
  { s with file := copy, copies := s.copies.eraseP fun c => c.1 == i }

def step (turns : ω → List (Turn σ)) (s : State σ) : Event ω → Option (State σ)
  | .start i op =>
    if (s.ops i).isNone then some (s.become i (after (turns op))) else none
  | .turn i =>
    match s.ops i, s.holder with
    | some (.waiting (turn :: rest)), none => some (s.take_turn i turn rest)
    | _, _ => none
  | .copy i =>
    match s.ops i with
    | some (.changed true rest) =>
      some ({ s with copies := s.copies ++ [(i, s.value)] }.become i (some (.copied rest)))
    | _ => none
  | .release i =>
    match s.ops i with
    | some (.changed false rest) => some ({ s with holder := none }.become i (after rest))
    | some (.copied rest) => some ({ s with holder := none }.become i (some (.writing rest)))
    | _ => none
  | .write i =>
    match s.ops i, s.copies.find? fun c => c.1 == i with
    | some (.writing rest), some c => some ((s.write_copy i c.2).become i (after rest))
    | _, _ => none
  | .restart => some { value := s.file, file := s.file }

/-- No operation is going on. -/
def Idle : Prop := ∀ i, s.ops i = none

/-- What the file will hold once all copies are written in their order. -/
def newest : σ := (s.copies.map Prod.snd).getLastD s.file

end State

/-! ## Operations that save what they change -/

/-- The turn leaves nothing that is changed and not saved. -/
def Outcome.Saved : Outcome σ → Prop
  | .leaves => True
  | .changes _ saves => saves = true

/-- The next turn saves, whatever the value is by then. -/
def Pays : List (Turn σ) → Prop
  | [] => False
  | turn :: _ => ∀ v, ∃ v', turn v = .changes v' true

/-- A turn that changes the value and does not save it is followed by one that saves. -/
def Fair : List (Turn σ) → Prop
  | [] => True
  | turn :: rest => (∀ v v', turn v = .changes v' false → Pays rest) ∧ Fair rest

theorem fair_saved {turns : List (Turn σ)} (h : ∀ turn ∈ turns, ∀ v, (turn v).Saved) :
    Fair turns := by
  induction turns with
  | nil => trivial
  | cons turn rest ih =>
    refine ⟨fun v v' hturn => ?_, ih fun t ht => h t (mem_cons_of_mem _ ht)⟩
    have hsaved : (turn v).Saved := h turn mem_cons_self v
    rw [hturn] at hsaved
    exact nomatch hsaved

/-- Any number of operations at a time, each with its turns, in any order. -/
def system (turns : ω → List (Turn σ)) : System (State σ) (Event ω) where
  init s := ∃ v, s = { value := v, file := v }
  step s e s' := s.step turns e = some s'

/-- Copies are written in the order they were taken. -/
def InOrder (s : State σ) : Event ω → Prop
  | .write i => s.copies.head?.map Prod.fst = some i
  | _ => True

/-- The turns an operation has left. -/
def Phase.rest : Phase σ → List (Turn σ)
  | .waiting rest | .changed _ rest | .copied rest | .writing rest => rest

/-- The operation is still to take a copy of a change. -/
def Phase.Owes : Phase σ → Prop
  | .waiting rest | .changed false rest => Pays rest
  | .changed true _ => True
  | .copied _ | .writing _ => False

/-- The operation has a copy that it has not written. -/
def Phase.Holds : Phase σ → Prop
  | .copied _ | .writing _ => True
  | _ => False

structure Fresh (s : State σ) : Prop where
  newest : s.newest = s.value ∨ ∃ i phase, s.ops i = some phase ∧ phase.Owes
  fair : ∀ i phase, s.ops i = some phase → Fair phase.rest
  holds : ∀ c ∈ s.copies, ∃ phase, s.ops c.1 = some phase ∧ phase.Holds
  distinct : (s.copies.map Prod.fst).Nodup

section
variable {s s' : State σ} {i : ℕ}

@[simp] theorem newest_nil (h : s.copies = []) : s.newest = s.file := by
  rw [State.newest, h]
  rfl

variable {rest : List (Turn σ)}

theorem after_some {phase : Phase σ} (h : after rest = some phase) :
    phase = .waiting rest := by
  rw [after] at h
  split at h
  · exact nomatch h
  · exact (some.inj h).symm

theorem Pays.after (h : Pays rest) :
    ∃ phase, Copies.after rest = some phase ∧ phase.Owes := by
  refine ⟨.waiting rest, if_neg fun hnil => ?_, h⟩
  rw [hnil] at h
  exact h

theorem fair_after (h : Fair rest) :
    ∀ phase, after rest = some phase → Fair phase.rest := by
  intro phase hphase
  rw [after_some hphase]
  exact h

theorem fresh_start (v : σ) : Fresh { value := v, file := v } :=
  ⟨Or.inl rfl, fun _ _ hp => (nomatch hp), fun _ hc => (nomatch hc), nodup_nil⟩

/-- One operation goes on: the newest copy is the value, or something is owed, as before. -/
theorem Fresh.become (h : Fresh s) {phase' : Option (Phase σ)}
    (hops : s'.ops = Function.update s.ops i phase')
    (hnewest : s'.newest = s'.value ∨ (∃ phase, phase' = some phase ∧ phase.Owes) ∨
      s'.newest = s.newest ∧ s'.value = s.value ∧
        ∀ phase, s.ops i = some phase → phase.Owes → ∃ phase, phase' = some phase ∧ phase.Owes)
    (hfair : ∀ phase, phase' = some phase → Fair phase.rest)
    (hholds : ∀ c ∈ s'.copies, (c.1 = i ∧ ∃ phase, phase' = some phase ∧ phase.Holds) ∨
      c.1 ≠ i ∧ c ∈ s.copies)
    (hdistinct : (s'.copies.map Prod.fst).Nodup) : Fresh s' := by
  have howes : (∃ phase, phase' = some phase ∧ phase.Owes) →
      ∃ j phase, s'.ops j = some phase ∧ phase.Owes := by
    rintro ⟨phase, hphase, howes⟩
    refine ⟨i, phase, ?_, howes⟩
    rw [hops, update_self, hphase]
  refine ⟨?_, fun j phase hphase => ?_, fun c hc => ?_, hdistinct⟩
  -- the operation pays what is owed, or another one still owes it
  · rcases hnewest with hnow | hpays | ⟨hsame, hvalue, hkeep⟩
    · exact Or.inl hnow
    · exact Or.inr (howes hpays)
    · rcases h.newest with hnow | ⟨j, phase, hphase, hj⟩
      · exact Or.inl (by rw [hsame, hnow, hvalue])
      · right
        by_cases he : j = i
        · subst he
          exact howes (hkeep phase hphase hj)
        · refine ⟨j, phase, ?_, hj⟩
          rw [hops, update_of_ne he, hphase]
  · by_cases he : j = i
    · subst he
      rw [hops, update_self] at hphase
      exact hfair phase hphase
    · rw [hops, update_of_ne he] at hphase
      exact h.fair j phase hphase
  · rcases hholds c hc with ⟨he, phase, hphase, hold⟩ | ⟨he, hold⟩
    · refine ⟨phase, ?_, hold⟩
      rw [hops, he, update_self, hphase]
    · obtain ⟨phase, hphase, hold⟩ := h.holds c hold
      refine ⟨phase, ?_, hold⟩
      rw [hops, update_of_ne he, hphase]

/-- An operation that has no copy is not among those whose copies are there. -/
theorem Fresh.no_copy (h : Fresh s) {phase : Option (Phase σ)} (hphase : s.ops i = phase)
    (hnot : ∀ p, phase = some p → ¬ p.Holds) : ∀ c ∈ s.copies, c.1 ≠ i := by
  rintro c hc rfl
  obtain ⟨p, hp, hholds⟩ := h.holds c hc
  exact hnot p (hphase.symm.trans hp) hholds

theorem Fresh.turn (h : Fresh s) {turn : Turn σ}
    (hphase : s.ops i = some (.waiting (turn :: rest))) : Fresh (s.take_turn i turn rest) := by
  have hfair : Fair (turn :: rest) := h.fair i _ hphase
  have hno : ∀ c ∈ s.copies, c.1 ≠ i := h.no_copy hphase (by rintro _ ⟨⟩; exact id)
  unfold State.take_turn
  cases hturn : turn s.value with
  | leaves =>
    refine h.become rfl (Or.inr (Or.inr ⟨rfl, rfl, fun phase hp howes => ?_⟩))
      (fun _ hp => nomatch hp) (fun c hc => Or.inr ⟨hno c hc, hc⟩) h.distinct
    -- an operation that is to save does not leave
    obtain rfl := some.inj (hphase.symm.trans hp)
    obtain ⟨v, hv⟩ := howes s.value
    rw [hturn] at hv
    exact nomatch hv
  | changes value saves =>
    refine h.become (rfl : _ = Function.update s.ops i (some (.changed saves rest)))
      (Or.inr (Or.inl ⟨_, rfl, ?_⟩))
      (by rintro _ ⟨⟩; exact hfair.2) (fun c hc => Or.inr ⟨hno c hc, hc⟩) h.distinct
    cases saves with
    | true => trivial
    | false => exact hfair.1 _ _ hturn

theorem Fresh.copy (h : Fresh s)
    (hphase : s.ops i = some (.changed true rest)) :
    Fresh ({ s with copies := s.copies ++ [(i, s.value)] }.become i (some (.copied rest))) := by
  have hno : ∀ c ∈ s.copies, c.1 ≠ i := h.no_copy hphase (by rintro _ ⟨⟩; exact id)
  have hfair : Fair rest := h.fair i _ hphase
  refine h.become rfl (Or.inl ?_) (by rintro _ ⟨⟩; exact hfair) (fun c hc => ?_) ?_
  · simp [State.newest, State.become]
  · rcases mem_append.mp hc with hold | hnew
    · exact Or.inr ⟨hno c hold, hold⟩
    · obtain rfl := mem_singleton.mp hnew
      exact Or.inl ⟨rfl, _, rfl, trivial⟩
  · change ((s.copies ++ [(i, s.value)]).map Prod.fst).Nodup
    rw [map_append, nodup_append]
    refine ⟨h.distinct, pairwise_singleton _ _, fun a ha b hb => ?_⟩
    obtain ⟨c, hc, rfl⟩ := List.mem_map.mp ha
    obtain rfl := mem_singleton.mp hb
    exact hno c hc

/-- The oldest copy is written, so that the newest stays what it was. -/
theorem Fresh.write (h : Fresh s) (hphase : s.ops i = some (.writing rest))
    {copy : σ} {copies : List (ℕ × σ)} (hcopies : s.copies = (i, copy) :: copies) :
    Fresh ((s.write_copy i copy).become i (after rest)) := by
  have hdistinct := h.distinct
  rw [hcopies, map_cons, nodup_cons] at hdistinct
  have hleft : ((s.write_copy i copy).become i (after rest)).copies = copies := by
    change s.copies.eraseP _ = _
    rw [hcopies]
    exact eraseP_cons_of_pos (beq_self_eq_true i)
  refine h.become rfl (Or.inr (Or.inr ⟨?_, rfl, fun phase hp howes => ?_⟩))
    (fair_after (h.fair i _ hphase)) (fun c hc => ?_) ?_
  · rw [State.newest, hleft, State.newest, hcopies, map_cons, getLastD_cons]
    rfl
  · obtain rfl := some.inj (hphase.symm.trans hp)
    exact howes.elim
  · rw [hleft] at hc
    refine Or.inr ⟨fun he => hdistinct.1 ?_, ?_⟩
    · exact List.mem_map.mpr ⟨c, hc, he⟩
    · rw [hcopies]
      exact mem_cons_of_mem _ hc
  · rw [hleft]
    exact hdistinct.2

variable {turns : ω → List (Turn σ)}

/-- Every step in order leaves the newest copy what it has to be. -/
theorem Fresh.step (h : Fresh s) (hfair : ∀ op, Fair (turns op))
    {e : Event ω} (horder : InOrder s e) (hstep : s.step turns e = some s') : Fresh s' := by
  cases e with
  | start i op =>
    rw [State.step] at hstep
    split at hstep
    next hnone =>
      cases hstep
      have hphase : s.ops i = none := isNone_iff_eq_none.mp hnone
      -- what starts owes nothing and has no copy
      refine h.become rfl (Or.inr (Or.inr ⟨rfl, rfl, fun phase hp => ?_⟩))
        (fair_after (hfair op)) (fun c hc => Or.inr ⟨?_, hc⟩) h.distinct
      · exact nomatch hphase.symm.trans hp
      · exact h.no_copy hphase (fun _ hp => nomatch hp) c hc
    next => exact nomatch hstep
  | turn i =>
    rw [State.step] at hstep
    split at hstep
    next turn rest hphase hholder =>
      cases hstep
      exact h.turn hphase
    next => exact nomatch hstep
  | copy i =>
    rw [State.step] at hstep
    split at hstep
    next rest hphase =>
      cases hstep
      exact h.copy hphase
    next => exact nomatch hstep
  | release i =>
    rw [State.step] at hstep
    split at hstep
    next rest hphase =>
      cases hstep
      refine h.become rfl (Or.inr (Or.inr ⟨rfl, rfl, fun phase hp howes => ?_⟩))
        (fair_after (h.fair i _ hphase)) (fun c hc => Or.inr ⟨?_, hc⟩) h.distinct
      · obtain rfl := some.inj (hphase.symm.trans hp)
        exact Pays.after howes
      · exact h.no_copy hphase (by rintro _ ⟨⟩; exact id) c hc
    next rest hphase =>
      cases hstep
      have hfair : Fair rest := h.fair i _ hphase
      refine h.become rfl (Or.inr (Or.inr ⟨rfl, rfl, fun phase hp howes => ?_⟩))
        (by rintro _ ⟨⟩; exact hfair) (fun c hc => ?_) h.distinct
      · obtain rfl := some.inj (hphase.symm.trans hp)
        exact howes.elim
      -- the copy taken under the lock is its own
      · by_cases he : c.1 = i
        · exact Or.inl ⟨he, _, rfl, trivial⟩
        · exact Or.inr ⟨he, hc⟩
    next => exact nomatch hstep
  | write i =>
    rw [State.step] at hstep
    split at hstep
    next rest c hphase hfind =>
      cases hstep
      -- in order, the copy that is written is the oldest
      cases hcopies : s.copies with
      | nil =>
        rw [hcopies] at hfind
        exact nomatch hfind
      | cons c' copies =>
        obtain ⟨j, copy⟩ := c'
        rw [InOrder, hcopies] at horder
        obtain rfl : j = i := some.inj horder
        have hfound : ((j, copy) :: copies).find? (fun c : ℕ × σ => c.1 == j) = some (j, copy) :=
          find?_cons_of_pos (beq_self_eq_true j)
        rw [hcopies, hfound] at hfind
        cases hfind
        exact h.write hphase hcopies
    next => exact nomatch hstep
  | restart =>
    cases hstep
    exact fresh_start _

theorem fresh_of_reachable (hfair : ∀ op, Fair (turns op))
    (h : Reachable ((system turns).when InOrder) s) : Fresh s := by
  refine h.invariant (P := Fresh) ?_ ?_
  · rintro _ ⟨v, rfl⟩
    exact fresh_start v
  · rintro s e s' hs ⟨horder, hstep⟩
    exact hs.step hfair horder hstep

/-- The oldest copy is written. -/
theorem reachable_write (h : Reachable ((system turns).when InOrder) s)
    (hfirst : s.copies.head?.map Prod.fst = some i) (hstep : s.step turns (.write i) = some s') :
    Reachable ((system turns).when InOrder) s' :=
  h.next (a := .write i) ⟨hfirst, hstep⟩

/-- With nothing going on, the value is saved. -/
theorem Fresh.saved_when_idle (h : Fresh s) (hidle : s.Idle) : s.file = s.value := by
  have hcopies : s.copies = [] := by
    refine eq_nil_iff_forall_not_mem.mpr fun c hc => ?_
    obtain ⟨phase, hphase, -⟩ := h.holds c hc
    exact nomatch (hidle c.1).symm.trans hphase
  rcases h.newest with hnow | ⟨i, phase, hphase, -⟩
  · rw [← hnow, newest_nil hcopies]
  · exact nomatch (hidle i).symm.trans hphase

end

end Copies
