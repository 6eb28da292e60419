/-
Runs of the follow scheduler: whether a project is claimed while a run of it goes on,
and whether a change noted during a run is kept.

A run is known to the engine only through the runtime of its project. A project that is
not followed when a cycle reads the list loses its runtime, and followed again it gets a
fresh one while the old run still goes on; the first half of the invariant is that this
is the only way to a second run. The end of a run sets the time of the next one, and
this is the only thing that moves a note away.
-/
import Lpm.GitFollow.Engine
import Mathlib.Data.List.Nodup
import Mathlib.Data.List.Perm.Basic

set_option autoImplicit false

namespace Lpm.GitFollow

open List Option Function

open Transition

/-! ## Batches -/

theorem projects_add_to_batch (follow : Follow) (pushed : Bool) (batches : List SourceBatch) :
    (projects (add_to_batch follow pushed batches)).Perm (follow.project :: projects batches) := by
  induction batches with
  | nil => exact List.Perm.refl _
  | cons batch rest ih =>
    rw [add_to_batch]
    by_cases h : batch.slug = follow.slug
    · rw [if_pos h]
      have hsplit : projects ({ batch with follows := batch.follows ++ [follow] } :: rest)
          = batch.follows.map Follow.project ++ follow.project :: projects rest := by
        simp [projects]
      rw [hsplit]
      exact perm_middle
    · rw [if_neg h]
      exact (List.Perm.append_left _ ih).trans perm_middle

variable {project : String} {batches : List SourceBatch}

theorem mem_projects_add {follow : Follow} {pushed : Bool} :
    project ∈ projects (add_to_batch follow pushed batches)
      ↔ project = follow.project ∨ project ∈ projects batches := by
  rw [(projects_add_to_batch follow pushed batches).mem_iff, mem_cons]

/-- The follow a thread finishes next leaves the runs that go on. -/
theorem projects_set {i : ℕ} {batch : SourceBatch} {follow : Follow}
    {rest : List Follow} (hbatch : batches[i]? = some batch) (hfollows : batch.follows = follow :: rest) :
    (projects batches).Perm
      (follow.project :: projects (batches.set i { batch with follows := rest })) := by
  induction batches generalizing i with
  | nil => simp at hbatch
  | cons first batches ih =>
    cases i with
    | zero =>
      obtain rfl : first = batch := by simpa using hbatch
      have hsplit : projects (first :: batches)
          = follow.project :: (rest.map Follow.project ++ projects batches) := by
        simp [projects, hfollows]
      rw [hsplit]
      exact List.Perm.refl _
    | succ i =>
      have hrest := ih (i := i) (by simpa using hbatch)
      exact (List.Perm.append_left _ hrest).trans perm_middle

theorem projects_append (a b : List SourceBatch) : projects (a ++ b) = projects a ++ projects b :=
  flatMap_append

/-! ## Runtimes -/

variable (runtimes : Runtimes)

/-- Due whenever one looks. A project without a runtime gets one that is. -/
def at_once (project : String) : Prop :=
  (runtimes project).bind Runtime.next_at = none

/-- Nothing in the runtime stands in the way of a claim. -/
def free (project : String) : Prop :=
  ∀ rt, runtimes project = some rt → rt.running = false ∧ rt.next_at = none

/-- The runtime says that a run goes on. -/
def held (project : String) : Prop :=
  ∃ rt, runtimes project = some rt ∧ rt.running = true

variable {runtimes : Runtimes}

theorem at_once.due (h : at_once runtimes project)
    (now : ℕ) : is_due ((runtimes project).bind Runtime.next_at) now = true := by
  rw [h]
  rfl

theorem free.or_default (h : free runtimes project) :
    (or_default runtimes project).running = false ∧ (or_default runtimes project).next_at = none := by
  unfold GitFollow.or_default
  rcases hrt : runtimes project with _ | rt
  · exact ⟨rfl, rfl⟩
  · exact h rt hrt

theorem held.or_default (h : held runtimes project) :
    (or_default runtimes project).running = true := by
  obtain ⟨rt, hrt, hrunning⟩ := h
  rw [GitFollow.or_default, hrt]
  exact hrunning

variable {a b : Runtimes}

/-- What a hurried or refreshed runtime keeps: all three are about one project's entry. -/
theorem held.congr (h : held a project)
    (heq : b project = a project) : held b project := by
  unfold held
  rw [heq]
  exact h

theorem free.congr (h : free a project)
    (heq : b project = a project) : free b project := by
  unfold free
  rw [heq]
  exact h

theorem at_once.congr (h : at_once a project)
    (heq : b project = a project) : at_once b project := by
  unfold at_once
  rw [heq]
  exact h

/-! ## What holds between two steps -/

structure Inv (s : Engine) : Prop where
  once : (projects s.batches).Nodup
  held : ∀ project ∈ projects s.batches, s.dropped project = false → held s.runtimes project
  lost : ∀ project, s.dropped project = true →
    project ∈ projects s.batches ∧ free s.runtimes project
  noted : ∀ project, s.noted project = true → at_once s.runtimes project
  live : ∀ c, s.cycle = some c → ∀ f ∈ c.ready, f ∈ c.live

/-- A change of runtimes that leaves every run known and brings every time forward. -/
structure Gentle (a b : Runtimes) : Prop where
  held : ∀ project, held a project → held b project
  free : ∀ project, free a project → free b project
  at_once : ∀ project, at_once a project → at_once b project

theorem gentle_nudge (runtimes : Runtimes) : Gentle runtimes (nudge runtimes) where
  held project := by
    rintro ⟨rt, hrt, hrunning⟩
    exact ⟨rt.hurry, by rw [nudge, hrt]; rfl, hrunning⟩
  free project h rt hrt := by
    rw [nudge, map_eq_some_iff] at hrt
    obtain ⟨old, hold, rfl⟩ := hrt
    exact ⟨(h old hold).1, rfl⟩
  at_once project _ := by
    rw [at_once, nudge]
    rcases runtimes project with _ | rt
    · rfl
    · rfl

theorem note_change_self (runtimes : Runtimes) (project : String) :
    note_change runtimes project project = some (or_default runtimes project).hurry :=
  update_self ..

theorem note_change_other (runtimes : Runtimes) {project other : String} (h : other ≠ project) :
    note_change runtimes project other = runtimes other :=
  update_of_ne h ..

theorem at_once_note_change (runtimes : Runtimes) (project : String) :
    at_once (note_change runtimes project) project := by
  rw [at_once, note_change_self]
  rfl

theorem gentle_note_change (runtimes : Runtimes) (project : String) :
    Gentle runtimes (note_change runtimes project) where
  held other h := by
    by_cases heq : other = project
    · rw [heq] at h ⊢
      exact ⟨_, note_change_self .., h.or_default⟩
    · exact h.congr (note_change_other _ heq)
  free other h := by
    by_cases heq : other = project
    · rw [heq] at h ⊢
      intro rt hrt
      rw [note_change_self] at hrt
      cases hrt
      exact ⟨h.or_default.1, rfl⟩
    · exact h.congr (note_change_other _ heq)
  at_once other h := by
    by_cases heq : other = project
    · rw [heq]
      exact at_once_note_change ..
    · exact h.congr (note_change_other _ heq)

theorem Gentle.trans {a b c : Runtimes} (h : Gentle a b) (h' : Gentle b c) : Gentle a c where
  held project hp := h'.held project (h.held project hp)
  free project hp := h'.free project (h.free project hp)
  at_once project hp := h'.at_once project (h.at_once project hp)

variable (changed : List String)

theorem gentle_note_changes (runtimes : Runtimes) :
    Gentle runtimes (changed.foldl note_change runtimes) := by
  induction changed generalizing runtimes with
  | nil => exact ⟨fun _ h => h, fun _ h => h, fun _ h => h⟩
  | cons project changed ih => exact (gentle_note_change runtimes project).trans (ih _)

theorem at_once_note_changes (runtimes : Runtimes)
    (h : project ∈ changed) : at_once (changed.foldl note_change runtimes) project := by
  induction changed generalizing runtimes with
  | nil => simp at h
  | cons first changed ih =>
    rw [foldl_cons]
    rcases mem_cons.mp h with rfl | h
    · exact (gentle_note_changes changed _).at_once _ (at_once_note_change ..)
    · exact ih _ h

theorem Inv.gentle {s : Engine} (h : Inv s) (hgentle : Gentle s.runtimes runtimes)
    {woken : Bool} : Inv { s with runtimes, woken } where
  once := h.once
  held project hin hkept := hgentle.held project (h.held project hin hkept)
  lost project hlost := ⟨(h.lost project hlost).1, hgentle.free project (h.lost project hlost).2⟩
  noted project hnoted := hgentle.at_once project (h.noted project hnoted)
  live := h.live

/-! ## A claim -/

/-- What holds at every turn of the loop of `claim_due`: `old` are the runs from before. -/
structure Claiming (old : List String) (dropped noted : String → Bool)
    (t : Runtimes × List SourceBatch) : Prop where
  once : (old ++ projects t.2).Nodup
  held : ∀ project ∈ old ++ projects t.2, dropped project = false → held t.1 project
  lost : ∀ project, dropped project = true → project ∈ old ∧ free t.1 project
  noted : ∀ project, noted project = true → project ∉ projects t.2 → at_once t.1 project

section
variable {pushes : String → Bool} {now : ℕ}

/-- Whether a follow's turn passes it over. -/
def passes_over (now : ℕ) (runtimes : Runtimes) (follow : Follow) : Bool :=
  (or_default runtimes follow.project).running || !is_due (or_default runtimes follow.project).next_at now

variable {t : Runtimes × List SourceBatch} {follow : Follow}

theorem claim_follow_passes (h : passes_over now t.1 follow = true) :
    claim_follow pushes now t follow
      = (Function.update t.1 follow.project (some (or_default t.1 follow.project)), t.2) :=
  if_pos h

theorem claim_follow_takes (h : ¬ passes_over now t.1 follow = true) :
    claim_follow pushes now t follow
      = (Function.update t.1 follow.project
          (some { or_default t.1 follow.project with running := true }),
        add_to_batch follow (pushes follow.slug) t.2) :=
  if_neg h

/-- An entry made by looking at it says what its absence said. -/
theorem gentle_or_default (runtimes : Runtimes) (project : String) :
    Gentle runtimes (Function.update runtimes project (some (or_default runtimes project))) where
  held other h := by
    by_cases heq : other = project
    · rw [heq] at h ⊢
      exact ⟨_, update_self .., h.or_default⟩
    · exact h.congr (update_of_ne heq ..)
  free other h := by
    by_cases heq : other = project
    · rw [heq] at h ⊢
      intro rt hrt
      rw [update_self] at hrt
      rw [← some.inj hrt]
      exact h.or_default
    · exact h.congr (update_of_ne heq ..)
  at_once other h := by
    by_cases heq : other = project
    · rw [heq] at h ⊢
      rw [at_once, update_self]
      unfold at_once at h
      unfold or_default
      rcases hrt : runtimes project with _ | rt
      · rfl
      · rw [hrt] at h
        exact h
    · exact h.congr (update_of_ne heq ..)

variable {dropped noted : String → Bool}

theorem Claiming.turn {old : List String}
    (h : Claiming old dropped noted t)
    (hkept : dropped follow.project = false) :
    Claiming old dropped noted (claim_follow pushes now t follow) := by
  by_cases hpass : passes_over now t.1 follow = true
  · rw [claim_follow_passes hpass]
    have hgentle := gentle_or_default t.1 follow.project
    exact ⟨h.once, fun project hin hk => hgentle.held project (h.held project hin hk),
      fun project hl => ⟨(h.lost project hl).1, hgentle.free project (h.lost project hl).2⟩,
      fun project hn hout => hgentle.at_once project (h.noted project hn hout)⟩
  · rw [claim_follow_takes hpass]
    have hrunning : (or_default t.1 follow.project).running = false := by
      rw [passes_over, Bool.or_eq_true, not_or, Bool.not_eq_true] at hpass
      exact hpass.1
    -- a run that goes on would have its runtime, and the runtime would say so
    have hnew : follow.project ∉ old ++ projects t.2 := by
      intro hin
      have hheld := (h.held _ hin hkept).or_default
      rw [hrunning] at hheld
      exact absurd hheld (by simp)
    have hperm : (old ++ projects (add_to_batch follow (pushes follow.slug) t.2)).Perm
        (follow.project :: (old ++ projects t.2)) :=
      (List.Perm.append_left _ (projects_add_to_batch ..)).trans perm_middle
    constructor
    · exact hperm.nodup_iff.mpr (nodup_cons.mpr ⟨hnew, h.once⟩)
    · intro project hin hk
      by_cases heq : project = follow.project
      · rw [heq]
        exact ⟨_, update_self .., rfl⟩
      · have hin' := (mem_cons.mp (hperm.mem_iff.mp hin)).resolve_left heq
        exact (h.held project hin' hk).congr (update_of_ne heq ..)
    · intro project hl
      have hne : project ≠ follow.project := by
        rintro rfl
        rw [hkept] at hl
        exact absurd hl (by simp)
      exact ⟨(h.lost project hl).1, (h.lost project hl).2.congr (update_of_ne hne ..)⟩
    · intro project hn hout
      rw [mem_projects_add, not_or] at hout
      exact (h.noted project hn hout.2).congr (update_of_ne hout.1 ..)

theorem Claiming.fold {old : List String} {ready : List Follow}
    (h : Claiming old dropped noted t)
    (hkept : ∀ f ∈ ready, dropped f.project = false) :
    Claiming old dropped noted (ready.foldl (claim_follow pushes now) t) := by
  induction ready generalizing t with
  | nil => exact h
  | cons follow ready ih =>
    rw [forall_mem_cons] at hkept
    exact ih (h.turn hkept.1) hkept.2

/-- A follow with nothing in its way is claimed, whatever runs. -/
theorem claim_takes (ready : List Follow) (t : Runtimes × List SourceBatch)
    (hready : follow ∈ ready) (hfree : free t.1 follow.project) :
    follow.project ∈ projects (ready.foldl (claim_follow pushes now) t).2 := by
  have hgrow : ∀ (ready : List Follow) (t : Runtimes × List SourceBatch),
      follow.project ∈ projects t.2 →
      follow.project ∈ projects (ready.foldl (claim_follow pushes now) t).2 := by
    intro ready
    induction ready with
    | nil => exact fun _ hin => hin
    | cons first ready ih =>
      intro t hin
      apply ih
      by_cases hpass : passes_over now t.1 first = true
      · rw [claim_follow_passes hpass]
        exact hin
      · rw [claim_follow_takes hpass]
        exact mem_projects_add.mpr (.inr hin)
  induction ready generalizing t with
  | nil => simp at hready
  | cons first ready ih =>
    rw [foldl_cons]
    by_cases hfirst : first.project = follow.project
    · apply hgrow
      have hpass : ¬ passes_over now t.1 first = true := by
        rw [passes_over, hfirst, hfree.or_default.1, hfree.or_default.2]
        simp [is_due]
      rw [claim_follow_takes hpass]
      exact mem_projects_add.mpr (.inl hfirst.symm)
    · have hlater : follow ∈ ready :=
        (mem_cons.mp hready).resolve_left fun heq => hfirst (by rw [heq])
      apply ih _ hlater
      apply hfree.congr
      by_cases hpass : passes_over now t.1 first = true
      · rw [claim_follow_passes hpass]
        exact update_of_ne (Ne.symm hfirst) ..
      · rw [claim_follow_takes hpass]
        exact update_of_ne (Ne.symm hfirst) ..

end

theorem retain_live {live : List Follow} (runtimes : Runtimes)
    (h : project ∈ live.map Follow.project) : retain live runtimes project = runtimes project := by
  apply if_pos
  obtain ⟨f, hf, rfl⟩ := List.mem_map.mp h
  exact List.any_eq_true.mpr ⟨f, hf, decide_eq_true rfl⟩

theorem retain_gone {live : List Follow} (runtimes : Runtimes)
    (h : project ∉ live.map Follow.project) : retain live runtimes project = none := by
  apply if_neg
  intro hany
  obtain ⟨f, hf, heq⟩ := List.any_eq_true.mp hany
  exact h (List.mem_map.mpr ⟨f, hf, of_decide_eq_true heq⟩)

theorem free.retain (h : free runtimes project)
    (live : List Follow) : free (retain live runtimes) project := by
  by_cases hlive : project ∈ live.map Follow.project
  · exact h.congr (retain_live _ hlive)
  · intro rt hrt
    rw [retain_gone _ hlive] at hrt
    exact absurd hrt (by simp)

theorem at_once.retain (h : at_once runtimes project)
    (live : List Follow) : at_once (retain live runtimes) project := by
  by_cases hlive : project ∈ live.map Follow.project
  · exact h.congr (retain_live _ hlive)
  · rw [at_once, retain_gone _ hlive]
    rfl

variable (s : Engine)

/-- What `claim_due` drops the runtime of, of the runs going on. -/
def dropped_by (c : Cycle) (project : String) : Bool :=
  s.dropped project || decide (project ∈ projects s.batches ∧ project ∉ c.live.map Follow.project)

theorem Inv.claiming {s : Engine} (h : Inv s) (c : Cycle) :
    Claiming (projects s.batches) (dropped_by s c) s.noted (retain c.live s.runtimes, []) where
  once := by
    rw [show projects [] = [] from rfl, append_nil]
    exact h.once
  held project hin hkept := by
    rw [show projects [] = [] from rfl, append_nil] at hin
    rw [dropped_by, Bool.or_eq_false_iff, decide_eq_false_iff_not] at hkept
    have hlive : project ∈ c.live.map Follow.project := by
      by_contra hno
      exact hkept.2 ⟨hin, hno⟩
    exact (h.held project hin hkept.1).congr (retain_live _ hlive)
  lost project hlost := by
    rw [dropped_by, Bool.or_eq_true, decide_eq_true_iff] at hlost
    rcases hlost with hlost | ⟨hin, hgone⟩
    · exact ⟨(h.lost project hlost).1, (h.lost project hlost).2.retain _⟩
    · refine ⟨hin, fun rt hrt => ?_⟩
      change retain c.live s.runtimes project = _ at hrt
      rw [retain_gone _ hgone] at hrt
      exact absurd hrt (by simp)
  noted project hn _ := (h.noted project hn).retain _

/-! ## The condition -/

/-- The project whose run a thread finishes next. -/
def finishing (thread : ℕ) : Option String :=
  (s.batches[thread]?).bind fun batch => batch.follows.head?.map Follow.project

/-- A claim looks at no project whose runtime went away during a run that still goes on,
and the end of a run with no pause comes before any note. -/
def Keeps : Action → Prop
  | .claim_due _ => ∀ c, s.cycle = some c → s.shutdown = false →
    ∀ f ∈ c.ready, s.dropped f.project = false
  | .finish thread outcome _ => ∀ project, finishing s thread = some project →
    s.noted project = true → (∃ reason, outcome = .paused reason) ∨ s.runtimes project = none
  | _ => True

/-! ## One step -/

section
variable {s s' : Engine}

theorem ready_follows_live (require_git_follow : String → Except String Unit) (live : List Follow) :
    ∀ f ∈ (ready_follows require_git_follow live).1, f ∈ live := by
  have hfold : ∀ (todo : List Follow) (t : List Follow × List Follow), (∀ f ∈ todo, f ∈ live) →
      (∀ f ∈ t.1, f ∈ live) → ∀ f ∈ (todo.foldl (sort_out require_git_follow) t).1, f ∈ live := by
    intro todo
    induction todo with
    | nil => exact fun _ _ h => h
    | cons follow todo ih =>
      intro t htodo ht
      rw [forall_mem_cons] at htodo
      apply ih _ htodo.2
      unfold sort_out
      rcases require_git_follow follow.slug with reason | _
      · simp only
        split
        · exact ht
        · exact ht
      · intro f hf
        rcases mem_append.mp hf with hf | hf
        · exact ht f hf
        · rw [mem_singleton.mp hf]
          exact htodo.1
  exact hfold _ _ (fun f hf => mem_of_mem_filter hf) (by simp)

theorem Inv.claim_step (h : Inv s) {c : Cycle} (hcycle : s.cycle = some c) {now : ℕ}
    (hkept : ∀ f ∈ c.ready, s.dropped f.project = false) :
    Claiming (projects s.batches) (dropped_by s c) s.noted (claim c now s.runtimes) := by
  apply (h.claiming c).fold
  intro f hf
  rw [dropped_by, Bool.or_eq_false_iff, decide_eq_false_iff_not]
  refine ⟨hkept f hf, ?_⟩
  rintro ⟨-, hgone⟩
  exact hgone (List.mem_map_of_mem (h.live c hcycle f hf))

theorem finish_other (runtimes : Runtimes) {project other : String} (h : other ≠ project)
    (outcome : Outcome) (cadence now : ℕ) :
    finish runtimes project outcome cadence now other = runtimes other := by
  unfold finish
  rcases runtimes project with _ | rt
  · rfl
  · exact update_of_ne h ..

theorem finish_self (runtimes : Runtimes) (project : String) (outcome : Outcome) (cadence now : ℕ) :
    finish runtimes project outcome cadence now project
      = (runtimes project).map fun rt => rt.finish outcome cadence now := by
  unfold finish
  rcases hrt : runtimes project with _ | rt
  · exact hrt
  · exact update_self ..

/-- A thread finishes the run of the first follow it has left. -/
theorem step_finish {thread now : ℕ} {outcome : Outcome} (hstep : step s (.finish thread outcome now) = some s') :
    ∃ batch follow rest, s.batches[thread]? = some batch ∧ batch.follows = follow :: rest ∧
      finishing s thread = some follow.project ∧ s' = { s with
        runtimes := finish s.runtimes follow.project outcome (if batch.pushes then HEARTBEAT else POLL) now
        woken := true
        batches := s.batches.set thread { batch with follows := rest }
        dropped := Function.update s.dropped follow.project false } := by
  rw [step] at hstep
  rcases hbatch : s.batches[thread]? with _ | batch
  · rw [hbatch] at hstep
    exact absurd hstep (by simp)
  rcases hfollows : batch.follows with _ | ⟨follow, rest⟩
  · simp only [hbatch, hfollows] at hstep
    exact absurd hstep (by simp)
  · simp only [hbatch, hfollows] at hstep
    refine ⟨batch, follow, rest, rfl, hfollows, ?_, (some.inj hstep).symm⟩
    rw [finishing, hbatch, bind_some, hfollows]
    rfl

theorem Inv.finish_step (h : Inv s) {thread : ℕ} {batch : SourceBatch} {follow : Follow}
    {rest : List Follow} (hbatch : s.batches[thread]? = some batch)
    (hfollows : batch.follows = follow :: rest) {outcome : Outcome} {cadence now : ℕ}
    (hkept : s.noted follow.project = true →
      (∃ reason, outcome = .paused reason) ∨ s.runtimes follow.project = none) :
    Inv { s with
      runtimes := finish s.runtimes follow.project outcome cadence now
      woken := true
      batches := s.batches.set thread { batch with follows := rest }
      dropped := Function.update s.dropped follow.project false } := by
  have hperm := projects_set hbatch hfollows
  have hnodup := hperm.nodup_iff.mp h.once
  rw [nodup_cons] at hnodup
  have hne : ∀ project ∈ projects (s.batches.set thread { batch with follows := rest }),
      project ≠ follow.project := by
    rintro project hin rfl
    exact hnodup.1 hin
  refine ⟨hnodup.2, ?_, ?_, ?_, h.live⟩
  · intro project hin hk
    change Function.update s.dropped follow.project false project = false at hk
    rw [update_of_ne (hne project hin)] at hk
    have hin' := hperm.mem_iff.mpr (mem_cons_of_mem _ hin)
    exact (h.held project hin' hk).congr (finish_other _ (hne project hin) ..)
  · intro project hl
    change Function.update s.dropped follow.project false project = true at hl
    have hother : project ≠ follow.project := by
      rintro rfl
      rw [update_self] at hl
      exact absurd hl (by simp)
    rw [update_of_ne hother] at hl
    obtain ⟨hin, hfree⟩ := h.lost project hl
    exact ⟨(mem_cons.mp (hperm.mem_iff.mp hin)).resolve_left hother,
      hfree.congr (finish_other _ hother ..)⟩
  · intro project hn
    by_cases heq : project = follow.project
    · rw [heq] at hn ⊢
      show (finish s.runtimes follow.project outcome cadence now follow.project).bind _ = none
      -- the run came to a pause, or its project had lost its runtime
      rw [finish_self]
      rcases hkept hn with ⟨reason, rfl⟩ | hnone
      · rcases s.runtimes follow.project with _ | rt
        · rfl
        · rfl
      · rw [hnone]
        rfl
    · exact (h.noted project hn).congr (finish_other _ heq ..)

theorem Inv.step {a : Action} (h : Inv s) (hkept : Keeps s a) (hstep : step s a = some s') :
    Inv s' := by
  cases a with
  | save follows | stop =>
    cases hstep
    exact ⟨h.once, h.held, h.lost, h.noted, h.live⟩
  | nudge =>
    cases hstep
    exact h.gentle (gentle_nudge _)
  | note_remote_change loaded slug cwd =>
    rw [GitFollow.step] at hstep
    by_cases hempty : (changed_projects loaded slug cwd).isEmpty = true
    · rw [if_pos hempty] at hstep
      rw [← some.inj hstep]
      exact h
    · rw [if_neg hempty] at hstep
      cases hstep
      -- a note takes no running flag away
      have hgentle := gentle_note_changes (changed_projects loaded slug cwd) s.runtimes
      refine ⟨h.once, fun project hin hk => hgentle.held project (h.held project hin hk),
        fun project hl => ⟨(h.lost project hl).1, hgentle.free project (h.lost project hl).2⟩,
        fun project hn => ?_, h.live⟩
      rcases Bool.or_eq_true _ _ ▸ hn with hbefore | hnow
      · exact hgentle.at_once project (h.noted project hbefore)
      · exact at_once_note_changes _ _ (of_decide_eq_true hnow)
  | follow_resume project =>
    cases hstep
    exact h.gentle (gentle_note_change _ project)
  | read existing require_git_follow can_push_changes =>
    rw [GitFollow.step] at hstep
    by_cases hcycle : s.cycle.isSome = true
    · rw [if_pos hcycle] at hstep
      exact absurd hstep (by simp)
    · rw [if_neg hcycle] at hstep
      cases hstep
      refine ⟨h.once, h.held, h.lost, h.noted, fun c hc => ?_⟩
      cases hc
      exact ready_follows_live _ _
  | claim_due now =>
    rw [GitFollow.step] at hstep
    rcases hcycle : s.cycle with _ | c
    · rw [hcycle] at hstep
      exact absurd hstep (by simp)
    · simp only [hcycle] at hstep
      by_cases hdown : s.shutdown = true
      · rw [if_pos hdown] at hstep
        cases hstep
        exact ⟨h.once, h.held, h.lost, h.noted, fun c hc => absurd hc (by simp)⟩
      · rw [if_neg hdown] at hstep
        cases hstep
        -- the condition leaves out what lost its runtime during a run
        have hclaim : Claiming (projects s.batches) (dropped_by s c) s.noted (claim c now s.runtimes) :=
          h.claim_step hcycle (hkept c hcycle ((Bool.not_eq_true _).mp hdown))
        refine ⟨?_, ?_, ?_, ?_, fun c hc => absurd hc (by simp)⟩
        · rw [projects_append]
          exact hclaim.once
        · rw [projects_append]
          exact hclaim.held
        · intro project hl
          rw [projects_append]
          exact ⟨mem_append_left _ (hclaim.lost project hl).1, (hclaim.lost project hl).2⟩
        · intro project hn
          rw [Bool.and_eq_true, decide_eq_true_iff] at hn
          exact hclaim.noted project hn.1 hn.2
  | finish thread outcome now =>
    obtain ⟨batch, follow, rest, hbatch, hfollows, hfinishing, rfl⟩ := step_finish hstep
    exact h.finish_step hbatch hfollows (hkept _ hfinishing)

end

/-! ## Every run -/

/-- One run a project, and what was noted since a project was claimed makes it due at once. -/
structure Good (s : Engine) : Prop where
  once : (projects s.batches).Nodup
  noted : ∀ project, s.noted project = true →
    ∀ now, is_due ((s.runtimes project).bind Runtime.next_at) now = true

theorem Inv.good {s : Engine} (h : Inv s) : Good s :=
  ⟨h.once, fun project hn now => (h.noted project hn).due now⟩

variable {s s' : Engine}

/-- A claim that looks at a project whose runtime went away starts a second run. -/
theorem Inv.claims_twice (h : Inv s) {now : ℕ} {c : Cycle} (hcycle : s.cycle = some c)
    (hup : s.shutdown = false) {f : Follow} (hf : f ∈ c.ready) (hlost : s.dropped f.project = true)
    (hstep : GitFollow.step s (.claim_due now) = some s') : ¬ (projects s'.batches).Nodup := by
  rw [GitFollow.step] at hstep
  simp only [hcycle, hup] at hstep
  cases hstep
  obtain ⟨hin, hfree⟩ := h.lost _ hlost
  have hagain : f.project ∈ projects (claim c now s.runtimes).2 :=
    claim_takes _ _ hf (hfree.retain c.live)
  rw [projects_append]
  exact fun hnodup => disjoint_of_nodup_append hnodup hin hagain

theorem backoff_pos (errors : ℕ) : 0 < backoff errors := by
  unfold backoff
  split <;> decide

/-- The end of a run that is no pause sets a time. -/
theorem finish_sets {rt : Runtime} {outcome : Outcome} {cadence now : ℕ}
    (hpause : ¬ ∃ reason, outcome = .paused reason) (hcadence : 0 < cadence) :
    ∃ t, 0 < t ∧ (rt.finish outcome cadence now).next_at = some t := by
  cases outcome with
  | unchanged | synced => exact ⟨now + cadence, by omega, rfl⟩
  | retry =>
    have hpos := backoff_pos (min (rt.errors + 1) U32_MAX)
    exact ⟨now + backoff (min (rt.errors + 1) U32_MAX), by omega, rfl⟩
  | paused reason => exact absurd ⟨reason, rfl⟩ hpause

/-- The end of a run behind a note moves the note away. -/
theorem finish_moves_note {thread : ℕ} {outcome : Outcome} {now : ℕ}
    (hfinishing : finishing s thread = some project)
    (hnoted : s.noted project = true) (hpause : ¬ ∃ reason, outcome = .paused reason)
    (hrt : s.runtimes project ≠ none) (hstep : step s (.finish thread outcome now) = some s') :
    s'.noted project = true ∧ is_due ((s'.runtimes project).bind Runtime.next_at) 0 = false := by
  obtain ⟨batch, follow, rest, -, -, hfinishes, rfl⟩ := step_finish hstep
  obtain rfl : follow.project = project := some.inj (hfinishes.symm.trans hfinishing)
  obtain ⟨rt, hsome⟩ := ne_none_iff_exists'.mp hrt
  have hcadence : 0 < if batch.pushes then HEARTBEAT else POLL := by
    split_ifs <;> decide
  obtain ⟨t, hpos, ht⟩ := @finish_sets rt outcome _ now hpause hcadence
  refine ⟨hnoted, ?_⟩
  show is_due ((finish s.runtimes follow.project outcome _ now follow.project).bind _) 0 = false
  rw [finish_self, hsome, map_some, bind_some, ht]
  exact decide_eq_false (by omega)

/-- As long as every step meets the condition, no project runs twice at a time and no note
is lost; and the next step keeps it so exactly when it meets the condition too. -/
theorem follows_run_once {s : Engine} (h : Reachable (engine.when Keeps) s) :
    Good s ∧ ∀ a s', step s a = some s' → (Good s' ↔ Keeps s a) := by
  have hinv : Inv s := by
    refine Reachable.invariant ?_ ?_ h
    · rintro s ⟨follows, rfl⟩
      exact ⟨nodup_nil, fun _ hin => absurd hin (by simp [initial, projects]),
        fun _ hl => absurd hl (by simp [initial]), fun _ hn => absurd hn (by simp [initial]),
        fun c hc => absurd hc (by simp [initial])⟩
    · rintro s a s' hi ⟨hkept, hstep⟩
      exact hi.step hkept hstep
  refine ⟨hinv.good, fun a s' hstep => ⟨fun hgood => ?_, fun hkept => (hinv.step hkept hstep).good⟩⟩
  by_contra hnot
  cases a with
  | claim_due now =>
    obtain ⟨c, hcycle, hup, f, hf, hlost⟩ : ∃ c, s.cycle = some c ∧ s.shutdown = false
        ∧ ∃ f ∈ c.ready, s.dropped f.project = true := by
      simpa [Keeps] using hnot
    exact hinv.claims_twice hcycle hup hf hlost hstep hgood.once
  | finish thread outcome now =>
    obtain ⟨project, hfinishing, hnoted, hpause, hrt⟩ : ∃ project, finishing s thread = some project
        ∧ s.noted project = true ∧ (¬ ∃ reason, outcome = .paused reason)
        ∧ s.runtimes project ≠ none := by
      simpa [Keeps] using hnot
    obtain ⟨hstill, hlate⟩ := finish_moves_note hfinishing hnoted hpause hrt hstep
    rw [hgood.noted project hstill 0] at hlate
    exact absurd hlate (by simp)
  | save follows | nudge | note_remote_change loaded slug cwd | follow_resume project
  | read existing require_git_follow can_push_changes | stop => exact hnot trivial

/-! ## Two runs that break it -/

def web : Follow := .new "web-sync" "mac" "/Users/dev/web"

/-- A cycle at some time, with everything connected. -/
def cycle_at (now : ℕ) : List Action :=
  [.read ["web-sync"] (fun _ => .ok ()) (fun _ => true), .claim_due now]

def run (s : Engine) (actions : List Action) : Option Engine :=
  actions.foldlM step s

theorem reachable_run (h : Reachable engine s) {actions : List Action}
    (hrun : run s actions = some s') : Reachable engine s' :=
  h.run (fun _ _ _ hstep => hstep) hrun

/-- Unfollowed and followed again during a run, a project runs twice; and a note that comes
during a run waits for the next heartbeat. -/
theorem follows_run_twice :
    (∃ s, Reachable engine s ∧ projects s.batches = ["web-sync", "web-sync"])
      ∧ ∃ s, Reachable engine s ∧ s.noted "web-sync" = true
        ∧ s.runtimes "web-sync" = some { next_at := some HEARTBEAT, errors := 0, running := false } := by
  constructor
  · have hrun : ∃ s, run (initial [web]) (cycle_at 0 ++ [.save (remove "web-sync" [web]), .nudge]
        ++ cycle_at 0 ++ [.save (put web []), .nudge] ++ cycle_at 0) = some s
        ∧ projects s.batches = ["web-sync", "web-sync"] := ⟨_, rfl, rfl⟩
    obtain ⟨s, hs, hprojects⟩ := hrun
    exact ⟨s, reachable_run (.start ⟨[web], rfl⟩) hs, hprojects⟩
  · have hrun : ∃ s, run (initial [web]) (cycle_at 0
        ++ [.note_remote_change [web] "mac" "/Users/dev/web", .finish 0 .synced 0]) = some s
        ∧ s.noted "web-sync" = true
        ∧ s.runtimes "web-sync" = some { next_at := some HEARTBEAT, errors := 0, running := false } :=
      ⟨_, rfl, rfl, rfl⟩
    obtain ⟨s, hs, hnoted, hrt⟩ := hrun
    exact ⟨s, reachable_run (.start ⟨[web], rfl⟩) hs, hnoted, hrt⟩

def api : Follow := .new "api-sync" "mini" "/Users/dev/api"

/-- A cycle reads, with both projects there and everything connected. -/
def both_read : Action :=
  .read ["web-sync", "api-sync"] (fun _ => .ok ()) fun _ => true

/-- Two projects run, one of the runs ends, and the change noted after it makes that project
due while the other still runs: it is claimed again and the other one is not. -/
theorem follows_run_once_again :
    ∃ s, projects s.batches = ["web-sync", "api-sync"] ∧ Good s ∧
      ∃ s', step s (.finish 2 .synced 2) = some s' ∧ Good s' := by
  have claims : ∀ s now c, s.cycle = some c → (∀ f ∈ c.ready, s.dropped f.project = false) →
      Keeps s (.claim_due now) := by
    intro s now c hc hready c' hc' _
    obtain rfl := some.inj (hc.symm.trans hc')
    exact hready
  have h₀ : Reachable (engine.when Keeps) (initial [web, api]) := .start ⟨_, rfl⟩
  have h₁ := h₀.next (a := both_read) ⟨trivial, rfl⟩
  have h₂ := h₁.next (a := Action.claim_due 0) ⟨claims _ _ _ rfl (by simp [initial]), rfl⟩
  have h₃ := h₂.next (a := Action.finish 1 .synced 0) ⟨fun _ _ hnoted => absurd hnoted (by simp [initial]), rfl⟩
  have h₄ := h₃.next (a := Action.note_remote_change [web, api] "mini" "/Users/dev/api") ⟨trivial, rfl⟩
  have h₅ := h₄.next (a := both_read) ⟨trivial, rfl⟩
  have h₆ := h₅.next (a := Action.claim_due 1) ⟨claims _ _ _ rfl (by decide), rfl⟩
  obtain ⟨s, s', hs, hprojects, hfinishing, hnoted, hstep⟩ : ∃ s s',
      Reachable (engine.when Keeps) s ∧ projects s.batches = ["web-sync", "api-sync"] ∧
        finishing s 2 = some "api-sync" ∧ s.noted "api-sync" = false ∧
        step s (.finish 2 .synced 2) = some s' := ⟨_, _, h₆, rfl, rfl, rfl, rfl⟩
  obtain ⟨hgood, hnext⟩ := follows_run_once hs
  refine ⟨s, hprojects, hgood, s', hstep, (hnext _ s' hstep).mpr ?_⟩
  intro project hproject hnow
  obtain rfl := some.inj (hfinishing.symm.trans hproject)
  rw [hnoted] at hnow
  cases hnow

end Lpm.GitFollow
