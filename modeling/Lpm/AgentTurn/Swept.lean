/-
No agent is left unswept: what the sweep thread may miss while it waits on its flag, over
any order of reports, keys, watches and sweeps.

A pass reads the live entries first and drops the flag last. What it has read and not been
through yet covers every agent that has nudged, until one nudges that the pass has not
read: its nudge sets a flag that is set already and then dropped.
-/
import Lpm.AgentTurn.Threads

set_option autoImplicit false

namespace Lpm.AgentTurn

open List Function

open Transition
open Lpm.Status (Id AgentKind StatusEntry Store STATUS_RUNNING same_report same_report_iff)
open Lpm.Status.Store (live_agent store_cases re_reported reported_key get_key get_put_cases
  get_of_remove get_of_retire get_of_clear get_clear_self unchanged_eq_some mem_live_agent_entries)

/-! ## What is said of a state -/

variable (sh : Shared)

/-- The report that the entry of `id` is of has nudged. -/
def Nudged (id : Id) : Prop := ∃ own, sh.owner id = some own ∧ (id, own) ∈ sh.nudged

variable (s : State)

/-- The sweep thread waits on its flag. -/
def State.waiting : Prop := s.sweeper = .waiting ∧ s.sh.flag = false

/-- No agent is left unswept. -/
def Swept : Prop :=
  s.waiting → ∀ project e, s.sh.store.get (project, e.key) = some e → live_agent e = true →
    ¬ Nudged s.sh (project, e.key)

/-- When a pass drops the flag, no report has nudged since the pass read the live entries, and
no watch has taken an answered question off an entry. -/
def Heard : Action → Prop
  | .sweep _ => s.sweeper = .checking [] false → s.sh.missed = false
  | _ => True

/-! ## What a pass still covers -/

/-- Every live agent that has nudged is among `todo`, with the report it has now. -/
def Covered (todo : List Reading) : Prop :=
  ∀ id e, sh.store.get id = some e → live_agent e = true → Nudged sh id →
    ∃ r ∈ todo, r.id = id ∧ same_report e r.entry = true

/-- The reports that have nudged, or are going to, were stored. -/
def Thread.numbered : Thread → Prop
  | .stored project held _ own => own ≤ sh.stored (project, held.key)
  | .nudging id own => own ≤ sh.stored id
  | _ => True

structure Numbered (s : State) : Prop where
  nudged : ∀ id own, (id, own) ∈ s.sh.nudged → own ≤ s.sh.stored id
  threads : ∀ t ∈ s.threads, t.numbered s.sh

/-- What a step of a thread leaves of what the sweep relies on. -/
structure Heeds (sh sh' : Shared) : Prop where
  flag : sh.flag = true → sh'.flag = true
  missed : sh.missed = true → sh'.missed = true
  waiting : sh'.flag = true ∨ (Covered sh [] → Covered sh' [])
  passing : sh'.missed = true ∨ ∀ todo, Covered sh todo → Covered sh' todo

/-- Where the sweep stands, some pass covers every live agent that has nudged, or has been
told of one that it does not. -/
def Sweeper.sound : Sweeper → Prop
  | .waiting => sh.flag = false → Covered sh []
  | .sleeping => sh.flag = true
  | .looking todo left => sh.flag = true ∧ (left = true ∨ sh.missed = true ∨ Covered sh todo)
  | .checking _ left => sh.flag = true ∧ (left = true ∨ sh.missed = true ∨ Covered sh [])

section
variable {sh sh' : Shared} {todo : List Reading}

/-- What is live and has nudged was so before, under a report that is still the same. -/
theorem Covered.of_get (h : Covered sh todo)
    (hget : ∀ id e', sh'.store.get id = some e' → live_agent e' = true → Nudged sh' id →
      ∃ e, sh.store.get id = some e ∧ live_agent e = true ∧ Nudged sh id
        ∧ ∀ seen, same_report e seen = true → same_report e' seen = true) :
    Covered sh' todo := by
  intro id e' hin hlive hnudged
  obtain ⟨e, hbefore, hlive, hnudged, hsame⟩ := hget id e' hin hlive hnudged
  obtain ⟨r, hr, hid, hseen⟩ := h id e hbefore hlive hnudged
  exact ⟨r, hr, hid, hsame _ hseen⟩

/-- Taking entries away leaves nothing uncovered. -/
theorem Covered.of_less (h : Covered sh todo)
    (hless : ∀ id e, sh'.store.get id = some e → sh.store.get id = some e)
    (howner : sh'.owner = sh.owner) (hnudged : sh'.nudged = sh.nudged) : Covered sh' todo := by
  apply h.of_get
  intro id e hin hlive hnudge
  rw [Nudged, howner, hnudged] at hnudge
  exact ⟨e, hless id e hin, hlive, hnudge, fun _ hseen => hseen⟩

theorem Heeds.of_covered (hflag : sh'.flag = sh.flag) (hmissed : sh'.missed = sh.missed)
    (h : ∀ todo, Covered sh todo → Covered sh' todo) : Heeds sh sh' where
  flag hset := hflag.trans hset
  missed hset := hmissed.trans hset
  waiting := .inr (h [])
  passing := .inr h

theorem Heeds.of_less (hflag : sh'.flag = sh.flag) (hmissed : sh'.missed = sh.missed)
    (hless : ∀ id e, sh'.store.get id = some e → sh.store.get id = some e)
    (howner : sh'.owner = sh.owner) (hnudged : sh'.nudged = sh.nudged) : Heeds sh sh' :=
  .of_covered hflag hmissed fun _ h => h.of_less hless howner hnudged

theorem Heeds.same (hflag : sh'.flag = sh.flag) (hmissed : sh'.missed = sh.missed)
    (hstore : sh'.store = sh.store) (howner : sh'.owner = sh.owner)
    (hnudged : sh'.nudged = sh.nudged) : Heeds sh sh' :=
  .of_less hflag hmissed (fun _ _ hin => hstore ▸ hin) howner hnudged

/-- The sweep stands as it stood when a thread has gone on. -/
theorem Sweeper.sound.heeds {sweeper : Sweeper} (hsound : sweeper.sound sh) (h : Heeds sh sh') :
    sweeper.sound sh' := by
  have hpass : ∀ (todo : List Reading) (left : Bool), left = true ∨ sh.missed = true ∨ Covered sh todo →
      left = true ∨ sh'.missed = true ∨ Covered sh' todo := by
    intro todo left hbefore
    rcases hbefore with hleft | hmissed | hcovered
    · exact .inl hleft
    · exact .inr (.inl (h.missed hmissed))
    · rcases h.passing with hmissed | hkeep
      · exact .inr (.inl hmissed)
      · exact .inr (.inr (hkeep _ hcovered))
  cases sweeper with
  | waiting =>
    intro hdropped
    rcases h.waiting with hset | hkeep
    · rw [hset] at hdropped
      exact nomatch hdropped
    · apply hkeep
      apply hsound
      by_contra hset
      have hset' := h.flag (by simpa using hset)
      rw [hset'] at hdropped
      exact nomatch hdropped
  | sleeping => exact h.flag hsound
  | looking todo left | checking todo left => exact ⟨h.flag hsound.1, hpass _ _ hsound.2⟩

end

/-! ## A thread goes on -/

section
variable {sh : Shared} {project : String} {entry : StatusEntry}

/-- A report that repeats what is held leaves it what it is. -/
theorem heeds_repeated {e : StatusEntry} (hget : sh.store.get (project, entry.key) = some e)
    (stored : Id → ℕ) :
    Heeds sh { sh with store := sh.store.put project (re_reported e entry), stored } := by
  refine Heeds.of_covered rfl rfl fun todo h => h.of_get fun other e' hin hlive hnudged => ?_
  rcases get_put_cases hin with ⟨rfl, rfl⟩ | ⟨-, hbefore⟩
  · have hkey : (re_reported e entry).key = entry.key := get_key hget
    rw [hkey] at hnudged ⊢
    exact ⟨e, hget, hlive, hnudged, fun _ hseen => hseen⟩
  · exact ⟨e', hbefore, hlive, hnudged, fun _ hseen => hseen⟩

/-- One that changes something has not nudged yet. -/
theorem heeds_replaced (hnumbered : ∀ id own, (id, own) ∈ sh.nudged → own ≤ sh.stored id)
    {held : StatusEntry} (hkey : held.key = entry.key) (stored : Id → ℕ) :
    Heeds sh { sh with
      store := sh.store.put project held
      stored
      owner := Function.update sh.owner (project, entry.key)
        (some (sh.stored (project, entry.key) + 1)) } := by
  refine Heeds.of_covered rfl rfl fun todo h => h.of_get fun other e' hin hlive hnudged => ?_
  obtain ⟨own, howner, hnudge⟩ := hnudged
  change (other, own) ∈ sh.nudged at hnudge
  rcases get_put_cases hin with ⟨rfl, -⟩ | ⟨hother, hbefore⟩
  -- the number of this report is not among those that have nudged
  · rw [hkey] at howner hnudge
    simp only [update_self] at howner
    have heq := Option.some.inj howner
    have hle := hnumbered _ own hnudge
    omega
  · rw [hkey] at hother
    simp only [update_of_ne hother] at howner
    exact ⟨e', hbefore, hlive, ⟨own, howner, hnudge⟩, fun _ hseen => hseen⟩

theorem heeds_settling (r : Reading) (todo : List Reading) (outcome : Outcome) (seen : Seen) :
    Heeds sh (Thread.advance sh seen (.settling outcome (r :: todo))).1 := by
  rw [Thread.advance]
  rcases hsettle : settle r.project outcome seen.now r.entry sh.store with ⟨store, changed⟩
  have hcases := settle_cases r.project outcome seen.now r.entry sh.store
  rw [hsettle] at hcases
  cases hcases with
  | left => exact Heeds.same rfl (by simp) rfl rfl rfl
  | amended h hseveral hsure =>
    rename_i e
    obtain ⟨hget, -⟩ := unchanged_eq_some.mp h
    have hkey : (answer_first e).key = r.entry.key := get_key hget
    refine ⟨fun hset => hset, fun hset => ?_, .inr fun hcovered => ?_, .inl ?_⟩
    · simp [hset]
    -- the entry was live before, so it had not nudged
    · intro other e' hin hlive hnudged
      have hnudged' : Nudged sh other := by
        obtain ⟨own, howner, hnudge⟩ := hnudged
        refine ⟨own, ?_, hnudge⟩
        simpa [hseveral] using howner
      rcases get_put_cases hin with ⟨rfl, rfl⟩ | ⟨-, hbefore⟩
      · rw [hkey] at hnudged'
        exact absurd (hcovered _ e hget hlive hnudged') (by simp)
      · exact absurd (hcovered _ e' hbefore hlive hnudged') (by simp)
    · simp [hseveral]
  | cleared h hone hended =>
    refine Heeds.of_less rfl (by simp [hone]) (fun id e hin => get_of_remove hin) ?_ rfl
    simp [hended]
  | replaced h hone hresumed =>
    rename_i e
    have hkey : (Status.carry_turn (some e) (running r.entry seen.now)).key = r.entry.key :=
      Status.carry_turn_key ..
    refine Heeds.of_covered rfl (by simp [hone]) fun todo hcovered =>
      hcovered.of_get fun other e' hin hlive hnudged => ?_
    obtain ⟨own, howner, hnudge⟩ := hnudged
    simp only [hone, hresumed, Bool.not_false, Bool.and_self, decide_true, if_true] at howner
    rcases get_put_cases hin with ⟨rfl, -⟩ | ⟨hother, hbefore⟩
    -- what a watch put there is of no report
    · rw [hkey, Reading.id, update_self] at howner
      cases howner
    · rw [hkey] at hother
      rw [Reading.id, update_of_ne hother] at howner
      exact ⟨e', hbefore, hlive, ⟨own, howner, hnudge⟩, fun _ hseen => hseen⟩

theorem Advanced.heeds (hnumbered : ∀ id own, (id, own) ∈ sh.nudged → own ≤ sh.stored id)
    {seen : Seen} {t : Thread} {sh' : Shared} {behind : List Thread}
    (h : Advanced sh seen t sh' behind) : Heeds sh sh' := by
  cases h with
  | retired project entry => exact Heeds.of_less rfl rfl (fun id e hin => get_of_retire hin) rfl rfl
  | repeated hget hsame => exact heeds_repeated hget _
  | replaced hnew hheld => exact heeds_replaced hnumbered (by rw [hheld, reported_key]) _
  | retracted project held watched own =>
    exact Heeds.of_less rfl rfl (fun id e hin => get_of_clear hin) rfl rfl
  | announced project held watched own | led watches behind hbehind hread => exact Heeds.same rfl rfl rfl rfl rfl
  | nudged id own => exact ⟨fun _ => rfl, fun _ => rfl, .inl rfl, .inl rfl⟩
  | settled outcome r todo => exact heeds_settling r todo outcome seen

end

/-! ## The numbers of the reports -/

section
variable {sh sh' : Shared} {t : Thread}

theorem Thread.numbered.mono (h : t.numbered sh) (hle : ∀ id, sh.stored id ≤ sh'.stored id) :
    t.numbered sh' := by
  cases t with
  | stored project held watched own | nudging id own => exact Nat.le_trans h (hle _)
  | _ => trivial

/-- A step of a thread counts on, and what it leaves behind has a number that was given. -/
structure KeepsNumbers (sh sh' : Shared) (behind : List Thread) : Prop where
  stored : ∀ id, sh.stored id ≤ sh'.stored id
  nudged : ∀ id own, (id, own) ∈ sh'.nudged → own ≤ sh'.stored id
  behind : ∀ t ∈ behind, t.numbered sh'

/-- The threads that a key leads to have no number. -/
theorem numbered_of_key (h : t.of_key = true) : t.numbered sh := by
  cases t with
  | stored project held watched own => exact nomatch h
  | nudging id own => exact nomatch h
  | _ => trivial

theorem stored_counts (id other : Id) :
    sh.stored other ≤ Function.update sh.stored id (sh.stored id + 1) other := by
  by_cases hother : other = id
  · rw [hother, update_self]
    omega
  · rw [update_of_ne hother]

theorem Advanced.numbers {seen : Seen} {behind : List Thread} (h : Advanced sh seen t sh' behind)
    (hself : t.numbered sh) (hnudged : ∀ id own, (id, own) ∈ sh.nudged → own ≤ sh.stored id) :
    KeepsNumbers sh sh' behind := by
  have hno : ∀ t ∈ ([] : List Thread), t.numbered sh' := fun t ht => absurd ht not_mem_nil
  cases h with
  | retired project entry | settled outcome r todo =>
    refine ⟨fun _ => Nat.le_refl _, hnudged, fun t ht => ?_⟩
    rw [mem_singleton.mp ht]
    trivial
  | repeated hget hsame =>
    have hle := @stored_counts sh
    exact ⟨hle _, fun id own hin => Nat.le_trans (hnudged id own hin) (hle _ id), hno⟩
  | replaced hnew hheld =>
    have hle := @stored_counts sh
    refine ⟨hle _, fun id own hin => Nat.le_trans (hnudged id own hin) (hle _ id), fun t ht => ?_⟩
    rw [mem_singleton.mp ht, hheld]
    simp only [Thread.numbered, reported_key, update_self]
    exact Nat.le_refl _
  | retracted project held watched own => exact ⟨fun _ => Nat.le_refl _, hnudged, hno⟩
  | announced project held watched own =>
    refine ⟨fun _ => Nat.le_refl _, hnudged, fun t ht => ?_⟩
    split_ifs at ht
    · rw [mem_singleton.mp ht]
      exact hself
    · exact hno t ht
  | nudged id own =>
    refine ⟨fun _ => Nat.le_refl _, fun id' own' hin => ?_, hno⟩
    rcases mem_cons.mp hin with heq | hin
    · cases heq
      exact hself
    · exact hnudged id' own' hin
  | led watches behind hbehind hread =>
    exact ⟨fun _ => Nat.le_refl _, hnudged, fun t ht => numbered_of_key (hbehind t ht)⟩

end

/-! ## The sweep goes on -/

section
variable {sh sh' : Shared} {r : Reading} {todo : List Reading} {sweeper sweeper' : Sweeper}

/-- What a pass reads covers everything. -/
theorem covered_listed (sh : Shared) :
    Covered sh (sh.store.live_agent_entries.map fun x => sh.read x.1 x.2) := by
  rintro ⟨project, key⟩ e hget hlive -
  obtain rfl : e.key = key := get_key hget
  refine ⟨sh.read project e, List.mem_map.mpr ⟨(project, e), ?_, rfl⟩, rfl, Status.same_report_self e⟩
  exact mem_live_agent_entries.mpr ⟨hget, hlive⟩

/-- A reading that was acted on is not needed any more: under its key there is nothing, or
another report than the one that was read. -/
theorem Covered.acted (h : Covered sh (r :: todo)) :
    Covered (sh.acted r (sh.store.clear_if_unchanged r.project r.entry).1
      (sh.store.clear_if_unchanged r.project r.entry).2) todo := by
  intro id e hget hlive hnudged
  obtain ⟨r', hin, hid, hsame⟩ := h id e (get_of_clear hget) hlive hnudged
  rcases mem_cons.mp hin with rfl | hin
  · subst hid
    rw [get_clear_self hget] at hsame
    exact nomatch hsame
  · exact ⟨r', hin, hid, hsame⟩

theorem Sweeper.sound.advance {seen : Seen} (h : sweeper.sound sh)
    (hheard : sweeper = .checking [] false → sh.missed = false)
    (hstep : sweeper.advance sh seen = some (sh', sweeper')) : sweeper'.sound sh' := by
  cases sweeper with
  | waiting =>
    rw [Sweeper.advance] at hstep
    split_ifs at hstep with hflag
    cases hstep
    exact hflag
  | sleeping =>
    cases hstep
    exact ⟨h, .inr (.inr (covered_listed _))⟩
  | looking todo left =>
    obtain ⟨hflag, hcovered⟩ := h
    cases todo with
    | nil =>
      cases hstep
      exact ⟨hflag, hcovered⟩
    | cons r todo =>
      rw [Sweeper.advance] at hstep
      split_ifs at hstep
      · cases hstep
        exact ⟨hflag, hcovered.imp_right (Or.imp_right Covered.acted)⟩
      · cases hstep
        exact ⟨hflag, .inl rfl⟩
  | checking todo left =>
    obtain ⟨hflag, hcovered⟩ := h
    cases todo with
    | nil =>
      cases hstep
      intro hdropped
      cases left with
      | true =>
        rw [if_pos rfl, hflag] at hdropped
        cases hdropped
      | false =>
        -- nothing was left to look at, so the pass covered everything if it was told of it all
        rcases hcovered with hleft | hmissed | hcovered
        · cases hleft
        · rw [hheard rfl] at hmissed
          cases hmissed
        · exact hcovered
    | cons r todo =>
      rw [Sweeper.advance] at hstep
      split_ifs at hstep
      · cases hstep
        exact ⟨hflag, .inl rfl⟩
      · cases hstep
        refine ⟨hflag, hcovered.imp_right (Or.imp_right fun hcovered => ?_)⟩
        exact hcovered.of_less (fun id e hin => get_of_clear hin) rfl rfl

end

/-! ## Every run -/

/-- The invariant of the runs that meet the condition. -/
structure Sound (s : State) : Prop where
  numbered : Numbered s
  sweeper : s.sweeper.sound s.sh

theorem Sound.step {s s' : State} {a : Action} (h : Sound s) (ha : Heard s a)
    (hstep : step s a = some s') : Sound s' := by
  obtain ⟨⟨hnudged, hthreads⟩, hsweeper⟩ := h
  cases step_cases hstep with
  | started focused hsh hkept hnew =>
    refine ⟨⟨?_, fun t ht => ?_⟩, ?_⟩
    · rw [hsh]
      exact hnudged
    · rw [hsh]
      rcases hnew t ht with hin | hstarting
      · exact (hthreads t hin).mono fun _ => Nat.le_refl _
      · cases t with
        | stored project held watched own => exact nomatch hstarting
        | nudging id own => exact nomatch hstarting
        | _ => trivial
    · rw [hsh, hkept]
      exact hsweeper.heeds (.same rfl rfl rfl rfl rfl)
  | advanced t hget ht hsh hkept hnew =>
    rename_i i seen
    have hadvanced := advance_cases s.sh seen t
    rw [← hsh] at hadvanced
    have hnumbers := hadvanced.numbers (hthreads t ht) hnudged
    refine ⟨⟨hnumbers.nudged, fun t' ht' => ?_⟩, ?_⟩
    · rcases hnew t' ht' with hin | hin
      · exact hnumbers.behind t' hin
      · exact (hthreads t' hin).mono hnumbers.stored
    · rw [hkept]
      exact hsweeper.heeds (hadvanced.heeds hnudged)
  | swept hsweep hkept =>
    have hpassed := sweep_cases hsweep
    refine ⟨⟨?_, fun t ht => ?_⟩, hsweeper.advance ha hsweep⟩
    · rw [hpassed.stored, hpassed.nudged]
      exact hnudged
    · rw [hkept] at ht
      exact (hthreads t ht).mono fun _ => by rw [hpassed.stored]

theorem Sound.swept {s : State} (h : Sound s) : Swept s := by
  rintro ⟨hwaiting, hflag⟩ project e hget hlive hnudged
  have hsweeper := h.sweeper
  rw [hwaiting] at hsweeper
  obtain ⟨r, hr, -⟩ := hsweeper hflag _ e hget hlive hnudged
  exact absurd hr not_mem_nil

/-- As long as every pass that drops the flag has heard of all that nudged while it was on its
way, no agent is left unswept, whatever the order of steps. -/
theorem no_agent_unswept {s : State} (h : Reachable (turns.when Heard) s) : Swept s := by
  have hsound : Sound s := by
    refine Reachable.invariant ?_ ?_ h
    · rintro s rfl
      refine ⟨⟨fun id own hin => absurd hin not_mem_nil, fun t ht => absurd ht not_mem_nil⟩, ?_⟩
      intro _ id e hget
      exact nomatch hget
    · rintro s a s' hs ⟨ha, hstep⟩
      exact hs.step ha hstep
  exact hsound.swept

/-! ## Two runs -/

variable (now : ℤ)

def quiet : Seen :=
  { now, session := fun _ => none, idle := fun _ => false, waiting_on_work := fun _ => false,
    goes_on := fun _ => false, is_alive := fun _ => false }

/-- A pane that drew last at `drew`. -/
def pane_drew (drew : ℤ) : Session where
  last_output := drew
  recent_output := []
  output_paused := false
  shell_at_prompt := none
  holds_terminal _ := false

/-- The panes are there, and drew last at `drew`. -/
def drawn (now drew : ℤ) : Seen :=
  { quiet now with session := fun _ => some (pane_drew drew) }

def claude_says_running : StatusEntry :=
  { StatusEntry.default with
    key := "claude_code_s1", value := STATUS_RUNNING, pane_id := "p-1", timestamp := now }

def gemini_says_running : StatusEntry :=
  { claude_says_running now with key := "gemini_s2", pane_id := "p-2" }

/-- A report from its arrival to its nudge, on a thread that is alone. -/
def whole_report (entry : StatusEntry) : List Action :=
  .report "web" entry :: replicate 4 (.advance 0 (drawn entry.timestamp entry.timestamp))

/-- The second pane has drawn just now, the first has not for long. -/
def one_silent : Seen :=
  { quiet 30000 with session := fun pane => some (pane_drew (if pane = "p-2" then 30000 else 0)) }

/-- A pass clears one of two agents, whose pane went quiet, and leaves the other; the next
clears that one too, and drops the flag. Then the first reports again: stored and not yet
nudged, it is what the thread does not look at. -/
theorem no_agent_unswept_passes :
    ∃ s, s.waiting ∧ Swept s ∧ s.sh.store.get ("web", "claude_code_s1") ≠ none ∧
      s.sh.changes.map (fun c => c.id.2) = ["claude_code_s1", "gemini_s2"] := by
  have go : ∀ {s s' : State} (seen : Seen), Reachable (turns.when Heard) s →
      s.sweeper ≠ .checking [] false → step s (.sweep seen) = some s' →
      Reachable (turns.when Heard) s' :=
    fun seen h hnot hstep => h.next (a := Action.sweep seen) ⟨fun hlast => absurd hlast hnot, hstep⟩
  have heard : ∀ a ∈ whole_report (claude_says_running 0) ++ whole_report (gemini_says_running 0),
      ∀ s, Heard s a := by
    simp [whole_report, Heard]
  have h₀ : Reachable (turns.when Heard) initial := .start rfl
  have h₁ := h₀.run_when (fun _ _ _ hstep => hstep) heard (rfl : run initial _ = some _)
  have h₂ := go one_silent h₁ (by rintro ⟨⟩) rfl
  have h₃ := go one_silent h₂ (by rintro ⟨⟩) rfl
  have h₄ := go one_silent h₃ (by rintro ⟨⟩) rfl
  have h₅ := go one_silent h₄ (by rintro ⟨⟩) rfl
  have h₆ := go one_silent h₅ (by rintro ⟨⟩) rfl
  have h₇ := go one_silent h₆ (by rintro ⟨⟩) rfl
  have h₈ := go (quiet 30000) h₇ (by rintro ⟨⟩) rfl
  have h₉ := go (quiet 30000) h₈ (by rintro ⟨⟩) rfl
  have h₁₀ := go (quiet 30000) h₉ (by rintro ⟨⟩) rfl
  have h₁₁ := go (quiet 30000) h₁₀ (by rintro ⟨⟩) rfl
  have h₁₂ := h₁₁.next (a := Action.sweep (quiet 30000)) ⟨fun _ => rfl, rfl⟩
  have h₁₃ := h₁₂.run_when (fun _ _ _ hstep => hstep)
    (fun a ha => heard a (mem_append_left _ (mem_of_mem_take ha)))
    (rfl : run _ ((whole_report (claude_says_running 0)).take 3) = some _)
  exact ⟨_, ⟨rfl, rfl⟩, no_agent_unswept h₁₃, by decide, rfl⟩

/-- A pass clears the one agent there is, whose terminal went quiet. Before it drops the flag
the agent reports again and nudges. -/
theorem agent_left_unswept : ∃ s, Reachable turns s ∧ ¬ Swept s := by
  have hrun : ∃ s, run initial (whole_report (claude_says_running 0)
      ++ [.sweep (quiet 0), .sweep (quiet 0), .sweep (drawn 30000 0)]
      ++ whole_report (claude_says_running 30000) ++ [.sweep (quiet 0), .sweep (quiet 0)]) = some s
      ∧ s.waiting ∧ s.sh.store.get ("web", "claude_code_s1") = some
          { claude_says_running 30000 with turn_start := 30000, reported_at := 30000 }
      ∧ s.sh.owner ("web", "claude_code_s1") = some 2
      ∧ (("web", "claude_code_s1"), 2) ∈ s.sh.nudged :=
    ⟨_, rfl, ⟨rfl, rfl⟩, rfl, rfl, mem_cons_self ..⟩
  obtain ⟨s, hs, hwaiting, hget, howner, hnudged⟩ := hrun
  refine ⟨s, reachable_run (.start rfl) hs, fun hswept => ?_⟩
  have hlive : live_agent { claude_says_running 30000 with turn_start := 30000, reported_at := 30000 }
      = true := rfl
  exact hswept hwaiting "web" _ hget hlive ⟨2, howner, hnudged⟩

end Lpm.AgentTurn
