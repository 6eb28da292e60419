/-
A hook that reported in the meantime always wins: what watches and sweeps change, over any
order of reports, keys, watches and sweeps.

A watch or a sweep acts on what it read some time ago, and only if the store still holds the
same report: the same value, timestamp and askers. A report that came since leaves these as
they were when it repeats the state that is held, and gives them again when it says the same
within the same millisecond. As long as no report does, a reading that was outrun by a
report never looks like what is held.
-/
import Lpm.AgentTurn.Swept

set_option autoImplicit false

namespace Lpm.AgentTurn

open List Function

open Transition
open Lpm.Status (Id StatusEntry STATUS_RUNNING STATUS_WAITING same_report should_replace same_report_carry_turn)
open Lpm.Status.Store (re_reported same_report_reported reported_key get_key get_put_cases
  get_of_remove get_of_retire get_of_clear unchanged_eq_some)

/-! ## What is said of a state -/

/-- What watches and the sweep have read and not acted on. -/
def State.readings (s : State) : List Reading :=
  s.sh.watched ++ s.threads.flatMap Thread.readings ++ s.sweeper.readings

/-- An entry is cleared, replaced or amended only if no report of its agent was stored after
it was observed. -/
def ReportsWin (s : State) : Prop := ∀ c ∈ s.sh.changes, c.read = c.count

variable (readings : List Reading)

/-- With `e` for `id` no reading older than its last `count` reports looks unchanged. -/
def Apart (id : Id) (e : StatusEntry) (count : ℕ) : Prop :=
  ∀ r ∈ readings, r.id = id → r.count < count → same_report e r.entry = false

/-- What a thread is about to put in the store is apart from the readings that are then
outrun: what it holds, when a report only repeats it, else what it says; the amended entry;
the Running a watch puts in place. -/
def Thread.distinct (sh : Shared) (seen : Seen) : Thread → Prop
  | .storing project entry =>
    let id := (project, entry.key)
    let held := (sh.store.get id).filter fun e => !should_replace e entry
    Apart readings id (held.getD entry) (sh.stored id + 1)
  | .settling outcome (r :: _) =>
    ∀ e, sh.store.unchanged r.project r.entry = some e →
      if several r.entry then
        outcome ≠ .unsure → Apart readings r.id (answer_first e) (sh.stored r.id)
      else outcome = .resumed → Apart readings r.id (running r.entry seen.now) (sh.stored r.id)
  | _ => True

/-- No report leaves an entry like one that a watch or the sweep read before it and is still
to act on, and no watch brings one back. -/
def Distinct (s : State) : Action → Prop
  | .advance i seen => ∀ t, s.threads[i]? = some t → t.distinct s.readings s.sh seen
  | _ => True

/-! ## Readings and the present -/

/-- A reading that was outrun by a report does not look like what is held. -/
structure Current (sh : Shared) (r : Reading) : Prop where
  count : r.count ≤ sh.stored r.id
  outrun : r.count < sh.stored r.id → ∀ e, sh.store.get r.id = some e → same_report e r.entry = false

section
variable {sh sh' : Shared} {seen : Seen} {r : Reading} {readings : List Reading} {t : Thread}
  {behind : List Thread}

/-- A reading of the moment. -/
theorem Current.now (h : r.count = sh.stored r.id) : Current sh r where
  count := Nat.le_of_eq h
  outrun hlt := absurd h (Nat.ne_of_lt hlt)

/-- Nothing is stored but what was, as far as it could look like a reading. -/
theorem Current.of_get (h : Current sh r) (hstored : sh'.stored r.id = sh.stored r.id)
    (hget : ∀ e, sh'.store.get r.id = some e → sh.store.get r.id = some e) : Current sh' r where
  count := by
    rw [hstored]
    exact h.count
  outrun hlt e he := by
    rw [hstored] at hlt
    exact h.outrun hlt e (hget e he)

/-- An entry is put in place that is apart from the readings that are outrun. -/
theorem Current.put (h : Current sh r) (hr : r ∈ readings) {project : String} {e : StatusEntry}
    (hstore : sh'.store = sh.store.put project e) {count : ℕ}
    (hcount : sh'.stored (project, e.key) = count) (hle : sh.stored (project, e.key) ≤ count)
    (hothers : ∀ id, id ≠ (project, e.key) → sh'.stored id = sh.stored id)
    (hapart : Apart readings (project, e.key) e count) : Current sh' r := by
  by_cases hid : r.id = (project, e.key)
  · refine ⟨?_, fun hlt e' he' => ?_⟩
    · have hbefore := h.count
      rw [hid] at hbefore ⊢
      omega
    · rw [hid, hcount] at hlt
      rw [hstore, hid, Status.Store.get_put_self] at he'
      rw [← Option.some.inj he']
      exact hapart r hr hid hlt
  · apply h.of_get (hothers _ hid)
    intro e' he'
    rw [hstore, Status.Store.get_put_other hid] at he'
    exact he'

/-- A reading that still looks like what is held was not outrun. -/
theorem Current.fresh (h : Current sh r) {e : StatusEntry} (hget : sh.store.get r.id = some e)
    (hsame : same_report e r.entry = true) : r.count = sh.stored r.id := by
  have hle := h.count
  by_contra hne
  have hother := h.outrun (by omega) e hget
  rw [hsame] at hother
  exact nomatch hother

theorem current_settled {outcome : Outcome} {acting : Reading} {todo : List Reading}
    (hdistinct : Thread.distinct readings sh seen (.settling outcome (acting :: todo)))
    (hr : r ∈ readings) (h : Current sh r) :
    Current (Thread.advance sh seen (.settling outcome (acting :: todo))).1 r := by
  rw [Thread.advance]
  rcases hsettle : settle acting.project outcome seen.now acting.entry sh.store with ⟨store, changed⟩
  have hcases := settle_cases acting.project outcome seen.now acting.entry sh.store
  rw [hsettle] at hcases
  cases hcases with
  | left => exact h.of_get rfl fun e he => he
  | amended hunchanged hseveral hsure =>
    rename_i e
    have hapart := hdistinct e hunchanged
    rw [if_pos hseveral] at hapart
    have hkey : (answer_first e).key = acting.entry.key := get_key (unchanged_eq_some.mp hunchanged).1
    refine @Current.put _ _ _ _ h hr acting.project (answer_first e) rfl _ rfl (Nat.le_refl _)
      (fun _ _ => rfl) ?_
    rw [hkey]
    exact hapart hsure
  | cleared hunchanged hone hended => exact h.of_get rfl fun e he => get_of_remove he
  | replaced hunchanged hone hresumed =>
    rename_i e
    have hapart := hdistinct e hunchanged
    rw [if_neg (by rw [hone]; exact Bool.false_ne_true)] at hapart
    have hkey : (Status.carry_turn (some e) (running acting.entry seen.now)).key = acting.entry.key :=
      Status.carry_turn_key ..
    refine @Current.put _ _ _ _ h hr acting.project (Status.carry_turn (some e) _) rfl _ rfl
      (Nat.le_refl _) (fun _ _ => rfl) ?_
    rw [hkey]
    intro r' hr' hid hlt
    rw [same_report_carry_turn]
    exact hapart hresumed r' hr' hid hlt

/-- A step that keeps apart leaves every reading what it is to the present. -/
theorem Advanced.current (hadvanced : Advanced sh seen t sh' behind)
    (hdistinct : t.distinct readings sh seen) (hr : r ∈ readings) (h : Current sh r) :
    Current sh' r := by
  cases hadvanced with
  | retired project entry => exact h.of_get rfl fun e he => get_of_retire he
  | repeated hget hsame =>
    rename_i project entry e
    have hkey : (re_reported e entry).key = entry.key := get_key hget
    have hheld : (sh.store.get (project, entry.key)).filter (fun e => !should_replace e entry) = some e := by
      rw [hget, Option.filter_some, if_pos (by rw [hsame]; rfl)]
    rw [Thread.distinct, hheld] at hdistinct
    -- what is stored does not look like an outrun reading
    refine @Current.put _ _ _ _ h hr project (re_reported e entry) rfl
      (sh.stored (project, entry.key) + 1) ?_ ?_ (fun id hid => ?_) ?_
    · rw [hkey]
      exact update_self ..
    · rw [hkey]
      omega
    · rw [hkey] at hid
      exact update_of_ne hid ..
    · rw [hkey]
      exact hdistinct
  | replaced hnew hheld =>
    rename_i project entry held
    have hkey : held.key = entry.key := by rw [hheld, reported_key]
    have hnone : (sh.store.get (project, entry.key)).filter (fun e => !should_replace e entry) = none := by
      rw [Option.filter_eq_none_iff]
      intro e he
      rw [hnew e he]
      simp
    rw [Thread.distinct, hnone] at hdistinct
    -- nor does a report that is new
    refine @Current.put _ _ _ _ h hr project held rfl
      (sh.stored (project, entry.key) + 1) ?_ ?_ (fun id hid => ?_) ?_
    · rw [hkey]
      exact update_self ..
    · rw [hkey]
      omega
    · rw [hkey] at hid
      exact update_of_ne hid ..
    · rw [hkey]
      intro r' hr' hid hlt
      rw [hheld, same_report_reported]
      exact hdistinct r' hr' hid hlt
  | retracted project held watched own => exact h.of_get rfl fun e he => get_of_clear he
  | announced project held watched own => exact h
  | nudged id own | led watches behind hbehind hread => exact h.of_get rfl fun e he => he
  | settled outcome acting todo => exact current_settled hdistinct hr h

/-- A thread holds on to the readings there were, and makes them at the moment. -/
theorem Advanced.reads (h : Advanced sh seen t sh' behind)
    (hr : r ∈ sh'.watched ∨ ∃ t' ∈ behind, r ∈ t'.readings) :
    r ∈ sh.watched ∨ r ∈ t.readings ∨ r.count = sh'.stored r.id := by
  have hnone : ∀ t' : Thread, t'.readings = [] → (∃ u ∈ [t'], r ∈ u.readings) → r ∈ t.readings := by
    rintro t' hempty ⟨u, hu, hin⟩
    rw [mem_singleton.mp hu, hempty] at hin
    exact absurd hin not_mem_nil
  have hno : (∃ u ∈ ([] : List Thread), r ∈ u.readings) → r ∈ t.readings := by
    rintro ⟨u, hu, -⟩
    exact absurd hu not_mem_nil
  cases h with
  | retired project entry | replaced hnew hheld => exact hr.imp_right fun hin => .inl (hnone _ rfl hin)
  | repeated hget hsame | retracted project held watched own | nudged id own =>
    exact hr.imp_right fun hin => .inl (hno hin)
  | announced project held watched own =>
    refine hr.imp_right fun hin => .inl ?_
    split_ifs at hin
    · exact hnone _ rfl hin
    · exact hno hin
  | led watches behind hbehind hread => exact hread r hr
  | settled outcome acting todo =>
    refine hr.imp_right fun hin => .inl ?_
    obtain ⟨u, hu, hin⟩ := hin
    rw [mem_singleton.mp hu] at hin
    exact mem_cons_of_mem _ hin

/-- What a thread changes, it changes because of a reading that still stands. -/
theorem Advanced.changes (h : Advanced sh seen t sh' behind) :
    ∀ c ∈ sh'.changes, c ∈ sh.changes ∨ ∃ r ∈ t.readings, Changed sh r c := by
  intro c hc
  cases h with
  | settled outcome acting todo =>
    rw [Thread.advance] at hc
    rcases hsettle : settle acting.project outcome seen.now acting.entry sh.store with ⟨store, changed⟩
    have hcases := settle_cases acting.project outcome seen.now acting.entry sh.store
    rw [hsettle] at hcases hc
    have hacted : c ∈ (sh.acted acting store changed).changes := hc
    rcases mem_acted hacted with hin | ⟨hchanged, heq⟩
    · exact .inl hin
    · refine .inr ⟨acting, mem_cons_self .., heq, ?_⟩
      cases hcases with
      | left => cases hchanged
      | amended hunchanged hseveral hsure => exact ⟨_, hunchanged⟩
      | cleared hunchanged hone hended => exact ⟨_, hunchanged⟩
      | replaced hunchanged hone hresumed => exact ⟨_, hunchanged⟩
  | _ => exact .inl hc

end

/-! ## Every run -/

/-- The invariant of the runs that meet the condition. -/
structure Fresh (s : State) : Prop where
  readings : ∀ r ∈ s.readings, Current s.sh r
  win : ReportsWin s

theorem mem_readings {s : State} {r : Reading} : r ∈ s.readings
    ↔ r ∈ s.sh.watched ∨ (∃ t ∈ s.threads, r ∈ t.readings) ∨ r ∈ s.sweeper.readings := by
  rw [State.readings, mem_append, mem_append, mem_flatMap, or_assoc]

/-- A change that rests on a reading that still stands. -/
theorem Fresh.changed {s : State} (h : Fresh s) {r : Reading} (hr : r ∈ s.readings) {c : Change}
    (hc : Changed s.sh r c) : c.read = c.count := by
  obtain ⟨rfl, e, hunchanged⟩ := hc
  obtain ⟨hget, hsame⟩ := unchanged_eq_some.mp hunchanged
  exact (h.readings r hr).fresh hget hsame

theorem Fresh.step {s s' : State} {a : Action} (h : Fresh s) (ha : Distinct s a)
    (hstep : step s a = some s') : Fresh s' := by
  cases step_cases hstep with
  | started focused hsh hkept hnew =>
    -- a thread that starts has read nothing yet
    have hold : ∀ r ∈ s'.readings, r ∈ s.readings := by
      intro r hr
      rw [mem_readings, hsh, hkept] at hr
      rw [mem_readings]
      refine hr.imp_right (Or.imp_left ?_)
      rintro ⟨t, ht, hin⟩
      rcases hnew t ht with ht | hstarting
      · exact ⟨t, ht, hin⟩
      · cases t with
        | reporting project entry | focusing pane now | pressing project pane key now => exact absurd hin not_mem_nil
        | _ => exact nomatch hstarting
    refine ⟨fun r hr => ?_, ?_⟩
    · rw [hsh]
      exact (h.readings r (hold r hr)).of_get rfl fun e he => he
    · rw [ReportsWin, hsh]
      exact h.win
  | advanced t hget ht hsh hkept hnew =>
    rename_i i seen
    have hadvanced := advance_cases s.sh seen t
    rw [← hsh] at hadvanced
    have hself : ∀ r ∈ t.readings, r ∈ s.readings := fun r hr =>
      mem_readings.mpr (.inr (.inl ⟨t, ht, hr⟩))
    have hkeep : ∀ r ∈ s.readings, Current s'.sh r := fun r hr =>
      hadvanced.current (ha t hget) hr (h.readings r hr)
    refine ⟨fun r hr => ?_, fun c hc => ?_⟩
    -- a reading is an old one, or was made of what is stored now
    · have hreads : r ∈ s.readings ∨ r.count = s'.sh.stored r.id := by
        rw [mem_readings, hkept] at hr
        rcases hr with hr | ⟨t', ht', hr⟩ | hr
        · rcases hadvanced.reads (.inl hr) with hin | hin | hnow
          · exact .inl (mem_readings.mpr (.inl hin))
          · exact .inl (hself r hin)
          · exact .inr hnow
        · rcases hnew t' ht' with hbehind | hthere
          · rcases hadvanced.reads (.inr ⟨t', hbehind, hr⟩) with hin | hin | hnow
            · exact .inl (mem_readings.mpr (.inl hin))
            · exact .inl (hself r hin)
            · exact .inr hnow
          · exact .inl (mem_readings.mpr (.inr (.inl ⟨t', hthere, hr⟩)))
        · exact .inl (mem_readings.mpr (.inr (.inr hr)))
      rcases hreads with hin | hnow
      · exact hkeep r hin
      · exact .now hnow
    · rcases hadvanced.changes c hc with hin | ⟨r, hr, hchanged⟩
      · exact h.win c hin
      · exact h.changed (hself r hr) hchanged
  | swept hsweep hkept =>
    have hpassed := sweep_cases hsweep
    have hself : ∀ r ∈ s.sweeper.readings, r ∈ s.readings := fun r hr =>
      mem_readings.mpr (.inr (.inr hr))
    refine ⟨fun r hr => ?_, fun c hc => ?_⟩
    · have hreads : r ∈ s.readings ∨ r.count = s.sh.stored r.id := by
        rw [mem_readings, hkept, Shared.watched, hpassed.watches] at hr
        rcases hr with hr | hr | hr
        · exact .inl (mem_readings.mpr (.inl hr))
        · exact .inl (mem_readings.mpr (.inr (.inl hr)))
        · exact (hpassed.readings r hr).imp_left (hself r)
      rcases hreads with hin | hnow
      · exact (h.readings r hin).of_get (by rw [hpassed.stored]) (hpassed.store r.id)
      · exact .now (by rw [hnow, hpassed.stored])
    · rcases hpassed.changes c hc with hin | ⟨r, hr, hchanged⟩
      · exact h.win c hin
      · exact h.changed (hself r hr) hchanged

/-- As long as no report leaves an entry like one that was read before it and is still acted
on, a watch or a sweep changes an entry only if no report of its agent was stored after the
entry was read, whatever the order of steps. -/
theorem reports_win {s : State} (h : Reachable (turns.when Distinct) s) : ReportsWin s := by
  have hfresh : Fresh s := by
    refine Reachable.invariant ?_ ?_ h
    · rintro s rfl
      exact ⟨fun r hr => absurd hr not_mem_nil, fun c hc => absurd hc not_mem_nil⟩
    · rintro s a s' hs ⟨ha, hstep⟩
      exact hs.step ha hstep
  exact hfresh.win

/-! ## Two runs -/

def claude_asks : StatusEntry :=
  { claude_says_running 1000 with value := STATUS_WAITING, askers := ["main"] }

/-- Esc is pressed while an agent runs, and before the watch settles the agent asks: the watch
leaves that report alone. The sweep clears it once the pane is silent. -/
theorem reports_win_asked :
    ∃ s, ReportsWin s ∧ s.sh.stored ("web", "claude_code_s1") = 2 ∧
      s.sh.changes = [{ id := ("web", "claude_code_s1"), read := 2, count := 2 }] := by
  have go : ∀ {s s' : State} (i : ℕ) (seen : Seen), Reachable (turns.when Distinct) s →
      Distinct s (.advance i seen) → step s (.advance i seen) = some s' →
      Reachable (turns.when Distinct) s' :=
    fun i seen h hdistinct hstep => h.next (a := Action.advance i seen) ⟨hdistinct, hstep⟩
  have sweep : ∀ {s s' : State} (seen : Seen), Reachable (turns.when Distinct) s →
      step s (.sweep seen) = some s' → Reachable (turns.when Distinct) s' :=
    fun seen h hstep => h.next (a := Action.sweep seen) ⟨trivial, hstep⟩
  have h₀ : Reachable (turns.when Distinct) initial := .start rfl
  have h₁ := h₀.next (a := Action.report "web" (claude_says_running 0)) ⟨trivial, rfl⟩
  have h₂ := go 0 (drawn 0 0) h₁ (by rintro t ⟨⟩; trivial) rfl
  have h₃ := go 0 (drawn 0 0) h₂ (by rintro t ⟨⟩ r hr; cases hr) rfl
  have h₄ := go 0 (drawn 0 0) h₃ (by rintro t ⟨⟩; trivial) rfl
  have h₅ := go 0 (drawn 0 0) h₄ (by rintro t ⟨⟩; trivial) rfl
  have h₆ := h₅.next (a := Action.input "web" "p-1" (bytes "\x1b") 100) ⟨trivial, rfl⟩
  have h₇ := go 0 (drawn 100 0) h₆ (by rintro t ⟨⟩; trivial) rfl
  have h₈ := go 0 (drawn 100 0) h₇ (by rintro t ⟨⟩; trivial) rfl
  have h₉ := go 0 (drawn 100 0) h₈ (by rintro t ⟨⟩; trivial) rfl
  have h₁₀ := h₉.next (a := Action.report "web" claude_asks) ⟨trivial, rfl⟩
  have h₁₁ := go 1 (drawn 1000 1000) h₁₀ (by rintro t ⟨⟩; trivial) rfl
  have h₁₂ := go 1 (drawn 1000 1000) h₁₁ (by
    -- the question has another time than the reading of the watch
    rintro t ⟨⟩ r hr - -
    have hentry : r.entry.timestamp = 0 := by
      obtain rfl := mem_singleton.mp hr
      rfl
    have htime : claude_asks.timestamp ≠ r.entry.timestamp := by
      rw [hentry]
      decide
    refine Bool.eq_false_iff.mpr fun hsame => htime ?_
    exact (Lpm.Status.same_report_iff (e := claude_asks).mp hsame).2.1) rfl
  have h₁₃ := go 1 (drawn 1000 1000) h₁₂ (by rintro t ⟨⟩; trivial) rfl
  have h₁₄ := go 1 (drawn 1000 1000) h₁₃ (by rintro t ⟨⟩; trivial) rfl
  have h₁₅ := go 0 (drawn 3100 1000) h₁₄ (by rintro t ⟨⟩; trivial) rfl
  have h₁₆ := go 0 (drawn 3100 1000) h₁₅ (by rintro t ⟨⟩; trivial) rfl
  have h₁₇ := go 0 (drawn 3100 1000) h₁₆ (by rintro t ⟨⟩; trivial) rfl
  have h₁₈ := go 0 (drawn 3100 1000) h₁₇ (by
    rintro t ⟨⟩ e -
    exact fun hresumed => by cases hresumed) rfl
  have h₁₉ := sweep (quiet 90000) h₁₈ rfl
  have h₂₀ := sweep (quiet 90000) h₁₉ rfl
  have h₂₁ := sweep (quiet 90000) h₂₀ rfl
  exact ⟨_, reports_win h₂₁, rfl, rfl⟩

/-- An agent reports Running, Esc is pressed, and the agent reports the same again. Two quiet
seconds later the watch takes the turn for ended, and clears the entry over that report. -/
theorem repeat_report_loses : ∃ s, Reachable turns s ∧ ¬ ReportsWin s := by
  have hrun : ∃ s, run initial (whole_report (claude_says_running 0)
      ++ [.input "web" "p-1" (bytes "\x1b") 100, .advance 0 (drawn 100 0), .advance 0 (drawn 100 0),
        .advance 0 (drawn 100 0)]
      ++ [.report "web" (claude_says_running 1000), .advance 1 (drawn 1000 1000),
        .advance 1 (drawn 1000 1000)]
      ++ [.advance 0 (drawn 3100 1000), .advance 0 (drawn 3100 1000), .advance 0 (drawn 3100 1000),
        .advance 0 (drawn 3100 1000)]) = some s
      ∧ s.sh.changes = [{ id := ("web", "claude_code_s1"), read := 1, count := 2 }] := ⟨_, rfl, rfl⟩
  obtain ⟨s, hs, hchanges⟩ := hrun
  refine ⟨s, reachable_run (.start rfl) hs, fun hwin => ?_⟩
  have hsame := hwin { id := ("web", "claude_code_s1"), read := 1, count := 2 }
    (by rw [hchanges]; exact mem_cons_self ..)
  exact absurd hsame (by decide)

end Lpm.AgentTurn
