/-
Automatic sync in every run: one run of a peer at a time, no trigger forgotten, no sleep
past what is due.

Every step that touches a peer does one of the things of `Peer`, so what is left to show is
what the scheduler carries from one of its sections to the next (`Scheduled`): the peers a
pass has looked at are served by the wake-up it found, and nobody changes a peer before the
thread parks without its seeing that it was woken.
-/
import Lpm.AutoSync.Engine
import Mathlib.Tactic.FinCases

set_option autoImplicit false

open Transition

namespace Lpm.AutoSync

open Option Function

variable {σ : Type} [DecidableEq σ] {timings : Timings} {onTime : Prop} {s s' : State σ}

/-- A peer that waits to be due is served by a wake-up. -/
def SlugState.Served (st : SlugState) (wake : Option Nat) : Prop :=
  st.pending = true → st.running = false → ∃ t ∈ st.earliest_start, ∃ w ∈ wake, w ≤ t

/-- What the scheduler's thread knows where it stands; how long it may sleep is known only in
runs in which it parks on time. -/
def Scheduled (timings : Timings) (onTime : Prop) (s : State σ) : Scheduler σ → Prop
  | .loop => True
  | .pass now slugs _ wake => s.woken = false ∧ slugs ⊆ s.keys ∧ (∀ w ∈ wake, now ≤ w) ∧
      ∀ x, x ∉ slugs → (s.slugs x).Served wake
  | .ticks now slug gates slugs _ wake => s.woken = false ∧ slug :: slugs ⊆ s.keys ∧
      (∀ w ∈ wake, now ≤ w) ∧ (waits (s.log slug) = true → gates.all_open = true) ∧
      ∀ x, x ∉ slug :: slugs → (s.slugs x).Served wake
  | .spawns now _ wait => wait ≤ timings.max_idle ∧ (s.woken = false → ∀ x,
      (s.slugs x).pending = true → (s.slugs x).running = false →
        ∃ t ∈ (s.slugs x).earliest_start, now + wait ≤ t)
  | .parked ends => onTime → s.woken = false → ∀ x, (s.slugs x).pending = true →
      (s.slugs x).running = false → ∃ t ∈ (s.slugs x).earliest_start, ends ≤ t
  | .exited => True

/-- What holds of the peers, wherever the scheduler stands. -/
structure Peers (timings : Timings) (s : State σ) : Prop where
  paced : ∀ x, Paced timings (s.slugs x) (s.gates x).all_open (s.log x)
  new : ∀ x, x ∉ s.keys → s.slugs x = {}
  going : ∀ x, s.going x = if (s.slugs x).running = true then 1 else 0

structure Inv (timings : Timings) (onTime : Prop) (s : State σ) : Prop where
  peers : Peers timings s
  scheduled : Scheduled timings onTime s s.scheduler

/-! ## The peers -/

variable (h : Peers timings s)
include h

/-- One peer changes and nothing of the rest. -/
theorem Peers.changed (slug : σ) (hkeys : s'.keys = s.keys)
    (hothers : ∀ x, x ≠ slug → s'.slugs x = s.slugs x ∧ s'.gates x = s.gates x ∧
      s'.log x = s.log x ∧ s'.going x = s.going x)
    (hpaced : Paced timings (s'.slugs slug) (s'.gates slug).all_open (s'.log slug))
    (hnew : slug ∉ s.keys → s'.slugs slug = {})
    (hgoing : s'.going slug = if (s'.slugs slug).running = true then 1 else 0) :
    Peers timings s' := by
  refine ⟨fun x => ?_, fun x hx => ?_, fun x => ?_⟩ <;> by_cases he : x = slug
  · exact he ▸ hpaced
  · obtain ⟨hst, hgates, hlog, -⟩ := hothers x he
    rw [hst, hgates, hlog]
    exact h.paced x
  · exact he ▸ hnew fun hin => hx (he ▸ hkeys ▸ hin)
  · exact (hothers x he).1.trans (h.new x (hkeys ▸ hx))
  · exact he ▸ hgoing
  · obtain ⟨hst, -, -, hruns⟩ := hothers x he
    rw [hruns, hst]
    exact h.going x

/-- What the map and the account say of one peer changes, and its runs are what they were. -/
theorem Peers.note {slug : σ} {st : SlugState} {entries : List Entry}
    (hpaced : Paced timings st (s.gates slug).all_open (entries ++ s.log slug))
    (hkey : slug ∈ s.keys) (hrunning : st.running = (s.slugs slug).running) :
    Peers timings (s.note slug st entries) := by
  refine h.changed slug rfl (fun x he => ⟨update_of_ne he .., rfl, update_of_ne he .., rfl⟩) ?_
    (fun hnot => absurd hkey hnot) ?_
  · simp only [State.note, update_self]
    exact hpaced
  · simp only [State.note, update_self, hrunning]
    exact h.going slug

theorem Peers.keyed (slug : σ) :
    Peers timings { s with keys := if slug ∈ s.keys then s.keys else s.keys ++ [slug] } := by
  refine ⟨h.paced, fun x hx => h.new x fun hin => hx ?_, h.going⟩
  dsimp only
  split
  · exact hin
  · exact List.mem_append_left _ hin

theorem Peers.notify_one (reconnect : Bool) (now : Nat) (slug : σ) :
    Peers timings (s.notify_one timings reconnect now slug) := by
  refine (h.keyed slug).note ((h.paced slug).notified reconnect now) ?_ ?_
  · dsimp only
    split
    · assumption
    · exact List.mem_append_right _ List.mem_cons_self
  · cases reconnect <;> rfl

theorem Peers.notified (slugs : List σ) (reconnect : Bool) (now : Nat) :
    Peers timings (slugs.foldl (State.notify_one · timings reconnect now) s) := by
  induction slugs generalizing s with
  | nil => exact h
  | cons slug slugs ih => exact ih (h.notify_one reconnect now slug)

omit h in
theorem notify_one_scheduler (slugs : List σ) (reconnect : Bool) (now : Nat) :
    (slugs.foldl (State.notify_one · timings reconnect now) s).scheduler = s.scheduler := by
  induction slugs generalizing s with
  | nil => rfl
  | cons slug slugs ih => exact ih

theorem Peers.completed {c : Completed σ} (hc : c ∈ s.completed) :
    Peers timings
      { s.note c.slug (apply_complete (s.slugs c.slug) c.failed timings c.now)
          [if c.failed then .failed c.now else .succeeded] with
        completed := s.completed.erase c, woken := true } := by
  -- the run that ends is one of those that were going
  have hcount : ∀ x, (s.completed.map Completed.slug).count x =
      ((s.completed.erase c).map Completed.slug).count x + if c.slug = x then 1 else 0 := by
    intro x
    have hperm := (List.perm_cons_erase hc).map Completed.slug
    rw [hperm.count_eq, List.map_cons, List.count_cons]
    simp only [beq_iff_eq]
  have hgoing := h.going c.slug
  rw [State.going, hcount, if_pos rfl] at hgoing
  refine h.changed c.slug rfl (fun x he => ⟨update_of_ne he .., rfl, update_of_ne he .., ?_⟩) ?_
    (fun hnot => ?_) ?_
  · simp only [State.going, State.note, hcount, if_neg (Ne.symm he), Nat.add_zero]
  · simp only [State.note, update_self]
    exact (h.paced c.slug).completed c.failed c.now
  · rw [h.new c.slug hnot] at hgoing
    exact nomatch hgoing
  · have hidle : (apply_complete (s.slugs c.slug) c.failed timings c.now).running = false := by
      cases c.failed <;> rfl
    simp only [State.going, State.note, update_self, hidle, Bool.false_eq_true, if_false]
    split at hgoing <;> omega

/-- A peer with a run going is in the map. -/
theorem Peers.key_of_going {x : σ} (hx : 0 < s.going x) : x ∈ s.keys := by
  by_contra hnot
  rw [h.going, h.new x hnot] at hx
  exact nomatch hx

/-! ## A pass -/

variable {wake : Option Nat} {slugs to_run : List σ} {slug : σ}

/-- A pass starts a run, and the peer is not pending any more. -/
theorem Peers.ran {now : Nat} {gates : Gates}
    (hs : s.scheduler = .ticks now slug gates slugs to_run wake)
    (hkey : slug ∈ s.keys) (hrunning : (s.slugs slug).running = false)
    (hfree : (s.slugs slug).Free now) :
    Peers timings
      { s.note slug
          { s.slugs slug with
            running := true
            pending := false
            quiet_until := none
            rate_until := some (now + timings.rate_floor) } [.started now] with
        scheduler := .pass now slugs (to_run ++ [slug]) wake } := by
  refine h.changed slug rfl (fun x he => ⟨update_of_ne he .., rfl, update_of_ne he .., ?_⟩) ?_
    (fun hnot => absurd hkey hnot) ?_
  -- nobody else is put on the list of runs
  · have hzero : List.count x [slug] = 0 := List.count_eq_zero.mpr fun hin =>
      he (List.mem_singleton.mp hin)
    simp only [State.going, State.note, hs, Scheduler.to_run, List.count_append, hzero, Nat.add_zero]
  · simp only [State.note, update_self]
    exact (h.paced slug).ran hfree
  · have hgoing := h.going slug
    rw [State.going, hs, hrunning] at hgoing
    simp only [State.going, State.note, Scheduler.to_run, update_self, if_true,
      Bool.false_eq_true, if_false, List.count_append, List.count_singleton_self] at hgoing ⊢
    omega

omit h

omit [DecidableEq σ] in
theorem SlugState.Served.sooner {st : SlugState} (h : st.Served wake) (t : Nat) :
    st.Served (some (wake.elim t (min · t))) := by
  intro hpending hrunning
  obtain ⟨t', ht', w, hw, hle⟩ := h hpending hrunning
  cases hw
  exact ⟨t', ht', _, rfl, Nat.le_trans (Nat.min_le_left w t) hle⟩

/-- The peer a pass looked at is served, and those it looked at before are. -/
theorem update_served {slugs : List σ} {st : SlugState}
    (hself : st.Served wake) (hother : ∀ x, x ∉ slug :: slugs → (s.slugs x).Served wake) :
    ∀ x, x ∉ slugs → (Function.update s.slugs slug st x).Served wake := by
  intro x hx
  by_cases he : x = slug
  · subst he
    rw [update_self]
    exact hself
  · rw [update_of_ne he]
    exact hother x fun hin => (List.mem_cons.mp hin).elim he hx

/-- Steps that leave the peers, the map and the mark alone. -/
theorem Peers.frame (h : Peers timings s) (hslugs : s'.slugs = s.slugs) (hgates : s'.gates = s.gates)
    (hkeys : s'.keys = s.keys) (hlog : s'.log = s.log) (hgoing : ∀ x, s'.going x = s.going x) :
    Peers timings s' := by
  refine ⟨fun x => ?_, fun x hx => ?_, fun x => ?_⟩
  · rw [hslugs, hgates, hlog]
    exact h.paced x
  · rw [hslugs]
    exact h.new x (hkeys ▸ hx)
  · rw [hgoing, hslugs]
    exact h.going x

/-- The scheduler goes on, and what it has decided to run stays. -/
theorem Peers.moved (h : Peers timings s) {was phase : Scheduler σ} {now : Nat}
    {woken shutdown : Bool} {calls : List (Call σ)} (hs : s.scheduler = was)
    (hruns : was.to_run = phase.to_run) :
    Peers timings { s with
      now := now, woken := woken, shutdown := shutdown, calls := calls, scheduler := phase } := by
  refine h.frame rfl rfl rfl rfl fun x => ?_
  rw [State.going, State.going, hs, hruns]

theorem Inv.apply (h : Inv timings onTime s) {now : Nat} {gates : Gates}
    (hs : s.scheduler = .ticks now slug gates slugs to_run wake)
    (hstep : step timings s .apply = some s') : Inv timings onTime s' := by
  have hsched := h.scheduled
  rw [hs] at hsched
  obtain ⟨hwoken, hkeys, hwake, hgates, hserved⟩ := hsched
  have hkey : slug ∈ s.keys := hkeys List.mem_cons_self
  have hrest : slugs ⊆ s.keys := fun x hx => hkeys (List.mem_cons_of_mem _ hx)
  have hpaced := h.peers.paced slug
  -- where no run is started, only the mark of the peer may change
  have hmarked : ∀ {st : SlugState} {wake' : Option Nat},
      Paced timings st (s.gates slug).all_open (s.log slug) →
      st.running = (s.slugs slug).running →
      Peers timings { s.note slug st [] with scheduler := .pass now slugs to_run wake' } := by
    intro st wake' hst hrunning
    exact (h.peers.note hst hkey hrunning).moved hs rfl
  rw [step, hs] at hstep
  dsimp only at hstep
  have hcases := apply_tick_cases (s.slugs slug) gates timings now
  generalize apply_tick (s.slugs slug) gates timings now = result at hcases hstep
  obtain ⟨st, decision⟩ := result
  dsimp only at hcases hstep
  cases hcases with
  | ran hpending hrunning hfree =>
    cases hstep
    exact ⟨h.peers.ran hs hkey hrunning hfree, hwoken, hrest, hwake,
      update_served (fun hp => nomatch hp) hserved⟩
  | kept hrunning =>
    cases hstep
    have hself : (s.slugs slug).Served wake := fun _ hr => nomatch hrunning.symm.trans hr
    exact ⟨hmarked hpaced rfl, hwoken, hrest, hwake, update_served hself hserved⟩
  | dropped reason hidle =>
    cases hstep
    -- a trigger that waits keeps the mark: the gates that were read are open
    have hwaits : waits (s.log slug) = false := by
      refine Bool.eq_false_iff.mpr fun hw => ?_
      rcases hidle with hidle | ⟨-, hclosed⟩
      · exact nomatch hidle.symm.trans (hpaced.triggered hw).1
      · exact nomatch hclosed.symm.trans (hgates hw)
    exact ⟨hmarked (hpaced.dropped hwaits) rfl, hwoken, hrest, hwake,
      update_served (fun hp => nomatch hp) hserved⟩
  | deferred t hstart hlt =>
    cases hstep
    have hself : (s.slugs slug).Served (some (wake.elim t (min · t))) := by
      refine fun _ _ => ⟨t, hstart, _, rfl, ?_⟩
      cases wake with
      | none => exact Nat.le_refl t
      | some w => exact Nat.min_le_right w t
    refine ⟨hmarked hpaced rfl, hwoken, hrest, ?_,
      update_served hself fun x hx => (hserved x hx).sooner t⟩
    rintro _ ⟨⟩
    cases wake with
    | none => exact Nat.le_of_lt hlt
    | some w => exact Nat.le_min.mpr ⟨hwake w rfl, Nat.le_of_lt hlt⟩

/-! ## Every step -/

omit [DecidableEq σ] in
/-- Who wakes the scheduler has the lock, so it is not in a pass. -/
theorem Scheduled.of_woken (hlocked : s.scheduler.locked = false) (hwoken : s'.woken = true)
    (hs : s'.scheduler = s.scheduler) (h : Scheduled timings onTime s s.scheduler) :
    Scheduled timings onTime s' s'.scheduler := by
  have hnot : s'.woken ≠ false := by rw [hwoken]; exact fun h => nomatch h
  rw [hs]
  cases hphase : s.scheduler with
  | loop => trivial
  | pass now slugs to_run wake | ticks now slug gates slugs to_run wake =>
    rw [hphase] at hlocked; exact nomatch hlocked
  | spawns now to_run wait =>
    rw [hphase] at h
    exact ⟨h.1, fun hw => absurd hw hnot⟩
  | parked ends => exact fun _ hw => absurd hw hnot
  | exited => trivial

omit [DecidableEq σ] in
theorem Scheduled.frame {phase : Scheduler σ} (h : Scheduled timings onTime s phase)
    (hslugs : s'.slugs = s.slugs) (hkeys : s'.keys = s.keys) (hwoken : s'.woken = s.woken)
    (hlog : ∀ x, waits (s'.log x) = true → waits (s.log x) = true) :
    Scheduled timings onTime s' phase := by
  cases phase with
  | loop => trivial
  | pass now slugs to_run wake =>
    obtain ⟨hw, hk, hwake, hserved⟩ := h
    exact ⟨hwoken.trans hw, hkeys ▸ hk, hwake, hslugs ▸ hserved⟩
  | ticks now slug gates slugs to_run wake =>
    obtain ⟨hw, hk, hwake, hgates, hserved⟩ := h
    exact ⟨hwoken.trans hw, hkeys ▸ hk, hwake, fun hlogs => hgates (hlog slug hlogs),
      hslugs ▸ hserved⟩
  | spawns now to_run wait =>
    obtain ⟨hmax, hdue⟩ := h
    refine ⟨hmax, fun hw => ?_⟩
    rw [hslugs]
    exact hdue (hwoken ▸ hw)
  | parked ends =>
    intro hon hw
    rw [hslugs]
    exact h hon (hwoken ▸ hw)
  | exited => trivial

theorem Inv.set_gates (h : Inv timings onTime s) (slug : σ) (gates : Gates)
    (hstep : step timings s (.set_gates slug gates) = some s') : Inv timings onTime s' := by
  obtain ⟨hpeers, hsched⟩ := h
  rw [step] at hstep
  split at hstep
  next hopen =>
    cases hstep
    refine ⟨hpeers.changed slug rfl (fun x he => ⟨rfl, update_of_ne he .., rfl, rfl⟩) ?_
      (hpeers.new slug) (hpeers.going slug), hsched.frame rfl rfl rfl fun _ hw => hw⟩
    simp only [update_self, hopen]
    exact (hpeers.paced slug).opened
  next hclosed =>
    cases hstep
    have hsame : Function.update s.slugs slug (s.slugs slug) = s.slugs := update_eq_self _ _
    refine ⟨hpeers.changed slug rfl
      (fun x he => ⟨congrFun hsame x, update_of_ne he .., update_of_ne he .., rfl⟩) ?_
      (fun hnot => (congrFun hsame slug).trans (hpeers.new slug hnot)) ?_,
      hsched.frame hsame rfl rfl fun x hw => ?_⟩
    · simp only [State.note, update_self, Bool.eq_false_iff.mpr hclosed]
      exact (hpeers.paced slug).closed
    · simp only [State.note, hsame]
      exact hpeers.going slug
    · by_cases he : x = slug
      · subst he
        simp only [State.note, update_self] at hw
        exact nomatch hw
      · simp only [State.note, update_of_ne he] at hw
        exact hw

theorem Inv.step {e : Event σ} (h : Inv timings onTime s) (ht : onTime → OnTime timings s e)
    (hstep : step timings s e = some s') : Inv timings onTime s' := by
  have hkept := h
  obtain ⟨hpeers, hsched⟩ := h
  -- only `park` needs the condition: its wait was worked out at an earlier time
  cases e with
  | tick =>
    cases hstep
    exact ⟨hpeers.moved rfl rfl, hsched.frame rfl rfl rfl fun _ hw => hw⟩
  | set_gates slug gates => exact hkept.set_gates slug gates hstep
  | call slugs reconnect =>
    rw [AutoSync.step] at hstep
    split at hstep
    · exact nomatch hstep
    · cases hstep
      exact ⟨hpeers.moved rfl rfl, hsched.frame rfl rfl rfl fun _ hw => hw⟩
  | notify c =>
    rw [AutoSync.step] at hstep
    split at hstep
    next hc =>
      cases hstep
      have hnotified := hpeers.notified c.slugs c.reconnect c.now
      refine ⟨⟨hnotified.paced, hnotified.new, hnotified.going⟩, ?_⟩
      exact hsched.of_woken hc.2 rfl (notify_one_scheduler _ _ _)
    next => exact nomatch hstep
  | ends slug failed =>
    rw [AutoSync.step] at hstep
    split at hstep
    next hin =>
      cases hstep
      refine ⟨hpeers.frame rfl rfl rfl rfl fun x => ?_, hsched.frame rfl rfl rfl fun _ hw => hw⟩
      have hcount := (List.perm_cons_erase hin).count_eq x
      simp only [State.going, List.map_cons, List.count_cons] at hcount ⊢
      omega
    next => exact nomatch hstep
  | complete c =>
    rw [AutoSync.step] at hstep
    split at hstep
    next hc =>
      obtain ⟨hin, hlocked⟩ := hc
      have hkey : c.slug ∈ s.keys := by
        refine hpeers.key_of_going (Nat.lt_of_lt_of_le ?_ (Nat.le_add_left _ _))
        exact List.count_pos_iff.mpr (List.mem_map_of_mem hin)
      dsimp only at hstep
      rw [if_pos hkey] at hstep
      cases hstep
      exact ⟨hpeers.completed hin, hsched.of_woken hlocked rfl rfl⟩
    next => exact nomatch hstep
  | pass slugs =>
    rw [AutoSync.step] at hstep
    split at hstep
    next hs =>
      split at hstep
      · cases hstep
        exact ⟨hpeers.moved hs rfl, trivial⟩
      · split at hstep
        next hperm =>
          cases hstep
          refine ⟨hpeers.moved hs rfl, rfl, hperm.subset, (fun w hw => nomatch hw), fun x hx hp => ?_⟩
          rw [hpeers.new x fun hin => hx (hperm.mem_iff.mpr hin)] at hp
          exact nomatch hp
        next => exact nomatch hstep
    next => exact nomatch hstep
  | gates =>
    rw [AutoSync.step] at hstep
    split at hstep
    next now slug slugs to_run wake hs =>
      cases hstep
      rw [hs] at hsched
      obtain ⟨hwoken, hkeys, hwake, hserved⟩ := hsched
      exact ⟨hpeers.moved hs rfl, hwoken, hkeys, hwake,
        fun hw => ((hpeers.paced slug).triggered hw).2, hserved⟩
    next => exact nomatch hstep
  | apply =>
    cases hs : s.scheduler with
    | ticks now slug gates slugs to_run wake => exact hkept.apply hs hstep
    | loop | pass now slugs to_run wake | spawns now to_run wait | parked ends | exited =>
      rw [AutoSync.step, hs] at hstep; exact nomatch hstep
  | unlock =>
    rw [AutoSync.step] at hstep
    split at hstep
    next now to_run wake hs =>
      cases hstep
      rw [hs] at hsched
      obtain ⟨hwoken, -, hwake, hserved⟩ := hsched
      refine ⟨hpeers.moved hs rfl, ?_, fun _ x hp hr => ?_⟩
      · cases wake with
        | none => exact Nat.le_refl _
        | some w => exact Nat.min_le_right _ _
      · obtain ⟨t, ht, w, hw, hle⟩ := hserved x List.not_mem_nil hp hr
        have hnow := hwake w hw
        obtain rfl := hw
        refine ⟨t, ht, ?_⟩
        simp only [elim_some]
        omega
    next => exact nomatch hstep
  | spawn =>
    rw [AutoSync.step] at hstep
    split at hstep
    next now slug to_run wait hs =>
      cases hstep
      rw [hs] at hsched
      refine ⟨hpeers.frame rfl rfl rfl rfl fun x => ?_, hsched⟩
      simp only [State.going, hs, Scheduler.to_run, List.count_cons]
      omega
    next => exact nomatch hstep
  | park =>
    rw [AutoSync.step] at hstep
    split at hstep
    next now wait hs =>
      split at hstep
      · cases hstep
        exact ⟨hpeers.moved hs rfl, trivial⟩
      · split at hstep
        · cases hstep
          exact ⟨hpeers.moved hs rfl, trivial⟩
        · cases hstep
          rw [hs] at hsched
          refine ⟨hpeers.moved hs rfl, fun hon hw x hp hr => ?_⟩
          obtain ⟨t, hstart, hle⟩ := hsched.2 hw x hp hr
          have hmax := hsched.1
          have hlate := ht hon hw now wait hs x hp hr t hstart
          exact ⟨t, hstart, by omega⟩
    next => exact nomatch hstep
  | wake =>
    rw [AutoSync.step] at hstep
    split at hstep
    next ends hs =>
      cases hstep
      exact ⟨hpeers.moved hs rfl, trivial⟩
    next => exact nomatch hstep
  | stop =>
    rw [AutoSync.step] at hstep
    split at hstep
    next => exact nomatch hstep
    next hlocked =>
      cases hstep
      exact ⟨hpeers.moved rfl rfl,
        hsched.of_woken (Bool.eq_false_iff.mpr hlocked) rfl rfl⟩

theorem inv_init (h : (engine timings).init s) : Inv timings onTime s := by
  obtain ⟨hkeys, hslugs, -, -, -, hruns, hcompleted, hscheduler, hlog⟩ := h
  refine ⟨⟨fun x => ?_, fun x _ => ?_, fun x => ?_⟩, ?_⟩
  · rw [hslugs, hlog]
    exact Paced.new timings _
  · rw [hslugs]
  · rw [State.going, hscheduler, hruns, hcompleted, hslugs]
    rfl
  · rw [hscheduler]
    trivial

theorem inv_reachable (h : Reachable (engine timings) s) : Inv timings False s := by
  induction h with
  | start h0 => exact inv_init h0
  | next _ hs ih => exact ih.step False.elim hs

theorem on_time_reachable (h : Reachable ((engine timings).when (OnTime timings)) s) :
    Inv timings True s := by
  induction h with
  | start h0 => exact inv_init h0
  | next _ hs ih => exact ih.step (fun _ => hs.1) hs.2

/-- In every run a peer has at most one run going, its runs start apart and not before the
backoff of the one that failed, and what triggered it with its gates open has started a run
since or still marks it. In a run in which the thread parks on time it sleeps no longer than
until the first of the peers it waits for is due. -/
theorem no_trigger_forgotten (timings : Timings) :
    (∀ s : State σ, Reachable (engine timings) s → ∀ x,
      s.going x ≤ 1 ∧
      (starts (s.log x)).Pairwise (fun later earlier => earlier + timings.rate_floor ≤ later) ∧
      (∀ t before, .started t :: before <:+ s.log x → ∀ u ∈ due timings before, u ≤ t) ∧
      (waits (s.log x) = true → (s.slugs x).pending = true)) ∧
    ∀ s : State σ, Reachable ((engine timings).when (OnTime timings)) s →
      ∀ x ends, s.scheduler = .parked ends → s.woken = false →
        (s.slugs x).pending = true → (s.slugs x).running = false →
          ∃ t ∈ (s.slugs x).earliest_start, ends ≤ t := by
  refine ⟨fun s h x => ?_, fun s h x ends hs hwoken => ?_⟩
  · have hinv := inv_reachable h
    have hpaced := hinv.peers.paced x
    refine ⟨?_, hpaced.apart, hpaced.backed_off, fun hw => (hpaced.triggered hw).1⟩
    rw [hinv.peers.going x]
    split
    · exact Nat.le_refl 1
    · exact Nat.zero_le 1
  · have hparked := (on_time_reachable h).scheduled
    rw [hs] at hparked
    exact hparked trivial hwoken x

/-! ## One peer -/

/-- One peer with its gates open, which nobody has triggered yet. -/
def one_peer : State Unit where
  now := 0
  gates _ := ⟨true, true, true, true, true⟩
  keys := []
  slugs _ := {}
  woken := false
  shutdown := false
  calls := []
  runs := []
  completed := []
  scheduler := .loop
  log _ := []

theorem one_peer_init : (engine Timings.default).init one_peer :=
  ⟨rfl, rfl, rfl, rfl, rfl, rfl, rfl, rfl, rfl⟩

/-- A trigger and a pass, up to where the thread parks. -/
def triggered_once : List (Event Unit) :=
  [.call [()] false, .notify ⟨[()], false, 0⟩, .pass [()], .gates, .apply, .unlock]

/-- The thread parks on time for the peer that was triggered, and sleeps until it is due. -/
theorem no_trigger_forgotten_once :
    ∃ s : State Unit, s.scheduler = .parked 2000 ∧ waits (s.log ()) = true ∧ s.going () ≤ 1 ∧
      (s.slugs ()).pending = true ∧ ∃ t ∈ (s.slugs ()).earliest_start, 2000 ≤ t := by
  obtain ⟨s, hs, htime, hparks⟩ : ∃ s, triggered_once.foldlM (step Timings.default) one_peer = some s ∧
      OnTime Timings.default s .park ∧ ∃ s', step Timings.default s .park = some s' ∧
        s'.scheduler = .parked 2000 ∧ s'.woken = false ∧ (s'.slugs ()).running = false ∧
        waits (s'.log ()) = true := by
    refine ⟨_, rfl, fun _ now wait hphase slug _ _ t ht => ?_, _, rfl, rfl, rfl, rfl, rfl⟩
    cases hphase
    exact Nat.zero_le _
  obtain ⟨s', hs', hparked, hwoken, hrunning, hwaits⟩ := hparks
  obtain ⟨hlaws, hsleeps⟩ := @no_trigger_forgotten Unit _ Timings.default
  have hreached : Reachable (engine Timings.default) s' :=
    ((Reachable.start one_peer_init).run (fun _ _ _ hs => hs) hs).next hs'
  have hstart : Reachable ((engine Timings.default).when (OnTime Timings.default)) one_peer :=
    .start one_peer_init
  have hpass : Reachable ((engine Timings.default).when (OnTime Timings.default)) s := by
    refine hstart.run_when (fun _ _ _ hs => hs) (fun e he s => ?_) hs
    fin_cases he <;> exact trivial
  obtain ⟨hone, -, -, hpending⟩ := hlaws s' hreached ()
  exact ⟨s', hparked, hwaits, hone, hpending hwaits,
    hsleeps s' (hpass.next ⟨htime, hs'⟩) () 2000 hparked hwoken (hpending hwaits) hrunning⟩

/-- A millisecond goes by between the pass and the moment the thread parks, and it sleeps a
millisecond past what is due. -/
theorem parks_too_long :
    ∃ s : State Unit, Reachable (engine Timings.default) s ∧ s.scheduler = .parked 2001 ∧
      s.woken = false ∧ (s.gates ()).all_open = true ∧ (s.slugs ()).pending = true ∧
      (s.slugs ()).running = false ∧ (s.slugs ()).earliest_start = some 2000 :=
  ⟨_, (Reachable.start one_peer_init).run (fun _ _ _ hs => hs)
    (rfl : (triggered_once ++ [Event.tick, Event.park]).foldlM (step Timings.default) one_peer = some _),
    rfl, rfl, rfl, rfl, rfl, rfl⟩

end Lpm.AutoSync
