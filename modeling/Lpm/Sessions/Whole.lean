/-
Sessions are never half built, doubled or leaked, in every state of every run.
-/
import Lpm.Sessions.Answered

set_option autoImplicit false

open RustText Transition

namespace Lpm.Sessions

open List Option Function

/-! ## The steps of the daemon -/

/-- What is known of the lists and of every call. -/
structure Good (s : State) : Prop where
  inv : Inv s
  facts : ∀ i c, s.calls i = some c → Facts s i c

section
variable {s s' : State} {i j : ℕ} {c c' d : Call} {p : Pane} {o : Outcome}

theorem Did.gone {w w' : Shared} {ended : ℕ → Bool} {busy : ℕ} (h : Did w ended busy c o w' c') :
    w'.gone = w.gone := by
  cases h <;> rfl

/-- A step of a request, as the calls are before and behind it. -/
theorem step_call (h : s.step (.call i o) = some s') : ∃ c c', After s s' i c c' ∧
    Did s.shared s.is_over s.in_flight c o s'.shared c' := by
  obtain ⟨c, hc, hrest⟩ := bind_eq_some_iff.mp h
  obtain ⟨⟨shared, c'⟩, hstep, hs⟩ := bind_eq_some_iff.mp hrest
  cases hs
  have hdid := step_did hstep
  refine ⟨c, c', ⟨hc, ?_, fun j hij => ?_, rfl, hdid.gone⟩, hdid⟩
  · exact if_pos rfl
  · exact if_neg hij

theorem Good.call (h : Good s) (ha : After s s' i c c')
    (hdid : Did s.shared s.is_over s.in_flight c o s'.shared c') : Good s' := by
  have hinv := h.inv.call ha hdid
  refine ⟨hinv, fun j d hd => ?_⟩
  rcases ha.cases hd with ⟨rfl, rfl⟩ | ⟨hij, d0, hd0, rfl⟩
  · exact (h.facts j c ha.own).own h.inv hinv ha hdid
  · exact (h.facts j d0 hd0).other h.inv hinv hd0 hij ha hdid

/-- A new request has done nothing yet. -/
theorem Good.begin (h : Good s) (request : Request) : Good { s with
    calls := update s.calls s.next_call (some { request }), next_call := s.next_call + 1 } := by
  -- the new call is nobody that was there, and has opened nothing
  have hfree : s.calls s.next_call = none := h.inv.used _ (Nat.le_refl _)
  have hcalls : ∀ {j : ℕ} {d : Call}, update s.calls s.next_call (some { request }) j = some d →
      d = { request } ∨ s.calls j = some d := fun {j d} hd => by
    by_cases hj : j = s.next_call
    · subst hj
      rw [update_self] at hd
      exact Or.inl (some.inj hd).symm
    · rw [update_of_ne hj] at hd
      exact Or.inr hd
  have hkeep : ∀ {j : ℕ} {d : Call}, s.calls j = some d →
      update s.calls s.next_call (some { request }) j = some d := fun {j d} hd => by
    have hj : j ≠ s.next_call := by
      rintro rfl
      cases hfree.symm.trans hd
    rw [update_of_ne hj]
    exact hd
  have hopened : ∀ {p : Pane}, (∃ j d, s.calls j = some d ∧ p ∈ d.opened) →
      ∃ j d, update s.calls s.next_call (some { request }) j = some d ∧ p ∈ d.opened := by
    rintro p ⟨j, d, hd, hp⟩
    exact ⟨j, d, hkeep hd, hp⟩
  constructor
  · refine ⟨h.inv.wf, fun j hj => ?_, fun j d hd => ?_, fun j d hd => ?_, fun j k d e hjk hd he => ?_,
      h.inv.once, h.inv.once_all, fun session q hq => hopened (h.inv.listed session q hq), fun j d hd q hq => ?_,
      fun j d hd q hq => ?_, fun j d hd q hq => ?_, fun j d hd q hq hclosed hgone => ?_⟩
    · have hlt : s.next_call < j := hj
      exact (update_of_ne (Nat.ne_of_gt hlt) _ _).trans (h.inv.used j (Nat.le_of_lt hlt))
    · rcases hcalls hd with rfl | hd
      · exact fun id hid => absurd hid not_mem_nil
      · exact h.inv.bound j d hd
    · rcases hcalls hd with rfl | hd
      · exact nodup_nil
      · exact h.inv.nodup j d hd
    · rcases hcalls hd with rfl | hd
      · exact fun id hid => absurd hid not_mem_nil
      · rcases hcalls he with rfl | he
        · exact fun id _ => not_mem_nil
        · exact h.inv.apart j k d e hjk hd he
    · rcases hcalls hd with rfl | hd
      · exact absurd hq not_mem_nil
      · exact hopened (h.inv.held j d hd q hq)
    · rcases hcalls hd with rfl | hd
      · exact absurd hq not_mem_nil
      · exact h.inv.pending j d hd q hq
    · rcases hcalls hd with rfl | hd
      · exact absurd hq not_mem_nil
      · exact h.inv.replaced j d hd q hq
    · rcases hcalls hd with rfl | hd
      · exact absurd hq not_mem_nil
      · refine (h.inv.kept j d hd q hq hclosed hgone).imp_right ?_
        rintro ⟨k, e, he, hqe⟩
        exact ⟨k, e, hkeep he, hqe⟩
  · intro j d hd
    rcases hcalls hd with rfl | hd
    · exact ⟨rfl, fun _ hl => (by cases hl), fun _ hf => (by cases hf), fun _ hj => (by cases hj),
        fun hs => (by cases hs), fun p hp => absurd hp not_mem_nil, fun p hp => absurd hp not_mem_nil,
        fun hp => (by cases hp), fun hd => (by cases hd)⟩
    · have hfacts := h.facts j d hd
      refine ⟨hfacts.knows, hfacts.place, hfacts.undone, fun k hk => ?_, fun hs session hkills q hq k e he hqe => ?_,
        fun p hp => ?_, hfacts.swept, hfacts.retires, fun hd' => ?_⟩
      · have hover := hfacts.over_then k hk
        cases he : s.calls k with
        | none =>
          rw [State.is_over, he] at hover
          cases hover
        | some e =>
          rw [is_over_eq he] at hover
          rw [is_over_eq (hkeep he)]
          exact hover
      · rcases hcalls he with rfl | he
        · exact absurd hqe not_mem_nil
        · exact hfacts.spared hs session hkills q hq k e he hqe
      · have htaken := hfacts.taken p hp
        refine ⟨hopened htaken.opened, htaken.unlisted, fun k e he => ?_⟩
        rcases hcalls he with rfl | he
        · exact not_mem_nil
        · exact htaken.no_more k e he
      · obtain ⟨hs, hr, hempty, hothers⟩ := hfacts.drained hd'
        refine ⟨hs, hr, hempty, fun k e hkj he => ?_⟩
        rcases hcalls he with rfl | he
        · exact Or.inl rfl
        · exact hothers k e hkj he

/-- A shell ends. -/
theorem Good.shell_ends (h : Good s) (pane : Str) :
    Good { s with shared := { s.shared with gone := update s.shared.gone pane true } } := by
  have hgone : ∀ id, update s.shared.gone pane true id = false → s.shared.gone id = false :=
    fun id hid => by
      by_cases he : id = pane
      · rw [he, update_self] at hid
        exact nomatch hid
      · rwa [update_of_ne he] at hid
  have hinv := h.inv
  refine ⟨⟨hinv.wf, hinv.used, hinv.bound, hinv.nodup, hinv.apart, hinv.once, hinv.once_all, hinv.listed,
    hinv.held, hinv.pending, fun i c hc q hq => ?_, fun i c hc q hq hclosed hid => ?_⟩, fun i c hc => ?_⟩
  · change update s.shared.gone pane true q.id = true
    by_cases he : q.id = pane
    · rw [he, update_self]
    · rw [update_of_ne he]
      exact hinv.replaced i c hc q hq
  · exact hinv.kept i c hc q hq hclosed (hgone q.id hid)
  · have hfacts := h.facts i c hc
    exact ⟨hfacts.knows, hfacts.place, hfacts.undone, hfacts.over_then, hfacts.spared,
      fun p hp => ⟨(hfacts.taken p hp).opened, (hfacts.taken p hp).unlisted, (hfacts.taken p hp).no_more⟩,
      hfacts.swept, hfacts.retires, hfacts.drained⟩

/-- What is neither in what the threads share nor in a call is nothing that matters here. -/
theorem Good.same (h : Good s) (hshared : s'.shared = s.shared) (hcalls : s'.calls = s.calls)
    (hnext : s'.next_call = s.next_call) : Good s' := by
  obtain ⟨shared, calls, next_call, saw_none, idle, exited⟩ := s'
  obtain rfl : shared = _ := hshared
  obtain rfl : calls = _ := hcalls
  obtain rfl : next_call = _ := hnext
  obtain ⟨hwf, hused, hbound, hnodup, hapart, honce, honce', hlisted, hheld, hpending, hreplaced, hkept⟩ := h.inv
  refine ⟨⟨hwf, hused, hbound, hnodup, hapart, honce, honce', hlisted, hheld, hpending, hreplaced, hkept⟩,
    fun i c hc => ?_⟩
  have hfacts := h.facts i c hc
  exact ⟨hfacts.knows, hfacts.place, hfacts.undone, hfacts.over_then, hfacts.spared,
    fun p hp => ⟨(hfacts.taken p hp).opened, (hfacts.taken p hp).unlisted, (hfacts.taken p hp).no_more⟩,
    hfacts.swept, hfacts.retires, hfacts.drained⟩

theorem Good.next (h : Good s) {e : Event} (hstep : s.next e = some s') : Good s' := by
  rw [State.next] at hstep
  split at hstep
  case isTrue => exact nomatch hstep
  cases e with
  | begin_ request => exact some.inj hstep ▸ h.begin request
  | call i o =>
    obtain ⟨c, c', ha, hdid⟩ := step_call hstep
    exact h.call ha hdid
  | shell_ends pane => exact some.inj hstep ▸ h.shell_ends pane
  | janitor_looks | janitor_counts => exact some.inj hstep ▸ h.same rfl rfl rfl
  | janitor_exits =>
    rw [State.step] at hstep
    split at hstep
    · exact some.inj hstep ▸ h.same rfl rfl rfl
    · exact nomatch hstep
  | exit i =>
    rw [State.step] at hstep
    split at hstep
    · split at hstep
      · exact some.inj hstep ▸ h.same rfl rfl rfl
      · exact nomatch hstep
    · exact nomatch hstep

theorem good_init : Good {} := by
  have hnone : ∀ {i : ℕ} {c : Call}, ({} : State).calls i = some c → False := fun h => nomatch h
  exact ⟨⟨Registry.wf_drain (r := {}), fun _ _ => rfl, fun _ _ h => (hnone h).elim, fun _ _ h => (hnone h).elim,
    fun _ _ _ _ _ h => (hnone h).elim, fun _ => nodup_nil, fun _ _ _ _ h => absurd h not_mem_nil,
    fun _ _ h => absurd h not_mem_nil, fun _ _ h => (hnone h).elim, fun _ _ h => (hnone h).elim,
    fun _ _ h => (hnone h).elim, fun _ _ h => (hnone h).elim⟩, fun _ _ h => (hnone h).elim⟩

theorem good_of_reachable (h : Reachable system s) : Good s := by
  refine h.invariant (fun s hinit => ?_) fun _ _ _ hgood hstep => hgood.next hstep
  obtain rfl : s = {} := hinit
  exact good_init

end

/-! ## Sessions are whole -/

variable (s : State)

/-- A pane is in the list of one session, once. -/
def State.lists_once (p : Pane) : Prop :=
  ∃ session, (s.shared.reg.panes session).count p = 1 ∧
    ∀ other, other ≠ session → p ∉ s.shared.reg.panes other

/-- A thread is about to list a pane or to tear it down. -/
def State.holds (p : Pane) : Prop := ∃ i c, s.calls i = some c ∧ p ∈ c.phase.holds

/-- What the reply that it worked says of the session, which no other request has changed since
(`disturbed`) if it says so. -/
def State.is_kept (c : Call) : Prop :=
  match c.request with
  | .start session specs => c.opened.map Pane.label = specs.map PaneSpec.label ∧
      (c.disturbed = false → s.shared.reg.panes session = c.opened)
  | .split session specs => c.opened.map Pane.label = specs.map PaneSpec.label ∧
      (c.disturbed = false → s.shared.reg.panes session = c.base ++ c.opened)
  | .send pane _ => ∃ session, c.session = some session ∧ (∃ p ∈ c.base, p.id = pane) ∧ c.opened.length ≤ 1 ∧
      (c.disturbed = false →
        s.shared.reg.panes session = c.base.map fun p => if p.id = pane then c.opened.headD p else p)
  | _ => True

/-- No session is half built, doubled or leaked. -/
structure Whole (s : State) : Prop where
  /-- No two panes have the same id. -/
  distinct : ∀ i j c d, s.calls i = some c → s.calls j = some d → ∀ p ∈ c.opened, ∀ q ∈ d.opened,
    p.id = q.id → i = j ∧ p = q
  distinct_own : ∀ i c, s.calls i = some c → (c.opened.map Pane.id).Nodup
  /-- Nothing else is listed, and no pane twice. -/
  listed : ∀ session, ∀ p ∈ s.shared.reg.panes session, s.lists_once p ∧
    ∃ i c, s.calls i = some c ∧ p ∈ c.opened
  /-- A pane whose shell runs and was not closed. -/
  kept : ∀ i c, s.calls i = some c → ∀ p ∈ c.opened, s.shared.closed p.id = false →
    s.shared.gone p.id = false → s.lists_once p ∨ s.holds p
  /-- A request that was answered ok. -/
  answered : ∀ i c, s.calls i = some c → c.phase.reply = some (.ok ()) → s.is_kept c
  /-- One that was answered with an error. -/
  undone : ∀ i c error, s.calls i = some c → c.phase.reply = some (.error error) → ∀ p ∈ c.opened,
    s.shared.closed p.id = true ∧ ∀ session, p ∉ s.shared.reg.panes session
  /-- A kill that was answered: what was listed when it took what it kills is closed and listed
  nowhere, and what is listed there now, requests opened that were not over then. -/
  killed : ∀ i c session, s.calls i = some c → c.phase.reply = some (.ok ()) → c.request.kills session →
    (∀ p ∈ c.took, s.shared.closed p.id = true ∧ ∀ other, p ∉ s.shared.reg.panes other) ∧
    ∀ p ∈ s.shared.reg.panes session, ∀ j d, s.calls j = some d → p ∈ d.opened → c.over_then j = false
  /-- A shutdown that saw every other request end. -/
  drained : ∀ i c, s.calls i = some c → c.drained = true → ∀ session, s.shared.reg.panes session = []

section
variable {s : State} {i : ℕ} {c : Call} {p : Pane}

theorem Inv.lists_once (h : Inv s) {session : Str} (hp : p ∈ s.shared.reg.panes session) : s.lists_once p := by
  have hnodup : (s.shared.reg.panes session).Nodup := List.Nodup.of_map _ (h.once session)
  refine ⟨session, count_eq_one_of_mem hnodup hp, fun other hne hother => ?_⟩
  exact h.once_all other session hne p hother p hp rfl

theorem Phase.ok_of_reply {phase : Phase} (h : phase.reply = some (.ok ())) :
    phase = .answering (.ok ()) ∨ phase = .over (some (.ok ())) := by
  cases phase with
  | answering reply => exact Or.inl (by rw [some.inj h])
  | «over» reply => exact Or.inr (congrArg _ h)
  | _ => exact nomatch h

theorem Phase.fails_of_reply {phase : Phase} {error : Str} (h : phase.reply = some (.error error)) :
    phase.fails = some [] := by
  cases phase with
  | answering reply =>
    rw [some.inj h]
    rfl
  | «over» reply =>
    obtain rfl : reply = _ := h
    rfl
  | _ => exact nomatch h

/-- A request that was answered ok knows what it was asked for, and what its session is. -/
theorem Facts.answered (h : Facts s i c) (hreply : c.phase.reply = some (.ok ())) :
    c.done ∧ c.left = c.left_done := by
  have hk := h.knows
  unfold Call.knows at hk
  unfold Call.left
  rcases Phase.ok_of_reply hreply with hp | hp <;>
    · rw [hp] at hk ⊢
      exact ⟨hk, rfl⟩

theorem Facts.is_kept (h : Facts s i c) (hreply : c.phase.reply = some (.ok ())) : s.is_kept c := by
  obtain ⟨hdone, hleft⟩ := h.answered hreply
  have hplace := h.place
  rw [hleft] at hplace
  unfold Call.done at hdone
  unfold Call.left_done at hplace
  unfold State.is_kept
  cases hr : c.request with
  | start session specs =>
    rw [hr] at hdone hplace
    obtain ⟨hsession, hbase, hlabels⟩ := hdone
    refine ⟨hlabels, fun hcalm => ?_⟩
    rw [hplace _ rfl hcalm session hsession, hbase]
    rfl
  | split session specs =>
    rw [hr] at hdone hplace
    obtain ⟨hsession, hlabels⟩ := hdone
    exact ⟨hlabels, fun hcalm => hplace _ rfl hcalm session hsession⟩
  | send pane text =>
    rw [hr] at hdone hplace
    obtain ⟨hsome, hfound, hlen⟩ := hdone
    obtain ⟨session, hsession⟩ := ne_none_iff_exists'.mp hsome
    exact ⟨session, hsession, hfound, hlen, fun hcalm => hplace _ rfl hcalm session hsession⟩
  | _ => exact trivial

end

/-- A session is started with two services, and is killed while a split of it, whose pane is listed,
is not answered yet. -/
def killed_run : List Event :=
  .begin_ (.start ['a'] [⟨['w'], ['r'], ['d']⟩, ⟨['x'], ['r'], ['d']⟩]) :: List.replicate 11 (.call 0 .works) ++
    .begin_ (.split ['a'] [⟨['y'], ['r'], ['e']⟩]) :: List.replicate 5 (.call 1 .works) ++
    .begin_ (.kill_session ['a']) :: List.replicate 7 (.call 2 .works) ++ List.replicate 2 (.call 1 .works)

/-- A shutdown does not wait for a start longer than its deadline, and the start goes on. -/
def outwaited_run : List Event :=
  [.begin_ (.start ['a'] [⟨['w'], ['r'], ['d']⟩]), .call 0 .works, .call 0 .works, .call 0 .works,
    .begin_ .shutdown, .call 1 .works, .call 1 .works, .call 1 (.fails []), .call 1 .works, .call 1 .works,
    .call 0 .works, .call 0 .works, .call 0 .works]

end Lpm.Sessions
