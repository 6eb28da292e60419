/-
The daemon's guarantees, in every state of every run.

A kill takes what is listed at that moment. A request that is still opening panes then goes on
and lists the rest, so what a kill promises is about the requests that were over
(`Facts.spared`). Only a shutdown waits for the others, and not longer than its deadline; when
it saw them end, nothing is listed any more (`Facts.drained`).
-/
import Lpm.Sessions.Replies

set_option autoImplicit false

open RustText Transition

namespace Lpm.Sessions

open List Option

section
variable {s s' : State} {i j : ℕ} {c c' d : Call} {p : Pane} {ended : ℕ → Bool} {busy : ℕ} {o : Outcome}

/-! ## Who opened it, and who is over -/

theorem Inv.opener_eq (h : Inv s) {e : Call} (hj : s.calls i = some d) (hk : s.calls j = some e)
    (hd : p ∈ d.opened) (he : p ∈ e.opened) : i = j := by
  by_contra hne
  exact h.apart i j d e hne hj hk p.id (mem_ids hd) (mem_ids he)

variable {w w' : Shared}

theorem Did.not_over (h : Did w ended busy c o w' c') : c.phase.is_over = false := by
  cases h <;> simp only [Phase.is_over, *]

theorem is_over_eq (hc : s.calls i = some c) : s.is_over i = c.phase.is_over := by
  rw [State.is_over, hc]

/-- Who is over stays so. -/
theorem After.stays_over (ha : After s s' i c c') (hc : c.phase.is_over = false) (hj : s.is_over j = true) :
    s'.is_over j = true := by
  cases hd : s.calls j with
  | none =>
    rw [State.is_over, hd] at hj
    exact nomatch hj
  | some d =>
    rw [is_over_eq hd] at hj
    have hne : j ≠ i := fun he => by
      subst he
      obtain rfl := some.inj (hd.symm.trans ha.own)
      exact Bool.noConfusion (hc.symm.trans hj)
    rw [is_over_eq (ha.new hne hd), (sees_keeps _ _ d).1]
    exact hj

/-- With no more than one request in flight, every other one is over. -/
theorem Inv.all_over (h : Inv s) (hbusy : s.in_flight ≤ 1) (hc : s.calls i = some c)
    (hnot : c.phase.is_over = false) (hne : j ≠ i) (hd : s.calls j = some d) : d.phase.is_over = true := by
  by_contra hd'
  have hin : ∀ k e, s.calls k = some e → e.phase.is_over = false →
      k ∈ (List.range s.next_call).filter fun i => !s.is_over i := fun k e he hno => by
    refine mem_filter.mpr ⟨mem_range.mpr (Nat.not_le.mp fun hle => ?_), ?_⟩
    · exact nomatch (h.used k hle).symm.trans he
    · rw [is_over_eq he, hno]
      rfl
  have hi := hin i c hc hnot
  have hj := hin j d hd (Bool.eq_false_iff.mpr hd')
  rw [State.in_flight] at hbusy
  generalize (List.range s.next_call).filter (fun i => !s.is_over i) = busy at hbusy hi hj
  match busy with
  | [] => exact absurd hi not_mem_nil
  | [k] => exact hne ((mem_singleton.mp hj).trans (mem_singleton.mp hi).symm)
  | _ :: _ :: _ => exact absurd hbusy (by simp)

/-! ## A step of one request -/

/-- No pane of a request that was over is listed again. -/
theorem Inv.spared (h : Inv s) (h' : Inv s') (ha : After s s' i c c') (hc : Change s.shared c s'.shared c')
    (hnot : c.phase.is_over = false) {session : Str} {f : ℕ → Bool} (hf : ∀ j, f j = true → s.is_over j = true)
    (hold : ∀ p ∈ s.shared.reg.panes session, ∀ j d, s.calls j = some d → p ∈ d.opened → f j = false) :
    ∀ p ∈ s'.shared.reg.panes session, ∀ j d, s'.calls j = some d → p ∈ d.opened → f j = false := by
  intro p hp j d hd hpd
  rcases (h.step_panes ha.own hc).2.2 session p hp with hlisted | hpending
  · obtain ⟨k, e, he, hpe⟩ := h.listed session p hlisted
    have hk := hold p hlisted k e he hpe
    obtain ⟨e', he', hpe'⟩ : ∃ e', s'.calls k = some e' ∧ p ∈ e'.opened := by
      by_cases hki : k = i
      · subst hki
        obtain rfl := some.inj (he.symm.trans ha.own)
        exact ⟨c', ha.own', hc.opened p hpe⟩
      · exact ⟨_, ha.new hki he, (sees_keeps _ _ e).2.1 ▸ hpe⟩
    rw [h'.opener_eq hd he' hpd hpe']
    exact hk
  · have hpc := (h.pending i c ha.own p hpending).1
    rw [h'.opener_eq hd ha.own' hpd (hc.opened p hpc)]
    refine Bool.eq_false_iff.mpr fun hover => ?_
    have hover' := hf i hover
    rw [is_over_eq ha.own, hnot] at hover'
    exact nomatch hover'

/-- What was taken is not listed again: only panes whose ids are new are still to be listed. -/
theorem Taken.step (h : Taken s p) (hinv : Inv s) (ha : After s s' i c c')
    (hdid : Did s.shared ended busy c o s'.shared c') : Taken s' p := by
  have hchange := hdid.change hinv.wf
  refine ⟨ha.opened hchange.opened h.opened, fun session hlisted => ?_, fun j d hd hpending => ?_⟩
  · rcases (hinv.step_panes ha.own hchange).2.2 session p hlisted with hold | hpending
    · exact h.unlisted session hold
    · exact h.no_more i c ha.own hpending
  · rcases ha.cases hd with ⟨rfl, rfl⟩ | ⟨hij, d0, hd0, rfl⟩
    · rcases (hdid.pending hpending).2 with ⟨hold, -⟩ | ⟨-, hnew⟩
      · exact h.no_more j c ha.own hold
      · exact absurd h.opened (hinv.name_is_new ha.own hnew)
    · exact h.no_more j d0 hd0 ((sees_keeps _ _ d0).1 ▸ hpending)

variable (h : Did w ended busy c o w' c')
include h

/-- What a kill takes was listed, and is not any more. -/
theorem Did.took (hwf : w.reg.Wf) (honce : Once w.reg.panes) : c'.took = c.took ∨
    c'.phase.pending = [] ∧ c'.phase.succeeded = true ∧ ∀ p ∈ c'.took,
      (∃ session, p ∈ w.reg.panes session) ∧ (∀ session, p ∉ w'.reg.panes session) ∧ p ∈ c'.phase.holds := by
  cases h with
  | @kills_session _ killed _ _ =>
    refine Or.inr ⟨rfl, rfl, fun p hp => ⟨⟨killed, hp⟩, fun session hlisted => ?_, mem_append_left _ hp⟩⟩
    change p ∈ (w.reg.take killed).panes session at hlisted
    rw [Registry.panes_take] at hlisted
    split at hlisted
    · exact not_mem_nil hlisted
    next hne => exact honce.2 killed session hne p hp p hlisted rfl
  | sweeps _ _ =>
    refine Or.inr ⟨rfl, rfl, fun p hp => ⟨(Registry.mem_members hwf).mp hp, fun session hlisted => ?_, mem_append_left _ hp⟩⟩
    change p ∈ w.reg.drain.panes session at hlisted
    rw [Registry.panes_drain] at hlisted
    exact not_mem_nil hlisted
  | _ => exact Or.inl rfl

/-- And is closed, pane by pane. -/
theorem Did.swept (hs : c.phase.succeeded = true) (hp : w.closed p.id = true ∨ p ∈ c.phase.holds) :
    w'.closed p.id = true ∨ p ∈ c'.phase.holds := by
  cases h with
  | closes hphase =>
    rename_i pane panes next
    rw [hphase] at hp
    change Function.update w.closed pane.id true p.id = true ∨ _
    by_cases he : p.id = pane.id
    · rw [he, Function.update_self]
      exact Or.inl rfl
    · rw [Function.update_of_ne he]
      exact hp.imp_right fun hmem => (mem_cons.mp hmem).resolve_left fun heq => he (by rw [heq])
  | has_closed hphase | ends hphase =>
    rw [hphase] at hp
    exact hp
  | looks hp | refuses hp | starts hp _ _ | splits hp _ | finds hp _ _ | finds_none hp _
  | kills_pane hp _ _ | kills_session hp _ | retires hp _ | opens_all hp | names hp | opens hp | fails hp
  | lists hp | rolls_back hp | sees_life hp | renames hp | reopens hp | reopen_fails hp | replaces hp _
  | not_there hp | types hp _ _ | types_not hp | sweeps hp _ =>
    rw [hp] at hs
    exact nomatch hs

theorem Did.retiring (hr : w.retiring = true) :
    w'.retiring = true := by
  cases h with
  | retires _ _ => rfl
  | _ => exact hr

/-- A request that has succeeded changes no list any more. -/
theorem Did.rests (hs : c.phase.succeeded = true) :
    w'.reg = w.reg ∧ c'.phase.succeeded = true := by
  cases h with
  | has_closed hp | closes hp =>
    rename_i next
    rw [hp] at hs
    refine ⟨rfl, ?_⟩
    match next, hs with
    | .answering (.ok _), _ => rfl
  | ends hp =>
    rename_i reply
    rw [hp] at hs
    refine ⟨rfl, ?_⟩
    match reply, hs with
    | .ok _, _ => rfl
  | looks hp | refuses hp | starts hp _ _ | splits hp _ | finds hp _ _ | finds_none hp _
  | kills_pane hp _ _ | kills_session hp _ | retires hp _ | opens_all hp | names hp | opens hp | fails hp
  | lists hp | rolls_back hp | sees_life hp | renames hp | reopens hp | reopen_fails hp | replaces hp _
  | not_there hp | types hp _ _ | types_not hp | sweeps hp _ =>
    rw [hp] at hs
    exact nomatch hs

/-- A request that `RETIRING` turns away does nothing. -/
theorem Did.turned_away (hp : c.phase = .begun)
    (hr : w.retiring = true) : w' = w ∧ c'.phase.is_over = true := by
  cases h with
  | looks _ =>
    rw [hr]
    exact ⟨rfl, rfl⟩
  | refuses hp' | starts hp' _ _ | splits hp' _ | finds hp' _ _ | finds_none hp' _
  | kills_pane hp' _ _ | kills_session hp' _ | retires hp' _ | opens_all hp' | names hp' | opens hp' | fails hp'
  | lists hp' | rolls_back hp' | sees_life hp' | renames hp' | reopens hp' | reopen_fails hp' | replaces hp' _
  | not_there hp' | types hp' _ _ | types_not hp' | sweeps hp' _ | has_closed hp' | closes hp' | ends hp' =>
    exact nomatch hp.symm.trans hp'

/-- A request waits for the others when it has just set `RETIRING`. -/
theorem Did.waits (hk : c.knows)
    (hp : c'.phase = .retiring) : w'.retiring = true := by
  unfold Call.knows at hk
  cases h with
  | retires _ _ => rfl
  | looks _ =>
    cases hr : w.retiring with
    | true => rfl
    | false =>
      rw [hr] at hp
      exact nomatch hp
  | sees_life hp' =>
    rename_i old
    cases hr : w.gone old.id <;> rw [hr] at hp <;> exact nomatch hp
  | has_closed hp' =>
    rename_i next
    obtain rfl : next = .retiring := hp
    rw [hp'] at hk
    exact hk.elim
  | _ => exact nomatch hp

/-- A shutdown has seen the others end, or it sees that now. -/
theorem Did.drained (hd : c'.drained = true) :
    c.drained = true ∨ busy ≤ 1 ∧ c.phase = .retiring ∧ w'.reg = w.reg.drain ∧
      c'.phase.succeeded = true := by
  cases h with
  | sweeps hp hbusy => exact Or.inr ⟨hbusy (of_decide_eq_true hd), hp, rfl, rfl⟩
  | _ => exact Or.inl hd

/-- The requests that a call keeps in mind are over. -/
theorem Did.over_then :
    c'.over_then = ended ∨ c'.over_then = c.over_then := by
  cases h with
  | kills_session _ _ | sweeps _ _ => exact Or.inl rfl
  | _ => exact Or.inr rfl

omit h

/-! ## What every call knows, behind the step of one -/

theorem Facts.own (hinv : Inv s) (hinv' : Inv s') (h : Facts s i c) (ha : After s s' i c c')
    (hdid : Did s.shared s.is_over s.in_flight c o s'.shared c') : Facts s' i c' := by
  have hchange := hdid.change hinv.wf
  have hover := fun {j : ℕ} => ha.stays_over (j := j) hdid.not_over
  refine ⟨hdid.knows hinv.wf h.knows, h.own_place hinv ha hdid, h.own_undone hinv ha.own hdid, fun j hj => ?_,
    fun hs session hkills => ?_, fun p hp => ?_, fun p hp => ?_, hdid.waits h.knows, fun hd => ?_⟩
  · rcases hdid.over_then with he | he <;> rw [he] at hj
    · exact hover hj
    · exact hover (h.over_then j hj)
  · rcases hdid.succeeds h.knows hs hkills with ⟨hempty, -⟩ | ⟨hs', -, hthen, hrequest, -⟩
    · rw [hempty]
      exact fun p hp => absurd hp not_mem_nil
    · rw [hthen]
      exact hinv.spared hinv' ha hchange hdid.not_over h.over_then (h.spared hs' session (hrequest ▸ hkills))
  · rcases hdid.took hinv.wf hinv.is_once with he | ⟨hnone, -, htook⟩
    · exact (h.taken p (he ▸ hp)).step hinv ha hdid
    · obtain ⟨⟨session, hlisted⟩, hgone, -⟩ := htook p hp
      refine ⟨ha.opened hchange.opened (hinv.listed session p hlisted), hgone, fun j d hd hpending => ?_⟩
      rcases ha.cases hd with ⟨rfl, rfl⟩ | ⟨hij, d0, hd0, rfl⟩
      · exact not_mem_nil (hnone ▸ hpending)
      · exact (hinv.pending j d0 hd0 p ((sees_keeps _ _ d0).1 ▸ hpending)).2 session hlisted
  · rcases hdid.took hinv.wf hinv.is_once with he | ⟨-, hs, htook⟩
    · obtain ⟨hs, hclosed⟩ := h.swept p (he ▸ hp)
      exact ⟨(hdid.rests hs).2, hdid.swept hs hclosed⟩
    · exact ⟨hs, Or.inr (htook p hp).2.2⟩
  · rcases hdid.drained hd with hd' | ⟨hbusy, hp, hreg, hs⟩
    · obtain ⟨hs, hr, hempty, hothers⟩ := h.drained hd'
      obtain ⟨hreg, hs'⟩ := hdid.rests hs
      refine ⟨hs', hdid.retiring hr, fun session => by rw [hreg, hempty], fun j d hij hj => ?_⟩
      obtain ⟨d0, hd0, rfl⟩ := ha.old hij hj
      rw [(sees_keeps _ _ d0).1]
      exact hothers j d0 hij hd0
    · refine ⟨hs, hdid.retiring (h.retires hp), fun session => by rw [hreg]; rfl, fun j d hij hj => Or.inr ?_⟩
      obtain ⟨d0, hd0, rfl⟩ := ha.old hij hj
      rw [(sees_keeps _ _ d0).1]
      exact hinv.all_over hbusy ha.own hdid.not_over hij hd0

theorem Batch.sees {session : Str} {rest : List PaneSpec} (h : Batch c session rest) :
    Batch (c.sees w w') session rest := by
  obtain ⟨-, hopened, hrequest, hsession, hbase, -⟩ := sees_keeps w w' c
  refine ⟨hsession ▸ h.on, ?_⟩
  rw [hopened, hrequest, hbase]
  exact h.specs

theorem Found.sees {old : Pane} (h : Found c old) : Found (c.sees w w') old := by
  obtain ⟨-, -, hrequest, hsession, hbase, -⟩ := sees_keeps w w' c
  exact ⟨hrequest ▸ h.request, hsession ▸ h.on, hbase ▸ h.base⟩

theorem Call.done.sees (h : c.done) : (c.sees w w').done := by
  obtain ⟨-, hopened, hrequest, hsession, hbase, -⟩ := sees_keeps w w' c
  unfold Call.done at h ⊢
  rw [hopened, hrequest, hsession, hbase]
  exact h

theorem sees_knows (h : c.knows) : (c.sees w w').knows := by
  obtain ⟨hphase, hopened, hrequest, -⟩ := sees_keeps w w' c
  unfold Call.knows at h ⊢
  rw [hphase, hopened, hrequest]
  cases hp : c.phase with
  | begun | entered | retiring | failed _ | typing =>
    rw [hp] at h
    exact h
  | opening _ _ | named _ _ _ _ =>
    rw [hp] at h
    exact Batch.sees h
  | opened _ _ _ =>
    rw [hp] at h
    exact ⟨h.1.sees, h.2⟩
  | found _ | dead _ | renamed _ _ | reopened _ _ =>
    rw [hp] at h
    exact ⟨h.1, h.2.sees⟩
  | closing _ next =>
    rw [hp] at h
    match next, h with
    | .opening _ _, h => exact Batch.sees h
    | .answering (.ok _), h => exact Call.done.sees h
    | .answering (.error _), _ => exact trivial
  | answering reply =>
    rw [hp] at h
    match reply, h with
    | .ok _, h => exact Call.done.sees h
    | .error _, _ => exact trivial
  | «over» reply =>
    rw [hp] at h
    match reply, h with
    | some (.ok _), h => exact Call.done.sees h
    | some (.error _), _ | none, _ => exact trivial

theorem sees_left : (c.sees w w').left = c.left := by
  unfold Call.sees
  split <;> rfl

/-- A call that is undisturbed finds its session as it was. -/
theorem sees_calm {session : Str} (hs : c.session = some session)
    (h : (c.sees w w').disturbed = false) :
    c.disturbed = false ∧ w'.reg.panes session = w.reg.panes session := by
  rw [Call.sees, hs] at h
  obtain ⟨hcalm, hsame⟩ := Bool.or_eq_false_iff.mp h
  exact ⟨hcalm, not_not.mp (of_decide_eq_false hsame)⟩

theorem Facts.other (hinv : Inv s) (hinv' : Inv s') (h : Facts s j d) (hd : s.calls j = some d)
    (hij : j ≠ i) (ha : After s s' i c c') (hdid : Did s.shared s.is_over s.in_flight c o s'.shared c') :
    Facts s' j (d.sees s.shared s'.shared) := by
  have hchange := hdid.change hinv.wf
  obtain ⟨hphase, hopened, hrequest, hsession, -, hthen, hdrained, htook⟩ := sees_keeps s.shared s'.shared d
  refine ⟨sees_knows h.knows, fun panes hleft hcalm session hs => ?_, fun panes hfails p hp => ?_,
    fun k hk => ?_, fun hs session hkills => ?_, fun p hp => (h.taken p (htook ▸ hp)).step hinv ha hdid,
    fun p hp => ?_, fun hp => ?_, fun hd' => ?_⟩
  · rw [hsession] at hs
    obtain ⟨hcalm', hsame⟩ := sees_calm hs hcalm
    rw [hsame]
    exact h.place panes (sees_left ▸ hleft) hcalm' session hs
  · rw [hphase] at hfails
    rw [hopened] at hp
    obtain ⟨hclosed, hnot⟩ := h.undone panes hfails p hp
    refine ⟨hclosed.imp_left hchange.closed, fun session hlisted => ?_⟩
    rcases (hinv.step_panes ha.own hchange).2.2 session p hlisted with hold | hpending
    · exact hnot session hold
    · exact hij (hinv.opener_eq hd ha.own hp (hinv.pending i c ha.own p hpending).1)
  · rw [hthen] at hk
    exact ha.stays_over hdid.not_over (h.over_then k hk)
  · rw [hphase] at hs
    rw [hrequest] at hkills
    rw [hthen]
    exact hinv.spared hinv' ha hchange hdid.not_over h.over_then (h.spared hs session hkills)
  · rw [htook] at hp
    rw [hphase]
    exact (h.swept p hp).imp_right (Or.imp_left hchange.closed)
  · exact hdid.retiring (h.retires (hphase ▸ hp))
  · rw [hdrained] at hd'
    obtain ⟨hs, hr, hempty, hothers⟩ := h.drained hd'
    -- the one that takes a step was not over, so it is only begun, and is turned away
    have hbegun : c.phase = .begun := by
      rcases hothers i c hij.symm ha.own with hbegun | hover
      · exact hbegun
      · exact nomatch hdid.not_over.symm.trans hover
    obtain ⟨hsame, hover⟩ := hdid.turned_away hbegun hr
    refine ⟨hphase ▸ hs, hsame ▸ hr, hsame ▸ hempty, fun k e hkj hk => ?_⟩
    rcases ha.cases hk with ⟨rfl, rfl⟩ | ⟨hki, e0, he0, rfl⟩
    · exact Or.inr hover
    · rw [(sees_keeps _ _ e0).1]
      exact hothers k e0 hkj he0

end

end Lpm.Sessions
