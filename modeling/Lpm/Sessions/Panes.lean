/-
No two panes have the same id, and none is lost: a pane whose shell runs and was not closed is
in exactly one session's list, or in the hands of a thread.

What matters of a step is what it does to the lists and to the panes in its thread's hands, and
that is one of seven things (`Change`). The rest of the argument is on these.
-/
import Lpm.Sessions.Steps

set_option autoImplicit false

open RustText Transition

namespace Lpm.Sessions

open List Option Function

/-- The pane that is open and in no list yet. -/
def Phase.pending : Phase → List Pane
  | opened _ pane _ | reopened _ pane => [pane]
  | closing _ next => next.pending
  | _ => []

/-- The pane that is to be replaced. -/
def Phase.replaced : Phase → List Pane
  | dead old | renamed old _ | reopened old _ => [old]
  | closing _ next => next.replaced
  | _ => []

/-- All ids that are a request's. -/
def Call.ids (c : Call) : List Str := c.opened.map Pane.id ++ c.phase.names

inductive Change (w : Shared) (c : Call) (w' : Shared) (c' : Call) : Prop
  | quiet (reg : w'.reg = w.reg) (closed : w'.closed = w.closed) (opened : c'.opened = c.opened)
      (names : c'.phase.names.Sublist c.phase.names) (holds : c'.phase.holds = c.phase.holds)
  | names (reg : w'.reg = w.reg.next_id.2) (closed : w'.closed = w.closed) (opened : c'.opened = c.opened)
      (none_ : c.phase.names = []) (names : c'.phase.names = [w.reg.next_id.1])
      (holds : c'.phase.holds = c.phase.holds)
  | opens (p : Pane) (reg : w'.reg = w.reg) (closed : w'.closed = w.closed)
      (opened : c'.opened = c.opened ++ [p]) (names : c.phase.names = [p.id])
      (none_ : c'.phase.names = []) (holds : c.phase.holds = []) (holds' : c'.phase.holds = [p])
  | lists (session : Str) (p : Pane) (reg : w'.reg = w.reg.push session p) (closed : w'.closed = w.closed)
      (opened : c'.opened = c.opened) (names : c'.phase.names = c.phase.names)
      (pending : c.phase.pending = [p]) (holds : c.phase.holds = [p]) (holds' : c'.phase.holds = [])
  | removes (f : Str → Pane → Bool) (wf : w'.reg.Wf) (next : w'.reg.next_pane = w.reg.next_pane)
      (panes : ∀ s, w'.reg.panes s = (w.reg.panes s).filter (f s))
      (holds : ∀ s, ∀ p ∈ w.reg.panes s, f s p = false → ∃ q ∈ c'.phase.holds, q.id = p.id)
      (held : ∀ q ∈ c'.phase.holds, q ∈ c.opened ∨ ∃ s, q ∈ w.reg.panes s)
      (closed : w'.closed = w.closed) (opened : c'.opened = c.opened)
      (names : c'.phase.names = c.phase.names) (empty : c.phase.holds = [])
  | replaces (session : Str) (before after : List Pane) (old p : Pane) (wf : w'.reg.Wf)
      (next : w'.reg.next_pane = w.reg.next_pane)
      (panes : w.reg.panes session = before ++ old :: after)
      (panes' : ∀ s, w'.reg.panes s = if session = s then before ++ p :: after else w.reg.panes s)
      (old_id : ∃ q ∈ c.phase.replaced, q.id = old.id) (closed : w'.closed = w.closed)
      (opened : c'.opened = c.opened) (names : c'.phase.names = c.phase.names)
      (pending : c.phase.pending = [p]) (holds : c.phase.holds = [p]) (holds' : c'.phase.holds = [])
  | closes (p : Pane) (reg : w'.reg = w.reg) (closed : w'.closed = Function.update w.closed p.id true)
      (opened : c'.opened = c.opened) (names : c'.phase.names = c.phase.names)
      (holds : c.phase.holds = p :: c'.phase.holds)

section
variable {w w' : Shared} {ended : ℕ → Bool} {busy : ℕ} {c c' : Call} {o : Outcome}

/-- A session is taken whole. -/
theorem take_removes {session : Str} (h : w.reg.Wf) (hw : w' = { w with reg := w.reg.take session })
    (hopened : c'.opened = c.opened) (hnames : c'.phase.names = c.phase.names)
    (hholds : c'.phase.holds = w.reg.panes session) (hempty : c.phase.holds = []) : Change w c w' c' := by
  subst hw
  refine .removes (fun s _ => !(session = s)) (h.take session) rfl (fun s => ?_) (fun s p hp hf => ?_)
    (fun q hq => ?_) rfl hopened hnames hempty
  · change (w.reg.take session).panes s = _
    rw [Registry.panes_take]
    split
    next he => simp [he]
    next he => simp [he]
  · have he : session = s := by simpa using hf
    exact ⟨p, by rw [hholds, he]; exact hp, rfl⟩
  · rw [hholds] at hq
    exact Or.inr ⟨session, hq⟩

/-- A step does one of the seven things. -/
theorem Did.change (h : Did w ended busy c o w' c') (hwf : w.reg.Wf) : Change w c w' c' := by
  cases h with
  | looks hp =>
    refine .quiet rfl rfl rfl ?_ ?_ <;> rw [hp] <;> cases w.retiring
    · exact List.Sublist.refl _
    · exact List.Sublist.refl _
    · rfl
    · rfl
  | refuses hp | finds_none hp _ | opens_all hp | fails hp | reopen_fails hp | types_not hp | ends hp
  | splits hp _ | finds hp _ _ | types hp _ _ | retires hp _ =>
    exact .quiet rfl rfl rfl (by rw [hp]; exact nil_sublist _) (by rw [hp]; rfl)
  | sees_life hp =>
    refine .quiet rfl rfl rfl ?_ ?_ <;> rw [hp] <;> cases w.gone _
    · exact List.Sublist.refl _
    · exact List.Sublist.refl _
    · rfl
    · rfl
  | not_there hp => exact .quiet rfl rfl rfl (by rw [hp]; exact nil_sublist _) (by rw [hp]; rfl)
  | has_closed hp =>
    refine .quiet rfl rfl rfl ?_ (by rw [hp]; rfl)
    rw [hp]
    exact List.Sublist.refl _
  | starts hp _ _ | kills_session hp _ =>
    exact take_removes hwf rfl rfl (by rw [hp]; rfl) (append_nil _) (by rw [hp]; rfl)
  | kills_pane hp _ hfind =>
    rename_i pane found _
    -- one pane goes, from whatever list it is in
    obtain ⟨hid, s0, hfound⟩ := Registry.find_eq_some hwf hfind
    refine .removes (fun _ p => !(p.id = pane)) (hwf.drop_pane pane) rfl
      (fun s => Registry.panes_drop_pane hwf) (fun s p _ hf => ⟨found, mem_singleton_self _, ?_⟩)
      (fun q hq => ?_) rfl rfl (by rw [hp]; rfl) (by rw [hp]; rfl)
    · have he : p.id = pane := by simpa using hf
      exact hid.trans he.symm
    · rw [mem_singleton.mp hq]
      exact Or.inr ⟨s0, hfound⟩
  | rolls_back hp =>
    -- what the request had opened goes
    obtain ⟨hwf', hnext, hpanes⟩ := Registry.panes_drop_all hwf c.opened
    refine .removes (fun _ p => !(p.id ∈ c.opened.map Pane.id)) hwf' hnext hpanes (fun s p _ hf => ?_)
      (fun q hq => ?_) rfl rfl (by rw [hp]; rfl) (by rw [hp]; rfl)
    · have hmem : p.id ∈ c.opened.map Pane.id := by simpa using hf
      obtain ⟨q, hq, hid⟩ := List.mem_map.mp hmem
      exact ⟨q, mem_append_left _ hq, hid⟩
    · rcases mem_append.mp hq with hq | hq
      · exact Or.inl hq
      · exact absurd hq not_mem_nil
  | sweeps hp _ =>
    -- every list is emptied
    refine .removes (fun _ _ => false) Registry.wf_drain rfl (fun s => ?_) (fun s p hmem _ => ?_)
      (fun q hq => ?_) rfl rfl (by rw [hp]; rfl) (by rw [hp]; rfl)
    · rw [filter_false]
      rfl
    · exact ⟨p, mem_append_left _ ((Registry.mem_members hwf).mpr ⟨s, hmem⟩), rfl⟩
    · rcases mem_append.mp hq with hq | hq
      · exact Or.inr ((Registry.mem_members hwf).mp hq)
      · exact absurd hq not_mem_nil
  | names hp | renames hp => exact .names rfl rfl rfl (by rw [hp]; rfl) rfl (by rw [hp]; rfl)
  | opens hp | reopens hp => exact .opens _ rfl rfl rfl (by rw [hp]; rfl) rfl (by rw [hp]; rfl) rfl
  | lists hp => exact .lists _ _ rfl rfl rfl (by rw [hp]; rfl) (by rw [hp]; rfl) (by rw [hp]; rfl) rfl
  | replaces hp hrep =>
    rename_i old pane reg
    obtain ⟨hwf', hnext, session, before, old', after, hpanes, hid, hpanes'⟩ :=
      Registry.replace_eq_some hwf hrep
    exact .replaces session before after old' pane hwf' hnext hpanes hpanes'
      ⟨old, by rw [hp]; exact mem_singleton_self _, hid.symm⟩ rfl rfl (by rw [hp]; rfl)
      (by rw [hp]; rfl) (by rw [hp]; rfl) rfl
  | closes hp => exact .closes _ rfl rfl rfl (by rw [hp]; rfl) (by rw [hp]; rfl)

end

/-! ## The invariant -/

/-- Who opened what, and where it is. -/
structure Inv (s : State) : Prop where
  wf : s.shared.reg.Wf
  used : ∀ i, s.next_call ≤ i → s.calls i = none
  bound : ∀ i c, s.calls i = some c → ∀ id ∈ c.ids, ∃ n < s.shared.reg.next_pane, id = pane_id n
  nodup : ∀ i c, s.calls i = some c → c.ids.Nodup
  apart : ∀ i j c d, i ≠ j → s.calls i = some c → s.calls j = some d → ∀ id ∈ c.ids, id ∉ d.ids
  /-- The panes of a list are distinct, and in no other list. -/
  once : ∀ session, ((s.shared.reg.panes session).map Pane.id).Nodup
  once_all : ∀ a b, a ≠ b → ∀ p ∈ s.shared.reg.panes a, ∀ q ∈ s.shared.reg.panes b, p.id ≠ q.id
  listed : ∀ session, ∀ p ∈ s.shared.reg.panes session, ∃ i c, s.calls i = some c ∧ p ∈ c.opened
  held : ∀ i c, s.calls i = some c → ∀ p ∈ c.phase.holds, ∃ j d, s.calls j = some d ∧ p ∈ d.opened
  pending : ∀ i c, s.calls i = some c → ∀ p ∈ c.phase.pending,
    p ∈ c.opened ∧ ∀ session, p ∉ s.shared.reg.panes session
  replaced : ∀ i c, s.calls i = some c → ∀ p ∈ c.phase.replaced, s.shared.gone p.id = true
  kept : ∀ i c, s.calls i = some c → ∀ p ∈ c.opened, s.shared.closed p.id = false →
    s.shared.gone p.id = false → (∃ session, p ∈ s.shared.reg.panes session) ∨
      ∃ j d, s.calls j = some d ∧ p ∈ d.phase.holds

section
variable {s s' : State} {i j : ℕ} {c c' d : Call} {p q : Pane}

theorem mem_ids (h : p ∈ c.opened) : p.id ∈ c.ids := mem_append_left _ (List.mem_map_of_mem h)

/-- A pane is known by its id. -/
theorem Inv.pane_eq (h : Inv s) (hi : s.calls i = some c) (hj : s.calls j = some d)
    (hp : p ∈ c.opened) (hq : q ∈ d.opened) (hid : p.id = q.id) : p = q := by
  by_cases hij : i = j
  · subst hij
    obtain rfl := some.inj (hi.symm.trans hj)
    have hnodup : (c.opened.map Pane.id).Nodup := (nodup_append.mp (h.nodup i c hi)).1
    exact inj_on_of_nodup_map hnodup hp hq hid
  · exact absurd (hid ▸ mem_ids hq) (h.apart i j c d hij hi hj p.id (mem_ids hp))

/-- The id that a call has taken is no pane's yet. -/
theorem Inv.name_is_new (h : Inv s) (hi : s.calls i = some c) (hname : q.id ∈ c.phase.names) :
    ¬ ∃ j d, s.calls j = some d ∧ q ∈ d.opened := by
  rintro ⟨j, d, hj, hq⟩
  by_cases hji : j = i
  · subst hji
    obtain rfl := some.inj (hj.symm.trans hi)
    exact (nodup_append.mp (h.nodup j d hj)).2.2 q.id (List.mem_map_of_mem hq) q.id hname rfl
  · exact h.apart j i d c hji hj hi q.id (mem_ids hq) (mem_append_right _ hname)

/-! ### Only the shared part changes -/

/-- What the others keep of a call when its session changes. -/
theorem sees_keeps (w w' : Shared) (c : Call) : (c.sees w w').phase = c.phase ∧
    (c.sees w w').opened = c.opened ∧ (c.sees w w').request = c.request ∧
    (c.sees w w').session = c.session ∧ (c.sees w w').base = c.base ∧
    (c.sees w w').over_then = c.over_then ∧ (c.sees w w').drained = c.drained ∧ (c.sees w w').took = c.took := by
  unfold Call.sees
  split <;> exact ⟨rfl, rfl, rfl, rfl, rfl, rfl, rfl, rfl⟩

theorem sees_ids (w w' : Shared) (c : Call) : (c.sees w w').ids = c.ids := by
  obtain ⟨hphase, hopened, -⟩ := sees_keeps w w' c
  rw [Call.ids, Call.ids, hphase, hopened]

/-- The calls behind a step of one of them. -/
structure After (s s' : State) (i : ℕ) (c c' : Call) : Prop where
  own : s.calls i = some c
  own' : s'.calls i = some c'
  others : ∀ j, j ≠ i → s'.calls j = (s.calls j).map (Call.sees s.shared s'.shared)
  next : s'.next_call = s.next_call
  gone : s'.shared.gone = s.shared.gone

theorem After.old (h : After s s' i c c') (hij : j ≠ i) {d' : Call} (hd' : s'.calls j = some d') :
    ∃ d, s.calls j = some d ∧ d' = d.sees s.shared s'.shared := by
  rw [h.others j hij] at hd'
  obtain ⟨d, hd, rfl⟩ := map_eq_some_iff.mp hd'
  exact ⟨d, hd, rfl⟩

theorem After.new (h : After s s' i c c') (hij : j ≠ i) (hd : s.calls j = some d) :
    s'.calls j = some (d.sees s.shared s'.shared) := by
  rw [h.others j hij, hd]
  rfl

theorem After.cases (h : After s s' i c c') {d' : Call} (hd' : s'.calls j = some d') :
    j = i ∧ d' = c' ∨ j ≠ i ∧ ∃ d, s.calls j = some d ∧ d' = d.sees s.shared s'.shared := by
  by_cases hij : j = i
  · subst hij
    exact Or.inl ⟨rfl, some.inj (hd'.symm.trans h.own')⟩
  · exact Or.inr ⟨hij, h.old hij hd'⟩

/-- What was opened is still remembered. -/
theorem After.opened (h : After s s' i c c') (hopened : ∀ p ∈ c.opened, p ∈ c'.opened)
    (hj : ∃ j d, s.calls j = some d ∧ p ∈ d.opened) : ∃ j d, s'.calls j = some d ∧ p ∈ d.opened := by
  obtain ⟨j, d, hd, hp⟩ := hj
  by_cases hij : j = i
  · subst hij
    obtain rfl := some.inj (hd.symm.trans h.own)
    exact ⟨j, c', h.own', hopened p hp⟩
  · exact ⟨j, _, h.new hij hd, (sees_keeps _ _ d).2.1 ▸ hp⟩

/-! ### Ids -/

/-- The ids of a call after its step: no new one, or one that nobody has. -/
theorem Change.ids {w w' : Shared} (h : Change w c w' c') :
    c'.ids.Sublist c.ids ∧ w'.reg.next_pane = w.reg.next_pane ∨
      c'.ids = c.ids ++ [pane_id w.reg.next_pane] ∧ w'.reg.next_pane = w.reg.next_pane + 1 := by
  cases h with
  | quiet hreg _ hopened hnames _ =>
    refine Or.inl ⟨?_, by rw [hreg]⟩
    rw [Call.ids, hopened]
    exact (List.Sublist.refl _).append hnames
  | names hreg _ hopened hnone hnames _ =>
    refine Or.inr ⟨?_, by rw [hreg]; rfl⟩
    rw [Call.ids, Call.ids, hopened, hnone, hnames, append_nil]
    rfl
  | opens p hreg _ hopened hnames hnone _ _ =>
    refine Or.inl ⟨?_, by rw [hreg]⟩
    rw [Call.ids, Call.ids, hopened, hnames, hnone, append_nil, map_append]
    exact List.Sublist.refl _
  | lists session p hreg _ hopened hnames _ _ _ =>
    refine Or.inl ⟨?_, by rw [hreg]; rfl⟩
    rw [Call.ids, Call.ids, hopened, hnames]
  | removes f _ hnext _ _ _ _ hopened hnames _ | replaces _ _ _ _ _ _ hnext _ _ _ _ hopened hnames _ _ _ =>
    refine Or.inl ⟨?_, hnext⟩
    rw [Call.ids, Call.ids, hopened, hnames]
  | closes p hreg _ hopened hnames _ =>
    refine Or.inl ⟨?_, by rw [hreg]⟩
    rw [Call.ids, Call.ids, hopened, hnames]

/-- Where ids are concerned, a step takes a new one at most. -/
theorem Inv.step_ids (h : Inv s) (ha : After s s' i c c') (hc : Change s.shared c s'.shared c') :
    (∀ j d, s'.calls j = some d → ∀ id ∈ d.ids, ∃ n < s'.shared.reg.next_pane, id = pane_id n) ∧
    (∀ j d, s'.calls j = some d → d.ids.Nodup) ∧
    ∀ j k d e, j ≠ k → s'.calls j = some d → s'.calls k = some e → ∀ id ∈ d.ids, id ∉ e.ids := by
  have hle : s.shared.reg.next_pane ≤ s'.shared.reg.next_pane := by
    rcases hc.ids with ⟨-, hn⟩ | ⟨-, hn⟩ <;> omega
  have hnew : ∀ j d, s.calls j = some d → pane_id s.shared.reg.next_pane ∉ d.ids := fun j d hd hid => by
    obtain ⟨n, hn, he⟩ := h.bound j d hd _ hid
    exact absurd (pane_id_injective he) (Nat.ne_of_gt hn)
  -- what the stepping call has, it had, or nobody had
  have hown : ∀ id ∈ c'.ids, id ∈ c.ids ∨
      id = pane_id s.shared.reg.next_pane ∧ s.shared.reg.next_pane < s'.shared.reg.next_pane := fun id hid => by
    rcases hc.ids with ⟨hsub, -⟩ | ⟨heq, hn⟩
    · exact Or.inl (hsub.subset hid)
    · rw [heq] at hid
      refine (mem_append.mp hid).imp_right fun hid => ⟨mem_singleton.mp hid, ?_⟩
      omega
  have hothers : ∀ j d, j ≠ i → s'.calls j = some d → ∃ d0, s.calls j = some d0 ∧ d.ids = d0.ids :=
    fun j d hij hd => by
      obtain ⟨d0, hd0, rfl⟩ := ha.old hij hd
      exact ⟨d0, hd0, sees_ids _ _ d0⟩
  have hapart : ∀ j d, j ≠ i → s'.calls j = some d → ∀ id ∈ c'.ids, id ∉ d.ids := fun j d hij hd id hid => by
    obtain ⟨d0, hd0, he⟩ := hothers j d hij hd
    rw [he]
    rcases hown id hid with hold | ⟨rfl, -⟩
    · exact h.apart i j c d0 (Ne.symm hij) ha.own hd0 id hold
    · exact hnew j d0 hd0
  refine ⟨fun j d hd id hid => ?_, fun j d hd => ?_, fun j k d e hjk hd he id hid => ?_⟩
  · by_cases hij : j = i
    · subst hij
      obtain rfl := some.inj (hd.symm.trans ha.own')
      rcases hown id hid with hold | ⟨rfl, hlt⟩
      · obtain ⟨n, hn, heq⟩ := h.bound j c ha.own id hold
        exact ⟨n, Nat.lt_of_lt_of_le hn hle, heq⟩
      · exact ⟨_, hlt, rfl⟩
    · obtain ⟨d0, hd0, heq⟩ := hothers j d hij hd
      obtain ⟨n, hn, hid'⟩ := h.bound j d0 hd0 id (heq ▸ hid)
      exact ⟨n, Nat.lt_of_lt_of_le hn hle, hid'⟩
  · by_cases hij : j = i
    · subst hij
      obtain rfl := some.inj (hd.symm.trans ha.own')
      rcases hc.ids with ⟨hsub, -⟩ | ⟨heq, -⟩
      · exact hsub.nodup (h.nodup j c ha.own)
      · rw [heq]
        refine nodup_append.mpr ⟨h.nodup j c ha.own, nodup_singleton _, fun a ha' b hb he => ?_⟩
        rw [mem_singleton.mp hb] at he
        exact hnew j c ha.own (he ▸ ha')
    · obtain ⟨d0, hd0, heq⟩ := hothers j d hij hd
      exact heq ▸ h.nodup j d0 hd0
  · by_cases hij : j = i
    · subst hij
      obtain rfl := some.inj (hd.symm.trans ha.own')
      exact hapart k e (Ne.symm hjk) he id hid
    · by_cases hik : k = i
      · subst hik
        obtain rfl := some.inj (he.symm.trans ha.own')
        exact fun hid' => hapart j d hij hd id hid' hid
      · obtain ⟨d0, hd0, heq⟩ := hothers j d hij hd
        obtain ⟨e0, he0, heq'⟩ := hothers k e hik he
        rw [heq']
        exact h.apart j k d0 e0 hjk hd0 he0 id (heq ▸ hid)

/-! ### The lists -/

/-- The panes of each list are distinct, and those of different lists are. -/
def Once (panes : Str → List Pane) : Prop :=
  (∀ session, ((panes session).map Pane.id).Nodup) ∧
    ∀ a b, a ≠ b → ∀ p ∈ panes a, ∀ q ∈ panes b, p.id ≠ q.id

theorem Once.filter {panes panes' : Str → List Pane} (h : Once panes) {f : Str → Pane → Bool}
    (hf : ∀ session, panes' session = (panes session).filter (f session)) : Once panes' := by
  have hmem : ∀ session, ∀ p ∈ panes' session, p ∈ panes session := fun session p hp => by
    rw [hf] at hp
    exact mem_of_mem_filter hp
  refine ⟨fun session => ?_, fun a b hab p hp q hq => h.2 a b hab p (hmem a p hp) q (hmem b q hq)⟩
  rw [hf]
  exact (h.1 session).sublist (filter_sublist.map _)

/-- A new pane takes a place in one list, and what was before and behind it stays. -/
theorem Once.insert {panes panes' : Str → List Pane} (h : Once panes) {session : Str}
    {before after : List Pane} {p : Pane} (hsub : (before ++ after).Sublist (panes session))
    (hpanes : ∀ s, panes' s = if session = s then before ++ p :: after else panes s)
    (hnew : ∀ s, ∀ q ∈ panes s, q.id ≠ p.id) : Once panes' := by
  have hmem : ∀ s, ∀ q ∈ panes' s, q ∈ panes s ∨ q = p ∧ s = session := fun s q hq => by
    rw [hpanes] at hq
    split at hq
    next he =>
      subst he
      rcases mem_append.mp hq with hq | hq
      · exact Or.inl (hsub.subset (mem_append_left _ hq))
      · rcases mem_cons.mp hq with rfl | hq
        · exact Or.inr ⟨rfl, rfl⟩
        · exact Or.inl (hsub.subset (mem_append_right _ hq))
    next => exact Or.inl hq
  refine ⟨fun s => ?_, fun a b hab q hq q' hq' => ?_⟩
  · rw [hpanes]
    split
    next =>
      have hperm : ((before ++ p :: after).map Pane.id).Perm (p.id :: (before ++ after).map Pane.id) :=
        perm_middle.map Pane.id
      refine hperm.nodup_iff.mpr (nodup_cons.mpr ⟨fun hin => ?_, ?_⟩)
      · obtain ⟨q, hq, hid⟩ := List.mem_map.mp hin
        exact hnew session q (hsub.subset hq) hid
      · exact (h.1 session).sublist (hsub.map _)
    next => exact h.1 s
  · rcases hmem a q hq with hq | ⟨rfl, rfl⟩
    · rcases hmem b q' hq' with hq' | ⟨rfl, rfl⟩
      · exact h.2 a b hab q hq q' hq'
      · exact hnew a q hq
    · rcases hmem b q' hq' with hq' | ⟨rfl, rfl⟩
      · exact (hnew b q' hq').symm
      · exact absurd rfl hab

theorem Inv.is_once (h : Inv s) : Once s.shared.reg.panes := ⟨h.once, h.once_all⟩

/-- A pane that is not listed shares its id with none that is. -/
theorem Inv.pending_id (h : Inv s) (hi : s.calls i = some c) (hp : p ∈ c.phase.pending) (session : Str)
    (hq : q ∈ s.shared.reg.panes session) : q.id ≠ p.id := by
  intro hid
  obtain ⟨hopened, hnot⟩ := h.pending i c hi p hp
  obtain ⟨j, d, hd, hqd⟩ := h.listed session q hq
  exact hnot session (h.pane_eq hd hi hqd hopened hid ▸ hq)

/-- What the lists are behind a step. -/
theorem Inv.step_panes (h : Inv s) (hi : s.calls i = some c) (hc : Change s.shared c s'.shared c') :
    s'.shared.reg.Wf ∧ Once s'.shared.reg.panes ∧
      ∀ session, ∀ q ∈ s'.shared.reg.panes session,
        q ∈ s.shared.reg.panes session ∨ q ∈ c.phase.pending := by
  -- most steps leave every list as it was
  have hsame : ∀ {r : Registry}, r.sessions = s.shared.reg.sessions → s'.shared.reg = r →
      s'.shared.reg.Wf ∧ Once s'.shared.reg.panes ∧
      ∀ session, ∀ q ∈ s'.shared.reg.panes session,
        q ∈ s.shared.reg.panes session ∨ q ∈ c.phase.pending := fun {r} hr he => by
    have hpanes : s'.shared.reg.panes = s.shared.reg.panes := by
      funext session
      rw [he, Registry.panes, Registry.panes, hr]
    rw [hpanes]
    refine ⟨?_, h.is_once, fun session q hq => Or.inl hq⟩
    rw [he, Registry.Wf, hr]
    exact h.wf
  cases hc with
  | quiet hreg _ _ _ _ => exact hsame rfl hreg
  | names hreg _ _ _ _ _ => exact hsame (r := s.shared.reg.next_id.2) rfl hreg
  | opens p hreg _ _ _ _ _ _ => exact hsame rfl hreg
  | closes p hreg _ _ _ _ => exact hsame rfl hreg
  | lists session p hreg _ _ _ hpending _ _ =>
    -- what is listed was in the hands of the request, and in no list
    have hmem : p ∈ c.phase.pending := hpending ▸ mem_singleton_self p
    have hpanes : ∀ a, s'.shared.reg.panes a =
        if session = a then s.shared.reg.panes session ++ p :: [] else s.shared.reg.panes a := fun a => by
      rw [hreg]
      exact Registry.panes_push
    refine ⟨hreg ▸ h.wf.push session p, h.is_once.insert ?_ hpanes fun a q hq => h.pending_id hi hmem a hq,
      fun a q hq => ?_⟩
    · rw [append_nil]
    · rw [hpanes] at hq
      split at hq
      next he =>
        subst he
        refine (mem_append.mp hq).imp_right fun hq => ?_
        rw [mem_singleton.mp hq]
        exact hmem
      next => exact Or.inl hq
  | removes f hwf _ hpanes _ _ _ _ _ _ =>
    refine ⟨hwf, h.is_once.filter hpanes, fun a q hq => Or.inl ?_⟩
    rw [hpanes] at hq
    exact mem_of_mem_filter hq
  | replaces session before after old p hwf _ hpanes hpanes' _ _ _ _ hpending _ _ =>
    have hmem : p ∈ c.phase.pending := hpending ▸ mem_singleton_self p
    have hsub : (before ++ after).Sublist (s.shared.reg.panes session) := by
      rw [hpanes]
      exact (List.Sublist.refl before).append (sublist_cons_self old after)
    refine ⟨hwf, h.is_once.insert hsub hpanes' fun a q hq => h.pending_id hi hmem a hq, fun a q hq => ?_⟩
    rw [hpanes'] at hq
    split at hq
    next he =>
      subst he
      rcases mem_append.mp hq with hq | hq
      · exact Or.inl (hsub.subset (mem_append_left _ hq))
      · rcases mem_cons.mp hq with rfl | hq
        · exact Or.inr hmem
        · exact Or.inl (hsub.subset (mem_append_right _ hq))
    next => exact Or.inl hq

/-! ### The threads -/

section
variable {w w' : Shared} {ended : ℕ → Bool} {busy : ℕ} {o : Outcome}

/-- A pane that is open and not listed was so before, or was just opened; and while there is
one, its thread lists nothing. -/
theorem Did.pending (h : Did w ended busy c o w' c') (hp : p ∈ c'.phase.pending) :
    w'.reg = w.reg ∧ (p ∈ c.phase.pending ∧ c'.opened = c.opened ∨
      p ∈ c'.opened ∧ p.id ∈ c.phase.names) := by
  cases h with
  | looks hphase => cases hr : w.retiring <;> rw [hr] at hp <;> exact absurd hp not_mem_nil
  | sees_life hphase =>
    rename_i old
    cases hr : w.gone old.id <;> rw [hr] at hp <;> exact absurd hp not_mem_nil
  | opens hphase | reopens hphase =>
    obtain rfl := mem_singleton.mp hp
    refine ⟨rfl, Or.inr ⟨mem_append_right _ (mem_singleton_self _), ?_⟩⟩
    rw [hphase]
    exact mem_singleton_self _
  | has_closed hphase | closes hphase =>
    refine ⟨rfl, Or.inl ⟨?_, rfl⟩⟩
    rw [hphase]
    exact hp
  | _ => exact absurd hp not_mem_nil

/-- The pane that is to be replaced has no shell any more. -/
theorem Did.replaced (h : Did w ended busy c o w' c') (hp : p ∈ c'.phase.replaced) :
    p ∈ c.phase.replaced ∨ w.gone p.id = true := by
  cases h with
  | looks hphase => cases hr : w.retiring <;> rw [hr] at hp <;> exact absurd hp not_mem_nil
  | sees_life hphase =>
    rename_i old
    cases hr : w.gone old.id with
    | true =>
      rw [hr] at hp
      exact Or.inr (mem_singleton.mp hp ▸ hr)
    | false =>
      rw [hr] at hp
      exact absurd hp not_mem_nil
  | renames hphase | reopens hphase | has_closed hphase | closes hphase =>
    rw [hphase]
    exact Or.inl hp
  | _ => exact absurd hp not_mem_nil

end

variable {w w' : Shared}

/-- A step opens one pane at most, and then its thread holds it. -/
theorem Change.opened_eq (h : Change w c w' c') : c'.opened = c.opened ∨
    ∃ p, c'.opened = c.opened ++ [p] ∧ c'.phase.holds = [p] := by
  cases h with
  | opens q _ _ hopened _ _ _ hholds => exact Or.inr ⟨q, hopened, hholds⟩
  | quiet _ _ hopened _ _ | names _ _ hopened _ _ _ | lists _ _ _ _ hopened _ _ _ _
  | removes _ _ _ _ _ _ _ hopened _ _ | replaces _ _ _ _ _ _ _ _ _ _ _ hopened _ _ _ _
  | closes _ _ _ hopened _ _ => exact Or.inl hopened

theorem Change.opened (h : Change w c w' c') : ∀ p ∈ c.opened, p ∈ c'.opened := by
  intro p hp
  rcases h.opened_eq with he | ⟨q, he, -⟩ <;> rw [he]
  · exact hp
  · exact mem_append_left _ hp

/-- What is closed stays so. -/
theorem Change.closed (h : Change w c w' c') {id : Str} (hclosed : w.closed id = true) :
    w'.closed id = true := by
  cases h with
  | closes q _ hq _ _ _ =>
    rw [hq]
    by_cases he : id = q.id
    · rw [he, update_self]
    · rwa [update_of_ne he]
  | quiet _ hq _ _ _ | names _ hq _ _ _ _ | lists _ _ _ hq _ _ _ _ _ | opens _ _ hq _ _ _ _ _
  | removes _ _ _ _ _ _ hq _ _ _ | replaces _ _ _ _ _ _ _ _ _ _ hq _ _ _ _ _ => exact hq ▸ hclosed

/-- What a thread holds, it held, or it just opened it or took it out of a list. -/
theorem Change.held (h : Change w c w' c') (hp : p ∈ c'.phase.holds) :
    p ∈ c.phase.holds ∨ p ∈ c'.opened ∨ ∃ session, p ∈ w.reg.panes session := by
  cases h with
  | quiet _ _ _ _ hholds | names _ _ _ _ _ hholds => exact Or.inl (hholds ▸ hp)
  | opens q _ _ hopened _ _ _ hholds =>
    rw [hholds] at hp
    rw [hopened]
    exact Or.inr (Or.inl (mem_append_right _ hp))
  | lists _ _ _ _ _ _ _ _ hholds | replaces _ _ _ _ _ _ _ _ _ _ _ _ _ _ _ hholds =>
    rw [hholds] at hp
    exact absurd hp not_mem_nil
  | removes _ _ _ _ _ hheld _ hopened _ _ =>
    rcases hheld p hp with hown | hlisted
    · exact Or.inr (Or.inl (hopened ▸ hown))
    · exact Or.inr (Or.inr hlisted)
  | closes q _ _ _ _ hholds => exact Or.inl (hholds ▸ mem_cons_of_mem q hp)

/-- A pane that is not closed and whose shell runs is not lost by a step. -/
theorem Inv.step_kept (h : Inv s) (ha : After s s' i c c') (hc : Change s.shared c s'.shared c')
    (hj : s'.calls j = some d) (hp : p ∈ d.opened) (hclosed : s'.shared.closed p.id = false)
    (hgone : s'.shared.gone p.id = false) :
    (∃ session, p ∈ s'.shared.reg.panes session) ∨ ∃ k e, s'.calls k = some e ∧ p ∈ e.phase.holds := by
  -- the pane was there before, or was just opened
  have hold : (∃ k e, s.calls k = some e ∧ p ∈ e.opened) ∨ p ∈ c'.phase.holds := by
    rcases ha.cases hj with ⟨rfl, rfl⟩ | ⟨hij, d0, hd0, rfl⟩
    · rcases hc.opened_eq with he | ⟨q, he, hholds⟩ <;> rw [he] at hp
      · exact Or.inl ⟨j, c, ha.own, hp⟩
      · rcases mem_append.mp hp with hp | hp
        · exact Or.inl ⟨j, c, ha.own, hp⟩
        · exact Or.inr (hholds ▸ hp)
    · exact Or.inl ⟨j, d0, hd0, (sees_keeps _ _ d0).2.1 ▸ hp⟩
  rcases hold with ⟨k, e, hk, hpe⟩ | hnow
  case inr => exact Or.inr ⟨i, c', ha.own', hnow⟩
  have hgone' : s.shared.gone p.id = false := ha.gone ▸ hgone
  have hclosed' : s.shared.closed p.id = false := by
    refine Bool.eq_false_iff.mpr fun hc' => ?_
    exact Bool.noConfusion (hclosed.symm.trans (hc.closed hc'))
  rcases h.kept k e hk p hpe hclosed' hgone' with ⟨session, hlisted⟩ | hheld
  · cases hc with
    | quiet hreg _ _ _ _ | opens _ hreg _ _ _ _ _ _ | closes _ hreg _ _ _ _ =>
      exact Or.inl ⟨session, hreg ▸ hlisted⟩
    | names hreg _ _ _ _ _ =>
      rw [hreg]
      exact Or.inl ⟨session, hlisted⟩
    | lists session' q hreg _ _ _ _ _ _ =>
      refine Or.inl ⟨session, ?_⟩
      rw [hreg, Registry.panes_push]
      split
      next he => exact he ▸ mem_append_left _ hlisted
      next => exact hlisted
    | removes f _ _ hpanes hholds hheld _ _ _ _ =>
      cases hf : f session p with
      | true =>
        refine Or.inl ⟨session, ?_⟩
        rw [hpanes]
        exact mem_filter.mpr ⟨hlisted, hf⟩
      | false =>
        obtain ⟨q, hq, hid⟩ := hholds session p hlisted hf
        have hopened : ∃ l m, s.calls l = some m ∧ q ∈ m.opened := by
          rcases hheld q hq with hown | ⟨a, hqa⟩
          · exact ⟨i, c, ha.own, hown⟩
          · exact h.listed a q hqa
        obtain ⟨l, m, hm, hqm⟩ := hopened
        obtain rfl := h.pane_eq hm hk hqm hpe hid
        exact Or.inr ⟨i, c', ha.own', hq⟩
    | replaces session' before after old q _ _ hpanes hpanes' hold _ _ _ _ _ _ =>
      obtain ⟨r, hr, hid⟩ := hold
      have hne : p ≠ old := fun he => by
        have hgone_old := h.replaced i c ha.own r hr
        rw [hid, ← he, hgone'] at hgone_old
        exact nomatch hgone_old
      refine Or.inl ⟨session, ?_⟩
      rw [hpanes']
      split
      next he =>
        rw [← he, hpanes] at hlisted
        rcases mem_append.mp hlisted with hlisted | hlisted
        · exact mem_append_left _ hlisted
        · exact mem_append_right _ (mem_cons_of_mem _ ((mem_cons.mp hlisted).resolve_left hne))
      next => exact hlisted
  · obtain ⟨k', e', hk', hp'⟩ := hheld
    by_cases hik : k' = i
    · subst hik
      obtain rfl := some.inj (hk'.symm.trans ha.own)
      cases hc with
      | quiet _ _ _ _ hholds | names _ _ _ _ _ hholds => exact Or.inr ⟨k', c', ha.own', hholds ▸ hp'⟩
      | opens _ _ _ _ _ _ hempty _ | removes _ _ _ _ _ _ _ _ _ hempty =>
        rw [hempty] at hp'
        exact absurd hp' not_mem_nil
      | lists session q hreg _ _ _ _ hholds _ =>
        rw [hholds] at hp'
        obtain rfl := mem_singleton.mp hp'
        refine Or.inl ⟨session, ?_⟩
        rw [hreg, Registry.panes_push, if_pos rfl]
        exact mem_append_right _ hp'
      | replaces session before after old q _ _ _ hpanes' _ _ _ _ _ hholds _ =>
        rw [hholds] at hp'
        obtain rfl := mem_singleton.mp hp'
        refine Or.inl ⟨session, ?_⟩
        rw [hpanes', if_pos rfl]
        exact mem_append_right _ mem_cons_self
      | closes q _ hq _ _ hholds =>
        rw [hholds] at hp'
        rcases mem_cons.mp hp' with rfl | hp'
        · rw [hq, update_self] at hclosed
          exact nomatch hclosed
        · exact Or.inr ⟨k', c', ha.own', hp'⟩
    · exact Or.inr ⟨k', _, ha.new hik hk', (sees_keeps _ _ e').1 ▸ hp'⟩

/-- A request takes a step. -/
theorem Inv.call (h : Inv s) (ha : After s s' i c c') {ended : ℕ → Bool} {busy : ℕ} {o : Outcome}
    (hdid : Did s.shared ended busy c o s'.shared c') : Inv s' := by
  have hc := hdid.change h.wf
  obtain ⟨hbound, hnodup, hapart⟩ := h.step_ids ha hc
  obtain ⟨hwf, ⟨honce, honce'⟩, hmem⟩ := h.step_panes ha.own hc
  have hopened := fun {q : Pane} => ha.opened (p := q) hc.opened
  refine ⟨hwf, fun j hj => ?_, hbound, hnodup, hapart, honce, honce', fun session q hq => ?_,
    fun j d hd q hq => ?_, fun j d hd q hq => ?_, fun j d hd q hq => ?_,
    fun j d hd q hq hclosed hgone => h.step_kept ha hc hd hq hclosed hgone⟩
  -- a call that is not used yet is not this one
  · have hne : j ≠ i := fun he => by
      rw [he, ha.next] at hj
      exact nomatch (h.used i hj).symm.trans ha.own
    rw [ha.others j hne, h.used j (ha.next ▸ hj)]
    rfl
  · rcases hmem session q hq with hold | hnew
    · exact hopened (h.listed session q hold)
    · exact hopened ⟨i, c, ha.own, (h.pending i c ha.own q hnew).1⟩
  · rcases ha.cases hd with ⟨rfl, rfl⟩ | ⟨hij, d0, hd0, rfl⟩
    · rcases hc.held hq with hold | hnew | ⟨session, hlisted⟩
      · exact hopened (h.held j c ha.own q hold)
      · exact ⟨j, d, hd, hnew⟩
      · exact hopened (h.listed session q hlisted)
    · exact hopened (h.held j d0 hd0 q ((sees_keeps _ _ d0).1 ▸ hq))
  · rcases ha.cases hd with ⟨rfl, rfl⟩ | ⟨hij, d0, hd0, rfl⟩
    · obtain ⟨hreg, hpending | ⟨hown, hname⟩⟩ := hdid.pending hq
      · obtain ⟨hq', hnot⟩ := h.pending j c ha.own q hpending.1
        exact ⟨hpending.2 ▸ hq', fun session => hreg ▸ hnot session⟩
      · refine ⟨hown, fun session hlisted => ?_⟩
        rw [hreg] at hlisted
        exact h.name_is_new ha.own hname (h.listed session q hlisted)
    · obtain ⟨hphase, hsame, -⟩ := sees_keeps s.shared s'.shared d0
      rw [hphase] at hq
      obtain ⟨hq', hnot⟩ := h.pending j d0 hd0 q hq
      refine ⟨hsame ▸ hq', fun session hlisted => ?_⟩
      rcases hmem session q hlisted with hold | hnew
      · exact hnot session hold
      · have hqc := (h.pending i c ha.own q hnew).1
        exact h.apart j i d0 c hij hd0 ha.own q.id (mem_ids hq') (mem_ids hqc)
  · rw [ha.gone]
    rcases ha.cases hd with ⟨rfl, rfl⟩ | ⟨hij, d0, hd0, rfl⟩
    · rcases hdid.replaced hq with hold | hgone
      · exact h.replaced j c ha.own q hold
      · exact hgone
    · exact h.replaced j d0 hd0 q ((sees_keeps _ _ d0).1 ▸ hq)

end

end Lpm.Sessions
