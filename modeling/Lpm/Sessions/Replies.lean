/-
What an answered request leaves behind.

Each result is a fact about one call that its own steps establish. The steps of the others can
only touch it through the lists, and there they put nothing but panes of their own.
-/
import Lpm.Sessions.Panes

set_option autoImplicit false

open RustText Transition

namespace Lpm.Sessions

open List Option

/-! ## What a call knows of itself -/

/-- What a pane was opened for. -/
def PaneSpec.label (spec : PaneSpec) : Str × Str := (spec.service, spec.dir)

def Pane.label (pane : Pane) : Str × Str := (pane.service, pane.dir)

/-- A batch of panes is being opened, and `rest` is still to come. -/
structure Batch (c : Call) (session : Str) (rest : List PaneSpec) : Prop where
  on : c.session = some session
  specs : ∃ specs done, (c.request = .start session specs ∧ c.base = [] ∨ c.request = .split session specs) ∧
    specs = done ++ rest ∧ c.opened.map Pane.label = done.map PaneSpec.label

/-- A line is sent to a pane that was found. -/
structure Found (c : Call) (old : Pane) : Prop where
  request : ∃ text, c.request = .send old.id text
  on : c.session ≠ none
  base : old ∈ c.base

/-- A request that was answered ok. -/
def Call.done (c : Call) : Prop :=
  match c.request with
  | .start session specs =>
    c.session = some session ∧ c.base = [] ∧ c.opened.map Pane.label = specs.map PaneSpec.label
  | .split session specs => c.session = some session ∧ c.opened.map Pane.label = specs.map PaneSpec.label
  | .send pane _ => c.session ≠ none ∧ (∃ p ∈ c.base, p.id = pane) ∧ c.opened.length ≤ 1
  | _ => True

def Call.knows (c : Call) : Prop :=
  match c.phase with
  | .begun | .entered => c.opened = []
  | .retiring => c.request = .shutdown
  | .opening session rest | .closing _ (.opening session rest) => Batch c session rest
  | .named session _ spec rest => Batch c session (spec :: rest)
  | .opened session pane rest => Batch c session rest ∧ ∃ listed, c.opened = listed ++ [pane]
  | .failed _ => ∃ session specs, c.request = .start session specs ∨ c.request = .split session specs
  | .found old | .dead old | .renamed old _ => c.opened = [] ∧ Found c old
  | .reopened old pane => c.opened = [pane] ∧ Found c old
  | .typing => c.opened = [] ∧ ∃ pane text, c.request = .send pane text
  | .closing _ (.answering (.ok _)) | .answering (.ok _) | .over (some (.ok _)) => c.done
  | .closing _ (.answering (.error _)) | .answering (.error _) | .over _ => True
  | .closing _ _ => False

section
variable {w w' : Shared} {ended : ℕ → Bool} {busy : ℕ} {c c' : Call} {o : Outcome}

/-- What a pane is found in. -/
theorem finds_found (hwf : w.reg.Wf) {pane text : Str} {old : Pane} (hr : c.request = .send pane text)
    (hf : w.reg.find pane = some old) : Found (c.finds w.reg old) old := by
  obtain ⟨hid, s, hs⟩ := Registry.find_eq_some hwf hf
  obtain ⟨session, hsession, hmem⟩ := Registry.session_of_eq hwf hs
  refine ⟨⟨text, by rw [hid]; exact hr⟩, ?_, ?_⟩
  · change Call.session_of w.reg old ≠ none
    rw [hsession]
    exact some_ne_none _
  · change old ∈ ((Call.session_of w.reg old).map w.reg.panes).getD []
    rw [hsession]
    exact hmem

theorem Batch.same {session : Str} {rest : List PaneSpec} (h : Batch c session rest) (phase : Phase) :
    Batch (c.goes phase) session rest := ⟨h.on, h.specs⟩

theorem Found.same {old : Pane} (h : Found c old) (phase : Phase) : Found (c.goes phase) old :=
  ⟨h.request, h.on, h.base⟩

/-- A pane of the batch is open. -/
theorem Batch.opens {session id : Str} {spec : PaneSpec} {rest : List PaneSpec}
    (h : Batch c session (spec :: rest)) (phase : Phase) :
    Batch { c with phase, opened := c.opened ++ [Call.pane_of id spec] } session rest := by
  obtain ⟨specs, done, hr, hs, hl⟩ := h.specs
  refine ⟨h.on, specs, done ++ [spec], hr, by rw [hs, append_assoc]; rfl, ?_⟩
  change (c.opened ++ [Call.pane_of id spec]).map Pane.label = _
  rw [map_append, map_append, hl]
  rfl

theorem Batch.done {session : Str} (h : Batch c session []) (phase : Phase) : (c.goes phase).done := by
  obtain ⟨specs, done, hr, hs, hl⟩ := h.specs
  rw [append_nil] at hs
  subst hs
  rcases hr with ⟨hr, hbase⟩ | hr
  · rw [Call.done, show (c.goes phase).request = _ from hr]
    exact ⟨h.on, hbase, hl⟩
  · rw [Call.done, show (c.goes phase).request = _ from hr]
    exact ⟨h.on, hl⟩

theorem Found.done {old : Pane} (h : Found c old) (hlen : c.opened.length ≤ 1) (phase : Phase) :
    (c.goes phase).done := by
  obtain ⟨text, hr⟩ := h.request
  rw [Call.done, show (c.goes phase).request = _ from hr]
  exact ⟨h.on, ⟨old, h.base, rfl⟩, hlen⟩

theorem Call.done_other (hr : c.request = .shutdown ∨ (∃ pane, c.request = .kill_pane pane) ∨
    ∃ session, c.request = .kill_session session) : c.done := by
  rcases hr with hr | ⟨pane, hr⟩ | ⟨session, hr⟩ <;>
    · rw [Call.done, hr]
      exact trivial

/-- What a request knows of itself stays true. -/
theorem Did.knows (h : Did w ended busy c o w' c') (hwf : w.reg.Wf) (hk : c.knows) : c'.knows := by
  unfold Call.knows at hk
  -- what is known in a phase follows from what was known in the one before
  cases h with
  | looks hp =>
    rw [hp] at hk
    cases w.retiring
    · exact hk
    · exact trivial
  | retires hp hr => exact hr
  | refuses _ | rolls_back _ | reopen_fails _ | not_there _ | types_not _ => exact trivial
  | starts hp hr _ =>
    rw [hp] at hk
    rename_i session specs _
    refine ⟨rfl, specs, [], Or.inl ⟨hr, rfl⟩, rfl, ?_⟩
    change c.opened.map Pane.label = []
    rw [show c.opened = [] from hk]
    rfl
  | splits hp hr =>
    rw [hp] at hk
    rename_i session specs
    refine ⟨rfl, specs, [], Or.inr hr, rfl, ?_⟩
    change c.opened.map Pane.label = []
    rw [show c.opened = [] from hk]
    rfl
  | finds hp hr hf =>
    rw [hp] at hk
    exact ⟨hk, (finds_found hwf hr hf).same _⟩
  | finds_none hp hr =>
    rw [hp] at hk
    exact ⟨hk, _, _, hr⟩
  | kills_pane hp hr _ => exact Call.done_other (Or.inr (Or.inl ⟨_, hr⟩))
  | kills_session hp hr => exact Call.done_other (Or.inr (Or.inr ⟨_, hr⟩))
  | opens_all hp =>
    rw [hp] at hk
    exact Batch.done hk _
  | names hp =>
    rw [hp] at hk
    exact Batch.same hk _
  | opens hp =>
    rw [hp] at hk
    exact ⟨Batch.opens hk _, _, rfl⟩
  | fails hp =>
    rw [hp] at hk
    obtain ⟨-, specs, -, hr, -⟩ := hk
    exact ⟨_, specs, hr.imp_left And.left⟩
  | lists hp =>
    rw [hp] at hk
    exact Batch.same hk.1 _
  | sees_life hp =>
    rw [hp] at hk
    rename_i old
    obtain ⟨hempty, hfound⟩ := hk
    cases w.gone old.id
    · obtain ⟨text, hr⟩ := hfound.request
      exact ⟨hempty, _, _, hr⟩
    · exact ⟨hempty, hfound.same _⟩
  | renames hp =>
    rw [hp] at hk
    exact ⟨hk.1, hk.2.same _⟩
  | reopens hp =>
    rw [hp] at hk
    refine ⟨?_, hk.2.request, hk.2.on, hk.2.base⟩
    change c.opened ++ _ = _
    rw [hk.1]
    rfl
  | replaces hp _ =>
    rw [hp] at hk
    exact hk.2.done (by rw [hk.1]; exact Nat.le_refl 1) _
  | types hp hr hf =>
    rw [hp] at hk
    refine (finds_found hwf hr hf).done ?_ _
    change c.opened.length ≤ 1
    rw [hk.1]
    exact Nat.zero_le 1
  | sweeps hp _ =>
    rw [hp] at hk
    exact Call.done_other (Or.inl hk)
  | has_closed hp | closes hp =>
    rw [hp] at hk
    rename_i next
    cases next with
    | opening session rest => exact Batch.same hk _
    | answering reply =>
      cases reply with
      | ok _ => exact hk
      | error _ => exact trivial
    | _ => exact hk.elim
  | ends hp =>
    rw [hp] at hk
    rename_i reply
    cases reply with
    | ok _ => exact hk
    | error _ => exact trivial

end

/-! ## What it leaves -/

/-- The session of a request that was answered ok. -/
def Call.left_done (c : Call) : Option (List Pane) :=
  match c.request with
  | .start _ _ | .split _ _ => some (c.base ++ c.opened)
  | .send pane _ => some (c.base.map fun p => if p.id = pane then c.opened.headD p else p)
  | _ => none

/-- What the call's session is, as far as the call knows. -/
def Call.left (c : Call) : Option (List Pane) :=
  match c.phase with
  | .opening _ _ | .closing _ (.opening _ _) | .named _ _ _ _ => some (c.base ++ c.opened)
  | .opened _ _ _ => some (c.base ++ c.opened.dropLast)
  | .found _ | .dead _ | .renamed _ _ | .reopened _ _ => some c.base
  | .answering (.ok _) | .closing _ (.answering (.ok _)) | .over (some (.ok _)) => c.left_done
  | _ => none

/-- The call fails, and these of its panes are still to be closed. -/
def Phase.fails : Phase → Option (List Pane)
  | closing panes (answering (.error _)) => some panes
  | answering (.error _) | «over» (some (.error _)) => some []
  | _ => none

/-- The call has done what it was asked for. -/
def Phase.succeeded : Phase → Bool
  | closing _ (answering (.ok _)) | answering (.ok _) | «over» (some (.ok _)) => true
  | _ => false

/-- The request kills a session. -/
def Request.kills : Request → Str → Prop
  | kill_session session, s => session = s
  | shutdown, _ => True
  | _, _ => False

/-- A pane that was opened is listed nowhere, and no thread is about to list it. -/
structure Taken (s : State) (p : Pane) : Prop where
  opened : ∃ j d, s.calls j = some d ∧ p ∈ d.opened
  unlisted : ∀ session, p ∉ s.shared.reg.panes session
  no_more : ∀ j d, s.calls j = some d → p ∉ d.phase.pending

/-- What holds of a call in every state. -/
structure Facts (s : State) (i : ℕ) (c : Call) : Prop where
  knows : c.knows
  place : ∀ panes, c.left = some panes → c.disturbed = false → ∀ session, c.session = some session →
    s.shared.reg.panes session = panes
  undone : ∀ panes, c.phase.fails = some panes → ∀ p ∈ c.opened,
    (s.shared.closed p.id = true ∨ p ∈ panes) ∧ ∀ session, p ∉ s.shared.reg.panes session
  over_then : ∀ j, c.over_then j = true → s.is_over j = true
  spared : c.phase.succeeded = true → ∀ session, c.request.kills session →
    ∀ p ∈ s.shared.reg.panes session, ∀ j d, s.calls j = some d → p ∈ d.opened → c.over_then j = false
  taken : ∀ p ∈ c.took, Taken s p
  swept : ∀ p ∈ c.took, c.phase.succeeded = true ∧ (s.shared.closed p.id = true ∨ p ∈ c.phase.holds)
  retires : c.phase = .retiring → s.shared.retiring = true
  drained : c.drained = true → c.phase.succeeded = true ∧ s.shared.retiring = true ∧
    (∀ session, s.shared.reg.panes session = []) ∧
    ∀ j d, j ≠ i → s.calls j = some d → d.phase = .begun ∨ d.phase.is_over = true

section
variable {s s' : State} {i j : ℕ} {c c' d : Call} {p : Pane} {ended : ℕ → Bool} {busy : ℕ} {o : Outcome}

/-! ### Own steps -/

/-- A pane of a list takes the place of another: what is there is the list with the one for the
other. -/
theorem map_replaced {before after : List Pane} {old pane : Pane}
    (hnodup : ((before ++ old :: after).map Pane.id).Nodup) :
    (before ++ old :: after).map (fun p => if p.id = old.id then pane else p) = before ++ pane :: after := by
  rw [map_append, map_cons] at hnodup
  obtain ⟨-, hafter, hapart⟩ := nodup_append.mp hnodup
  have hbefore : ∀ p ∈ before, ¬ p.id = old.id := fun p hp he =>
    hapart p.id (List.mem_map_of_mem hp) old.id mem_cons_self he
  have hbehind : ∀ p ∈ after, ¬ p.id = old.id := fun p hp he =>
    (nodup_cons.mp hafter).1 (he ▸ List.mem_map_of_mem hp)
  have hid : ∀ {l : List Pane}, (∀ p ∈ l, ¬ p.id = old.id) →
      l.map (fun p => if p.id = old.id then pane else p) = l := fun {l} hl => by
    exact (map_congr_left fun p hp => if_neg (hl p hp)).trans (List.map_id l)
  rw [map_append, map_cons, if_pos rfl, hid hbefore, hid hbehind]

theorem Call.left_batch (h : ∃ session specs, c.request = .start session specs ∨ c.request = .split session specs) :
    c.left_done = some (c.base ++ c.opened) := by
  obtain ⟨session, specs, hr | hr⟩ := h <;> rw [Call.left_done, hr]

theorem Call.left_kill (hr : c.request = .shutdown ∨ (∃ pane, c.request = .kill_pane pane) ∨
    ∃ session, c.request = .kill_session session) : c.left_done = none := by
  rcases hr with hr | ⟨pane, hr⟩ | ⟨session, hr⟩ <;> rw [Call.left_done, hr]

theorem Call.left_send {pane text : Str} (hr : c.request = .send pane text) :
    c.left_done = some (c.base.map fun p => if p.id = pane then c.opened.headD p else p) := by
  rw [Call.left_done, hr]

theorem Batch.asks {session : Str} {rest : List PaneSpec} (h : Batch c session rest) :
    ∃ session specs, c.request = .start session specs ∨ c.request = .split session specs := by
  obtain ⟨specs, -, hr, -, -⟩ := h.specs
  exact ⟨session, specs, hr.imp_left And.left⟩

/-- The list a pane is found in. -/
theorem finds_base {r : Registry} {old : Pane} {session : Str}
    (hsession : (c.finds r old).session = some session) : r.panes session = (c.finds r old).base := by
  change Call.session_of r old = some session at hsession
  change r.panes session = ((Call.session_of r old).map r.panes).getD []
  rw [hsession]
  rfl

theorem Facts.own_place (hinv : Inv s) (h : Facts s i c) (ha : After s s' i c c')
    (hdid : Did s.shared ended busy c o s'.shared c') : ∀ panes, c'.left = some panes →
    c'.disturbed = false → ∀ session, c'.session = some session → s'.shared.reg.panes session = panes := by
  intro panes hleft hcalm session hsession
  have hold := h.place
  have hk := h.knows
  unfold Call.knows at hk
  unfold Call.left at hold
  generalize hw : s'.shared = w' at hdid ⊢
  cases hdid with
  | looks hp => cases hr : s.shared.retiring <;> rw [hr] at hleft <;> exact nomatch hleft
  | refuses _ | finds_none _ _ | retires _ _ | fails _ | rolls_back _ | reopen_fails _ | not_there _
  | types_not _ => exact nomatch hleft
  | starts hp hr _ =>
    rw [hp] at hk
    cases hsession
    cases hleft
    change (s.shared.reg.take _).panes _ = [] ++ c.opened
    rw [Registry.panes_take, if_pos rfl, show c.opened = [] from hk]
    rfl
  | splits hp hr =>
    rw [hp] at hk
    cases hsession
    cases hleft
    change _ = s.shared.reg.panes _ ++ c.opened
    rw [show c.opened = [] from hk, append_nil]
  | finds hp hr hf =>
    cases hleft
    exact finds_base (c := c) hsession
  | kills_pane hp hr _ =>
    have hnone : c.left_done = none := Call.left_kill (Or.inr (Or.inl ⟨_, hr⟩))
    exact nomatch hnone.symm.trans hleft
  | kills_session hp hr =>
    rename_i killed
    have hnone : (c.works_on (some killed) []).left_done = none :=
      Call.left_kill (Or.inr (Or.inr ⟨killed, hr⟩))
    exact nomatch hnone.symm.trans hleft
  | sweeps hp _ =>
    rw [hp] at hk
    have hnone : c.left_done = none := Call.left_kill (Or.inl hk)
    exact nomatch hnone.symm.trans hleft
  | opens_all hp =>
    rw [hp] at hk hold
    have hbatch : c.left_done = some panes := hleft
    rw [Call.left_batch (Batch.asks hk)] at hbatch
    exact hold panes hbatch hcalm session hsession
  | names hp | renames hp | reopens hp =>
    rw [hp] at hold
    exact hold panes hleft hcalm session hsession
  | opens hp =>
    rw [hp] at hold
    cases hleft
    refine hold _ ?_ hcalm session hsession
    change _ = some (c.base ++ (c.opened ++ [_]).dropLast)
    rw [dropLast_concat]
  | lists hp =>
    rw [hp] at hk hold
    obtain ⟨hbatch, listed, hlisted⟩ := hk
    obtain rfl := some.inj (hbatch.on.symm.trans hsession)
    cases hleft
    have hbefore := hold _ rfl hcalm _ hbatch.on
    rw [hlisted, dropLast_concat] at hbefore
    change (s.shared.reg.push _ _).panes _ = c.base ++ c.opened
    rw [Registry.panes_push, if_pos rfl, hbefore, hlisted, append_assoc]
  | sees_life hp =>
    rw [hp] at hold
    rename_i old
    cases hg : s.shared.gone old.id with
    | true =>
      rw [hg] at hleft
      exact hold panes hleft hcalm session hsession
    | false =>
      rw [hg] at hleft
      exact nomatch hleft
  | replaces hp hrep =>
    rw [hp] at hk hold
    rename_i old pane reg
    obtain ⟨hopened, hfound⟩ := hk
    obtain ⟨text, hr⟩ := hfound.request
    have hsend : c.left_done = some panes := hleft
    rw [Call.left_send hr, hopened] at hsend
    cases hsend
    have hbase : s.shared.reg.panes session = c.base := hold _ rfl hcalm session hsession
    obtain ⟨-, -, session', before, old', after, hpanes, hid, hpanes'⟩ :=
      Registry.replace_eq_some hinv.wf hrep
    -- ids are unique, so this is the list where the pane was found
    have hmem : old' ∈ s.shared.reg.panes session' := by
      rw [hpanes]
      exact mem_append_right _ mem_cons_self
    have hsame : session' = session := by
      by_contra hne
      exact hinv.once_all session' session hne old' hmem old (hbase ▸ hfound.base) hid
    subst hsame
    have hnodup := hinv.once session'
    rw [hpanes] at hnodup
    rw [hpanes', if_pos rfl, ← hbase, hpanes, ← hid]
    exact (map_replaced hnodup).symm
  | types hp hr hf =>
    rw [hp] at hk
    rename_i pane text found
    have hsend : (c.finds s.shared.reg found).left_done = some panes := hleft
    have hempty : (c.finds s.shared.reg found).opened = [] := hk.1
    have hreq : (c.finds s.shared.reg found).request = .send pane text := hr
    rw [Call.left_send hreq, hempty] at hsend
    cases hsend
    rw [finds_base (c := c) hsession]
    exact ((map_congr_left fun p _ => ite_self p).trans (List.map_id _)).symm
  | has_closed hp | closes hp =>
    rw [hp] at hk hold
    rename_i next
    cases next with
    | opening session rest => exact hold panes hleft hcalm _ hsession
    | answering reply =>
      cases reply with
      | ok _ => exact hold panes hleft hcalm _ hsession
      | error _ => exact nomatch hleft
    | _ => exact hk.elim
  | ends hp =>
    rw [hp] at hold
    rename_i reply
    cases reply with
    | ok _ => exact hold panes hleft hcalm _ hsession
    | error _ => exact nomatch hleft

/-- A request that fails leaves nothing. -/
theorem Facts.own_undone (hinv : Inv s) (h : Facts s i c) (hc : s.calls i = some c)
    (hdid : Did s.shared ended busy c o s'.shared c') : ∀ panes, c'.phase.fails = some panes →
    ∀ p ∈ c'.opened, (s'.shared.closed p.id = true ∨ p ∈ panes) ∧
      ∀ session, p ∉ s'.shared.reg.panes session := by
  intro panes hfails p hp
  have hold := h.undone
  have hk := h.knows
  have hpending := hinv.pending i c hc
  unfold Call.knows at hk
  generalize hw : s'.shared = w' at hdid ⊢
  -- the panes are in the phase from the failure on, and each close takes one
  cases hdid with
  | looks hphase => cases hr : s.shared.retiring <;> rw [hr] at hfails <;> exact nomatch hfails
  | sees_life hphase =>
    rename_i old
    cases hr : s.shared.gone old.id <;> rw [hr] at hfails <;> exact nomatch hfails
  | refuses hphase =>
    rw [hphase] at hk
    exact absurd (hk ▸ hp) not_mem_nil
  | reopen_fails hphase | types_not hphase =>
    rw [hphase] at hk
    exact absurd (hk.1 ▸ hp) not_mem_nil
  | rolls_back hphase =>
    cases hfails
    refine ⟨Or.inr hp, fun session hlisted => ?_⟩
    obtain ⟨-, -, hpanes⟩ := Registry.panes_drop_all hinv.wf c.opened
    change p ∈ (c.opened.foldl (fun reg pane => reg.drop_pane pane.id) s.shared.reg).panes session at hlisted
    rw [hpanes] at hlisted
    have hnot := of_mem_filter hlisted
    have hmem : p.id ∈ c.opened.map Pane.id := List.mem_map_of_mem hp
    simp [hmem] at hnot
  | not_there hphase =>
    rename_i pane error
    cases hfails
    rw [hphase] at hk hpending
    change p ∈ c.opened at hp
    rw [hk.1] at hp
    exact ⟨Or.inr hp, (hpending p hp).2⟩
  | has_closed hphase =>
    rw [hphase] at hold hk
    rename_i next
    cases next with
    | answering reply =>
      cases reply with
      | ok _ => exact nomatch hfails
      | error _ =>
        cases hfails
        exact hold [] rfl p hp
    | opening _ _ => exact nomatch hfails
    | _ => exact hk.elim
  | closes hphase =>
    rw [hphase] at hold hk
    rename_i pane rest next
    cases next with
    | answering reply =>
      cases reply with
      | ok _ => exact nomatch hfails
      | error _ =>
        cases hfails
        obtain ⟨hclosed, hnot⟩ := hold _ rfl p hp
        refine ⟨?_, hnot⟩
        change Function.update s.shared.closed pane.id true p.id = true ∨ _
        by_cases he : p.id = pane.id
        · rw [he, Function.update_self]
          exact Or.inl rfl
        · rw [Function.update_of_ne he]
          refine hclosed.imp_right fun hmem => (mem_cons.mp hmem).resolve_left fun heq => he (by rw [heq])
    | opening _ _ => exact nomatch hfails
    | _ => exact hk.elim
  | ends hphase =>
    rw [hphase] at hold
    rename_i reply
    cases reply with
    | ok _ => exact nomatch hfails
    | error _ =>
      cases hfails
      exact hold [] rfl p hp
  | _ => exact nomatch hfails

/-- A request that is to succeed has just emptied what it kills, or had succeeded before. -/
theorem Did.succeeds {w w' : Shared} (h : Did w ended busy c o w' c') (hk : c.knows)
    (hs : c'.phase.succeeded = true) {session : Str} (hkills : c'.request.kills session) :
    w'.reg.panes session = [] ∧ c'.over_then = ended ∨
      c.phase.succeeded = true ∧ w'.reg = w.reg ∧ c'.over_then = c.over_then ∧
        c'.request = c.request ∧ c'.drained = c.drained := by
  unfold Call.knows at hk
  cases h with
  | looks hp => cases hr : w.retiring <;> rw [hr] at hs <;> exact nomatch hs
  | sees_life hp =>
    rename_i old
    cases hr : w.gone old.id <;> rw [hr] at hs <;> exact nomatch hs
  | kills_pane hp hr _ | types hp hr _ =>
    have hkills' : c.request.kills session := hkills
    rw [hr] at hkills'
    exact hkills'.elim
  | kills_session hp hr =>
    rename_i killed
    have hkills' : c.request.kills session := hkills
    rw [hr] at hkills'
    obtain rfl : killed = session := hkills'
    -- the list is taken out in this very step
    refine Or.inl ⟨?_, rfl⟩
    change (w.reg.take killed).panes killed = []
    rw [Registry.panes_take, if_pos rfl]
  | sweeps hp _ => exact Or.inl ⟨rfl, rfl⟩
  | opens_all hp =>
    rw [hp] at hk
    -- only a start or a split opens panes, and neither kills
    obtain ⟨session', specs, hr | hr⟩ := Batch.asks hk <;>
      · have hkills' : c.request.kills session := hkills
        rw [hr] at hkills'
        exact hkills'.elim
  | replaces hp _ =>
    rw [hp] at hk
    obtain ⟨text, hr⟩ := hk.2.request
    have hkills' : c.request.kills session := hkills
    rw [hr] at hkills'
    exact hkills'.elim
  | has_closed hp | closes hp =>
    rw [hp] at hk
    refine Or.inr ⟨?_, rfl, rfl, rfl, rfl⟩
    rename_i next
    rw [hp]
    cases next with
    | opening session rest => exact nomatch hs
    | answering reply =>
      cases reply with
      | ok _ => rfl
      | error _ => exact nomatch hs
    | _ => exact hk.elim
  | ends hp =>
    refine Or.inr ⟨?_, rfl, rfl, rfl, rfl⟩
    rename_i reply
    rw [hp]
    cases reply with
    | ok _ => rfl
    | error _ => exact nomatch hs
  | _ => exact nomatch hs

end

end Lpm.Sessions
